/-
# Dictionaries in any order

`_fetch_siblings` returns 0 both for a node without children and at a word that is out of
order, and `_insert` takes either for a leaf; where the words of a character lie in several
runs, the last run replaces the others.  The main result is `keepsWords_iff`: it says exactly
which dictionaries lose no word.  The condition is on the runs of equal characters into which
the dictionary falls, prefix by prefix (`Grouped`).
-/
import Sunet.Dat.Exact

namespace Sunet
namespace Dat

open StringUtil

/-! ## Runs of equal keys -/

/-- A maximal run of the words from `lo` up to `hi` with the key `c`. -/
structure Run (key : ℕ → ℕ) (lo hi c lo' hi' : ℕ) : Prop where
  left_le : lo ≤ lo'
  nonempty : lo' < hi'
  right_le : hi' ≤ hi
  key_eq : ∀ j, lo' ≤ j → j < hi' → key j = c
  left_max : lo < lo' → key (lo' - 1) ≠ c
  right_max : hi' < hi → key hi' ≠ c

/-- The last run of a key. -/
structure LastRun (key : ℕ → ℕ) (lo hi c lo' hi' : ℕ) : Prop extends
    Run key lo hi c lo' hi' where
  last : ∀ j, hi' ≤ j → j < hi → key j ≠ c

/-- Two maximal runs that share a word are the same. -/
lemma Run.unique {key : ℕ → ℕ} {lo hi c l r l' r' j : ℕ} (h : Run key lo hi c l r)
    (h' : Run key lo hi c l' r') (hj : l ≤ j ∧ j < r) (hj' : l' ≤ j ∧ j < r') :
    l = l' ∧ r = r' := by
  have hleft : ∀ {l r l' r' : ℕ}, Run key lo hi c l r → Run key lo hi c l' r' →
      l ≤ j ∧ j < r → l' ≤ j ∧ j < r' → l ≤ l' := by
    intro l r l' r' h h' hj hj'
    by_contra hlt
    have hle := h'.left_le
    exact h.left_max (by omega) (h'.key_eq (l - 1) (by omega) (by omega))
  have hright : ∀ {l r l' r' : ℕ}, Run key lo hi c l r → Run key lo hi c l' r' →
      l ≤ j ∧ j < r → l' ≤ j ∧ j < r' → r' ≤ r := by
    intro l r l' r' h h' hj hj'
    by_contra hlt
    have hle := h'.right_le
    exact h.right_max (by omega) (h'.key_eq r (by omega) (by omega))
  exact ⟨le_antisymm (hleft h h' hj hj') (hleft h' h hj' hj),
    le_antisymm (hright h' h hj' hj) (hright h h' hj hj')⟩

lemma LastRun.unique {key : ℕ → ℕ} {lo hi c l r l' r' : ℕ} (h : LastRun key lo hi c l r)
    (h' : LastRun key lo hi c l' r') : l = l' ∧ r = r' := by
  have hle : ∀ {l r l' r' : ℕ}, LastRun key lo hi c l r → LastRun key lo hi c l' r' →
      r' ≤ r := by
    intro l r l' r' h h'
    by_contra hlt
    have hne := h'.nonempty
    have hright := h'.right_le
    exact h.last (r' - 1) (by omega) (by omega) (h'.key_eq (r' - 1) (by omega) (by omega))
  have hr : r = r' := le_antisymm (hle h' h) (hle h h')
  have hne := h.nonempty
  have hne' := h'.nonempty
  exact h.toRun.unique h'.toRun (j := r - 1) ⟨by omega, by omega⟩ ⟨by omega, by omega⟩

/-! ## The runs of a chain -/

lemma Chain.length_le {key : ℕ → ℕ} {depth lo hi : ℕ} {xs : List TreeNode}
    (h : Chain key depth lo hi xs) : lo + xs.length ≤ hi := by
  induction xs generalizing lo with
  | nil => exact le_of_eq h
  | cons x xs ih =>
    obtain ⟨-, -, hx, -, hrest⟩ := h
    have := ih hrest
    rw [List.length_cons]
    omega

lemma Chain.ne_nil {key : ℕ → ℕ} {depth lo hi : ℕ} {xs : List TreeNode}
    (h : Chain key depth lo hi xs) (hlt : lo < hi) : xs ≠ [] := by
  rintro rfl
  have heq : lo = hi := h
  omega

/-- The nodes of a chain are maximal runs where neighbours have different codes. -/
lemma Chain.run {key : ℕ → ℕ} {depth lo hi : ℕ} {xs : List TreeNode}
    (h : Chain key depth lo hi xs) (hdiff : (xs.map TreeNode.code).IsChain (· ≠ ·))
    {s : TreeNode} (hs : s ∈ xs) : Run key lo hi s.code s.left s.right := by
  induction xs generalizing lo with
  | nil => cases hs
  | cons x xs ih =>
    have hnode := h.node hs
    obtain ⟨-, hleft, hx, hkey, hrest⟩ := h
    -- behind the range of `x` comes the range of a node with another code
    have hnext : x.right < hi → key x.right ≠ x.code := by
      intro hlt
      cases xs with
      | nil =>
        have heq : x.right = hi := hrest
        omega
      | cons y ys =>
        rw [List.map_cons, List.map_cons, List.isChain_cons_cons] at hdiff
        obtain ⟨-, -, hy, hkey', -⟩ := hrest
        rw [hkey' x.right le_rfl hy]
        exact fun h => hdiff.1 h.symm
    rcases List.mem_cons.mp hs with rfl | hs
    · exact ⟨hleft.ge, by omega, hrest.le, fun j hj hj' => hkey j (by omega) hj',
        fun hlt => by omega, hnext⟩
    · have hrun := ih hrest hdiff.tail hs
      refine ⟨by have := hrun.left_le; omega, hrun.nonempty, hrun.right_le, hrun.key_eq, ?_,
        hrun.right_max⟩
      intro _
      by_cases hlt : x.right < s.left
      · exact hrun.left_max hlt
      · have heq : s.left = x.right := by
          have := hrun.left_le
          omega
        have hend := hrun.right_le
        have hne := hrun.nonempty
        have hcode := hrun.key_eq s.left le_rfl hne
        rw [heq] at hcode
        rw [heq, hkey (x.right - 1) (by omega) (by omega), ← hcode]
        exact fun h => hnext (by omega) h.symm

/-- Every maximal run is a node of the chain. -/
lemma Chain.exists_run {key : ℕ → ℕ} {depth lo hi c lo' hi' : ℕ} {xs : List TreeNode}
    (h : Chain key depth lo hi xs) (hdiff : (xs.map TreeNode.code).IsChain (· ≠ ·))
    (hrun : Run key lo hi c lo' hi') : ∃ s ∈ xs, s.left = lo' ∧ s.right = hi' ∧ s.code = c := by
  have hne := hrun.nonempty
  have hright := hrun.right_le
  obtain ⟨s, hs, hl, hr, hkey⟩ := h.exists_node hrun.left_le (by omega)
  have hcode : s.code = c := by rw [← hkey, hrun.key_eq lo' le_rfl hne]
  have hrun' := h.run hdiff hs
  rw [hcode] at hrun'
  obtain ⟨hl', hr'⟩ := hrun'.unique hrun ⟨hl, hr⟩ ⟨le_rfl, hne⟩
  exact ⟨s, hs, hl', hr', hcode⟩

/-- The last sibling with a code is the last run of the code. -/
lemma Chain.lastRun {key : ℕ → ℕ} {depth lo hi c : ℕ} {xs : List TreeNode}
    (h : Chain key depth lo hi xs) (hdiff : (xs.map TreeNode.code).IsChain (· ≠ ·))
    {s : TreeNode} (hs : DatImpl.lastSib xs c = some s) :
    LastRun key lo hi c s.left s.right := by
  obtain ⟨hmem, hcode⟩ := DatImpl.lastSib_eq_some hs
  have hrun := h.run hdiff hmem
  rw [hcode] at hrun
  refine ⟨hrun, ?_⟩
  clear hrun hdiff hmem
  induction xs generalizing lo with
  | nil => cases hs
  | cons x xs ih =>
    obtain ⟨-, -, hx, -, hrest⟩ := h
    rw [DatImpl.lastSib_cons] at hs
    cases hlast : DatImpl.lastSib xs c with
    | some s' =>
      rw [hlast, Option.some_or] at hs
      rw [hs] at hlast
      exact ih hrest hlast
    | none =>
      rw [hlast, Option.none_or] at hs
      split at hs
      · cases hs
        intro j hj hj' hkey
        obtain ⟨y, hy, -, -, hy'⟩ := hrest.exists_node hj hj'
        exact DatImpl.lastSib_eq_none.mp hlast y hy (by rw [← hy', hkey])
      · cases hs

lemma Chain.lastSib_eq_none {key : ℕ → ℕ} {depth lo hi c : ℕ} {xs : List TreeNode}
    (h : Chain key depth lo hi xs) (hs : DatImpl.lastSib xs c = none) :
    ∀ j, lo ≤ j → j < hi → key j ≠ c := by
  intro j hj hj' hkey
  obtain ⟨y, hy, -, -, hy'⟩ := h.exists_node hj hj'
  exact DatImpl.lastSib_eq_none.mp hs y hy (by rw [← hy', hkey])

/-! ## The ranges of a dictionary -/

/-- The ranges of words that have siblings: the whole table, and in a range each maximal run of
words that go on with the same character. -/
inductive Reached (T : List (List ℕ)) : ℕ → ℕ → ℕ → Prop
  | root : Reached T 0 0 T.length
  | child {depth lo hi c lo' hi' : ℕ} : Reached T depth lo hi →
      Run (key T depth) lo hi c lo' hi' → c ≠ 0 → Reached T (depth + 1) lo' hi'

/-- In no range do the characters descend, except to the end of a word. -/
def Ordered (T : List (List ℕ)) : Prop :=
  ∀ depth lo hi, Reached T depth lo hi → InOrder (key T depth) lo hi

/-- The last runs of the characters of a word lead to a range where a word ends. -/
def Kept (T : List (List ℕ)) : ℕ → ℕ → ℕ → List ℕ → Prop
  | depth, lo, hi, [] => ∃ j, lo ≤ j ∧ j < hi ∧ key T depth j = 0
  | depth, lo, hi, c :: w =>
    ∃ lo' hi', LastRun (key T depth) lo hi c lo' hi' ∧ Kept T (depth + 1) lo' hi' w

lemma length_of_key_ne {T : List (List ℕ)} {depth j : ℕ} (h : key T depth j ≠ 0) :
    depth < (word T j).length := by
  by_contra hle
  rw [key, List.getD_eq_default _ _ (not_lt.mp hle)] at h
  exact h rfl

lemma length_of_key_eq {T : List (List ℕ)} (hpos : ∀ w ∈ T, ∀ c ∈ w, 0 < c) {depth j : ℕ}
    (hj : j < T.length) (h : key T depth j = 0) : (word T j).length ≤ depth := by
  by_contra hlt
  rw [key, List.getD_eq_getElem _ _ (not_le.mp hlt)] at h
  have := hpos _ (word_mem hj) _ (List.getElem_mem (not_le.mp hlt))
  omega

/-- A range is not empty, and its words are long enough for its depth. -/
lemma Reached.block {T : List (List ℕ)} (hne : T ≠ []) {depth lo hi : ℕ}
    (h : Reached T depth lo hi) :
    lo < hi ∧ hi ≤ T.length ∧ ∀ j, lo ≤ j → j < hi → depth ≤ (word T j).length := by
  induction h with
  | root => exact ⟨List.length_pos_iff.mpr hne, le_rfl, fun _ _ _ => Nat.zero_le _⟩
  | child _ hrun hc ih =>
    refine ⟨hrun.nonempty, hrun.right_le.trans ih.2.1, fun j hj hj' => ?_⟩
    refine length_of_key_ne ?_
    rw [hrun.key_eq j hj hj']
    exact hc

namespace DatImpl

variable {α : Type}

/-- The node of a range. -/
def IsRange (T : List (List ℕ)) (nd : TreeNode) : Prop := Reached T nd.depth nd.left nd.right

lemma isRange_root (d : DatImpl α) : IsRange d.table d.root := by
  have hlen : d.dicts.length = d.table.length := by rw [table, List.length_map]
  rw [IsRange, root, hlen]
  exact Reached.root

lemma IsRange.block {T : List (List ℕ)} (hne : T ≠ []) {nd : TreeNode} (h : IsRange T nd) :
    Block T nd :=
  ⟨(Reached.block hne h).1, (Reached.block hne h).2.1, (Reached.block hne h).2.2⟩

/-- A sibling in a range is the node of a range again, or a leaf. -/
lemma IsRange.child {d : DatImpl α} (hne : d.table ≠ []) (hpos : ∀ w ∈ d.table, ∀ c ∈ w, 0 < c)
    {nd : TreeNode} (h : IsRange d.table nd) {sibs : List TreeNode}
    (hchain : Chain (key d.table nd.depth) (nd.depth + 1) nd.left nd.right sibs)
    (hdiff : (sibs.map TreeNode.code).IsChain (· ≠ ·)) {s : TreeNode} (hs : s ∈ sibs) :
    s.depth = nd.depth + 1 ∧
      (s.code ≠ 0 ∧ IsRange d.table s ∨ s.code = 0 ∧ d.fetchSiblings s = .ok (0, [])) := by
  obtain ⟨hdepth, hlo, -, hhi, hkey⟩ := hchain.node hs
  refine ⟨hdepth, ?_⟩
  by_cases hc : s.code = 0
  · have hright := (h.block hne).right_le
    refine Or.inr ⟨hc, fetchSiblings_of_short (hhi.trans hright) fun j hj hj' => ?_⟩
    rw [hdepth, Nat.lt_succ_iff]
    refine length_of_key_eq hpos (by omega) ?_
    rw [hkey j hj hj', hc]
  · refine Or.inl ⟨hc, ?_⟩
    rw [IsRange, hdepth]
    exact Reached.child h (hchain.run hdiff hs) hc

/-- A block of words in order has siblings. -/
lemma fetchSiblings_succ {d : DatImpl α} {nd : TreeNode} (hblock : Block d.table nd)
    (hord : InOrder (key d.table nd.depth) nd.left nd.right) :
    ∃ n sibs, d.fetchSiblings nd = .ok (n + 1, sibs) ∧
      Chain (key d.table nd.depth) (nd.depth + 1) nd.left nd.right sibs ∧
      (sibs.map TreeNode.code).IsChain (· ≠ ·) := by
  obtain ⟨sibs, hfetch, hchain, hdiff⟩ := fetchSiblings_of_inOrder hblock hord
  obtain ⟨n, hn⟩ := Nat.exists_eq_succ_of_ne_zero
    (List.length_eq_zero_iff.not.mpr (hchain.ne_nil hblock.nonempty))
  exact ⟨n, sibs, by rw [hfetch, hn], hchain, hdiff⟩

/-- Where the dictionary is ordered, every range has siblings. -/
lemma IsRange.fetch {d : DatImpl α} (hne : d.table ≠ []) (hord : Ordered d.table) {nd : TreeNode}
    (h : IsRange d.table nd) : ∃ n sibs, d.fetchSiblings nd = .ok (n + 1, sibs) ∧
      Chain (key d.table nd.depth) (nd.depth + 1) nd.left nd.right sibs ∧
      (sibs.map TreeNode.code).IsChain (· ≠ ·) :=
  fetchSiblings_succ (h.block hne) (hord _ _ _ h)

/-! ## The walk over an ordered dictionary -/

/-- At the end of a query the walk finds the word that ends in the range, if there is one. -/
lemma walk_nil_range {d t : DatImpl α} (hne : d.table ≠ [])
    (hpos : ∀ w ∈ d.table, ∀ c ∈ w, 0 < c) (hord : Ordered d.table) (ht : CellsInside t)
    {p : List ℕ} {nd : TreeNode} {n b : ℕ} {sibs : List TreeNode} (hrange : IsRange d.table nd)
    (hdepth : nd.depth = p.length)
    (hpre : ∀ j, nd.left ≤ j → j < nd.right → p <+: word d.table j)
    (hfetch : d.fetchSiblings nd = .ok (n, sibs)) (hbuilt : Built d.fetchSiblings t b sibs) :
    (Kept d.table nd.depth nd.left nd.right [] ↔ ∃ i : ℕ, t.walk [] b = .ok (i : ℤ)) ∧
      ∀ i : ℕ, t.walk [] b = .ok (i : ℤ) → i < d.table.length ∧ word d.table i = p := by
  obtain ⟨m, sibs', hfetch', hchain, hdiff⟩ := hrange.fetch hne hord
  rw [hfetch] at hfetch'
  cases hfetch'
  have hright := (hrange.block hne).right_le
  rw [Kept]
  cases hlast : lastSib sibs 0 with
  | none =>
    rw [hbuilt.walk_nil_none ht hlast]
    refine ⟨iff_of_false ?_ ?_, fun i hi => ?_⟩
    · rintro ⟨j, hj, hj', hkey⟩
      exact hchain.lastSib_eq_none hlast j hj hj' hkey
    · rintro ⟨i, hi⟩
      have := Except.ok.inj hi
      omega
    · have := Except.ok.inj hi
      omega
  | some s =>
    -- the sibling with the code 0 is a leaf, whose base tells its first word
    obtain ⟨hs, hc⟩ := lastSib_eq_some hlast
    obtain ⟨-, hlo, hlt, hhi, hkey⟩ := hchain.node hs
    have hleaf : d.fetchSiblings s = .ok (0, []) := by
      rcases (hrange.child hne hpos hchain hdiff hs).2 with ⟨hc', -⟩ | ⟨-, hleaf⟩
      · exact absurd hc hc'
      · exact hleaf
    have hkey0 : key d.table nd.depth s.left = 0 := by rw [hkey s.left le_rfl hlt, hc]
    rw [hbuilt.walk_nil_leaf ht hlast hleaf]
    refine ⟨iff_of_true ⟨s.left, hlo, by omega, hkey0⟩ ⟨s.left, rfl⟩, fun i hi => ?_⟩
    obtain rfl : s.left = i := by exact_mod_cast Except.ok.inj hi
    have hin : s.left < d.table.length := by omega
    refine ⟨hin, (eq_iff_prefix_zero (hpos _ (word_mem hin))).mpr ⟨?_, ?_⟩⟩
    · exact hpre s.left hlo (by omega)
    · rw [← hdepth]
      exact hkey0

/-- Over an ordered dictionary the walk from a range finds exactly the words that are kept, and
what it finds has the characters of the path. -/
lemma walk_range {d t : DatImpl α} (hne : d.table ≠ []) (hpos : ∀ w ∈ d.table, ∀ c ∈ w, 0 < c)
    (hord : Ordered d.table) (ht : CellsInside t) :
    ∀ (cnWords : List Bytes) (p : List ℕ) (nd : TreeNode) (n b : ℕ) (sibs : List TreeNode),
      (∀ w ∈ cnWords, IsToken w ∧ 0 < cnCode w) → IsRange d.table nd → nd.depth = p.length →
      (∀ j, nd.left ≤ j → j < nd.right → p <+: word d.table j) →
      d.fetchSiblings nd = .ok (n, sibs) → Built d.fetchSiblings t b sibs →
      (Kept d.table nd.depth nd.left nd.right (cnWords.map cnCode) ↔
        ∃ i : ℕ, t.walk cnWords b = .ok (i : ℤ)) ∧
      ∀ i : ℕ, t.walk cnWords b = .ok (i : ℤ) →
        i < d.table.length ∧ word d.table i = p ++ cnWords.map cnCode := by
  -- by induction on the characters that are left: a child of a range is a range again
  intro cnWords
  induction cnWords with
  | nil =>
    intro p nd n b sibs _ hrange hdepth hpre hfetch hbuilt
    rw [List.map_nil, List.append_nil]
    exact walk_nil_range hne hpos hord ht hrange hdepth hpre hfetch hbuilt
  | cons w cnWords ih =>
    intro p nd n b sibs htok hrange hdepth hpre hfetch hbuilt
    obtain ⟨m, sibs', hfetch', hchain, hdiff⟩ := hrange.fetch hne hord
    rw [hfetch] at hfetch'
    cases hfetch'
    obtain ⟨hw, hc⟩ := htok w List.mem_cons_self
    rw [List.map_cons, Kept]
    cases hlast : lastSib sibs (cnCode w) with
    | none =>
      -- no word of the range goes on with the character
      have hwalk : ∀ i : ℕ, t.walk (w :: cnWords) b ≠ .ok (i : ℤ) := by
        intro i hi
        rw [hbuilt.walk_cons_none hw cnWords hlast, Except.ite_eq_ok] at hi
        have := Except.ok.inj hi.2
        omega
      refine ⟨iff_of_false ?_ fun h => hwalk _ h.choose_spec, fun i hi => absurd hi (hwalk i)⟩
      rintro ⟨lo', hi', hrun, -⟩
      have hlo := hrun.left_le
      have hne' := hrun.nonempty
      have hhi := hrun.right_le
      exact hchain.lastSib_eq_none hlast lo' hlo (by omega) (hrun.key_eq lo' le_rfl hne')
    | some s =>
      obtain ⟨hs, hcode⟩ := lastSib_eq_some hlast
      obtain ⟨-, hlo, -, hhi, hkey⟩ := hchain.node hs
      obtain ⟨hdepth', hcase⟩ := hrange.child hne hpos hchain hdiff hs
      have hrange' : IsRange d.table s := by
        rcases hcase with ⟨-, h⟩ | ⟨h, -⟩
        · exact h
        · omega
      -- the walk goes on below the last run of the character
      obtain ⟨k, subs, hsubs, -, -⟩ := hrange'.fetch hne hord
      obtain ⟨nb, hnb, hbuilt'⟩ := hbuilt.child hlast hsubs
      have hpre' : ∀ j, s.left ≤ j → j < s.right → p ++ [cnCode w] <+: word d.table j := by
        intro j hj hj'
        refine (prefix_concat_iff (by omega)).mpr ⟨hpre j (by omega) (by omega), ?_⟩
        rw [← hdepth, ← hcode]
        exact hkey j hj hj'
      obtain ⟨hiff, hfound⟩ := ih (p ++ [cnCode w]) s (k + 1) nb subs
        (fun w' hw' => htok w' (List.mem_cons_of_mem _ hw')) hrange' (by simp [hdepth', hdepth])
        hpre' hsubs hbuilt'
      rw [hbuilt.walk_cons_some ht hw cnWords hlast, hnb]
      have hrun := hchain.lastRun hdiff hlast
      refine ⟨?_, fun i hi => ?_⟩
      · rw [← hiff, hdepth']
        constructor
        · rintro ⟨lo', hi', hrun', hkept⟩
          obtain ⟨rfl, rfl⟩ := hrun.unique hrun'
          exact hkept
        · exact fun hkept => ⟨s.left, s.right, hrun, hkept⟩
      · obtain ⟨hin, hword⟩ := hfound i hi
        refine ⟨hin, ?_⟩
        rw [hword, List.append_assoc, List.singleton_append]

/-! ## The build of an ordered dictionary -/

/-- The ranges of an ordered dictionary form a tree, by induction on the characters that are
left. -/
lemma IsRange.tame {d : DatImpl α} (hne : d.table ≠ []) (hpos : ∀ w ∈ d.table, ∀ c ∈ w, 0 < c)
    (hK : CodesLt d.table) (hord : Ordered d.table) :
    ∀ (D : ℕ) (nd : TreeNode) (n : ℕ) (sibs : List TreeNode), IsRange d.table nd →
      (∀ j < d.table.length, (word d.table j).length < nd.depth + D) →
      d.fetchSiblings nd = .ok (n, sibs) → Tame d.fetchSiblings d.table.length D sibs := by
  intro D
  induction D with
  | zero =>
    intro nd n sibs hrange hD _
    -- a range at the depth of its longest word has no word left
    have hblock := hrange.block hne
    have hlt := hblock.nonempty
    have hle := hblock.right_le
    have hshort := hD nd.left (by omega)
    have hlong := hblock.long nd.left le_rfl hlt
    omega
  | succ D ih =>
    intro nd n sibs hrange hD hfetch
    have hblock := hrange.block hne
    have hle := hblock.right_le
    obtain ⟨m, sibs', hfetch', hchain, hdiff⟩ := hrange.fetch hne hord
    rw [hfetch] at hfetch'
    cases hfetch'
    refine Tame.mk D sibs (hchain.ne_nil hblock.nonempty) ?_ (fun s hs => ?_) (fun s hs => ?_)
      fun s hs k subs hsubs => ?_
    · have := hchain.length_le
      omega
    · obtain ⟨-, hlo, hlt, hhi, hkey⟩ := hchain.node hs
      rw [← hkey s.left le_rfl hlt, key, List.getD_eq_getElem?_getD]
      rcases hget : (word d.table s.left)[nd.depth]? with _ | c
      · simp
      · exact hK _ (word_mem (by omega)) c (List.mem_of_getElem? hget)
    · rcases (hrange.child hne hpos hchain hdiff hs).2 with ⟨-, hrange'⟩ | ⟨-, hleaf⟩
      · obtain ⟨k, subs, hsubs, -⟩ := hrange'.fetch hne hord
        exact ⟨_, hsubs⟩
      · exact ⟨_, hleaf⟩
    · obtain ⟨hdepth, ⟨-, hrange'⟩ | ⟨-, hleaf⟩⟩ := hrange.child hne hpos hchain hdiff hs
      · refine ih s (k + 1) subs hrange' (fun j hj => ?_) hsubs
        have := hD j hj
        omega
      · rw [hleaf] at hsubs
        cases hsubs

/-! ## Which dictionaries lose no word -/

/-- The nodes that `_insert` hands to `_fetch_siblings`. -/
inductive Visited (d : DatImpl α) : TreeNode → Prop
  | root {n : ℕ} {sibs : List TreeNode} {s : TreeNode} :
      d.fetchSiblings d.root = .ok (n, sibs) → s ∈ sibs → Visited d s
  | child {s s' : TreeNode} {n : ℕ} {subs : List TreeNode} : Visited d s →
      d.fetchSiblings s = .ok (n + 1, subs) → s' ∈ subs → Visited d s'

/-- No word of the dictionary is lost. -/
structure KeepsWords (α : Type) (ws : List Bytes) : Prop where
  /-- On arrays that are large enough `_build` ends. -/
  builds : ∀ unset, ∃ N, ∀ size fuel, N ≤ size → N ≤ fuel →
    ∃ d : DatImpl α, build noResize fuel (dictionary size unset ws) = .ok d
  /-- After `_build` every word is found at the index of a word with the same characters. -/
  finds : ∀ (size unset fuel : ℕ) (d : DatImpl α),
    build noResize fuel (dictionary size unset ws) = .ok d → ∀ w ∈ ws,
      ∃ (i : ℕ) (w' : Bytes), d.search w = .ok (i : ℤ) ∧ ws[i]? = some w' ∧ tokens w' = tokens w
  /-- Where `_insert` makes a leaf, no children have been collected. -/
  leaves : ∀ (size unset : ℕ) (s : TreeNode), Visited (dictionary (α := α) size unset ws) s →
    ∀ sibs, (dictionary (α := α) size unset ws).fetchSiblings s = .ok (0, sibs) → sibs = []

/-- The dictionary is not empty, in no range do the characters descend except to the end of a
word, and the last runs of the characters of each word lead to a range where a word ends. -/
structure Grouped (ws : List Bytes) : Prop where
  ne_nil : ws ≠ []
  ordered : Ordered (ws.map codes)
  kept : ∀ w ∈ ws, Kept (ws.map codes) 0 0 ws.length (codes w)

/-- Over an ordered dictionary `_insert` makes leaves of the nodes without children only. -/
lemma Visited.cases_of_ordered {d : DatImpl α} (hne : d.table ≠ [])
    (hpos : ∀ w ∈ d.table, ∀ c ∈ w, 0 < c) (hord : Ordered d.table) {s : TreeNode}
    (h : Visited d s) : IsRange d.table s ∨ d.fetchSiblings s = .ok (0, []) := by
  have hstep : ∀ {nd s : TreeNode} {n : ℕ} {sibs : List TreeNode}, IsRange d.table nd →
      d.fetchSiblings nd = .ok (n, sibs) → s ∈ sibs →
      IsRange d.table s ∨ d.fetchSiblings s = .ok (0, []) := by
    intro nd s n sibs hrange hfetch hs
    obtain ⟨m, sibs', hfetch', hchain, hdiff⟩ := hrange.fetch hne hord
    rw [hfetch] at hfetch'
    cases hfetch'
    exact (hrange.child hne hpos hchain hdiff hs).2.imp And.right And.right
  induction h with
  | root hfetch hs => exact hstep (isRange_root d) hfetch hs
  | child _ hfetch hs ih =>
    rcases ih with hrange | hleaf
    · exact hstep hrange hfetch hs
    · rw [hleaf] at hfetch
      cases hfetch

/-- Every range is in order where the root is and `_insert` makes leaves of the nodes without
children only, since `_insert` comes to every range. -/
lemma ordered_of_leaves {d : DatImpl α} (hne : d.table ≠ [])
    (hroot : InOrder (key d.table 0) 0 d.table.length)
    (hleaves : ∀ s, Visited d s → ∀ sibs, d.fetchSiblings s = .ok (0, sibs) → sibs = []) :
    Ordered d.table := by
  have hvisit : ∀ depth lo hi, Reached d.table depth lo hi →
      InOrder (key d.table depth) lo hi ∧ ∃ nd n sibs, nd.depth = depth ∧ nd.left = lo ∧
        nd.right = hi ∧ d.fetchSiblings nd = .ok (n + 1, sibs) ∧
        Chain (key d.table depth) (depth + 1) lo hi sibs ∧
        (sibs.map TreeNode.code).IsChain (· ≠ ·) ∧ ∀ s ∈ sibs, Visited d s := by
    intro depth lo hi h
    induction h with
    | root =>
      have hlen : d.dicts.length = d.table.length := by rw [table, List.length_map]
      have hblock := (isRange_root d).block hne
      obtain ⟨n, sibs, hfetch, hchain, hdiff⟩ := fetchSiblings_succ hblock (by
        rw [root, hlen]
        exact hroot)
      rw [root, hlen] at hchain
      exact ⟨hroot, d.root, n, sibs, rfl, rfl, hlen, hfetch, hchain, hdiff,
        fun s hs => Visited.root hfetch hs⟩
    | child hreach hrun hc ih =>
      obtain ⟨-, nd, n, sibs, -, -, -, -, hchain, hdiff, hvis⟩ := ih
      obtain ⟨s, hs, rfl, rfl, -⟩ := hchain.exists_run hdiff hrun
      have hdepth := (hchain.node hs).1
      have hblock : Block d.table s := by
        refine IsRange.block hne ?_
        rw [IsRange, hdepth]
        exact Reached.child hreach hrun hc
      -- out of order, the node would have got children and the value 0
      have hord : InOrder (key d.table s.depth) s.left s.right := by
        by_contra hno
        obtain ⟨init, last, hfetch, -⟩ := fetchSiblings_of_not_inOrder hblock hno
        have hnil := hleaves s (hvis s hs) _ hfetch
        simp at hnil
      obtain ⟨m, subs, hfetch, hchain', hdiff'⟩ := fetchSiblings_succ hblock hord
      rw [hdepth] at hord hchain'
      exact ⟨hord, s, m, subs, hdepth, rfl, rfl, hfetch, hchain', hdiff',
        fun s' hs' => Visited.child (hvis s hs) hfetch hs'⟩
  exact fun depth lo hi h => (hvisit depth lo hi h).1

/-- What a query answers after the build of an ordered dictionary. -/
lemma search_range {d t : DatImpl α} {fuel : ℕ} (hd : Fresh d) (hne : d.table ≠ [])
    (hpos : ∀ w ∈ d.table, ∀ c ∈ w, 0 < c) (hord : Ordered d.table)
    (hbuild : build noResize fuel d = .ok t) {q : Bytes} (hq : Utf8Word q) :
    (Kept d.table 0 0 d.table.length (codes q) ↔ ∃ i : ℕ, t.search q = .ok (i : ℤ)) ∧
      ∀ i : ℕ, t.search q = .ok (i : ℤ) → i < d.table.length ∧ word d.table i = codes q := by
  obtain ⟨n, sibs, b, hroot, hbase, hbuilt, hext⟩ := build_ok hd hbuild
  have ht := hd.cellsInside hext
  have hsearch : t.search q = t.walk (tokens q) b := by
    have hlt := hbuilt.lt_size ht
    rw [search_eq_walk, readBase, if_pos (by omega), Except.ok_bind, hbase]
  have hlen : d.dicts.length = d.table.length := by rw [table, List.length_map]
  have hrange := walk_range hne hpos hord ht (tokens q) [] d.root n b sibs
    (fun w hw => ⟨isToken_of_mem_tokens _ _ hw, (hq.tokens_char w hw).cnCode_pos⟩)
    (isRange_root d) rfl (fun _ _ _ => List.nil_prefix) hroot hbuilt
  rw [root, hlen, List.nil_append] at hrange
  rw [hsearch]
  exact hrange

/-- On arrays that are large enough the build of an ordered dictionary ends. -/
lemma exists_build_of_ordered {ws : List Bytes} (hws : ∀ w ∈ ws, Utf8Word w) (hne : ws ≠ [])
    (hord : Ordered (ws.map codes)) (unset : ℕ) : ∃ N, ∀ size fuel, N ≤ size → N ≤ fuel →
      ∃ d : DatImpl α, build noResize fuel (dictionary size unset ws) = .ok d := by
  have hTne : ws.map codes ≠ [] := by simpa using hne
  obtain ⟨N, hN⟩ := build_total α (dictionary (α := α) 0 unset ws).fetchSiblings
    (ws.map codes).length (((ws.map codes).map List.length).sum + 1)
  refine ⟨N, fun size fuel hsize hfuel => ?_⟩
  have hload := loaded_dictionary (α := α) size unset ws
  have htab := hload.table_eq
  have hfetch : (dictionary (α := α) size unset ws).fetchSiblings =
      (dictionary 0 unset ws).fetchSiblings := fetchSiblings_congr rfl rfl
  have hpos := codes_pos_of_utf8 hws
  have hK := codesLt_of_utf8 hws
  have hshallow : ∀ j < (ws.map codes).length, (word (ws.map codes) j).length <
      0 + (((ws.map codes).map List.length).sum + 1) :=
    fun j hj => shallow_of_sum j hj List.nil_prefix
  rw [← htab] at hTne hord hpos hK hshallow
  obtain ⟨n, sibs, hroot, -⟩ := (isRange_root _).fetch hTne hord
  have htame := IsRange.tame hTne hpos hK hord _ _ _ _ (isRange_root _) hshallow hroot
  rw [htab, hfetch] at htame
  obtain ⟨d, hbuild, -⟩ := hN _ fuel (n + 1) sibs hload.fresh hfetch hroot htame hsize hfuel
  exact ⟨d, hbuild⟩

/-- Where the root is out of order, the `right` of its last sibling is not set; if it reads as
0, the sibling becomes a leaf, and its first word is not found. -/
lemma exists_lost {d t : DatImpl α} {fuel : ℕ} {ws : List Bytes} (hload : Loaded ws d)
    (hne : ws ≠ []) (hunset : d.unset = 0) (hord : ¬ InOrder (key d.table 0) 0 d.table.length)
    (hbuild : build noResize fuel d = .ok t) :
    ∃ w ∈ ws, ∀ i : ℕ, t.search w ≠ .ok (i : ℤ) := by
  have htab := hload.table_eq
  have hTne : d.table ≠ [] := by
    rw [htab]
    simpa using hne
  have hlen : d.dicts.length = d.table.length := by rw [table, List.length_map]
  obtain ⟨init, last, hfetch, hcode, hright, -, hlt, hkey⟩ :=
    fetchSiblings_of_not_inOrder ((isRange_root d).block hTne) (by
      rw [root, hlen]
      exact hord)
  obtain ⟨n, sibs, b, hroot, hbase, hbuilt, hext⟩ := build_ok hload.fresh hbuild
  rw [hfetch] at hroot
  cases hroot
  have ht := hload.fresh.cellsInside hext
  have hcheck := (hext.marked hload.fresh.marked).check_nonneg
  -- the word that the last sibling starts with
  have hin : last.left < ws.length := by
    have hlt' : last.left < d.table.length := hlen ▸ hlt
    rw [htab, List.length_map] at hlt'
    exact hlt'
  have hword : word d.table last.left = codes ws[last.left] := by
    rw [htab, word, List.getD_eq_getElem _ _ (by rw [List.length_map]; exact hin),
      List.getElem_map]
  refine ⟨ws[last.left], List.getElem_mem hin, fun i hi => ?_⟩
  change key d.table 0 last.left = last.code at hkey
  rw [key, hword, codes] at hkey
  have hq := isToken_of_mem_tokens ws[last.left]
  have hlast : lastSib (init ++ [last]) last.code = some last := by
    rw [lastSib, List.reverse_append]
    simp
  have hleaf : d.fetchSiblings last = .ok (0, []) := by
    refine fetchSiblings_of_short ?_ fun j hj hj' => ?_
    · rw [hright, hunset]
      exact Nat.zero_le _
    · rw [hright, hunset] at hj'
      exact absurd hj' (Nat.not_lt_zero j)
  have hneg := hbuilt.leaf hlast hleaf
  have hsize := hbuilt.lt_size ht
  rw [search_eq_walk, readBase, if_pos (by omega), Except.ok_bind, hbase] at hi
  cases htok : tokens ws[last.left] with
  | nil =>
    rw [htok] at hkey
    exact hcode hkey.symm
  | cons w cnWords =>
    rw [htok] at hkey hi hq
    have hw : cnCode w = last.code := hkey
    rw [← hw] at hlast hneg
    rw [hbuilt.walk_cons_some ht (hq w List.mem_cons_self) cnWords hlast, hneg] at hi
    -- the walk goes on from a negative state
    cases cnWords with
    | nil =>
      rw [walk_nil_of_neg t (by omega)] at hi
      cases hi
    | cons w' cnWords =>
      rw [walk_cons_of_neg t hcheck (hq w' (by simp)) cnWords (by omega), Except.ite_eq_ok] at hi
      have := Except.ok.inj hi.2
      omega

/-- Where every word is found, the words of the whole dictionary are in order. -/
lemma KeepsWords.inOrder_root {ws : List Bytes} (h : KeepsWords α ws) (hne : ws ≠ []) :
    InOrder (key (ws.map codes) 0) 0 (ws.map codes).length := by
  by_contra hord
  obtain ⟨N, hN⟩ := h.builds 0
  obtain ⟨t, hbuild⟩ := hN N N le_rfl le_rfl
  have hload := loaded_dictionary (α := α) N 0 ws
  have htab := hload.table_eq
  rw [← htab] at hord
  obtain ⟨w, hw, hlost⟩ := exists_lost hload hne rfl hord hbuild
  obtain ⟨i, w', hi, -⟩ := h.finds N 0 N t hbuild w hw
  exact hlost i hi

/-- **Which dictionaries lose no word.**  For every list of words in any order, every word is
found after the build, and no 0 for a word out of order is taken for a leaf, if and only if the
dictionary is grouped. -/
theorem keepsWords_iff (ws : List Bytes) (hws : ∀ w ∈ ws, Utf8Word w) :
    KeepsWords α ws ↔ Grouped ws := by
  have htab : ∀ size unset, (dictionary (α := α) size unset ws).table = ws.map codes :=
    fun size unset => (loaded_dictionary size unset ws).table_eq
  have hpos := codes_pos_of_utf8 hws
  constructor
  · intro h
    have hne : ws ≠ [] := by
      rintro rfl
      obtain ⟨N, hN⟩ := h.builds 0
      obtain ⟨t, hbuild⟩ := hN N N le_rfl le_rfl
      -- `_insert` has no first sibling to look at
      obtain ⟨n, sibs, b, hroot, -, hbuilt, -⟩ :=
        build_ok (loaded_dictionary N 0 []).fresh hbuild
      cases hroot
      exact hbuilt.ne_nil rfl
    have hTne : ws.map codes ≠ [] := by simpa using hne
    have hord : Ordered (ws.map codes) := by
      have hleaves := h.leaves 0 0
      have hroot := h.inOrder_root hne
      rw [← htab 0 0] at hroot hTne ⊢
      exact ordered_of_leaves hTne hroot hleaves
    refine ⟨hne, hord, fun w hw => ?_⟩
    obtain ⟨N, hN⟩ := h.builds 0
    obtain ⟨t, hbuild⟩ := hN N N le_rfl le_rfl
    obtain ⟨i, w', hi, -⟩ := h.finds N 0 N t hbuild w hw
    rw [← htab N 0] at hTne hpos hord
    have hkept := ((search_range (loaded_dictionary N 0 ws).fresh hTne hpos hord hbuild
      (hws w hw)).1).mpr ⟨i, hi⟩
    rw [htab, List.length_map] at hkept
    exact hkept
  · rintro ⟨hne, hord, hkept⟩
    have hTne : ws.map codes ≠ [] := by simpa using hne
    refine ⟨fun unset => exists_build_of_ordered hws hne hord unset, ?_, ?_⟩
    · intro size unset fuel d hbuild w hw
      have hkept' := hkept w hw
      rw [← List.length_map (f := codes)] at hkept'
      rw [← htab size unset] at hTne hpos hord hkept'
      obtain ⟨hiff, hfound⟩ := search_range (loaded_dictionary size unset ws).fresh hTne hpos
        hord hbuild (hws w hw)
      obtain ⟨i, hi⟩ := hiff.mp hkept'
      obtain ⟨hlt, hword⟩ := hfound i hi
      rw [htab, List.length_map] at hlt
      rw [htab, word, List.getD_eq_getElem _ _ (by rw [List.length_map]; exact hlt),
        List.getElem_map] at hword
      refine ⟨i, ws[i], hi, List.getElem?_eq_getElem hlt, ?_⟩
      exact ((hws _ (List.getElem_mem hlt)).tokens_eq_iff (hws w hw)).mpr hword
    · intro size unset s hvis sibs hfetch
      rw [← htab size unset] at hTne hpos hord
      rcases hvis.cases_of_ordered hTne hpos hord with hrange | hleaf
      · obtain ⟨n, sibs', hfetch', -⟩ := hrange.fetch hTne hord
        rw [hfetch] at hfetch'
        cases hfetch'
      · rw [hleaf] at hfetch
        cases hfetch
        rfl

/-- A dictionary that is not in order. -/
theorem keepsWords_iff_two :
    KeepsWords ℕ [[0x61, 0x62], [0x61, 0x61]] ↔ Grouped [[0x61, 0x62], [0x61, 0x61]] := by
  have ha : Utf8Word [0x61] := .ascii (by decide) (by decide) .nil
  have hb : Utf8Word [0x62] := .ascii (by decide) (by decide) .nil
  refine keepsWords_iff _ ?_
  simp [show Utf8Word [0x61, 0x62] from .ascii (by decide) (by decide) hb,
    show Utf8Word [0x61, 0x61] from .ascii (by decide) (by decide) ha]

/-- The words "ab" and "aa": the node of "a" becomes a leaf, and neither word is found. -/
theorem not_keepsWords : ¬ ∀ ws : List Bytes, (∀ w ∈ ws, Utf8Word w) → KeepsWords ℕ ws := by
  intro h
  have ha : Utf8Word [0x61] := .ascii (by decide) (by decide) .nil
  have hb : Utf8Word [0x62] := .ascii (by decide) (by decide) .nil
  have hkeeps := h [[0x61, 0x62], [0x61, 0x61]] (by
    simp [show Utf8Word [0x61, 0x62] from .ascii (by decide) (by decide) hb,
      show Utf8Word [0x61, 0x61] from .ascii (by decide) (by decide) ha])
  have hrun : (build noResize 10 (dictionary (65536 * 32) 0 [[0x61, 0x62], [0x61, 0x61]]) >>=
      fun d : DatImpl ℕ => d.search [0x61, 0x62]) = .ok (-1) := by
    decide
  obtain ⟨d, hbuild, hsearch⟩ := Except.bind_eq_ok.mp hrun
  obtain ⟨i, w', hi, -⟩ := hkeeps.finds _ 0 10 d hbuild [0x61, 0x62] List.mem_cons_self
  rw [hsearch] at hi
  have := Except.ok.inj hi
  omega

end DatImpl
end Dat
end Sunet
