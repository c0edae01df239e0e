/-
# The sibling lists of a sorted dictionary

`_fetch_siblings` sees the dictionary only through the codes of its words.  The words whose
codes start with a given list form a range when the dictionary is sorted, and the children
of that range are consecutive ranges with ascending codes.  The main result is
`fetchSiblings_node`: on the node of a prefix the loop runs to its end and returns exactly
the nodes of the prefixes that are longer by one code, and the leaf of the words that end
there.
-/
import Mathlib.Data.List.GetD
import Sunet.Dat.Double

namespace Sunet
namespace Dat

/-! ## Tables of codes -/

/-- The `i`-th word of a table. -/
def word (T : List (List ℕ)) (i : ℕ) : List ℕ := T.getD i []

/-- The code at position `depth` of the `i`-th word, 0 at the end of the word. -/
def key (T : List (List ℕ)) (depth i : ℕ) : ℕ := (word T i).getD depth 0

lemma cons_le_cons {a b : ℕ} {u v : List ℕ} : a :: u ≤ b :: v ↔ a < b ∨ a = b ∧ u ≤ v := by
  rw [le_iff_lt_or_eq, le_iff_lt_or_eq, List.cons_lt_cons_iff, List.cons.injEq]
  tauto

lemma head_le_of_prefix {p x y : List ℕ} (hx : p <+: x) (hy : p <+: y) (h : x ≤ y) :
    x.getD p.length 0 ≤ y.getD p.length 0 := by
  obtain ⟨u, rfl⟩ := hx
  obtain ⟨v, rfl⟩ := hy
  have huv : u ≤ v := by
    induction p with
    | nil => exact h
    | cons a p ih =>
      rw [List.cons_append, List.cons_append, cons_le_cons] at h
      rcases h with hlt | ⟨-, hle⟩
      · exact absurd hlt (lt_irrefl a)
      · exact ih hle
  cases u with
  | nil => simp
  | cons a u =>
    cases v with
    | nil => exact absurd huv (not_le.mpr (List.nil_lt_cons a u))
    | cons b v =>
      rw [cons_le_cons] at huv
      rcases huv with hlt | ⟨rfl, -⟩
      · simpa using hlt.le
      · simp

/-- A list continues a prefix with the code `c` exactly when its code behind it is `c`. -/
lemma prefix_concat_iff {p x : List ℕ} {c : ℕ} (hc : c ≠ 0) :
    p ++ [c] <+: x ↔ p <+: x ∧ x.getD p.length 0 = c := by
  constructor
  · rintro ⟨t, rfl⟩
    exact ⟨⟨c :: t, by simp⟩, by simp⟩
  · rintro ⟨⟨t, rfl⟩, h⟩
    cases t with
    | nil => exact absurd (by simpa using h.symm) hc
    | cons a t =>
      have ha : a = c := by simpa using h
      exact ⟨t, by simp [ha]⟩

/-- Where all codes are positive, the code 0 behind a prefix means the end of the word. -/
lemma eq_iff_prefix_zero {p x : List ℕ} (hpos : ∀ c ∈ x, 0 < c) :
    x = p ↔ p <+: x ∧ x.getD p.length 0 = 0 := by
  constructor
  · rintro rfl
    simp
  · rintro ⟨⟨t, rfl⟩, h⟩
    cases t with
    | nil => simp
    | cons a t =>
      have ha : a = 0 := by simpa using h
      exact absurd (hpos a (by simp)) (by omega)

/-- The dictionaries the results are about: sorted, all codes positive. -/
structure Table (T : List (List ℕ)) : Prop where
  sorted : T.Pairwise (· ≤ ·)
  pos : ∀ w ∈ T, ∀ c ∈ w, 0 < c

lemma word_mem {T : List (List ℕ)} {i : ℕ} (hi : i < T.length) : word T i ∈ T := by
  rw [word, List.getD_eq_getElem _ _ hi]
  exact List.getElem_mem hi

lemma Table.word_pos {T : List (List ℕ)} (h : Table T) {i : ℕ} (hi : i < T.length) :
    ∀ c ∈ word T i, 0 < c :=
  h.pos _ (word_mem hi)

lemma Table.word_le {T : List (List ℕ)} (h : Table T) {i j : ℕ} (hij : i ≤ j)
    (hj : j < T.length) : word T i ≤ word T j := by
  rcases Nat.eq_or_lt_of_le hij with rfl | hlt
  · exact le_rfl
  · have hi : i < T.length := by omega
    rw [word, word, List.getD_eq_getElem _ _ hi, List.getD_eq_getElem _ _ hj]
    exact List.pairwise_iff_getElem.mp h.sorted i j hi hj hlt

/-! ## Chains of sibling nodes -/

/-- The nodes cover the words from `lo` up to `hi` with consecutive non-empty ranges, each of
the words whose key is the code of the node. -/
def Chain (key : ℕ → ℕ) (depth : ℕ) : ℕ → ℕ → List TreeNode → Prop
  | lo, hi, [] => lo = hi
  | lo, hi, s :: ss =>
    s.depth = depth ∧ s.left = lo ∧ lo < s.right ∧
      (∀ j, lo ≤ j → j < s.right → key j = s.code) ∧ Chain key depth s.right hi ss

lemma Chain.append {key : ℕ → ℕ} {depth lo mid hi : ℕ} {xs ys : List TreeNode}
    (hxs : Chain key depth lo mid xs) (hys : Chain key depth mid hi ys) :
    Chain key depth lo hi (xs ++ ys) := by
  induction xs generalizing lo with
  | nil =>
    have hlo : lo = mid := hxs
    rw [hlo]
    exact hys
  | cons s ss ih =>
    obtain ⟨h1, h2, h3, h4, h5⟩ := hxs
    exact ⟨h1, h2, h3, h4, ih h5⟩

lemma Chain.split {key : ℕ → ℕ} {depth lo hi : ℕ} {xs ys : List TreeNode}
    (h : Chain key depth lo hi (xs ++ ys)) :
    ∃ mid, Chain key depth lo mid xs ∧ Chain key depth mid hi ys := by
  induction xs generalizing lo with
  | nil => exact ⟨lo, rfl, h⟩
  | cons s ss ih =>
    obtain ⟨h1, h2, h3, h4, h5⟩ := h
    obtain ⟨mid, hm, hm'⟩ := ih h5
    exact ⟨mid, ⟨h1, h2, h3, h4, hm⟩, hm'⟩

lemma Chain.le {key : ℕ → ℕ} {depth lo hi : ℕ} {xs : List TreeNode}
    (h : Chain key depth lo hi xs) : lo ≤ hi := by
  induction xs generalizing lo with
  | nil => exact le_of_eq h
  | cons s ss ih =>
    obtain ⟨-, -, h3, -, h5⟩ := h
    exact le_trans h3.le (ih h5)

/-- Every word of a chain belongs to one of its nodes. -/
lemma Chain.exists_node {key : ℕ → ℕ} {depth lo hi j : ℕ} {xs : List TreeNode}
    (h : Chain key depth lo hi xs) (hlo : lo ≤ j) (hhi : j < hi) :
    ∃ s ∈ xs, s.left ≤ j ∧ j < s.right ∧ key j = s.code := by
  induction xs generalizing lo with
  | nil =>
    have hlo' : lo = hi := h
    omega
  | cons s ss ih =>
    obtain ⟨-, h2, -, h4, h5⟩ := h
    by_cases hj : j < s.right
    · exact ⟨s, by simp, by omega, hj, h4 j hlo hj⟩
    · obtain ⟨s', hs', hs''⟩ := ih h5 (by omega)
      exact ⟨s', by simp [hs'], hs''⟩

/-- What a chain says about one of its nodes. -/
lemma Chain.node {key : ℕ → ℕ} {depth lo hi : ℕ} {xs : List TreeNode}
    (h : Chain key depth lo hi xs) {s : TreeNode} (hs : s ∈ xs) :
    s.depth = depth ∧ lo ≤ s.left ∧ s.left < s.right ∧ s.right ≤ hi ∧
      ∀ j, s.left ≤ j → j < s.right → key j = s.code := by
  induction xs generalizing lo with
  | nil => simp at hs
  | cons x ss ih =>
    obtain ⟨h1, h2, h3, h4, h5⟩ := h
    rcases List.mem_cons.mp hs with rfl | hs
    · refine ⟨h1, by omega, by omega, h5.le, ?_⟩
      intro j hj hj'
      exact h4 j (by omega) hj'
    · obtain ⟨g1, g2, g3, g4, g5⟩ := ih h5 hs
      exact ⟨g1, by omega, g3, g4, g5⟩

/-- Where the codes ascend, the range of a node is all of its words in the chain. -/
lemma Chain.mem_node_iff {key : ℕ → ℕ} {depth lo hi : ℕ} {xs : List TreeNode}
    (h : Chain key depth lo hi xs) (hasc : (xs.map TreeNode.code).Pairwise (· < ·))
    {s : TreeNode} (hs : s ∈ xs) (j : ℕ) :
    s.left ≤ j ∧ j < s.right ↔ (lo ≤ j ∧ j < hi) ∧ key j = s.code := by
  obtain ⟨-, hlo, -, hhi, hkey⟩ := h.node hs
  constructor
  · rintro ⟨h1, h2⟩
    exact ⟨⟨by omega, by omega⟩, hkey j h1 h2⟩
  · rintro ⟨⟨h1, h2⟩, h3⟩
    obtain ⟨s', hs', hl, hr, hc⟩ := h.exists_node h1 h2
    have hcode : s'.code = s.code := by rw [← hc, h3]
    have hnodup : (xs.map TreeNode.code).Nodup := hasc.imp (fun hab => ne_of_lt hab)
    have hss : s' = s := List.inj_on_of_nodup_map hnodup hs' hs hcode
    subst hss
    exact ⟨hl, hr⟩

/-- Where the keys ascend, so do the codes of a chain whose neighbours have different codes. -/
lemma Chain.asc {key : ℕ → ℕ} {depth lo hi : ℕ} {xs : List TreeNode}
    (h : Chain key depth lo hi xs) (hdiff : (xs.map TreeNode.code).IsChain (· ≠ ·))
    (hmono : ∀ j k, lo ≤ j → j ≤ k → k < hi → key j ≤ key k) :
    (xs.map TreeNode.code).Pairwise (· < ·) := by
  rw [← List.isChain_iff_pairwise]
  induction xs generalizing lo with
  | nil => simp
  | cons x xs ih =>
    obtain ⟨-, -, hx, hkey, hrest⟩ := h
    cases xs with
    | nil => simp
    | cons y ys =>
      rw [List.map_cons, List.map_cons, List.isChain_cons_cons] at hdiff ⊢
      refine ⟨?_, ih hrest hdiff.2 fun j k hj => hmono j k (by omega)⟩
      obtain ⟨-, -, hy, hkey', hrest'⟩ := hrest
      have hle := hrest'.le
      have hxy := hmono lo x.right le_rfl hx.le (by omega)
      rw [hkey lo le_rfl hx, hkey' x.right le_rfl hy] at hxy
      exact lt_of_le_of_ne hxy hdiff.1

/-- The keys from `lo` up to `hi` are in the order that `_fetch_siblings` tests: none is
smaller than the one before it, unless it is 0. -/
def InOrder (key : ℕ → ℕ) (lo hi : ℕ) : Prop :=
  ∀ i, lo ≤ i → i + 1 < hi → key (i + 1) ≠ 0 → key i ≤ key (i + 1)

/-! ## The loop of `_fetch_siblings` -/

namespace DatImpl

variable {α : Type}

/-- The codes of the words of the dictionary. -/
def table (d : DatImpl α) : List (List ℕ) := d.dicts.map fun w => w.words.map cnCode

lemma curCode_eq (w : CnString) (depth : ℕ) :
    curCode w depth = .ok ((w.words.map cnCode).getD depth 0) := by
  rw [curCode]
  rcases h : w.words[depth]? with _ | ch
  · simp [List.getD_eq_getElem?_getD, h]
  · have hmem : ch ∈ StringUtil.tokens w.string := by
      rw [← w.words_eq]
      exact List.mem_of_getElem? h
    simp [List.getD_eq_getElem?_getD, h,
      getCnCode_eq (StringUtil.isToken_of_mem_tokens _ _ hmem)]

lemma dicts_getElem? {d : DatImpl α} {i : ℕ} (hi : i < d.table.length) :
    ∃ w, d.dicts[i]? = some w ∧ w.words.map cnCode = word d.table i := by
  have hi' : i < d.dicts.length := by simpa [table] using hi
  refine ⟨d.dicts[i], List.getElem?_eq_getElem hi', ?_⟩
  rw [word, List.getD_eq_getElem _ _ hi]
  simp [table]

/-- The sibling lists depend on the dictionary and the value of an unset `right` alone. -/
lemma fetchSiblings_congr {d d' : DatImpl α} (hdicts : d'.dicts = d.dicts)
    (hunset : d'.unset = d.unset) : d'.fetchSiblings = d.fetchSiblings := by
  have hloop : ∀ (depth n i prev : ℕ) (sibs : List TreeNode),
      d'.fetchLoop depth n i prev sibs = d.fetchLoop depth n i prev sibs := by
    intro depth n
    induction n with
    | zero => exact fun _ _ _ => rfl
    | succ n ih =>
      intro i prev sibs
      simp only [fetchLoop, hdicts, hunset, ih]
  funext nd
  rw [fetchSiblings, fetchSiblings, hloop]

/-- A word that is shorter than the depth is passed over. -/
lemma fetchLoop_skip {d : DatImpl α} {depth n i prev : ℕ} {sibs : List TreeNode}
    (hi : i < d.table.length) (hshort : (word d.table i).length < depth) :
    d.fetchLoop depth (n + 1) i prev sibs = d.fetchLoop depth n (i + 1) prev sibs := by
  obtain ⟨w, hw, hcodes⟩ := dicts_getElem? hi
  have hlen : w.length < depth := by
    rw [← hcodes] at hshort
    simpa [CnString.length] using hshort
  rw [fetchLoop, hw]
  simp only [hlen, if_true]

/-- One round of the loop at a word that is long enough. -/
lemma fetchLoop_step {d : DatImpl α} {depth n i prev : ℕ} {sibs : List TreeNode}
    (hi : i < d.table.length) (hlong : depth ≤ (word d.table i).length) :
    d.fetchLoop depth (n + 1) i prev sibs =
      if key d.table depth i < prev ∧ key d.table depth i ≠ 0 then .ok (false, sibs)
      else if prev ≠ key d.table depth i ∨ sibs = [] then
        d.fetchLoop depth n (i + 1) (key d.table depth i)
          (setLastRight sibs i ++ [⟨depth + 1, i, d.unset, key d.table depth i⟩])
      else d.fetchLoop depth n (i + 1) (key d.table depth i) sibs := by
  obtain ⟨w, hw, hcodes⟩ := dicts_getElem? hi
  have hlen : ¬ w.length < depth := by
    rw [← hcodes] at hlong
    simpa [CnString.length] using hlong
  have hcur : curCode w depth = .ok (key d.table depth i) := by
    rw [curCode_eq, hcodes, key]
  rw [fetchLoop, hw]
  simp only [hlen, if_false, hcur]

@[simp] lemma setLastRight_nil (r : ℕ) : setLastRight [] r = [] := rfl

@[simp] lemma setLastRight_concat (sibs : List TreeNode) (s : TreeNode) (r : ℕ) :
    setLastRight (sibs ++ [s]) r = sibs ++ [{ s with right := r }] := by
  simp [setLastRight]

/-- The state of the loop after the words from `lo` up to `i`: with its last range closed at
`i`, the list is a chain, `prev_code` is its last code and the key of the last word, and the
`right` of its last node has not been set. -/
structure Collected (T : List (List ℕ)) (unset depth lo i prev : ℕ) (sibs : List TreeNode) :
    Prop where
  chain : Chain (key T depth) (depth + 1) lo i (setLastRight sibs i)
  diff : (sibs.map TreeNode.code).IsChain (· ≠ ·)
  prev_eq : prev = ((sibs.map TreeNode.code).getLast?).getD 0
  key_eq : sibs ≠ [] → lo < i ∧ key T depth (i - 1) = prev
  right_eq : ∀ s ∈ sibs.getLast?, s.right = unset

lemma Collected.start (T : List (List ℕ)) (unset depth lo : ℕ) :
    Collected T unset depth lo lo 0 [] :=
  ⟨rfl, by simp, by simp, fun h => absurd rfl h, by simp⟩

/-- A word with a new code opens a node. -/
lemma Collected.open {T : List (List ℕ)} {unset depth lo i prev : ℕ} {sibs : List TreeNode}
    (h : Collected T unset depth lo i prev sibs)
    (hnew : prev ≠ key T depth i ∨ sibs = []) :
    Collected T unset depth lo (i + 1) (key T depth i)
      (setLastRight sibs i ++ [⟨depth + 1, i, unset, key T depth i⟩]) := by
  have hcodes : (setLastRight sibs i).map TreeNode.code = sibs.map TreeNode.code := by
    rcases List.eq_nil_or_concat sibs with rfl | ⟨init, last, rfl⟩ <;> simp
  have hle := h.chain.le
  refine ⟨?_, ?_, by simp, fun _ => ⟨by omega, rfl⟩, by simp⟩
  · rw [setLastRight_concat]
    refine h.chain.append ⟨rfl, rfl, Nat.lt_succ_self i, ?_, rfl⟩
    intro j hj hj'
    have hji : j = i := by
      have : j < i + 1 := hj'
      omega
    simp [hji]
  · rw [List.map_append, hcodes]
    refine h.diff.append (by simp) fun a ha b hb => ?_
    have hb' : key T depth i = b := by simpa using hb
    have hprev : prev = a := by
      rw [h.prev_eq, Option.mem_def.mp ha]
      rfl
    rcases hnew with hne | rfl
    · rw [← hb', ← hprev]
      exact hne
    · simp at ha

/-- A word with the code of the last node extends it. -/
lemma Collected.extend {T : List (List ℕ)} {unset depth lo i : ℕ} {sibs : List TreeNode}
    (h : Collected T unset depth lo i (key T depth i) sibs) (hne : sibs ≠ []) :
    Collected T unset depth lo (i + 1) (key T depth i) sibs := by
  have hlo := (h.key_eq hne).1
  refine ⟨?_, h.diff, h.prev_eq, fun _ => ⟨by omega, rfl⟩, h.right_eq⟩
  rcases List.eq_nil_or_concat sibs with rfl | ⟨init, last, rfl⟩
  · exact absurd rfl hne
  · have hlast : last.code = key T depth i := by simpa using h.prev_eq.symm
    have hchain := h.chain
    rw [List.concat_eq_append, setLastRight_concat] at hchain ⊢
    obtain ⟨mid, hinit, h1, h2, h3, h4, -⟩ := hchain.split
    refine hinit.append ⟨h1, h2, by simpa using Nat.lt_succ_of_lt h3, ?_, rfl⟩
    intro j hj hj'
    rcases Nat.lt_or_ge j i with hji | hji
    · exact h4 j hj hji
    · have hji' : j = i := by
        have : j < i + 1 := hj'
        omega
      simp [hji', hlast]

/-- The loop either collects a chain over all of its words, and then they are in order, or
returns at a word that is out of order, behind a word with a code. -/
lemma fetchLoop_cases (d : DatImpl α) (depth lo : ℕ) :
    ∀ (n i prev : ℕ) (sibs : List TreeNode), i + n ≤ d.table.length →
      (∀ j, i ≤ j → j < i + n → depth ≤ (word d.table j).length) →
      InOrder (key d.table depth) lo i → Collected d.table d.unset depth lo i prev sibs →
      (∃ prev' sibs', d.fetchLoop depth n i prev sibs = .ok (true, sibs') ∧
        Collected d.table d.unset depth lo (i + n) prev' sibs' ∧
        InOrder (key d.table depth) lo (i + n)) ∨
      ∃ j prev' sibs', d.fetchLoop depth n i prev sibs = .ok (false, sibs') ∧
        Collected d.table d.unset depth lo j prev' sibs' ∧ prev' ≠ 0 ∧ j ≤ i + n ∧
        ¬ InOrder (key d.table depth) lo (i + n) := by
  intro n
  induction n with
  | zero =>
    intro i prev sibs _ _ hord h
    exact Or.inl ⟨prev, sibs, rfl, h, hord⟩
  | succ n ih =>
    intro i prev sibs hin hlong hord h
    rw [fetchLoop_step (by omega) (hlong i le_rfl (by omega))]
    -- the word is out of order against the one before it, whose code is `prev`
    by_cases hstop : key d.table depth i < prev ∧ key d.table depth i ≠ 0
    · rw [if_pos hstop]
      have hne : sibs ≠ [] := by
        rintro rfl
        have := h.prev_eq
        simp at this
        omega
      obtain ⟨hlo, hkey⟩ := h.key_eq hne
      refine Or.inr ⟨i, prev, sibs, rfl, h, by omega, by omega, fun hall => ?_⟩
      have hle := hall (i - 1) (by omega) (by omega)
      rw [show i - 1 + 1 = i by omega, hkey] at hle
      have := hle hstop.2
      omega
    · rw [if_neg hstop, show i + (n + 1) = i + 1 + n by omega]
      have hord' : InOrder (key d.table depth) lo (i + 1) := by
        intro j hj hj' hne
        by_cases hji : j + 1 < i
        · exact hord j hj hji hne
        · obtain rfl : i = j + 1 := by omega
          have hsibs : sibs ≠ [] := by
            rintro rfl
            have hlo : lo = j + 1 := h.chain
            omega
          have hkey := (h.key_eq hsibs).2
          rw [Nat.add_sub_cancel] at hkey
          omega
      have hlong' : ∀ j, i + 1 ≤ j → j < i + 1 + n → depth ≤ (word d.table j).length :=
        fun j hj hj' => hlong j (by omega) (by omega)
      split
      · next hnew => exact ih (i + 1) _ _ (by omega) hlong' hord' (h.open hnew)
      · next hold =>
        obtain ⟨heq, hne⟩ : prev = key d.table depth i ∧ sibs ≠ [] := by simpa using hold
        rw [heq] at h
        exact ih (i + 1) _ _ (by omega) hlong' hord' (h.extend hne)

/-- The loop passes over words that are all shorter than the depth. -/
lemma fetchLoop_short (d : DatImpl α) (depth : ℕ) :
    ∀ n i : ℕ, i + n ≤ d.table.length →
      (∀ j, i ≤ j → j < i + n → (word d.table j).length < depth) →
      d.fetchLoop depth n i 0 [] = .ok (true, []) := by
  intro n
  induction n with
  | zero => intro i _ _; rfl
  | succ n ih =>
    intro i hin hshort
    rw [fetchLoop_skip (by omega) (hshort i le_rfl (by omega))]
    exact ih (i + 1) (by omega) (fun j hj hj' => hshort j (by omega) (by omega))

end DatImpl

/-! ## Nodes of prefixes -/

/-- The node of the words that start with `p`. -/
structure IsNode (T : List (List ℕ)) (p : List ℕ) (nd : TreeNode) : Prop where
  depth_eq : nd.depth = p.length
  nonempty : nd.left < nd.right
  mem_iff : ∀ i, nd.left ≤ i ∧ i < nd.right ↔ i < T.length ∧ p <+: word T i

/-- The leaf of the words that are equal to `p`. -/
structure IsLeaf (T : List (List ℕ)) (p : List ℕ) (nd : TreeNode) : Prop where
  depth_eq : nd.depth = p.length + 1
  nonempty : nd.left < nd.right
  mem_iff : ∀ i, nd.left ≤ i ∧ i < nd.right ↔ i < T.length ∧ word T i = p

/-- The children of the node of `p`: ascending codes, the code 0 for the leaf, and one child
for every code that follows `p` in the table. -/
structure Children (T : List (List ℕ)) (p : List ℕ) (sibs : List TreeNode) : Prop where
  ne_nil : sibs ≠ []
  asc : (sibs.map TreeNode.code).Pairwise (· < ·)
  leaf : ∀ s ∈ sibs, s.code = 0 → IsLeaf T p s
  node : ∀ s ∈ sibs, s.code ≠ 0 → IsNode T (p ++ [s.code]) s
  complete : ∀ i < T.length, p <+: word T i → ∃ s ∈ sibs, s.code = key T p.length i

lemma IsNode.right_le {T : List (List ℕ)} {p : List ℕ} {nd : TreeNode} (h : IsNode T p nd) :
    nd.right ≤ T.length := by
  have hlt := h.nonempty
  have := (h.mem_iff (nd.right - 1)).mp ⟨by omega, by omega⟩
  omega

lemma IsLeaf.right_le {T : List (List ℕ)} {p : List ℕ} {nd : TreeNode} (h : IsLeaf T p nd) :
    nd.right ≤ T.length := by
  have hlt := h.nonempty
  have := (h.mem_iff (nd.right - 1)).mp ⟨by omega, by omega⟩
  omega

/-- A chain over the range of a node is the list of its children. -/
lemma Children.of_chain {T : List (List ℕ)} (hT : Table T) {p : List ℕ} {nd : TreeNode}
    (hnd : IsNode T p nd) {sibs : List TreeNode}
    (hchain : Chain (key T p.length) (p.length + 1) nd.left nd.right sibs)
    (hasc : (sibs.map TreeNode.code).Pairwise (· < ·)) : Children T p sibs := by
  -- a word of a child is a word of the node with the code of the child
  have hmem : ∀ s ∈ sibs, ∀ i, s.left ≤ i ∧ i < s.right ↔
      i < T.length ∧ p <+: word T i ∧ (word T i).getD p.length 0 = s.code := by
    intro s hs i
    rw [hchain.mem_node_iff hasc hs, hnd.mem_iff, key, and_assoc]
  refine ⟨?_, hasc, ?_, ?_, ?_⟩
  · rintro rfl
    have hlo : nd.left = nd.right := hchain
    have := hnd.nonempty
    omega
  · intro s hs hcode
    obtain ⟨hdepth, -, hne, -, -⟩ := hchain.node hs
    refine ⟨hdepth, hne, fun i => ?_⟩
    rw [hmem s hs, hcode]
    constructor
    · rintro ⟨hi, h⟩
      exact ⟨hi, (eq_iff_prefix_zero (hT.word_pos hi)).mpr h⟩
    · rintro ⟨hi, h⟩
      exact ⟨hi, (eq_iff_prefix_zero (hT.word_pos hi)).mp h⟩
  · intro s hs hcode
    obtain ⟨hdepth, -, hne, -, -⟩ := hchain.node hs
    refine ⟨by simpa using hdepth, hne, fun i => ?_⟩
    rw [hmem s hs, prefix_concat_iff hcode]
  · intro i hi hp
    obtain ⟨h1, h2⟩ := (hnd.mem_iff i).mpr ⟨hi, hp⟩
    obtain ⟨s, hs, -, -, hc⟩ := hchain.exists_node h1 h2
    exact ⟨s, hs, hc.symm⟩

namespace DatImpl

variable {α : Type}

/-- The words of a node lie in the table and are long enough for its depth. -/
structure Block (T : List (List ℕ)) (nd : TreeNode) : Prop where
  nonempty : nd.left < nd.right
  right_le : nd.right ≤ T.length
  long : ∀ j, nd.left ≤ j → j < nd.right → nd.depth ≤ (word T j).length

/-- On words in order `_fetch_siblings` returns a chain over them, in which neighbours have
different codes. -/
lemma fetchSiblings_of_inOrder {d : DatImpl α} {nd : TreeNode} (h : Block d.table nd)
    (hord : InOrder (key d.table nd.depth) nd.left nd.right) :
    ∃ sibs, d.fetchSiblings nd = .ok (sibs.length, sibs) ∧
      Chain (key d.table nd.depth) (nd.depth + 1) nd.left nd.right sibs ∧
      (sibs.map TreeNode.code).IsChain (· ≠ ·) := by
  have hne := h.nonempty
  have hright := h.right_le
  have hend : nd.left + (nd.right - nd.left) = nd.right := by omega
  rcases fetchLoop_cases d nd.depth nd.left (nd.right - nd.left) nd.left 0 [] (by omega)
    (fun j hj hj' => h.long j hj (by omega)) (fun j hj hj' => absurd hj' (by omega))
    (Collected.start _ _ _ _) with ⟨prev, sibs, hloop, hcol, -⟩ | ⟨j, prev, sibs, -, -, -, -, hno⟩
  · rw [hend] at hcol
    have hset : (setLastRight sibs nd.right).length = sibs.length ∧
        (setLastRight sibs nd.right).map TreeNode.code = sibs.map TreeNode.code := by
      rcases List.eq_nil_or_concat sibs with rfl | ⟨init, last, rfl⟩ <;> simp
    refine ⟨setLastRight sibs nd.right, ?_, hcol.chain, ?_⟩
    · rw [fetchSiblings, hloop, hset.1]
    · rw [hset.2]
      exact hcol.diff
  · rw [hend] at hno
    exact absurd hord hno

/-- On words out of order `_fetch_siblings` returns 0; the `right` of the last node that it
has collected, which has a code, is not set. -/
lemma fetchSiblings_of_not_inOrder {d : DatImpl α} {nd : TreeNode} (h : Block d.table nd)
    (hord : ¬ InOrder (key d.table nd.depth) nd.left nd.right) :
    ∃ init last, d.fetchSiblings nd = .ok (0, init ++ [last]) ∧ last.code ≠ 0 ∧
      last.right = d.unset ∧ nd.left ≤ last.left ∧ last.left < nd.right ∧
      key d.table nd.depth last.left = last.code := by
  have hne := h.nonempty
  have hright := h.right_le
  have hend : nd.left + (nd.right - nd.left) = nd.right := by omega
  rcases fetchLoop_cases d nd.depth nd.left (nd.right - nd.left) nd.left 0 [] (by omega)
    (fun j hj hj' => h.long j hj (by omega)) (fun j hj hj' => absurd hj' (by omega))
    (Collected.start _ _ _ _) with
    ⟨prev, sibs, -, -, hyes⟩ | ⟨j, prev, sibs, hloop, hcol, hprev, hj, -⟩
  · rw [hend] at hyes
    exact absurd hyes hord
  · rcases List.eq_nil_or_concat sibs with rfl | ⟨init, last, rfl⟩
    · exact absurd hcol.prev_eq hprev
    · have hlast : prev = last.code := by simpa using hcol.prev_eq
      have hchain := hcol.chain
      rw [List.concat_eq_append, setLastRight_concat] at hchain
      obtain ⟨-, hlo, hlt, hle, hkey⟩ := hchain.node (s := { last with right := j }) (by simp)
      refine ⟨init, last, ?_, by omega, hcol.right_eq last (by simp), hlo, ?_, ?_⟩
      · rw [fetchSiblings, hloop, List.concat_eq_append]
      · exact lt_of_lt_of_le hlt (by omega)
      · exact hkey last.left le_rfl hlt

/-- Below the node of a prefix `_fetch_siblings` returns a chain with ascending codes. -/
lemma fetchSiblings_chain {d : DatImpl α} (hT : Table d.table) {p : List ℕ} {nd : TreeNode}
    (hnd : IsNode d.table p nd) :
    ∃ sibs, d.fetchSiblings nd = .ok (sibs.length, sibs) ∧
      Chain (key d.table nd.depth) (nd.depth + 1) nd.left nd.right sibs ∧
      (sibs.map TreeNode.code).Pairwise (· < ·) := by
  have hpre : ∀ j, nd.left ≤ j → j < nd.right → j < d.table.length ∧ p <+: word d.table j :=
    fun j hj hj' => (hnd.mem_iff j).mp ⟨hj, hj'⟩
  have hmono : ∀ j k, nd.left ≤ j → j ≤ k → k < nd.right →
      key d.table nd.depth j ≤ key d.table nd.depth k := by
    intro j k hj hjk hk
    rw [hnd.depth_eq]
    exact head_le_of_prefix (hpre j hj (by omega)).2 (hpre k (by omega) hk).2
      (hT.word_le hjk (hpre k (by omega) hk).1)
  have hblock : Block d.table nd := by
    refine ⟨hnd.nonempty, hnd.right_le, fun j hj hj' => ?_⟩
    rw [hnd.depth_eq]
    exact (hpre j hj hj').2.length_le
  obtain ⟨sibs, hfetch, hchain, hdiff⟩ :=
    fetchSiblings_of_inOrder hblock fun i hi hi' _ => hmono i (i + 1) hi (by omega) hi'
  exact ⟨sibs, hfetch, hchain, hchain.asc hdiff hmono⟩

/-- **The siblings below the node of a prefix** are the children of the prefix. -/
theorem fetchSiblings_node {d : DatImpl α} (hT : Table d.table) {p : List ℕ} {nd : TreeNode}
    (hnd : IsNode d.table p nd) :
    ∃ sibs, d.fetchSiblings nd = .ok (sibs.length, sibs) ∧ Children d.table p sibs := by
  obtain ⟨sibs, hfetch, hchain, hasc⟩ := fetchSiblings_chain hT hnd
  rw [hnd.depth_eq] at hchain
  exact ⟨sibs, hfetch, Children.of_chain hT hnd hchain hasc⟩

/-- A node whose words all end before its depth has no siblings below it. -/
lemma fetchSiblings_of_short {d : DatImpl α} {nd : TreeNode} (hright : nd.right ≤ d.table.length)
    (hshort : ∀ j, nd.left ≤ j → j < nd.right → (word d.table j).length < nd.depth) :
    d.fetchSiblings nd = .ok (0, []) := by
  by_cases hne : nd.left < nd.right
  · have hloop := fetchLoop_short d nd.depth (nd.right - nd.left) nd.left (by omega)
      fun j hj hj' => hshort j hj (by omega)
    rw [fetchSiblings, hloop]
    rfl
  · rw [fetchSiblings, Nat.sub_eq_zero_of_le (not_lt.mp hne)]
    rfl

/-- **The leaf of a word has no siblings below it.** -/
theorem fetchSiblings_leaf {d : DatImpl α} {p : List ℕ} {nd : TreeNode}
    (hnd : IsLeaf d.table p nd) : d.fetchSiblings nd = .ok (0, []) := by
  refine fetchSiblings_of_short hnd.right_le fun j hj hj' => ?_
  rw [((hnd.mem_iff j).mp ⟨hj, hj'⟩).2, hnd.depth_eq]
  exact Nat.lt_succ_self _

/-- The root node of `_build` is the node of the empty prefix. -/
lemma isNode_root {d : DatImpl α} (hne : d.dicts ≠ []) :
    IsNode d.table [] ⟨0, 0, d.dicts.length, 0⟩ := by
  refine ⟨rfl, List.length_pos_iff.mpr hne, fun i => ?_⟩
  simp [table]

end DatImpl
end Dat
end Sunet
