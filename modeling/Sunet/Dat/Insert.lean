/-
# The insertion into the double array

A node is represented by the value `begin` that `_insert` finds for its children: the cell
`begin + c` carries `begin` in `_check` exactly when the code `c` continues the prefix of
the node.  The subtrees share the two arrays, so what an insertion guarantees is stated for
every later table that keeps the cells it has filled and puts its `begin` values nowhere
else: in every such table it has built the tree of its sibling lists (`insert_builds`), and
over a sorted dictionary that tree is a representation of its subtree (`insert_spec`).
-/
import Sunet.Dat.Siblings
import Sunet.Lib.Except

namespace Sunet
namespace Dat

/-! ## Representation -/

/-- The code `c` follows the prefix `p` in the table, the code 0 at the end of a word. -/
def Follows (T : List (List ℕ)) (p : List ℕ) (c : ℕ) : Prop :=
  ∃ i < T.length, p <+: word T i ∧ key T p.length i = c

/-- The cells from `b` on represent the words that start with `p`. -/
inductive Rep {α : Type} (T : List (List ℕ)) (t : DatImpl α) : ℕ → List ℕ → Prop
  | mk (b : ℕ) (p : List ℕ) (next : ℕ → ℕ) (pos : 1 ≤ b)
      (check : ∀ c, t.check (b + c) = b ↔ Follows T p c)
      (leaf : Follows T p 0 → t.base b = -(T.idxOf p : ℤ) - 1)
      (node : ∀ c, c ≠ 0 → Follows T p c → t.base (b + c) = next c)
      (sub : ∀ c, c ≠ 0 → Follows T p c → Rep T t (next c) (p ++ [c])) : Rep T t b p

lemma Children.follows_iff {T : List (List ℕ)} (hT : Table T) {p : List ℕ}
    {sibs : List TreeNode} (h : Children T p sibs) (c : ℕ) :
    Follows T p c ↔ ∃ s ∈ sibs, s.code = c := by
  constructor
  · rintro ⟨i, hi, hp, rfl⟩
    exact h.complete i hi hp
  · rintro ⟨s, hs, rfl⟩
    by_cases hc : s.code = 0
    · have hleaf := h.leaf s hs hc
      obtain ⟨hi, hw⟩ := (hleaf.mem_iff s.left).mp ⟨le_rfl, hleaf.nonempty⟩
      have hp := (eq_iff_prefix_zero (hT.word_pos hi)).mp hw
      exact ⟨s.left, hi, hp.1, by rw [key, hp.2, hc]⟩
    · have hnode := h.node s hs hc
      obtain ⟨hi, hw⟩ := (hnode.mem_iff s.left).mp ⟨le_rfl, hnode.nonempty⟩
      have hp := (prefix_concat_iff hc).mp hw
      exact ⟨s.left, hi, hp.1, hp.2⟩

/-- The left end of a leaf is the least index of its word. -/
lemma IsLeaf.left_eq {T : List (List ℕ)} {p : List ℕ} {nd : TreeNode} (h : IsLeaf T p nd) :
    nd.left = T.idxOf p := by
  obtain ⟨hi, hw⟩ := (h.mem_iff nd.left).mp ⟨le_rfl, h.nonempty⟩
  have hget : ∀ j (hj : j < T.length), word T j = T[j] := fun j hj => by
    rw [word, List.getD_eq_getElem _ _ hj]
  refine ((List.findIdx_eq hi).mpr ⟨?_, ?_⟩).symm
  · rw [← hget _ hi, hw]
    exact beq_self_eq_true p
  · intro j hj
    rw [← hget _ (by omega), beq_eq_false_iff_ne]
    intro hj'
    have := (h.mem_iff j).mpr ⟨by omega, hj'⟩
    omega

namespace DatImpl

variable {α : Type}

/-! ## What an insertion leaves alone -/

/-- The cells of `d` that are in use are unchanged in `d'`, except for the `_base` of the
cells in `W`; the cells that have come into use belong to values of `begin` that were free
in `d`. -/
structure Ext (W : Set ℕ) (d d' : DatImpl α) : Prop where
  dicts_eq : d'.dicts = d.dicts
  values_eq : d'.values = d.values
  unset_eq : d'.unset = d.unset
  size_eq : d'.size = d.size
  check_eq : ∀ i, d.check i ≠ 0 → d'.check i = d.check i
  base_eq : ∀ i, d.check i ≠ 0 → i ∉ W → d'.base i = d.base i
  root_eq : d'.check 0 = d.check 0
  used_mono : ∀ b, d.used b = true → d'.used b = true
  fresh : ∀ i, d.check i = 0 → d'.check i ≠ 0 →
    ∃ b : ℕ, d'.check i = b ∧ d.used b = false ∧ d'.used b = true
  inside : ∀ i, d.check i = 0 → d'.check i ≠ 0 → i < d.size

/-- Every cell in use belongs to a value of `begin` that is marked. -/
def Marked (d : DatImpl α) : Prop :=
  ∀ i, d.check i ≠ 0 → ∃ b : ℕ, d.check i = b ∧ d.used b = true

/-- The table `t` agrees with `d'` in what came into use on the way from `d` to `d'`, in the
`_base` of the cells in `W`, and in the cells of the values of `begin` marked on the way. -/
structure Keeps (W : Set ℕ) (d d' t : DatImpl α) : Prop where
  check_eq : ∀ i, d.check i = 0 → d'.check i ≠ 0 → t.check i = d'.check i
  base_eq : ∀ i, i ∈ W ∨ d.check i = 0 ∧ d'.check i ≠ 0 → t.base i = d'.base i
  owner : ∀ i, ∀ b : ℕ, t.check i = b → d'.used b = true → d.used b = false →
    t.check i = d'.check i

lemma Ext.refl (W : Set ℕ) (d : DatImpl α) : Ext W d d where
  dicts_eq := rfl
  values_eq := rfl
  unset_eq := rfl
  size_eq := rfl
  check_eq _ _ := rfl
  base_eq _ _ _ := rfl
  root_eq := rfl
  used_mono _ h := h
  fresh _ h h' := absurd h h'
  inside _ h h' := absurd h h'

/-- The sibling lists stay the same. -/
lemma Ext.fetchSiblings_eq {W : Set ℕ} {d d' : DatImpl α} (h : Ext W d d') :
    d'.fetchSiblings = d.fetchSiblings :=
  fetchSiblings_congr h.dicts_eq h.unset_eq

lemma Ext.check_ne {W : Set ℕ} {d d' : DatImpl α} (h : Ext W d d') {i : ℕ}
    (hi : d.check i ≠ 0) : d'.check i ≠ 0 := by
  rw [h.check_eq i hi]
  exact hi

lemma Ext.trans {U V W : Set ℕ} {d d' d'' : DatImpl α} (h : Ext U d d') (h' : Ext V d' d'')
    (hU : ∀ i ∈ U, d.check i ≠ 0 → i ∈ W) (hV : ∀ i ∈ V, d.check i ≠ 0 → i ∈ W) :
    Ext W d d'' where
  dicts_eq := h'.dicts_eq.trans h.dicts_eq
  values_eq := h'.values_eq.trans h.values_eq
  unset_eq := h'.unset_eq.trans h.unset_eq
  size_eq := h'.size_eq.trans h.size_eq
  check_eq i hi := by rw [h'.check_eq i (h.check_ne hi), h.check_eq i hi]
  base_eq i hi hW := by
    rw [h'.base_eq i (h.check_ne hi) fun hm => hW (hV i hm hi),
      h.base_eq i hi fun hm => hW (hU i hm hi)]
  root_eq := h'.root_eq.trans h.root_eq
  used_mono b hb := h'.used_mono b (h.used_mono b hb)
  fresh i hi hi'' := by
    by_cases hi' : d'.check i = 0
    · obtain ⟨b, hb, hfree, hused⟩ := h'.fresh i hi' hi''
      refine ⟨b, hb, ?_, hused⟩
      by_contra hne
      have := h.used_mono b (by simpa using hne)
      simp [this] at hfree
    · obtain ⟨b, hb, hfree, hused⟩ := h.fresh i hi hi'
      exact ⟨b, by rw [h'.check_eq i hi', hb], hfree, h'.used_mono b hused⟩
  inside i hi hi'' := by
    by_cases hi' : d'.check i = 0
    · rw [← h.size_eq]
      exact h'.inside i hi' hi''
    · exact h.inside i hi hi'

lemma Ext.marked {W : Set ℕ} {d d' : DatImpl α} (h : Ext W d d') (hd : Marked d) :
    Marked d' := by
  intro i hi'
  by_cases hi : d.check i = 0
  · obtain ⟨b, hb, -, hused⟩ := h.fresh i hi hi'
    exact ⟨b, hb, hused⟩
  · obtain ⟨b, hb, hused⟩ := hd i hi
    exact ⟨b, by rw [h.check_eq i hi, hb], h.used_mono b hused⟩

lemma Marked.check_nonneg {d : DatImpl α} (hd : Marked d) (i : ℕ) : 0 ≤ d.check i := by
  by_cases hi : d.check i = 0
  · exact hi.ge
  · obtain ⟨b, hb, -⟩ := hd i hi
    rw [hb]
    exact Int.natCast_nonneg b

/-- A table that keeps a sequence of two parts keeps the second part. -/
lemma Keeps.right {W U V : Set ℕ} {d d' d'' t : DatImpl α} (h : Keeps W d d'' t)
    (h₁ : Ext U d d') (hV : ∀ i ∈ V, i ∈ W ∨ d.check i = 0 ∧ d''.check i ≠ 0) :
    Keeps V d' d'' t := by
  have hzero : ∀ i, d'.check i = 0 → d.check i = 0 := fun i hi => by
    by_contra hne
    exact h₁.check_ne hne hi
  refine ⟨fun i hi hi' => h.check_eq i (hzero i hi) hi', ?_, ?_⟩
  · rintro i (hi | ⟨hi, hi'⟩)
    · exact h.base_eq i (hV i hi)
    · exact h.base_eq i (Or.inr ⟨hzero i hi, hi'⟩)
  · intro i b hb hused hfree
    refine h.owner i b hb hused ?_
    by_contra hne
    have := h₁.used_mono b (by simpa using hne)
    simp [this] at hfree

/-- A table that keeps a sequence of two parts keeps the first part, when the second part
does not write over it. -/
lemma Keeps.left {W U V : Set ℕ} {d d' d'' t : DatImpl α} (h : Keeps W d d'' t)
    (h₂ : Ext V d' d'') (hU : ∀ i ∈ U, i ∈ W ∧ i ∉ V ∧ d'.check i ≠ 0)
    (hV : ∀ i ∈ V, d.check i ≠ 0) : Keeps U d d' t := by
  refine ⟨?_, ?_, ?_⟩
  · intro i hi hi'
    rw [h.check_eq i hi (h₂.check_ne hi'), h₂.check_eq i hi']
  · rintro i (hi | ⟨hi, hi'⟩)
    · obtain ⟨hW, hnV, hi'⟩ := hU i hi
      rw [h.base_eq i (Or.inl hW), h₂.base_eq i hi' hnV]
    · have hnV : i ∉ V := fun hm => hV i hm hi
      rw [h.base_eq i (Or.inr ⟨hi, h₂.check_ne hi'⟩), h₂.base_eq i hi' hnV]
  · intro i b hb hused hfree
    have hi'' := h.owner i b hb (h₂.used_mono b hused) hfree
    by_cases hi' : d'.check i = 0
    · -- a cell filled in the second part would belong to a value that was free before it
      by_contra hne
      obtain ⟨b', hb', hfree', -⟩ := h₂.fresh i hi' (by rw [← hi'', ← hi']; exact hne)
      have hbb : b' = b := by
        rw [← hi'', hb] at hb'
        exact_mod_cast hb'.symm
      rw [hbb, hused] at hfree'
      cases hfree'
    · rw [hi'', h₂.check_eq i hi']

/-! ## The first-fit search and the cells it takes -/

/-- What no step of the search for `begin` changes. -/
structure SameCells (d d' : DatImpl α) : Prop where
  dicts_eq : d'.dicts = d.dicts
  values_eq : d'.values = d.values
  unset_eq : d'.unset = d.unset
  size_eq : d'.size = d.size
  check_eq : d'.check = d.check
  base_eq : d'.base = d.base
  used_eq : d'.used = d.used

lemma SameCells.trans {d d' d'' : DatImpl α} (h : SameCells d d') (h' : SameCells d' d'') :
    SameCells d d'' :=
  ⟨h'.dicts_eq.trans h.dicts_eq, h'.values_eq.trans h.values_eq, h'.unset_eq.trans h.unset_eq,
    h'.size_eq.trans h.size_eq, h'.check_eq.trans h.check_eq, h'.base_eq.trans h.base_eq,
    h'.used_eq.trans h.used_eq⟩

/-- What the test of the cells of the siblings says. -/
lemma anyTaken_cases (d : DatImpl α) (b : ℕ) (sibs : List TreeNode) :
    (d.anyTaken b sibs = .error .outOfBounds ∧ ∃ s ∈ sibs, d.size ≤ b + s.code) ∨
      (d.anyTaken b sibs = .ok true ∧ ∃ s ∈ sibs, d.check (b + s.code) ≠ 0) ∨
      d.anyTaken b sibs = .ok false ∧ ∀ s ∈ sibs, d.check (b + s.code) = 0 := by
  induction sibs with
  | nil => exact Or.inr (Or.inr ⟨rfl, by simp⟩)
  | cons x sibs ih =>
    rw [anyTaken, readCheck]
    by_cases hx : b + x.code < d.size
    · rw [if_pos hx]
      by_cases hc : d.check (b + x.code) = 0
      · simp only [hc, ne_eq, not_true_eq_false, if_false, List.exists_mem_cons_iff,
          List.forall_mem_cons, true_and, false_or]
        exact ih.imp_left fun h => ⟨h.1, Or.inr h.2⟩
      · exact Or.inr (Or.inl ⟨by simp [hc], x, List.mem_cons_self, hc⟩)
    · rw [if_neg hx]
      exact Or.inl ⟨rfl, x, List.mem_cons_self, not_lt.mp hx⟩

/-- One round of the search without a resize: it leaves the arrays, it would have to grow them,
it goes on to the next position, or it has found a `begin`. -/
lemma findBegin_cases (sibs : List TreeNode) (f l n pos : ℕ) (first : Bool) (d : DatImpl α) :
    (findBegin noResize sibs f l (n + 1) pos first d = .error .outOfBounds ∧
        (d.size ≤ pos + 1 ∨ ∃ s ∈ sibs, d.size ≤ pos + 1 - f + s.code)) ∨
      (findBegin noResize sibs f l (n + 1) pos first d = .error .resize ∧
        d.size ≤ pos + 1 - f + l) ∨
      (∃ first' d', findBegin noResize sibs f l (n + 1) pos first d =
          findBegin noResize sibs f l n (pos + 1) first' d' ∧ pos + 1 < d.size ∧ SameCells d d' ∧
        d'.nextCheckPos ≤ max d.nextCheckPos (pos + 1) ∧
        (d.check (pos + 1) ≠ 0 ∨ d.used (pos + 1 - f) = true ∨
          ∃ s ∈ sibs, d.check (pos + 1 - f + s.code) ≠ 0)) ∨
      ∃ d', findBegin noResize sibs f l (n + 1) pos first d = .ok (pos + 1 - f, pos + 1, d') ∧
        pos + 1 - f + l < d.size ∧ SameCells d d' ∧
        d'.nextCheckPos ≤ max d.nextCheckPos (pos + 1) ∧ d.used (pos + 1 - f) = false ∧
        ∀ s ∈ sibs, d.check (pos + 1 - f + s.code) = 0 := by
  rw [findBegin, readCheck]
  by_cases hpos : pos + 1 < d.size
  · rw [if_pos hpos, Except.ok_bind]
    by_cases hc : d.check (pos + 1) = 0
    · rw [if_neg (not_not.mpr hc)]
      -- the object with the new `_next_check_pos`, whose cells are those of `d`
      generalize hd₁ : (if first = true then d else { d with nextCheckPos := pos + 1 }) = d₁
      have hsame : SameCells d d₁ := by
        rw [← hd₁]
        split <;> exact ⟨rfl, rfl, rfl, rfl, rfl, rfl, rfl⟩
      have hnext : d₁.nextCheckPos ≤ max d.nextCheckPos (pos + 1) := by
        rw [← hd₁]
        split
        · exact le_max_left _ _
        · exact le_max_right _ _
      have hsize := hsame.size_eq
      by_cases hroom : l + (pos + 1 - f) ≥ d₁.size
      · simp only [if_pos hroom, noResize, Except.error_bind]
        exact Or.inr (Or.inl ⟨trivial, by omega⟩)
      · simp only [if_neg hroom, if_neg (show ¬ l + (pos + 1 - f) > d₁.size by omega),
          Except.ok_bind, readUsed, if_pos (show pos + 1 - f < d₁.size by omega)]
        by_cases hu : d₁.used (pos + 1 - f) = true
        · rw [if_pos hu]
          refine Or.inr (Or.inr (Or.inl ⟨true, d₁, rfl, hpos, hsame, hnext, ?_⟩))
          exact Or.inr (Or.inl (hsame.used_eq ▸ hu))
        · rw [if_neg hu]
          rcases anyTaken_cases d₁ (pos + 1 - f) sibs with ⟨htag, h⟩ | ⟨htag, h⟩ | ⟨htag, h⟩
          · rw [hsize] at h
            rw [htag]
            exact Or.inl ⟨rfl, Or.inr h⟩
          · rw [hsame.check_eq] at h
            rw [htag]
            exact Or.inr (Or.inr (Or.inl ⟨true, d₁, rfl, hpos, hsame, hnext, Or.inr (Or.inr h)⟩))
          · rw [hsame.check_eq] at h
            rw [hsame.used_eq] at hu
            rw [htag]
            exact Or.inr (Or.inr (Or.inr ⟨d₁, rfl, by omega, hsame, hnext, by simpa using hu, h⟩))
    · rw [if_pos hc]
      exact Or.inr (Or.inr (Or.inl ⟨first, _, rfl, hpos, ⟨rfl, rfl, rfl, rfl, rfl, rfl, rfl⟩,
        le_max_left _ _, Or.inl hc⟩))
  · rw [if_neg hpos, Except.error_bind]
    exact Or.inl ⟨rfl, Or.inl (not_lt.mp hpos)⟩

/-- The search stops at a value of `begin` that is free and whose cells are free. -/
lemma findBegin_ok {sibs : List TreeNode} {f l : ℕ} :
    ∀ (n pos : ℕ) (first : Bool) (d : DatImpl α) (b pos' : ℕ) (d' : DatImpl α), f ≤ pos →
      findBegin noResize sibs f l n pos first d = .ok (b, pos', d') →
      SameCells d d' ∧ 1 ≤ b ∧ b + l < d.size ∧ d.used b = false ∧
        ∀ s ∈ sibs, d.check (b + s.code) = 0 := by
  -- by induction on the fuel: each `continue` of the loop is a recursive call
  intro n
  induction n with
  | zero =>
    intro pos first d b pos' d' _ h
    cases h
  | succ n ih =>
    intro pos first d b pos' d' hf h
    rcases findBegin_cases sibs f l n pos first d with ⟨hout, -⟩ | ⟨hout, -⟩ |
      ⟨first', d₁, hout, -, hsame, -, -⟩ | ⟨d₁, hout, hroom, hsame, -, hfree, hcells⟩
    · rw [hout] at h
      cases h
    · rw [hout] at h
      cases h
    · rw [hout] at h
      obtain ⟨hs, h1, h2, h3, h4⟩ := ih (pos + 1) first' d₁ b pos' d' (by omega) h
      rw [hsame.check_eq, hsame.used_eq, hsame.size_eq] at *
      exact ⟨hsame.trans hs, h1, h2, h3, h4⟩
    · rw [hout] at h
      cases h
      exact ⟨hsame, by omega, hroom, hfree, hcells⟩

/-- The cells of the siblings. -/
def cells (b : ℕ) (sibs : List TreeNode) : Set ℕ := {i | ∃ s ∈ sibs, i = b + s.code}

/-- The writes of `begin` into the cells of the siblings. -/
lemma markSiblings_ok {b : ℕ} :
    ∀ (sibs : List TreeNode) (d d' : DatImpl α), markSiblings b sibs d = .ok d' →
      (d'.dicts = d.dicts ∧ d'.values = d.values ∧ d'.unset = d.unset ∧ d'.size = d.size ∧
        d'.base = d.base ∧ d'.used = d.used) ∧
        (∀ i ∈ cells b sibs, d'.check i = b ∧ i < d.size) ∧
        ∀ i ∉ cells b sibs, d'.check i = d.check i := by
  intro sibs
  induction sibs with
  | nil =>
    intro d d' h
    cases h
    refine ⟨⟨rfl, rfl, rfl, rfl, rfl, rfl⟩, ?_, fun _ _ => rfl⟩
    rintro i ⟨s, hs, -⟩
    cases hs
  | cons x sibs ih =>
    intro d d' h
    rw [markSiblings, Except.bind_eq_ok] at h
    obtain ⟨d₁, hw, h⟩ := h
    rw [writeCheck, Except.ite_eq_ok] at hw
    obtain ⟨hlt, hw⟩ := hw
    cases hw
    obtain ⟨hsame, hin, hout⟩ := ih _ d' h
    refine ⟨hsame, ?_, ?_⟩
    -- a later sibling with the same code writes the same `begin` again
    · rintro i ⟨s, hs, rfl⟩
      by_cases hi : b + s.code ∈ cells b sibs
      · exact hin _ hi
      · rw [hout _ hi]
        rcases List.mem_cons.mp hs with rfl | hs
        · exact ⟨by simp, hlt⟩
        · exact absurd ⟨s, hs, rfl⟩ hi
    · intro i hi
      have hx : i ≠ b + x.code := fun h => hi ⟨x, by simp, h⟩
      have hi' : i ∉ cells b sibs := by
        rintro ⟨s, hs, h⟩
        exact hi ⟨s, by simp [hs], h⟩
      rw [hout i hi']
      exact Function.update_of_ne hx _ _

/-- What the part of `_insert` before its recursion does. -/
structure Placed (sibs : List TreeNode) (b : ℕ) (d d' : DatImpl α) : Prop where
  dicts_eq : d'.dicts = d.dicts
  values_eq : d'.values = d.values
  unset_eq : d'.unset = d.unset
  size_eq : d'.size = d.size
  pos : 1 ≤ b
  base_eq : d'.base = d.base
  free : d.used b = false
  used : d'.used = Function.update d.used b true
  zero : ∀ i ∈ cells b sibs, d.check i = 0
  inside : ∀ i ∈ cells b sibs, i < d.size
  check_in : ∀ i ∈ cells b sibs, d'.check i = b
  check_out : ∀ i ∉ cells b sibs, d'.check i = d.check i

lemma place_ok {fuel b : ℕ} {sibs : List TreeNode} {d d' : DatImpl α}
    (h : place noResize fuel sibs d = .ok (b, d')) : Placed sibs b d d' := by
  rw [place] at h
  split at h
  · next s last hs hlast =>
    obtain ⟨⟨b', pos, d₁⟩, hfind, h⟩ := Except.bind_eq_ok.mp h
    obtain ⟨d₂, hused, h⟩ := Except.bind_eq_ok.mp h
    obtain ⟨d₃, hmark, h⟩ := Except.bind_eq_ok.mp h
    cases h
    obtain ⟨hsame, hpos, -, hfree, hzero⟩ :=
      findBegin_ok _ _ _ _ _ _ _ (by omega) hfind
    rw [writeUsed, Except.ite_eq_ok] at hused
    obtain ⟨-, hused⟩ := hused
    cases hused
    obtain ⟨⟨h1, hv, hu, h2, h3, h4⟩, hin, hout⟩ := markSiblings_ok _ _ _ hmark
    have hcell : ∀ i ∈ cells b sibs, d.check i = 0 := by
      rintro i ⟨x, hx, rfl⟩
      exact hzero x hx
    -- moving `_next_check_pos` changes no cell
    have hif : ∀ e : DatImpl α, ∀ c : Prop, [Decidable c] → ∀ n : ℕ,
        SameCells e (if c then { e with nextCheckPos := n } else e) := by
      intro e c _ n
      split <;> exact ⟨rfl, rfl, rfl, rfl, rfl, rfl, rfl⟩
    have hmove := hif { d₁ with used := Function.update d₁.used b true }
      (19 * (pos - d₁.nextCheckPos + 1) ≤ 20 * d₁.nonZeroNum) pos
    refine ⟨?_, ?_, ?_, ?_, hpos, ?_, hfree, ?_, hcell, fun i hi => ?_, fun i hi => (hin i hi).1, ?_⟩
    · rw [h1, hmove.dicts_eq, hsame.dicts_eq]
    · rw [hv, hmove.values_eq, hsame.values_eq]
    · rw [hu, hmove.unset_eq, hsame.unset_eq]
    · rw [h2, hmove.size_eq, hsame.size_eq]
    · rw [h3, hmove.base_eq, hsame.base_eq]
    · rw [h4, hmove.used_eq, hsame.used_eq]
    · have hlt := (hin i hi).2
      rw [hmove.size_eq] at hlt
      exact hlt.trans_eq hsame.size_eq
    · intro i hi
      rw [hout i hi, hmove.check_eq, hsame.check_eq]
  · cases h

lemma Placed.ext {sibs : List TreeNode} {b : ℕ} {d d' : DatImpl α} (h : Placed sibs b d d') :
    Ext ∅ d d' where
  dicts_eq := h.dicts_eq
  values_eq := h.values_eq
  unset_eq := h.unset_eq
  size_eq := h.size_eq
  check_eq i hi := h.check_out i fun hc => hi (h.zero i hc)
  base_eq i _ _ := by rw [h.base_eq]
  root_eq := h.check_out 0 fun ⟨s, _, hs⟩ => by
    have := h.pos
    omega
  used_mono b' hb' := by
    rw [h.used]
    by_cases hbb : b' = b <;> simp [Function.update, hbb, hb']
  fresh i hi hi' := by
    by_cases hc : i ∈ cells b sibs
    · exact ⟨b, h.check_in i hc, h.free, by rw [h.used]; simp⟩
    · exact absurd (by rw [h.check_out i hc, hi]) hi'
  inside i hi hi' := by
    by_cases hc : i ∈ cells b sibs
    · exact h.inside i hc
    · exact absurd (by rw [h.check_out i hc, hi]) hi'

/-- After the cells are taken, they are exactly the cells that carry `begin`. -/
lemma Placed.check_eq_iff {sibs : List TreeNode} {b : ℕ} {d d' : DatImpl α}
    (h : Placed sibs b d d') (hd : Marked d) (i : ℕ) :
    d'.check i = b ↔ i ∈ cells b sibs := by
  constructor
  · intro hi
    by_contra hc
    rw [h.check_out i hc] at hi
    have hpos := h.pos
    obtain ⟨b', hb', hused⟩ := hd i (by rw [hi]; omega)
    have hbb : b' = b := by
      rw [hi] at hb'
      exact_mod_cast hb'.symm
    rw [hbb, h.free] at hused
    cases hused
  · exact h.check_in i

/-! ## The recursion -/

/-- The last sibling with a code. -/
def lastSib (sibs : List TreeNode) (c : ℕ) : Option TreeNode :=
  sibs.reverse.find? fun s => s.code == c

/-- The cells from `b` on carry the children `sibs` and, below them, the tree that `fetch`
unfolds.  Where two siblings have the same code it is the tree of the last one. -/
inductive Built (fetch : TreeNode → Except Stop (ℕ × List TreeNode)) (t : DatImpl α) :
    ℕ → List TreeNode → Prop
  | mk (b : ℕ) (sibs : List TreeNode) (next : ℕ → ℕ) (pos : 1 ≤ b)
      (ne_nil : sibs ≠ []) (check : ∀ c, t.check (b + c) = b ↔ ∃ s ∈ sibs, s.code = c)
      (fetched : ∀ s ∈ sibs, ∃ r, fetch s = .ok r)
      (leaf : ∀ c s subs, lastSib sibs c = some s → fetch s = .ok (0, subs) →
        t.base (b + c) = -(s.left : ℤ) - 1)
      (node : ∀ c s n subs, lastSib sibs c = some s → fetch s = .ok (n + 1, subs) →
        t.base (b + c) = next c)
      (sub : ∀ c s n subs, lastSib sibs c = some s → fetch s = .ok (n + 1, subs) →
        Built fetch t (next c) subs) : Built fetch t b sibs

lemma lastSib_eq_some {sibs : List TreeNode} {c : ℕ} {s : TreeNode} (h : lastSib sibs c = some s) :
    s ∈ sibs ∧ s.code = c := by
  refine ⟨List.mem_reverse.mp (List.mem_of_find?_eq_some h), ?_⟩
  simpa using List.find?_some h

lemma lastSib_cons (x : TreeNode) (sibs : List TreeNode) (c : ℕ) :
    lastSib (x :: sibs) c = (lastSib sibs c).or (if x.code = c then some x else none) := by
  rw [lastSib, List.reverse_cons, List.find?_append, lastSib, List.find?_singleton]
  simp only [beq_iff_eq]

lemma lastSib_eq_none {sibs : List TreeNode} {c : ℕ} :
    lastSib sibs c = none ↔ ∀ s ∈ sibs, s.code ≠ c := by
  rw [lastSib, List.find?_eq_none]
  simp

/-- The last sibling with a code is the only one where the codes ascend. -/
lemma lastSib_of_asc {sibs : List TreeNode} (hasc : (sibs.map TreeNode.code).Pairwise (· < ·))
    {s : TreeNode} (hs : s ∈ sibs) : lastSib sibs s.code = some s := by
  cases hlast : lastSib sibs s.code with
  | none => exact absurd rfl (lastSib_eq_none.mp hlast s hs)
  | some s' =>
    obtain ⟨hs', hcode⟩ := lastSib_eq_some hlast
    have hnodup : (sibs.map TreeNode.code).Nodup := hasc.imp fun hlt => ne_of_lt hlt
    rw [List.inj_on_of_nodup_map hnodup hs' hs hcode]

/-- The cell of a child carries its tree. -/
def ChildBuilt (fetch : TreeNode → Except Stop (ℕ × List TreeNode)) (t : DatImpl α) (b : ℕ)
    (s : TreeNode) : Prop :=
  (∀ subs, fetch s = .ok (0, subs) → t.base (b + s.code) = -(s.left : ℤ) - 1) ∧
    ∀ n subs, fetch s = .ok (n + 1, subs) →
      ∃ nb : ℕ, t.base (b + s.code) = nb ∧ Built fetch t nb subs

/-- What an insertion of sibling lists does. -/
def Builds (fetch : TreeNode → Except Stop (ℕ × List TreeNode))
    (ins : List TreeNode → DatImpl α → Except Stop (ℕ × DatImpl α)) : Prop :=
  ∀ (sibs : List TreeNode) (d : DatImpl α) (b : ℕ) (d' : DatImpl α),
    d.fetchSiblings = fetch → Marked d → ins sibs d = .ok (b, d') →
    Ext ∅ d d' ∧ ∀ t, Keeps ∅ d d' t → Built fetch t b sibs

lemma writeBase_eq {d d' : DatImpl α} {i : ℕ} {v : ℤ} (h : d.writeBase i v = .ok d') :
    d' = { d with base := Function.update d.base i v } := by
  rw [writeBase, Except.ite_eq_ok] at h
  obtain ⟨-, h⟩ := h
  exact (Except.ok.inj h).symm

lemma writeBase_ok {d d' : DatImpl α} {i : ℕ} {v : ℤ} (h : d.writeBase i v = .ok d') :
    Ext {i} d d' ∧ d'.base i = v := by
  obtain rfl := writeBase_eq h
  refine ⟨⟨rfl, rfl, rfl, rfl, fun _ _ => rfl, ?_, rfl, fun _ h => h, fun _ h h' => absurd h h',
    fun _ h h' => absurd h h'⟩, by simp⟩
  intro j _ hj
  exact Function.update_of_ne hj _ _

/-- One round of the last loop of `_insert`: a node without children gets its index, any other
node the `begin` of the recursive call. -/
lemma attach_cases {ins : List TreeNode → DatImpl α → Except Stop (ℕ × DatImpl α)}
    {s : TreeNode} {b : ℕ} {d d' : DatImpl α} (h : attach ins b d s = .ok d') :
    (∃ subs d₁, d.fetchSiblings s = .ok (0, subs) ∧
        d.writeBase (b + s.code) (-(s.left : ℤ) - 1) = .ok d₁ ∧
        d' = { d₁ with progress := d₁.progress + 1 }) ∨
      ∃ n subs nb d₁, d.fetchSiblings s = .ok (n + 1, subs) ∧ ins subs d = .ok (nb, d₁) ∧
        d₁.writeBase (b + s.code) nb = .ok d' := by
  rw [attach, Except.bind_eq_ok] at h
  obtain ⟨⟨ret, subs⟩, hs, h⟩ := h
  cases ret with
  | zero =>
    simp only [if_true, Except.bind_eq_ok] at h
    obtain ⟨d₁, hw, h⟩ := h
    cases h
    exact Or.inl ⟨subs, d₁, hs, hw, rfl⟩
  | succ n =>
    simp only [Nat.succ_ne_zero, if_false, Except.bind_eq_ok] at h
    obtain ⟨⟨nb, d₁⟩, hrec, hw⟩ := h
    exact Or.inr ⟨n, subs, nb, d₁, hs, hrec, hw⟩

/-- What one round does to a later table. -/
lemma attach_ok {fetch : TreeNode → Except Stop (ℕ × List TreeNode)}
    {ins : List TreeNode → DatImpl α → Except Stop (ℕ × DatImpl α)} (hins : Builds fetch ins)
    {s : TreeNode} {b : ℕ} {d d' : DatImpl α} (hfetch : d.fetchSiblings = fetch) (hd : Marked d)
    (hcell : d.check (b + s.code) ≠ 0) (h : attach ins b d s = .ok d') :
    (∃ r, fetch s = .ok r) ∧ Ext {b + s.code} d d' ∧
      ∀ t, Keeps {b + s.code} d d' t → ChildBuilt fetch t b s := by
  rcases attach_cases h with ⟨subs, d₁, hs, hw, rfl⟩ | ⟨n, subs, nb, d₁, hs, hrec, hw⟩
  -- a leaf: `_base` gets `-left - 1`
  · rw [hfetch] at hs
    obtain ⟨hext, hbase⟩ := writeBase_ok hw
    refine ⟨⟨_, hs⟩, ⟨hext.dicts_eq, hext.values_eq, hext.unset_eq, hext.size_eq, hext.check_eq,
      hext.base_eq, hext.root_eq, hext.used_mono, hext.fresh, hext.inside⟩,
      fun t ht => ⟨fun subs _ => ?_, fun n subs hn => ?_⟩⟩
    · rw [ht.base_eq (b + s.code) (Or.inl rfl)]
      exact hbase
    · rw [hs] at hn
      cases hn
  -- an inner node: `_base` gets the `begin` of the recursive call
  · rw [hfetch] at hs
    obtain ⟨hext, hrep⟩ := hins _ _ _ _ hfetch hd hrec
    obtain ⟨hext', hbase⟩ := writeBase_ok hw
    refine ⟨⟨_, hs⟩, hext.trans hext' (by simp) (fun i hi _ => hi),
      fun t ht => ⟨fun subs h0 => ?_, fun m subs hm => ?_⟩⟩
    · rw [hs] at h0
      cases h0
    · rw [hs] at hm
      cases hm
      refine ⟨nb, ?_, hrep t (ht.left hext' (by simp) ?_)⟩
      · rw [ht.base_eq _ (Or.inl rfl), hbase]
      · rintro i rfl
        exact hcell

/-- The last loop of `_insert`, by induction on the siblings that are left.  A later sibling
with the same code replaces what was written for an earlier one. -/
lemma attachAll_ok {fetch : TreeNode → Except Stop (ℕ × List TreeNode)}
    {ins : List TreeNode → DatImpl α → Except Stop (ℕ × DatImpl α)} (hins : Builds fetch ins)
    {b : ℕ} :
    ∀ (rest : List TreeNode) (d d' : DatImpl α), d.fetchSiblings = fetch → Marked d →
      (∀ i ∈ cells b rest, d.check i ≠ 0) → rest.foldlM (attach ins b) d = .ok d' →
      (∀ s ∈ rest, ∃ r, fetch s = .ok r) ∧ Ext (cells b rest) d d' ∧
        ∀ t, Keeps (cells b rest) d d' t →
          ∀ c s, lastSib rest c = some s → ChildBuilt fetch t b s := by
  intro rest
  induction rest with
  | nil =>
    intro d d' _ _ _ h
    cases h
    refine ⟨by simp, Ext.refl _ d, fun t _ c s hs => ?_⟩
    cases hs
  | cons x rest ih =>
    intro d d' hfetch hd hcell h
    rw [Except.foldlM_cons_eq_ok] at h
    obtain ⟨d₁, hx, hrest⟩ := h
    have hxc : d.check (b + x.code) ≠ 0 := hcell _ ⟨x, by simp, rfl⟩
    have hmem : ∀ i ∈ cells b rest, i ∈ cells b (x :: rest) := by
      rintro i ⟨s, hs, rfl⟩
      exact ⟨s, by simp [hs], rfl⟩
    obtain ⟨hxf, hext, hbuilt⟩ := attach_ok hins hfetch hd hxc hx
    obtain ⟨hrf, hext', hbuilt'⟩ := ih d₁ d' (by rw [hext.fetchSiblings_eq, hfetch])
      (hext.marked hd) (fun i hi => hext.check_ne (hcell i (hmem i hi))) hrest
    refine ⟨?_, hext.trans hext' ?_ fun i hi _ => hmem i hi, ?_⟩
    · intro s hs
      rcases List.mem_cons.mp hs with rfl | hs
      · exact hxf
      · exact hrf s hs
    · rintro i rfl -
      exact ⟨x, by simp, rfl⟩
    · intro t ht c s hlast
      rw [lastSib_cons] at hlast
      cases hc : lastSib rest c with
      | some s' =>
        rw [hc, Option.some_or] at hlast
        rw [← Option.some.inj hlast]
        exact hbuilt' t (ht.right hext fun i hi => Or.inl (hmem i hi)) c s' hc
      | none =>
        rw [hc, Option.none_or] at hlast
        split at hlast
        · next hxcode =>
          rw [← Option.some.inj hlast]
          refine hbuilt t (ht.left hext' ?_ fun i hi => hcell i (hmem i hi))
          rintro i rfl
          refine ⟨⟨x, by simp, rfl⟩, ?_, hext.check_ne hxc⟩
          -- no later sibling has the code, so the later rounds write elsewhere
          rintro ⟨y, hy, hyc⟩
          exact lastSib_eq_none.mp hc y hy (by omega)
        · cases hlast

/-- The cells that carry a value of `begin` are those of its siblings, in every later table
that keeps what has been written. -/
lemma owned_iff {sibs : List TreeNode} {b : ℕ} {d d₁ d₂ t : DatImpl α} {W : Set ℕ}
    (hpl : Placed sibs b d d₁) (hd : Marked d) (hext : Ext W d₁ d₂) (ht : Keeps ∅ d d₂ t) (i : ℕ) :
    t.check i = b ↔ i ∈ cells b sibs := by
  have hpos := hpl.pos
  constructor
  · intro hi
    have hused : d₁.used b = true := by rw [hpl.used]; simp
    have hi₂ := ht.owner i b hi (hext.used_mono b hused) hpl.free
    rw [hi] at hi₂
    by_cases hi₁ : d₁.check i = 0
    · obtain ⟨b', hb', hfree, -⟩ := hext.fresh i hi₁ (by rw [← hi₂]; omega)
      have hbb : b' = b := by
        rw [← hi₂] at hb'
        exact_mod_cast hb'.symm
      rw [hbb, hused] at hfree
      cases hfree
    · rw [hext.check_eq i hi₁] at hi₂
      exact (hpl.check_eq_iff hd i).mp hi₂.symm
  · intro hi
    have hi₁ : d₁.check i ≠ 0 := by
      rw [hpl.check_in i hi]
      omega
    rw [ht.check_eq i (hpl.zero i hi) (hext.check_ne hi₁), hext.check_eq i hi₁, hpl.check_in i hi]

/-- **An insertion builds the tree of its siblings** in every later table that keeps what it
has written. -/
theorem insert_builds (fetch : TreeNode → Except Stop (ℕ × List TreeNode)) (fuel n : ℕ) :
    Builds (α := α) fetch (insert noResize fuel n) := by
  induction n with
  | zero =>
    intro sibs d b d' _ _ h
    cases h
  | succ n ih =>
    intro sibs d b d' hfetch hd h
    simp only [insert, Except.bind_eq_ok] at h
    obtain ⟨⟨b₁, d₁⟩, hplace, d₂, hloop, h⟩ := h
    obtain ⟨rfl, rfl⟩ : b₁ = b ∧ d₂ = d' := by simpa using h
    have hpl := place_ok hplace
    have hpos := hpl.pos
    have hne : sibs ≠ [] := by
      rintro rfl
      cases hplace
    have hocc : ∀ i ∈ cells b₁ sibs, d₁.check i ≠ 0 := fun i hi => by
      rw [hpl.check_in i hi]
      omega
    obtain ⟨hfetched, hext, hbuilt⟩ := attachAll_ok ih sibs d₁ d₂
      (by rw [hpl.ext.fetchSiblings_eq, hfetch]) (hpl.ext.marked hd) hocc hloop
    have hnew : ∀ i ∈ cells b₁ sibs, d.check i = 0 ∧ d₂.check i ≠ 0 := fun i hi =>
      ⟨hpl.zero i hi, hext.check_ne (hocc i hi)⟩
    refine ⟨hpl.ext.trans hext (by simp) fun i hi h => absurd (hnew i hi).1 h, ?_⟩
    intro t ht
    have hchild := hbuilt t (ht.right hpl.ext fun i hi => Or.inr (hnew i hi))
    -- the states below the siblings, one for each code
    have hnext : ∀ c, ∃ nb : ℕ, ∀ s n subs, lastSib sibs c = some s →
        fetch s = .ok (n + 1, subs) → t.base (b₁ + c) = nb ∧ Built fetch t nb subs := by
      intro c
      cases hlast : lastSib sibs c with
      | none => exact ⟨0, fun s n subs h => by cases h⟩
      | some s =>
        obtain ⟨-, rfl⟩ := lastSib_eq_some hlast
        obtain ⟨r, hr⟩ := hfetched s (lastSib_eq_some hlast).1
        obtain ⟨ret, subs⟩ := r
        cases ret with
        | zero =>
          refine ⟨0, fun s' n subs' hs' hn => ?_⟩
          rw [← Option.some.inj hs', hr] at hn
          cases hn
        | succ m =>
          obtain ⟨nb, hnb, hb⟩ := (hchild _ s hlast).2 m subs hr
          refine ⟨nb, fun s' n subs' hs' hn => ?_⟩
          rw [← Option.some.inj hs', hr] at hn
          cases hn
          exact ⟨hnb, hb⟩
    choose next hnext using hnext
    refine Built.mk b₁ sibs next hpos hne (fun c => ?_) hfetched ?_ ?_ ?_
    · rw [owned_iff hpl hd hext ht]
      constructor
      · rintro ⟨s, hs, hsc⟩
        exact ⟨s, hs, by omega⟩
      · rintro ⟨s, hs, rfl⟩
        exact ⟨s, hs, rfl⟩
    · intro c s subs hlast h0
      obtain ⟨-, rfl⟩ := lastSib_eq_some hlast
      exact (hchild _ s hlast).1 subs h0
    · exact fun c s n subs hlast hn => (hnext c s n subs hlast hn).1
    · exact fun c s n subs hlast hn => (hnext c s n subs hlast hn).2

/-! ## Trees over a sorted dictionary -/

/-- Where the siblings are the children of a prefix, their tree represents the prefix. -/
lemma Built.rep {d t : DatImpl α} (hT : Table d.table) {b : ℕ} {sibs : List TreeNode}
    (h : Built d.fetchSiblings t b sibs) :
    ∀ {p : List ℕ}, Children d.table p sibs → Rep d.table t b p := by
  induction h with
  | mk b sibs next hpos _ hcheck _ hleaf hnode _ ih =>
    intro p hch
    have hcode : ∀ c, Follows d.table p c ↔ ∃ s ∈ sibs, s.code = c := hch.follows_iff hT
    have hchild : ∀ c, c ≠ 0 → Follows d.table p c → ∃ s n subs, lastSib sibs c = some s ∧
        d.fetchSiblings s = .ok (n + 1, subs) ∧ Children d.table (p ++ [c]) subs := by
      intro c hc hfol
      obtain ⟨s, hs, rfl⟩ := (hcode c).mp hfol
      obtain ⟨subs, hsubs, hch'⟩ := fetchSiblings_node hT (hch.node s hs hc)
      obtain ⟨n, hn⟩ := Nat.exists_eq_succ_of_ne_zero
        (List.length_eq_zero_iff.not.mpr hch'.ne_nil)
      exact ⟨s, n, subs, lastSib_of_asc hch.asc hs, by rw [hsubs, hn], hch'⟩
    refine Rep.mk b p next hpos (fun c => ?_) ?_ ?_ ?_
    · rw [hcheck, hcode]
    · intro hfol
      obtain ⟨s, hs, hc⟩ := (hcode 0).mp hfol
      have hIsLeaf := hch.leaf s hs hc
      rw [← hIsLeaf.left_eq]
      have hlast := lastSib_of_asc hch.asc hs
      rw [hc] at hlast
      exact hleaf 0 s [] hlast (fetchSiblings_leaf hIsLeaf)
    · intro c hc hfol
      obtain ⟨s, n, subs, hlast, hsubs, -⟩ := hchild c hc hfol
      exact hnode c s n subs hlast hsubs
    · intro c hc hfol
      obtain ⟨s, n, subs, hlast, hsubs, hch'⟩ := hchild c hc hfol
      exact ih c s n subs hlast hsubs hch'

/-- What an insertion of sibling lists guarantees. -/
def Inserts (T : List (List ℕ))
    (ins : List TreeNode → DatImpl α → Except Stop (ℕ × DatImpl α)) : Prop :=
  ∀ (p : List ℕ) (sibs : List TreeNode) (d : DatImpl α) (b : ℕ) (d' : DatImpl α),
    Children T p sibs → d.table = T → Marked d → ins sibs d = .ok (b, d') →
    Ext ∅ d d' ∧ ∀ t, Keeps ∅ d d' t → Rep T t b p

/-- **An insertion builds a representation of its prefix** in every later table that keeps
what it has written. -/
theorem insert_spec {T : List (List ℕ)} (hT : Table T) (fuel n : ℕ) :
    Inserts (α := α) T (insert noResize fuel n) := by
  intro p sibs d b d' hch htab hd h
  obtain ⟨hext, hbuilt⟩ := insert_builds d.fetchSiblings fuel n sibs d b d' rfl hd h
  subst htab
  exact ⟨hext, fun t ht => (hbuilt t ht).rep hT hch⟩

end DatImpl
end Dat
end Sunet
