/-
# The look-up in the double array

`_search` follows the codes of the key from the root; `walk` is what it returns from a state
on, and there is one rule for each way in which the walk can go on over a tree of sibling
lists.  Over a representation it reaches the node of a prefix exactly when some word has the
prefix, and reads the leaf of that node exactly when some word is equal to it; the only other
outcome is an access outside the arrays, which does not occur when the arrays reach a code's
width beyond the cells in use.
-/
import Sunet.Dat.Insert

namespace Sunet
namespace Dat

open StringUtil

variable {α : Type}

/-- Some word of the table starts with `p`. -/
def HasPrefix (T : List (List ℕ)) (p : List ℕ) : Prop := ∃ i < T.length, p <+: word T i

lemma HasPrefix.follows {T : List (List ℕ)} {p : List ℕ} (h : HasPrefix T p) :
    ∃ c, Follows T p c := by
  obtain ⟨i, hi, hp⟩ := h
  exact ⟨key T p.length i, i, hi, hp, rfl⟩

lemma follows_iff_hasPrefix {T : List (List ℕ)} {p : List ℕ} {c : ℕ} (hc : c ≠ 0) :
    Follows T p c ↔ HasPrefix T (p ++ [c]) := by
  constructor
  · rintro ⟨i, hi, hp, hk⟩
    exact ⟨i, hi, (prefix_concat_iff hc).mpr ⟨hp, hk⟩⟩
  · rintro ⟨i, hi, hp⟩
    obtain ⟨hp', hk⟩ := (prefix_concat_iff hc).mp hp
    exact ⟨i, hi, hp', hk⟩

lemma follows_zero_iff {T : List (List ℕ)} (hT : Table T) {p : List ℕ} :
    Follows T p 0 ↔ p ∈ T := by
  constructor
  · rintro ⟨i, hi, hp, hk⟩
    have hw : word T i = p := (eq_iff_prefix_zero (hT.word_pos hi)).mpr ⟨hp, hk⟩
    rw [← hw]
    exact word_mem hi
  · intro hmem
    obtain ⟨i, hi, rfl⟩ := List.mem_iff_getElem.mp hmem
    have hw : word T i = T[i] := by rw [word, List.getD_eq_getElem _ _ hi]
    obtain ⟨hp, hk⟩ := (eq_iff_prefix_zero (hT.word_pos hi)).mp hw
    exact ⟨i, hi, hp, hk⟩

lemma HasPrefix.of_append {T : List (List ℕ)} {p q : List ℕ} (h : HasPrefix T (p ++ q)) :
    HasPrefix T p := by
  obtain ⟨i, hi, hp⟩ := h
  exact ⟨i, hi, (List.prefix_append p q).trans hp⟩

lemma hasPrefix_nil {T : List (List ℕ)} (hne : T ≠ []) : HasPrefix T [] :=
  ⟨0, List.length_pos_iff.mpr hne, List.nil_prefix⟩

namespace DatImpl

/-! ## The walk -/

/-- The part of `_search` behind the root, from the state `b` over the characters `cnWords`. -/
def walk (d : DatImpl α) (cnWords : List Bytes) (b : ℤ) : Except Stop ℤ := do
  match ← d.searchLoop cnWords b with
  | none => .ok (-1)
  | some b => do
    let p ← index b
    let c ← d.readCheck p
    if b = c then
      let v ← d.readBase p
      if v < 0 then .ok (-v - 1) else .ok (-1)
    else .ok (-1)

lemma search_eq_walk (d : DatImpl α) (key : Bytes) :
    d.search key = d.readBase 0 >>= d.walk (tokens key) := by
  rw [search, splitChWords_eq]
  rfl

lemma index_natCast (b : ℕ) : index (b : ℤ) = .ok b := by
  rw [index, if_pos (Int.natCast_nonneg b), Int.toNat_natCast]

lemma index_of_neg {b : ℤ} (hb : b < 0) : index b = .error .outOfBounds := by
  rw [index, if_neg (not_le.mpr hb)]

/-- The end of the walk at a node: the leaf of the node, if it has one. -/
lemma walk_nil (d : DatImpl α) (b : ℕ) :
    d.walk [] b = if b < d.size then
      .ok (if d.check b = b ∧ d.base b < 0 then -d.base b - 1 else -1)
    else .error .outOfBounds := by
  rw [walk, searchLoop, Except.ok_bind]
  simp only [index_natCast, Except.ok_bind, readCheck, readBase]
  by_cases hb : b < d.size
  · simp only [hb, if_true, Except.ok_bind]
    by_cases hc : d.check b = b
    · by_cases hv : d.base b < 0
      · simp only [hc, hv, and_self, if_true]
      · simp only [hc, hv, and_false, if_true, if_false]
    · rw [if_neg fun h => hc h.symm, if_neg fun h => hc h.1]
  · simp only [hb, if_false, Except.error_bind]

/-- One step of the walk at a node. -/
lemma walk_cons (d : DatImpl α) {w : Bytes} (hw : IsToken w) (cnWords : List Bytes) (b : ℕ) :
    d.walk (w :: cnWords) b = if b + cnCode w < d.size then
      if d.check (b + cnCode w) = b then d.walk cnWords (d.base (b + cnCode w)) else .ok (-1)
    else .error .outOfBounds := by
  have hidx : index ((b : ℤ) + (cnCode w : ℕ)) = .ok (b + cnCode w) := by
    rw [← Int.natCast_add, index_natCast]
  rw [walk, searchLoop, getCnCode_eq hw]
  simp only [hidx, Except.ok_bind, readCheck, readBase]
  by_cases hp : b + cnCode w < d.size
  · simp only [hp, if_true, Except.ok_bind]
    by_cases hc : d.check (b + cnCode w) = b
    · rw [if_pos hc.symm, if_pos hc]
      rfl
    · rw [if_neg fun h => hc h.symm, if_neg hc]
      rfl
  · simp only [hp, if_false, Except.error_bind]

/-- The walk cannot end in a negative state. -/
lemma walk_nil_of_neg (d : DatImpl α) {b : ℤ} (hb : b < 0) :
    d.walk [] b = .error .outOfBounds := by
  rw [walk, searchLoop, Except.ok_bind]
  simp only [index_of_neg hb, Except.error_bind]

/-- A step from a negative state leaves the arrays or finds no transition. -/
lemma walk_cons_of_neg (d : DatImpl α) (hcheck : ∀ i, 0 ≤ d.check i) {w : Bytes}
    (hw : IsToken w) (cnWords : List Bytes) {b : ℤ} (hb : b < 0) :
    d.walk (w :: cnWords) b =
      if 0 ≤ b + cnCode w ∧ b + cnCode w < d.size then .ok (-1) else .error .outOfBounds := by
  rw [walk, searchLoop, getCnCode_eq hw]
  simp only
  by_cases hp : 0 ≤ b + cnCode w
  · obtain ⟨p, hp'⟩ := Int.eq_ofNat_of_zero_le hp
    rw [hp', index_natCast]
    simp only [Except.ok_bind, readCheck]
    by_cases hin : p < d.size
    · have hne : b ≠ d.check p := fun h => absurd (hcheck p) (by omega)
      rw [if_pos hin, if_pos ⟨by omega, by omega⟩]
      simp only [Except.ok_bind]
      rw [if_neg hne]
      rfl
    · rw [if_neg hin, if_neg fun h => hin (by omega)]
      rfl
  · rw [if_neg fun h => hp h.1, index_of_neg (by omega)]
    rfl

/-! ## The walk in a tree -/

/-- The cells in use lie inside the arrays. -/
def CellsInside (t : DatImpl α) : Prop := ∀ i, t.check i ≠ 0 → i < t.size

lemma Built.pos {fetch : TreeNode → Except Stop (ℕ × List TreeNode)} {t : DatImpl α} {b : ℕ}
    {sibs : List TreeNode} (h : Built fetch t b sibs) : 1 ≤ b := by
  cases h
  assumption

lemma Built.ne_nil {fetch : TreeNode → Except Stop (ℕ × List TreeNode)} {t : DatImpl α} {b : ℕ}
    {sibs : List TreeNode} (h : Built fetch t b sibs) : sibs ≠ [] := by
  cases h
  assumption

lemma Built.check_eq_iff {fetch : TreeNode → Except Stop (ℕ × List TreeNode)} {t : DatImpl α}
    {b : ℕ} {sibs : List TreeNode} (h : Built fetch t b sibs) (c : ℕ) :
    t.check (b + c) = b ↔ ∃ s, lastSib sibs c = some s := by
  obtain ⟨_, _, -, -, -, hcheck, -, -, -, -⟩ := h
  rw [hcheck]
  constructor
  · rintro ⟨s, hs, hc⟩
    cases hlast : lastSib sibs c with
    | none => exact absurd hc (lastSib_eq_none.mp hlast s hs)
    | some s' => exact ⟨s', rfl⟩
  · rintro ⟨s, hs⟩
    exact ⟨s, lastSib_eq_some hs⟩

lemma Built.cell_lt {fetch : TreeNode → Except Stop (ℕ × List TreeNode)} {t : DatImpl α} {b : ℕ}
    {sibs : List TreeNode} (h : Built fetch t b sibs) (ht : CellsInside t) {c : ℕ} {s : TreeNode}
    (hs : lastSib sibs c = some s) : b + c < t.size := by
  have hcheck := (h.check_eq_iff c).mpr ⟨s, hs⟩
  have hpos := h.pos
  refine ht (b + c) ?_
  rw [hcheck]
  omega

/-- The value of `begin` of a node is the index of a cell. -/
lemma Built.lt_size {fetch : TreeNode → Except Stop (ℕ × List TreeNode)} {t : DatImpl α} {b : ℕ}
    {sibs : List TreeNode} (h : Built fetch t b sibs) (ht : CellsInside t) : b < t.size := by
  obtain ⟨s, hs⟩ := List.exists_mem_of_ne_nil sibs h.ne_nil
  cases hlast : lastSib sibs s.code with
  | none => exact absurd rfl (lastSib_eq_none.mp hlast s hs)
  | some s' =>
    have := h.cell_lt ht hlast
    omega

/-- Below a child with siblings below it there is a tree again. -/
lemma Built.child {fetch : TreeNode → Except Stop (ℕ × List TreeNode)} {t : DatImpl α} {b : ℕ}
    {sibs : List TreeNode} (h : Built fetch t b sibs) {c n : ℕ} {s : TreeNode}
    {subs : List TreeNode} (hs : lastSib sibs c = some s) (hsubs : fetch s = .ok (n + 1, subs)) :
    ∃ nb : ℕ, t.base (b + c) = nb ∧ Built fetch t nb subs := by
  obtain ⟨_, _, next, -, -, -, -, -, hnode, hsub⟩ := h
  exact ⟨next c, hnode c s n subs hs hsubs, hsub c s n subs hs hsubs⟩

lemma Built.leaf {fetch : TreeNode → Except Stop (ℕ × List TreeNode)} {t : DatImpl α} {b : ℕ}
    {sibs : List TreeNode} (h : Built fetch t b sibs) {c : ℕ} {s : TreeNode}
    {subs : List TreeNode} (hs : lastSib sibs c = some s) (hsubs : fetch s = .ok (0, subs)) :
    t.base (b + c) = -(s.left : ℤ) - 1 := by
  obtain ⟨_, _, -, -, -, -, -, hleaf, -, -⟩ := h
  exact hleaf c s subs hs hsubs

/-- Every child has been looked at. -/
lemma Built.fetched {fetch : TreeNode → Except Stop (ℕ × List TreeNode)} {t : DatImpl α} {b : ℕ}
    {sibs : List TreeNode} (h : Built fetch t b sibs) {c : ℕ} {s : TreeNode}
    (hs : lastSib sibs c = some s) : ∃ n subs, fetch s = .ok (n, subs) := by
  obtain ⟨_, _, -, -, -, -, hfetched, -, -, -⟩ := h
  obtain ⟨⟨n, subs⟩, hr⟩ := hfetched s (lastSib_eq_some hs).1
  exact ⟨n, subs, hr⟩

/-- The walk that ends at a node without a leaf finds nothing. -/
lemma Built.walk_nil_none {fetch : TreeNode → Except Stop (ℕ × List TreeNode)} {t : DatImpl α}
    {b : ℕ} {sibs : List TreeNode} (h : Built fetch t b sibs) (ht : CellsInside t)
    (hs : lastSib sibs 0 = none) : t.walk [] b = .ok (-1) := by
  have hcheck : t.check b ≠ b := by
    intro hc
    obtain ⟨s, hs'⟩ := (h.check_eq_iff 0).mp hc
    rw [hs] at hs'
    cases hs'
  rw [walk_nil, if_pos (h.lt_size ht), if_neg fun hc => hcheck hc.1]

/-- The walk that ends at a node with a leaf finds its first word. -/
lemma Built.walk_nil_leaf {fetch : TreeNode → Except Stop (ℕ × List TreeNode)} {t : DatImpl α}
    {b : ℕ} {sibs : List TreeNode} (h : Built fetch t b sibs) (ht : CellsInside t)
    {s : TreeNode} {subs : List TreeNode} (hs : lastSib sibs 0 = some s)
    (hsubs : fetch s = .ok (0, subs)) : t.walk [] b = .ok (s.left : ℤ) := by
  have hcheck := (h.check_eq_iff 0).mpr ⟨s, hs⟩
  have hbase := h.leaf hs hsubs
  rw [Nat.add_zero] at hcheck hbase
  rw [walk_nil, if_pos (h.lt_size ht), if_pos ⟨hcheck, by omega⟩, hbase]
  congr 1
  omega

/-- The walk takes the transition of a child. -/
lemma Built.walk_cons_some {fetch : TreeNode → Except Stop (ℕ × List TreeNode)} {t : DatImpl α}
    {b : ℕ} {sibs : List TreeNode} (h : Built fetch t b sibs) (ht : CellsInside t) {w : Bytes}
    (hw : IsToken w) (cnWords : List Bytes) {s : TreeNode}
    (hs : lastSib sibs (cnCode w) = some s) :
    t.walk (w :: cnWords) b = t.walk cnWords (t.base (b + cnCode w)) := by
  rw [walk_cons t hw, if_pos (h.cell_lt ht hs), if_pos ((h.check_eq_iff _).mpr ⟨s, hs⟩)]

/-- The walk ends where no child has the code, unless it leaves the arrays. -/
lemma Built.walk_cons_none {fetch : TreeNode → Except Stop (ℕ × List TreeNode)} {t : DatImpl α}
    {b : ℕ} {sibs : List TreeNode} (h : Built fetch t b sibs) {w : Bytes} (hw : IsToken w)
    (cnWords : List Bytes) (hs : lastSib sibs (cnCode w) = none) :
    t.walk (w :: cnWords) b =
      if b + cnCode w < t.size then .ok (-1) else .error .outOfBounds := by
  have hcheck : t.check (b + cnCode w) ≠ b := by
    intro hc
    obtain ⟨s, hs'⟩ := (h.check_eq_iff _).mp hc
    rw [hs] at hs'
    cases hs'
  rw [walk_cons t hw, if_neg hcheck]

/-! ## The look-up in a representation -/

/-- The cells in use lie a code's width below the end of the arrays. -/
def Roomy (t : DatImpl α) : Prop := ∀ i, t.check i ≠ 0 → i + 65536 ≤ t.size

/-- The value of `begin` of a prefix is the index of a cell. -/
lemma rep_room {T : List (List ℕ)} {t : DatImpl α} {b : ℕ} {p : List ℕ} (h : Rep T t b p)
    (hp : HasPrefix T p) (ht : Roomy t) : b + 65536 ≤ t.size := by
  obtain ⟨_, _, next, hpos, hcheck, -, -, -⟩ := h
  obtain ⟨c, hc⟩ := hp.follows
  have hb := (hcheck c).mpr hc
  have := ht (b + c) (by rw [hb]; omega)
  omega

/-- The walk from the node of `p` over the characters `cnWords`. -/
lemma walk_rep {T : List (List ℕ)} (hT : Table T) {t : DatImpl α} :
    ∀ (cnWords : List Bytes) (p : List ℕ) (b : ℕ), Rep T t b p → HasPrefix T p →
      (∀ w ∈ cnWords, IsToken w ∧ 0 < cnCode w ∧ cnCode w < 65536) →
      t.walk cnWords b = .error .outOfBounds ∧ ¬ Roomy t ∨
      t.walk cnWords b = .ok (if p ++ cnWords.map cnCode ∈ T then
        (T.idxOf (p ++ cnWords.map cnCode) : ℤ) else -1) := by
  intro cnWords
  induction cnWords with
  | nil =>
    intro p b hrep hp _
    have hroom := rep_room hrep hp
    obtain ⟨_, _, next, -, hcheck, hleaf, -, -⟩ := hrep
    have hcheck0 := hcheck 0
    rw [Nat.add_zero, follows_zero_iff hT] at hcheck0
    rw [walk_nil, List.map_nil, List.append_nil]
    by_cases hin : b < t.size
    -- the last state is inside the arrays, and 0 is a child exactly of a word
    · right
      rw [if_pos hin]
      by_cases hmem : p ∈ T
      · have hbase := hleaf ((follows_zero_iff hT).mpr hmem)
        rw [if_pos ⟨hcheck0.mpr hmem, by omega⟩, if_pos hmem, hbase]
        congr 1
        omega
      · rw [if_neg fun h => hmem (hcheck0.mp h.1), if_neg hmem]
    · rw [if_neg hin]
      refine Or.inl ⟨rfl, fun ht => hin ?_⟩
      have := hroom ht
      omega
  | cons w cnWords ih =>
    intro p b hrep hp hws
    obtain ⟨htok, hpos, hlt⟩ := hws w List.mem_cons_self
    have hroom := rep_room hrep hp
    obtain ⟨_, _, next, -, hcheck, -, hnode, hsub⟩ := hrep
    rw [walk_cons t htok, List.map_cons, ← List.singleton_append, ← List.append_assoc]
    -- the transition may lie behind the arrays, which `Roomy` excludes
    by_cases hin : b + cnCode w < t.size
    · rw [if_pos hin]
      by_cases hfol : Follows T p (cnCode w)
      · rw [if_pos ((hcheck _).mpr hfol), hnode _ (by omega) hfol]
        exact ih _ _ (hsub _ (by omega) hfol) ((follows_iff_hasPrefix (by omega)).mp hfol)
          fun w' hw' => hws w' (List.mem_cons_of_mem _ hw')
      · right
        rw [if_neg fun h => hfol ((hcheck _).mp h), if_neg]
        intro hmem
        obtain ⟨i, hi, hpre, -⟩ := (follows_zero_iff hT).mpr hmem
        exact hfol ((follows_iff_hasPrefix (by omega)).mpr (HasPrefix.of_append ⟨i, hi, hpre⟩))
    · rw [if_neg hin]
      refine Or.inl ⟨rfl, fun ht => hin ?_⟩
      have := hroom ht
      omega

/-- `_search` from a representation of the whole table. -/
lemma search_rep {T : List (List ℕ)} (hT : Table T) (hne : T ≠ []) {t : DatImpl α} {b : ℕ}
    (hrep : Rep T t b []) (hroot : t.base 0 = b) {q : Bytes} (hq : Utf8Word q) :
    t.search q = .error .outOfBounds ∧ ¬ Roomy t ∨
      t.search q = .ok (if codes q ∈ T then (T.idxOf (codes q) : ℤ) else -1) := by
  have hp : HasPrefix T [] := hasPrefix_nil hne
  have htok : ∀ w ∈ tokens q, IsToken w ∧ 0 < cnCode w ∧ cnCode w < 65536 := fun w hw =>
    ⟨isToken_of_mem_tokens _ _ hw, (hq.tokens_char w hw).cnCode_pos,
      (hq.tokens_char w hw).cnCode_lt⟩
  rw [search_eq_walk, readBase]
  by_cases h0 : 0 < t.size
  · rw [if_pos h0, Except.ok_bind, hroot]
    exact walk_rep hT (tokens q) [] b hrep hp htok
  · rw [if_neg h0]
    refine Or.inl ⟨rfl, fun ht => h0 ?_⟩
    have := rep_room hrep hp ht
    omega

end DatImpl
end Dat
end Sunet
