/-
# The look-up without `_check`

`_tsearch` follows `_base` alone.  In the arrays that `_build` has filled every cell in use
belongs to a node that can be reached from the root, the cells of leaves are the ones with a
negative `_base`, and all other cells are 0; so that a code which no child of a node has leads
to nothing, or into another node.  The main result is `tsearch_build`: it says exactly for
which queries, and exactly for which arrays for all queries, `_tsearch` agrees with `_search`.
-/
import Sunet.Dat.Inside
import Sunet.Util.Characters

namespace Sunet
namespace Dat

open StringUtil

namespace DatImpl

variable {α : Type}

/-! ## The nodes below a node -/

/-- The codes behind the prefix `p` lead from the cells at `b` to other cells. -/
inductive Reaches (T : List (List ℕ)) (t : DatImpl α) (b : ℕ) (p : List ℕ) :
    ℕ → List ℕ → Prop
  | refl : Reaches T t b p b p
  | step {b' nb c : ℕ} {p' : List ℕ} (h : Reaches T t b p b' p') (hc : c ≠ 0)
      (hfol : Follows T p' c) (hbase : t.base (b' + c) = nb) : Reaches T t b p nb (p' ++ [c])

/-- The cells that come into use between `d` and `d'` belong in the table `t` to nodes below
the node of `p` at `b`. -/
def Covered (T : List (List ℕ)) (t : DatImpl α) (b : ℕ) (p : List ℕ) (d d' : DatImpl α) : Prop :=
  ∀ i, d.check i = 0 → d'.check i ≠ 0 →
    ∃ b' p' c, Reaches T t b p b' p' ∧ i = b' + c ∧ t.check i = b'

/-- The cells that are not in use are not written to. -/
def FreeKept (d d' : DatImpl α) : Prop := ∀ i, d'.check i = 0 → d'.base i = d.base i

/-- What an insertion of sibling lists fills. -/
def Fills (T : List (List ℕ))
    (ins : List TreeNode → DatImpl α → Except Stop (ℕ × DatImpl α)) : Prop :=
  ∀ (p : List ℕ) (sibs : List TreeNode) (d : DatImpl α) (b : ℕ) (d' : DatImpl α),
    Children T p sibs → d.table = T → Marked d → ins sibs d = .ok (b, d') →
    FreeKept d d' ∧ ∀ t, Keeps ∅ d d' t → Covered T t b p d d'

lemma rep_pos {T : List (List ℕ)} {t : DatImpl α} {b : ℕ} {p : List ℕ} (h : Rep T t b p) :
    1 ≤ b := by
  cases h
  assumption

lemma Reaches.rep {T : List (List ℕ)} {t : DatImpl α} {b b' : ℕ} {p p' : List ℕ}
    (h : Reaches T t b p b' p') (hrep : Rep T t b p) : Rep T t b' p' := by
  induction h with
  | refl => exact hrep
  | step _ hc hfol hbase ih =>
    obtain ⟨_, _, next, -, -, -, hnode, hsub⟩ := ih
    have hnext := hnode _ hc hfol
    rw [hbase] at hnext
    rw [Int.ofNat.inj hnext]
    exact hsub _ hc hfol

lemma Reaches.hasPrefix {T : List (List ℕ)} {t : DatImpl α} {b b' : ℕ} {p p' : List ℕ}
    (h : Reaches T t b p b' p') (hp : HasPrefix T p) : HasPrefix T p' := by
  cases h with
  | refl => exact hp
  | step _ hc hfol _ => exact (follows_iff_hasPrefix hc).mp hfol

/-- What is below a child is below the node. -/
lemma Reaches.of_child {T : List (List ℕ)} {t : DatImpl α} {b nb c b' : ℕ} {p p' : List ℕ}
    (hc : c ≠ 0) (hfol : Follows T p c) (hbase : t.base (b + c) = nb)
    (h : Reaches T t nb (p ++ [c]) b' p') : Reaches T t b p b' p' := by
  induction h with
  | refl => exact .step .refl hc hfol hbase
  | step _ hc' hfol' hbase' ih => exact .step ih hc' hfol' hbase'

lemma FreeKept.trans {W : Set ℕ} {d d' d'' : DatImpl α} (h : FreeKept d d')
    (h' : FreeKept d' d'') (hext : Ext W d' d'') : FreeKept d d'' := by
  intro i hi
  rw [h' i hi, h i]
  by_contra hne
  exact hext.check_ne hne hi

lemma freeKept_writeBase {d d' : DatImpl α} {i : ℕ} {v : ℤ} (h : d.writeBase i v = .ok d')
    (hi : d.check i ≠ 0) : FreeKept d d' := by
  obtain rfl := writeBase_eq h
  intro j hj
  refine Function.update_of_ne ?_ _ _
  rintro rfl
  exact hi hj

/-! ## What an insertion fills -/

lemma attach_fills {T : List (List ℕ)} (hT : Table T)
    {ins : List TreeNode → DatImpl α → Except Stop (ℕ × DatImpl α)} (hins : Fills T ins)
    {d d' : DatImpl α} (hbuilds : Builds d.fetchSiblings ins) {p : List ℕ} {sibs : List TreeNode}
    (hch : Children T p sibs) {s : TreeNode} (hs : s ∈ sibs) {b : ℕ} (htab : d.table = T)
    (hd : Marked d) (hcell : d.check (b + s.code) ≠ 0) (h : attach ins b d s = .ok d') :
    FreeKept d d' ∧ ∀ t, Keeps {b + s.code} d d' t → Covered T t b p d d' := by
  subst htab
  rcases attach_cases h with ⟨subs, d₁, -, hw, rfl⟩ | ⟨n, subs, nb, d₁, hsubs, hrec, hw⟩
  · -- a leaf: no cell comes into use
    have hfree : FreeKept d d₁ := freeKept_writeBase hw hcell
    refine ⟨fun i hi => hfree i hi, fun t _ i hi hi' => ?_⟩
    obtain rfl := writeBase_eq hw
    exact absurd hi hi'
  · have hcode : s.code ≠ 0 := by
      intro hc
      rw [fetchSiblings_leaf (hch.leaf s hs hc)] at hsubs
      cases hsubs
    obtain ⟨subs', hsubs', hch'⟩ := fetchSiblings_node hT (hch.node s hs hcode)
    rw [hsubs, Except.ok.injEq, Prod.mk.injEq] at hsubs'
    obtain ⟨-, rfl⟩ := hsubs'
    obtain ⟨hext, -⟩ := hbuilds _ _ _ _ rfl hd hrec
    obtain ⟨hfree, hcov⟩ := hins _ _ _ _ _ hch' rfl hd hrec
    obtain ⟨hext', hbase⟩ := writeBase_ok hw
    refine ⟨hfree.trans (freeKept_writeBase hw (hext.check_ne hcell)) hext', fun t ht => ?_⟩
    have ht₁ : Keeps ∅ d d₁ t := by
      refine ht.left hext' (by simp) ?_
      rintro i rfl
      exact hcell
    intro i hi hi'
    have hcheck : d'.check = d₁.check := by rw [writeBase_eq hw]
    rw [hcheck] at hi'
    obtain ⟨b', p', c, hreach, hcells, howner⟩ := hcov t ht₁ i hi hi'
    have hnb : t.base (b + s.code) = nb := by rw [ht.base_eq _ (Or.inl rfl), hbase]
    have hfol : Follows d.table p s.code := (hch.follows_iff hT _).mpr ⟨s, hs, rfl⟩
    exact ⟨b', p', c, hreach.of_child hcode hfol hnb, hcells, howner⟩

/-- The last loop of `_insert`, by induction on the siblings that are left. -/
lemma attachAll_fills {T : List (List ℕ)} (hT : Table T)
    {ins : List TreeNode → DatImpl α → Except Stop (ℕ × DatImpl α)} (hins : Fills T ins)
    {fetch : TreeNode → Except Stop (ℕ × List TreeNode)} (hbuilds : Builds fetch ins)
    {p : List ℕ} {sibs : List TreeNode} (hch : Children T p sibs) {b : ℕ} :
    ∀ (rest : List TreeNode) (d d' : DatImpl α), rest <:+ sibs → d.fetchSiblings = fetch →
      d.table = T → Marked d → (∀ i ∈ cells b rest, d.check i ≠ 0) →
      rest.foldlM (attach ins b) d = .ok d' →
      FreeKept d d' ∧ ∀ t, Keeps (cells b rest) d d' t → Covered T t b p d d' := by
  intro rest
  induction rest with
  | nil =>
    intro d d' _ _ _ _ _ h
    cases h
    exact ⟨fun _ _ => rfl, fun t _ i hi hi' => absurd hi hi'⟩
  | cons x rest ih =>
    intro d d' hsuf hfetch htab hd hcell h
    rw [Except.foldlM_cons_eq_ok] at h
    obtain ⟨d₁, hx, hrest⟩ := h
    have hxc : d.check (b + x.code) ≠ 0 := hcell _ ⟨x, by simp, rfl⟩
    have hmem : ∀ i ∈ cells b rest, i ∈ cells b (x :: rest) := by
      rintro i ⟨s, hs, rfl⟩
      exact ⟨s, by simp [hs], rfl⟩
    -- the codes ascend, so that the later rounds do not write into the cell of `x`
    have hlater : b + x.code ∉ cells b rest := by
      rintro ⟨y, hy, hyc⟩
      have hasc := hch.asc.sublist (hsuf.sublist.map TreeNode.code)
      rw [List.map_cons, List.pairwise_cons] at hasc
      have hlt := hasc.1 y.code (List.mem_map_of_mem hy)
      omega
    have hxs : x ∈ sibs := hsuf.subset List.mem_cons_self
    have hsuf' : rest <:+ sibs := (List.suffix_cons x rest).trans hsuf
    subst hfetch
    obtain ⟨-, hext, -⟩ := attach_ok hbuilds rfl hd hxc hx
    obtain ⟨hfree, hcov⟩ := attach_fills hT hins hbuilds hch hxs htab hd hxc hx
    have hcell₁ : ∀ i ∈ cells b rest, d₁.check i ≠ 0 := fun i hi =>
      hext.check_ne (hcell i (hmem i hi))
    have htab₁ : d₁.table = T := by rw [table, hext.dicts_eq, ← table, htab]
    obtain ⟨-, hext', -⟩ := attachAll_ok hbuilds rest d₁ d' hext.fetchSiblings_eq
      (hext.marked hd) hcell₁ hrest
    obtain ⟨hfree', hcov'⟩ := ih d₁ d' hsuf' hext.fetchSiblings_eq htab₁ (hext.marked hd) hcell₁
      hrest
    refine ⟨hfree.trans hfree' hext', fun t ht i hi hi' => ?_⟩
    by_cases hi₁ : d₁.check i = 0
    · exact hcov' t (ht.right hext fun i hi => Or.inl (hmem i hi)) i hi₁ hi'
    · refine hcov t (ht.left hext' ?_ fun i hi => hcell i (hmem i hi)) i hi hi₁
      rintro i rfl
      exact ⟨⟨x, by simp, rfl⟩, hlater, hext.check_ne hxc⟩

/-- **An insertion fills the cells of its nodes** and no others. -/
theorem insert_fills {T : List (List ℕ)} (hT : Table T) (fuel n : ℕ) :
    Fills (α := α) T (insert noResize fuel n) := by
  induction n with
  | zero =>
    intro p sibs d b d' _ _ _ h
    cases h
  | succ n ih =>
    intro p sibs d b d' hch htab hd h
    have hbuilds := insert_builds (α := α) d.fetchSiblings fuel n
    simp only [insert, Except.bind_eq_ok] at h
    obtain ⟨⟨b₁, d₁⟩, hplace, d₂, hloop, h⟩ := h
    obtain ⟨rfl, rfl⟩ : b₁ = b ∧ d₂ = d' := by simpa using h
    have hpl := place_ok hplace
    have hpos := hpl.pos
    have hocc : ∀ i ∈ cells b₁ sibs, d₁.check i ≠ 0 := fun i hi => by
      rw [hpl.check_in i hi]
      omega
    have hfetch₁ : d₁.fetchSiblings = d.fetchSiblings := hpl.ext.fetchSiblings_eq
    have htab₁ : d₁.table = T := by rw [table, hpl.dicts_eq, ← table, htab]
    obtain ⟨-, hext, -⟩ := attachAll_ok hbuilds sibs d₁ d₂ hfetch₁ (hpl.ext.marked hd) hocc hloop
    obtain ⟨hfree, hcov⟩ := attachAll_fills hT ih hbuilds hch sibs d₁ d₂ (List.suffix_refl _)
      hfetch₁ htab₁ (hpl.ext.marked hd) hocc hloop
    refine ⟨fun i hi => ?_, fun t ht i hi hi' => ?_⟩
    · rw [hfree i hi, hpl.base_eq]
    · by_cases hcells : i ∈ cells b₁ sibs
      · have howner : t.check i = b₁ := by
          rw [ht.check_eq i hi hi', hext.check_eq i (hocc i hcells), hpl.check_in i hcells]
        obtain ⟨s, -, rfl⟩ := hcells
        exact ⟨b₁, p, s.code, .refl, rfl, howner⟩
      · have hnew : ∀ i ∈ cells b₁ sibs, d.check i = 0 ∧ d₂.check i ≠ 0 := fun i hi =>
          ⟨hpl.zero i hi, hext.check_ne (hocc i hi)⟩
        refine hcov t (ht.right hpl.ext fun i hi => Or.inr (hnew i hi)) i ?_ hi'
        rw [hpl.check_out i hcells, hi]

/-! ## The filled arrays -/

/-- What `_build` leaves: the nodes of the prefixes from the root at `b` on, and nothing else. -/
structure Filled (T : List (List ℕ)) (t : DatImpl α) (b : ℕ) : Prop where
  rep : Rep T t b []
  covered : ∀ i, t.check i ≠ 0 → ∃ b' p c, Reaches T t b [] b' p ∧ i = b' + c ∧ t.check i = b'
  clear : ∀ i, i ≠ 0 → t.check i = 0 → t.base i = 0

lemma Loaded.build_filled {ws : List Bytes} {d t : DatImpl α} (h : Loaded ws d)
    (hclear : ∀ i, d.base i = 0) (hne : ws ≠ []) (hws : Sorted ws) {fuel : ℕ}
    (hbuild : build noResize fuel d = .ok t) :
    ∃ b : ℕ, t.base 0 = b ∧ Filled (ws.map codes) t b := by
  have htab := h.table_eq
  have hT : Table d.table := by
    rw [htab]
    exact hws.table
  obtain ⟨sibs, hroot, hch, -⟩ := h.fetch_root hne hws
  obtain ⟨n, sibs', b, d₁, hroot', hins, hw, hkeeps⟩ := build_cases h.fresh hbuild
  rw [hroot] at hroot'
  cases hroot'
  obtain ⟨-, hspec⟩ := insert_spec hT fuel fuel [] sibs d b d₁ hch rfl h.fresh.marked hins
  have hrep := hspec t hkeeps
  obtain ⟨hfree, hcov⟩ := insert_fills hT fuel fuel [] sibs d b d₁ hch rfl h.fresh.marked hins
  obtain rfl := writeBase_eq hw
  rw [htab] at hrep hcov
  refine ⟨b, by simp, hrep, fun i hi => hcov _ hkeeps i (h.fresh.check_eq i) hi, ?_⟩
  intro i hi hi'
  show Function.update d₁.base 0 (b : ℤ) i = 0
  rw [Function.update_of_ne hi, hfree i hi', hclear]

/-- A cell in use is the cell of a leaf, or leads to a node. -/
lemma Filled.cell {T : List (List ℕ)} (hT : Table T) {t : DatImpl α} {b i : ℕ} (h : Filled T t b)
    (hi : t.check i ≠ 0) :
    (∃ p ∈ T, t.check i = i ∧ t.base i = -(T.idxOf p : ℤ) - 1) ∨
      ∃ nb p, t.check i ≠ i ∧ t.base i = (nb : ℕ) ∧ nb ≠ 0 ∧ Reaches T t b [] nb p := by
  obtain ⟨b', p, c, hreach, rfl, howner⟩ := h.covered i hi
  obtain ⟨_, _, next, -, hcheck, hleaf, hnode, hsub⟩ := hreach.rep h.rep
  have hfol := (hcheck c).mp howner
  by_cases hc : c = 0
  · subst hc
    exact .inl ⟨p, (follows_zero_iff hT).mp hfol, howner, hleaf hfol⟩
  · have hreach' := hreach.step hc hfol (hnode c hc hfol)
    have hpos := rep_pos (hreach'.rep h.rep)
    refine .inr ⟨next c, p ++ [c], ?_, hnode c hc hfol, by omega, hreach'⟩
    rw [howner]
    omega

/-! ## The look-up without `_check` -/

/-- The part of `_tsearch` behind the root, from the state `b` over the characters `cnWords`. -/
def twalk (d : DatImpl α) (cnWords : List Bytes) (b : ℤ) : Except Stop ℤ := do
  match ← d.tsearchLoop cnWords b with
  | .inr result => .ok result
  | .inl b => do
    let p ← index b
    let v ← d.readBase p
    if v < 0 then .ok (-v - 1) else .ok (-1)

lemma tsearch_eq_twalk (d : DatImpl α) (key : Bytes) :
    d.tsearch key = d.readBase 0 >>= d.twalk (tokens key) := by
  rw [tsearch, splitChWords_eq]
  rfl

lemma twalk_nil (d : DatImpl α) (b : ℕ) :
    d.twalk [] b = if b < d.size then .ok (if d.base b < 0 then -d.base b - 1 else -1)
    else .error .outOfBounds := by
  rw [twalk, tsearchLoop, Except.ok_bind]
  simp only [index_natCast, Except.ok_bind, readBase]
  by_cases hb : b < d.size
  · simp only [hb, if_true, Except.ok_bind]
    split <;> rfl
  · simp only [hb, if_false, Except.error_bind]

lemma twalk_cons (d : DatImpl α) {w : Bytes} (hw : IsToken w) (cnWords : List Bytes) (b : ℕ) :
    d.twalk (w :: cnWords) b = if b + cnCode w < d.size then
      if d.base (b + cnCode w) = 0 then .ok (-1)
      else if d.base (b + cnCode w) < 0 then .ok (-d.base (b + cnCode w) - 1)
      else d.twalk cnWords (d.base (b + cnCode w))
    else .error .outOfBounds := by
  have hidx : index ((b : ℤ) + (cnCode w : ℕ)) = .ok (b + cnCode w) := by
    rw [← Int.natCast_add, index_natCast]
  rw [twalk, tsearchLoop, getCnCode_eq hw]
  simp only [hidx, Except.ok_bind, readBase]
  by_cases hp : b + cnCode w < d.size
  · simp only [hp, if_true, Except.ok_bind]
    split
    · rfl
    · split <;> rfl
  · simp only [hp, if_false, Except.error_bind]

/-- The codes `cs` lead from the state `b`, by `_base` alone, to the cell of a leaf. -/
inductive Lands (d : DatImpl α) : ℕ → List ℕ → Prop
  | done {b : ℕ} (hleaf : d.check b = b) : Lands d b []
  | leaf {b c : ℕ} {cs : List ℕ} (hleaf : d.check (b + c) = (b + c : ℕ)) : Lands d b (c :: cs)
  | next {b c nb : ℕ} {cs : List ℕ} (hbase : d.base (b + c) = nb) (hne : nb ≠ 0)
      (h : Lands d nb cs) : Lands d b (c :: cs)

/-- The characters of queries. -/
def IsChar (w : Bytes) : Prop := IsToken w ∧ Utf8Char w

lemma isChar_of_mem_tokens {q : Bytes} (h : Utf8Word q) : ∀ w ∈ tokens q, IsChar w :=
  fun w hw => ⟨isToken_of_mem_tokens _ _ hw, h.tokens_char w hw⟩

/-- The unchecked walk from a node finds something exactly if the codes land, unless it leaves
the arrays. -/
lemma twalk_filled {T : List (List ℕ)} (hT : Table T) {t : DatImpl α} {b₀ : ℕ}
    (h : Filled T t b₀) (hroot : HasPrefix T []) :
    ∀ (ts : List Bytes) (b : ℕ) (p : List ℕ), Reaches T t b₀ [] b p → (∀ w ∈ ts, IsChar w) →
      t.twalk ts b = .error .outOfBounds ∧ ¬ Roomy t ∨
        (Lands t b (ts.map cnCode) ∧ ∃ i : ℕ, t.twalk ts b = .ok (i : ℤ)) ∨
        (¬ Lands t b (ts.map cnCode) ∧ t.twalk ts b = .ok (-1)) := by
  intro ts
  induction ts with
  | nil =>
    intro b p hreach _
    have hrep := hreach.rep h.rep
    have hroom := rep_room hrep (hreach.hasPrefix hroot)
    have hpos := rep_pos hrep
    rw [twalk_nil, List.map_nil]
    by_cases hin : b < t.size
    · rw [if_pos hin]
      right
      by_cases hb : t.check b = 0
      · refine .inr ⟨?_, by rw [h.clear b (by omega) hb]; rfl⟩
        rintro ⟨hleaf⟩
        omega
      · rcases h.cell hT hb with ⟨p', hp', hcheck, hbase⟩ | ⟨nb, p', hcheck, hbase, -, -⟩
        · refine .inl ⟨.done hcheck, T.idxOf p', ?_⟩
          rw [hbase, if_pos (by omega)]
          congr 1
          omega
        · refine .inr ⟨?_, by rw [hbase, if_neg (by omega)]⟩
          rintro ⟨hleaf⟩
          exact hcheck hleaf
    · rw [if_neg hin]
      refine .inl ⟨rfl, fun ht => hin ?_⟩
      have := hroom ht
      omega
  | cons w ts ih =>
    intro b p hreach hts
    obtain ⟨htok, hchar⟩ := hts w List.mem_cons_self
    have hlt := hchar.cnCode_lt
    have hrep := hreach.rep h.rep
    have hroom := rep_room hrep (hreach.hasPrefix hroot)
    have hpos := rep_pos hrep
    rw [twalk_cons t htok, List.map_cons]
    by_cases hin : b + cnCode w < t.size
    · rw [if_pos hin]
      by_cases hb : t.check (b + cnCode w) = 0
      · have hbase := h.clear (b + cnCode w) (by omega) hb
        rw [if_pos hbase]
        refine .inr (.inr ⟨?_, rfl⟩)
        intro hlands
        cases hlands with
        | leaf hleaf => omega
        | next hbase' hne _ => omega
      · rcases h.cell hT hb with ⟨p', hp', hcheck, hbase⟩ | ⟨nb, p', hcheck, hbase, hne, hreach'⟩
        -- the walk ends in a leaf, whatever is behind
        · refine .inr (.inl ⟨.leaf hcheck, T.idxOf p', ?_⟩)
          rw [hbase, if_neg (by omega), if_pos (by omega)]
          congr 1
          omega
        -- or goes on at a node, be it a child or not
        · rw [hbase, if_neg (by omega), if_neg (by omega)]
          have hiff : Lands t b (cnCode w :: ts.map cnCode) ↔ Lands t nb (ts.map cnCode) := by
            constructor
            · intro hlands
              cases hlands with
              | leaf hleaf => exact absurd hleaf hcheck
              | next hbase' _ hrest =>
                rw [hbase] at hbase'
                rw [Int.ofNat.inj hbase']
                exact hrest
            · exact .next hbase hne
          rw [hiff]
          exact ih nb p' hreach' fun w' hw' => hts w' (List.mem_cons_of_mem _ hw')
    · rw [if_neg hin]
      refine .inl ⟨rfl, fun ht => hin ?_⟩
      have := hroom ht
      omega

/-- The step of a walk along a word. -/
lemma rep_step {T : List (List ℕ)} (hT : Table T) {t : DatImpl α} {b c : ℕ} {p cs : List ℕ}
    (hrep : Rep T t b p) (hc : c ≠ 0) (hmem : p ++ [c] ++ cs ∈ T) :
    HasPrefix T p ∧ ∃ nb : ℕ, t.base (b + c) = nb ∧ nb ≠ 0 ∧ Rep T t nb (p ++ [c]) := by
  obtain ⟨i, hi, hpre, -⟩ := (follows_zero_iff hT).mpr hmem
  have hp : HasPrefix T (p ++ [c]) := HasPrefix.of_append ⟨i, hi, hpre⟩
  have hfol := (follows_iff_hasPrefix hc).mpr hp
  obtain ⟨_, _, next, -, -, -, hnode, hsub⟩ := hrep
  have hnext := hsub c hc hfol
  have hpos := rep_pos hnext
  exact ⟨hp.of_append, next c, hnode c hc hfol, by omega, hnext⟩

/-- The codes of a word land. -/
lemma lands_word {T : List (List ℕ)} (hT : Table T) {t : DatImpl α} :
    ∀ (ts : List Bytes) (b : ℕ) (p : List ℕ), Rep T t b p → (∀ w ∈ ts, IsChar w) →
      p ++ ts.map cnCode ∈ T → Lands t b (ts.map cnCode) := by
  intro ts
  induction ts with
  | nil =>
    intro b p hrep _ hmem
    rw [List.map_nil, List.append_nil] at hmem
    obtain ⟨_, _, -, -, hcheck, -, -, -⟩ := hrep
    exact .done ((hcheck 0).mpr ((follows_zero_iff hT).mpr hmem))
  | cons w ts ih =>
    intro b p hrep hts hmem
    have hcode := (hts w List.mem_cons_self).2.cnCode_pos
    rw [List.map_cons, ← List.singleton_append, ← List.append_assoc] at hmem
    obtain ⟨-, nb, hbase, hne, hnext⟩ := rep_step hT hrep (by omega) hmem
    exact .next hbase hne (ih nb _ hnext (fun w' hw' => hts w' (List.mem_cons_of_mem _ hw')) hmem)

/-- Over the characters of a word the unchecked walk goes the way of the word. -/
lemma twalk_word {T : List (List ℕ)} (hT : Table T) {t : DatImpl α} :
    ∀ (ts : List Bytes) (b : ℕ) (p : List ℕ), Rep T t b p → (∀ w ∈ ts, IsChar w) →
      p ++ ts.map cnCode ∈ T →
      t.twalk ts b = .error .outOfBounds ∧ ¬ Roomy t ∨
        t.twalk ts b = .ok (T.idxOf (p ++ ts.map cnCode) : ℤ) := by
  intro ts
  induction ts with
  | nil =>
    intro b p hrep _ hmem
    rw [List.map_nil, List.append_nil] at hmem ⊢
    have hfol := (follows_zero_iff hT).mpr hmem
    have hroom := rep_room hrep ⟨_, hfol.choose_spec.1, hfol.choose_spec.2.1⟩
    obtain ⟨_, _, -, hpos, hcheck, hleaf, -, -⟩ := hrep
    rw [twalk_nil]
    by_cases hin : b < t.size
    · right
      rw [if_pos hin, hleaf hfol, if_pos (by omega)]
      congr 1
      omega
    · rw [if_neg hin]
      refine .inl ⟨rfl, fun ht => hin ?_⟩
      have := hroom ht
      omega
  | cons w ts ih =>
    intro b p hrep hts hmem
    obtain ⟨htok, hchar⟩ := hts w List.mem_cons_self
    have hlt := hchar.cnCode_lt
    have hcode := hchar.cnCode_pos
    have hcodes : p ++ (w :: ts).map cnCode = p ++ [cnCode w] ++ ts.map cnCode := by simp
    rw [hcodes] at hmem ⊢
    obtain ⟨hp, nb, hbase, hne, hnext⟩ := rep_step hT hrep (by omega) hmem
    have hroom := rep_room hrep hp
    rw [twalk_cons t htok]
    by_cases hin : b + cnCode w < t.size
    · rw [if_pos hin, hbase, if_neg (by omega), if_neg (by omega)]
      exact ih nb _ hnext (fun w' hw' => hts w' (List.mem_cons_of_mem _ hw')) hmem
    · rw [if_neg hin]
      refine .inl ⟨rfl, fun ht => hin ?_⟩
      have := hroom ht
      omega

/-! ## Where the two agree -/

/-- No character leads from a node into a cell of another node. -/
def Apart (d : DatImpl α) : Prop :=
  ∀ i b : ℕ, d.check i = b → b ≠ 0 → ∀ w, IsChar w →
    d.check (b + cnCode w) = 0 ∨ d.check (b + cnCode w) = b

/-- Any characters make a query. -/
lemma utf8Word_flatten {ts : List Bytes} (h : ∀ w ∈ ts, IsChar w) : Utf8Word ts.flatten := by
  induction ts with
  | nil => exact .nil
  | cons w ts ih =>
    have hrest := ih fun w' hw' => h w' (List.mem_cons_of_mem _ hw')
    rw [List.flatten_cons]
    rcases (h w List.mem_cons_self).2 with ⟨b, rfl, hnul, hlt⟩ | ⟨b, b₁, b₂, rfl, hb, h₁, h₂, hlong⟩
    · exact .ascii hnul hlt hrest
    · exact .three hb h₁ h₂ hlong hrest

lemma codes_flatten {ts : List Bytes} (h : ∀ w ∈ ts, IsChar w) :
    codes ts.flatten = ts.map cnCode := by
  rw [codes, tokens_flatten fun w hw => (h w hw).1]

/-- The characters of a prefix, and those that make a word of it. -/
lemma exists_chars {ws : List Bytes} (hws : Sorted ws) {p : List ℕ}
    (hp : HasPrefix (ws.map codes) p) :
    ∃ ts ts' : List Bytes, (∀ w ∈ ts, IsChar w) ∧ (∀ w ∈ ts', IsChar w) ∧
      ts.map cnCode = p ∧ p ++ ts'.map cnCode ∈ ws.map codes := by
  obtain ⟨i, hi, cs, hcs⟩ := hp
  have hmem := word_mem hi
  rw [← hcs] at hmem
  obtain ⟨w, hw, hcodes⟩ := List.mem_map.mp hmem
  obtain ⟨ts, ts', htokens, hts, hts'⟩ := List.map_eq_append_iff.mp hcodes
  have hchars := isChar_of_mem_tokens (hws.utf8 w hw)
  rw [htokens] at hchars
  refine ⟨ts, ts', fun x hx => hchars x (by simp [hx]), fun x hx => hchars x (by simp [hx]),
    hts, ?_⟩
  rw [hts']
  exact hmem

lemma Reaches.lands {T : List (List ℕ)} {t : DatImpl α} {b₀ b : ℕ} {p : List ℕ}
    (h : Reaches T t b₀ [] b p) (hrep : Rep T t b₀ []) {cs : List ℕ} (hlands : Lands t b cs) :
    Lands t b₀ (p ++ cs) := by
  induction h generalizing cs with
  | refl => exact hlands
  | step h hc hfol hbase ih =>
    have hreach := h.step hc hfol hbase
    have hpos := rep_pos (hreach.rep hrep)
    rw [List.append_assoc]
    exact ih (.next hbase (by omega) hlands)

/-- Where the nodes are apart, only the codes of words land. -/
lemma Apart.mem_of_lands {T : List (List ℕ)} (hT : Table T) {t : DatImpl α} {b₀ : ℕ}
    (hapart : Apart t) (h : Filled T t b₀) :
    ∀ (ts : List Bytes) (b : ℕ) (p : List ℕ), Reaches T t b₀ [] b p → HasPrefix T p →
      (∀ w ∈ ts, IsChar w) → Lands t b (ts.map cnCode) → p ++ ts.map cnCode ∈ T := by
  intro ts
  induction ts with
  | nil =>
    intro b p hreach _ _ hlands
    obtain ⟨_, _, -, -, hcheck, -, -, -⟩ := hreach.rep h.rep
    rw [List.map_nil, List.append_nil]
    rcases hlands with ⟨hleaf⟩
    exact (follows_zero_iff hT).mp ((hcheck 0).mp hleaf)
  | cons w ts ih =>
    intro b p hreach hp hts hlands
    have hw := hts w List.mem_cons_self
    have hcode := hw.2.cnCode_pos
    obtain ⟨_, _, -, hpos, hcheck, -, -, -⟩ := hreach.rep h.rep
    obtain ⟨c, hc⟩ := hp.follows
    have hown := hapart (b + c) b ((hcheck c).mpr hc) (by omega) w hw
    rw [List.map_cons] at hlands
    cases hlands with
    | leaf hleaf => omega
    | next hbase hne hrest =>
      have hfol : Follows T p (cnCode w) := by
        rcases hown with hfree | hown
        · have hclear := h.clear (b + cnCode w) (by omega) hfree
          omega
        · exact (hcheck _).mp hown
      have hp' := (follows_iff_hasPrefix (by omega)).mp hfol
      have hmem := ih _ _ (hreach.step (by omega) hfol hbase) hp'
        (fun w' hw' => hts w' (List.mem_cons_of_mem _ hw')) hrest
      simpa using hmem

/-- Where the nodes are not apart, the codes of a query land that is no word. -/
lemma exists_lands {ws : List Bytes} (hws : Sorted ws) (hne : ws ≠ []) {t : DatImpl α} {b₀ : ℕ}
    (h : Filled (ws.map codes) t b₀) (hapart : ¬ Apart t) :
    ∃ ts : List Bytes, (∀ w ∈ ts, IsChar w) ∧ ts.map cnCode ∉ ws.map codes ∧
      Lands t b₀ (ts.map cnCode) := by
  have hT := hws.table
  have hroot : HasPrefix (ws.map codes) [] := hasPrefix_nil (by simpa using hne)
  simp only [Apart, not_forall, not_or] at hapart
  obtain ⟨i, b, hi, hb, w, hw, hfree, hother⟩ := hapart
  obtain ⟨b', p, c, hreach, -, howner⟩ := h.covered i (by omega)
  obtain rfl : b = b' := by omega
  obtain ⟨_, _, -, -, hcheck, -, -, -⟩ := hreach.rep h.rep
  have hcode := hw.2.cnCode_pos
  have hno : ∀ cs, p ++ cnCode w :: cs ∉ ws.map codes := by
    intro cs hmem
    obtain ⟨j, hj, hpre, -⟩ := (follows_zero_iff hT).mpr hmem
    have hp : HasPrefix (ws.map codes) (p ++ [cnCode w]) :=
      HasPrefix.of_append (q := cs) ⟨j, hj, by simpa using hpre⟩
    exact hother ((hcheck _).mpr ((follows_iff_hasPrefix (by omega)).mpr hp))
  obtain ⟨ts, -, hts, -, hcodes, -⟩ := exists_chars hws (hreach.hasPrefix hroot)
  rcases h.cell hT hfree with ⟨-, -, hleaf, -⟩ | ⟨nb, p', -, hbase, hnb, hreach'⟩
  -- the code leads to a leaf at once
  · refine ⟨ts ++ [w], ?_, ?_, ?_⟩
    · simpa [or_imp, forall_and] using ⟨hts, hw⟩
    · rw [List.map_append, hcodes]
      exact hno []
    · rw [List.map_append, hcodes]
      exact hreach.lands h.rep (.leaf hleaf)
  -- or to another node, and from there to a word
  · obtain ⟨-, ts', -, hts', -, hmem⟩ := exists_chars hws (hreach'.hasPrefix hroot)
    have hlands := lands_word hT ts' nb p' (hreach'.rep h.rep) hts' hmem
    refine ⟨ts ++ w :: ts', ?_, ?_, ?_⟩
    · intro x hx
      rcases List.mem_append.mp hx with hx | hx
      · exact hts x hx
      · rcases List.mem_cons.mp hx with rfl | hx
        · exact hw
        · exact hts' x hx
    · rw [List.map_append, hcodes]
      exact hno _
    · rw [List.map_append, hcodes]
      exact hreach.lands h.rep (.next hbase hnb hlands)

/-- The query is a word of the dictionary. -/
def IsWord (ws : List Bytes) (q : Bytes) : Prop := ∃ w ∈ ws, tokens w = tokens q

lemma isWord_iff {ws : List Bytes} (hws : ∀ w ∈ ws, Utf8Word w) {q : Bytes} (hq : Utf8Word q) :
    IsWord ws q ↔ codes q ∈ ws.map codes := by
  rw [IsWord, List.mem_map]
  exact exists_congr fun w => and_congr_right fun hw => (hws w hw).tokens_eq_iff hq

/-- A single query. -/
lemma tsearch_cases {ws : List Bytes} (hne : ws ≠ []) (hws : Sorted ws) {t : DatImpl α}
    {b : ℕ} (h : Filled (ws.map codes) t b) (hbase : t.base 0 = b) {q : Bytes}
    (hq : Utf8Word q) :
    t.tsearch q = .error .outOfBounds ∧ ¬ Roomy t ∨
      ∃ r, t.tsearch q = .ok r ∧
        (r = firstIndex ws q ↔ codes q ∈ ws.map codes ∨ ¬ Lands t b (codes q)) := by
  have hroot : HasPrefix (ws.map codes) [] := hasPrefix_nil (by simpa using hne)
  have hchars := isChar_of_mem_tokens hq
  rw [tsearch_eq_twalk, readBase]
  by_cases hsize : 0 < t.size
  · rw [if_pos hsize, Except.ok_bind, hbase, ← firstIndex_eq hws.utf8 hq]
    by_cases hmem : codes q ∈ ws.map codes
    · rw [if_pos hmem]
      refine (twalk_word hws.table (tokens q) b [] h.rep hchars hmem).imp id fun hwalk => ?_
      exact ⟨_, hwalk, iff_of_true rfl (.inl hmem)⟩
    · rw [if_neg hmem]
      refine (twalk_filled hws.table h hroot (tokens q) b [] .refl hchars).imp id ?_
      rintro (⟨hlands, i, hwalk⟩ | ⟨hlands, hwalk⟩)
      · exact ⟨i, hwalk, iff_of_false (by omega) (not_or.mpr ⟨hmem, not_not.mpr hlands⟩)⟩
      · exact ⟨-1, hwalk, iff_of_true rfl (.inr hlands)⟩
  · rw [if_neg hsize]
    refine .inl ⟨rfl, fun ht => hsize ?_⟩
    have := rep_room h.rep hroot ht
    omega

/-- **The look-up without `_check`.**  From some size of the arrays on the build leaves a code's
width of room, no look-up leaves the arrays, and `_tsearch` agrees with `_search` on all queries
exactly if no character leads from a node into another node.  On arrays of any size in which the
build ends, the two agree on a single query that stays inside exactly if it is a word of the
dictionary or its codes do not lead to the cell of a leaf. -/
theorem tsearch_build (unset : ℕ) (ws : List Bytes) (hne : ws ≠ []) (hws : Sorted ws) :
    (∃ N, ∀ size fuel, N ≤ size → N ≤ fuel →
      ∃ d, build noResize fuel (dictionary (α := α) size unset ws) = .ok d ∧ Roomy d) ∧
    ∀ (size fuel : ℕ) (d : DatImpl α), build noResize fuel (dictionary size unset ws) = .ok d →
      (∀ (q : Bytes) (r r' : ℤ), Utf8Word q → d.tsearch q = .ok r → d.search q = .ok r' →
        (r = r' ↔ IsWord ws q ∨ ∀ b : ℕ, d.base 0 = b → ¬ Lands d b (codes q))) ∧
      (Roomy d →
        (∀ q, Utf8Word q → ∃ r r', d.tsearch q = .ok r ∧ d.search q = .ok r') ∧
        ((∀ q, Utf8Word q → d.tsearch q = d.search q) ↔ Apart d)) := by
  refine ⟨?_, fun size fuel d hbuild => ?_⟩
  · obtain ⟨N, hN⟩ := Loaded.build_total α hne hws unset
    exact ⟨N, fun size fuel hsize hfuel =>
      hN _ fuel (loaded_dictionary size unset ws) rfl hsize hfuel⟩
  · have hload := loaded_dictionary (α := α) size unset ws
    obtain ⟨b, hbase, hfilled⟩ := hload.build_filled (fun _ => rfl) hne hws hbuild
    have hquery : ∀ (q : Bytes) (r r' : ℤ), Utf8Word q → d.tsearch q = .ok r →
        d.search q = .ok r' → (r = r' ↔ codes q ∈ ws.map codes ∨ ¬ Lands d b (codes q)) := by
      intro q r r' hq hr hr'
      rcases hload.search_eq hne hws hbuild hq with ⟨herr, -⟩ | hsearch
      · rw [herr] at hr'
        cases hr'
      rcases tsearch_cases hne hws hfilled hbase hq with ⟨herr, -⟩ | ⟨r₀, hr₀, hiff⟩
      · rw [herr] at hr
        cases hr
      · rw [hr] at hr₀
        rw [hr'] at hsearch
        cases hr₀
        cases hsearch
        exact hiff
    refine ⟨fun q r r' hq hr hr' => ?_, fun hroomy => ?_⟩
    · rw [hquery q r r' hq hr hr', isWord_iff hws.utf8 hq]
      refine or_congr_right ⟨fun hlands b' hb' => ?_, fun hlands => hlands b hbase⟩
      rw [hbase] at hb'
      rw [← Int.ofNat.inj hb']
      exact hlands
    · have hinside : ∀ q, Utf8Word q → ∃ r r', d.tsearch q = .ok r ∧ d.search q = .ok r' := by
        intro q hq
        rcases hload.search_eq hne hws hbuild hq with ⟨-, hsmall⟩ | hsearch
        · exact absurd hroomy hsmall
        rcases tsearch_cases hne hws hfilled hbase hq with ⟨-, hsmall⟩ | ⟨r, hr, -⟩
        · exact absurd hroomy hsmall
        · exact ⟨r, _, hr, hsearch⟩
      refine ⟨hinside, fun hagree => ?_, fun hapart q hq => ?_⟩
      · by_contra hapart
        obtain ⟨ts, hts, hno, hlands⟩ := exists_lands hws hne hfilled hapart
        rw [← codes_flatten hts] at hno hlands
        have hq := utf8Word_flatten hts
        obtain ⟨r, r', hr, hr'⟩ := hinside _ hq
        have heq : r = r' := by
          have hboth := hagree _ hq
          rw [hr, hr'] at hboth
          exact Except.ok.inj hboth
        rcases (hquery _ r r' hq hr hr').mp heq with hmem | hstray
        · exact hno hmem
        · exact hstray hlands
      · obtain ⟨r, r', hr, hr'⟩ := hinside q hq
        have hagree : codes q ∈ ws.map codes ∨ ¬ Lands d b (codes q) := by
          by_cases hlands : Lands d b (codes q)
          · left
            have hroot : HasPrefix (ws.map codes) [] := hasPrefix_nil (by simpa using hne)
            exact hapart.mem_of_lands hws.table hfilled (tokens q) b [] .refl hroot
              (isChar_of_mem_tokens hq) hlands
          · exact .inr hlands
        rw [hr, hr', (hquery q r r' hq hr hr').mpr hagree]

/-- A word of a dictionary of two words. -/
theorem tsearch_build_ab : ∃ (size fuel : ℕ) (d : DatImpl ℕ),
    build noResize fuel (dictionary size 0 [[0x61], [0x61, 0x62]]) = .ok d ∧
      d.tsearch [0x61, 0x62] = d.search [0x61, 0x62] := by
  have hb : Utf8Word [0x62] := .ascii (by decide) (by decide) .nil
  have hab : Utf8Word [0x61, 0x62] := .ascii (by decide) (by decide) hb
  have hws : Sorted [[0x61], [0x61, 0x62]] := by
    refine ⟨?_, by decide⟩
    have ha : Utf8Word [0x61] := .ascii (by decide) (by decide) .nil
    simp [ha, hab]
  obtain ⟨⟨N, hN⟩, hagree⟩ := tsearch_build (α := ℕ) 0 _ (by decide) hws
  obtain ⟨d, hbuild, hroomy⟩ := hN N N le_rfl le_rfl
  obtain ⟨hquery, hroom⟩ := hagree N N d hbuild
  obtain ⟨r, r', hr, hr'⟩ := (hroom hroomy).1 _ hab
  have heq : r = r' := (hquery _ r r' hab hr hr').mpr (.inl ⟨_, by simp, rfl⟩)
  exact ⟨N, N, d, hbuild, by rw [hr, hr', heq]⟩

/-- The dictionary of the word `a`, asked for `b`: the cell that `b` leads to is the leaf of
`a`. -/
theorem not_tsearch_build : ¬ ∀ (ws : List Bytes), ws ≠ [] → Sorted ws →
    ∀ (fuel : ℕ) (d : DatImpl ℕ), build noResize fuel (dictionary initialSize 0 ws) = .ok d →
      ∀ q, Utf8Word q → d.tsearch q = d.search q := by
  intro h
  have ha : Utf8Word [0x61] := .ascii (by decide) (by decide) .nil
  have hb : Utf8Word [0x62] := .ascii (by decide) (by decide) .nil
  have hws : Sorted [[0x61]] := ⟨by simp [ha], by decide⟩
  have hrun : (build noResize 4 (dictionary (α := ℕ) initialSize 0 [[0x61]])).map
      (fun d => (d.tsearch [0x62], d.search [0x62])) = .ok (.ok 0, .ok (-1)) := by
    decide +kernel
  cases hbuild : build noResize 4 (dictionary (α := ℕ) initialSize 0 [[0x61]]) with
  | error e =>
    rw [hbuild] at hrun
    cases hrun
  | ok d =>
    rw [hbuild] at hrun
    have heq := h _ (by simp) hws 4 d hbuild _ hb
    obtain ⟨htsearch, hsearch⟩ := Prod.mk.inj (Except.ok.inj hrun)
    rw [htsearch, hsearch] at heq
    cases heq

end DatImpl
end Dat
end Sunet
