/-
# The insertion ends

The recursion of `_insert` follows the sibling lists that `_fetch_siblings` unfolds.  Where
these lists form a tree of bounded depth and width (`Tame`), `_build` ends on arrays of any
size (`build_ne_fuel`), and there is a size from which on it ends without a `resize` and
without an access outside the arrays (`build_total`).  The first-fit search ends because it
either leaves the arrays or reaches the part of them that is still empty.
-/
import Sunet.Dat.Search

namespace Sunet
namespace Dat
namespace DatImpl

variable {α : Type}

/-! ## How the loops can fail -/

lemma writeBase_ne_error {e : Stop} (he : e ≠ .outOfBounds) (d : DatImpl α) (i : ℕ) (v : ℤ) :
    d.writeBase i v ≠ .error e := by
  rw [writeBase]
  split <;> simp [he.symm]

lemma writeUsed_ne_error {e : Stop} (he : e ≠ .outOfBounds) (d : DatImpl α) (i : ℕ) :
    d.writeUsed i ≠ .error e := by
  rw [writeUsed]
  split <;> simp [he.symm]

lemma markSiblings_ne_error {e : Stop} (he : e ≠ .outOfBounds) {b : ℕ} (sibs : List TreeNode)
    (d : DatImpl α) : markSiblings b sibs d ≠ .error e := by
  induction sibs generalizing d with
  | nil => simp [markSiblings]
  | cons s sibs ih =>
    rw [markSiblings]
    refine Except.bind_ne_error ?_ fun d' _ => ih d'
    rw [writeCheck]
    split <;> simp [he.symm]

/-- The search fails as its rounds do, and it looks at every position at most once. -/
lemma findBegin_ne_error {e : Stop} (he : e ≠ .outOfBounds) (he' : e ≠ .resize)
    {sibs : List TreeNode} {f l : ℕ} :
    ∀ (n pos : ℕ) (first : Bool) (d : DatImpl α), 0 < n → d.size ≤ pos + n →
      findBegin noResize sibs f l n pos first d ≠ .error e := by
  intro n
  induction n with
  | zero =>
    intro pos first d hn
    omega
  | succ n ih =>
    intro pos first d _ hn
    rcases findBegin_cases sibs f l n pos first d with ⟨hout, -⟩ | ⟨hout, -⟩ |
      ⟨first', d', hout, hpos, hsame, -, -⟩ | ⟨d', hout, -⟩
    · rw [hout]
      simpa using he.symm
    · rw [hout]
      simpa using he'.symm
    · -- a position that was read is inside the arrays, so the measure goes down
      have hsize := hsame.size_eq
      rw [hout]
      exact ih _ _ _ (by omega) (by omega)
    · rw [hout]
      simp

/-- The placement fails only with an access outside the arrays or a resize. -/
lemma place_ne_error {e : Stop} (he : e ≠ .outOfBounds) (he' : e ≠ .resize) {fuel : ℕ}
    {sibs : List TreeNode} {d : DatImpl α} (hfuel : d.size < fuel) :
    place noResize fuel sibs d ≠ .error e := by
  rw [place]
  split
  · refine Except.bind_ne_error ?_ fun r _ => ?_
    · refine findBegin_ne_error he he' _ _ _ _ (by omega) ?_
      change d.size ≤ _
      omega
    · refine Except.bind_ne_error (writeUsed_ne_error he _ _) fun d' _ => ?_
      exact Except.bind_ne_error (markSiblings_ne_error he _ _) fun d'' _ => by simp
  · simp [he.symm]

/-! ## Trees of sibling lists -/

/-- The sibling lists below `sibs` form a tree that is less than `D` deep; no list is empty
or longer than `L`, and the codes are codes of characters. -/
inductive Tame (fetch : TreeNode → Except Stop (ℕ × List TreeNode)) (L : ℕ) :
    ℕ → List TreeNode → Prop
  | mk (D : ℕ) (sibs : List TreeNode) (ne_nil : sibs ≠ []) (length_le : sibs.length ≤ L)
      (code_lt : ∀ s ∈ sibs, s.code < 65536) (fetched : ∀ s ∈ sibs, ∃ r, fetch s = .ok r)
      (sub : ∀ s ∈ sibs, ∀ n subs, fetch s = .ok (n + 1, subs) → Tame fetch L D subs) :
      Tame fetch L (D + 1) sibs

lemma Tame.ne_nil {fetch : TreeNode → Except Stop (ℕ × List TreeNode)} {L D : ℕ}
    {sibs : List TreeNode} (h : Tame fetch L D sibs) : sibs ≠ [] := by
  cases h
  assumption

lemma Tame.code_lt {fetch : TreeNode → Except Stop (ℕ × List TreeNode)} {L D : ℕ}
    {sibs : List TreeNode} (h : Tame fetch L D sibs) : ∀ s ∈ sibs, s.code < 65536 := by
  cases h
  assumption

lemma Tame.length_le {fetch : TreeNode → Except Stop (ℕ × List TreeNode)} {L D : ℕ}
    {sibs : List TreeNode} (h : Tame fetch L D sibs) : sibs.length ≤ L := by
  cases h
  assumption

/-- A node of a tame tree is a leaf or has a tame tree below it. -/
lemma Tame.child {fetch : TreeNode → Except Stop (ℕ × List TreeNode)} {L D : ℕ}
    {sibs : List TreeNode} (h : Tame fetch L (D + 1) sibs) {s : TreeNode} (hs : s ∈ sibs) :
    ∃ n subs, fetch s = .ok (n, subs) ∧ (n ≠ 0 → Tame fetch L D subs) := by
  obtain ⟨_, _, -, -, -, hfetched, hsub⟩ := h
  obtain ⟨⟨n, subs⟩, hr⟩ := hfetched s hs
  refine ⟨n, subs, hr, fun hn => ?_⟩
  obtain ⟨m, rfl⟩ := Nat.exists_eq_succ_of_ne_zero hn
  exact hsub s hs m subs hr

/-- The sibling lists below `sibs` form a tree that is less than `D` deep. -/
inductive Ends (fetch : TreeNode → Except Stop (ℕ × List TreeNode)) : ℕ → List TreeNode → Prop
  | mk (D : ℕ) (sibs : List TreeNode) (fetched : ∀ s ∈ sibs, ∃ r, fetch s = .ok r)
      (sub : ∀ s ∈ sibs, ∀ n subs, fetch s = .ok (n + 1, subs) → Ends fetch D subs) :
      Ends fetch (D + 1) sibs

lemma Ends.child {fetch : TreeNode → Except Stop (ℕ × List TreeNode)} {D : ℕ}
    {sibs : List TreeNode} (h : Ends fetch (D + 1) sibs) {s : TreeNode} (hs : s ∈ sibs) :
    ∃ n subs, fetch s = .ok (n, subs) ∧ (n ≠ 0 → Ends fetch D subs) := by
  obtain ⟨_, _, hfetched, hsub⟩ := h
  obtain ⟨⟨n, subs⟩, hr⟩ := hfetched s hs
  refine ⟨n, subs, hr, fun hn => ?_⟩
  obtain ⟨m, rfl⟩ := Nat.exists_eq_succ_of_ne_zero hn
  exact hsub s hs m subs hr

lemma Tame.ends {fetch : TreeNode → Except Stop (ℕ × List TreeNode)} {L D : ℕ}
    {sibs : List TreeNode} (h : Tame fetch L D sibs) : Ends fetch D sibs := by
  induction h with
  | mk D sibs _ _ _ hfetched _ ih => exact .mk D sibs hfetched ih

/-- What holds between the rounds of the last loop of `_insert`. -/
structure Between (fetch : TreeNode → Except Stop (ℕ × List TreeNode)) (b : ℕ)
    (sibs : List TreeNode) (size : ℕ) (d : DatImpl α) : Prop where
  fetch_eq : d.fetchSiblings = fetch
  marked : Marked d
  size_eq : d.size = size
  taken : ∀ i ∈ cells b sibs, d.check i ≠ 0

lemma Between.ext {fetch : TreeNode → Except Stop (ℕ × List TreeNode)} {b size : ℕ}
    {sibs : List TreeNode} {d d' : DatImpl α} {W : Set ℕ} (h : Between fetch b sibs size d)
    (hext : Ext W d d') : Between fetch b sibs size d' :=
  ⟨hext.fetchSiblings_eq.trans h.fetch_eq, hext.marked h.marked, hext.size_eq.trans h.size_eq,
    fun i hi => hext.check_ne (h.taken i hi)⟩

lemma Placed.between {fetch : TreeNode → Except Stop (ℕ × List TreeNode)} {b : ℕ}
    {sibs : List TreeNode} {d d' : DatImpl α} (h : Placed sibs b d d')
    (hfetch : d.fetchSiblings = fetch) (hd : Marked d) : Between fetch b sibs d.size d' := by
  refine ⟨h.ext.fetchSiblings_eq.trans hfetch, h.ext.marked hd, h.size_eq, fun i hi => ?_⟩
  have := h.pos
  rw [h.check_in i hi]
  omega

/-- One round of the last loop of `_insert` leads from one such state to the next. -/
lemma Between.attach {fetch : TreeNode → Except Stop (ℕ × List TreeNode)} {fuel n b size : ℕ}
    {sibs : List TreeNode} {d d' : DatImpl α} (h : Between fetch b sibs size d) {s : TreeNode}
    (hs : s ∈ sibs) (hatt : attach (insert noResize fuel n) b d s = .ok d') :
    Between fetch b sibs size d' :=
  h.ext (attach_ok (insert_builds fetch fuel n) h.fetch_eq h.marked
    (h.taken _ ⟨s, hs, rfl⟩) hatt).2.1

/-- An insertion avoids an error that the search for its cells avoids: the recursion is no
deeper than the tree. -/
lemma insert_ne_error {fetch : TreeNode → Except Stop (ℕ × List TreeNode)} {fuel : ℕ} {e : Stop}
    (he : e ≠ .outOfBounds) (he' : e ≠ .resize) :
    ∀ (D n : ℕ) (sibs : List TreeNode) (d : DatImpl α), Ends fetch D sibs → D ≤ n →
      d.fetchSiblings = fetch → Marked d → d.size < fuel →
      insert noResize fuel n sibs d ≠ .error e := by
  intro D
  induction D with
  | zero =>
    intro n sibs d hends
    cases hends
  | succ D ih =>
    intro n sibs d hends hn hfetch hd hfuel
    obtain ⟨n, rfl⟩ : ∃ m, n = m + 1 := ⟨n - 1, by omega⟩
    simp only [insert]
    refine Except.bind_ne_error (place_ne_error he he' hfuel) fun r hr => ?_
    obtain ⟨b, d₁⟩ := r
    have hbet := (place_ok hr).between hfetch hd
    refine Except.bind_ne_error ?_ fun d₂ _ => by simp
    refine Except.foldlM_ne_error (Between fetch b sibs d.size) _ _ hbet ?_ ?_
    · intro t ht s hs
      obtain ⟨m, subs, hsubs, hends'⟩ := hends.child hs
      rw [attach, ht.fetch_eq, hsubs, Except.ok_bind]
      by_cases hm : m = 0
      · simp only [hm, if_true]
        exact Except.bind_ne_error (writeBase_ne_error he _ _ _) fun _ _ => by simp
      · simp only [hm, if_false]
        refine Except.bind_ne_error ?_ fun _ _ => writeBase_ne_error he _ _ _
        exact ih n subs t (hends' hm) (by omega) ht.fetch_eq ht.marked
          (by rw [ht.size_eq]; exact hfuel)
    · exact fun t ht s hs t' h => ht.attach hs h

/-- An insertion ends. -/
lemma insert_ne_fuel {fetch : TreeNode → Except Stop (ℕ × List TreeNode)} {fuel D n : ℕ}
    {sibs : List TreeNode} {d : DatImpl α} (hends : Ends fetch D sibs) (hn : D ≤ n)
    (hfetch : d.fetchSiblings = fetch) (hd : Marked d) (hfuel : d.size < fuel) :
    insert noResize fuel n sibs d ≠ .error .fuel :=
  insert_ne_error (by decide) (by decide) D n sibs d hends hn hfetch hd hfuel

/-! ## Large arrays suffice -/

/-- From `M` on the arrays are as they were at the start, and `_next_check_pos` is at most
`M + e`. -/
structure Below (d : DatImpl α) (M e : ℕ) : Prop where
  check : ∀ i, M ≤ i → d.check i = 0
  used : ∀ i, M ≤ i → d.used i = false
  next : d.nextCheckPos ≤ M + e

lemma Below.lt {d : DatImpl α} {M e i : ℕ} (h : Below d M e) (hi : d.check i ≠ 0) : i < M := by
  by_contra hge
  exact hi (h.check i (by omega))

/-- The first-fit search ends at the empty part of the arrays at the latest. -/
lemma findBegin_below {sibs : List TreeNode} {f l M : ℕ} (hf : f < 65536) (hl : l < 65536)
    (hcode : ∀ s ∈ sibs, s.code < 65536) :
    ∀ (n pos : ℕ) (first : Bool) (d : DatImpl α), Below d M 65536 → f ≤ pos → pos ≤ M + f →
      M + f < pos + n → M + 200000 ≤ d.size →
      ∃ b pos' d', findBegin noResize sibs f l n pos first d = .ok (b, pos', d') ∧
        b ≤ M + 1 ∧ pos' ≤ M + 65536 ∧ d'.nextCheckPos ≤ M + 65536 := by
  intro n
  induction n with
  | zero =>
    intro pos first d _ _ _ _ _
    omega
  | succ n ih =>
    intro pos first d hd hpos hle hn hsize
    have hnext := hd.next
    rcases findBegin_cases sibs f l n pos first d with ⟨-, hsmall⟩ | ⟨-, hsmall⟩ |
      ⟨first', d', hout, -, hsame, hnext', hpassed⟩ | ⟨d', hout, -, -, hnext', -⟩
    · rcases hsmall with h | ⟨s, hs, h⟩
      · omega
      · have := hcode s hs
        omega
    · omega
    · -- a value that fails lies before the empty part, so the next position is in reach
      have hlt : pos + 1 < M + f ∨ pos + 1 < M := by
        rcases hpassed with hc | hu | ⟨s, hs, hc⟩
        · exact Or.inr (hd.lt hc)
        · by_contra hge
          rw [hd.used _ (by omega)] at hu
          cases hu
        · have := hd.lt hc
          omega
      have hd' : Below d' M 65536 :=
        ⟨by rw [hsame.check_eq]; exact hd.check, by rw [hsame.used_eq]; exact hd.used, by omega⟩
      have hsize' := hsame.size_eq
      rw [hout]
      exact ih (pos + 1) first' d' hd' (by omega) (by omega) (by omega) (by omega)
    · exact ⟨_, _, d', hout, by omega, by omega, by omega⟩

lemma markSiblings_total {b : ℕ} {sibs : List TreeNode} :
    ∀ d : DatImpl α, (∀ s ∈ sibs, b + s.code < d.size) →
      ∃ d', markSiblings b sibs d = .ok d' ∧ d'.nextCheckPos = d.nextCheckPos := by
  induction sibs with
  | nil => exact fun d _ => ⟨d, rfl, rfl⟩
  | cons s sibs ih =>
    intro d hin
    rw [markSiblings, writeCheck, if_pos (hin s (by simp)), Except.ok_bind]
    exact ih _ fun s' hs' => hin s' (by simp [hs'])

lemma place_total {fuel M : ℕ} {sibs : List TreeNode} {d : DatImpl α} (hne : sibs ≠ [])
    (hcode : ∀ s ∈ sibs, s.code < 65536) (hd : Below d M 0) (hfuel : M + 200000 ≤ fuel)
    (hsize : M + 200000 ≤ d.size) :
    ∃ b d', place noResize fuel sibs d = .ok (b, d') ∧ b ≤ M + 1 ∧
      d'.nextCheckPos ≤ M + 65536 := by
  rw [place]
  rcases List.eq_nil_or_concat sibs with rfl | ⟨init, last, hcat⟩
  · exact absurd rfl hne
  · obtain ⟨s, sibs', hcons⟩ := List.exists_cons_of_ne_nil hne
    have hhead : sibs.head? = some s := by rw [hcons]; rfl
    have hlast : sibs.getLast? = some last := by
      rw [hcat, List.concat_eq_append, List.getLast?_append]
      rfl
    have hs := hcode s (List.mem_of_mem_head? hhead)
    have hl := hcode last (List.mem_of_getLast? hlast)
    have hnext := hd.next
    obtain ⟨b, pos', d₁, hfind, hb, hpos', hnext'⟩ := findBegin_below (M := M) hs hl hcode fuel
      (max (s.code + 1) d.nextCheckPos - 1) false { d with nonZeroNum := 0 }
      ⟨hd.check, hd.used, by change d.nextCheckPos ≤ _; omega⟩ (by omega) (by omega)
      (by omega) hsize
    have hsize₁ : d₁.size = d.size := (findBegin_ok _ _ _ _ _ _ _ (by omega) hfind).1.size_eq
    rw [hhead, hlast]
    simp only [hfind, Except.ok_bind, writeUsed, if_pos (show b < d₁.size by omega)]
    generalize hd₂ : (if 19 * (pos' - d₁.nextCheckPos + 1) ≤ 20 * d₁.nonZeroNum then
      _ else _ : DatImpl α) = d₂
    have hmove : d₂.size = d.size ∧ d₂.nextCheckPos ≤ M + 65536 := by
      rw [← hd₂]
      split
      · exact ⟨hsize₁, hpos'⟩
      · exact ⟨hsize₁, hnext'⟩
    have hin : ∀ x ∈ sibs, b + x.code < d₂.size := fun x hx => by
      have := hcode x hx
      omega
    obtain ⟨d₃, hmark, hnext₃⟩ := markSiblings_total d₂ hin
    exact ⟨b, d₃, by rw [hmark]; rfl, hb, by omega⟩

/-- Placing siblings fills the arrays by a bounded amount. -/
lemma place_below {fuel M : ℕ} {sibs : List TreeNode} {d : DatImpl α} (hne : sibs ≠ [])
    (hcode : ∀ s ∈ sibs, s.code < 65536) (hd : Below d M 0) (hfuel : M + 200000 ≤ fuel)
    (hsize : M + 200000 ≤ d.size) :
    ∃ b d', place noResize fuel sibs d = .ok (b, d') ∧ Below d' (M + 200000) 0 := by
  obtain ⟨b, d', hplace, hb, hnext⟩ := place_total hne hcode hd hfuel hsize
  have hpl := place_ok hplace
  refine ⟨b, d', hplace, ?_, ?_, by omega⟩
  · intro i hi
    rw [hpl.check_out, hd.check i (by omega)]
    rintro ⟨s, hs, rfl⟩
    have := hcode s hs
    omega
  · intro i hi
    rw [hpl.used, Function.update_of_ne (by omega), hd.used i (by omega)]

/-- Some amount of room beyond `M` is enough for the insertion of a tree. -/
def Suffices (α : Type) (fetch : TreeNode → Except Stop (ℕ × List TreeNode))
    (L D M M' : ℕ) : Prop :=
  ∀ (fuel n : ℕ) (sibs : List TreeNode) (d : DatImpl α), M' ≤ fuel → D ≤ n →
    Tame fetch L D sibs → d.fetchSiblings = fetch → Marked d → Below d M 0 → M' ≤ d.size →
    ∃ b d', insert noResize fuel n sibs d = .ok (b, d') ∧ Below d' M' 0

/-- One round of the last loop of `_insert` on large arrays. -/
lemma attach_below {fetch : TreeNode → Except Stop (ℕ × List TreeNode)}
    {L D M M' fuel n b : ℕ} (hM : M ≤ M') (hD : Suffices α fetch L D M M') (hfuel : M' ≤ fuel)
    (hn : D ≤ n) {sibs : List TreeNode} (htame : Tame fetch L (D + 1) sibs) {s : TreeNode}
    (hs : s ∈ sibs) {size : ℕ} {d : DatImpl α} (hbet : Between fetch b sibs size d)
    (hd : Below d M 0) (hsize : M' ≤ size) :
    ∃ d', attach (insert noResize fuel n) b d s = .ok d' ∧ Below d' M' 0 := by
  have hcell : b + s.code < M := hd.lt (hbet.taken _ ⟨s, hs, rfl⟩)
  have hdsize := hbet.size_eq
  obtain ⟨m, subs, hsubs, htame'⟩ := htame.child hs
  rw [attach, hbet.fetch_eq, hsubs, Except.ok_bind]
  by_cases hm : m = 0
  · simp only [hm, if_true, writeBase]
    rw [if_pos (by omega), Except.ok_bind]
    exact ⟨_, rfl, fun i hi => hd.check i (by omega), fun i hi => hd.used i (by omega),
      hd.next.trans (by omega)⟩
  · obtain ⟨nb, d₁, hins, hd₁⟩ := hD fuel n subs d hfuel hn (htame' hm) hbet.fetch_eq
      hbet.marked hd (by omega)
    have hext := (insert_builds fetch fuel n subs d nb d₁ hbet.fetch_eq hbet.marked hins).1
    have hsize₁ := hext.size_eq
    simp only [hm, if_false, hins, Except.ok_bind, writeBase]
    rw [if_pos (by omega)]
    exact ⟨_, rfl, hd₁.check, hd₁.used, hd₁.next⟩

/-- The last loop of `_insert` on large arrays, for at most `K` siblings. -/
lemma attachAll_below {fetch : TreeNode → Except Stop (ℕ × List TreeNode)} {L D : ℕ}
    (hD : ∀ M, ∃ M', M ≤ M' ∧ Suffices α fetch L D M M') :
    ∀ K M : ℕ, ∃ M', M ≤ M' ∧ ∀ (fuel n b : ℕ) (sibs rest : List TreeNode) (size : ℕ)
      (d : DatImpl α), M' ≤ fuel → D ≤ n → Tame fetch L (D + 1) sibs → rest.length ≤ K →
      (∀ s ∈ rest, s ∈ sibs) → Between fetch b sibs size d → Below d M 0 → M' ≤ size →
      ∃ d', rest.foldlM (attach (insert noResize fuel n) b) d = .ok d' ∧ Below d' M' 0 := by
  intro K
  induction K with
  | zero =>
    intro M
    refine ⟨M, le_rfl, ?_⟩
    intro fuel n b sibs rest size d _ _ _ hlen _ _ hd _
    have hnil : rest = [] := by simpa using hlen
    subst hnil
    exact ⟨d, rfl, hd⟩
  | succ K ih =>
    intro M
    -- one bound for the first sibling, one for all behind it
    obtain ⟨M₁, hM₁, h₁⟩ := hD M
    obtain ⟨M₂, hM₂, h₂⟩ := ih M₁
    refine ⟨M₂, by omega, ?_⟩
    intro fuel n b sibs rest size d hfuel hn htame hlen hsub hbet hd hsize
    cases rest with
    | nil =>
      exact ⟨d, rfl, fun i hi => hd.check i (by omega), fun i hi => hd.used i (by omega),
        hd.next.trans (by omega)⟩
    | cons s rest =>
      have hs := hsub s (by simp)
      have hfuel₁ : M₁ ≤ fuel := by omega
      obtain ⟨d₁, hatt, hd₁⟩ := attach_below hM₁ h₁ hfuel₁ hn htame hs hbet hd (by omega)
      rw [List.foldlM_cons, hatt, Except.ok_bind]
      exact h₂ fuel n b sibs rest size d₁ hfuel hn htame (by simpa using hlen)
        (fun x hx => hsub x (by simp [hx])) (hbet.attach hs hatt) hd₁ hsize

lemma insert_below (fetch : TreeNode → Except Stop (ℕ × List TreeNode)) (L D : ℕ) :
    ∀ M, ∃ M', M ≤ M' ∧ Suffices α fetch L D M M' := by
  induction D with
  | zero =>
    intro M
    refine ⟨M, le_rfl, ?_⟩
    intro fuel n sibs d _ _ htame
    cases htame
  | succ D ih =>
    intro M
    obtain ⟨M', hM', hloop⟩ := attachAll_below ih L (M + 200000)
    refine ⟨M', by omega, ?_⟩
    intro fuel n sibs d hfuel hn htame hfetch hd hbelow hsize
    obtain ⟨n, rfl⟩ : ∃ m, n = m + 1 := ⟨n - 1, by omega⟩
    have hfuel₁ : M + 200000 ≤ fuel := by omega
    obtain ⟨b, d₁, hplace, hd₁⟩ := place_below htame.ne_nil htame.code_lt hbelow hfuel₁
      (by omega)
    obtain ⟨d₂, hatt, hd₂⟩ := hloop fuel n b sibs sibs d.size d₁ hfuel (by omega) htame
      htame.length_le (fun _ h => h) ((place_ok hplace).between hfetch hd) hd₁ hsize
    refine ⟨b, d₂, ?_, hd₂⟩
    rw [insert, hplace, Except.ok_bind]
    simp only
    rw [hatt, Except.ok_bind]

/-! ## The build -/

/-- An object before `_build`: nothing has been written into the arrays. -/
structure Fresh (d : DatImpl α) : Prop where
  check_eq : ∀ i, d.check i = 0
  used_eq : ∀ b, d.used b = false
  next_eq : d.nextCheckPos = 0

/-- The node that `_build` starts from. -/
def root (d : DatImpl α) : TreeNode := ⟨0, 0, d.dicts.length, 0⟩

lemma Fresh.marked {d : DatImpl α} (h : Fresh d) : Marked d :=
  fun i hi => absurd (h.check_eq i) hi

lemma Fresh.cellsInside {W : Set ℕ} {d t : DatImpl α} (h : Fresh d) (hext : Ext W d t) :
    CellsInside t := by
  intro i hi
  rw [hext.size_eq]
  exact hext.inside i (h.check_eq i) hi

/-- `_build` is an insertion of the siblings below the root, whatever the call of
`_fetch_siblings` returns. -/
lemma build_eq {d : DatImpl α} {n : ℕ} {sibs : List TreeNode}
    (h : d.fetchSiblings d.root = .ok (n, sibs)) (fuel : ℕ) :
    build noResize fuel d = insert noResize fuel fuel sibs d >>= fun r =>
      r.2.writeBase 0 r.1 := by
  rw [root] at h
  rw [build, h, Except.ok_bind]

/-- What `_build` does behind the insertion: it writes the state of the root into a cell that
belongs to no node, so that all that was written before is kept. -/
lemma build_cases {fuel : ℕ} {d t : DatImpl α} (hd : Fresh d)
    (h : build noResize fuel d = .ok t) :
    ∃ n sibs, ∃ b : ℕ, ∃ d₁, d.fetchSiblings d.root = .ok (n, sibs) ∧
      insert noResize fuel fuel sibs d = .ok (b, d₁) ∧ d₁.writeBase 0 b = .ok t ∧
      Keeps ∅ d d₁ t := by
  cases hroot : d.fetchSiblings d.root with
  | error e =>
    rw [root] at hroot
    rw [build, hroot] at h
    cases h
  | ok r =>
    obtain ⟨n, sibs⟩ := r
    rw [build_eq hroot, Except.bind_eq_ok] at h
    obtain ⟨⟨b, d₁⟩, hins, hw⟩ := h
    obtain ⟨hext, -⟩ := insert_builds _ fuel fuel sibs d b d₁ rfl hd.marked hins
    obtain ⟨hext', -⟩ := writeBase_ok hw
    refine ⟨n, sibs, b, d₁, rfl, hins, hw, ?_⟩
    -- the cell of the root belongs to no node
    have hroot₁ : d₁.check 0 = 0 := hext.root_eq.trans (hd.check_eq 0)
    have hcheck : t.check = d₁.check := by rw [writeBase_eq hw]
    refine ⟨fun i _ _ => by rw [hcheck], ?_, fun i _ _ _ _ => by rw [hcheck]⟩
    rintro i (hi | ⟨-, hi⟩)
    · cases hi
    · refine hext'.base_eq i hi ?_
      rintro rfl
      exact hi hroot₁

/-- **The build makes the tree of the sibling lists.** -/
theorem build_ok {fuel : ℕ} {d t : DatImpl α} (hd : Fresh d)
    (h : build noResize fuel d = .ok t) :
    ∃ n sibs, ∃ b : ℕ, d.fetchSiblings d.root = .ok (n, sibs) ∧ t.base 0 = b ∧
      Built d.fetchSiblings t b sibs ∧ Ext ∅ d t := by
  obtain ⟨n, sibs, b, d₁, hroot, hins, hw, hkeeps⟩ := build_cases hd h
  obtain ⟨hext, hbuilt⟩ := insert_builds _ fuel fuel sibs d b d₁ rfl hd.marked hins
  obtain ⟨hext', hbase⟩ := writeBase_ok hw
  refine ⟨n, sibs, b, hroot, hbase, hbuilt t hkeeps, hext.trans hext' (by simp) ?_⟩
  exact fun i _ hi => absurd (hd.check_eq i) hi

/-- On arrays of any size the build of a tame tree ends. -/
theorem build_ne_fuel {d : DatImpl α} {L D n fuel : ℕ} {sibs : List TreeNode} (hd : Fresh d)
    (hroot : d.fetchSiblings d.root = .ok (n, sibs)) (htame : Tame d.fetchSiblings L D sibs)
    (hfuel : D ≤ fuel) (hsize : d.size < fuel) : build noResize fuel d ≠ .error .fuel := by
  rw [build_eq hroot]
  refine Except.bind_ne_error ?_ fun _ _ => writeBase_ne_error (by decide) _ _ _
  exact insert_ne_fuel htame.ends hfuel rfl hd.marked hsize

/-- **Large arrays suffice.**  From some size on the build of a tame tree ends inside the
arrays, and leaves a code's width of room behind the cells in use. -/
theorem build_total (α : Type) (fetch : TreeNode → Except Stop (ℕ × List TreeNode)) (L D : ℕ) :
    ∃ N, ∀ (d : DatImpl α) (fuel n : ℕ) (sibs : List TreeNode), Fresh d →
      d.fetchSiblings = fetch → d.fetchSiblings d.root = .ok (n, sibs) → Tame fetch L D sibs →
      N ≤ d.size → N ≤ fuel → ∃ t, build noResize fuel d = .ok t ∧ Roomy t := by
  obtain ⟨M, -, hsuff⟩ := insert_below (α := α) fetch L D 0
  refine ⟨M + 65536 + D, fun d fuel n sibs hd hfetch hroot htame hsize hfuel => ?_⟩
  obtain ⟨b, d₁, hins, hd₁⟩ := hsuff fuel fuel sibs d (by omega) (by omega) htame hfetch
    hd.marked ⟨fun i _ => hd.check_eq i, fun i _ => hd.used_eq i, by rw [hd.next_eq]⟩
    (by omega)
  have hsize₁ := (insert_builds fetch fuel fuel sibs d b d₁ hfetch hd.marked hins).1.size_eq
  refine ⟨{ d₁ with base := Function.update d₁.base 0 b }, ?_, fun i hi => ?_⟩
  · rw [build_eq hroot, hins, Except.ok_bind]
    exact if_pos (by change 0 < d₁.size; omega)
  · have hlt : i < M := hd₁.lt hi
    change i + 65536 ≤ d₁.size
    omega

end DatImpl
end Dat
end Sunet
