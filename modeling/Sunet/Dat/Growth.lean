/-
# The search of an insertion and the end of the arrays

The search loop of `_insert` reads `_check[pos]` before it compares anything with `_size`, and
goes on to the next position where the cell is taken.  `resize` is called only at a free cell,
and what it leaves behind the copied bytes is what the new memory contains.  The model here
computes the indices with the type `int` and resizes on blocks of bytes; the main result is
`place_inside_iff`, which says when no memory can make the search leave the arrays.
-/
import Sunet.Dat.Memory
import Sunet.Dat.Total

namespace Sunet
namespace Dat

/-! ## Resizing in memory -/

/-- The bytes of an array of `int`. -/
def ofInts (f : ℕ → ℤ) : Block :=
  fun j => UInt8.ofNat ((f (j / 4) % 2 ^ 32).toNat / 256 ^ (j % 4))

/-- The bytes of an array of `bool`. -/
def ofBools (f : ℕ → Bool) : Block := fun j => if f j then 1 else 0

/-- What the conversion of `_size * l` to `int` does, given the product without rounding: `none`
where the value is no `int`. -/
structure Rounds (toInt : ℚ → Option ℕ) : Prop where
  near : ∀ q n, toInt q = some n → q < n + 2
  lt : ∀ q n, toInt q = some n → n < 2 ^ 31

namespace DatImpl

variable {α : Type}

/-- The arrays of an object in memory. -/
def arrays (d : DatImpl α) : Arrays := ⟨⟨ofInts d.base, ofInts d.check, ofBools d.used⟩, d.size⟩

/-- The object after its arrays have been copied into new blocks. -/
def copyInto (d : DatImpl α) (fresh : Blocks) (newSize : ℕ) : DatImpl α :=
  let a := d.arrays.copyInto fresh newSize
  { d with base := intAt a.base, check := intAt a.check, used := boolAt a.used, size := a.size }

/-- `l`, the factor by which the arrays grow. -/
def growthFactor (d : DatImpl α) : ℚ :=
  let q : ℚ := d.dicts.length / (d.progress + 1)
  if q < 21 / 20 then 21 / 20 else q

/-- The two `resize` functions when `fresh n` are the new blocks for `n` elements.  A size that
is no `int` ends the run. -/
def memoryResizer (toInt : ℚ → Option ℕ) (fresh : ℕ → Blocks) : Resizer α where
  grow d :=
    match toInt (d.size * d.growthFactor) with
    | none => .error .resize
    | some n => .ok (d.copyInto (fresh n) n)
  double d :=
    if d.size * 2 < 2 ^ 31 then .ok (d.copyInto (fresh (d.size * 2)) (d.size * 2))
    else .error .resize

/-! ## The search with indices of the type `int` -/

/-- `begin + code`. -/
def cell (begin code : ℕ) : ℤ := wrapInt (begin + code : ℕ)

/-- `tag`. -/
def anyTakenInt (d : DatImpl α) (begin : ℕ) : List TreeNode → Except Stop Bool
  | [] => .ok false
  | s :: rest => do
    let i ← index (cell begin s.code)
    let c ← d.readCheck i
    if c ≠ 0 then .ok true else d.anyTakenInt begin rest

/-- The `while (true)` loop. -/
def findBeginInt (rz : Resizer α) (siblings : List TreeNode) (firstCode lastCode : ℕ) :
    ℕ → ℕ → Bool → DatImpl α → Except Stop (ℕ × ℕ × DatImpl α)
  | 0, _, _, _ => .error .fuel
  | n + 1, pos₀, first, d => do
    let pos := pos₀ + 1
    -- not compared with `_size`
    let c ← d.readCheck pos
    if c ≠ 0 then
      findBeginInt rz siblings firstCode lastCode n pos first
        { d with nonZeroNum := d.nonZeroNum + 1 }
    else
      let d := if first then d else { d with nextCheckPos := pos }
      let begin := pos - firstCode
      let d ← if (d.size : ℤ) ≤ cell begin lastCode then rz.grow d else .ok d
      let u ← d.readUsed begin
      if u then findBeginInt rz siblings firstCode lastCode n pos true d
      else
        let d ← if (d.size : ℤ) < cell begin lastCode then rz.double d else .ok d
        let tag ← d.anyTakenInt begin siblings
        if tag then findBeginInt rz siblings firstCode lastCode n pos true d
        else .ok (begin, pos, d)

/-- `_check[begin + siblings[i]->code] = begin` for all siblings. -/
def markSiblingsInt (begin : ℕ) : List TreeNode → DatImpl α → Except Stop (DatImpl α)
  | [], d => .ok d
  | s :: rest, d => do
    let i ← index (cell begin s.code)
    let d ← d.writeCheck i begin
    markSiblingsInt begin rest d

/-- The search loop and the placement loop of `_insert`. -/
def placeInt (rz : Resizer α) (fuel : ℕ) (siblings : List TreeNode) (d : DatImpl α) :
    Except Stop (ℕ × DatImpl α) :=
  match siblings.head?, siblings.getLast? with
  | some s, some last => do
    let pos := max (s.code + 1) d.nextCheckPos - 1
    let (begin, pos, d) ← findBeginInt rz siblings s.code last.code fuel pos false
      { d with nonZeroNum := 0 }
    let d ← d.writeUsed begin
    let d := if 19 * (pos - d.nextCheckPos + 1) ≤ 20 * d.nonZeroNum then
        { d with nextCheckPos := pos }
      else d
    let d ← markSiblingsInt begin siblings d
    .ok (begin, d)
  | _, _ => .error .outOfBounds

/-! ## Bytes and cells -/

lemma wordAt_ofInts (f : ℕ → ℤ) (i : ℕ) : wordAt (ofInts f) i = (f i % 2 ^ 32).toNat := by
  have hdiv : ∀ k < 4, (4 * i + k) / 4 = i ∧ (4 * i + k) % 4 = k := fun k hk => by omega
  obtain ⟨h₀, h₀'⟩ := hdiv 0 (by omega)
  obtain ⟨h₁, h₁'⟩ := hdiv 1 (by omega)
  obtain ⟨h₂, h₂'⟩ := hdiv 2 (by omega)
  obtain ⟨h₃, h₃'⟩ := hdiv 3 (by omega)
  rw [Nat.add_zero] at h₀ h₀'
  have hlt : (f i % 2 ^ 32).toNat < 2 ^ 32 := by omega
  generalize hv : (f i % 2 ^ 32).toNat = v at hlt
  simp only [wordAt, ofInts, h₀, h₀', h₁, h₁', h₂, h₂', h₃, h₃', hv, UInt8.toNat_ofNat']
  omega

/-- The arrays of an object whose elements have the type `int` represent it. -/
lemma represents_arrays {d : DatImpl α}
    (hints : ∀ i < d.size, IsInt (d.base i) ∧ IsInt (d.check i)) : d.arrays.Represents d := by
  have hint : ∀ (f : ℕ → ℤ) i, IsInt (f i) → intAt (ofInts f) i = f i := by
    intro f i hi
    have hval : ((f i % 2 ^ 32).toNat : ℤ) = f i % 2 ^ 32 := by omega
    rw [intAt, wordAt_ofInts, hval]
    exact (Int.emod_bmod (f i) (2 ^ 32)).trans hi
  refine ⟨rfl, fun i hi => ⟨hint _ i (hints i hi).1, hint _ i (hints i hi).2, ?_⟩⟩
  show (ofBools d.used i != 0) = d.used i
  rw [ofBools]
  cases d.used i <;> rfl

/-- What `copyInto` leaves in memory represents it. -/
lemma represents_copyInto (d : DatImpl α) (fresh : Blocks) (n : ℕ) :
    (d.arrays.copyInto fresh n).Represents (d.copyInto fresh n) := by
  simp only [Arrays.Represents, copyInto, and_self, implies_true]

/-- Behind the copied bytes an element is what the new block contains. -/
lemma copyInto_check {d : DatImpl α} {fresh : Blocks} {n i : ℕ} (hi : d.size ≤ 4 * i) :
    (d.copyInto fresh n).check i = intAt fresh.check i := by
  simp only [copyInto, Arrays.copyInto, arrays]
  refine intAt_eq_iff.mpr fun j hj _ => ?_
  rw [memcpy, if_neg (by omega)]

/-- Blocks that are full of the byte 1. -/
def ones : Blocks := ⟨fun _ => 1, fun _ => 1, fun _ => 1⟩

lemma intAt_ones (i : ℕ) : intAt ones.check i ≠ 0 := by
  have hword : wordAt ones.check i = 16843009 := by simp [wordAt, ones]
  have hint : wrapInt (16843009 : ℕ) = (16843009 : ℕ) := isInt_of_lt (by norm_num)
  rw [intAt, hword, hint]
  norm_num

/-! ## Indices -/

lemma cell_of_lt {begin code : ℕ} (h : begin + code < 2 ^ 31) :
    cell begin code = (begin + code : ℕ) := by
  rw [cell]
  exact isInt_of_lt h

lemma cell_of_ge {begin code : ℕ} (h : 2 ^ 31 ≤ begin + code) (h' : begin + code < 2 ^ 32) :
    cell begin code < 0 := by
  obtain ⟨k, hk⟩ := wrapInt_eq_sub ((begin + code : ℕ) : ℤ)
  have hbounds := (isInt_wrapInt ((begin + code : ℕ) : ℤ)).bounds
  rw [cell]
  omega

lemma index_cell {begin code : ℕ} (h : begin + code < 2 ^ 31) :
    index (cell begin code) = .ok (begin + code) := by
  rw [cell_of_lt h, index_natCast]

lemma index_cell_over {begin code : ℕ} (h : 2 ^ 31 ≤ begin + code) (h' : begin + code < 2 ^ 32) :
    index (cell begin code) = .error .outOfBounds :=
  index_of_neg (cell_of_ge h h')

/-- Inside the arrays the flag says whether a cell of a sibling is taken. -/
lemma anyTakenInt_inside {d : DatImpl α} {b : ℕ} {sibs : List TreeNode}
    (hin : ∀ s ∈ sibs, b + s.code < d.size) (hsize : d.size ≤ 2 ^ 31) :
    d.anyTakenInt b sibs = .ok (decide (∃ s ∈ sibs, d.check (b + s.code) ≠ 0)) := by
  induction sibs with
  | nil => simp [anyTakenInt]
  | cons s sibs ih =>
    have hs := hin s List.mem_cons_self
    rw [anyTakenInt, index_cell (by omega), Except.ok_bind, readCheck, if_pos hs, Except.ok_bind,
      ih fun x hx => hin x (List.mem_cons_of_mem _ hx)]
    by_cases hc : d.check (b + s.code) = 0
    · simp [hc]
    · simp [hc]

/-- Where the sum of `begin` and the code of a sibling is no `int`, no search comes to its end. -/
lemma anyTakenInt_over {d : DatImpl α} {b : ℕ} {sibs : List TreeNode}
    (hb : ∀ s ∈ sibs, b + s.code < 2 ^ 32) (hover : ∃ s ∈ sibs, 2 ^ 31 ≤ b + s.code) :
    d.anyTakenInt b sibs = .error .outOfBounds ∨ d.anyTakenInt b sibs = .ok true := by
  induction sibs with
  | nil =>
    obtain ⟨s, hs, -⟩ := hover
    cases hs
  | cons s sibs ih =>
    rw [anyTakenInt]
    by_cases hs : 2 ^ 31 ≤ b + s.code
    · rw [index_cell_over hs (hb s List.mem_cons_self)]
      exact Or.inl rfl
    · rw [index_cell (by omega), Except.ok_bind, readCheck]
      split
      · rw [Except.ok_bind]
        split
        · exact Or.inr rfl
        · refine ih (fun x hx => hb x (List.mem_cons_of_mem _ hx)) ?_
          obtain ⟨x, hx, hxover⟩ := hover
          rcases List.mem_cons.mp hx with rfl | hx
          · exact absurd hxover hs
          · exact ⟨x, hx, hxover⟩
      · exact Or.inl rfl

lemma markSiblingsInt_total {b : ℕ} {sibs : List TreeNode} :
    ∀ d : DatImpl α, (∀ s ∈ sibs, b + s.code < d.size) → d.size ≤ 2 ^ 31 →
      ∃ d', markSiblingsInt b sibs d = .ok d' := by
  induction sibs with
  | nil => exact fun d _ _ => ⟨d, rfl⟩
  | cons s sibs ih =>
    intro d hin hsize
    have hs := hin s List.mem_cons_self
    rw [markSiblingsInt, index_cell (by omega), Except.ok_bind, writeCheck, if_pos hs,
      Except.ok_bind]
    exact ih _ (fun x hx => hin x (List.mem_cons_of_mem _ hx)) hsize

/-! ## One round of the search -/

/-- The object after the first free cell has been seen. -/
def seen (d : DatImpl α) (first : Bool) (pos : ℕ) : DatImpl α :=
  if first then d else { d with nextCheckPos := pos }

@[simp] lemma seen_size (d : DatImpl α) (first : Bool) (pos : ℕ) :
    (d.seen first pos).size = d.size := by
  cases first <;> rfl

@[simp] lemma seen_check (d : DatImpl α) (first : Bool) (pos : ℕ) :
    (d.seen first pos).check = d.check := by
  cases first <;> rfl

@[simp] lemma seen_used (d : DatImpl α) (first : Bool) (pos : ℕ) :
    (d.seen first pos).used = d.used := by
  cases first <;> rfl

@[simp] lemma seen_growthFactor (d : DatImpl α) (first : Bool) (pos : ℕ) :
    (d.seen first pos).growthFactor = d.growthFactor := by
  cases first <;> rfl

section rounds

variable {rz : Resizer α} {sibs : List TreeNode} {f l n pos : ℕ} {first : Bool} {d e : DatImpl α}

lemma findBeginInt_end (hpos : d.size ≤ pos + 1) :
    findBeginInt rz sibs f l (n + 1) pos first d = .error .outOfBounds := by
  rw [findBeginInt, readCheck, if_neg (not_lt.mpr hpos)]
  rfl

lemma findBeginInt_taken (hpos : pos + 1 < d.size) (hc : d.check (pos + 1) ≠ 0) :
    findBeginInt rz sibs f l (n + 1) pos first d =
      findBeginInt rz sibs f l n (pos + 1) first { d with nonZeroNum := d.nonZeroNum + 1 } := by
  rw [findBeginInt, readCheck, if_pos hpos, Except.ok_bind, if_pos hc]

/-- A round of the loop from the first size check on, when the object is then `e`. -/
def roundFrom (rz : Resizer α) (sibs : List TreeNode) (f l n pos : ℕ) (e : DatImpl α) :
    Except Stop (ℕ × ℕ × DatImpl α) := do
  let u ← e.readUsed (pos - f)
  if u then findBeginInt rz sibs f l n pos true e
  else
    let e ← if (e.size : ℤ) < cell (pos - f) l then rz.double e else .ok e
    let tag ← e.anyTakenInt (pos - f) sibs
    if tag then findBeginInt rz sibs f l n pos true e else .ok (pos - f, pos, e)

/-- A free cell. -/
lemma findBeginInt_open (hpos : pos + 1 < d.size) (hc : d.check (pos + 1) = 0) :
    findBeginInt rz sibs f l (n + 1) pos first d =
      ((if ((d.seen first (pos + 1)).size : ℤ) ≤ cell (pos + 1 - f) l then
          rz.grow (d.seen first (pos + 1))
        else .ok (d.seen first (pos + 1))) >>= roundFrom rz sibs f l n (pos + 1)) := by
  rw [findBeginInt, readCheck, if_pos hpos, Except.ok_bind, if_neg (not_not.mpr hc), seen]
  generalize (if first = true then d else { d with nextCheckPos := pos + 1 }) = d₁
  by_cases hgrow : (d₁.size : ℤ) ≤ cell (pos + 1 - f) l
  · simp only [if_pos hgrow]
    refine congrArg _ (funext fun e => ?_)
    rw [roundFrom]
  · simp only [if_neg hgrow]
    refine congrArg _ (funext fun e => ?_)
    rw [roundFrom]

/-- A free cell at which the arrays are not grown, or are grown to `e`, and then have room for
the last sibling. -/
lemma findBeginInt_free (hpos : pos + 1 < d.size) (hc : d.check (pos + 1) = 0)
    (hgrow : (if ((d.seen first (pos + 1)).size : ℤ) ≤ cell (pos + 1 - f) l then
      rz.grow (d.seen first (pos + 1)) else .ok (d.seen first (pos + 1))) = .ok e)
    (hle : ∀ s ∈ sibs, s.code ≤ l) (hroom : pos + 1 - f + l < e.size) (hsize : e.size ≤ 2 ^ 31) :
    findBeginInt rz sibs f l (n + 1) pos first d =
      if e.used (pos + 1 - f) = true ∨ ∃ s ∈ sibs, e.check (pos + 1 - f + s.code) ≠ 0 then
        findBeginInt rz sibs f l n (pos + 1) true e
      else .ok (pos + 1 - f, pos + 1, e) := by
  have hdouble : ¬ (e.size : ℤ) < cell (pos + 1 - f) l := by
    rw [cell_of_lt (by omega)]
    omega
  have htag : e.anyTakenInt (pos + 1 - f) sibs =
      .ok (decide (∃ s ∈ sibs, e.check (pos + 1 - f + s.code) ≠ 0)) :=
    anyTakenInt_inside (fun s hs => by have := hle s hs; omega) hsize
  rw [findBeginInt_open hpos hc, hgrow, Except.ok_bind, roundFrom, readUsed,
    if_pos (by omega), Except.ok_bind]
  by_cases hu : e.used (pos + 1 - f) = true
  · simp [hu]
  · simp [hu, hdouble, htag]

/-- A free cell at which the arrays need not grow. -/
lemma findBeginInt_fits (hpos : pos + 1 < d.size) (hc : d.check (pos + 1) = 0)
    (hle : ∀ s ∈ sibs, s.code ≤ l) (hroom : pos + 1 - f + l < d.size) (hsize : d.size < 2 ^ 31) :
    findBeginInt rz sibs f l (n + 1) pos first d =
      if d.used (pos + 1 - f) = true ∨ ∃ s ∈ sibs, d.check (pos + 1 - f + s.code) ≠ 0 then
        findBeginInt rz sibs f l n (pos + 1) true (d.seen first (pos + 1))
      else .ok (pos + 1 - f, pos + 1, d.seen first (pos + 1)) := by
  have hgrow : ¬ ((d.seen first (pos + 1)).size : ℤ) ≤ cell (pos + 1 - f) l := by
    rw [cell_of_lt (by omega), seen_size]
    omega
  rw [findBeginInt_free hpos hc (if_neg hgrow) hle (by rwa [seen_size])
    (by rw [seen_size]; exact hsize.le), seen_used, seen_check]

/-- A free cell at which the sum of `begin` and the last code is no `int`. -/
lemma findBeginInt_over (hpos : pos + 1 < d.size) (hc : d.check (pos + 1) = 0)
    (hle : ∀ s ∈ sibs, s.code ≤ l) (hl : ∃ s ∈ sibs, s.code = l)
    (hover : 2 ^ 31 ≤ pos + 1 - f + l) (hlt : pos + 1 - f + l < 2 ^ 32) :
    findBeginInt rz sibs f l (n + 1) pos first d = .error .outOfBounds ∨
      findBeginInt rz sibs f l (n + 1) pos first d =
        findBeginInt rz sibs f l n (pos + 1) true (d.seen first (pos + 1)) := by
  have hneg := cell_of_ge hover hlt
  have hbegin : pos + 1 - f < (d.seen first (pos + 1)).size := by
    rw [seen_size]
    omega
  have hdouble : ¬ (d.size : ℤ) < cell (pos + 1 - f) l := by omega
  obtain ⟨last, hlast, rfl⟩ := hl
  have htag := anyTakenInt_over (d := d.seen first (pos + 1)) (b := pos + 1 - f)
    (fun s hs => by have := hle s hs; omega) ⟨last, hlast, hover⟩
  rw [findBeginInt_open hpos hc, if_neg (by omega), Except.ok_bind, roundFrom, readUsed,
    if_pos hbegin, Except.ok_bind]
  by_cases hu : (d.seen first (pos + 1)).used (pos + 1 - f) = true
  · right
    rw [if_pos hu]
  · rw [if_neg hu]
    rcases htag with htag | htag
    · left
      simp [hdouble, htag]
    · right
      simp [hdouble, htag]

/-- A free cell at which the arrays should grow and do not. -/
lemma findBeginInt_stop {stop : Stop} (hpos : pos + 1 < d.size) (hc : d.check (pos + 1) = 0)
    (hroom : (d.size : ℤ) ≤ cell (pos + 1 - f) l)
    (hgrow : rz.grow (d.seen first (pos + 1)) = .error stop) :
    findBeginInt rz sibs f l (n + 1) pos first d = .error stop := by
  rw [findBeginInt_open hpos hc, if_pos (by rwa [seen_size]), hgrow, Except.error_bind]

end rounds

/-! ## Runs without a resize -/

lemma anyTakenInt_eq {d : DatImpl α} {b : ℕ} {sibs : List TreeNode}
    (hb : ∀ s ∈ sibs, b + s.code < 2 ^ 31) : d.anyTakenInt b sibs = d.anyTaken b sibs := by
  induction sibs with
  | nil => rfl
  | cons s sibs ih =>
    rw [anyTakenInt, anyTaken, index_cell (hb s List.mem_cons_self), Except.ok_bind,
      ih fun x hx => hb x (List.mem_cons_of_mem _ hx)]
    cases d.readCheck (b + s.code) with
    | error e => rw [Except.error_bind]
    | ok c => rw [Except.ok_bind]

lemma markSiblingsInt_eq {b : ℕ} {sibs : List TreeNode} (hb : ∀ s ∈ sibs, b + s.code < 2 ^ 31) :
    ∀ d : DatImpl α, markSiblingsInt b sibs d = markSiblings b sibs d := by
  induction sibs with
  | nil => exact fun d => rfl
  | cons s sibs ih =>
    intro d
    rw [markSiblingsInt, markSiblings, index_cell (hb s List.mem_cons_self), Except.ok_bind]
    cases d.writeCheck (b + s.code) b with
    | error e => rw [Except.error_bind, Except.error_bind]
    | ok d' =>
      rw [Except.ok_bind, Except.ok_bind]
      exact ih (fun x hx => hb x (List.mem_cons_of_mem _ hx)) d'

/-- Where the arrays are not too large, the sums of the search are what they are as numbers. -/
lemma findBeginInt_noResize {sibs : List TreeNode} {f l : ℕ} (hle : ∀ s ∈ sibs, s.code ≤ l)
    (hl : l ≤ 65535) :
    ∀ (n pos : ℕ) (first : Bool) (d : DatImpl α), d.size + 65536 ≤ 2 ^ 31 →
      findBeginInt noResize sibs f l n pos first d = findBegin noResize sibs f l n pos first d := by
  intro n
  induction n with
  | zero => exact fun pos first d _ => rfl
  | succ n ih =>
    intro pos first d hsize
    rw [findBeginInt, findBegin, readCheck]
    by_cases hin : pos + 1 < d.size
    · rw [if_pos hin, Except.ok_bind, Except.ok_bind]
      by_cases hc : d.check (pos + 1) = 0
      · rw [if_neg (not_not.mpr hc), if_neg (not_not.mpr hc)]
        have hsize₁ : (d.seen first (pos + 1)).size = d.size := seen_size d first _
        rw [seen] at hsize₁
        generalize (if first = true then d else { d with nextCheckPos := pos + 1 }) = d₁
          at hsize₁ ⊢
        have hcell : cell (pos + 1 - f) l = (pos + 1 - f + l : ℕ) := cell_of_lt (by omega)
        have htag : d₁.anyTakenInt (pos + 1 - f) sibs = d₁.anyTaken (pos + 1 - f) sibs :=
          anyTakenInt_eq fun s hs => by have := hle s hs; omega
        by_cases hroom : l + (pos + 1 - f) ≥ d₁.size
        · simp only [if_pos hroom,
            if_pos (show (d₁.size : ℤ) ≤ cell (pos + 1 - f) l by rw [hcell]; omega), noResize,
            Except.error_bind]
        · simp only [if_neg hroom,
            if_neg (show ¬ (d₁.size : ℤ) ≤ cell (pos + 1 - f) l by rw [hcell]; omega),
            if_neg (show ¬ l + (pos + 1 - f) > d₁.size by omega),
            if_neg (show ¬ (d₁.size : ℤ) < cell (pos + 1 - f) l by rw [hcell]; omega),
            Except.ok_bind, htag, ih (pos + 1) true d₁ (by omega)]
      · rw [if_pos hc, if_pos hc]
        exact ih (pos + 1) first _ hsize
    · rw [if_neg hin, Except.error_bind, Except.error_bind]

/-- The last code is the greatest. -/
lemma code_le_of_asc {sibs : List TreeNode} (hasc : (sibs.map TreeNode.code).Pairwise (· < ·))
    {last : TreeNode} (hlast : sibs.getLast? = some last) {s : TreeNode} (hs : s ∈ sibs) :
    s.code ≤ last.code := by
  obtain ⟨init, rfl⟩ := List.getLast?_eq_some_iff.mp hlast
  rw [List.map_append, List.pairwise_append] at hasc
  rcases List.mem_append.mp hs with hs | hs
  · exact (hasc.2.2 s.code (List.mem_map_of_mem hs) last.code (by simp)).le
  · rw [List.mem_singleton.mp hs]

/-- Where the arrays are not too large and are not resized, the search and the placement are
those of `Sunet.Dat.Double`. -/
lemma placeInt_noResize {fuel : ℕ} {sibs : List TreeNode} {d : DatImpl α}
    (hsize : d.size + 65536 ≤ 2 ^ 31) (hasc : (sibs.map TreeNode.code).Pairwise (· < ·))
    (hcode : ∀ s ∈ sibs, s.code ≤ 65535) :
    placeInt noResize fuel sibs d = place noResize fuel sibs d := by
  rw [placeInt, place]
  cases hs : sibs.head? with
  | none => rfl
  | some s =>
    cases hlast : sibs.getLast? with
    | none => rfl
    | some last =>
      dsimp only
      have hle : ∀ x ∈ sibs, x.code ≤ last.code := fun x hx => code_le_of_asc hasc hlast hx
      rw [findBeginInt_noResize hle (hcode last (List.mem_of_mem_getLast? hlast)) fuel _ _
        { d with nonZeroNum := 0 } hsize]
      cases hfound : findBegin noResize sibs s.code last.code fuel
          (max (s.code + 1) d.nextCheckPos - 1) false { d with nonZeroNum := 0 } with
      | error e => rw [Except.error_bind, Except.error_bind]
      | ok r =>
        obtain ⟨b, pos, d'⟩ := r
        obtain ⟨hsame, -, hroom, -, -⟩ := findBegin_ok _ _ _ _ _ _ _ (by omega) hfound
        have hcells : ∀ x ∈ sibs, b + x.code < 2 ^ 31 := by
          intro x hx
          have := hle x hx
          dsimp only at hroom
          omega
        simp only [Except.ok_bind, markSiblingsInt_eq hcells]

/-! ## The new size -/

lemma growthFactor_ge (d : DatImpl α) : 21 / 20 ≤ d.growthFactor := by
  rw [growthFactor]
  split
  · exact le_rfl
  · next h => exact not_lt.mp h

/-- The new size has room for all codes behind every position of the arrays. -/
lemma le_newSize {toInt : ℚ → Option ℕ} (h : Rounds toInt) {d : DatImpl α}
    (hsize : 65536 * 32 ≤ d.size) {n : ℕ} (hn : toInt (d.size * d.growthFactor) = some n) :
    d.size + 65536 ≤ n := by
  have hmul : (d.size : ℚ) * (21 / 20) ≤ d.size * d.growthFactor :=
    mul_le_mul_of_nonneg_left d.growthFactor_ge (Nat.cast_nonneg _)
  have hlt : (21 * d.size : ℚ) < 20 * (n + 2) := by linarith [h.near _ n hn]
  have hlt' : 21 * d.size < 20 * (n + 2) := by exact_mod_cast hlt
  omega

/-- On memory that is full of ones, the search goes on behind arrays that have grown, and all
cells that are then before it are taken. -/
lemma findBeginInt_grown {toInt : ℚ → Option ℕ} (hr : Rounds toInt) {sibs : List TreeNode}
    {f l n pos m : ℕ} {first : Bool} {d : DatImpl α} (hf : ∃ s ∈ sibs, s.code = f)
    (hle : ∀ s ∈ sibs, s.code ≤ l) (hl : l ≤ 65535) (hsize : 65536 * 32 ≤ d.size) (hfpos : f ≤ pos)
    (hin : pos + 1 < d.size) (hc : d.check (pos + 1) = 0) (hroom : d.size ≤ pos + 1 - f + l)
    (hint : pos + 1 - f + l < 2 ^ 31) (hm : toInt (d.size * d.growthFactor) = some m) :
    findBeginInt (memoryResizer toInt fun _ => ones) sibs f l (n + 1) pos first d =
        findBeginInt (memoryResizer toInt fun _ => ones) sibs f l n (pos + 1) true
          ((d.seen first (pos + 1)).copyInto ones m) ∧
      ∀ p, pos < p → ((d.seen first (pos + 1)).copyInto ones m).check p ≠ 0 := by
  have hcheck : ∀ p, pos < p → ((d.seen first (pos + 1)).copyInto ones m).check p ≠ 0 := by
    intro p hp
    rw [copyInto_check (by rw [seen_size]; omega)]
    exact intAt_ones p
  have hgrow : (memoryResizer toInt fun _ => ones).grow (d.seen first (pos + 1)) =
      .ok ((d.seen first (pos + 1)).copyInto ones m) := by
    simp only [memoryResizer, seen_size, seen_growthFactor, hm]
  have hsize' := le_newSize hr hsize hm
  refine ⟨?_, hcheck⟩
  rw [findBeginInt_free (e := (d.seen first (pos + 1)).copyInto ones m) hin hc
    (by rw [if_pos (by rw [cell_of_lt hint, seen_size]; omega), hgrow]) hle
    (show pos + 1 - f + l < m by omega) (hr.lt _ m hm).le, if_pos]
  -- the cell of the first sibling
  obtain ⟨s, hs, rfl⟩ := hf
  refine Or.inr ⟨s, hs, ?_⟩
  rw [Nat.sub_add_cancel (by omega)]
  exact hcheck (pos + 1) (by omega)

/-! ## Searches that leave the arrays -/

/-- The search does not stop at the position `p` of the arrays as they are. -/
def Passed (d : DatImpl α) (sibs : List TreeNode) (f l p : ℕ) : Prop :=
  d.check p ≠ 0 ∨ d.used (p - f) = true ∨ (∃ s ∈ sibs, d.check (p - f + s.code) ≠ 0) ∨
    d.size ≤ p - f + l

/-- With memory that is full of ones, a search that passes all positions leaves the arrays, as
long as it is not stopped by a new size that is no `int`. -/
lemma findBeginInt_leaves {toInt : ℚ → Option ℕ} (hr : Rounds toInt) {sibs : List TreeNode}
    {f l : ℕ} (hf : ∃ s ∈ sibs, s.code = f) (hl : ∃ s ∈ sibs, s.code = l)
    (hle : ∀ s ∈ sibs, s.code ≤ l) (hl' : l ≤ 65535) :
    ∀ (n pos : ℕ) (first : Bool) (d : DatImpl α), 65536 * 32 ≤ d.size → d.size < 2 ^ 31 →
      f ≤ pos → pos < d.size → 2 ^ 31 ≤ pos + n →
      (∀ p, pos < p → p < d.size → Passed d sibs f l p) →
      (∀ p, pos < p → p < d.size → d.check p = 0 → d.size ≤ p - f + l → p - f + l < 2 ^ 31 →
        toInt (d.size * d.growthFactor) ≠ none) →
      findBeginInt (memoryResizer toInt fun _ => ones) sibs f l n pos first d =
        .error .outOfBounds := by
  intro n
  induction n with
  | zero =>
    intro pos first d _ hlt _ hpos hfuel
    omega
  | succ n ih =>
    intro pos first d hsize hlt hfpos hpos hfuel hpassed hgrows
    by_cases hin : pos + 1 < d.size
    · by_cases hc : d.check (pos + 1) = 0
      · have hround : findBeginInt (memoryResizer toInt fun _ => ones) sibs f l n (pos + 1) true
            (d.seen first (pos + 1)) = .error .outOfBounds :=
          ih (pos + 1) true _ (by simpa using hsize) (by simpa using hlt) (by omega)
            (by simpa using hin) (by omega)
            (fun p hp hp' => by simpa [Passed] using hpassed p (by omega) (by simpa using hp'))
            (fun p hp hp' => by simpa using hgrows p (by omega) (by simpa using hp'))
        rcases lt_or_ge (pos + 1 - f + l) d.size with hroom | hroom
        · -- the cells are in the arrays, and one of them is taken
          rw [findBeginInt_fits hin hc hle hroom hlt, if_pos, hround]
          rcases hpassed (pos + 1) (by omega) hin with h | h | h | h
          · exact absurd hc h
          · exact Or.inl h
          · exact Or.inr h
          · omega
        rcases lt_or_ge (pos + 1 - f + l) (2 ^ 31) with hint | hint
        · obtain ⟨m, hm⟩ := Option.ne_none_iff_exists'.mp
            (hgrows (pos + 1) (by omega) hin hc hroom hint)
          have hsize' := le_newSize hr hsize hm
          obtain ⟨hnext, hcheck⟩ :=
            findBeginInt_grown hr hf hle hl' hsize hfpos hin hc hroom hint hm
          rw [hnext]
          exact ih (pos + 1) true _ (show 65536 * 32 ≤ m by omega) (hr.lt _ m hm) (by omega)
            (show pos + 1 < m by omega) (by omega)
            (fun p hp _ => Or.inl (hcheck p (by omega)))
            (fun p hp _ hc' => absurd hc' (hcheck p (by omega)))
        · exact (findBeginInt_over hin hc hle hl hint (by omega)).elim (fun h => h)
            fun h => h.trans hround
      · rw [findBeginInt_taken hin hc]
        exact ih (pos + 1) first _ hsize hlt (by omega) hin (by omega)
          (fun p hp hp' => hpassed p (by omega) hp') (fun p hp hp' => hgrows p (by omega) hp')
    · exact findBeginInt_end (by omega)

/-! ## Searches that end in the arrays -/

/-- Behind `pos` there is a `begin` that is free, with free cells for the siblings. -/
def RoomFrom (d : DatImpl α) (sibs : List TreeNode) (f l pos : ℕ) : Prop :=
  ∃ b, pos < b + f ∧ b + l < d.size ∧ d.used b = false ∧ ∀ s ∈ sibs, d.check (b + s.code) = 0

/-- Behind `pos` there is a free cell at which the arrays should grow to a size that is no
`int`. -/
def RefusedFrom (toInt : ℚ → Option ℕ) (d : DatImpl α) (f l pos : ℕ) : Prop :=
  toInt (d.size * d.growthFactor) = none ∧
    ∃ p, pos < p ∧ p < d.size ∧ d.check p = 0 ∧ d.size ≤ p - f + l ∧ p - f + l < 2 ^ 31

lemma passed_of_not_roomFrom {d : DatImpl α} {sibs : List TreeNode} {f l pos p : ℕ}
    (h : ¬ d.RoomFrom sibs f l pos) (hp : pos < p) (hfp : f ≤ p) : Passed d sibs f l p := by
  by_contra hnot
  simp only [Passed, not_or, not_exists, not_and, not_not, not_le, Bool.not_eq_true] at hnot
  obtain ⟨-, hused, hcells, hlt⟩ := hnot
  exact h ⟨p - f, by omega, hlt, hused, hcells⟩

lemma RoomFrom.next {d : DatImpl α} {sibs : List TreeNode} {f l pos : ℕ}
    (h : d.RoomFrom sibs f l pos) (hf : ∃ s ∈ sibs, s.code = f)
    (hpassed : Passed d sibs f l (pos + 1)) : d.RoomFrom sibs f l (pos + 1) := by
  obtain ⟨b, hb, hlt, hused, hcells⟩ := h
  have hne : b + f ≠ pos + 1 := by
    intro heq
    obtain rfl : b = pos + 1 - f := by omega
    rcases hpassed with hc | hu | ⟨s, hs, hc⟩ | hge
    · obtain ⟨s, hs, rfl⟩ := hf
      exact hc (by rw [← heq]; exact hcells s hs)
    · rw [hused] at hu
      cases hu
    · exact hc (hcells s hs)
    · omega
  exact ⟨b, by omega, hlt, hused, hcells⟩

lemma RefusedFrom.next {toInt : ℚ → Option ℕ} {d : DatImpl α} {f l pos : ℕ}
    (h : RefusedFrom toInt d f l pos) (hpassed : d.check (pos + 1) ≠ 0 ∨ pos + 1 - f + l < d.size) :
    RefusedFrom toInt d f l (pos + 1) := by
  obtain ⟨hnone, p, hp, hlt, hfree, hge, hint⟩ := h
  have hne : p ≠ pos + 1 := by
    rintro rfl
    rcases hpassed with hc | hroom
    · exact hc hfree
    · omega
  exact ⟨hnone, p, by omega, hlt, hfree, hge, hint⟩

/-- Up to a place for the siblings, or to a size that is no `int`, the arrays are not resized. -/
lemma findBeginInt_inside {toInt : ℚ → Option ℕ} (fresh : ℕ → Blocks) {sibs : List TreeNode}
    {f l : ℕ} (hf : ∃ s ∈ sibs, s.code = f) (hle : ∀ s ∈ sibs, s.code ≤ l) :
    ∀ (n pos : ℕ) (first : Bool) (d : DatImpl α), d.size < 2 ^ 31 → f ≤ pos →
      d.RoomFrom sibs f l pos ∨ RefusedFrom toInt d f l pos →
      (∃ stop, findBeginInt (memoryResizer toInt fresh) sibs f l n pos first d = .error stop ∧
          stop ≠ .outOfBounds) ∨
        ∃ b pos' d', findBeginInt (memoryResizer toInt fresh) sibs f l n pos first d =
          .ok (b, pos', d') ∧ b + l < d'.size ∧ d'.size < 2 ^ 31 := by
  intro n
  induction n with
  | zero => exact fun pos first d _ _ _ => Or.inl ⟨.fuel, rfl, by decide⟩
  | succ n ih =>
    intro pos first d hsize hfpos h
    have hfl : f ≤ l := by
      obtain ⟨s, hs, rfl⟩ := hf
      exact hle s hs
    have hin : pos + 1 < d.size := by
      rcases h with ⟨b, hb, hlt, -, -⟩ | ⟨-, p, hp, hlt, -, -, -⟩
      · omega
      · omega
    by_cases hc : d.check (pos + 1) = 0
    · rcases lt_or_ge (pos + 1 - f + l) d.size with hroom | hroom
      · rw [findBeginInt_fits hin hc hle hroom hsize]
        split
        · next htaken =>
          have hnext : d.RoomFrom sibs f l (pos + 1) ∨ RefusedFrom toInt d f l (pos + 1) :=
            h.imp (fun h => h.next hf (htaken.elim (fun hu => .inr (.inl hu))
              fun hs => .inr (.inr (.inl hs)))) fun h => h.next (Or.inr hroom)
          exact ih (pos + 1) true _ (by simpa using hsize) (by omega)
            (by simpa [RoomFrom, RefusedFrom] using hnext)
        · exact Or.inr ⟨_, _, _, rfl, by simpa using hroom, by simpa using hsize⟩
      · rcases h with ⟨b, hb, hlt, -, -⟩ | ⟨hnone, p, hp, -, -, -, hint⟩
        · omega
        · refine Or.inl ⟨.resize, findBeginInt_stop hin hc ?_ ?_, by decide⟩
          · rw [cell_of_lt (by omega)]
            omega
          · simp only [memoryResizer, seen_size, seen_growthFactor, hnone]
    · rw [findBeginInt_taken hin hc]
      exact ih (pos + 1) first _ hsize (by omega)
        (h.imp (fun h => h.next hf (.inl hc)) fun h => h.next (.inl hc))

/-! ## The search and the placement -/

/-- `siblings[0]->code`. -/
def firstCode (siblings : List TreeNode) : ℕ := siblings.head?.elim 0 TreeNode.code

/-- `siblings.back()->code`. -/
def lastCode (siblings : List TreeNode) : ℕ := siblings.getLast?.elim 0 TreeNode.code

/-- `pos` before the loop. -/
def startPos (d : DatImpl α) (siblings : List TreeNode) : ℕ :=
  max (firstCode siblings + 1) d.nextCheckPos - 1

/-- The siblings find room in the arrays as they are. -/
def Room (d : DatImpl α) (sibs : List TreeNode) : Prop :=
  d.RoomFrom sibs (firstCode sibs) (lastCode sibs) (d.startPos sibs)

/-- The search comes to a growth of the arrays that fails. -/
def Refused (toInt : ℚ → Option ℕ) (d : DatImpl α) (sibs : List TreeNode) : Prop :=
  RefusedFrom toInt d (firstCode sibs) (lastCode sibs) (d.startPos sibs)

lemma firstCode_mem {sibs : List TreeNode} (hne : sibs ≠ []) :
    ∃ s ∈ sibs, s.code = firstCode sibs := by
  cases sibs with
  | nil => exact absurd rfl hne
  | cons s sibs => exact ⟨s, List.mem_cons_self, rfl⟩

lemma lastCode_mem {sibs : List TreeNode} (hne : sibs ≠ []) :
    ∃ s ∈ sibs, s.code = lastCode sibs := by
  rcases List.eq_nil_or_concat' sibs with rfl | ⟨init, last, rfl⟩
  · exact absurd rfl hne
  · exact ⟨last, by simp, by simp [lastCode]⟩

lemma code_le_lastCode {sibs : List TreeNode} (hasc : (sibs.map TreeNode.code).Pairwise (· < ·))
    {s : TreeNode} (hs : s ∈ sibs) : s.code ≤ lastCode sibs := by
  cases hlast : sibs.getLast? with
  | none =>
    rw [List.getLast?_eq_none_iff] at hlast
    rw [hlast] at hs
    cases hs
  | some last =>
    rw [lastCode, hlast]
    exact code_le_of_asc hasc hlast hs

lemma placeInt_eq {rz : Resizer α} {fuel : ℕ} {sibs : List TreeNode} (hne : sibs ≠ [])
    (d : DatImpl α) : placeInt rz fuel sibs d =
      (findBeginInt rz sibs (firstCode sibs) (lastCode sibs) fuel (d.startPos sibs) false
        { d with nonZeroNum := 0 } >>= fun r => do
          let d ← r.2.2.writeUsed r.1
          let d ← markSiblingsInt r.1 sibs
            (if 19 * (r.2.1 - d.nextCheckPos + 1) ≤ 20 * d.nonZeroNum then
              { d with nextCheckPos := r.2.1 } else d)
          .ok (r.1, d)) := by
  cases sibs with
  | nil => exact absurd rfl hne
  | cons s sibs =>
    rw [placeInt, List.head?_cons, List.getLast?_eq_some_getLast (List.cons_ne_nil s sibs)]
    rw [lastCode, List.getLast?_eq_some_getLast (List.cons_ne_nil s sibs)]
    rfl

/-- Where the search has found a place inside the arrays, the placement stays inside them. -/
lemma placeInt_of_found {rz : Resizer α} {fuel b pos : ℕ} {sibs : List TreeNode} {d d₁ : DatImpl α}
    (hne : sibs ≠ []) (hle : ∀ s ∈ sibs, s.code ≤ lastCode sibs)
    (hfind : findBeginInt rz sibs (firstCode sibs) (lastCode sibs) fuel (d.startPos sibs) false
      { d with nonZeroNum := 0 } = .ok (b, pos, d₁))
    (hroom : b + lastCode sibs < d₁.size) (hsize : d₁.size < 2 ^ 31) :
    ∃ d', placeInt rz fuel sibs d = .ok (b, d') := by
  rw [placeInt_eq hne, hfind, Except.ok_bind, writeUsed, if_pos (show b < d₁.size by omega),
    Except.ok_bind]
  obtain ⟨d₂, hmark⟩ : ∃ d₂, markSiblingsInt b sibs
      (if 19 * (pos - d₁.nextCheckPos + 1) ≤ 20 * d₁.nonZeroNum then
        { d₁ with used := Function.update d₁.used b true, nextCheckPos := pos }
      else { d₁ with used := Function.update d₁.used b true }) = .ok d₂ :=
    markSiblingsInt_total _ (fun s hs => by have := hle s hs; split <;> (dsimp only; omega))
      (by split <;> exact hsize.le)
  dsimp only
  rw [hmark]
  exact ⟨d₂, rfl⟩

lemma firstCode_le_startPos (d : DatImpl α) (sibs : List TreeNode) :
    firstCode sibs ≤ d.startPos sibs := by
  rw [startPos]
  omega

lemma startPos_lt {d : DatImpl α} {sibs : List TreeNode} (hfirst : firstCode sibs < d.size)
    (hnext : d.nextCheckPos < d.size) : d.startPos sibs < d.size := by
  rw [startPos]
  omega

/-- **Where an insertion stays inside the arrays.**  The search and the placement use no index
outside the arrays, whatever the new memory contains, exactly if the siblings find room in the
arrays as they are, or the search comes to a growth that fails. -/
theorem place_inside_iff {toInt : ℚ → Option ℕ} (hr : Rounds toInt) {d : DatImpl α}
    (hsize : 65536 * 32 ≤ d.size) (hint : d.size < 2 ^ 31) (hnext : d.nextCheckPos < d.size)
    {sibs : List TreeNode} (hne : sibs ≠ []) (hasc : (sibs.map TreeNode.code).Pairwise (· < ·))
    (hcode : ∀ s ∈ sibs, s.code ≤ 65535) :
    (∀ fresh fuel, placeInt (memoryResizer toInt fresh) fuel sibs d ≠ .error .outOfBounds) ↔
      Room d sibs ∨ Refused toInt d sibs := by
  have hfirst := firstCode_mem hne
  have hlast := lastCode_mem hne
  have hle : ∀ s ∈ sibs, s.code ≤ lastCode sibs := fun s hs => code_le_lastCode hasc hs
  have hle' : firstCode sibs ≤ 65535 ∧ lastCode sibs ≤ 65535 := by
    obtain ⟨s, hs, hs'⟩ := hfirst
    obtain ⟨t, ht, ht'⟩ := hlast
    exact ⟨hs' ▸ hcode s hs, ht' ▸ hcode t ht⟩
  have hstart := firstCode_le_startPos d sibs
  have hstart' : d.startPos sibs < d.size := startPos_lt (by omega) hnext
  constructor
  · intro hinside
    by_contra hnot
    rw [not_or] at hnot
    refine hinside (fun _ => ones) (2 ^ 31) ?_
    rw [placeInt_eq hne, findBeginInt_leaves hr hfirst hlast hle hle'.2 (2 ^ 31) (d.startPos sibs)
      false { d with nonZeroNum := 0 } hsize hint hstart hstart' (by omega)
      (fun p hp _ => passed_of_not_roomFrom hnot.1 hp (by omega))
      (fun p hp hp' hc hge hlt hnone => hnot.2 ⟨hnone, p, hp, hp', hc, hge, hlt⟩)]
    rfl
  · intro hcond fresh fuel hout
    rcases findBeginInt_inside fresh hfirst hle fuel (d.startPos sibs) false
      { d with nonZeroNum := 0 } hint hstart hcond with
      ⟨stop, hstop, hbounds⟩ | ⟨b, pos, d₁, hfind, hroom, hsize₁⟩
    · rw [placeInt_eq hne, hstop] at hout
      cases hout
      exact hbounds rfl
    · obtain ⟨d', hplace⟩ := placeInt_of_found hne hle hfind hroom hsize₁
      rw [hplace] at hout
      cases hout

/-- The conversion that rounds nothing but the fraction away. -/
def truncInt (q : ℚ) : Option ℕ := if q < 2 ^ 31 then some ⌊q⌋₊ else none

lemma rounds_truncInt : Rounds truncInt where
  near q n h := by
    rw [truncInt, Option.ite_none_right_eq_some] at h
    obtain ⟨-, h⟩ := h
    cases h
    linarith [Nat.lt_floor_add_one q]
  lt q n h := by
    rw [truncInt, Option.ite_none_right_eq_some] at h
    obtain ⟨hq, h⟩ := h
    cases h
    exact (Nat.floor_lt' (by norm_num)).mpr (by exact_mod_cast hq)

/-- The arrays of the constructor, and one sibling with the code 5. -/
theorem place_inside_iff_new :
    Room (new (65536 * 32) 0 : DatImpl ℤ) [⟨1, 0, 1, 5⟩] ∧
      ∀ fresh fuel, placeInt (memoryResizer truncInt fresh) fuel [⟨1, 0, 1, 5⟩]
        (new (65536 * 32) 0 : DatImpl ℤ) ≠ .error .outOfBounds := by
  have hroom : Room (new (65536 * 32) 0 : DatImpl ℤ) [⟨1, 0, 1, 5⟩] :=
    ⟨1, by decide, by decide, rfl, fun _ _ => rfl⟩
  exact ⟨hroom, (place_inside_iff rounds_truncInt (by decide) (by decide) (by decide) (by decide)
    (by decide) (by decide)).mpr (Or.inl hroom)⟩

/-- The last cell is taken, and the search starts there. -/
theorem not_place_inside : ¬ ∀ toInt : ℚ → Option ℕ, Rounds toInt →
    ∀ (d : DatImpl ℤ) (sibs : List TreeNode), 65536 * 32 ≤ d.size → d.size < 2 ^ 31 →
      d.nextCheckPos < d.size → sibs ≠ [] → (sibs.map TreeNode.code).Pairwise (· < ·) →
      (∀ s ∈ sibs, s.code ≤ 65535) → ∀ fresh fuel,
        placeInt (memoryResizer toInt fresh) fuel sibs d ≠ .error .outOfBounds := by
  intro h
  let d : DatImpl ℤ := { new (65536 * 32) 0 with
    check := Function.update (fun _ => 0) 2097151 2097151
    used := Function.update (fun _ => false) 2097151 true
    nextCheckPos := 2097151 }
  refine h truncInt rounds_truncInt d [⟨1, 0, 1, 0⟩] (by decide) (by decide) (by decide)
    (by decide) (by decide) (by decide) (fun _ => ones) 2 ?_
  rw [placeInt_eq (by decide)]
  have hstart : d.startPos [⟨1, 0, 1, 0⟩] = 2097150 := rfl
  have htaken : ({ d with nonZeroNum := 0 } : DatImpl ℤ).check (2097150 + 1) ≠ 0 := by
    show Function.update (fun _ => (0 : ℤ)) 2097151 2097151 2097151 ≠ 0
    rw [Function.update_self]
    decide
  rw [hstart, findBeginInt_taken (by decide) htaken, findBeginInt_end (by decide)]
  rfl

end DatImpl
end Dat
end Sunet
