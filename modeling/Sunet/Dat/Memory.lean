/-
# The arrays of the double array in memory

`Sunet.Dat.Double` takes the arrays of `DatImpl` as functions that are 0 where nothing was
written.  The model here has them as blocks of bytes, as the constructor and the two `resize`
functions leave them: `memset` is given the size of a pointer and `memcpy` the number of
elements, where each wants a number of bytes.  The results say on which memory the arrays are
nevertheless what they should be.
-/
import Sunet.Dat.Double
import Sunet.Util.Numeral

namespace Sunet
namespace Dat

/-! ## Blocks of bytes -/

/-- A block of memory, by the byte. -/
abbrev Block := ℕ → Byte

/-- `memset`. -/
def memset (b : Block) (v : Byte) (n : ℕ) : Block := fun j => if j < n then v else b j

/-- `memcpy`. -/
def memcpy (dst src : Block) (n : ℕ) : Block := fun j => if j < n then src j else dst j

/-- The number in the four bytes of an `int`, the lowest first. -/
def wordAt (b : Block) (i : ℕ) : ℕ :=
  (b (4 * i)).toNat + 2 ^ 8 * (b (4 * i + 1)).toNat + 2 ^ 16 * (b (4 * i + 2)).toNat +
    2 ^ 24 * (b (4 * i + 3)).toNat

/-- An element of an array of `int`. -/
def intAt (b : Block) (i : ℕ) : ℤ := wrapInt (wordAt b i)

/-- An element of an array of `bool`. -/
def boolAt (b : Block) (i : ℕ) : Bool := b i != 0

/-! ## The arrays -/

/-- Three blocks as `new` returns them. -/
structure Blocks where
  base : Block
  check : Block
  used : Block

/-- `_base`, `_check` and `_used` in memory, and `_size`. -/
structure Arrays extends Blocks where
  size : ℕ

namespace Arrays

/-- `sizeof` of a pointer. -/
def sizeofPtr : ℕ := 8

/-- The constructor of `DatImpl`. -/
def new (fresh : Blocks) : Arrays where
  base := memset fresh.base 0 sizeofPtr
  check := memset fresh.check 0 sizeofPtr
  used := memset fresh.used 0 sizeofPtr
  size := 65536 * 32

/-- What both `resize` functions do with the new blocks. -/
def copyInto (a : Arrays) (fresh : Blocks) (newSize : ℕ) : Arrays where
  base := memcpy fresh.base a.base a.size
  check := memcpy fresh.check a.check a.size
  used := memcpy fresh.used a.used a.size
  size := newSize

/-- `resize(new_size)`. -/
def resizeTo (a : Arrays) (fresh : Blocks) (newSize : ℕ) : Arrays := a.copyInto fresh newSize

/-- `resize()`, or `none` where twice the size is no `int`. -/
def resize (a : Arrays) (fresh : Blocks) : Option Arrays :=
  if a.size * 2 < 2 ^ 31 then some (a.copyInto fresh (a.size * 2)) else none

/-- The elements from `lo` on are 0, 0 and `false`. -/
def ClearFrom (a : Arrays) (lo : ℕ) : Prop :=
  ∀ i, lo ≤ i → i < a.size → intAt a.base i = 0 ∧ intAt a.check i = 0 ∧ boolAt a.used i = false

/-- The elements of `a` are those of `a'`. -/
def KeptIn (a a' : Arrays) : Prop :=
  ∀ i < a.size, intAt a'.base i = intAt a.base i ∧ intAt a'.check i = intAt a.check i ∧
    boolAt a'.used i = boolAt a.used i

/-- The new blocks are 0 behind the bytes that the constructor sets. -/
def ClearBehind (fresh : Blocks) (size : ℕ) : Prop :=
  (∀ j, sizeofPtr ≤ j → j < 4 * size → fresh.base j = 0 ∧ fresh.check j = 0) ∧
    ∀ j, sizeofPtr ≤ j → j < size → fresh.used j = 0

/-- The new blocks agree with the arrays where these have bytes that are not copied, and are
0 behind them. -/
def Continues (fresh : Blocks) (a : Arrays) (newSize : ℕ) : Prop :=
  (∀ j, a.size ≤ j → j < 4 * a.size → fresh.base j = a.base j ∧ fresh.check j = a.check j) ∧
    (∀ j, 4 * a.size ≤ j → j < 4 * newSize → fresh.base j = 0 ∧ fresh.check j = 0) ∧
    ∀ j, a.size ≤ j → j < newSize → fresh.used j = 0

end Arrays

/-! ## Elements and bytes -/

lemma wordAt_lt (b : Block) (i : ℕ) : wordAt b i < 2 ^ 32 := by
  have h₀ := (b (4 * i)).toNat_lt
  have h₁ := (b (4 * i + 1)).toNat_lt
  have h₂ := (b (4 * i + 2)).toNat_lt
  have h₃ := (b (4 * i + 3)).toNat_lt
  rw [wordAt]
  omega

/-- The bytes of a number below 2^32. -/
lemma bytes_eq_of_wordAt_eq {b b' : Block} {i : ℕ} (h : wordAt b i = wordAt b' i) :
    b (4 * i) = b' (4 * i) ∧ b (4 * i + 1) = b' (4 * i + 1) ∧ b (4 * i + 2) = b' (4 * i + 2) ∧
      b (4 * i + 3) = b' (4 * i + 3) := by
  have hlt : ∀ (c : Block) j, (c j).toNat < 2 ^ 8 := fun c j => (c j).toNat_lt
  have h₀ := hlt b (4 * i)
  have h₁ := hlt b (4 * i + 1)
  have h₂ := hlt b (4 * i + 2)
  have h₃ := hlt b (4 * i + 3)
  have h₀' := hlt b' (4 * i)
  have h₁' := hlt b' (4 * i + 1)
  have h₂' := hlt b' (4 * i + 2)
  have h₃' := hlt b' (4 * i + 3)
  rw [wordAt, wordAt] at h
  simp only [← UInt8.toNat_inj]
  omega

/-- Elements are equal exactly if their bytes are. -/
lemma intAt_eq_iff {b b' : Block} {i : ℕ} :
    intAt b i = intAt b' i ↔ ∀ j, 4 * i ≤ j → j < 4 * i + 4 → b j = b' j := by
  constructor
  · intro h j hlow hhigh
    obtain ⟨k, hk⟩ := wrapInt_eq_sub (wordAt b i)
    obtain ⟨k', hk'⟩ := wrapInt_eq_sub (wordAt b' i)
    have hlt := wordAt_lt b i
    have hlt' := wordAt_lt b' i
    have hword : wordAt b i = wordAt b' i := by
      rw [intAt, intAt, hk, hk'] at h
      omega
    obtain ⟨h₀, h₁, h₂, h₃⟩ := bytes_eq_of_wordAt_eq hword
    have hj : j = 4 * i ∨ j = 4 * i + 1 ∨ j = 4 * i + 2 ∨ j = 4 * i + 3 := by omega
    rcases hj with rfl | rfl | rfl | rfl
    · exact h₀
    · exact h₁
    · exact h₂
    · exact h₃
  · intro h
    have h₀ := h (4 * i) (by omega) (by omega)
    have h₁ := h (4 * i + 1) (by omega) (by omega)
    have h₂ := h (4 * i + 2) (by omega) (by omega)
    have h₃ := h (4 * i + 3) (by omega) (by omega)
    rw [intAt, intAt, wordAt, wordAt, h₀, h₁, h₂, h₃]

/-- A range of elements is equal exactly if the range of their bytes is. -/
lemma intAt_eq_range_iff {b b' : Block} {lo hi : ℕ} :
    (∀ i, lo ≤ i → i < hi → intAt b i = intAt b' i) ↔
      ∀ j, 4 * lo ≤ j → j < 4 * hi → b j = b' j := by
  constructor
  · intro h j hlow hhigh
    have hdiv := Nat.div_add_mod j 4
    have hmod := Nat.mod_lt j (by omega : 0 < 4)
    exact intAt_eq_iff.mp (h (j / 4) (by omega) (by omega)) j (by omega) (by omega)
  · intro h i hlow hhigh
    exact intAt_eq_iff.mpr fun j hj hj' => h j (by omega) (by omega)

lemma intAt_zero (i : ℕ) : intAt (fun _ => 0) i = 0 := by
  simp [intAt, wordAt, wrapInt]

/-- A range of elements is 0 exactly if the range of their bytes is. -/
lemma intAt_zero_range_iff {b : Block} {lo hi : ℕ} :
    (∀ i, lo ≤ i → i < hi → intAt b i = 0) ↔ ∀ j, 4 * lo ≤ j → j < 4 * hi → b j = 0 := by
  have hiff : (∀ i, lo ≤ i → i < hi → intAt b i = intAt (fun _ => 0) i) ↔ _ := intAt_eq_range_iff
  simpa only [intAt_zero] using hiff

lemma boolAt_eq_false_iff {b : Block} {i : ℕ} : boolAt b i = false ↔ b i = 0 := by
  simp [boolAt]

namespace Arrays

lemma clearFrom_iff {a : Arrays} {lo : ℕ} :
    a.ClearFrom lo ↔ (∀ j, 4 * lo ≤ j → j < 4 * a.size → a.base j = 0) ∧
      (∀ j, 4 * lo ≤ j → j < 4 * a.size → a.check j = 0) ∧
      ∀ j, lo ≤ j → j < a.size → a.used j = 0 := by
  rw [← intAt_zero_range_iff, ← intAt_zero_range_iff]
  constructor
  · intro h
    exact ⟨fun i hlow hhigh => (h i hlow hhigh).1, fun i hlow hhigh => (h i hlow hhigh).2.1,
      fun i hlow hhigh => boolAt_eq_false_iff.mp (h i hlow hhigh).2.2⟩
  · rintro ⟨hbase, hcheck, hused⟩ i hlow hhigh
    exact ⟨hbase i hlow hhigh, hcheck i hlow hhigh, boolAt_eq_false_iff.mpr (hused i hlow hhigh)⟩

/-- The constructor. -/
lemma clearFrom_new_iff (fresh : Blocks) :
    (new fresh).ClearFrom 0 ↔ ClearBehind fresh (new fresh).size := by
  have hset : ∀ (b : Block) (n : ℕ), (∀ j, 0 ≤ j → j < n → memset b 0 sizeofPtr j = 0) ↔
      ∀ j, sizeofPtr ≤ j → j < n → b j = 0 := by
    intro b n
    constructor
    · intro h j hlow hhigh
      have hj := h j (Nat.zero_le j) hhigh
      rwa [memset, if_neg (by omega)] at hj
    · intro h j _ hhigh
      rw [memset]
      split
      · rfl
      · exact h j (by omega) hhigh
  rw [clearFrom_iff, Nat.mul_zero]
  refine (and_congr (hset _ _) (and_congr (hset _ _) (hset _ _))).trans ?_
  constructor
  · rintro ⟨hbase, hcheck, hused⟩
    exact ⟨fun j hlow hhigh => ⟨hbase j hlow hhigh, hcheck j hlow hhigh⟩, hused⟩
  · rintro ⟨hints, hused⟩
    exact ⟨fun j hlow hhigh => (hints j hlow hhigh).1, fun j hlow hhigh => (hints j hlow hhigh).2,
      hused⟩

/-- The copy of the first bytes, as the bytes behind them see it. -/
lemma memcpy_eq_iff {dst : Block} (src other : Block) {n lo hi : ℕ} (hlo : n ≤ lo) :
    (∀ j, lo ≤ j → j < hi → memcpy dst src n j = other j) ↔
      ∀ j, lo ≤ j → j < hi → dst j = other j := by
  refine forall_congr' fun j => forall_congr' fun hlow => forall_congr' fun _ => ?_
  rw [memcpy, if_neg (by omega)]

lemma intAt_memcpy_iff {dst src : Block} {n : ℕ} :
    (∀ i < n, intAt (memcpy dst src n) i = intAt src i) ↔
      ∀ j, n ≤ j → j < 4 * n → dst j = src j := by
  rw [← memcpy_eq_iff src _ le_rfl]
  constructor
  · intro h j hlow hhigh
    exact intAt_eq_range_iff.mp (fun i _ hi => h i hi) j (by omega : 4 * 0 ≤ j) hhigh
  · intro h i hi
    refine intAt_eq_range_iff.mpr (fun j _ hhigh => ?_) i (Nat.zero_le i) hi
    by_cases hj : j < n
    · rw [memcpy, if_pos hj]
    · exact h j (by omega) hhigh

/-- Both `resize` functions. -/
lemma copyInto_iff (a : Arrays) (fresh : Blocks) (newSize : ℕ) :
    a.KeptIn (a.copyInto fresh newSize) ∧ (a.copyInto fresh newSize).ClearFrom a.size ↔
      Continues fresh a newSize := by
  have hused : ∀ i < a.size, boolAt (memcpy fresh.used a.used a.size) i = boolAt a.used i := by
    intro i hi
    rw [boolAt, memcpy, if_pos hi, boolAt]
  have hkept : a.KeptIn (a.copyInto fresh newSize) ↔
      (∀ j, a.size ≤ j → j < 4 * a.size → fresh.base j = a.base j) ∧
        ∀ j, a.size ≤ j → j < 4 * a.size → fresh.check j = a.check j := by
    rw [← intAt_memcpy_iff, ← intAt_memcpy_iff]
    constructor
    · intro h
      exact ⟨fun i hi => (h i hi).1, fun i hi => (h i hi).2.1⟩
    · rintro ⟨hbase, hcheck⟩ i hi
      exact ⟨hbase i hi, hcheck i hi, hused i hi⟩
  have hclear : (a.copyInto fresh newSize).ClearFrom a.size ↔
      (∀ j, 4 * a.size ≤ j → j < 4 * newSize → fresh.base j = 0) ∧
        (∀ j, 4 * a.size ≤ j → j < 4 * newSize → fresh.check j = 0) ∧
        ∀ j, a.size ≤ j → j < newSize → fresh.used j = 0 := by
    have hfour : a.size ≤ 4 * a.size := by omega
    rw [clearFrom_iff]
    exact and_congr (memcpy_eq_iff _ (fun _ => 0) hfour)
      (and_congr (memcpy_eq_iff _ (fun _ => 0) hfour)
        (memcpy_eq_iff _ (fun _ => 0) le_rfl))
  rw [hkept, hclear]
  constructor
  · rintro ⟨⟨hbase, hcheck⟩, hbase', hcheck', hused'⟩
    exact ⟨fun j hlow hhigh => ⟨hbase j hlow hhigh, hcheck j hlow hhigh⟩,
      fun j hlow hhigh => ⟨hbase' j hlow hhigh, hcheck' j hlow hhigh⟩, hused'⟩
  · rintro ⟨hold, hnew, hused'⟩
    exact ⟨⟨fun j hlow hhigh => (hold j hlow hhigh).1, fun j hlow hhigh => (hold j hlow hhigh).2⟩,
      fun j hlow hhigh => (hnew j hlow hhigh).1, fun j hlow hhigh => (hnew j hlow hhigh).2, hused'⟩

/-- **The arrays in memory.**  The constructor leaves all elements 0 exactly if the new blocks
are 0 behind their first eight bytes; `resize` to a size that is not smaller keeps the
elements and adds such that are 0 exactly if the new blocks continue the old ones; and the
doubling does exactly if they do and twice the size is an `int`. -/
theorem arrays_iff (fresh : Blocks) :
    ((new fresh).ClearFrom 0 ↔ ClearBehind fresh (new fresh).size) ∧
      ∀ a : Arrays,
        (∀ more, a.KeptIn (a.resizeTo fresh (a.size + more)) ∧
            (a.resizeTo fresh (a.size + more)).ClearFrom a.size ↔
          Continues fresh a (a.size + more)) ∧
        ((∃ a', a.resize fresh = some a' ∧ a'.size = a.size * 2 ∧ a.KeptIn a' ∧
            a'.ClearFrom a.size) ↔
          a.size * 2 < 2 ^ 31 ∧ Continues fresh a (a.size * 2)) := by
  refine ⟨clearFrom_new_iff fresh, fun a => ⟨fun more => ?_, ?_⟩⟩
  · exact copyInto_iff a fresh (a.size + more)
  · have hiff := copyInto_iff a fresh (a.size * 2)
    constructor
    · rintro ⟨a', hresize, -, hkept, hclear⟩
      rw [resize] at hresize
      split at hresize
      · next hfit =>
        cases hresize
        exact ⟨hfit, hiff.mp ⟨hkept, hclear⟩⟩
      · cases hresize
    · rintro ⟨hfit, hcontinues⟩
      obtain ⟨hkept, hclear⟩ := hiff.mpr hcontinues
      exact ⟨_, if_pos hfit, rfl, hkept, hclear⟩

/-- Memory that is full of the byte 1. -/
theorem not_arrays : ¬ ∀ fresh : Blocks, (new fresh).ClearFrom 0 ∧
    ∀ (a : Arrays) (newSize : ℕ), a.size ≤ newSize → a.KeptIn (a.resizeTo fresh newSize) := by
  intro h
  have hbase := ((h ⟨fun _ => 1, fun _ => 1, fun _ => 1⟩).1 2 (by omega) (by decide)).1
  revert hbase
  decide

/-! ## The arrays as functions -/

variable {α : Type}

/-- The arrays of an object of `Sunet.Dat.Double`. -/
def Represents (a : Arrays) (d : DatImpl α) : Prop :=
  d.size = a.size ∧ ∀ i < a.size, intAt a.base i = d.base i ∧ intAt a.check i = d.check i ∧
    boolAt a.used i = d.used i

/-- The constructor makes the object that the model starts from exactly on clear memory. -/
theorem represents_new_iff (fresh : Blocks) (unset : ℕ) :
    (new fresh).Represents (DatImpl.new (new fresh).size unset : DatImpl α) ↔
      ClearBehind fresh (new fresh).size := by
  rw [← clearFrom_new_iff]
  constructor
  · rintro ⟨-, h⟩ i _ hi
    exact h i hi
  · intro h
    exact ⟨rfl, fun i hi => h i (Nat.zero_le i) hi⟩

/-- An object that is 0 behind its arrays is represented after `resize` as it is exactly if
the new blocks continue the old ones. -/
theorem represents_resizeTo_iff {a : Arrays} {d : DatImpl α} (h : a.Represents d)
    (hclear : ∀ i, a.size ≤ i → d.base i = 0 ∧ d.check i = 0 ∧ d.used i = false)
    (fresh : Blocks) (more : ℕ) :
    (a.resizeTo fresh (a.size + more)).Represents { d with size := a.size + more } ↔
      Continues fresh a (a.size + more) := by
  rw [← copyInto_iff]
  constructor
  · rintro ⟨-, hnew⟩
    refine ⟨fun i hi => ?_, fun i hlow hi => ?_⟩
    · obtain ⟨hbase, hcheck, hused⟩ := h.2 i hi
      obtain ⟨hbase', hcheck', hused'⟩ := hnew i (Nat.lt_add_right _ hi)
      exact ⟨hbase'.trans hbase.symm, hcheck'.trans hcheck.symm, hused'.trans hused.symm⟩
    · obtain ⟨hbase, hcheck, hused⟩ := hclear i hlow
      obtain ⟨hbase', hcheck', hused'⟩ := hnew i hi
      exact ⟨hbase'.trans hbase, hcheck'.trans hcheck, hused'.trans hused⟩
  · rintro ⟨hkept, hnew⟩
    refine ⟨rfl, fun i hi => ?_⟩
    by_cases hold : i < a.size
    · obtain ⟨hbase, hcheck, hused⟩ := h.2 i hold
      obtain ⟨hbase', hcheck', hused'⟩ := hkept i hold
      exact ⟨hbase'.trans hbase, hcheck'.trans hcheck, hused'.trans hused⟩
    · obtain ⟨hbase, hcheck, hused⟩ := hclear i (not_lt.mp hold)
      obtain ⟨hbase', hcheck', hused'⟩ := hnew i (not_lt.mp hold) hi
      exact ⟨hbase'.trans hbase.symm, hcheck'.trans hcheck.symm, hused'.trans hused.symm⟩

end Arrays
end Dat
end Sunet
