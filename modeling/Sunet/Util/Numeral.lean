/-
# Numbers in decimal notation

Integers of the type `int` are printed by `num_to_str` and by the output streams, and read
by `atoi`.  An `int` is an integer that its own wrapping leaves as it is; `atoi_numToStr`
says that such an integer is read as it was printed.
-/
import Sunet.Util.Bytes
import Mathlib.Data.List.TakeWhile

namespace Sunet

/-- The conversion to `int`. -/
def wrapInt (v : ℤ) : ℤ := v.bmod (2 ^ 32)

/-- An integer of the type `int`. -/
def IsInt (v : ℤ) : Prop := wrapInt v = v

lemma wrapInt_wrapInt_add (v w : ℤ) : wrapInt (wrapInt v + w) = wrapInt (v + w) := by
  unfold wrapInt
  exact Int.bmod_add_bmod

lemma isInt_wrapInt (v : ℤ) : IsInt (wrapInt v) := Int.bmod_bmod

lemma isInt_of_lt {n : ℕ} (h : n < 2 ^ 31) : IsInt n :=
  Int.bmod_eq_of_le (by omega) (by omega)

lemma IsInt.bounds {v : ℤ} (h : IsInt v) : -2 ^ 31 ≤ v ∧ v < 2 ^ 31 := by
  have hlow := Int.le_bmod (x := v) (m := 2 ^ 32) (by norm_num)
  have hhigh := Int.bmod_lt (x := v) (m := 2 ^ 32) (by norm_num)
  rw [show v.bmod (2 ^ 32) = v from h] at hlow hhigh
  constructor <;> omega

/-- The conversion changes a value by a multiple of `2 ^ 32`. -/
lemma wrapInt_eq_sub (v : ℤ) : ∃ k : ℤ, wrapInt v = v - 2 ^ 32 * k :=
  ⟨v.bdiv (2 ^ 32), Int.bmod_eq_self_sub_mul_bdiv v (2 ^ 32)⟩

lemma wrapInt_le (n : ℕ) : wrapInt n ≤ n := by
  obtain ⟨k, hk⟩ := wrapInt_eq_sub n
  have hbounds := (isInt_wrapInt n).bounds
  omega

/-- The result of an operation on the type `int`, or `none` when it overflows. -/
def checkInt (v : ℤ) : Option ℤ := if -2 ^ 31 ≤ v ∧ v < 2 ^ 31 then some v else none

lemma checkInt_eq_some {v w : ℤ} : checkInt v = some w ↔ v = w ∧ -2 ^ 31 ≤ v ∧ v < 2 ^ 31 := by
  rw [checkInt]
  split
  · next h => rw [Option.some.injEq, and_iff_left h]
  · next h =>
    constructor
    · intro hnone
      cases hnone
    · rintro ⟨-, hbounds⟩
      exact absurd hbounds h

lemma checkInt_of_bounds {v : ℤ} (hlow : -2 ^ 31 ≤ v) (hhigh : v < 2 ^ 31) :
    checkInt v = some v :=
  if_pos ⟨hlow, hhigh⟩

/-! ## Printing -/

/-- A natural number in decimal notation. -/
def natToStr (n : ℕ) : Bytes := (Nat.toDigits 10 n).map Char.toUInt8

/-- `StringUtil::num_to_str` on integers, and the output of an integer to a stream. -/
def numToStr (v : ℤ) : Bytes :=
  if v < 0 then 45 :: natToStr v.natAbs else natToStr v.natAbs

/-- A decimal digit. -/
def isDigit (b : Byte) : Bool := 48 ≤ b.toNat && b.toNat ≤ 57

lemma toNat_toUInt8_of_isDigit {c : Char} (h : c.isDigit = true) : c.toUInt8.toNat = c.toNat := by
  have hc : 48 ≤ c.val.toNat ∧ c.val.toNat ≤ 57 := by
    simpa [Char.isDigit, UInt32.le_iff_toNat_le] using h
  show c.val.toNat % 2 ^ 8 = c.val.toNat
  omega

lemma isDigit_toUInt8 {c : Char} (h : c.isDigit = true) : isDigit c.toUInt8 = true := by
  have hc : 48 ≤ c.val.toNat ∧ c.val.toNat ≤ 57 := by
    simpa [Char.isDigit, UInt32.le_iff_toNat_le] using h
  have hnat : c.toUInt8.toNat = c.val.toNat := toNat_toUInt8_of_isDigit h
  rw [isDigit, hnat]
  simpa using hc

lemma isDigit_of_mem_natToStr {n : ℕ} {b : Byte} (h : b ∈ natToStr n) : isDigit b = true := by
  obtain ⟨c, hc, rfl⟩ := List.mem_map.mp h
  exact isDigit_toUInt8 (Nat.isDigit_of_mem_toDigits (by norm_num) (by norm_num) hc)

lemma natToStr_ne_nil (n : ℕ) : natToStr n ≠ [] := by
  simp [natToStr]

lemma numToStr_ne_nil (v : ℤ) : numToStr v ≠ [] := by
  rw [numToStr]
  split
  · exact List.cons_ne_nil _ _
  · exact natToStr_ne_nil _

/-- What is printed is made of digits and a minus sign. -/
lemma mem_numToStr {v : ℤ} {b : Byte} (h : b ∈ numToStr v) : b = 45 ∨ isDigit b = true := by
  rw [numToStr] at h
  split at h
  · rcases List.mem_cons.mp h with h | h
    · exact Or.inl h
    · exact Or.inr (isDigit_of_mem_natToStr h)
  · exact Or.inr (isDigit_of_mem_natToStr h)

/-- No byte below the digits is printed, other than the minus sign. -/
lemma notMem_numToStr {v : ℤ} {b : Byte} (hb : b ≠ 45) (hdigit : isDigit b = false) :
    b ∉ numToStr v := by
  intro h
  rcases mem_numToStr h with h | h
  · exact hb h
  · rw [hdigit] at h
    cases h

/-! ## Reading -/

/-- `isspace` in the C locale. -/
def isSpace (b : Byte) : Bool := b == 32 || (9 ≤ b.toNat && b.toNat ≤ 13)

/-- The value of the digits a string starts with. -/
def digitsVal (s : Bytes) : ℕ := (s.takeWhile isDigit).foldl (fun n b => 10 * n + (b.toNat - 48)) 0

/-- `strtol` in base ten: out of range it returns the nearest `long`. -/
def strtol (s : Bytes) : ℤ :=
  let v : ℤ :=
    match s.dropWhile isSpace with
    | [] => 0
    | b :: rest =>
      if b = 45 then -(digitsVal rest : ℤ)
      else if b = 43 then digitsVal rest
      else digitsVal (b :: rest)
  max (-2 ^ 63) (min v (2 ^ 63 - 1))

/-- `atoi`, which converts what `strtol` returns to `int`. -/
def atoi (s : Bytes) : ℤ := wrapInt (strtol s)

/-- A digit is neither a space nor a sign. -/
lemma notSign_of_isDigit {b : Byte} (h : isDigit b = true) :
    isSpace b = false ∧ b ≠ 45 ∧ b ≠ 43 := by
  revert b
  decide +kernel

lemma isInt_atoi (s : Bytes) : IsInt (atoi s) := isInt_wrapInt _

lemma digitsVal_natToStr (n : ℕ) : digitsVal (natToStr n) = n := by
  have hall : (natToStr n).takeWhile isDigit = natToStr n :=
    List.takeWhile_eq_self_iff.mpr fun b hb => isDigit_of_mem_natToStr hb
  have hfold : ∀ (cs : List Char) (acc : ℕ), (∀ c ∈ cs, c.isDigit = true) →
      (cs.map Char.toUInt8).foldl (fun n b => 10 * n + (b.toNat - 48)) acc =
        Nat.ofDigitChars 10 cs acc := by
    intro cs
    induction cs with
    | nil =>
      intro acc _
      simp
    | cons c cs ih =>
      intro acc hcs
      rw [List.map_cons, List.foldl_cons, Nat.ofDigitChars_cons,
        toNat_toUInt8_of_isDigit (hcs c List.mem_cons_self)]
      exact ih _ fun c' hc' => hcs c' (List.mem_cons_of_mem _ hc')
  rw [digitsVal, hall, natToStr, hfold _ 0 ?_, Nat.ofDigitChars_toDigits (by norm_num) (by norm_num)]
  exact fun c hc => Nat.isDigit_of_mem_toDigits (by norm_num) (by norm_num) hc

/-- **Numbers are read as they were printed.** -/
theorem atoi_numToStr {v : ℤ} (h : IsInt v) : atoi (numToStr v) = v := by
  obtain ⟨hlow, hhigh⟩ := h.bounds
  have hval : strtol (numToStr v) = v := by
    have hclamp : max (-2 ^ 63) (min v (2 ^ 63 - 1)) = v := by
      omega
    rw [numToStr]
    split
    · next hneg =>
      have hv : -((v.natAbs : ℕ) : ℤ) = v := by omega
      have hspace : isSpace 45 = false := by decide
      rw [strtol, List.dropWhile_cons_of_neg (by simp [hspace])]
      simp only [if_true, digitsVal_natToStr, hv]
      exact hclamp
    · next hpos =>
      have hv : ((v.natAbs : ℕ) : ℤ) = v := by omega
      obtain ⟨b, rest, hb⟩ := List.exists_cons_of_ne_nil (natToStr_ne_nil v.natAbs)
      have hmem : b ∈ natToStr v.natAbs := by
        rw [hb]
        exact List.mem_cons_self
      obtain ⟨hspace, hminus, hplus⟩ := notSign_of_isDigit (isDigit_of_mem_natToStr hmem)
      rw [hb, strtol, List.dropWhile_cons_of_neg (by simp [hspace])]
      simp only [hminus, hplus, if_false, ← hb, digitsVal_natToStr, hv]
      exact hclamp
  rw [atoi, hval]
  exact h

end Sunet
