/-
# Percent coding

`HttpParser::encode` and `HttpParser::decode` with their two hexadecimal helpers, and the
round trip.  An escape that the end of the string cuts off makes `decode` read the
terminator of the string and, when both digits are missing, the byte behind it; what is
found there is the parameter `beyond`.
-/
import Sunet.Util.Bytes

namespace Sunet
namespace Http

open Byte

/-- `dec2hexChar`. -/
def dec2hexChar (n : ℤ) : Byte :=
  if 0 ≤ n ∧ n ≤ 9 then UInt8.ofInt (0x30 + n)
  else if 10 ≤ n ∧ n ≤ 15 then UInt8.ofInt (0x41 + n - 10)
  else 0

/-- `hexChar2dec`. -/
def hexChar2dec (c : Byte) : ℤ :=
  if 0x30 ≤ schar c ∧ schar c ≤ 0x39 then schar c - 0x30
  else if 0x61 ≤ schar c ∧ schar c ≤ 0x66 then schar c - 0x61 + 10
  else if 0x41 ≤ schar c ∧ schar c ≤ 0x46 then schar c - 0x41 + 10
  else -1

/-- The bytes that `encode` copies: digits, letters, `/` and `.`. -/
def isPlain (c : Byte) : Prop :=
  (0x30 ≤ schar c ∧ schar c ≤ 0x39) ∨ (0x61 ≤ schar c ∧ schar c ≤ 0x7a) ∨
    (0x41 ≤ schar c ∧ schar c ≤ 0x5a) ∨ c = 0x2f ∨ c = 0x2e

instance : DecidablePred isPlain := fun c => by
  unfold isPlain
  infer_instance

/-- What `encode` appends for one byte. -/
def encodeChar (c : Byte) : Bytes :=
  if isPlain c then [c]
  else
    let j : ℤ := if schar c < 0 then schar c + 256 else schar c
    let i1 := j / 16
    let i0 := j - i1 * 16
    [percent, dec2hexChar i1, dec2hexChar i0]

/-- `encode`. -/
def encode (url : Bytes) : Bytes := url.flatMap encodeChar

/-- The byte that `decode` appends for an escape with the digits `c1` and `c0`. -/
def decodeNum (c1 c0 : Byte) : Byte := UInt8.ofInt (hexChar2dec c1 * 16 + hexChar2dec c0)

/-- `decode`. -/
def decode (beyond : Byte) : Bytes → Bytes
  | [] => []
  | c :: rest =>
    if c ≠ percent then c :: decode beyond rest
    else
      match rest with
      | c1 :: c0 :: rest' => decodeNum c1 c0 :: decode beyond rest'
      | [c1] => [decodeNum c1 nul]
      | [] => [decodeNum nul beyond]

lemma decode_cons_plain {beyond c : Byte} (rest : Bytes) (hc : c ≠ percent) :
    decode beyond (c :: rest) = c :: decode beyond rest := by
  rw [decode.eq_def]
  simp [hc]

lemma decode_escape (beyond c1 c0 : Byte) (rest : Bytes) :
    decode beyond (percent :: c1 :: c0 :: rest) = decodeNum c1 c0 :: decode beyond rest := by
  rw [decode.eq_def]
  simp

/-- The code of a byte is the byte itself or an escape that stands for it. -/
lemma encodeChar_cases (c : Byte) :
    (encodeChar c = [c] ∧ c ≠ percent) ∨
      ∃ c1 c0 : Byte, encodeChar c = [percent, c1, c0] ∧ decodeNum c1 c0 = c := by
  have hplain : ∀ c : Byte, isPlain c → c ≠ percent := by decide +kernel
  have hnum : ∀ c : Byte, ¬ isPlain c →
      decodeNum (dec2hexChar ((if schar c < 0 then schar c + 256 else schar c) / 16))
        (dec2hexChar ((if schar c < 0 then schar c + 256 else schar c) -
          (if schar c < 0 then schar c + 256 else schar c) / 16 * 16)) = c := by
    decide +kernel
  by_cases hc : isPlain c
  · exact Or.inl ⟨if_pos hc, hplain c hc⟩
  · exact Or.inr ⟨_, _, if_neg hc, hnum c hc⟩

/-- **Decoding undoes encoding.** -/
theorem decode_encode (beyond : Byte) (s : Bytes) : decode beyond (encode s) = s := by
  induction s with
  | nil => rfl
  | cons c s ih =>
    have hcons : encode (c :: s) = encodeChar c ++ encode s := rfl
    rw [hcons]
    rcases encodeChar_cases c with ⟨henc, hc⟩ | ⟨c1, c0, henc, hnum⟩
    · rw [henc, List.singleton_append, decode_cons_plain _ hc, ih]
    · rw [henc]
      simp only [List.cons_append, List.nil_append]
      rw [decode_escape, hnum, ih]

/-- The bytes of a code: plain bytes, percent signs and upper-case hexadecimal digits. -/
lemma mem_encode {s : Bytes} {b : Byte} (hb : b ∈ encode s) : isPlain b ∨ b = percent := by
  have hchar : ∀ c : Byte, (encodeChar c).all fun x => isPlain x ∨ x = percent := by
    decide +kernel
  obtain ⟨c, -, hc⟩ := List.mem_flatMap.mp hb
  simpa using List.all_eq_true.mp (hchar c) b hc

/-- No byte that ends a part of a request line occurs in a code. -/
lemma notMem_encode {s : Bytes} {b : Byte} (hb : ¬ isPlain b) (hpct : b ≠ percent) :
    b ∉ encode s := by
  intro hmem
  rcases mem_encode hmem with h | h
  · exact hb h
  · exact hpct h

end Http
end Sunet
