/-
# Character codes and Unicode

`get_cn_code` computes the code point of a character of one or of three bytes.  The test for
the first of two bytes compares with a value the mask cannot produce, and `split_ch_words`
has no case for two bytes at all: such a character becomes two tokens with the code 0.  The
characters are those of Lean, and `String.utf8EncodeChar` is their encoding.
-/
import Sunet.Dat.Code

namespace Sunet
namespace Dat

open Byte StringUtil

/-- `get_cn_code` on the tokens of `split_ch_words`, one after the other. -/
def cnCodes (str : Bytes) : Option (List ℕ) := (splitChWords str).bind (List.mapM getCnCode)

/-- A text of characters up to U+FFFF other than the space and NUL. -/
structure PlainText where
  chars : List Char
  plain : ∀ c ∈ chars, c.toNat ≠ 0 ∧ c.toNat ≠ 32 ∧ c.toNat ≤ 0xffff

/-- The encoding of the text. -/
def PlainText.utf8 (s : PlainText) : Bytes := s.chars.flatMap String.utf8EncodeChar

/-- The code points of the text. -/
def PlainText.codePoints (s : PlainText) : List ℕ := s.chars.map Char.toNat

/-- The character is encoded in two bytes. -/
def TwoBytes (c : Char) : Prop := 0x80 ≤ c.toNat ∧ c.toNat ≤ 0x7ff

instance : DecidablePred TwoBytes :=
  fun c => inferInstanceAs (Decidable (0x80 ≤ c.toNat ∧ c.toNat ≤ 0x7ff))

/-! ## The codes of the tokens -/

lemma mapM_getCnCode {ts : List Bytes} (h : ∀ t ∈ ts, IsToken t) :
    ts.mapM getCnCode = some (ts.map cnCode) := by
  induction ts with
  | nil => rfl
  | cons t ts ih =>
    rw [List.mapM_cons, getCnCode_eq (h t List.mem_cons_self),
      ih fun x hx => h x (List.mem_cons_of_mem _ hx)]
    rfl

lemma cnCodes_eq (str : Bytes) : cnCodes str = some (codes str) := by
  rw [cnCodes, splitChWords_eq, Option.bind_some, mapM_getCnCode (isToken_of_mem_tokens str), codes]

lemma toNat_ofNat {n : ℕ} (h : n < 256) : (UInt8.ofNat n).toNat = n := UInt8.toNat_ofNat_of_lt' h

/-- A byte outside ASCII that does not begin three has the code 0. -/
lemma cnCode_other {b : Byte} (hlow : 0x80 ≤ b.toNat) (hhigh : b.toNat < 0xe0) :
    cnCode [b] = 0 := by
  revert hlow hhigh
  revert b
  decide +kernel

lemma codes_cons_single {b : Byte} (rest : Bytes) (hb : ¬ isLead b) (hsp : b.toNat ≠ 32) :
    codes (b :: rest) = cnCode [b] :: codes rest := by
  have hne : b ≠ sp := by
    rintro rfl
    exact hsp rfl
  rw [codes, tokens_cons_single rest hb hne]
  rfl

/-- The codes of a text, character by character. -/
lemma codes_utf8EncodeChar {c : Char} (hsp : c.toNat ≠ 32) (hlt : c.toNat ≤ 0xffff) (rest : Bytes) :
    codes (String.utf8EncodeChar c ++ rest) =
      (if TwoBytes c then [0, 0] else [c.toNat]) ++ codes rest := by
  have hval : c.val.toNat = c.toNat := rfl
  rw [String.utf8EncodeChar]
  simp only [hval]
  -- one case for each length of the encoding
  by_cases h₁ : c.toNat ≤ 0x7f
  · have hb : (UInt8.ofNat c.toNat).toNat = c.toNat := toNat_ofNat (by omega)
    rw [if_pos h₁, if_neg (show ¬ TwoBytes c by rw [TwoBytes]; omega), List.singleton_append,
      codes_cons_single rest (not_isLead_of_ascii (by omega)) (by omega), cnCode_ascii (by omega), hb]
    rfl
  by_cases h₂ : c.toNat ≤ 0x7ff
  · have hb : (UInt8.ofNat (c.toNat / 64 % 0x20 + 0xc0)).toNat = c.toNat / 64 % 0x20 + 0xc0 :=
      toNat_ofNat (by omega)
    have hb₁ : (UInt8.ofNat (c.toNat % 0x40 + 0x80)).toNat = c.toNat % 0x40 + 0x80 :=
      toNat_ofNat (by omega)
    rw [if_neg h₁, if_pos h₂, if_pos (show TwoBytes c by rw [TwoBytes]; omega), List.cons_append,
      codes_cons_single _ (by rw [isLead_iff]; omega) (by omega), List.singleton_append,
      codes_cons_single _ (by rw [isLead_iff]; omega) (by omega),
      cnCode_other (by omega) (by omega), cnCode_other (by omega) (by omega)]
    rfl
  · have hb : (UInt8.ofNat (c.toNat / 4096 % 0x10 + 0xe0)).toNat = c.toNat / 4096 % 0x10 + 0xe0 :=
      toNat_ofNat (by omega)
    have hb₁ : (UInt8.ofNat (c.toNat / 64 % 0x40 + 0x80)).toNat = c.toNat / 64 % 0x40 + 0x80 :=
      toNat_ofNat (by omega)
    have hb₂ : (UInt8.ofNat (c.toNat % 0x40 + 0x80)).toNat = c.toNat % 0x40 + 0x80 :=
      toNat_ofNat (by omega)
    have hlead : isLead (UInt8.ofNat (c.toNat / 4096 % 0x10 + 0xe0)) := by
      rw [isLead_iff]
      omega
    have hcont₁ : isCont (UInt8.ofNat (c.toNat / 64 % 0x40 + 0x80)) := by
      rw [isCont_iff]
      omega
    have hcont₂ : isCont (UInt8.ofNat (c.toNat % 0x40 + 0x80)) := by
      rw [isCont_iff]
      omega
    have hcode : cnCode [UInt8.ofNat (c.toNat / 4096 % 0x10 + 0xe0),
        UInt8.ofNat (c.toNat / 64 % 0x40 + 0x80), UInt8.ofNat (c.toNat % 0x40 + 0x80)] =
        c.toNat := by
      rw [cnCode_three hlead hcont₁ hcont₂, hb, hb₁, hb₂]
      omega
    rw [if_neg h₁, if_neg h₂, if_pos hlt, if_neg (show ¬ TwoBytes c by rw [TwoBytes]; omega),
      List.cons_append, List.cons_append, List.singleton_append, codes,
      tokens_cons_triple rest hlead hcont₁ hcont₂, List.map_cons, hcode]
    rfl

lemma codes_flatMap {chars : List Char}
    (h : ∀ c ∈ chars, c.toNat ≠ 0 ∧ c.toNat ≠ 32 ∧ c.toNat ≤ 0xffff) :
    codes (chars.flatMap String.utf8EncodeChar) =
      chars.flatMap fun c => if TwoBytes c then [0, 0] else [c.toNat] := by
  induction chars with
  | nil => simp [codes]
  | cons c chars ih =>
    obtain ⟨-, hsp, hlt⟩ := h c List.mem_cons_self
    rw [List.flatMap_cons, List.flatMap_cons, codes_utf8EncodeChar hsp hlt,
      ih fun x hx => h x (List.mem_cons_of_mem _ hx)]

/-! ## Texts and their paths -/

/-- No character of the text is encoded in two bytes. -/
def PlainText.NoTwoBytes (s : PlainText) : Prop := ∀ c ∈ s.chars, ¬ TwoBytes c

/-- The codes of a text are its code points exactly when it has no character of two bytes. -/
lemma PlainText.cnCodes_eq_iff (s : PlainText) :
    cnCodes s.utf8 = some s.codePoints ↔ s.NoTwoBytes := by
  rw [cnCodes_eq, Option.some.injEq, utf8, codes_flatMap s.plain, codePoints]
  constructor
  · intro heq c hc htwo
    -- the code 0 is the code point of no character of the text
    have hzero : 0 ∈ s.chars.flatMap fun c => if TwoBytes c then [0, 0] else [c.toNat] :=
      List.mem_flatMap.mpr ⟨c, hc, by simp [htwo]⟩
    rw [heq] at hzero
    obtain ⟨d, hd, hd0⟩ := List.mem_map.mp hzero
    exact (s.plain d hd).1 hd0
  · intro hno
    have hsingle : ∀ c ∈ s.chars, (if TwoBytes c then [0, 0] else [c.toNat]) = [c.toNat] :=
      fun c hc => if_neg (hno c hc)
    rw [List.flatMap_congr hsingle, List.map_eq_flatMap]

lemma PlainText.chars_eq_of_codePoints_eq {s s' : PlainText} (h : s.codePoints = s'.codePoints) :
    s.chars = s'.chars :=
  List.map_injective_iff.mpr (fun _ _ hc => Char.toNat_inj.mp hc) h

/-- The codes of two texts are their code points, and texts on one path are the same. -/
structure Identified (s s' : PlainText) : Prop where
  left : cnCodes s.utf8 = some s.codePoints
  right : cnCodes s'.utf8 = some s'.codePoints
  path : cnCodes s.utf8 = cnCodes s'.utf8 → s.chars = s'.chars

/-- **Character codes identify characters** exactly in the texts without a character of two
bytes. -/
theorem identified_iff (s s' : PlainText) :
    Identified s s' ↔ s.NoTwoBytes ∧ s'.NoTwoBytes := by
  constructor
  · intro h
    exact ⟨s.cnCodes_eq_iff.mp h.left, s'.cnCodes_eq_iff.mp h.right⟩
  · rintro ⟨hs, hs'⟩
    have hleft := s.cnCodes_eq_iff.mpr hs
    have hright := s'.cnCodes_eq_iff.mpr hs'
    refine ⟨hleft, hright, fun hpath => ?_⟩
    rw [hleft, hright, Option.some.injEq] at hpath
    exact PlainText.chars_eq_of_codePoints_eq hpath

/-- The texts of one character with an accent, U+00E9 and U+00E8. -/
theorem not_identified : ¬ ∀ s s' : PlainText, Identified s s' := by
  intro h
  let s : PlainText := ⟨[Char.ofNat 0xe9], fun _ hc => List.mem_singleton.mp hc ▸ by decide⟩
  let s' : PlainText := ⟨[Char.ofNat 0xe8], fun _ hc => List.mem_singleton.mp hc ▸ by decide⟩
  have hsame : cnCodes s.utf8 = cnCodes s'.utf8 := by decide
  exact absurd ((h s s').path hsame) (by decide)

end Dat
end Sunet
