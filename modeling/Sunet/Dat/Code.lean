/-
# Dictionary words and the codes of their characters

The double array of `alias/dat/dat.h` is a trie over the codes that `get_cn_code` computes
for the characters of a word.  This file models the word type `cn_string` and `get_cn_code`,
and shows that over ASCII characters and three-byte UTF-8 characters the code of a character
is positive, below 65536, and determines the character.
-/
import Sunet.Util.StringUtil

namespace Sunet
namespace Dat

open Byte StringUtil

/-- `cn_string`: a string together with the characters that `split_ch_words` finds in it. -/
structure CnString where
  /-- `_words`, the characters. -/
  words : List Bytes
  /-- `_string`, the string itself. -/
  string : Bytes
  /-- The constructor fills `_words` by a call of `split_ch_words`. -/
  split : splitChWords string = some words

namespace CnString

/-- The constructor of `cn_string`. -/
def new (str : Bytes) : CnString := ⟨tokens str, str, splitChWords_eq str⟩

/-- `cn_string::length`. -/
def length (s : CnString) : ℕ := s.words.length

lemma words_eq (s : CnString) : s.words = tokens s.string := by
  have h := s.split
  rw [splitChWords_eq] at h
  exact (Option.some.inj h).symm

@[simp] lemma words_new (str : Bytes) : (new str).words = tokens str := rfl

end CnString

/-- `CN_STRING_LEN`. -/
abbrev cnStringLen : ℕ := 3

/-- `get_cn_code`, or `none` where the source leaves the program by `exit(1)`.  The second
test of the source compares with a value that the mask cannot produce, so a character whose
first byte is outside ASCII and not the first of three has the code 0. -/
def getCnCode (cnStr : Bytes) : Option ℕ :=
  if cnStr.length > cnStringLen then none
  else
    let byteAt (i : ℕ) : Byte := (strAt cnStr i).getD nul
    if byteAt 0 &&& 0xf0 = 0xe0 then
      let third := (byteAt 2 &&& 0x7f).toNat
      let second := (byteAt 1 &&& 0x7f).toNat
      let first := (byteAt 0 &&& 0x0f).toNat
      some (first * 2 ^ 12 + second * 2 ^ 6 + third)
    else if byteAt 0 &&& 0xe0 = 0xd0 then
      let second := (byteAt 1 &&& 0x7f).toNat
      let first := (byteAt 0 &&& 0x1f).toNat
      some (first * 2 ^ 6 + second)
    else if byteAt 0 &&& 0x80 = 0x00 then
      some (byteAt 0 &&& 0x7f).toNat
    else some 0

/-- The code of a character that `split_ch_words` can return. -/
def cnCode (t : Bytes) : ℕ := (getCnCode t).getD 0

lemma getCnCode_eq {t : Bytes} (h : IsToken t) : getCnCode t = some (cnCode t) := by
  have hsome : (getCnCode t).isSome := by
    simp only [getCnCode, gt_iff_lt, show ¬ cnStringLen < t.length from not_lt.mpr h.length_le,
      if_false]
    split
    · rfl
    · split
      · rfl
      · split <;> rfl
  obtain ⟨c, hc⟩ := Option.isSome_iff_exists.mp hsome
  rw [cnCode, hc]
  rfl

/-- The codes of the characters of a string, in order. -/
def codes (str : Bytes) : List ℕ := (tokens str).map cnCode

/-! ## Words over ASCII and three-byte characters -/

/-- Valid UTF-8 strings over ASCII without NUL and the characters of three bytes.  The
surrogates are not excluded, so that these are a few more strings than UTF-8 allows. -/
inductive Utf8Word : Bytes → Prop
  | nil : Utf8Word []
  | ascii {b : Byte} {rest : Bytes} : b ≠ nul → b.toNat < 0x80 → Utf8Word rest →
      Utf8Word (b :: rest)
  | three {b b₁ b₂ : Byte} {rest : Bytes} : isLead b → isCont b₁ → isCont b₂ →
      (b.toNat = 0xe0 → 0xa0 ≤ b₁.toNat) → Utf8Word rest → Utf8Word (b :: b₁ :: b₂ :: rest)

/-- The characters of such words, spaces excepted. -/
def Utf8Char (t : Bytes) : Prop :=
  (∃ b : Byte, t = [b] ∧ b ≠ nul ∧ b.toNat < 0x80) ∨
    ∃ b b₁ b₂ : Byte, t = [b, b₁, b₂] ∧ isLead b ∧ isCont b₁ ∧ isCont b₂ ∧
      (b.toNat = 0xe0 → 0xa0 ≤ b₁.toNat)

lemma not_isLead_of_ascii {b : Byte} (h : b.toNat < 0x80) : ¬ isLead b := by
  rw [isLead_iff]
  omega

lemma Utf8Word.tokens_char {w : Bytes} (h : Utf8Word w) : ∀ t ∈ tokens w, Utf8Char t := by
  induction h with
  | nil => simp
  | @ascii b rest hnul hlt _ ih =>
    by_cases hsp : b = sp
    · subst hsp
      rw [tokens_cons_space]
      exact ih
    · rw [tokens_cons_single rest (not_isLead_of_ascii hlt) hsp]
      intro t ht
      rcases List.mem_cons.mp ht with rfl | ht
      · exact Or.inl ⟨b, rfl, hnul, hlt⟩
      · exact ih t ht
  | @three b b₁ b₂ rest hb h₁ h₂ hlong _ ih =>
    rw [tokens_cons_triple rest hb h₁ h₂]
    intro t ht
    rcases List.mem_cons.mp ht with rfl | ht
    · exact Or.inr ⟨b, b₁, b₂, rfl, hb, h₁, h₂, hlong⟩
    · exact ih t ht

lemma cnCode_ascii {b : Byte} (h : b.toNat < 0x80) : cnCode [b] = b.toNat := by
  revert h
  revert b
  decide +kernel

lemma toNat_and_first {b : Byte} (h : isLead b) : (b &&& 0x0f).toNat = b.toNat - 0xe0 := by
  revert h
  revert b
  decide +kernel

lemma toNat_and_cont {b : Byte} (h : isCont b) : (b &&& 0x7f).toNat = b.toNat - 0x80 := by
  revert h
  revert b
  decide +kernel

lemma cnCode_three {b b₁ b₂ : Byte} (hb : isLead b) (h₁ : isCont b₁) (h₂ : isCont b₂) :
    cnCode [b, b₁, b₂] =
      (b.toNat - 0xe0) * 4096 + (b₁.toNat - 0x80) * 64 + (b₂.toNat - 0x80) := by
  have hlead : b &&& 0xf0 = 0xe0 := hb
  have h0 : (strAt [b, b₁, b₂] 0).getD nul = b := rfl
  have h1 : (strAt [b, b₁, b₂] 1).getD nul = b₁ := rfl
  have h2 : (strAt [b, b₁, b₂] 2).getD nul = b₂ := rfl
  simp only [cnCode, getCnCode, List.length_cons, List.length_nil, h0, h1, h2, hlead, if_true,
    toNat_and_first hb, toNat_and_cont h₁, toNat_and_cont h₂]
  norm_num

/-- No character has the code that `_fetch_siblings` uses for the end of a word. -/
lemma Utf8Char.cnCode_pos {t : Bytes} (h : Utf8Char t) : 0 < cnCode t := by
  rcases h with ⟨b, rfl, hnul, hlt⟩ | ⟨b, b₁, b₂, rfl, hb, h₁, h₂, hlong⟩
  · rw [cnCode_ascii hlt]
    have hne : b.toNat ≠ 0 := fun h => hnul (UInt8.toNat_inj.mp h)
    omega
  · rw [cnCode_three hb h₁ h₂]
    rw [isLead_iff] at hb
    rw [isCont_iff] at h₁
    rcases Nat.lt_or_ge 0xe0 b.toNat with hlt | hge
    · omega
    · have hlong' := hlong (by omega)
      omega

lemma Utf8Char.cnCode_lt {t : Bytes} (h : Utf8Char t) : cnCode t < 65536 := by
  rcases h with ⟨b, rfl, -, hlt⟩ | ⟨b, b₁, b₂, rfl, hb, h₁, h₂, -⟩
  · rw [cnCode_ascii hlt]
    omega
  · rw [cnCode_three hb h₁ h₂]
    rw [isLead_iff] at hb
    rw [isCont_iff] at h₁ h₂
    omega

/-- **The code of a character determines the character.** -/
lemma Utf8Char.cnCode_inj {t t' : Bytes} (h : Utf8Char t) (h' : Utf8Char t')
    (heq : cnCode t = cnCode t') : t = t' := by
  rcases h with ⟨b, rfl, -, hlt⟩ | ⟨b, b₁, b₂, rfl, hb, h₁, h₂, hlong⟩ <;>
    rcases h' with ⟨c, rfl, -, hlt'⟩ | ⟨c, c₁, c₂, rfl, hc, g₁, g₂, glong⟩
  · rw [cnCode_ascii hlt, cnCode_ascii hlt'] at heq
    rw [UInt8.toNat_inj.mp heq]
  · -- the code of a three-byte character is at least 0x800
    exfalso
    rw [cnCode_ascii hlt, cnCode_three hc g₁ g₂] at heq
    rw [isLead_iff] at hc
    rw [isCont_iff] at g₁ g₂
    omega
  · exfalso
    rw [cnCode_ascii hlt', cnCode_three hb h₁ h₂] at heq
    rw [isLead_iff] at hb
    rw [isCont_iff] at h₁ h₂
    omega
  · rw [cnCode_three hb h₁ h₂, cnCode_three hc g₁ g₂] at heq
    rw [isLead_iff] at hb hc
    rw [isCont_iff] at h₁ h₂ g₁ g₂
    have e0 : b = c := UInt8.toNat_inj.mp (by omega)
    have e1 : b₁ = c₁ := UInt8.toNat_inj.mp (by omega)
    have e2 : b₂ = c₂ := UInt8.toNat_inj.mp (by omega)
    rw [e0, e1, e2]

lemma Utf8Word.codes_pos {w : Bytes} (h : Utf8Word w) : ∀ c ∈ codes w, 0 < c := by
  intro c hc
  obtain ⟨t, ht, rfl⟩ := List.mem_map.mp hc
  exact (h.tokens_char t ht).cnCode_pos

lemma map_cnCode_inj {ts ts' : List Bytes} (h : ∀ t ∈ ts, Utf8Char t)
    (h' : ∀ t ∈ ts', Utf8Char t) (heq : ts.map cnCode = ts'.map cnCode) : ts = ts' := by
  induction ts generalizing ts' with
  | nil => simpa using heq.symm
  | cons t ts ih =>
    cases ts' with
    | nil => simp at heq
    | cons t' ts' =>
      simp only [List.map_cons, List.cons.injEq] at heq
      have ht : t = t' := (h t (by simp)).cnCode_inj (h' t' (by simp)) heq.1
      have hts : ts = ts' :=
        ih (fun x hx => h x (by simp [hx])) (fun x hx => h' x (by simp [hx])) heq.2
      rw [ht, hts]

/-- Words have the same characters exactly when they have the same codes. -/
lemma Utf8Word.tokens_eq_iff {w w' : Bytes} (h : Utf8Word w) (h' : Utf8Word w') :
    tokens w = tokens w' ↔ codes w = codes w' := by
  constructor
  · intro heq
    rw [codes, codes, heq]
  · exact map_cnCode_inj h.tokens_char h'.tokens_char

/-! ## The byte order -/

lemma Utf8Word.flatten_tokens {w : Bytes} (h : Utf8Word w) (hsp : sp ∉ w) :
    (tokens w).flatten = w := by
  induction h with
  | nil => simp [tokens]
  | @ascii b rest _ hlt _ ih =>
    rw [List.mem_cons, not_or] at hsp
    rw [tokens_cons_single rest (not_isLead_of_ascii hlt) fun h => hsp.1 h.symm,
      List.flatten_cons, ih hsp.2]
    rfl
  | @three b b₁ b₂ rest hb h₁ h₂ _ _ ih =>
    simp only [List.mem_cons, not_or] at hsp
    rw [tokens_cons_triple rest hb h₁ h₂, List.flatten_cons, ih hsp.2.2.2]
    rfl

/-- Words without spaces have the same characters only if they are the same. -/
lemma Utf8Word.tokens_inj {w w' : Bytes} (h : Utf8Word w) (h' : Utf8Word w') (hsp : sp ∉ w)
    (hsp' : sp ∉ w') : tokens w = tokens w' ↔ w = w' := by
  constructor
  · intro heq
    rw [← h.flatten_tokens hsp, ← h'.flatten_tokens hsp', heq]
  · rintro rfl
    rfl

lemma codes_cons_ascii {b : Byte} {rest : Bytes} (hlt : b.toNat < 0x80) (hsp : b ≠ sp) :
    codes (b :: rest) = b.toNat :: codes rest := by
  rw [codes, tokens_cons_single rest (not_isLead_of_ascii hlt) hsp, List.map_cons,
    cnCode_ascii hlt]
  rfl

lemma codes_cons_three {b b₁ b₂ : Byte} {rest : Bytes} (hb : isLead b) (h₁ : isCont b₁)
    (h₂ : isCont b₂) : codes (b :: b₁ :: b₂ :: rest) =
      ((b.toNat - 0xe0) * 4096 + (b₁.toNat - 0x80) * 64 + (b₂.toNat - 0x80)) :: codes rest := by
  rw [codes, tokens_cons_triple rest hb h₁ h₂, List.map_cons, cnCode_three hb h₁ h₂]
  rfl

/-- **The byte order is the order of the codes.** -/
lemma Utf8Word.codes_lt {w : Bytes} (h : Utf8Word w) (hsp : sp ∉ w) :
    ∀ {w' : Bytes}, Utf8Word w' → sp ∉ w' → w < w' → codes w < codes w' := by
  induction h with
  | nil =>
    intro w' h' hsp' hlt
    cases h' with
    | nil => exact absurd hlt (List.not_lt_nil _)
    | @ascii c rest' _ hc _ =>
      rw [List.mem_cons, not_or] at hsp'
      rw [codes_cons_ascii hc fun h => hsp'.1 h.symm]
      exact List.nil_lt_cons _ _
    | three hc g₁ g₂ _ _ =>
      rw [codes_cons_three hc g₁ g₂]
      exact List.nil_lt_cons _ _
  | @ascii b rest _ hb _ ih =>
    intro w' h' hsp' hlt
    rw [List.mem_cons, not_or] at hsp
    rw [codes_cons_ascii hb fun h => hsp.1 h.symm]
    cases h' with
    | nil => exact absurd hlt (List.not_lt_nil _)
    | @ascii c rest' _ hc hrest' =>
      rw [List.mem_cons, not_or] at hsp'
      rw [codes_cons_ascii hc fun h => hsp'.1 h.symm]
      rw [List.cons_lt_cons_iff, UInt8.lt_iff_toNat_lt] at hlt
      rw [List.cons_lt_cons_iff]
      rcases hlt with hlt | ⟨rfl, hlt⟩
      · exact Or.inl hlt
      · exact Or.inr ⟨rfl, ih hsp.2 hrest' hsp'.2 hlt⟩
    | @three c c₁ c₂ rest' hc g₁ g₂ hlong _ =>
      -- the code of a three-byte character is at least 0x800
      rw [codes_cons_three hc g₁ g₂, List.cons_lt_cons_iff]
      rw [isLead_iff] at hc
      rw [isCont_iff] at g₁ g₂
      left
      by_cases he : c.toNat = 0xe0
      · have := hlong he
        omega
      · omega
  | @three b b₁ b₂ rest hb h₁ h₂ _ _ ih =>
    intro w' h' hsp' hlt
    simp only [List.mem_cons, not_or] at hsp
    rw [codes_cons_three hb h₁ h₂]
    cases h' with
    | nil => exact absurd hlt (List.not_lt_nil _)
    | @ascii c rest' _ hc _ =>
      -- the first byte of the three is not below a byte of ASCII
      rw [isLead_iff] at hb
      rw [List.cons_lt_cons_iff, UInt8.lt_iff_toNat_lt] at hlt
      rcases hlt with hlt | ⟨rfl, -⟩
      · omega
      · omega
    | @three c c₁ c₂ rest' hc g₁ g₂ _ hrest' =>
      simp only [List.mem_cons, not_or] at hsp'
      rw [codes_cons_three hc g₁ g₂]
      simp only [List.cons_lt_cons_iff, UInt8.lt_iff_toNat_lt] at hlt ⊢
      rw [isLead_iff] at hb hc
      rw [isCont_iff] at h₁ h₂ g₁ g₂
      rcases hlt with hlt | ⟨rfl, hlt | ⟨rfl, hlt | ⟨rfl, hlt⟩⟩⟩
      · left
        omega
      · left
        omega
      · left
        omega
      · exact Or.inr ⟨rfl, ih hsp.2.2.2 hrest' hsp'.2.2.2 hlt⟩

end Dat
end Sunet
