/-
# `StringUtil`: splitting at delimiters and splitting into characters

The two string functions of `util/utils.h` that everything else is built on.  `split` cuts a
string at every byte of a set of delimiters and drops the last field of a string that ends
in a tab; it is related here to the library function `List.splitOn`.  `split_ch_words` cuts
a string into characters.  Its model makes every read of the source explicit and fails on a
read behind the terminator; `tokens` is the same function by recursion on the string, and
`splitChWords_eq` says that the two agree, so that no such read happens.

The source keeps positions and lengths in variables of the type `int`, here they are natural
numbers.  For strings below `2 ^ 31` bytes this makes no difference: `splitInt_eq` and
`splitChInt_eq` in `Sunet.Util.Split` and `Sunet.Util.Characters` compare the two functions with
models that have these positions.
-/
import Sunet.Util.Bytes
import Sunet.Lib.PrefixCode

namespace Sunet
namespace StringUtil

open Byte

/-! ## `split` -/

/-- The loop of `split`: the fields that are pushed at a delimiter, and `str.substr(last)`
after the last delimiter.  The first argument is the part of the current field that
`find_first_of` has passed. -/
def splitLoop (delim : Bytes) : Bytes → Bytes → List Bytes × Bytes
  | field, [] => ([], field)
  | field, b :: rest =>
    if b ∈ delim then
      let (ret, last) := splitLoop delim [] rest
      (field :: ret, last)
    else splitLoop delim (field ++ [b]) rest

/-- `StringUtil::split`. -/
def split (str delim : Bytes) : List Bytes :=
  if str = [] ∨ delim = [] then []
  else
    let (ret, last) := splitLoop delim [] str
    -- the last field is dropped behind a tab, whatever the delimiter
    if str.getLast? ≠ some tab then ret ++ [last] else ret

lemma splitLoop_eq (d : Byte) (field str : Bytes) :
    (splitLoop [d] field str).1 ++ [(splitLoop [d] field str).2] =
      str.splitOnPPrepend (· == d) field.reverse := by
  induction str generalizing field with
  | nil => simp [splitLoop]
  | cons b rest ih =>
    by_cases hb : b = d
    · subst hb
      have hsplit := ih []
      simp only [List.reverse_nil, List.splitOnPPrepend_nil_right] at hsplit
      simp [splitLoop, List.splitOnPPrepend_cons_pos, hsplit]
    · have hsplit := ih (field ++ [b])
      simp only [List.reverse_append, List.reverse_cons, List.reverse_nil, List.nil_append,
        List.singleton_append] at hsplit
      simp [splitLoop, hb, List.splitOnPPrepend_cons_neg, hsplit]

/-- At a single delimiter, `split` is the splitting of a list. -/
lemma split_eq_splitOn {str : Bytes} {d : Byte} (hne : str ≠ [])
    (htab : str.getLast? ≠ some tab) : split str [d] = str.splitOn d := by
  have h := splitLoop_eq d [] str
  simp only [List.reverse_nil, List.splitOnPPrepend_nil_right] at h
  simp only [split, hne, List.cons_ne_nil, or_self, if_false, htab, ne_eq, not_false_eq_true,
    if_true, List.splitOn_eq_splitOnP]
  exact h

@[simp] lemma split_nil (delim : Bytes) : split [] delim = [] := by
  simp [split]

/-- A string that ends in a tab loses its last field. -/
lemma split_eq_dropLast {str : Bytes} {d : Byte} (hne : str ≠ [])
    (htab : str.getLast? = some tab) : split str [d] = (str.splitOn d).dropLast := by
  have h := splitLoop_eq d [] str
  simp only [List.reverse_nil, List.splitOnPPrepend_nil_right] at h
  simp only [split, hne, List.cons_ne_nil, or_self, if_false, htab, ne_eq, not_true_eq_false,
    List.splitOn_eq_splitOnP]
  simp [← h]

/-- A string without the delimiter is one field, and no field when it ends in a tab. -/
lemma split_of_notMem {str : Bytes} {d : Byte} (hne : str ≠ []) (hd : d ∉ str) :
    split str [d] = if str.getLast? = some tab then [] else [str] := by
  split
  · next htab => rw [split_eq_dropLast hne htab, List.splitOn_eq_singleton hd]; rfl
  · next htab => rw [split_eq_splitOn hne htab, List.splitOn_eq_singleton hd]

/-- The first field of a string ends at the first delimiter. -/
lemma split_of_cut {a b : Bytes} {d : Byte} (ha : d ∉ a) :
    ∃ fs, split (a ++ d :: b) [d] = a :: fs := by
  have hne : a ++ d :: b ≠ [] := by simp
  by_cases htab : (a ++ d :: b).getLast? = some tab
  · obtain ⟨f, fs, hfs⟩ := List.exists_cons_of_ne_nil (List.splitOn_ne_nil d b)
    refine ⟨(f :: fs).dropLast, ?_⟩
    rw [split_eq_dropLast hne htab, List.splitOn_append_cons_self_of_not_mem ha, hfs,
      List.dropLast_cons_cons]
  · exact ⟨_, by rw [split_eq_splitOn hne htab, List.splitOn_append_cons_self_of_not_mem ha]⟩

/-- Fields without the delimiter in them that are joined with it are found again. -/
lemma split_intercalate {fs : List Bytes} {d : Byte} (hfs : ∀ f ∈ fs, d ∉ f)
    (hne : [d].intercalate fs ≠ []) (htab : ([d].intercalate fs).getLast? ≠ some tab) :
    split ([d].intercalate fs) [d] = fs := by
  rw [split_eq_splitOn hne htab]
  refine List.splitOn_intercalate d hfs ?_
  rintro rfl
  exact hne rfl

/-! ## `split_ch_words` -/

/-- The test of the source for the first byte of a three-byte character. -/
def isLead (b : Byte) : Prop := b &&& 0xf0 = 0xe0

/-- The test of the source for a byte that continues a character. -/
def isCont (b : Byte) : Prop := b &&& 0xc0 = 0x80

instance : DecidablePred isLead := fun b => inferInstanceAs (Decidable (b &&& 0xf0 = 0xe0))

instance : DecidablePred isCont := fun b => inferInstanceAs (Decidable (b &&& 0xc0 = 0x80))

lemma isLead_iff (b : Byte) : isLead b ↔ 0xe0 ≤ b.toNat ∧ b.toNat ≤ 0xef := by
  revert b
  decide +kernel

lemma isCont_iff (b : Byte) : isCont b ↔ 0x80 ≤ b.toNat ∧ b.toNat ≤ 0xbf := by
  revert b
  decide +kernel

/-- The loop of `split_ch_words` at position `i`, with every read of the source in its place.
The first argument bounds the number of rounds. -/
def splitChLoop (word : Bytes) : ℕ → ℕ → Option (List Bytes)
  | 0, i => if i < word.length then none else some []
  | n + 1, i =>
    if i < word.length then do
      let b ← strAt word i
      if isLead b then do
        let b₁ ← strAt word (i + 1)
        if isCont b₁ then do
          let b₂ ← strAt word (i + 2)
          if isCont b₂ then do
            let cnWords ← splitChLoop word n (i + 3)
            some ((word.drop i).take 3 :: cnWords)
          else splitChLoop word n (i + 1)
        else splitChLoop word n (i + 1)
      else if b ≠ sp then
        if schar b ≤ 127 then do
          let cnWords ← splitChLoop word n (i + 1)
          some ([b] :: cnWords)
        else do
          -- a run of bytes outside 0..127: never taken while `char` is signed
          let run := ((word ++ [nul]).drop i).takeWhile fun c => !(0 ≤ schar c && schar c ≤ 127)
          let cnWords ← splitChLoop word n (i + run.length)
          some ((word.drop i).take run.length :: cnWords)
      else splitChLoop word n (i + 1)
    else some []

/-- `StringUtil::split_ch_words`, or `none` if it reads behind the terminator. -/
def splitChWords (word : Bytes) : Option (List Bytes) := splitChLoop word word.length 0

/-- The characters of a string, by recursion on the string. -/
def tokens : Bytes → List Bytes
  | [] => []
  | b :: rest =>
    if isLead b then
      match rest with
      | b₁ :: b₂ :: rest' =>
        if isCont b₁ ∧ isCont b₂ then [b, b₁, b₂] :: tokens rest' else tokens (b₁ :: b₂ :: rest')
      | [b₁] => tokens [b₁]
      | [] => []
    else if b ≠ sp then [b] :: tokens rest
    else tokens rest

@[simp] lemma tokens_nil : tokens [] = [] := by simp [tokens]

lemma tokens_cons_single {b : Byte} (rest : Bytes) (hb : ¬ isLead b) (hsp : b ≠ sp) :
    tokens (b :: rest) = [b] :: tokens rest := by
  rw [tokens.eq_def]
  simp [hb, hsp]

lemma tokens_cons_space (rest : Bytes) : tokens (sp :: rest) = tokens rest := by
  rw [tokens.eq_def]
  simp [show ¬ isLead sp by decide]

lemma tokens_cons_triple {b b₁ b₂ : Byte} (rest : Bytes) (hb : isLead b) (h₁ : isCont b₁)
    (h₂ : isCont b₂) : tokens (b :: b₁ :: b₂ :: rest) = [b, b₁, b₂] :: tokens rest := by
  rw [tokens.eq_def]
  simp [hb, h₁, h₂]

/-- A first byte that is not followed by two continuation bytes is dropped. -/
lemma tokens_cons_stray {b : Byte} (rest : Bytes) (hb : isLead b)
    (h : ∀ b₁ b₂ rest', rest = b₁ :: b₂ :: rest' → ¬ (isCont b₁ ∧ isCont b₂)) :
    tokens (b :: rest) = tokens rest := by
  rw [tokens.eq_def]
  match rest, h with
  | [], _ => simp [hb]
  | [b₁], _ => simp [hb]
  | b₁ :: b₂ :: rest', h =>
    have hstray : ¬ (isCont b₁ ∧ isCont b₂) := h b₁ b₂ rest' rfl
    simp only [hb, if_true, hstray, if_false]

lemma strAt_append (pre rest : Bytes) (k : ℕ) :
    strAt (pre ++ rest) (pre.length + k) = strAt rest k := by
  rw [strAt, strAt, List.append_assoc, List.getElem?_append_right (by omega),
    Nat.add_sub_cancel_left]

@[simp] lemma strAt_nil_zero : strAt [] 0 = some nul := rfl

@[simp] lemma strAt_cons_zero (b : Byte) (rest : Bytes) : strAt (b :: rest) 0 = some b := rfl

@[simp] lemma strAt_cons_succ (b : Byte) (rest : Bytes) (k : ℕ) :
    strAt (b :: rest) (k + 1) = strAt rest k := rfl

/-- The loop at a position is the recursion on the rest of the string. -/
lemma splitChLoop_eq (n : ℕ) :
    ∀ pre rest : Bytes, rest.length ≤ n →
      splitChLoop (pre ++ rest) n pre.length = some (tokens rest) := by
  induction n with
  | zero =>
    intro pre rest hn
    have hnil : rest = [] := List.eq_nil_of_length_eq_zero (by omega)
    subst hnil
    simp [splitChLoop]
  | succ n ih =>
    intro pre rest hn
    cases rest with
    | nil => simp [splitChLoop]
    | cons b rest =>
      -- the loop after the bytes `x` is the recursion on what is left
      have hnext : ∀ x y : Bytes, b :: rest = x ++ y → x ≠ [] →
          splitChLoop (pre ++ b :: rest) n (pre.length + x.length) = some (tokens y) := by
        intro x y hxy hx
        have hlen := congrArg List.length hxy
        simp only [List.length_cons, List.length_append] at hlen hn
        have hx0 : 0 < x.length := List.length_pos_iff.mpr hx
        have h := ih (pre ++ x) y (by omega)
        rw [List.append_assoc, ← hxy, List.length_append] at h
        exact h
      have hone : splitChLoop (pre ++ b :: rest) n (pre.length + 1) = some (tokens rest) :=
        hnext [b] rest rfl (by simp)
      have hin : pre.length < (pre ++ b :: rest).length := by
        rw [List.length_append, List.length_cons]
        omega
      have hread : strAt (pre ++ b :: rest) pre.length = some b := strAt_append pre _ 0
      -- the two bytes behind it, which can be the terminator
      have hread₁ : strAt (pre ++ b :: rest) (pre.length + 1) = strAt rest 0 :=
        strAt_append pre _ 1
      have hread₂ : strAt (pre ++ b :: rest) (pre.length + 2) = strAt rest 1 :=
        strAt_append pre _ 2
      have hnul : ¬ isCont nul := by decide
      simp only [splitChLoop, hin, if_true, hread, hread₁, hread₂, Option.bind_eq_bind,
        Option.bind_some, hone]
      by_cases hb : isLead b
      · rw [if_pos hb]
        match rest, hone, hnext with
        | [], _, _ =>
          rw [tokens_cons_stray [] hb (by simp)]
          simp [hnul]
        | [b₁], _, _ =>
          rw [tokens_cons_stray [b₁] hb (by simp)]
          simp [hnul]
        | b₁ :: b₂ :: rest, hone, hnext =>
          by_cases h : isCont b₁ ∧ isCont b₂
          · have hthree : splitChLoop (pre ++ b :: b₁ :: b₂ :: rest) n (pre.length + 3) =
                some (tokens rest) := hnext [b, b₁, b₂] rest rfl (by simp)
            rw [tokens_cons_triple rest hb h.1 h.2]
            simp [h.1, h.2, hthree]
          · have hstray : tokens (b :: b₁ :: b₂ :: rest) = tokens (b₁ :: b₂ :: rest) := by
              refine tokens_cons_stray _ hb ?_
              intro c₁ c₂ r hr
              simp only [List.cons.injEq] at hr
              obtain ⟨rfl, rfl, -⟩ := hr
              exact h
            rw [hstray]
            by_cases h₁ : isCont b₁
            · have h₂ : ¬ isCont b₂ := fun h₂ => h ⟨h₁, h₂⟩
              simp [h₂]
            · simp [h₁]
      · rw [if_neg hb]
        by_cases hsp : b = sp
        · subst hsp
          rw [tokens_cons_space]
          simp
        · rw [tokens_cons_single rest hb hsp]
          simp [hsp, schar_le]

/-- **`split_ch_words` reads only the string and its terminator**, and returns its
characters. -/
theorem splitChWords_eq (word : Bytes) : splitChWords word = some (tokens word) :=
  splitChLoop_eq word.length [] word le_rfl

/-- A character is a single byte or a three-byte group. -/
def IsToken (t : Bytes) : Prop :=
  (∃ b, t = [b] ∧ ¬ isLead b ∧ b ≠ sp) ∨
    ∃ b b₁ b₂, t = [b, b₁, b₂] ∧ isLead b ∧ isCont b₁ ∧ isCont b₂

lemma IsToken.length_le {t : Bytes} (h : IsToken t) : t.length ≤ 3 := by
  rcases h with ⟨b, rfl, -⟩ | ⟨b, b₁, b₂, rfl, -⟩ <;> simp

lemma IsToken.ne_nil {t : Bytes} (h : IsToken t) : t ≠ [] := by
  rcases h with ⟨b, rfl, -⟩ | ⟨b, b₁, b₂, rfl, -⟩ <;> simp

/-- No character is the beginning of another one. -/
lemma isPrefixCode_isToken : PrefixCode.IsPrefixCode IsToken := by
  rintro w w' (⟨b, rfl, hb, -⟩ | ⟨b, b₁, b₂, rfl, hb, -⟩)
    (⟨c, rfl, hc, -⟩ | ⟨c, c₁, c₂, rfl, hc, -⟩) hpre
  · simpa using hpre
  · rw [List.cons_prefix_cons] at hpre
    exact absurd (hpre.1 ▸ hc) hb
  · rw [List.cons_prefix_cons] at hpre
    exact absurd (hpre.1 ▸ hb) hc
  · simpa using hpre

lemma isToken_of_mem_tokens (word : Bytes) : ∀ t ∈ tokens word, IsToken t := by
  induction word using tokens.induct with
  | case1 => simp
  | case2 b hb b₁ b₂ rest h ih =>
    intro t ht
    rw [tokens_cons_triple rest hb h.1 h.2] at ht
    rcases List.mem_cons.mp ht with rfl | ht
    · exact Or.inr ⟨b, b₁, b₂, rfl, hb, h.1, h.2⟩
    · exact ih t ht
  | case3 b hb b₁ b₂ rest h ih =>
    rw [tokens_cons_stray _ hb ?_]
    · exact ih
    · rintro c₁ c₂ r hr
      simp only [List.cons.injEq] at hr
      obtain ⟨rfl, rfl, -⟩ := hr
      exact h
  | case4 b hb b₁ ih =>
    rw [tokens_cons_stray _ hb (by simp)]
    exact ih
  | case5 b hb =>
    rw [tokens_cons_stray _ hb (by simp)]
    simp
  | case6 b rest hb hsp ih =>
    intro t ht
    rw [tokens_cons_single rest hb hsp] at ht
    rcases List.mem_cons.mp ht with rfl | ht
    · exact Or.inl ⟨b, rfl, hb, hsp⟩
    · exact ih t ht
  | case7 b rest hb hsp ih =>
    have hb' : b = sp := by simpa using hsp
    subst hb'
    rw [tokens_cons_space]
    exact ih

end StringUtil
end Sunet
