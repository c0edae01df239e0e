/-
# `split_ch_words` with positions of the type `int`

`split_ch_words` keeps its position and the length of the string in variables of the type
`int`.  The model here has the loop with these; the tokens are compared with the bytes of the
string that are to be kept, which are stated without the loop.  Strings below 2^31 bytes are
split without a loss; of a longer one, the loop goes through what lies below its converted
length.
-/
import Sunet.Util.StringUtil
import Sunet.Util.Numeral

namespace Sunet
namespace StringUtil

open Byte

/-! ## The loop -/

/-- The sum of a position and a constant, which is to be an `int`. -/
def addInt (i k : ℕ) : Option ℕ := if i + k < 2 ^ 31 then some (i + k) else none

/-- The loop of `split_ch_words` at position `i`: `none` if a read is outside the string and
its terminator, a position overflows, or the rounds are used up. -/
def splitChIntLoop (word : Bytes) (len : ℤ) : ℕ → ℕ → Option (List Bytes)
  | 0, _ => none
  | n + 1, i =>
    if (i : ℤ) < len then do
      let b ← strAt word i
      if isLead b then do
        let i₁ ← addInt i 1
        let b₁ ← strAt word i₁
        if isCont b₁ then do
          let i₂ ← addInt i 2
          let b₂ ← strAt word i₂
          if isCont b₂ then do
            let next ← addInt i 3
            let cnWords ← splitChIntLoop word len n next
            some ((word.drop i).take 3 :: cnWords)
          else do
            let next ← addInt i 1
            splitChIntLoop word len n next
        else do
          let next ← addInt i 1
          splitChIntLoop word len n next
      else if b ≠ sp then
        if schar b ≤ 127 then do
          let next ← addInt i 1
          let cnWords ← splitChIntLoop word len n next
          some ([b] :: cnWords)
        else do
          -- a run of bytes outside 0..127: never taken while `char` is signed
          let run := ((word ++ [nul]).drop i).takeWhile fun c => !(0 ≤ schar c && schar c ≤ 127)
          let next ← addInt i run.length
          let cnWords ← splitChIntLoop word len n next
          some ((word.drop i).take run.length :: cnWords)
      else do
        let next ← addInt i 1
        splitChIntLoop word len n next
    else some []

/-- `split_ch_words`, of `StringUtil` and of `WordSeg`. -/
def splitChInt (word : Bytes) : Option (List Bytes) :=
  splitChIntLoop word (wrapInt word.length) (word.length + 1) 0

/-! ## What is kept -/

/-- The string begins with a byte 0xE0..0xEF and two bytes 0x80..0xBF. -/
def StartsGroup : Bytes → Prop
  | b :: b₁ :: b₂ :: _ => (0xe0 ≤ b.toNat ∧ b.toNat ≤ 0xef) ∧
      (0x80 ≤ b₁.toNat ∧ b₁.toNat ≤ 0xbf) ∧ (0x80 ≤ b₂.toNat ∧ b₂.toNat ≤ 0xbf)
  | _ => False

/-- The first byte of the string is a space, or a byte 0xE0..0xEF that is not followed by two
bytes 0x80..0xBF. -/
def StartsRemoved : Bytes → Prop
  | b :: rest => b = sp ∨
      ((0xe0 ≤ b.toNat ∧ b.toNat ≤ 0xef) ∧ ¬ StartsGroup (b :: rest))
  | [] => False

instance : DecidablePred StartsGroup
  | b :: b₁ :: b₂ :: _ => inferInstanceAs (Decidable ((0xe0 ≤ b.toNat ∧ b.toNat ≤ 0xef) ∧
      (0x80 ≤ b₁.toNat ∧ b₁.toNat ≤ 0xbf) ∧ (0x80 ≤ b₂.toNat ∧ b₂.toNat ≤ 0xbf)))
  | [] => inferInstanceAs (Decidable False)
  | [_] => inferInstanceAs (Decidable False)
  | [_, _] => inferInstanceAs (Decidable False)

instance : DecidablePred StartsRemoved
  | b :: rest => inferInstanceAs (Decidable (b = sp ∨
      ((0xe0 ≤ b.toNat ∧ b.toNat ≤ 0xef) ∧ ¬ StartsGroup (b :: rest))))
  | [] => inferInstanceAs (Decidable False)

/-- The string without the bytes that are to be removed. -/
def kept : Bytes → Bytes
  | [] => []
  | b :: rest => if StartsRemoved (b :: rest) then kept rest else b :: kept rest

/-- The tokens lose nothing: they are the kept bytes in their order, each token is a byte or a
three-byte group, and their concatenation is split into them again. -/
def Lossless (word : Bytes) : Prop :=
  ∃ cnWords, splitChInt word = some cnWords ∧ cnWords.flatten = kept word ∧
    (∀ t ∈ cnWords, t.length = 1 ∨ (t.length = 3 ∧ StartsGroup t)) ∧
    splitChInt cnWords.flatten = some cnWords

/-- A position that the loop can come to: it lies below the converted length, or in a group
that begins there and ends below the greatest `int`. -/
def Seen (word : Bytes) (j : ℕ) : Prop :=
  (j : ℤ) < wrapInt word.length ∨
    ∃ p, StartsGroup (word.drop p) ∧ (p : ℤ) < wrapInt word.length ∧ p + 3 < 2 ^ 31 ∧
      p ≤ j ∧ j < p + 3

/-- From a position on, all bytes that are to be kept are at positions the loop can come to. -/
def CoveredFrom (word : Bytes) (i : ℕ) : Prop :=
  ∀ j, i ≤ j → j < word.length → ¬ StartsRemoved (word.drop j) → Seen word j

/-! ## Groups and tokens -/

lemma startsGroup_cons {b b₁ b₂ : Byte} {rest : Bytes} :
    StartsGroup (b :: b₁ :: b₂ :: rest) ↔ isLead b ∧ isCont b₁ ∧ isCont b₂ := by
  rw [isLead_iff, isCont_iff, isCont_iff]
  rfl

lemma StartsGroup.exists_cons {s : Bytes} (h : StartsGroup s) :
    ∃ b b₁ b₂ rest, s = b :: b₁ :: b₂ :: rest ∧ isLead b ∧ isCont b₁ ∧ isCont b₂ := by
  match s, h with
  | b :: b₁ :: b₂ :: rest, h => exact ⟨b, b₁, b₂, rest, rfl, startsGroup_cons.mp h⟩

lemma startsRemoved_cons {b : Byte} {rest : Bytes} :
    StartsRemoved (b :: rest) ↔ b = sp ∨ (isLead b ∧ ¬ StartsGroup (b :: rest)) := by
  rw [isLead_iff]
  rfl

lemma not_isLead_of_isCont {b : Byte} (h : isCont b) : ¬ isLead b := by
  rw [isLead_iff]
  rw [isCont_iff] at h
  omega

lemma not_startsGroup_of_not_isLead {b : Byte} {rest : Bytes} (h : ¬ isLead b) :
    ¬ StartsGroup (b :: rest) := by
  intro hgroup
  obtain ⟨c, c₁, c₂, rest', heq, hc, -⟩ := hgroup.exists_cons
  cases heq
  exact h hc

/-- A byte that continues a character is neither removed nor the start of a group. -/
lemma not_starts_of_isCont {b : Byte} {rest : Bytes} (h : isCont b) :
    ¬ StartsRemoved (b :: rest) ∧ ¬ StartsGroup (b :: rest) := by
  have hlead := not_isLead_of_isCont h
  refine ⟨?_, not_startsGroup_of_not_isLead hlead⟩
  rw [startsRemoved_cons]
  rintro (rfl | ⟨hb, -⟩)
  · revert h
    decide
  · exact hlead hb

lemma StartsGroup.not_startsRemoved {s : Bytes} (h : StartsGroup s) : ¬ StartsRemoved s := by
  obtain ⟨b, b₁, b₂, rest, rfl, hb, -⟩ := h.exists_cons
  rw [startsRemoved_cons]
  rintro (rfl | ⟨-, hno⟩)
  · revert hb
    decide
  · exact hno h

lemma kept_cons_group {b b₁ b₂ : Byte} {rest : Bytes} (hb : isLead b) (h₁ : isCont b₁)
    (h₂ : isCont b₂) : kept (b :: b₁ :: b₂ :: rest) = b :: b₁ :: b₂ :: kept rest := by
  have hgroup : StartsGroup (b :: b₁ :: b₂ :: rest) := startsGroup_cons.mpr ⟨hb, h₁, h₂⟩
  rw [kept, if_neg hgroup.not_startsRemoved, kept, if_neg (not_starts_of_isCont h₁).1, kept,
    if_neg (not_starts_of_isCont h₂).1]

/-- The tokens are the kept bytes. -/
lemma flatten_tokens (word : Bytes) : (tokens word).flatten = kept word := by
  induction word using tokens.induct with
  | case1 => simp [kept]
  | case2 b hb b₁ b₂ rest h ih =>
    rw [tokens_cons_triple rest hb h.1 h.2, kept_cons_group hb h.1 h.2, List.flatten_cons, ih]
    rfl
  | case3 b hb b₁ b₂ rest h ih =>
    have hremoved : StartsRemoved (b :: b₁ :: b₂ :: rest) :=
      startsRemoved_cons.mpr (.inr ⟨hb, fun hgroup => h (startsGroup_cons.mp hgroup).2⟩)
    rw [tokens_cons_stray _ hb ?_, kept, if_pos hremoved, ih]
    rintro c₁ c₂ r hr
    cases hr
    exact h
  | case4 b hb b₁ ih =>
    have hremoved : StartsRemoved [b, b₁] := startsRemoved_cons.mpr (.inr ⟨hb, id⟩)
    rw [tokens_cons_stray _ hb (by simp), kept, if_pos hremoved, ih]
  | case5 b hb =>
    have hremoved : StartsRemoved [b] := startsRemoved_cons.mpr (.inr ⟨hb, id⟩)
    rw [tokens_cons_stray _ hb (by simp), kept, if_pos hremoved]
    simp [kept]
  | case6 b rest hb hsp ih =>
    have hstays : ¬ StartsRemoved (b :: rest) := by
      rw [startsRemoved_cons]
      rintro (rfl | ⟨hlead, -⟩)
      · exact hsp rfl
      · exact hb hlead
    rw [tokens_cons_single rest hb hsp, kept, if_neg hstays, List.flatten_cons, ih]
    rfl
  | case7 b rest hb hsp ih =>
    have hb' : b = sp := not_not.mp hsp
    subst hb'
    rw [tokens_cons_space, kept, if_pos (startsRemoved_cons.mpr (.inl rfl)), ih]

/-- The concatenation of tokens is split into them again. -/
lemma tokens_flatten {ts : List Bytes} (h : ∀ t ∈ ts, IsToken t) : tokens ts.flatten = ts := by
  induction ts with
  | nil => simp
  | cons t ts ih =>
    have hrest := ih fun t' ht' => h t' (List.mem_cons_of_mem _ ht')
    rw [List.flatten_cons]
    rcases h t List.mem_cons_self with ⟨b, rfl, hb, hsp⟩ | ⟨b, b₁, b₂, rfl, hb, h₁, h₂⟩
    · rw [List.singleton_append, tokens_cons_single _ hb hsp, hrest]
    · show tokens (b :: b₁ :: b₂ :: ts.flatten) = _
      rw [tokens_cons_triple _ hb h₁ h₂, hrest]

lemma IsToken.shape {t : Bytes} (h : IsToken t) :
    t.length = 1 ∨ (t.length = 3 ∧ StartsGroup t) := by
  rcases h with ⟨b, rfl, -⟩ | ⟨b, b₁, b₂, rfl, hb, h₁, h₂⟩
  · exact .inl rfl
  · exact .inr ⟨rfl, startsGroup_cons.mpr ⟨hb, h₁, h₂⟩⟩

lemma kept_eq_nil_iff {word : Bytes} :
    kept word = [] ↔ ∀ j < word.length, StartsRemoved (word.drop j) := by
  induction word with
  | nil => simp [kept]
  | cons b rest ih =>
    rw [kept, List.length_cons]
    constructor
    · intro h j hj
      split at h
      · next hremoved =>
        cases j with
        | zero => exact hremoved
        | succ j => exact ih.mp h j (by omega)
      · cases h
    · intro h
      have hremoved : StartsRemoved (b :: rest) := h 0 (by omega)
      rw [if_pos hremoved, ih]
      exact fun j hj => h (j + 1) (by omega)

/-- Removed bytes at the end do not count. -/
lemma length_kept_le {word : Bytes} {k : ℕ}
    (h : ∀ j, k ≤ j → j < word.length → StartsRemoved (word.drop j)) :
    (kept word).length ≤ k := by
  induction word generalizing k with
  | nil => simp [kept]
  | cons b rest ih =>
    cases k with
    | zero =>
      have hnil : kept (b :: rest) = [] := kept_eq_nil_iff.mpr fun j hj => h j (by omega) hj
      rw [hnil]
      exact le_rfl
    | succ k =>
      have hrest : (kept rest).length ≤ k := by
        refine ih fun j hkj hj => ?_
        exact h (j + 1) (by omega) (by rw [List.length_cons]; omega)
      rw [kept]
      split
      · omega
      · rw [List.length_cons]
        omega

/-! ## One round -/

lemma strAt_add {word : Bytes} {i : ℕ} (hi : i ≤ word.length) (k : ℕ) :
    strAt word (i + k) = strAt (word.drop i) k := by
  have h := strAt_append (word.take i) (word.drop i) k
  rwa [List.take_append_drop, List.length_take, min_eq_left hi] at h

lemma drop_add_of_drop {word rest : Bytes} {b : Byte} {i : ℕ} (h : word.drop i = b :: rest)
    (k : ℕ) :
    word.drop (i + (k + 1)) = rest.drop k := by
  rw [← List.drop_drop, h]
  rfl

/-- What a round below the converted length does: it takes a group, stops at a position that
is no `int` behind a first byte and continuation bytes, drops a byte, or takes one. -/
inductive Round (word : Bytes) (n i : ℕ) : Prop
  | group {b b₁ b₂ : Byte} {rest : Bytes} (hdrop : word.drop i = b :: b₁ :: b₂ :: rest)
      (hb : isLead b) (h₁ : isCont b₁) (h₂ : isCont b₂) (hfit : i + 3 < 2 ^ 31)
      (heq : splitChIntLoop word (wrapInt word.length) (n + 1) i =
        (splitChIntLoop word (wrapInt word.length) n (i + 3)).map ([b, b₁, b₂] :: ·))
  | overflow {c c' : Byte} {rest rest' : Bytes} (k : ℕ) (hk : k = 1 ∨ k = 2)
      (hfirst : word.drop (i + 1) = c :: rest) (hc : isCont c)
      (hlast : word.drop (i + k) = c' :: rest') (hc' : isCont c') (hbound : 2 ^ 31 ≤ i + k + 1)
      (heq : splitChIntLoop word (wrapInt word.length) (n + 1) i = none)
  | removed {b : Byte} {rest : Bytes} (hdrop : word.drop i = b :: rest)
      (hb : StartsRemoved (b :: rest))
      (heq : splitChIntLoop word (wrapInt word.length) (n + 1) i =
        splitChIntLoop word (wrapInt word.length) n (i + 1))
  | single {b : Byte} {rest : Bytes} (hdrop : word.drop i = b :: rest) (hb : ¬ isLead b)
      (hsp : b ≠ sp)
      (heq : splitChIntLoop word (wrapInt word.length) (n + 1) i =
        (splitChIntLoop word (wrapInt word.length) n (i + 1)).map ([b] :: ·))

lemma round {word : Bytes} {n i : ℕ} (hi : (i : ℤ) < wrapInt word.length) : Round word n i := by
  have hlen := wrapInt_le word.length
  have hhigh := (isInt_wrapInt word.length).bounds.2
  have hin : i ≤ word.length := by omega
  have hone : addInt i 1 = some (i + 1) := if_pos (by omega)
  cases hdrop : word.drop i with
  | nil =>
    rw [List.drop_eq_nil_iff] at hdrop
    omega
  | cons b rest =>
    have hread : strAt word i = some b := by
      have h := strAt_add hin 0
      rwa [hdrop] at h
    have hread₁ : strAt word (i + 1) = strAt rest 0 := by rw [strAt_add hin, hdrop]; rfl
    have hread₂ : strAt word (i + 2) = strAt rest 1 := by rw [strAt_add hin, hdrop]; rfl
    have hnul : ¬ isCont nul := by decide
    by_cases hb : isLead b
    · match rest, hdrop, hread₁, hread₂ with
      | [], hdrop, hread₁, _ =>
        refine .removed hdrop (startsRemoved_cons.mpr (.inr ⟨hb, id⟩)) ?_
        rw [splitChIntLoop, if_pos hi]
        simp [hread, hb, hone, hread₁, hnul]
      | b₁ :: rest, hdrop, hread₁, hread₂ =>
        have hdrop₁ : word.drop (i + 1) = b₁ :: rest := drop_add_of_drop hdrop 0
        by_cases h₁ : isCont b₁
        · by_cases htwo : i + 2 < 2 ^ 31
          · have htwo' : addInt i 2 = some (i + 2) := if_pos htwo
            match rest, hdrop, hdrop₁, hread₂ with
            | [], hdrop, hdrop₁, hread₂ =>
              refine .removed hdrop (startsRemoved_cons.mpr (.inr ⟨hb, id⟩)) ?_
              rw [splitChIntLoop, if_pos hi]
              simp [hread, hb, hone, hread₁, htwo', hread₂, hnul]
            | b₂ :: rest, hdrop, hdrop₁, hread₂ =>
              by_cases h₂ : isCont b₂
              · by_cases hfit : i + 3 < 2 ^ 31
                · refine .group hdrop hb h₁ h₂ hfit ?_
                  have hthree : addInt i 3 = some (i + 3) := if_pos hfit
                  rw [splitChIntLoop, if_pos hi]
                  cases hnext : splitChIntLoop word (wrapInt word.length) n (i + 3) <;>
                    simp [hread, hb, hone, hread₁, h₁, htwo', hread₂, h₂, hthree, hdrop, hnext]
                · refine .overflow 2 (.inr rfl) hdrop₁ h₁ (drop_add_of_drop hdrop 1) h₂
                    (by omega) ?_
                  have hthree : addInt i 3 = none := if_neg hfit
                  rw [splitChIntLoop, if_pos hi]
                  simp [hread, hb, hone, hread₁, h₁, htwo', hread₂, h₂, hthree]
              · have hremoved : StartsRemoved (b :: b₁ :: b₂ :: rest) :=
                  startsRemoved_cons.mpr (.inr ⟨hb, fun h => h₂ (startsGroup_cons.mp h).2.2⟩)
                refine .removed hdrop hremoved ?_
                rw [splitChIntLoop, if_pos hi]
                simp [hread, hb, hone, hread₁, htwo', hread₂, h₂]
          · refine .overflow 1 (.inl rfl) hdrop₁ h₁ hdrop₁ h₁ (by omega) ?_
            have htwo' : addInt i 2 = none := if_neg htwo
            rw [splitChIntLoop, if_pos hi]
            simp [hread, hb, hone, hread₁, h₁, htwo']
        · have hremoved : StartsRemoved (b :: b₁ :: rest) := by
            refine startsRemoved_cons.mpr (.inr ⟨hb, fun h => ?_⟩)
            obtain ⟨c, c₁, c₂, r, heq, -, hc₁, -⟩ := h.exists_cons
            cases heq
            exact h₁ hc₁
          refine .removed hdrop hremoved ?_
          rw [splitChIntLoop, if_pos hi]
          simp [hread, hb, hone, hread₁, h₁]
    · by_cases hsp : b = sp
      · refine .removed hdrop (startsRemoved_cons.mpr (.inl hsp)) ?_
        subst hsp
        rw [splitChIntLoop, if_pos hi]
        simp [hread, hb, hone]
      · refine .single hdrop hb hsp ?_
        rw [splitChIntLoop, if_pos hi]
        cases hnext : splitChIntLoop word (wrapInt word.length) n (i + 1) <;>
          simp [hread, hb, hone, hsp, schar_le, hnext]

/-- Whatever the length, what is returned are characters. -/
lemma isToken_of_splitChIntLoop {word : Bytes} {n i : ℕ} {cnWords : List Bytes}
    (h : splitChIntLoop word (wrapInt word.length) n i = some cnWords) :
    ∀ t ∈ cnWords, IsToken t := by
  induction n generalizing i cnWords with
  | zero => cases h
  | succ n ih =>
    by_cases hlt : (i : ℤ) < wrapInt word.length
    · cases round (n := n) hlt with
      | @group b b₁ b₂ _ _ hb h₁ h₂ _ heq =>
        rw [heq, Option.map_eq_some_iff] at h
        obtain ⟨cnWords', hrest, rfl⟩ := h
        intro t ht
        rcases List.mem_cons.mp ht with rfl | ht
        · exact .inr ⟨b, b₁, b₂, rfl, hb, h₁, h₂⟩
        · exact ih hrest t ht
      | overflow _ _ _ _ _ _ _ heq =>
        rw [heq] at h
        cases h
      | removed _ _ heq => exact ih (heq ▸ h)
      | @single b _ _ hb hsp heq =>
        rw [heq, Option.map_eq_some_iff] at h
        obtain ⟨cnWords', hrest, rfl⟩ := h
        intro t ht
        rcases List.mem_cons.mp ht with rfl | ht
        · exact .inl ⟨b, rfl, hb, hsp⟩
        · exact ih hrest t ht
    · rw [splitChIntLoop, if_neg hlt] at h
      cases h
      simp

/-! ## The loop and the kept bytes -/

/-- No group reaches over a position. -/
def Boundary (word : Bytes) (i : ℕ) : Prop :=
  ∀ p < i, StartsGroup (word.drop p) → p + 3 ≤ i

/-- The loop does not come to a byte behind its last position. -/
lemma Boundary.not_seen {word : Bytes} {i j : ℕ} (h : Boundary word i)
    (hi : wrapInt word.length ≤ i) (hij : i ≤ j) : ¬ Seen word j := by
  rintro (hj | ⟨p, hgroup, hp, -, -, hjp⟩)
  · omega
  · have hpi := h p (by omega) hgroup
    omega

lemma Boundary.succ {word : Bytes} {i : ℕ} (h : Boundary word i)
    (hno : ¬ StartsGroup (word.drop i)) : Boundary word (i + 1) := by
  intro p hp hgroup
  rcases Nat.lt_succ_iff_lt_or_eq.mp hp with hlt | rfl
  · have hpi := h p hlt hgroup
    omega
  · exact absurd hgroup hno

/-- The bytes behind the first one of a group start none. -/
lemma Boundary.group {word : Bytes} {i : ℕ} {b b₁ b₂ : Byte} {rest : Bytes} (h : Boundary word i)
    (hdrop : word.drop i = b :: b₁ :: b₂ :: rest) (h₁ : isCont b₁) (h₂ : isCont b₂) :
    Boundary word (i + 3) := by
  have hdrop₁ : word.drop (i + 1) = b₁ :: b₂ :: rest := drop_add_of_drop hdrop 0
  have hdrop₂ : word.drop (i + 2) = b₂ :: rest := drop_add_of_drop hdrop 1
  intro p hp hgroup
  by_cases hlt : p < i
  · have hpi := h p hlt hgroup
    omega
  · have hcases : p = i ∨ p = i + 1 ∨ p = i + 2 := by omega
    rcases hcases with rfl | rfl | rfl
    · omega
    · exact absurd (hdrop₁ ▸ hgroup) (not_starts_of_isCont h₁).2
    · exact absurd (hdrop₂ ▸ hgroup) (not_starts_of_isCont h₂).2

/-- A round that stops has in front of it a byte that is kept and not seen. -/
lemma Boundary.not_covered {word : Bytes} {i k : ℕ} {c c' : Byte} {rest rest' : Bytes}
    (h : Boundary word i) (hk : k = 1 ∨ k = 2) (hfirst : word.drop (i + 1) = c :: rest)
    (hc : isCont c) (hlast : word.drop (i + k) = c' :: rest') (hc' : isCont c')
    (hbound : 2 ^ 31 ≤ i + k + 1) : ¬ CoveredFrom word i := by
  intro hcovered
  have hhigh := (isInt_wrapInt word.length).bounds.2
  have hin : i + k < word.length := by
    by_contra hout
    rw [List.drop_eq_nil_iff.mpr (by omega)] at hlast
    cases hlast
  have hkept : ¬ StartsRemoved (word.drop (i + k)) := by
    rw [hlast]
    exact (not_starts_of_isCont hc').1
  rcases hcovered (i + k) (by omega) hin hkept with hlt | ⟨p, hgroup, hp, hfit, hpk, hkp⟩
  · omega
  · by_cases hlt : p < i
    · have hpi := h p hlt hgroup
      omega
    · have hcases : p = i ∨ p = i + 1 ∨ p = i + k := by
        rcases hk with rfl | rfl <;> omega
      rcases hcases with rfl | rfl | rfl
      · omega
      · exact absurd (hfirst ▸ hgroup) (not_starts_of_isCont hc).2
      · exact absurd (hlast ▸ hgroup) (not_starts_of_isCont hc').2

lemma tokens_eq_nil {word : Bytes} (h : kept word = []) : tokens word = [] := by
  rw [← flatten_tokens, List.flatten_eq_nil_iff] at h
  refine List.eq_nil_iff_forall_not_mem.mpr fun t ht => ?_
  exact (isToken_of_mem_tokens word t ht).ne_nil (h t ht)

lemma tokens_removed {b : Byte} {rest : Bytes} (h : StartsRemoved (b :: rest)) :
    tokens (b :: rest) = tokens rest := by
  rcases startsRemoved_cons.mp h with rfl | ⟨hb, hno⟩
  · exact tokens_cons_space rest
  · refine tokens_cons_stray rest hb fun b₁ b₂ rest' heq hconts => hno ?_
    rw [heq]
    exact startsGroup_cons.mpr ⟨hb, hconts⟩

lemma not_startsRemoved_single {b : Byte} {rest : Bytes} (hb : ¬ isLead b) (hsp : b ≠ sp) :
    ¬ StartsRemoved (b :: rest) := by
  rw [startsRemoved_cons]
  rintro (h | ⟨hlead, -⟩)
  · exact hsp h
  · exact hb hlead

lemma not_startsGroup_of_startsRemoved {s : Bytes} (h : StartsRemoved s) : ¬ StartsGroup s :=
  fun hgroup => hgroup.not_startsRemoved h

/-- Where the kept bytes are covered, the loop returns all tokens. -/
lemma splitChIntLoop_of_covered {word : Bytes} {n i : ℕ} (hn : word.length < i + n)
    (hi : i ≤ word.length) (hboundary : Boundary word i) (hcovered : CoveredFrom word i) :
    splitChIntLoop word (wrapInt word.length) n i = some (tokens (word.drop i)) := by
  induction n generalizing i with
  | zero => omega
  | succ n ih =>
    by_cases hlt : (i : ℤ) < wrapInt word.length
    · -- what is covered from a position is covered from any later one
      have hmono : ∀ k, CoveredFrom word (i + k) := fun k j hj => hcovered j (by omega)
      cases round (n := n) hlt with
      | group hdrop hb h₁ h₂ hfit heq =>
        have hlen := congrArg List.length hdrop
        simp only [List.length_drop, List.length_cons] at hlen
        have hdrop₃ : word.drop (i + 3) = _ := drop_add_of_drop hdrop 2
        rw [heq, ih (by omega) (by omega) (hboundary.group hdrop h₁ h₂) (hmono 3), hdrop, hdrop₃,
          tokens_cons_triple _ hb h₁ h₂]
        rfl
      | overflow k hk hfirst hc hlast hc' hbound heq =>
        exact absurd hcovered (hboundary.not_covered hk hfirst hc hlast hc' hbound)
      | removed hdrop hb heq =>
        have hlen := congrArg List.length hdrop
        simp only [List.length_drop, List.length_cons] at hlen
        have hno := not_startsGroup_of_startsRemoved hb
        have hdrop₁ : word.drop (i + 1) = _ := drop_add_of_drop hdrop 0
        rw [heq, ih (by omega) (by omega) (hboundary.succ (hdrop ▸ hno)) (hmono 1), hdrop, hdrop₁,
          tokens_removed hb]
        rfl
      | @single b rest hdrop hb hsp heq =>
        have hlen := congrArg List.length hdrop
        simp only [List.length_drop, List.length_cons] at hlen
        have hno : ¬ StartsGroup (b :: rest) := not_startsGroup_of_not_isLead hb
        have hdrop₁ : word.drop (i + 1) = _ := drop_add_of_drop hdrop 0
        rw [heq, ih (by omega) (by omega) (hboundary.succ (hdrop ▸ hno)) (hmono 1), hdrop, hdrop₁,
          tokens_cons_single _ hb hsp]
        rfl
    · -- behind the converted length nothing is seen, so nothing is kept
      have hnil : kept (word.drop i) = [] := by
        refine kept_eq_nil_iff.mpr fun j hj => ?_
        rw [List.length_drop] at hj
        rw [List.drop_drop]
        by_contra hkept
        exact hboundary.not_seen (not_lt.mp hlt) (by omega)
          (hcovered (i + j) (by omega) (by omega) hkept)
      rw [splitChIntLoop, if_neg hlt, tokens_eq_nil hnil]

/-- A loop that returns all kept bytes has covered them. -/
lemma covered_of_splitChIntLoop {word : Bytes} {n i : ℕ} (hboundary : Boundary word i)
    {cnWords : List Bytes}
    (hloop : splitChIntLoop word (wrapInt word.length) n i = some cnWords)
    (hkept : cnWords.flatten = kept (word.drop i)) : CoveredFrom word i := by
  induction n generalizing i cnWords with
  | zero => cases hloop
  | succ n ih =>
    by_cases hlt : (i : ℤ) < wrapInt word.length
    · cases round (n := n) hlt with
      | @group b b₁ b₂ rest hdrop hb h₁ h₂ hfit heq =>
        have hdrop₃ : word.drop (i + 3) = rest := drop_add_of_drop hdrop 2
        rw [heq, Option.map_eq_some_iff] at hloop
        obtain ⟨cnWords', hloop', rfl⟩ := hloop
        rw [hdrop, kept_cons_group hb h₁ h₂, List.flatten_cons] at hkept
        have hkept' : cnWords'.flatten = kept (word.drop (i + 3)) := by
          rw [hdrop₃]
          simpa using hkept
        have hrest := ih (hboundary.group hdrop h₁ h₂) hloop' hkept'
        intro j hij hj hno
        by_cases hin : j < i + 3
        · have hgroup : StartsGroup (word.drop i) := hdrop ▸ startsGroup_cons.mpr ⟨hb, h₁, h₂⟩
          exact .inr ⟨i, hgroup, hlt, hfit, hij, hin⟩
        · exact hrest j (by omega) hj hno
      | overflow k hk hfirst hc hlast hc' hbound heq =>
        rw [heq] at hloop
        cases hloop
      | @removed b rest hdrop hb heq =>
        have hdrop₁ : word.drop (i + 1) = rest := drop_add_of_drop hdrop 0
        have hno := not_startsGroup_of_startsRemoved hb
        rw [heq] at hloop
        rw [hdrop, kept, if_pos hb, ← hdrop₁] at hkept
        have hrest := ih (hboundary.succ (hdrop ▸ hno)) hloop hkept
        intro j hij hj hstays
        by_cases hji : j = i
        · subst hji
          exact absurd (hdrop ▸ hb) hstays
        · exact hrest j (by omega) hj hstays
      | @single b rest hdrop hb hsp heq =>
        have hdrop₁ : word.drop (i + 1) = rest := drop_add_of_drop hdrop 0
        have hno : ¬ StartsGroup (b :: rest) := not_startsGroup_of_not_isLead hb
        rw [heq, Option.map_eq_some_iff] at hloop
        obtain ⟨cnWords', hloop', rfl⟩ := hloop
        rw [hdrop, kept, if_neg (not_startsRemoved_single hb hsp), List.flatten_cons] at hkept
        have hkept' : cnWords'.flatten = kept (word.drop (i + 1)) := by
          rw [hdrop₁]
          simpa using hkept
        have hrest := ih (hboundary.succ (hdrop ▸ hno)) hloop' hkept'
        intro j hij hj hstays
        by_cases hji : j = i
        · subst hji
          exact .inl hlt
        · exact hrest j (by omega) hj hstays
    · rw [splitChIntLoop, if_neg hlt] at hloop
      cases hloop
      intro j hij hj hno
      have hremoved := kept_eq_nil_iff.mp hkept.symm (j - i) (by rw [List.length_drop]; omega)
      rw [List.drop_drop, Nat.add_sub_cancel' hij] at hremoved
      exact absurd hremoved hno

/-! ## Which strings are split without a loss -/

lemma boundary_zero (word : Bytes) : Boundary word 0 := fun _ hp => absurd hp (Nat.not_lt_zero _)

lemma splitChInt_of_covered {word : Bytes} (h : CoveredFrom word 0) :
    splitChInt word = some (tokens word) := by
  have hloop := splitChIntLoop_of_covered (n := word.length + 1) (by omega) (Nat.zero_le _)
    (boundary_zero word) h
  rwa [List.drop_zero] at hloop

/-- Of a string whose length is an `int` everything is covered. -/
lemma covered_of_length_lt {word : Bytes} (h : word.length < 2 ^ 31) : CoveredFrom word 0 := by
  have hlen : wrapInt word.length = word.length := isInt_of_lt h
  exact fun j _ hj _ => .inl (by omega)

/-- A string whose length is an `int` is split into its tokens. -/
lemma splitChInt_eq {word : Bytes} (h : word.length < 2 ^ 31) :
    splitChInt word = some (tokens word) :=
  splitChInt_of_covered (covered_of_length_lt h)

/-- What the loop can come to is less than 2^31 bytes. -/
lemma length_kept_lt {word : Bytes} (h : CoveredFrom word 0) : (kept word).length < 2 ^ 31 := by
  have hhigh := (isInt_wrapInt word.length).bounds.2
  have hle : (kept word).length ≤ 2 ^ 31 - 1 := by
    refine length_kept_le fun j hkj hj => ?_
    by_contra hstays
    rcases h j (Nat.zero_le j) hj hstays with hlt | ⟨p, -, -, hfit, -, hjp⟩
    · omega
    · omega
  omega

/-- **Character splitting** is a lossless tokenisation exactly of the strings of which every
byte that is to be kept lies below the converted length, or in a group that begins below
it.  All strings of less than 2^31 bytes are such (`covered_of_length_lt`). -/
theorem lossless_iff (word : Bytes) : Lossless word ↔ CoveredFrom word 0 := by
  constructor
  · rintro ⟨cnWords, hsplit, hflatten, -, -⟩
    exact covered_of_splitChIntLoop (boundary_zero word) hsplit hflatten
  · intro h
    have hkept := length_kept_lt h
    refine ⟨tokens word, splitChInt_of_covered h, flatten_tokens word,
      fun t ht => (isToken_of_mem_tokens word t ht).shape, ?_⟩
    rw [splitChInt_eq (by rwa [flatten_tokens]), tokens_flatten (isToken_of_mem_tokens word)]

/-- A string without a space or a character of three bytes whose length is converted to a
number below one is split into nothing. -/
lemma not_lossless_replicate {n : ℕ} (h : wrapInt ((n + 1 : ℕ) : ℤ) < 1) :
    ¬ Lossless (List.replicate (n + 1) 97) := by
  rintro ⟨cnWords, hsplit, hflatten, -, -⟩
  rw [splitChInt, List.length_replicate, splitChIntLoop, if_neg (by omega)] at hsplit
  cases hsplit
  have hremoved := kept_eq_nil_iff.mp hflatten.symm 0 (by simp)
  rw [List.drop_zero, List.replicate_succ, startsRemoved_cons] at hremoved
  revert hremoved
  simp [show ¬ isLead 97 by decide, show (97 : Byte) ≠ sp by decide]

/-- A string of 2^31 letters. -/
theorem letters_lost : ¬ ∀ word : Bytes, Lossless word := fun h =>
  not_lossless_replicate (n := 2147483647) (by decide) (h _)

end StringUtil
end Sunet
