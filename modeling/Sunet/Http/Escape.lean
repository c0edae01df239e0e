/-
# Escapes

What `encode` writes is a sequence of plain bytes and of escapes with two upper-case digits,
and `decode` reads it back.  On other strings `decode` trusts that two hexadecimal digits
follow every `%`.  The model of its loop here has the index and every read of the source in
its place and notes for each byte of the output the index at which its round started; it
comes to an end inside the string, with no byte computed from the -1 of `hexChar2dec`, exactly
when every `%` is followed by two digits.
-/
import Sunet.Http.Codec
import Sunet.Util.StringUtil

namespace Sunet
namespace Http

open Byte StringUtil

/-! ## What `encode` writes -/

/-- A letter, a digit, `/` or `.`. -/
def IsUrlChar (c : Byte) : Prop :=
  (0x61 ≤ c.toNat ∧ c.toNat ≤ 0x7a) ∨ (0x41 ≤ c.toNat ∧ c.toNat ≤ 0x5a) ∨
    (0x30 ≤ c.toNat ∧ c.toNat ≤ 0x39) ∨ c = 0x2f ∨ c = 0x2e

/-- An upper-case hexadecimal digit. -/
def IsUpperHex (c : Byte) : Prop :=
  (0x30 ≤ c.toNat ∧ c.toNat ≤ 0x39) ∨ (0x41 ≤ c.toNat ∧ c.toNat ≤ 0x46)

instance : DecidablePred IsUrlChar := fun c => by
  unfold IsUrlChar
  infer_instance

instance : DecidablePred IsUpperHex := fun c => by
  unfold IsUpperHex
  infer_instance

/-- The strings of plain bytes and of escapes with upper-case digits. -/
inductive Encoded : Bytes → Prop
  | nil : Encoded []
  | plain {c : Byte} {rest : Bytes} : IsUrlChar c → Encoded rest → Encoded (c :: rest)
  | escape {c1 c0 : Byte} {rest : Bytes} : IsUpperHex c1 → IsUpperHex c0 → Encoded rest →
      Encoded (percent :: c1 :: c0 :: rest)

lemma isPlain_iff : ∀ c : Byte, isPlain c ↔ IsUrlChar c := by
  decide +kernel

/-- The two digits that are written for a byte that is not plain. -/
lemma encodeChar_escape :
    ∀ c : Byte, ¬ isPlain c →
      ∃ c1 c0 : Byte, encodeChar c = [percent, c1, c0] ∧ IsUpperHex c1 ∧ IsUpperHex c0 := by
  intro c hc
  have hdigits : ∀ c : Byte,
      IsUpperHex (dec2hexChar ((if schar c < 0 then schar c + 256 else schar c) / 16)) ∧
        IsUpperHex (dec2hexChar ((if schar c < 0 then schar c + 256 else schar c) -
          (if schar c < 0 then schar c + 256 else schar c) / 16 * 16)) := by
    decide +kernel
  exact ⟨_, _, if_neg hc, (hdigits c).1, (hdigits c).2⟩

lemma encoded_encode (s : Bytes) : Encoded (encode s) := by
  induction s with
  | nil => exact Encoded.nil
  | cons c s ih =>
    have hcons : encode (c :: s) = encodeChar c ++ encode s := rfl
    rw [hcons]
    by_cases hc : isPlain c
    · have hchar : encodeChar c = [c] := if_pos hc
      rw [hchar]
      exact Encoded.plain ((isPlain_iff c).mp hc) ih
    · obtain ⟨c1, c0, hchar, h1, h0⟩ := encodeChar_escape c hc
      rw [hchar]
      exact Encoded.escape h1 h0 ih

/-- **Percent coding round trip.**  Decoding undoes encoding, a code consists of plain bytes and
escapes, and encoding undoes decoding on the codes. -/
theorem encode_round_trip (beyond : Byte) :
    (∀ s, decode beyond (encode s) = s) ∧ (∀ s, Encoded (encode s)) ∧
      ∀ u ∈ Set.range encode, encode (decode beyond u) = u := by
  refine ⟨decode_encode beyond, encoded_encode, ?_⟩
  rintro u ⟨s, rfl⟩
  rw [decode_encode]

/-! ## The loop of `decode` -/

/-- A byte that `decode` appends and the index at which its round started. -/
structure Output where
  pos : ℕ
  val : Byte
deriving DecidableEq, Repr

/-- The loop of `decode` from the index `i` on: the output, or `none` if it reads behind the
terminator or the rounds are used up. -/
def decodeLoop (url : Bytes) : ℕ → ℕ → Option (List Output)
  | 0, i => if i < url.length then none else some []
  | n + 1, i =>
    if i < url.length then do
      let c ← strAt url i
      if c ≠ percent then do
        let result ← decodeLoop url n (i + 1)
        some (⟨i, c⟩ :: result)
      else do
        -- neither the length nor the digits are tested
        let c1 ← strAt url (i + 1)
        let c0 ← strAt url (i + 2)
        let result ← decodeLoop url n (i + 3)
        some (⟨i, decodeNum c1 c0⟩ :: result)
    else some []

/-- The loop behind `pre` is the recursion on the rest of the string. -/
lemma decodeLoop_eq_decode (beyond : Byte) (n : ℕ) :
    ∀ (pre rest : Bytes) (out : List Output),
      decodeLoop (pre ++ rest) n pre.length = some out →
        out.map Output.val = decode beyond rest := by
  induction n with
  | zero =>
    intro pre rest out h
    rw [decodeLoop, List.length_append] at h
    split at h
    · cases h
    · cases h
      have hnil : rest = [] := List.eq_nil_of_length_eq_zero (by omega)
      rw [hnil]
      rfl
  | succ n ih =>
    intro pre rest out h
    rw [decodeLoop, List.length_append] at h
    cases rest with
    | nil =>
      rw [if_neg (by simp)] at h
      cases h
      rfl
    | cons c rest =>
      have hread : strAt (pre ++ c :: rest) pre.length = some c := strAt_append pre _ 0
      have hread₁ : strAt (pre ++ c :: rest) (pre.length + 1) = strAt rest 0 :=
        strAt_append pre _ 1
      have hread₂ : strAt (pre ++ c :: rest) (pre.length + 2) = strAt rest 1 :=
        strAt_append pre _ 2
      rw [if_pos (by simp), hread, hread₁, hread₂] at h
      simp only [Option.bind_eq_bind, Option.bind_some] at h
      by_cases hc : c = percent
      · rw [if_neg (by simpa using hc)] at h
        subst hc
        simp only [Option.bind_eq_some_iff] at h
        obtain ⟨c1, h1, c0, h0, result, hresult, hout⟩ := h
        cases hout
        match rest, h1, h0, hresult with
        | [], h1, h0, _ => cases h0
        | [c1'], h1, h0, hresult =>
          -- the second digit is the terminator
          cases h1
          cases h0
          have hend : result = [] := by
            cases n <;> simpa [decodeLoop, eq_comm] using hresult
          rw [hend]
          rfl
        | c1' :: c0' :: rest, h1, h0, hresult =>
          cases h1
          cases h0
          have hbuf : pre ++ percent :: c1 :: c0 :: rest = (pre ++ [percent, c1, c0]) ++ rest := by
            simp
          have hlen : pre.length + 3 = (pre ++ [percent, c1, c0]).length := by simp
          rw [hbuf, hlen] at hresult
          rw [decode_escape, List.map_cons, ih _ _ _ hresult]
      · rw [if_pos (by simpa using hc)] at h
        obtain ⟨result, hresult, hout⟩ := Option.bind_eq_some_iff.mp h
        cases hout
        have hbuf : pre ++ c :: rest = (pre ++ [c]) ++ rest := by simp
        have hlen : pre.length + 1 = (pre ++ [c]).length := by simp
        rw [hbuf, hlen] at hresult
        rw [decode_cons_plain _ hc, List.map_cons, ih _ _ _ hresult]

/-- **The loop computes `decode`** whenever it does not leave the string. -/
theorem decodeLoop_decode (beyond : Byte) {url : Bytes} {out : List Output}
    (h : decodeLoop url url.length 0 = some out) : out.map Output.val = decode beyond url :=
  decodeLoop_eq_decode beyond url.length [] url out h

/-! ## Where the digits are digits -/

/-- A hexadecimal digit. -/
def IsHex (c : Byte) : Prop :=
  (0x30 ≤ c.toNat ∧ c.toNat ≤ 0x39) ∨ (0x61 ≤ c.toNat ∧ c.toNat ≤ 0x66) ∨
    (0x41 ≤ c.toNat ∧ c.toNat ≤ 0x46)

instance : DecidablePred IsHex := fun c => by
  unfold IsHex
  infer_instance

/-- The value of a hexadecimal digit. -/
def digitVal (c : Byte) : ℕ :=
  if c.toNat ≤ 0x39 then c.toNat - 0x30
  else if c.toNat ≤ 0x46 then c.toNat - 0x41 + 10
  else c.toNat - 0x61 + 10

/-- Two hexadecimal digits follow the index. -/
def EscapeAt (url : Bytes) (i : ℕ) : Prop :=
  ∃ c1 c0, url[i + 1]? = some c1 ∧ url[i + 2]? = some c0 ∧ IsHex c1 ∧ IsHex c0

/-- A byte of the output is a byte that was copied, or the value of a `%` with two
hexadecimal digits behind it. -/
def Output.Justified (url : Bytes) (o : Output) : Prop :=
  url[o.pos]? = some o.val ∧ o.val ≠ percent ∨
    url[o.pos]? = some percent ∧ ∃ c1 c0, url[o.pos + 1]? = some c1 ∧
      url[o.pos + 2]? = some c0 ∧ IsHex c1 ∧ IsHex c0 ∧
      o.val = UInt8.ofNat (digitVal c1 * 16 + digitVal c0)

lemma hexChar2dec_of_isHex : ∀ c : Byte, IsHex c → hexChar2dec c = digitVal c := by
  decide +kernel

lemma ofInt_natCast (n : ℕ) : UInt8.ofInt n = UInt8.ofNat n := by
  have hmod : ((n : ℤ) % 2 ^ 8).toNat = n % 2 ^ 8 := by omega
  rw [UInt8.ofInt, hmod, UInt8.ofNat_mod_size]

lemma decodeNum_of_isHex {c1 c0 : Byte} (h1 : IsHex c1) (h0 : IsHex c0) :
    decodeNum c1 c0 = UInt8.ofNat (digitVal c1 * 16 + digitVal c0) := by
  rw [decodeNum, hexChar2dec_of_isHex c1 h1, hexChar2dec_of_isHex c0 h0]
  exact_mod_cast ofInt_natCast (digitVal c1 * 16 + digitVal c0)

lemma strAt_eq_getElem? {url : Bytes} {i : ℕ} {c : Byte} (h : url[i]? = some c) :
    strAt url i = some c := by
  have hlt : i < url.length := (List.getElem?_eq_some_iff.mp h).1
  rw [strAt, List.getElem?_append_left hlt, h]

/-- Where every `%` is followed by two digits, the loop ends and its output is justified. -/
lemma decodeLoop_justified {url : Bytes} (hurl : ∀ i, url[i]? = some percent → EscapeAt url i)
    (n : ℕ) :
    ∀ i, url.length - i ≤ n → ∃ out, decodeLoop url n i = some out ∧ ∀ o ∈ out, o.Justified url := by
  induction n with
  | zero =>
    intro i hn
    exact ⟨[], by rw [decodeLoop, if_neg (by omega)], by simp⟩
  | succ n ih =>
    intro i hn
    by_cases hi : i < url.length
    · obtain ⟨c, hc⟩ : ∃ c, url[i]? = some c := ⟨url[i], List.getElem?_eq_getElem hi⟩
      by_cases hpct : c = percent
      · subst hpct
        obtain ⟨c1, c0, h1, h0, hhex1, hhex0⟩ := hurl i hc
        obtain ⟨result, hresult, hall⟩ := ih (i + 3) (by omega)
        refine ⟨⟨i, decodeNum c1 c0⟩ :: result, ?_, ?_⟩
        · rw [decodeLoop, if_pos hi, strAt_eq_getElem? hc, strAt_eq_getElem? h1,
            strAt_eq_getElem? h0, hresult]
          rfl
        · intro o ho
          rcases List.mem_cons.mp ho with rfl | ho
          · exact Or.inr ⟨hc, c1, c0, h1, h0, hhex1, hhex0, decodeNum_of_isHex hhex1 hhex0⟩
          · exact hall o ho
      · obtain ⟨result, hresult, hall⟩ := ih (i + 1) (by omega)
        refine ⟨⟨i, c⟩ :: result, ?_, ?_⟩
        · rw [decodeLoop, if_pos hi, strAt_eq_getElem? hc, hresult]
          simp [hpct]
        · intro o ho
          rcases List.mem_cons.mp ho with rfl | ho
          · exact Or.inl ⟨hc, hpct⟩
          · exact hall o ho
    · exact ⟨[], by rw [decodeLoop, if_neg hi], by simp⟩

/-- A loop whose output is justified has met no `%` without its digits. -/
lemma escapeAt_of_decodeLoop {url : Bytes} (n : ℕ) :
    ∀ (i : ℕ) (out : List Output), decodeLoop url n i = some out → (∀ o ∈ out, o.Justified url) →
      ∀ j, i ≤ j → url[j]? = some percent → EscapeAt url j := by
  have hpct : ¬ IsHex percent := by decide
  have hend : ∀ i j, ¬ i < url.length → i ≤ j → url[j]? ≠ some percent := by
    intro i j hi hj h
    have := (List.getElem?_eq_some_iff.mp h).1
    omega
  induction n with
  | zero =>
    intro i out hloop _ j hj h
    rw [decodeLoop] at hloop
    split at hloop
    · cases hloop
    · next hi => exact absurd h (hend i j hi hj)
  | succ n ih =>
    intro i out hloop hall j hj h
    rw [decodeLoop] at hloop
    by_cases hi : i < url.length
    · obtain ⟨c, hc⟩ : ∃ c, url[i]? = some c := ⟨url[i], List.getElem?_eq_getElem hi⟩
      rw [if_pos hi, strAt_eq_getElem? hc] at hloop
      simp only [Option.bind_eq_bind, Option.bind_some] at hloop
      by_cases hcp : c = percent
      · subst hcp
        rw [if_neg (by simp)] at hloop
        simp only [Option.bind_eq_some_iff] at hloop
        obtain ⟨d1, -, d0, -, result, hresult, hout⟩ := hloop
        cases hout
        -- the byte of this round is justified by the digits behind the index
        rcases hall _ List.mem_cons_self with ⟨hcopy, hne⟩ | ⟨-, c1, c0, h1, h0, hhex1, hhex0, -⟩
        · rw [hc] at hcopy
          exact absurd (Option.some.inj hcopy).symm hne
        rcases (show j = i ∨ j = i + 1 ∨ j = i + 2 ∨ i + 3 ≤ j by omega) with rfl | rfl | rfl | hj
        · exact ⟨c1, c0, h1, h0, hhex1, hhex0⟩
        · rw [h1, Option.some.injEq] at h
          exact absurd (h ▸ hhex1) hpct
        · rw [h0, Option.some.injEq] at h
          exact absurd (h ▸ hhex0) hpct
        · exact ih (i + 3) result hresult (fun o ho => hall o (List.mem_cons_of_mem _ ho)) j hj h
      · rw [if_pos hcp] at hloop
        obtain ⟨result, hresult, hout⟩ := Option.bind_eq_some_iff.mp hloop
        cases hout
        rcases Nat.eq_or_lt_of_le hj with rfl | hlt
        · rw [hc, Option.some.injEq] at h
          exact absurd h hcp
        · exact ih (i + 1) result hresult (fun o ho => hall o (List.mem_cons_of_mem _ ho)) j hlt h
    · exact absurd h (hend i j hi hj)

/-- **Decoding is safe** exactly on the strings in which two hexadecimal digits follow every
`%`. -/
theorem decodeLoop_safe_iff (url : Bytes) :
    (∃ out, decodeLoop url url.length 0 = some out ∧ ∀ o ∈ out, o.Justified url) ↔
      ∀ i, url[i]? = some percent → EscapeAt url i := by
  constructor
  · rintro ⟨out, hloop, hall⟩ i hi
    exact escapeAt_of_decodeLoop url.length 0 out hloop hall i (Nat.zero_le i) hi
  · intro hurl
    exact decodeLoop_justified hurl url.length 0 (by omega)

/-- The value `%` of a parameter makes the loop read behind the terminator. -/
theorem not_decodeLoop_safe :
    ¬ ∀ url : Bytes, ∃ out, decodeLoop url url.length 0 = some out ∧
      ∀ o ∈ out, o.Justified url := by
  intro h
  obtain ⟨out, hloop, -⟩ := h (bytes "%")
  have hnone : decodeLoop (bytes "%") (bytes "%").length 0 = none := by decide
  rw [hnone] at hloop
  cases hloop

end Http
end Sunet
