/-
# `split` with positions of the type `int`

`StringUtil::split` keeps the position of the current field and the result of
`find_first_of` in variables of the type `int`.  The model here has the loop with these
positions; `splitInt_eq` says that it agrees with `StringUtil.split` as long as the
delimiters stand at positions that an `int` can go beyond.  The main result says for which
strings the fields can be joined again.
-/
import Sunet.Util.StringUtil
import Sunet.Util.Numeral
import Sunet.Lib.Cut

namespace Sunet
namespace StringUtil

open Byte

/-! ## The loop -/

/-- `str.find_first_of(delim, pos)`, converted to `int`: `npos` becomes -1.  A negative position
is converted to one behind every string. -/
def findFirstOf (str delim : Bytes) (pos : ℤ) : ℤ :=
  if pos < 0 then -1
  else
    match (str.drop pos.toNat).findIdx? (· ∈ delim) with
    | some k => wrapInt (pos.toNat + k : ℕ)
    | none => -1

/-- `str.substr(pos, len)`: it throws behind the end, and a negative length reaches to the
end. -/
def substrInt (str : Bytes) (pos len : ℤ) : Option Bytes :=
  if 0 ≤ pos ∧ pos ≤ str.length then
    some (if len < 0 then str.drop pos.toNat else (str.drop pos.toNat).take len.toNat)
  else none

/-- The `while` loop of `split`: the fields that are pushed and `last` behind the loop, or
`none` when an operation overflows, `substr` throws or the rounds are used up. -/
def splitIntLoop (str delim : Bytes) : ℕ → ℤ → ℤ → Option (List Bytes × ℤ)
  | 0, _, _ => none
  | n + 1, last, index =>
    if index = -1 then some ([], last)
    else do
      let len ← checkInt (index - last)
      let field ← substrInt str last len
      let last ← checkInt (index + 1)
      let (ret, last) ← splitIntLoop str delim n last (findFirstOf str delim last)
      some (field :: ret, last)

/-- `StringUtil::split`. -/
def splitInt (str delim : Bytes) : Option (List Bytes) :=
  if str = [] ∨ delim = [] then some []
  else do
    let (ret, last) ← splitIntLoop str delim (str.length + 1) 0 (findFirstOf str delim 0)
    -- the test is for a tab, whatever the delimiter
    if str.getLast? ≠ some tab then do
      let field ← substrInt str last (str.length - last)
      some (ret ++ [field])
    else some ret

/-! ## One round -/

variable {d : Byte} {pre a b rest : Bytes}

lemma splitLoop_of_notMem (field : Bytes) (ha : d ∉ a) : splitLoop [d] field a = ([], field ++ a) := by
  induction a generalizing field with
  | nil => simp [splitLoop]
  | cons c a ih =>
    rw [List.mem_cons, not_or] at ha
    have hc : c ∉ [d] := by simpa using Ne.symm ha.1
    rw [splitLoop, if_neg hc, ih _ ha.2, List.append_assoc, List.singleton_append]

/-- The loop over the bytes up to the next delimiter. -/
lemma splitLoop_cut (field : Bytes) (ha : d ∉ a) :
    splitLoop [d] field (a ++ d :: b) =
      ((field ++ a) :: (splitLoop [d] [] b).1, (splitLoop [d] [] b).2) := by
  induction a generalizing field with
  | nil => simp [splitLoop]
  | cons c a ih =>
    rw [List.mem_cons, not_or] at ha
    have hc : c ∉ [d] := by simpa using Ne.symm ha.1
    rw [List.cons_append, splitLoop, if_neg hc, ih _ ha.2, List.append_assoc,
      List.singleton_append]

lemma findFirstOf_of_notMem (hrest : d ∉ rest) :
    findFirstOf (pre ++ rest) [d] pre.length = -1 := by
  have hfind : rest.findIdx? (· ∈ [d]) = none := by
    rw [List.findIdx?_eq_none_iff]
    intro x hx
    have hne : x ≠ d := fun h => hrest (h ▸ hx)
    simpa using hne
  rw [findFirstOf, if_neg (by omega), Int.toNat_natCast, List.drop_left, hfind]

lemma findFirstOf_cut (ha : d ∉ a) :
    findFirstOf (pre ++ (a ++ d :: b)) [d] pre.length = wrapInt (pre.length + a.length : ℕ) := by
  have hnone : a.findIdx? (· ∈ [d]) = none := by
    rw [List.findIdx?_eq_none_iff]
    intro x hx
    have hne : x ≠ d := fun h => ha (h ▸ hx)
    simpa using hne
  have hfind : (a ++ d :: b).findIdx? (· ∈ [d]) = some a.length := by
    rw [List.findIdx?_append, hnone, List.findIdx?_cons]
    simp
  rw [findFirstOf, if_neg (by omega), Int.toNat_natCast, List.drop_left, hfind]

lemma substrInt_take {len : ℤ} (hlen : 0 ≤ len) :
    substrInt (pre ++ rest) pre.length len = some (rest.take len.toNat) := by
  have hin : (0 : ℤ) ≤ pre.length ∧ (pre.length : ℤ) ≤ (pre ++ rest).length := by
    rw [List.length_append]
    omega
  rw [substrInt, if_pos hin, if_neg (by omega), Int.toNat_natCast, List.drop_left]

lemma substrInt_drop {len : ℤ} (hlen : len < 0) :
    substrInt (pre ++ rest) pre.length len = some rest := by
  have hin : (0 : ℤ) ≤ pre.length ∧ (pre.length : ℤ) ≤ (pre ++ rest).length := by
    rw [List.length_append]
    omega
  rw [substrInt, if_pos hin, if_pos hlen, Int.toNat_natCast, List.drop_left]

/-- A round at a delimiter behind which an `int` can go. -/
lemma splitIntLoop_cut (n : ℕ) (ha : d ∉ a) (hpos : pre.length + a.length < 2 ^ 31 - 1) :
    splitIntLoop (pre ++ (a ++ d :: b)) [d] (n + 1) pre.length
        (findFirstOf (pre ++ (a ++ d :: b)) [d] pre.length) =
      splitIntLoop ((pre ++ a ++ [d]) ++ b) [d] n (pre ++ a ++ [d]).length
          (findFirstOf ((pre ++ a ++ [d]) ++ b) [d] (pre ++ a ++ [d]).length) >>= fun r =>
        some (a :: r.1, r.2) := by
  have hindex : wrapInt (pre.length + a.length : ℕ) = (pre.length + a.length : ℕ) :=
    isInt_of_lt (by omega)
  have hlast : (((pre.length + a.length : ℕ) : ℤ) + 1) = (pre ++ a ++ [d]).length := by
    simp
    ring
  have hbuf : pre ++ (a ++ d :: b) = (pre ++ a ++ [d]) ++ b := by simp
  have hlen : ((pre.length + a.length : ℕ) : ℤ) - pre.length = a.length := by
    push_cast
    ring
  have hfield : substrInt (pre ++ (a ++ d :: b)) pre.length a.length = some a := by
    rw [substrInt_take (by omega), Int.toNat_natCast, List.take_left]
  rw [findFirstOf_cut ha, hindex, splitIntLoop, if_neg (by omega), hlen,
    checkInt_of_bounds (by omega) (by omega), Option.bind_eq_bind, Option.bind_some, hfield,
    Option.bind_eq_bind, Option.bind_some, checkInt_of_bounds (by omega) (by omega), hlast, hbuf]
  rfl

lemma splitIntLoop_of_notMem (n : ℕ) (hrest : d ∉ rest) :
    splitIntLoop (pre ++ rest) [d] (n + 1) pre.length (findFirstOf (pre ++ rest) [d] pre.length) =
      some ([], (pre.length : ℤ)) := by
  rw [findFirstOf_of_notMem hrest, splitIntLoop, if_pos rfl]

/-! ## The whole loop -/

/-- The delimiter stands only where an `int` can go beyond it. -/
def ShortOf (d : Byte) (str : Bytes) : Prop := ∀ i, str[i]? = some d → i < 2 ^ 31 - 1

/-- What is left behind the last delimiter ends the string. -/
lemma splitLoop_suffix (str : Bytes) : (splitLoop [d] [] str).2 <:+ str := by
  induction str using Cut.cut_induction (a := d) with
  | hlast str hd =>
    rw [splitLoop_of_notMem [] hd]
    exact List.suffix_rfl
  | hcut a b ha ih =>
    rw [splitLoop_cut [] ha]
    exact ih.trans ⟨a ++ [d], by simp⟩

lemma splitIntLoop_eq :
    ∀ (n : ℕ) (pre rest : Bytes), rest.length < n → ShortOf d (pre ++ rest) →
      splitIntLoop (pre ++ rest) [d] n pre.length (findFirstOf (pre ++ rest) [d] pre.length) =
        some ((splitLoop [d] [] rest).1,
          ((pre.length + (rest.length - (splitLoop [d] [] rest).2.length) : ℕ) : ℤ)) := by
  intro n
  induction n with
  | zero =>
    intro pre rest hn
    omega
  | succ n ih =>
    intro pre rest hn hshort
    by_cases hd : d ∈ rest
    · obtain ⟨a, b, rfl, ha⟩ := List.eq_append_cons_of_mem hd
      have hpos : pre.length + a.length < 2 ^ 31 - 1 := by
        refine hshort _ ?_
        rw [List.getElem?_append_right (by omega), List.getElem?_append_right (by omega)]
        simp
      have hbuf : pre ++ (a ++ d :: b) = (pre ++ a ++ [d]) ++ b := by simp
      have hle := (splitLoop_suffix (d := d) b).length_le
      rw [hbuf] at hshort
      rw [splitIntLoop_cut n ha hpos, ih (pre ++ a ++ [d]) b (by simp at hn; omega) hshort,
        splitLoop_cut [] ha, Option.bind_eq_bind, Option.bind_some, List.nil_append]
      congr 3
      simp only [List.length_append, List.length_cons, List.length_nil]
      omega
    · rw [splitIntLoop_of_notMem n hd, splitLoop_of_notMem [] hd]
      simp

/-- **The loop with `int` positions agrees with `split`** when the delimiter stands only where an
`int` can go beyond it. -/
theorem splitInt_eq {str : Bytes} (hshort : ShortOf d str) :
    splitInt str [d] = some (split str [d]) := by
  by_cases hne : str = []
  · simp [splitInt, split, hne]
  obtain ⟨pre, hpre⟩ := splitLoop_suffix (d := d) str
  have hloop := splitIntLoop_eq (str.length + 1) [] str (by omega) hshort
  simp only [List.nil_append, List.length_nil, Nat.cast_zero, Nat.zero_add] at hloop
  have hlast : str.length - (splitLoop [d] [] str).2.length = pre.length := by
    have hlen := congrArg List.length hpre
    rw [List.length_append] at hlen
    omega
  rw [hlast] at hloop
  have hfield : substrInt str pre.length (str.length - pre.length) =
      some (splitLoop [d] [] str).2 := by
    have hlen := congrArg List.length hpre
    rw [List.length_append] at hlen
    conv_lhs => rw [← hpre]
    rw [substrInt_take (by simp), List.take_of_length_le]
    rw [List.length_append]
    omega
  simp only [splitInt, split, hne, List.cons_ne_nil, or_self, if_false, hloop, hfield,
    Option.bind_eq_bind, Option.bind_some]
  split <;> rfl

/-! ## A delimiter that is too far away -/

/-- What a loop that comes to an end has done in its first round. -/
lemma splitIntLoop_cases {str delim : Bytes} {n : ℕ} {last index : ℤ} {ret : List Bytes}
    {last' : ℤ} (h : splitIntLoop str delim (n + 1) last index = some (ret, last')) :
    index = -1 ∧ ret = [] ∧ last' = last ∨
      index ≠ -1 ∧ index + 1 < 2 ^ 31 ∧ ∃ field ret',
        substrInt str last (index - last) = some field ∧
          splitIntLoop str delim n (index + 1) (findFirstOf str delim (index + 1)) =
            some (ret', last') ∧ ret = field :: ret' := by
  rw [splitIntLoop] at h
  by_cases hnpos : index = -1
  · rw [if_pos hnpos] at h
    cases h
    exact Or.inl ⟨hnpos, rfl, rfl⟩
  · rw [if_neg hnpos] at h
    simp only [Option.bind_eq_bind, Option.bind_eq_some_iff] at h
    obtain ⟨len, hlen, field, hfield, next, hnext, ⟨ret', last''⟩, hrest, hret⟩ := h
    obtain ⟨rfl, -, -⟩ := checkInt_eq_some.mp hlen
    obtain ⟨rfl, -, hbound⟩ := checkInt_eq_some.mp hnext
    cases hret
    exact Or.inr ⟨hnpos, hbound, field, ret', hfield, hrest, rfl⟩

/-- The loop at a delimiter beyond which no `int` can go.  If the loop comes to an end, the
position has been taken for -1, or a field that reaches to the end has been pushed. -/
lemma splitIntLoop_far {n : ℕ} (ha : d ∉ a) (hpos : 2 ^ 31 - 1 ≤ pre.length + a.length)
    {ret : List Bytes} {last : ℤ}
    (hloop : splitIntLoop (pre ++ (a ++ d :: b)) [d] n pre.length
      (findFirstOf (pre ++ (a ++ d :: b)) [d] pre.length) = some (ret, last)) :
    (∃ f ∈ ret, d ∈ f) ∨ ret = [] ∧ last = pre.length := by
  rw [findFirstOf_cut ha] at hloop
  obtain ⟨k, hk⟩ := wrapInt_eq_sub (pre.length + a.length : ℕ)
  obtain ⟨hlow, hhigh⟩ := (isInt_wrapInt (pre.length + a.length : ℕ)).bounds
  generalize hindex : wrapInt (pre.length + a.length : ℕ) = index at *
  cases n with
  | zero => cases hloop
  | succ n =>
    rcases splitIntLoop_cases hloop with
      ⟨-, rfl, rfl⟩ | ⟨hnpos, hbound, field, ret', hfield, hrest, rfl⟩
    · exact Or.inr ⟨rfl, rfl⟩
    left
    by_cases hback : index < pre.length
    · -- the length of the field is negative
      rw [substrInt_drop (by omega)] at hfield
      cases hfield
      exact ⟨_, List.mem_cons_self, by simp⟩
    -- the next round finds the same delimiter in front of its `last`
    have hsplit : a = a.take (index + 1 - pre.length).toNat ++ a.drop (index + 1 - pre.length).toNat :=
      (List.take_append_drop _ a).symm
    have hle : (index + 1 - pre.length).toNat ≤ a.length := by
      push_cast at hk
      omega
    generalize hb : a.take (index + 1 - pre.length).toNat = a₁ at hsplit
    generalize a.drop (index + 1 - pre.length).toNat = a₂ at hsplit
    have hlen₁ : ((pre ++ a₁).length : ℤ) = index + 1 := by
      rw [List.length_append, ← hb, List.length_take]
      omega
    have ha₂ : d ∉ a₂ := fun h => ha (by rw [hsplit]; simp [h])
    have hbuf : pre ++ (a ++ d :: b) = (pre ++ a₁) ++ (a₂ ++ d :: b) := by
      rw [hsplit]
      simp
    have hagain : (pre ++ a₁).length + a₂.length = pre.length + a.length := by
      rw [hsplit]
      simp
      omega
    rw [hbuf, ← hlen₁, findFirstOf_cut ha₂, hagain, hindex] at hrest
    cases n with
    | zero => cases hrest
    | succ n =>
      rcases splitIntLoop_cases hrest with
        ⟨hstop, -⟩ | ⟨-, -, field', ret'', hfield', -, rfl⟩
      · exact absurd hstop hnpos
      rw [substrInt_drop (by omega)] at hfield'
      cases hfield'
      exact ⟨_, List.mem_cons_of_mem _ List.mem_cons_self, by simp⟩

/-- A loop over a string that is not short pushes a field with the delimiter in it, or ends in
front of a delimiter. -/
lemma splitIntLoop_of_not_short :
    ∀ (n : ℕ) (pre rest : Bytes) {ret : List Bytes} {last : ℤ},
      (∃ i, rest[i]? = some d ∧ 2 ^ 31 - 1 ≤ pre.length + i) →
      splitIntLoop (pre ++ rest) [d] n pre.length (findFirstOf (pre ++ rest) [d] pre.length) =
        some (ret, last) →
      (∃ f ∈ ret, d ∈ f) ∨ ret.length < rest.count d ∧
        ∃ done left, pre ++ rest = done ++ left ∧ d ∈ left ∧ last = done.length := by
  intro n
  induction n with
  | zero =>
    intro pre rest ret last _ hloop
    cases hloop
  | succ n ih =>
    intro pre rest ret last hfar hloop
    obtain ⟨i, hi, hge⟩ := hfar
    obtain ⟨a, b, rfl, ha⟩ := List.eq_append_cons_of_mem (List.mem_of_getElem? hi)
    have hcount : (a ++ d :: b).count d = b.count d + 1 := by
      rw [List.count_append, List.count_eq_zero_of_not_mem ha, List.count_cons_self, Nat.zero_add]
    by_cases hpos : pre.length + a.length < 2 ^ 31 - 1
    · -- a round before the delimiters are too far away
      rw [splitIntLoop_cut n ha hpos, Option.bind_eq_bind, Option.bind_eq_some_iff] at hloop
      obtain ⟨⟨ret', last'⟩, hrest, hret⟩ := hloop
      cases hret
      have hle : a.length < i := by
        by_contra hlt
        omega
      have hfar' : b[i - a.length - 1]? = some d := by
        rw [List.getElem?_append_right (by omega), List.getElem?_cons] at hi
        rwa [if_neg (by omega)] at hi
      rcases ih (pre ++ a ++ [d]) b ⟨_, hfar', by simp; omega⟩ hrest with
        ⟨f, hf, hd⟩ | ⟨hlt, done, left, heq, hleft, hlast⟩
      · exact Or.inl ⟨f, List.mem_cons_of_mem _ hf, hd⟩
      · refine Or.inr ⟨?_, done, left, ?_, hleft, hlast⟩
        · rw [hcount, List.length_cons]
          exact Nat.succ_lt_succ hlt
        · rw [← heq]
          simp
    · rcases splitIntLoop_far ha (by omega) hloop with hf | ⟨rfl, rfl⟩
      · exact Or.inl hf
      · refine Or.inr ⟨?_, pre, a ++ d :: b, rfl, by simp, rfl⟩
        rw [hcount, List.length_nil]
        omega

/-! ## Joining the fields -/

/-- The fields of a string have no delimiter in them, and joining them gives the string back;
at the tab, the empty field behind a tab at the end is left out. -/
def LosesNothing (str : Bytes) (d : Byte) (fields : List Bytes) : Prop :=
  (∀ f ∈ fields, d ∉ f) ∧
    if d = tab ∧ str.getLast? = some tab then [d].intercalate (fields ++ [[]]) = str
    else [d].intercalate fields = str

lemma notMem_of_mem_splitOn (str : Bytes) : ∀ f ∈ str.splitOn d, d ∉ f := by
  induction str using Cut.cut_induction (a := d) with
  | hlast str hd =>
    intro f hf
    rw [List.splitOn_eq_singleton hd, List.mem_singleton] at hf
    exact hf ▸ hd
  | hcut a b ha ih =>
    intro f hf
    rw [List.splitOn_append_cons_self_of_not_mem ha, List.mem_cons] at hf
    rcases hf with rfl | hf
    · exact ha
    · exact ih f hf

/-- A string has one delimiter less than fields. -/
lemma count_intercalate {fields : List Bytes} (hfields : ∀ f ∈ fields, d ∉ f)
    (hne : fields ≠ []) : ([d].intercalate fields).count d + 1 = fields.length := by
  induction fields with
  | nil => exact absurd rfl hne
  | cons f fields ih =>
    have hf := List.count_eq_zero_of_not_mem (hfields f List.mem_cons_self)
    cases fields with
    | nil => simp [hf]
    | cons f' fields =>
      have hrest := ih (fun x hx => hfields x (List.mem_cons_of_mem _ hx)) (List.cons_ne_nil _ _)
      rw [List.intercalate_cons_cons, List.count_append, List.count_append, hf,
        List.count_singleton_self, List.length_cons, ← hrest]
      omega

/-- When nothing is lost, there is a field for each delimiter. -/
lemma LosesNothing.count_le {str : Bytes} {fields : List Bytes} (h : LosesNothing str d fields) :
    str.count d ≤ fields.length := by
  obtain ⟨hfields, hjoin⟩ := h
  split at hjoin
  · have hall : ∀ f ∈ fields ++ [[]], d ∉ f := by
      intro f hf
      rcases List.mem_append.mp hf with hf | hf
      · exact hfields f hf
      · rw [List.mem_singleton] at hf
        simp [hf]
    have hcount := count_intercalate hall (by simp)
    rw [hjoin, List.length_append, List.length_singleton] at hcount
    omega
  · cases fields with
    | nil =>
      rw [← hjoin]
      simp
    | cons f fields =>
      have hcount := count_intercalate hfields (List.cons_ne_nil _ _)
      rw [hjoin] at hcount
      omega

lemma losesNothing_split {str : Bytes} (htab : str.getLast? = some tab → d = tab) :
    LosesNothing str d (split str [d]) := by
  by_cases hne : str = []
  · subst hne
    simp [LosesNothing]
  by_cases hend : str.getLast? = some tab
  · -- the field behind the last tab is empty, and it is the one left out
    obtain rfl := htab hend
    obtain ⟨init, rfl⟩ : ∃ init, str = init ++ [tab] := by
      obtain ⟨init, last, rfl⟩ := (List.eq_nil_or_concat str).resolve_left hne
      rw [List.concat_eq_append, List.getLast?_concat, Option.some.injEq] at hend
      exact ⟨init, by rw [List.concat_eq_append, hend]⟩
    have hsplitOn : (init ++ [tab]).splitOn tab = init.splitOn tab ++ [[]] :=
      List.splitOn_append_cons_self init []
    have hfields : split (init ++ [tab]) [tab] = init.splitOn tab := by
      rw [split_eq_dropLast hne hend, hsplitOn, List.dropLast_concat]
    rw [LosesNothing, if_pos ⟨rfl, hend⟩, hfields, ← hsplitOn]
    exact ⟨notMem_of_mem_splitOn init, List.intercalate_splitOn tab⟩
  · rw [LosesNothing, if_neg fun h => hend h.2, split_eq_splitOn hne hend]
    exact ⟨notMem_of_mem_splitOn str, List.intercalate_splitOn d⟩

/-- At another delimiter, a string that ends in a tab loses the field with the tab. -/
lemma not_losesNothing_split {str : Bytes} (hend : str.getLast? = some tab) (hd : d ≠ tab) :
    ¬ LosesNothing str d (split str [d]) := by
  have hne : str ≠ [] := by
    rintro rfl
    cases hend
  rintro ⟨hfields, hjoin⟩
  rw [if_neg fun h => hd h.1] at hjoin
  have hnil : split str [d] ≠ [] := by
    intro h
    rw [h] at hjoin
    exact hne hjoin.symm
  have hsplit := List.splitOn_intercalate d hfields hnil
  rw [hjoin] at hsplit
  have hlen := congrArg List.length (split_eq_dropLast (d := d) hne hend)
  rw [← hsplit, List.length_dropLast] at hlen
  have hpos := List.length_pos_iff.mpr (List.splitOn_ne_nil d str)
  omega

/-- A string with a delimiter that is too far away loses something. -/
lemma not_losesNothing_of_far {str : Bytes} (hfar : ¬ ShortOf d str) {fields : List Bytes}
    (hsplit : splitInt str [d] = some fields) : ¬ LosesNothing str d fields := by
  intro h
  obtain ⟨i, hi, hge⟩ : ∃ i, str[i]? = some d ∧ 2 ^ 31 - 1 ≤ i := by
    simpa [ShortOf] using hfar
  have hne : str ≠ [] := by
    rintro rfl
    cases hi
  simp only [splitInt, hne, List.cons_ne_nil, or_self, if_false, Option.bind_eq_bind,
    Option.bind_eq_some_iff] at hsplit
  obtain ⟨⟨ret, last⟩, hloop, hret⟩ := hsplit
  have hloop' := splitIntLoop_of_not_short (str.length + 1) [] str
    ⟨i, hi, by rw [List.length_nil]; omega⟩ hloop
  rcases hloop' with ⟨f, hf, hd⟩ | ⟨hlt, done, left, heq, hleft, hlast⟩
  · -- the field is one of those returned
    refine h.1 f ?_ hd
    split at hret
    · obtain ⟨field, -, hret⟩ := Option.bind_eq_some_iff.mp hret
      cases hret
      simp [hf]
    · cases hret
      exact hf
  · have hcount := h.count_le
    rw [List.nil_append] at heq
    split at hret
    · -- the last field starts in front of a delimiter
      obtain ⟨field, hfield, hret⟩ := Option.bind_eq_some_iff.mp hret
      cases hret
      rw [hlast, heq, substrInt_take (by simp), Option.some.injEq, List.take_of_length_le
        (by simp)] at hfield
      exact h.1 field (by simp) (hfield ▸ hleft)
    · cases hret
      exact absurd hlt (Nat.not_lt.mpr hcount)

/-- **The fields of a string can be joined again** exactly when the delimiter stands only where
an `int` can go beyond it and a string that ends in a tab is cut at tabs. -/
theorem losesNothing_iff (str : Bytes) (d : Byte) :
    (∃ fields, splitInt str [d] = some fields ∧ LosesNothing str d fields) ↔
      ShortOf d str ∧ (str.getLast? = some tab → d = tab) := by
  constructor
  · rintro ⟨fields, hsplit, h⟩
    have hshort : ShortOf d str := by
      by_contra hfar
      exact not_losesNothing_of_far hfar hsplit h
    refine ⟨hshort, fun hend => ?_⟩
    by_contra hd
    rw [splitInt_eq hshort] at hsplit
    cases hsplit
    exact not_losesNothing_split hend hd h
  · rintro ⟨hshort, htab⟩
    exact ⟨_, splitInt_eq hshort, losesNothing_split htab⟩

/-- The URL `/` followed by a tab has no field at the delimiter `?`. -/
theorem not_losesNothing : ¬ ∀ (str : Bytes) (d : Byte), str ≠ [] →
    ∃ fields, splitInt str [d] = some fields ∧ LosesNothing str d fields := by
  intro h
  obtain ⟨fields, hsplit, -, hjoin⟩ := h (bytes "/\t") qmark (by decide)
  have hnone : splitInt (bytes "/\t") [qmark] = some [] := by decide
  rw [hnone] at hsplit
  cases hsplit
  exact absurd hjoin (by decide)

end StringUtil
end Sunet
