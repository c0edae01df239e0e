/-
# The request line

The loop of `_parse_desc` passes over a run of bytes that neither ends a part of the line
nor rejects it, so what it does depends only on how the line is cut at its first spaces and
its first carriage return.  One lemma for each way to cut it gives the result of
`_parse_desc`.
-/
import Sunet.Http.Parse
import Sunet.Lib.Cut
import Sunet.Lib.Except

namespace Sunet
namespace Http

open Byte StringUtil

/-! ## Strings made from the buffer -/

/-- The bytes up to the first NUL. -/
def untilNul (s : Bytes) : Bytes := s.takeWhile (· ≠ nul)

lemma untilNul_append {pre : Bytes} (hpre : nul ∉ pre) (rest : Bytes) :
    untilNul (pre ++ rest) = pre ++ untilNul rest := by
  rw [untilNul, List.takeWhile_append_of_pos]
  · rfl
  · intro b hb
    have hne : b ≠ nul := fun h => hpre (h ▸ hb)
    simpa using hne

/-- The string ends in front of the first NUL. -/
lemma untilNul_cut {pre : Bytes} (hpre : nul ∉ pre) (rest : Bytes) :
    untilNul (pre ++ nul :: rest) = pre := by
  rw [untilNul_append hpre]
  simp [untilNul]

lemma untilNul_append_of_mem {s : Bytes} (hs : nul ∈ s) (rest : Bytes) :
    untilNul (s ++ rest) = untilNul s := by
  obtain ⟨pre, s', rfl, hpre⟩ := List.eq_append_cons_of_mem hs
  rw [List.append_assoc, List.cons_append, untilNul_cut hpre, untilNul_cut hpre]

lemma untilNul_eq_self {s : Bytes} (hs : nul ∉ s) : untilNul s = s := by
  have h := untilNul_append hs []
  simpa [untilNul] using h

lemma untilNul_length_le (s : Bytes) : (untilNul s).length ≤ s.length :=
  (List.takeWhile_prefix _).length_le

lemma untilNul_length_lt {s : Bytes} (hs : nul ∈ s) : (untilNul s).length < s.length := by
  obtain ⟨pre, rest, rfl, hpre⟩ := List.eq_append_cons_of_mem hs
  rw [untilNul_cut hpre, List.length_append, List.length_cons]
  omega

/-- A string taken from the buffer behind a part without NUL. -/
lemma assign_eq {pre rest : Bytes} (hpre : nul ∉ pre) (hrest : nul ∈ rest) (len : ℕ) :
    assign (pre ++ rest) pre.length len = .ok ((untilNul rest).take len) := by
  have hmem : nul ∈ pre ++ rest := by simp [hrest]
  have hcstr : cstr (pre ++ rest) = some (pre ++ untilNul rest) := by
    rw [cstr, if_pos hmem, ← untilNul_append hpre]
    rfl
  rw [assign, hcstr]
  simp [substr]

/-- A string cannot be taken from behind the first NUL. -/
lemma assign_eq_outOfRange {pre rest : Bytes} (hpre : nul ∈ pre) (len : ℕ) :
    assign (pre ++ rest) pre.length len = .error .outOfRange := by
  have hmem : nul ∈ pre ++ rest := by simp [hpre]
  have hcstr : cstr (pre ++ rest) = some (untilNul pre) := by
    rw [cstr, if_pos hmem, ← untilNul_append_of_mem hpre rest]
    rfl
  have hlt := untilNul_length_lt hpre
  rw [assign, hcstr]
  simp only [substr]
  rw [if_neg (by omega)]

/-- A run of the buffer becomes a string up to the first NUL in it. -/
lemma take_untilNul (s rest : Bytes) :
    (untilNul (s ++ rest)).take s.length = untilNul s := by
  by_cases hs : nul ∈ s
  · rw [untilNul_append_of_mem hs, List.take_of_length_le (untilNul_length_le s)]
  · rw [untilNul_append hs, List.take_left, untilNul_eq_self hs]

/-- The part `s` of a terminated buffer behind a part without NUL. -/
lemma assign_part {pre s rest : Bytes} (hpre : nul ∉ pre) (hrest : nul ∈ rest) :
    assign (pre ++ (s ++ rest)) pre.length s.length = .ok (untilNul s) := by
  rw [assign_eq hpre (by simp [hrest]), take_untilNul]

/-- Taking the version succeeds where its position lies in or behind a part without NUL. -/
lemma readVersion_ok {pre rest : Bytes} (hpre : nul ∉ pre) (hrest : nul ∈ rest) {req : Request}
    (hpos : req.method.length + req.url.length + 2 ≤ pre.length) (len : ℕ) :
    ∃ ver, readVersion (pre ++ rest) len req = .ok { req with version := ver } := by
  by_cases hlen : len = 0
  · exact ⟨bytes "HTTP/1.1", by rw [readVersion, if_pos hlen]⟩
  · generalize hp : req.method.length + req.url.length + 2 = pos at hpos
    have htake : nul ∉ pre.take pos := fun h => hpre (List.mem_of_mem_take h)
    have hsplit : pre ++ rest = pre.take pos ++ (pre.drop pos ++ rest) := by
      rw [← List.append_assoc, List.take_append_drop]
    have hposlen : (pre.take pos).length = pos := by
      rw [List.length_take]
      omega
    have hmem : nul ∈ pre.drop pos ++ rest := by simp [hrest]
    have hassign := assign_eq htake hmem len
    rw [hposlen, ← hsplit] at hassign
    exact ⟨_, by rw [readVersion, if_neg hlen, hp, hassign, Except.ok_bind]⟩

/-! ## The loop over one part of the line -/

/-- The letters of a method. -/
def isUpper (c : Byte) : Prop := 0x41 ≤ schar c ∧ schar c ≤ 0x5a

instance : DecidablePred isUpper := fun c => by
  unfold isUpper
  infer_instance

lemma isUpper_ne : ∀ c : Byte, isUpper c → c ≠ sp ∧ c ≠ cr ∧ c ≠ nul := by
  decide +kernel

/-- A method: letters only. -/
def IsMethod (m : Bytes) : Prop := ∀ c ∈ m, isUpper c

instance : DecidablePred IsMethod := fun m => List.decidableBAll isUpper m

/-- A run without space and carriage return. -/
def IsRun (u : Bytes) : Prop := sp ∉ u ∧ cr ∉ u

lemma IsMethod.nul_notMem {m : Bytes} (h : IsMethod m) : nul ∉ m :=
  fun hm => (isUpper_ne nul (h nul hm)).2.2 rfl

variable {beyond : Byte} {buf : Bytes}

lemma descLoop_cr (rest : Bytes) (part : ReqPart) (i len : ℕ) (req : Request) :
    descLoop beyond buf (cr :: rest) part i len req = .ok (req, some (part, i, len)) := by
  cases part <;> simp only [descLoop, if_true]

lemma descLoop_char {c : Byte} (hcr : c ≠ cr) (hsp : c ≠ sp) (rest : Bytes) {part : ReqPart}
    (hpart : part = .method → isUpper c) (i len : ℕ) (req : Request) :
    descLoop beyond buf (c :: rest) part i len req =
      descLoop beyond buf rest part (i + 1) (len + 1) req := by
  have hlet : ¬ (part = .method ∧ (schar c < 0x41 ∨ schar c > 0x5a)) := by
    rintro ⟨hm, h⟩
    obtain ⟨h1, h2⟩ := hpart hm
    omega
  rw [descLoop.eq_def]
  simp only [hcr, hsp, if_false, ne_eq, not_false_eq_true, if_true]
  exact if_neg hlet

lemma descLoop_method {m : Bytes} (hm : IsMethod m) (rest : Bytes) (i len : ℕ)
    (req : Request) :
    descLoop beyond buf (m ++ rest) .method i len req =
      descLoop beyond buf rest .method (i + m.length) (len + m.length) req := by
  induction m generalizing i len with
  | nil => rfl
  | cons c m ih =>
    have hc := hm c (by simp)
    obtain ⟨hsp, hcr, -⟩ := isUpper_ne c hc
    rw [List.cons_append, descLoop_char hcr hsp _ (fun _ => hc),
      ih fun x hx => hm x (by simp [hx])]
    congr 1 <;> simp <;> omega

lemma descLoop_run {u : Bytes} (hu : IsRun u) (rest : Bytes) {part : ReqPart}
    (hpart : part ≠ .method) (i len : ℕ) (req : Request) :
    descLoop beyond buf (u ++ rest) part i len req =
      descLoop beyond buf rest part (i + u.length) (len + u.length) req := by
  induction u generalizing i len with
  | nil => rfl
  | cons c u ih =>
    obtain ⟨hsp, hcr⟩ := hu
    simp only [List.mem_cons, not_or] at hsp hcr
    rw [List.cons_append, descLoop_char (fun h => hcr.1 h.symm) (fun h => hsp.1 h.symm) _
      (fun h => absurd h hpart), ih ⟨hsp.2, hcr.2⟩]
    congr 1 <;> simp <;> omega

/-- In the version part spaces are passed over without being counted. -/
lemma descLoop_ver {v : Bytes} (hv : cr ∉ v) (rest : Bytes) (i len : ℕ) (req : Request) :
    descLoop beyond buf (v ++ rest) .ver i len req =
      descLoop beyond buf rest .ver (i + v.length) (len + v.countP (· ≠ sp)) req := by
  induction v generalizing i len with
  | nil => rfl
  | cons c v ih =>
    simp only [List.mem_cons, not_or] at hv
    have hcr : c ≠ cr := fun h => hv.1 h.symm
    rw [List.cons_append]
    by_cases hc : c = sp
    · have hstep : descLoop beyond buf (c :: (v ++ rest)) .ver i len req =
          descLoop beyond buf (v ++ rest) .ver (i + 1) len req := by
        rw [descLoop.eq_def]
        simp only [hc, sp_ne_cr, if_false, ne_eq, not_true_eq_false]
      rw [hstep, ih hv.2, List.countP_cons_of_neg (by simpa using hc)]
      congr 1
      simp
      omega
    · rw [descLoop_char hcr hc _ (fun h => by cases h), ih hv.2,
        List.countP_cons_of_pos (by simpa using hc)]
      congr 1 <;> simp <;> omega

/-! ## The ways to cut a line -/

/-- The request after `_parse_desc` has read the method. -/
def withMethod (m : Bytes) (req : Request) : Request := { req with method := m }

/-- The loop at the space behind the method. -/
lemma descLoop_space {m : Bytes} (hm : IsMethod m) {rest : Bytes} (hrest : nul ∈ rest)
    (req : Request) :
    descLoop beyond (m ++ sp :: rest) (m ++ sp :: rest) .method 0 0 req =
      descLoop beyond (m ++ sp :: rest) rest .url (m.length + 1) 0 (withMethod m req) := by
  have hassign : assign (m ++ sp :: rest) 0 m.length = .ok m := by
    have h : assign ([] ++ (m ++ sp :: rest)) 0 m.length = .ok (untilNul m) :=
      assign_part (by simp) (by simp [hrest])
    rwa [List.nil_append, untilNul_eq_self hm.nul_notMem] at h
  rw [descLoop_method hm, descLoop.eq_def]
  simp only [sp_ne_cr, if_false, ne_eq, not_true_eq_false, Nat.zero_add, hassign,
    Except.ok_bind]
  rfl

/-- The part of the buffer in front of the URL. -/
lemma nul_notMem_head {m : Bytes} (hm : IsMethod m) : nul ∉ m ++ [sp] := by
  rw [List.mem_append, not_or]
  exact ⟨hm.nul_notMem, by decide⟩

/-- The string that `_parse_desc` takes for the URL. -/
lemma assign_url {m u : Bytes} (hm : IsMethod m) {rest : Bytes} (hrest : nul ∈ rest) :
    assign (m ++ sp :: (u ++ rest)) (m.length + 1) u.length = .ok (untilNul u) := by
  have h := assign_part (s := u) (nul_notMem_head hm) hrest
  simpa using h

/-- A byte that cannot stand in a method. -/
lemma parseDesc_reject {m : Bytes} (hm : IsMethod m) {c : Byte} (hc : ¬ isUpper c)
    (hsp : c ≠ sp) (hcr : c ≠ cr) (rest : Bytes) (req : Request) :
    parseDesc beyond (m ++ c :: rest) req = .ok (req, none) := by
  have hlet : schar c < 0x41 ∨ schar c > 0x5a := by
    rw [isUpper] at hc
    omega
  have hloop : descLoop beyond (m ++ c :: rest) (m ++ c :: rest) .method 0 0 req =
      .ok (req, none) := by
    rw [descLoop_method hm, descLoop.eq_def]
    simp only [hcr, hsp, if_false, ne_eq, not_false_eq_true, if_true, hlet, and_self]
  rw [parseDesc, hloop]
  rfl

/-- A line that ends in its method. -/
lemma parseDesc_methodOnly {m : Bytes} (hm : IsMethod m) (rest : Bytes) (req : Request) :
    parseDesc beyond (m ++ cr :: rest) req =
      readVersion (m ++ cr :: rest) m.length req >>= fun req' => .ok (req', some (m.length + 2)) := by
  rw [parseDesc, descLoop_method hm, descLoop_cr]
  simp only [Nat.zero_add, Except.ok_bind]

/-- A URL that neither a space nor a carriage return ends. -/
lemma parseDesc_openUrl {m u : Bytes} (hm : IsMethod m) (hu : IsRun u) (hnul : nul ∈ u)
    (req : Request) : parseDesc beyond (m ++ sp :: u) req = .error .overread := by
  have hloop : ∀ buf, descLoop beyond buf u .url (m.length + 1) 0 (withMethod m req) =
      .error .overread := by
    intro buf
    rw [← List.append_nil u, descLoop_run hu [] (by simp)]
    rfl
  rw [parseDesc, descLoop_space hm hnul, hloop]
  rfl

/-- A line that ends in its URL. -/
lemma parseDesc_url {m u : Bytes} (hm : IsMethod m) (hu : IsRun u) (hne : u ≠ []) {rest : Bytes}
    (hnul : nul ∈ rest) (req : Request) :
    parseDesc beyond (m ++ sp :: (u ++ cr :: rest)) req =
      .ok ({ withMethod m req with url := untilNul u, version := bytes "HTTP/1.1" },
        some (m.length + 1 + u.length + 2)) := by
  have hlen : u.length ≠ 0 := by simpa using hne
  rw [parseDesc, descLoop_space hm (by simp [hnul]), descLoop_run hu _ (by simp), descLoop_cr]
  simp only [Except.ok_bind, Nat.zero_add, hlen, ne_eq, not_false_eq_true, if_true]
  rw [show (withMethod m req).method.length = m.length from rfl,
    assign_url hm (by simp [hnul])]
  simp only [Except.ok_bind, readVersion, if_true]

/-- A line with an empty URL. -/
lemma parseDesc_noUrl {m : Bytes} (hm : IsMethod m) {rest : Bytes} (hnul : nul ∈ rest)
    (req : Request) :
    parseDesc beyond (m ++ sp :: cr :: rest) req = .ok (withMethod m req, none) := by
  rw [parseDesc, descLoop_space hm (by simp [hnul]), descLoop_cr]
  rfl

/-- The loop at the space behind the URL. -/
lemma descLoop_url {m u : Bytes} (hm : IsMethod m) (hu : IsRun u) {rest : Bytes}
    (hnul : nul ∈ rest) (req : Request) :
    descLoop beyond (m ++ sp :: (u ++ sp :: rest)) (m ++ sp :: (u ++ sp :: rest)) .method 0 0
        req =
      match readUrl beyond (untilNul u) (withMethod m req) with
      | none => .ok (withMethod m req, none)
      | some req' =>
        descLoop beyond (m ++ sp :: (u ++ sp :: rest)) rest .ver (m.length + 1 + u.length + 1) 0
          req' := by
  rw [descLoop_space hm (by simp [hnul]), descLoop_run hu _ (by simp), descLoop.eq_def]
  simp only [sp_ne_cr, if_false, ne_eq, not_true_eq_false]
  rw [show (withMethod m req).method.length = m.length from rfl, Nat.zero_add,
    assign_url hm (by simp [hnul])]
  rfl

/-- A URL without a field. -/
lemma parseDesc_badUrl {m u : Bytes} (hm : IsMethod m) (hu : IsRun u) {rest : Bytes}
    (hnul : nul ∈ rest) {req : Request}
    (hbad : readUrl beyond (untilNul u) (withMethod m req) = none) :
    parseDesc beyond (m ++ sp :: (u ++ sp :: rest)) req = .ok (withMethod m req, none) := by
  rw [parseDesc, descLoop_url hm hu hnul, hbad]
  rfl

/-- A version that no carriage return ends. -/
lemma parseDesc_openVer {m u v : Bytes} (hm : IsMethod m) (hu : IsRun u) (hv : cr ∉ v)
    (hnul : nul ∈ v) {req req' : Request}
    (hurl : readUrl beyond (untilNul u) (withMethod m req) = some req') :
    parseDesc beyond (m ++ sp :: (u ++ sp :: v)) req = .error .overread := by
  have hloop : ∀ buf i, descLoop beyond buf v .ver i 0 req' = .error .overread := by
    intro buf i
    rw [← List.append_nil v, descLoop_ver hv []]
    rfl
  rw [parseDesc, descLoop_url hm hu hnul, hurl]
  simp only [hloop]
  rfl

/-- A line with a version. -/
lemma parseDesc_ver {m u v : Bytes} (hm : IsMethod m) (hu : IsRun u) (hv : cr ∉ v)
    {rest : Bytes} (hnul : nul ∈ rest) {req req' : Request}
    (hurl : readUrl beyond (untilNul u) (withMethod m req) = some req') :
    parseDesc beyond (m ++ sp :: (u ++ sp :: (v ++ cr :: rest))) req =
      readVersion (m ++ sp :: (u ++ sp :: (v ++ cr :: rest))) (v.countP (· ≠ sp)) req' >>=
        fun req'' => .ok (req'', some (m.length + 1 + u.length + 1 + v.length + 2)) := by
  rw [parseDesc, descLoop_url hm hu (by simp [hnul]), hurl]
  simp only
  rw [descLoop_ver hv, descLoop_cr, Nat.zero_add]
  rfl

end Http
end Sunet
