/-
# Where the parser stays in its buffer

None of the scanning loops of `_parse` tests for the terminator, so whether a read leaves
the buffer depends on the bytes alone.  `Inside` lists the buffers for which the loops find
the bytes they look for, or end before they have to; the main result `parse_inside` shows
that there are no others.
-/
import Sunet.Http.Headers

namespace Sunet
namespace Http

open Byte StringUtil

/-- The run came to its end without a read behind the terminator. -/
def StaysInside {α : Type} (r : Except Fault α) : Prop :=
  r ≠ .error .overread ∧ r ≠ .error .fuel

/-- The URLs in which `split` finds no field: nothing in front of the first NUL, or no `?` and
a tab at the end. -/
def BadUrl (u : Bytes) : Prop :=
  untilNul u = [] ∨ qmark ∉ untilNul u ∧ (untilNul u).getLast? = some tab

/-- The buffers, terminator included, that the parser does not leave: the method is followed
by a byte that rejects the line, or the line ends and the header area behind it closes, or
the line is cut short by an empty URL, by a URL without a field, or by a NUL in a URL without
a query, which makes the string of a version that is not blank throw. -/
inductive Inside : Bytes → Prop
  | reject {m rest : Bytes} {c : Byte} : IsMethod m → ¬ isUpper c → c ≠ sp → c ≠ cr →
      Inside (m ++ c :: rest)
  | methodOnly {m rest : Bytes} {x : Byte} : IsMethod m → HeadersClose false rest →
      Inside (m ++ cr :: x :: rest)
  | noUrl {m rest : Bytes} : IsMethod m → Inside (m ++ sp :: cr :: rest)
  | url {m u rest : Bytes} {x : Byte} : IsMethod m → IsRun u → u ≠ [] →
      HeadersClose false rest → Inside (m ++ sp :: (u ++ cr :: x :: rest))
  | badUrl {m u rest : Bytes} : IsMethod m → IsRun u → BadUrl u →
      Inside (m ++ sp :: (u ++ sp :: rest))
  | badVer {m u v rest : Bytes} : IsMethod m → IsRun u → cr ∉ v → nul ∈ u →
      qmark ∉ untilNul u → (∃ c ∈ v, c ≠ sp) →
      Inside (m ++ sp :: (u ++ sp :: (v ++ cr :: rest)))
  | ver {m u v rest : Bytes} {x : Byte} : IsMethod m → IsRun u → cr ∉ v →
      HeadersClose false rest → Inside (m ++ sp :: (u ++ sp :: (v ++ cr :: x :: rest)))

/-! ## The parts of a buffer -/

/-- The rest of `_parse` behind a request line that returned. -/
lemma parse_of_desc {beyond : Byte} {buf line rest : Bytes} {req req' : Request}
    (hdesc : parseDesc beyond buf req = .ok (req', some line.length)) (hbuf : buf = line ++ rest)
    (hrest : Terminated rest) :
    StaysInside (parse beyond buf req) ↔ HeadersClose false rest := by
  obtain ⟨hfuel, hiff⟩ := headersLoop_ne_overread (rest.length + 1) [] rest req'
    (Nat.lt_succ_self _) hrest
  rw [List.nil_append, decide_eq_false (List.not_mem_nil)] at hiff
  rw [List.nil_append] at hfuel
  have hparse : parse beyond buf req =
      parseHeaders rest req' >>= fun r => .ok r.1 := by
    rw [parse, hdesc, Except.ok_bind, hbuf]
    simp only
    rw [List.drop_left]
  rw [hparse, StaysInside, ← hiff, parseHeaders]
  rw [List.length_nil] at hfuel ⊢
  generalize headersLoop rest (rest.length + 1) rest 0 req' = r at hfuel ⊢
  cases r with
  | error e =>
    simp only [Except.error_bind, ne_eq, Except.error.injEq] at hfuel ⊢
    exact ⟨fun h => h.1, fun h => ⟨h, hfuel⟩⟩
  | ok r => simp

lemma parse_of_reject {beyond : Byte} {buf : Bytes} {req req' : Request}
    (hdesc : parseDesc beyond buf req = .ok (req', none)) :
    StaysInside (parse beyond buf req) := by
  rw [parse, hdesc]
  exact ⟨by simp, by simp⟩

lemma parse_of_error {beyond : Byte} {buf : Bytes} {req : Request} {e : Fault}
    (hdesc : parseDesc beyond buf req = .error e) :
    parse beyond buf req = .error e := by
  rw [parse, hdesc]
  rfl

/-- A URL with a field gives a request, and the path in it is shorter than the URL exactly
when there is a `?`. -/
lemma readUrl_cases (beyond : Byte) (u : Bytes) (req : Request) :
    (BadUrl u ∧ readUrl beyond (untilNul u) req = none) ∨
      ¬ BadUrl u ∧ ∃ req', readUrl beyond (untilNul u) req = some req' ∧
        req'.method = req.method ∧
        (qmark ∉ untilNul u → req'.url = untilNul u) ∧
        (qmark ∈ untilNul u → req'.url.length < (untilNul u).length) := by
  rw [BadUrl, readUrl]
  generalize untilNul u = s
  by_cases hs : s = []
  · subst hs
    exact Or.inl ⟨Or.inl rfl, by rw [split_nil]⟩
  by_cases hq : qmark ∈ s
  · right
    refine ⟨by simp [hs, hq], ?_⟩
    obtain ⟨a, b, rfl, ha⟩ := List.eq_append_cons_of_mem hq
    have hlt : a.length < (a ++ qmark :: b).length := by simp
    obtain ⟨fs, hfs⟩ := split_of_cut (b := b) ha
    rw [hfs]
    cases fs with
    | nil => exact ⟨_, rfl, rfl, fun h => absurd hq h, fun _ => hlt⟩
    | cons f fs => exact ⟨_, rfl, rfl, fun h => absurd hq h, fun _ => hlt⟩
  · rw [split_of_notMem hs hq]
    by_cases htab : s.getLast? = some tab
    · rw [if_pos htab]
      exact Or.inl ⟨Or.inr ⟨hq, htab⟩, rfl⟩
    · rw [if_neg htab]
      refine Or.inr ⟨by simp [hs, htab], _, rfl, rfl, fun _ => rfl, fun h => absurd h hq⟩

/-! ## The cases of a request line -/

section cases

variable {beyond : Byte} {m u v rest : Bytes}

lemma terminated_tail {x y : Byte} (h : Terminated (y :: x :: rest)) : Terminated rest :=
  h.of_append (l := [y, x])

/-- The version changes no other field. -/
lemma readVersion_eq {buf : Bytes} {len : ℕ} {req req' : Request}
    (h : readVersion buf len req = .ok req') : req' = { req with version := req'.version } := by
  rw [readVersion] at h
  split at h
  · cases h
    rfl
  · obtain ⟨ver, -, h⟩ := Except.bind_eq_ok.mp h
    cases h
    rfl

/-- On a line that is only a method the version is taken from behind its first two bytes. -/
lemma readVersion_methodOnly (hm : IsMethod m) (hrest : nul ∈ rest) :
    ∃ req, readVersion (m ++ cr :: rest) m.length Request.new = .ok req := by
  cases m with
  | nil => exact ⟨_, rfl⟩
  | cons c m =>
    have hpre : nul ∉ c :: m ++ [cr] := by
      rw [List.mem_append, not_or]
      exact ⟨hm.nul_notMem, by decide⟩
    have hpos : Request.new.method.length + Request.new.url.length + 2 ≤
        (c :: m ++ [cr]).length := by
      simp [Request.new]
    obtain ⟨ver, hver⟩ := readVersion_ok hpre hrest hpos (c :: m).length
    exact ⟨_, by simpa using hver⟩

lemma parse_methodOnly {x : Byte} (hm : IsMethod m) (h : Terminated (m ++ cr :: x :: rest)) :
    StaysInside (parse beyond (m ++ cr :: x :: rest) Request.new) ↔ HeadersClose false rest := by
  have hnul : nul ∈ x :: rest := h.of_append.mem_of_cons (by decide)
  obtain ⟨req, hver⟩ := readVersion_methodOnly hm hnul
  have hdesc : parseDesc beyond (m ++ cr :: x :: rest) Request.new =
      .ok (req, some (m ++ [cr, x]).length) := by
    rw [parseDesc_methodOnly hm, hver, Except.ok_bind]
    simp
  exact parse_of_desc hdesc (by simp) (terminated_tail h.of_append)

lemma parse_url {x : Byte} (hm : IsMethod m) (hu : IsRun u) (hne : u ≠ [])
    (h : Terminated (m ++ sp :: (u ++ cr :: x :: rest))) :
    StaysInside (parse beyond (m ++ sp :: (u ++ cr :: x :: rest)) Request.new) ↔
      HeadersClose false rest := by
  have h' : Terminated ((m ++ sp :: u) ++ cr :: x :: rest) := by simpa using h
  have hnul : nul ∈ x :: rest := h'.of_append.mem_of_cons (by decide)
  have hdesc : parseDesc beyond (m ++ sp :: (u ++ cr :: x :: rest)) Request.new = _ :=
    parseDesc_url hm hu hne hnul Request.new
  rw [show m.length + 1 + u.length + 2 = (m ++ sp :: (u ++ [cr, x])).length by simp; omega]
    at hdesc
  exact parse_of_desc hdesc (by simp) (terminated_tail h'.of_append)

/-- The string of the version throws exactly when a NUL lies in a URL without a query. -/
lemma readVersion_cases (hm : IsMethod m) {req : Request} (hmeth : req.method = m)
    (hurl : qmark ∉ untilNul u → req.url = untilNul u)
    (hquery : qmark ∈ untilNul u → req.url.length < (untilNul u).length)
    (hrest : nul ∈ rest) {len : ℕ} (hlen : len ≠ 0) :
    (nul ∈ u ∧ qmark ∉ untilNul u ∧
        readVersion (m ++ sp :: (u ++ sp :: rest)) len req = .error .outOfRange) ∨
      ¬ (nul ∈ u ∧ qmark ∉ untilNul u) ∧
        ∃ req', readVersion (m ++ sp :: (u ++ sp :: rest)) len req = .ok req' := by
  have hmnul := hm.nul_notMem
  by_cases hu : nul ∈ u
  · obtain ⟨u₁, u₂, rfl, hu₁⟩ := List.eq_append_cons_of_mem hu
    rw [untilNul_cut hu₁] at hurl hquery ⊢
    by_cases hq : qmark ∈ u₁
    · right
      have hpre : nul ∉ m ++ sp :: u₁ := by simp [hmnul, hu₁]
      have hpos : req.method.length + req.url.length + 2 ≤ (m ++ sp :: u₁).length := by
        have := hquery hq
        rw [hmeth]
        simp
        omega
      have hmem : nul ∈ nul :: u₂ ++ sp :: rest := by simp
      obtain ⟨ver, hver⟩ := readVersion_ok hpre hmem hpos len
      exact ⟨fun h => h.2 hq, _, by simpa using hver⟩
    · left
      -- the offset lies behind the NUL of the URL
      have hsplit : m ++ sp :: (u₁ ++ nul :: u₂ ++ sp :: rest) =
          (m ++ sp :: (u₁ ++ [nul])) ++ (u₂ ++ sp :: rest) := by simp
      have hpos : m.length + u₁.length + 2 = (m ++ sp :: (u₁ ++ [nul])).length := by
        simp
        omega
      refine ⟨hu, hq, ?_⟩
      rw [readVersion, if_neg hlen, hmeth, hurl hq, hsplit, hpos,
        assign_eq_outOfRange (by simp)]
      rfl
  · right
    have huntil := untilNul_eq_self hu
    rw [huntil] at hurl hquery
    have hle : req.url.length ≤ u.length := by
      by_cases hq : qmark ∈ u
      · exact (hquery hq).le
      · rw [hurl hq]
    have hpre : nul ∉ m ++ sp :: (u ++ [sp]) := by
      simp [hmnul, hu]
    have hpos : req.method.length + req.url.length + 2 ≤ (m ++ sp :: (u ++ [sp])).length := by
      rw [hmeth]
      simp
      omega
    obtain ⟨ver, hver⟩ := readVersion_ok hpre hrest hpos len
    exact ⟨fun h => hu h.1, _, by simpa using hver⟩

/-- Without a NUL in the URL the version is inside the buffer. -/
lemma readVersion_of_notMem (hm : IsMethod m) {req : Request} (hmeth : req.method = m)
    (hurl : qmark ∉ untilNul u → req.url = untilNul u)
    (hquery : qmark ∈ untilNul u → req.url.length < (untilNul u).length) (hu : nul ∉ u)
    (hrest : nul ∈ rest) (len : ℕ) :
    ∃ req', readVersion (m ++ sp :: (u ++ sp :: rest)) len req = .ok req' := by
  by_cases hlen : len = 0
  · exact ⟨_, by rw [readVersion, if_pos hlen]⟩
  · rcases readVersion_cases hm hmeth hurl hquery hrest hlen with ⟨h, -, -⟩ | ⟨-, h⟩
    · exact absurd h hu
    · exact h

lemma parse_badUrl (hm : IsMethod m) (hu : IsRun u) (hbad : BadUrl u)
    (h : Terminated (m ++ sp :: (u ++ sp :: rest))) :
    StaysInside (parse beyond (m ++ sp :: (u ++ sp :: rest)) Request.new) := by
  have h' : Terminated ((m ++ sp :: u) ++ sp :: rest) := by simpa using h
  have hnul : nul ∈ rest := h'.of_append.mem_of_cons (by decide)
  rcases readUrl_cases beyond u (withMethod m Request.new) with ⟨-, hread⟩ | ⟨hgood, -⟩
  · exact parse_of_reject (parseDesc_badUrl hm hu hnul hread)
  · exact absurd hbad hgood

/-- A line with a version: the throw, or the header area. -/
lemma parse_ver {x : Byte} (hm : IsMethod m) (hu : IsRun u) (hgood : ¬ BadUrl u) (hv : cr ∉ v)
    (h : Terminated (m ++ sp :: (u ++ sp :: (v ++ cr :: x :: rest)))) :
    StaysInside (parse beyond (m ++ sp :: (u ++ sp :: (v ++ cr :: x :: rest))) Request.new) ↔
      (nul ∈ u ∧ qmark ∉ untilNul u ∧ ∃ c ∈ v, c ≠ sp) ∨ HeadersClose false rest := by
  have h' : Terminated ((m ++ sp :: (u ++ sp :: v)) ++ cr :: x :: rest) := by simpa using h
  have hnul : nul ∈ x :: rest := h'.of_append.mem_of_cons (by decide)
  have hterm : Terminated rest := terminated_tail h'.of_append
  rcases readUrl_cases beyond u (withMethod m Request.new) with ⟨hbad, -⟩ | ⟨-, req, hread, hreq⟩
  · exact absurd hbad hgood
  obtain ⟨hmeth, hurl, hquery⟩ := hreq
  have hdesc := parseDesc_ver hm hu hv hnul hread
  have hlen : m.length + 1 + u.length + 1 + v.length + 2 =
      (m ++ sp :: (u ++ sp :: (v ++ [cr, x]))).length := by
    simp
    omega
  rw [hlen] at hdesc
  have hclose : ∀ req', readVersion (m ++ sp :: (u ++ sp :: (v ++ cr :: x :: rest)))
      (v.countP (· ≠ sp)) req = .ok req' →
      (StaysInside (parse beyond (m ++ sp :: (u ++ sp :: (v ++ cr :: x :: rest))) Request.new) ↔
        HeadersClose false rest) := by
    intro req' hver
    rw [hver, Except.ok_bind] at hdesc
    exact parse_of_desc hdesc (by simp) hterm
  by_cases hcount : v.countP (· ≠ sp) = 0
  · have hblank : ¬ ∃ c ∈ v, c ≠ sp := by
      rw [List.countP_eq_zero] at hcount
      rintro ⟨c, hc, hne⟩
      exact hcount c hc (by simpa using hne)
    rw [hclose _ (by rw [readVersion, if_pos hcount])]
    exact ⟨Or.inr, fun h => h.resolve_left fun h => hblank h.2.2⟩
  · have hne : ∃ c ∈ v, c ≠ sp := by
      by_contra hno
      refine hcount (List.countP_eq_zero.mpr fun c hc => ?_)
      by_contra hcsp
      exact hno ⟨c, hc, by simpa using hcsp⟩
    have hmem : nul ∈ v ++ cr :: x :: rest := by simp [List.mem_cons.mp hnul]
    rcases readVersion_cases hm hmeth hurl hquery hmem hcount with
      ⟨h1, h2, hver⟩ | ⟨hno, req', hver⟩
    · rw [hver] at hdesc
      rw [parse_of_error hdesc]
      exact ⟨fun _ => Or.inl ⟨h1, h2, hne⟩, fun _ => ⟨by simp, by simp⟩⟩
    · rw [hclose req' hver]
      exact ⟨Or.inr, fun h => h.resolve_left fun h => hno ⟨h.1, h.2.1⟩⟩

end cases

/-! ## The result -/

lemma parse_of_inside {beyond : Byte} {buf : Bytes} (h : Inside buf) (hbuf : Terminated buf) :
    StaysInside (parse beyond buf Request.new) := by
  cases h with
  | reject hm hc hsp hcr => exact parse_of_reject (parseDesc_reject hm hc hsp hcr _ _)
  | methodOnly hm hclose => exact (parse_methodOnly hm hbuf).mpr hclose
  | @noUrl m rest hm =>
    have hbuf' : Terminated ((m ++ [sp]) ++ cr :: rest) := by simpa using hbuf
    exact parse_of_reject (parseDesc_noUrl hm (hbuf'.of_append.mem_of_cons (by decide)) _)
  | url hm hu hne hclose => exact (parse_url hm hu hne hbuf).mpr hclose
  | badUrl hm hu hbad => exact parse_badUrl hm hu hbad hbuf
  | @badVer m u v rest hm hu hv hnul hq hne =>
    by_cases hbad : BadUrl u
    · exact parse_badUrl hm hu hbad hbuf
    · have hbuf' : Terminated ((m ++ sp :: (u ++ sp :: v)) ++ cr :: rest) := by simpa using hbuf
      have hmem : nul ∈ rest := hbuf'.of_append.mem_of_cons (by decide)
      obtain ⟨x, rest', rfl⟩ := List.exists_cons_of_ne_nil (List.ne_nil_of_mem hmem)
      exact (parse_ver hm hu hbad hv hbuf).mpr (Or.inl ⟨hnul, hq, hne⟩)
  | @ver m u v rest x hm hu hv hclose =>
    by_cases hbad : BadUrl u
    · exact parse_badUrl hm hu hbad hbuf
    · exact (parse_ver hm hu hbad hv hbuf).mpr (Or.inr hclose)

/-- The part of a buffer behind its method and a space. -/
lemma inside_of_stays_url {beyond : Byte} {m r : Bytes} (hm : IsMethod m)
    (hbuf : Terminated (m ++ sp :: r))
    (h : StaysInside (parse beyond (m ++ sp :: r) Request.new)) : Inside (m ++ sp :: r) := by
  have hnul : nul ∈ r := hbuf.of_append.mem_of_cons (by decide)
  by_cases hend : ∃ c ∈ r, c = sp ∨ c = cr
  · obtain ⟨u, c, r', hcut⟩ := Cut.exists_isCut hend
    have hu : IsRun u :=
      ⟨fun hmem => hcut.pre sp hmem (Or.inl rfl), fun hmem => hcut.pre cr hmem (Or.inr rfl)⟩
    obtain rfl := hcut.eq
    have hbuf' : Terminated ((m ++ sp :: u) ++ c :: r') := by simpa using hbuf
    have hcnul : c ≠ nul := by
      rcases hcut.at_stop with rfl | rfl <;> decide
    have hnul' : nul ∈ r' := hbuf'.of_append.mem_of_cons hcnul
    rcases hcut.at_stop with rfl | rfl
    · by_cases hbad : BadUrl u
      · exact Inside.badUrl hm hu hbad
      rcases readUrl_cases beyond u (withMethod m Request.new) with ⟨hb, -⟩ | ⟨-, req, hread, -⟩
      · exact absurd hb hbad
      by_cases hcr : cr ∈ r'
      · obtain ⟨v, rest, rfl, hv⟩ := List.eq_append_cons_of_mem hcr
        have hbuf'' : Terminated ((m ++ sp :: (u ++ sp :: v)) ++ cr :: rest) := by
          simpa using hbuf
        have hmem : nul ∈ rest := hbuf''.of_append.mem_of_cons (by decide)
        obtain ⟨x, rest', rfl⟩ := List.exists_cons_of_ne_nil (List.ne_nil_of_mem hmem)
        rcases (parse_ver hm hu hbad hv hbuf).mp h with ⟨h1, h2, h3⟩ | hclose
        · exact Inside.badVer hm hu hv h1 h2 h3
        · exact Inside.ver hm hu hv hclose
      · exact absurd (parse_of_error (parseDesc_openVer hm hu hcr hnul' hread)) h.1
    · obtain ⟨x, rest', rfl⟩ := List.exists_cons_of_ne_nil (List.ne_nil_of_mem hnul')
      by_cases hne : u = []
      · subst hne
        exact Inside.noUrl hm
      · exact Inside.url hm hu hne ((parse_url hm hu hne hbuf).mp h)
  · have hu : IsRun r := ⟨fun hmem => hend ⟨sp, hmem, Or.inl rfl⟩,
      fun hmem => hend ⟨cr, hmem, Or.inr rfl⟩⟩
    exact absurd (parse_of_error (parseDesc_openUrl hm hu hnul _)) h.1

/-- **The parser ends without leaving its buffer exactly on the buffers of `Inside`.** -/
theorem parse_inside (beyond : Byte) (s : Bytes) :
    StaysInside (parse beyond (s ++ [nul]) Request.new) ↔ Inside (s ++ [nul]) := by
  have hbuf : Terminated (s ++ [nul]) := Or.inr (by simp)
  refine ⟨fun h => ?_, fun h => parse_of_inside h hbuf⟩
  have hend : ∃ c ∈ s ++ [nul], ¬ isUpper c := ⟨nul, by simp, by decide⟩
  obtain ⟨m, c, r, hcut⟩ := Cut.exists_isCut hend
  have hm : IsMethod m := fun x hx => not_not.mp (hcut.pre x hx)
  have heq := hcut.eq
  rw [heq] at h hbuf ⊢
  by_cases hsp : c = sp
  · subst hsp
    exact inside_of_stays_url hm hbuf h
  by_cases hcr : c = cr
  · subst hcr
    have hmem : nul ∈ r := hbuf.of_append.mem_of_cons (by decide)
    obtain ⟨x, rest, rfl⟩ := List.exists_cons_of_ne_nil (List.ne_nil_of_mem hmem)
    exact Inside.methodOnly hm ((parse_methodOnly hm hbuf).mp h)
  · exact Inside.reject hm hcut.at_stop hsp hcr

/-- The buffer `GET /` makes the parser leave it. -/
theorem not_parse_inside :
    ¬ ∀ (beyond : Byte) (s : Bytes), StaysInside (parse beyond (s ++ [nul]) Request.new) := by
  intro h
  refine (h 0 (bytes "GET /")).1 ?_
  have hm : IsMethod (bytes "GET") := by decide
  have hu : IsRun (bytes "/" ++ [nul]) := by
    constructor <;> decide
  exact parse_of_error (parseDesc_openUrl hm hu (by decide) Request.new)

end Http
end Sunet
