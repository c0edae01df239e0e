/-
# The lines that are accepted

The scanner of `_parse_desc` has three states, and after the loop only the state of the URL is
looked at: a line of letters ends in the state of the method and is accepted.  A method without
letters is not noticed either, and a URL in front of a version is rejected when `split` finds
no field in it.  `AcceptedLine` lists the lines that are accepted, and `Misjudged` those on
which this differs from the form of a request line.
-/
import Sunet.Http.Fields

namespace Sunet
namespace Http

open Byte StringUtil

/-- The buffer with a line, its end and what follows it. -/
def lineBuffer (line tail : Bytes) : Bytes := line ++ [cr, lf] ++ tail ++ [nul]

/-- `_parse_desc` does not return `HTTP_PARSE_FAIL`. -/
def Accepts (beyond : Byte) (line tail : Bytes) : Prop :=
  ∃ req n, parseDesc beyond (lineBuffer line tail) Request.new = .ok (req, some n)

/-- `_parse_desc` returns `HTTP_PARSE_FAIL`. -/
def Rejects (beyond : Byte) (line tail : Bytes) : Prop :=
  ∃ req, parseDesc beyond (lineBuffer line tail) Request.new = .ok (req, none)

/-- A method, a space and a URL, and behind another space anything. -/
inductive IsRequestLine : Bytes → Prop
  | url {m u : Bytes} : m ≠ [] → IsMethod m → u ≠ [] → sp ∉ u → IsRequestLine (m ++ sp :: u)
  | version {m u v : Bytes} : m ≠ [] → IsMethod m → u ≠ [] → sp ∉ u →
      IsRequestLine (m ++ sp :: (u ++ sp :: v))

/-- The URL has a field. -/
def HasField (u : Bytes) : Prop := qmark ∈ u ∨ u.getLast? ≠ some tab

/-- The lines without NUL and carriage return that `_parse_desc` accepts. -/
inductive AcceptedLine : Bytes → Prop
  | methodOnly {m : Bytes} : IsMethod m → AcceptedLine m
  | url {m u : Bytes} : IsMethod m → u ≠ [] → sp ∉ u → AcceptedLine (m ++ sp :: u)
  | version {m u v : Bytes} : IsMethod m → u ≠ [] → sp ∉ u → HasField u →
      AcceptedLine (m ++ sp :: (u ++ sp :: v))

/-- The lines that `_parse_desc` judges by another form: letters only, a URL without a method in
front of it, and a URL in front of a version that has no field. -/
inductive Misjudged : Bytes → Prop
  | methodOnly {m : Bytes} : IsMethod m → Misjudged m
  | noMethodUrl {u : Bytes} : u ≠ [] → sp ∉ u → Misjudged (sp :: u)
  | noMethodVersion {u v : Bytes} : u ≠ [] → sp ∉ u → HasField u → Misjudged (sp :: (u ++ sp :: v))
  | noField {m u v : Bytes} : m ≠ [] → IsMethod m → u ≠ [] → sp ∉ u → ¬ HasField u →
      Misjudged (m ++ sp :: (u ++ sp :: v))

/-! ## What is accepted -/

section accepts

variable (beyond : Byte) {m u v : Bytes} (tail : Bytes)

lemma IsMethod.sp_notMem (hm : IsMethod m) : sp ∉ m :=
  fun h => (isUpper_ne sp (hm sp h)).1 rfl

lemma accepts_methodOnly (hm : IsMethod m) : Accepts beyond m tail := by
  have hbuf : lineBuffer m tail = m ++ cr :: (lf :: tail ++ [nul]) := by simp [lineBuffer]
  have hrest : nul ∈ lf :: tail ++ [nul] := by simp
  obtain ⟨req, hver⟩ := readVersion_methodOnly hm hrest
  refine ⟨req, m.length + 2, ?_⟩
  rw [hbuf, parseDesc_methodOnly hm, hver, Except.ok_bind]

lemma accepts_url (hm : IsMethod m) (hu : IsWord u) : Accepts beyond (m ++ sp :: u) tail := by
  have hbuf : lineBuffer (m ++ sp :: u) tail = urlLine m u ++ tail ++ [nul] := by
    simp [lineBuffer, urlLine]
  exact ⟨_, _, by rw [hbuf, parseDesc_urlLine beyond tail hm hu]⟩

lemma version_buffer (m u v tail : Bytes) : lineBuffer (m ++ sp :: (u ++ sp :: v)) tail =
    m ++ sp :: (u ++ sp :: (v ++ cr :: (lf :: tail ++ [nul]))) := by
  simp [lineBuffer]

lemma accepts_version (hm : IsMethod m) (hu : IsWord u) (hv : cr ∉ v) (hfield : HasField u) :
    Accepts beyond (m ++ sp :: (u ++ sp :: v)) tail := by
  have huntil := untilNul_eq_self hu.2.2.2
  have hgood : ¬ BadUrl u := by
    rw [BadUrl, huntil]
    rintro (h | ⟨hq, htab⟩)
    · exact hu.1 h
    · exact hfield.elim hq fun h => h htab
  rcases readUrl_cases beyond u (withMethod m Request.new) with
    ⟨hbad, -⟩ | ⟨-, req, hread, hmeth, hurl, hquery⟩
  · exact absurd hbad hgood
  have hmem : nul ∈ v ++ cr :: (lf :: tail ++ [nul]) := by simp
  obtain ⟨req', hver⟩ := readVersion_of_notMem hm hmeth hurl hquery hu.2.2.2 hmem
    (v.countP (· ≠ sp))
  refine ⟨req', m.length + 1 + u.length + 1 + v.length + 2, ?_⟩
  rw [version_buffer, parseDesc_ver hm hu.isRun hv (by simp) hread, hver, Except.ok_bind]

lemma rejects_noField (hm : IsMethod m) (hu : sp ∉ u ∧ cr ∉ u ∧ nul ∉ u)
    (hbad : u = [] ∨ ¬ HasField u) : Rejects beyond (m ++ sp :: (u ++ sp :: v)) tail := by
  have hread : readUrl beyond (untilNul u) (withMethod m Request.new) = none := by
    rw [untilNul_eq_self hu.2.2]
    by_cases hne : u = []
    · rw [hne, readUrl, split_nil]
    · have hfield := hbad.resolve_left hne
      rw [HasField, not_or, not_not] at hfield
      exact readUrl_tab beyond hne hfield.1 hfield.2 _
  exact ⟨_, by rw [version_buffer, parseDesc_badUrl hm ⟨hu.1, hu.2.1⟩ (by simp) hread]⟩

lemma rejects_noUrl (hm : IsMethod m) : Rejects beyond (m ++ [sp]) tail := by
  have hbuf : lineBuffer (m ++ [sp]) tail = m ++ sp :: cr :: (lf :: tail ++ [nul]) := by
    simp [lineBuffer]
  exact ⟨_, by rw [hbuf, parseDesc_noUrl hm (by simp)]⟩

lemma rejects_char (hm : IsMethod m) {c : Byte} (hc : ¬ isUpper c) (hsp : c ≠ sp) (hcr : c ≠ cr)
    (rest : Bytes) : Rejects beyond (m ++ c :: rest) tail := by
  have hbuf : lineBuffer (m ++ c :: rest) tail = m ++ c :: (rest ++ [cr, lf] ++ tail ++ [nul]) := by
    simp [lineBuffer]
  exact ⟨_, by rw [hbuf, parseDesc_reject hm hc hsp hcr]⟩

lemma AcceptedLine.accepts {line : Bytes} (h : AcceptedLine line) (hnul : nul ∉ line)
    (hcr : cr ∉ line) : Accepts beyond line tail := by
  cases h with
  | methodOnly hm => exact accepts_methodOnly beyond tail hm
  | url hm hne hu =>
    simp only [List.mem_append, List.mem_cons, not_or] at hnul hcr
    exact accepts_url beyond tail hm ⟨hne, hu, hcr.2.2, hnul.2.2⟩
  | version hm hne hu hfield =>
    simp only [List.mem_append, List.mem_cons, not_or] at hnul hcr
    obtain ⟨-, -, hunul, -, -⟩ := hnul
    obtain ⟨-, -, hucr, -, hvcr⟩ := hcr
    exact accepts_version beyond tail hm ⟨hne, hu, hucr, hunul⟩ hvcr hfield

/-- Every other line is rejected. -/
lemma acceptedLine_or_rejects {line : Bytes} (hnul : nul ∉ line) (hcr : cr ∉ line) :
    AcceptedLine line ∨ Rejects beyond line tail := by
  by_cases hletters : IsMethod line
  · exact Or.inl (AcceptedLine.methodOnly hletters)
  have hend : ∃ c ∈ line, ¬ isUpper c := by
    by_contra hno
    exact hletters fun c hc => by_contra fun h => hno ⟨c, hc, h⟩
  obtain ⟨m, c, rest, hcut⟩ := Cut.exists_isCut hend
  have hm : IsMethod m := fun x hx => not_not.mp (hcut.pre x hx)
  obtain rfl := hcut.eq
  by_cases hsp : c = sp
  · subst hsp
    simp only [List.mem_append, List.mem_cons, not_or] at hnul hcr
    by_cases hspace : sp ∈ rest
    · -- the URL ends at the second space
      obtain ⟨u, v, rfl, hu⟩ := List.eq_append_cons_of_mem hspace
      simp only [List.mem_append, List.mem_cons, not_or] at hnul hcr
      obtain ⟨-, -, hunul, -, -⟩ := hnul
      obtain ⟨-, -, hucr, -, -⟩ := hcr
      by_cases hbad : u = [] ∨ ¬ HasField u
      · exact Or.inr (rejects_noField beyond tail hm ⟨hu, hucr, hunul⟩ hbad)
      · rw [not_or, not_not] at hbad
        exact Or.inl (AcceptedLine.version hm hbad.1 hu hbad.2)
    · by_cases hne : rest = []
      · rw [hne]
        exact Or.inr (rejects_noUrl beyond tail hm)
      · exact Or.inl (AcceptedLine.url hm hne hspace)
  · have hc : c ≠ cr := fun h => hcr (by simp [h])
    exact Or.inr (rejects_char beyond tail hm hcut.at_stop hsp hc rest)

lemma Rejects.not_accepts {line : Bytes} (h : Rejects beyond line tail) :
    ¬ Accepts beyond line tail := by
  rintro ⟨req, n, haccept⟩
  obtain ⟨req', hreject⟩ := h
  rw [hreject] at haccept
  cases haccept

end accepts

/-! ## Accepted lines and request lines -/

section form

variable {m u v line : Bytes}

lemma IsRequestLine.cut (h : IsRequestLine line) :
    ∃ m rest, m ≠ [] ∧ IsMethod m ∧ line = m ++ sp :: rest := by
  cases h with
  | url hne hm _ _ => exact ⟨_, _, hne, hm, rfl⟩
  | version hne hm _ _ => exact ⟨_, _, hne, hm, rfl⟩

/-- A request line starts with a letter. -/
lemma not_isRequestLine_space (rest : Bytes) : ¬ IsRequestLine (sp :: rest) := by
  intro h
  obtain ⟨m, rest', hne, hm, heq⟩ := h.cut
  have hcut : [] ++ sp :: rest = m ++ sp :: rest' := heq
  obtain ⟨hnil, -⟩ := Cut.cut_unique List.not_mem_nil hm.sp_notMem hcut
  exact hne hnil.symm

lemma not_isRequestLine_letters (hm : IsMethod line) : ¬ IsRequestLine line := by
  intro h
  obtain ⟨m, rest, -, -, rfl⟩ := h.cut
  exact hm.sp_notMem (by simp)

/-- Of a line with a method, a URL and a version the URL has a field, if it is accepted. -/
lemma AcceptedLine.hasField (hm : IsMethod m) (hu : sp ∉ u)
    (h : AcceptedLine (m ++ sp :: (u ++ sp :: v))) : HasField u := by
  generalize hline : m ++ sp :: (u ++ sp :: v) = line at h
  cases h with
  | methodOnly hm' =>
    rw [← hline] at hm'
    exact absurd (by simp) hm'.sp_notMem
  | url hm' _ hu' =>
    obtain ⟨-, rfl⟩ := Cut.cut_unique hm.sp_notMem hm'.sp_notMem hline
    simp at hu'
  | version hm' _ hu' hfield =>
    obtain ⟨-, hrest⟩ := Cut.cut_unique hm.sp_notMem hm'.sp_notMem hline
    obtain ⟨rfl, -⟩ := Cut.cut_unique hu hu' hrest
    exact hfield

lemma acceptedLine_iff_of_not_misjudged (h : ¬ Misjudged line) :
    AcceptedLine line ↔ IsRequestLine line := by
  constructor
  · intro hacc
    cases hacc with
    | methodOnly hm => exact absurd (Misjudged.methodOnly hm) h
    | @url m u hm hne hu =>
      by_cases hnil : m = []
      · subst hnil
        exact absurd (Misjudged.noMethodUrl hne hu) h
      · exact IsRequestLine.url hnil hm hne hu
    | @version m u v hm hne hu hfield =>
      by_cases hnil : m = []
      · subst hnil
        exact absurd (Misjudged.noMethodVersion hne hu hfield) h
      · exact IsRequestLine.version hnil hm hne hu
  · intro hform
    cases hform with
    | url _ hm hne hu => exact AcceptedLine.url hm hne hu
    | @version m u v hnil hm hne hu =>
      by_cases hfield : HasField u
      · exact AcceptedLine.version hm hne hu hfield
      · exact absurd (Misjudged.noField hnil hm hne hu hfield) h

lemma Misjudged.not_iff (h : Misjudged line) : ¬ (AcceptedLine line ↔ IsRequestLine line) := by
  have hnone : IsMethod ([] : Bytes) := fun c hc => by cases hc
  intro hiff
  cases h with
  | methodOnly hm =>
    exact not_isRequestLine_letters hm (hiff.mp (AcceptedLine.methodOnly hm))
  | noMethodUrl hne hu =>
    exact not_isRequestLine_space _ (hiff.mp (AcceptedLine.url hnone hne hu))
  | noMethodVersion hne hu hfield =>
    exact not_isRequestLine_space _ (hiff.mp (AcceptedLine.version hnone hne hu hfield))
  | noField hnil hm hne hu hfield =>
    exact hfield ((hiff.mpr (IsRequestLine.version hnil hm hne hu)).hasField hm hu)

end form

/-- `_parse_desc` accepts the lines of `AcceptedLine`. -/
lemma accepts_iff (beyond : Byte) {line : Bytes} (tail : Bytes) (hnul : nul ∉ line)
    (hcr : cr ∉ line) : Accepts beyond line tail ↔ AcceptedLine line := by
  constructor
  · intro hacc
    rcases acceptedLine_or_rejects beyond tail hnul hcr with hline | hrej
    · exact hline
    · exact absurd hacc (hrej.not_accepts beyond tail)
  · exact fun hline => hline.accepts beyond tail hnul hcr

/-- **A line is accepted if and only if it has the form of a request line** exactly when it is
not one of those that are judged by another form. -/
theorem accepts_iff_isRequestLine (beyond : Byte) (line tail : Bytes)
    (hline : nul ∉ line ∧ cr ∉ line) :
    (Accepts beyond line tail ↔ IsRequestLine line) ↔ ¬ Misjudged line := by
  rw [accepts_iff beyond tail hline.1 hline.2]
  exact ⟨fun hiff hmis => hmis.not_iff hiff, acceptedLine_iff_of_not_misjudged⟩

/-- The line `GET / HTTP/1.1` is judged by its form. -/
theorem accepts_iff_isRequestLine_get :
    Accepts 0 (bytes "GET / HTTP/1.1") [] ↔ IsRequestLine (bytes "GET / HTTP/1.1") := by
  refine (accepts_iff_isRequestLine 0 _ [] (by decide)).mpr fun hmis => hmis.not_iff ?_
  have hline : bytes "GET / HTTP/1.1" =
      bytes "GET" ++ sp :: (bytes "/" ++ sp :: bytes "HTTP/1.1") := by decide
  rw [hline]
  exact ⟨fun _ => IsRequestLine.version (by decide) (by decide) (by decide) (by decide),
    fun _ => AcceptedLine.version (by decide) (by decide) (by decide) (Or.inr (by decide))⟩

/-- The empty line is accepted. -/
theorem not_accepts_iff_isRequestLine :
    ¬ ∀ (beyond : Byte) (line tail : Bytes), nul ∉ line ∧ cr ∉ line →
      (Accepts beyond line tail ↔ IsRequestLine line) := by
  intro h
  have hm : IsMethod ([] : Bytes) := by decide
  exact not_isRequestLine_letters hm
    ((h 0 [] [] (by decide)).mp (accepts_methodOnly 0 [] hm))

end Http
end Sunet
