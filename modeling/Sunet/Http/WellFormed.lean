/-
# Well-formed requests

The parser accepts a request with a request line, headers and a blank line and returns its
method.  On any proper beginning of such a request that goes beyond the method it leaves its
buffer, since what it looks for next lies behind the terminator.
-/
import Sunet.Http.Bounds
import Sunet.Http.HeaderFields

namespace Sunet
namespace Http

open Byte StringUtil

/-- The bytes of a word of the request line. -/
def isVisible (c : Byte) : Prop := 0x21 ≤ c.toNat ∧ c.toNat ≠ 0x7f

instance : DecidablePred isVisible := fun c => by
  unfold isVisible
  infer_instance

/-- A header as it stands in a request. -/
def headerLine (kv : Bytes × Bytes) : Bytes := kv.1 ++ colon :: (kv.2 ++ [cr, lf])

/-- A key and a value that can stand in a header. -/
structure IsHeader (kv : Bytes × Bytes) : Prop where
  colon_key : colon ∉ kv.1
  cr_key : cr ∉ kv.1
  nul_key : nul ∉ kv.1
  cr_value : cr ∉ kv.2
  nul_value : nul ∉ kv.2

/-- The header area: the headers and the blank line. -/
def headerArea (headers : List (Bytes × Bytes)) : Bytes :=
  (headers.map headerLine).flatten ++ [cr, lf]

/-- A complete request. -/
structure WellFormed where
  method : Bytes
  url : Bytes
  version : Bytes
  headers : List (Bytes × Bytes)
  method_ne : method ≠ []
  isMethod : IsMethod method
  url_ne : url ≠ []
  url_visible : ∀ c ∈ url, isVisible c
  version_visible : ∀ c ∈ version, isVisible c
  isHeader : ∀ kv ∈ headers, IsHeader kv

/-- What follows the method and its space. -/
def WellFormed.tail (r : WellFormed) : Bytes :=
  r.url ++ sp :: (r.version ++ cr :: lf :: headerArea r.headers)

/-- The bytes of a request. -/
def WellFormed.stream (r : WellFormed) : Bytes := r.method ++ sp :: r.tail

lemma isVisible_ne : ∀ c : Byte, isVisible c → c ≠ sp ∧ c ≠ cr ∧ c ≠ nul ∧ c ≠ tab := by
  decide +kernel

lemma notMem_of_visible {w : Bytes} (hw : ∀ c ∈ w, isVisible c) :
    sp ∉ w ∧ cr ∉ w ∧ nul ∉ w ∧ tab ∉ w :=
  ⟨fun h => (isVisible_ne _ (hw _ h)).1 rfl, fun h => (isVisible_ne _ (hw _ h)).2.1 rfl,
    fun h => (isVisible_ne _ (hw _ h)).2.2.1 rfl, fun h => (isVisible_ne _ (hw _ h)).2.2.2 rfl⟩

lemma IsRun.of_prefix {u t : Bytes} (hu : IsRun u) (ht : t <+: u) : IsRun t :=
  ⟨fun h => hu.1 (ht.subset h), fun h => hu.2 (ht.subset h)⟩

lemma IsMethod.of_subset {m m' : Bytes} (hm : IsMethod m) (h : m' ⊆ m) : IsMethod m' :=
  fun c hc => hm c (h hc)

section

variable {beyond : Byte}

lemma WellFormed.isRun (r : WellFormed) : IsRun r.url :=
  ⟨(notMem_of_visible r.url_visible).1, (notMem_of_visible r.url_visible).2.1⟩

lemma WellFormed.not_badUrl (r : WellFormed) : ¬ BadUrl r.url := by
  obtain ⟨-, -, hnul, htab⟩ := notMem_of_visible r.url_visible
  rw [BadUrl, untilNul_eq_self hnul]
  rintro (h | ⟨-, h⟩)
  · exact r.url_ne h
  · exact htab (List.mem_of_getLast? h)

/-! ## The whole request -/

/-- The field of a header. -/
def headerLineField (kv : Bytes × Bytes) : Field := ⟨kv.1, kv.2, lf⟩

lemma headerArea_eq (headers : List (Bytes × Bytes)) :
    headerArea headers = fieldArea (headers.map headerLineField) ++ [cr, lf] := by
  rw [headerArea, fieldArea, List.map_map]
  rfl

/-- The headers of a request are read. -/
lemma parseHeaders_headerArea {headers : List (Bytes × Bytes)} (hh : ∀ kv ∈ headers, IsHeader kv)
    (req : Request) : ∃ req' n, parseHeaders (headerArea headers ++ [nul]) req = .ok (req', n) ∧
      req'.method = req.method := by
  have hfield : ∀ f ∈ headers.map headerLineField, f.IsCut ∧ cr ∉ f.key ∧ nul ∉ f.line := by
    intro f hf
    obtain ⟨kv, hkv, rfl⟩ := List.mem_map.mp hf
    have h := hh kv hkv
    refine ⟨⟨h.colon_key, h.cr_value⟩, h.cr_key, ?_⟩
    simp [headerLineField, Field.line, h.nul_key, h.nul_value]
  have hbuf : headerArea headers ++ [nul] =
      fieldArea (headers.map headerLineField) ++ cr :: lf :: ([] ++ [nul]) := by
    rw [headerArea_eq]
    simp
  rw [hbuf]
  exact ⟨_, _, parseHeaders_fieldArea (fun f hf => (hfield f hf).1)
    (fun f hf => (hfield f hf).2.1) (fun f hf => (hfield f hf).2.2) [] req, rfl⟩

/-- **A complete request is parsed**, also when the beginning of its method is missing. -/
lemma parse_wellFormed (r : WellFormed) {m : Bytes} (hm : IsMethod m) :
    ∃ req, parse beyond (m ++ sp :: r.tail ++ [nul]) Request.new = .ok req ∧
      req.method = m := by
  obtain ⟨-, -, hunul, -⟩ := notMem_of_visible r.url_visible
  obtain ⟨-, hvcr, -, -⟩ := notMem_of_visible r.version_visible
  have hbuf : m ++ sp :: r.tail ++ [nul] = m ++ sp :: (r.url ++ sp ::
      (r.version ++ cr :: (lf :: (headerArea r.headers ++ [nul])))) := by
    simp [WellFormed.tail]
  rcases readUrl_cases beyond r.url (withMethod m Request.new) with
    ⟨hbad, -⟩ | ⟨-, req, hread, hmeth, hurl, hquery⟩
  · exact absurd hbad r.not_badUrl
  -- the version lies inside the buffer, since the URL has no NUL
  have hmem : nul ∈ r.version ++ cr :: (lf :: (headerArea r.headers ++ [nul])) := by simp
  obtain ⟨req', hver⟩ := readVersion_of_notMem hm hmeth hurl hquery hunul hmem
    (r.version.countP (· ≠ sp))
  have hline : m.length + 1 + r.url.length + 1 + r.version.length + 2 =
      (m ++ sp :: (r.url ++ sp :: (r.version ++ [cr, lf]))).length := by
    simp
    omega
  have hdrop : m ++ sp :: (r.url ++ sp ::
      (r.version ++ cr :: (lf :: (headerArea r.headers ++ [nul])))) =
      (m ++ sp :: (r.url ++ sp :: (r.version ++ [cr, lf]))) ++
        (headerArea r.headers ++ [nul]) := by
    simp
  obtain ⟨final, n, hheaders, hfinal⟩ := parseHeaders_headerArea r.isHeader req'
  refine ⟨final, ?_, ?_⟩
  · rw [hbuf, parse, parseDesc_ver hm r.isRun hvcr (by simp) hread, hver, Except.ok_bind,
      Except.ok_bind, hline, hdrop]
    simp only
    rw [List.drop_left, hheaders, Except.ok_bind]
  · rw [hfinal, readVersion_eq hver, hmeth]
    rfl

/-! ## Beginnings of a request -/

/-- A header area that breaks off does not close. -/
lemma not_headersClose_prefix {headers : List (Bytes × Bytes)}
    (hh : ∀ kv ∈ headers, IsHeader kv) {h : Bytes} (hpre : h <+: headerArea headers)
    (hne : h ≠ headerArea headers) : ¬ HeadersClose false (h ++ [nul]) := by
  induction headers generalizing h with
  | nil =>
    have harea : headerArea [] = [cr, lf] := rfl
    rw [harea] at hpre hne
    -- of the blank line at most the carriage return is there
    have hcase : h = [] ∨ h = [cr] := by
      rcases List.prefix_cons_iff.mp hpre with h0 | ⟨t, rfl, ht⟩
      · exact Or.inl h0
      · rcases List.prefix_cons_iff.mp ht with h0 | ⟨t', rfl, ht'⟩
        · exact Or.inr (by rw [h0])
        · exact absurd (by rw [List.prefix_nil.mp ht']) hne
    intro hclose
    have hmem := hclose.colon_mem (by
      rintro ⟨rest, hrest⟩
      rcases hcase with rfl | rfl
      · cases hrest
      · have : (nul : Byte) = lf := by
          simp only [List.cons_append, List.nil_append, List.cons.injEq] at hrest
          exact hrest.2.1
        exact absurd this (by decide))
    rcases hcase with rfl | rfl
    · exact absurd hmem (by decide)
    · exact absurd hmem (by decide)
  | cons kv headers ih =>
    have hkv := hh kv (by simp)
    have harea : headerArea (kv :: headers) =
        kv.1 ++ colon :: (kv.2 ++ cr :: (lf :: headerArea headers)) := by
      simp [headerArea, headerLine]
    rw [harea] at hpre hne
    intro hclose
    have hblank : ¬ AtBlank (h ++ [nul]) := by
      rintro ⟨rest, hrest⟩
      cases h with
      | nil => cases hrest
      | cons c h =>
        have hc : c = cr := by
          simp only [List.cons_append, List.cons.injEq] at hrest
          exact hrest.1
        obtain ⟨t, ht⟩ := hpre
        rw [hc] at ht
        cases hk : kv.1 with
        | nil =>
          rw [hk, List.nil_append, List.cons_append, List.cons.injEq] at ht
          exact absurd ht.1 (by decide)
        | cons c' k =>
          rw [hk, List.cons_append, List.cons_append, List.cons.injEq] at ht
          exact hkv.cr_key (by simp [hk, ht.1])
    rcases Cut.prefix_append_cons hpre with hk | ⟨h₁, rfl, hpre₁⟩
    · -- the break lies in the key
      have hmem := hclose.colon_mem hblank
      rcases List.mem_append.mp hmem with hmem | hmem
      · exact hkv.colon_key (hk.subset hmem)
      · exact absurd hmem (by decide)
    rw [List.append_assoc, List.cons_append] at hclose hblank
    obtain ⟨w, rest, heq, hw, hrest⟩ := hclose.inv hkv.colon_key hblank
    obtain ⟨x, rest', rfl, hclose'⟩ := hrest hkv.nul_key
    rcases Cut.prefix_append_cons hpre₁ with hv | ⟨h₂, rfl, hpre₂⟩
    · -- the break lies in the value, so no carriage return follows
      have hmem : cr ∈ h₁ ++ [nul] := by rw [heq]; simp
      rcases List.mem_append.mp hmem with hmem | hmem
      · exact hkv.cr_value (hv.subset hmem)
      · exact absurd hmem (by decide)
    rw [List.append_assoc, List.cons_append] at heq
    obtain ⟨rfl, hrest'⟩ := Cut.cut_unique hkv.cr_value hw heq
    rcases List.prefix_cons_iff.mp hpre₂ with rfl | ⟨h₃, rfl, hpre₃⟩
    · -- the break lies behind the carriage return
      simp only [List.nil_append, List.cons.injEq] at hrest'
      rw [← hrest'.2] at hclose'
      have hmem := hclose'.colon_mem (by rintro ⟨_, h⟩; cases h)
      cases hmem
    · simp only [List.cons_append, List.cons.injEq] at hrest'
      obtain ⟨rfl, rfl⟩ := hrest'
      have hseen : decide (nul ∈ kv.2 ++ [lf]) = false := by
        simp [hkv.nul_value]
      rw [hseen] at hclose'
      refine ih (fun x hx => hh x (by simp [hx])) hpre₃ ?_ hclose'
      rintro rfl
      exact hne rfl

/-- A beginning of the method is rejected at the terminator. -/
lemma parse_method {m : Bytes} (hm : IsMethod m) :
    parse beyond (m ++ [nul]) Request.new = .ok Request.new := by
  rw [parse, parseDesc_reject hm (by decide) (by decide) (by decide)]
  rfl

/-- **A request that breaks off behind its method makes the parser leave the buffer.** -/
lemma not_staysInside_prefix (r : WellFormed) {m t : Bytes} (hm : IsMethod m)
    (hpre : t <+: r.tail) (hne : t ≠ r.tail) :
    ¬ StaysInside (parse beyond (m ++ sp :: t ++ [nul]) Request.new) := by
  obtain ⟨-, hvcr, -, -⟩ := notMem_of_visible r.version_visible
  have hterm : ∀ l : Bytes, Terminated (l ++ [nul]) := fun l => Or.inr (by simp)
  intro hstay
  rw [List.append_assoc, List.cons_append] at hstay
  rcases Cut.prefix_append_cons hpre with hu | ⟨t₁, rfl, hpre₁⟩
  · -- the break lies in the URL
    have hrun : IsRun (t ++ [nul]) := by
      obtain ⟨h1, h2⟩ := r.isRun.of_prefix hu
      simp [IsRun, h1, h2]
    exact hstay.1 (parse_of_error (parseDesc_openUrl hm hrun (by simp) _))
  rw [List.append_assoc, List.cons_append] at hstay
  rcases Cut.prefix_append_cons hpre₁ with hv | ⟨t₂, rfl, hpre₂⟩
  · -- the break lies in the version
    have hcr : cr ∉ t₁ ++ [nul] := by
      rw [List.mem_append, not_or]
      exact ⟨fun h => hvcr (hv.subset h), by decide⟩
    rcases readUrl_cases beyond r.url (withMethod m Request.new) with
      ⟨hbad, -⟩ | ⟨-, req, hread, -⟩
    · exact r.not_badUrl hbad
    · exact hstay.1 (parse_of_error (parseDesc_openVer hm r.isRun hcr (by simp) hread))
  rw [List.append_assoc, List.cons_append] at hstay
  have hunul : nul ∉ r.url := (notMem_of_visible r.url_visible).2.2.1
  -- behind the version the header loop decides
  have hcloses : ∀ (x : Byte) (rest : Bytes), t₂ ++ [nul] = x :: rest →
      HeadersClose false rest := by
    intro x rest heq
    rw [heq] at hstay
    have h := hterm (m ++ sp :: (r.url ++ sp :: (r.version ++ cr :: t₂)))
    simp only [List.append_assoc, List.cons_append, heq] at h
    rcases (parse_ver hm r.isRun r.not_badUrl hvcr h).mp hstay with ⟨h, -⟩ | hclose
    · exact absurd h hunul
    · exact hclose
  rcases List.prefix_cons_iff.mp hpre₂ with rfl | ⟨t₃, rfl, hpre₃⟩
  · -- the break lies behind the carriage return
    have hclose := hcloses nul [] rfl
    have hmem := hclose.colon_mem (by rintro ⟨_, h⟩; cases h)
    cases hmem
  · refine not_headersClose_prefix r.isHeader hpre₃ ?_ (hcloses lf (t₃ ++ [nul]) rfl)
    rintro rfl
    exact hne rfl

end

end Http
end Sunet
