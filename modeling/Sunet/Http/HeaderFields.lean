/-
# Header areas as sequences of fields

One round of the loop of `_parse_headers` takes a field from the area: the bytes up to the
first colon, the bytes up to the first carriage return behind it, and one more byte, which the
source takes for the line feed without a test.  A run of the loop that returns has cut the
area into fields in this way, and it returns the length of the fields and of the blank line.
-/
import Sunet.Http.Headers

namespace Sunet
namespace Http

open Byte

/-- What one round takes from the area. -/
structure Field where
  key : Bytes
  value : Bytes
  /-- The byte behind the carriage return. -/
  skipped : Byte
deriving DecidableEq, Repr

/-- The bytes of a field. -/
def Field.line (f : Field) : Bytes := f.key ++ colon :: (f.value ++ [cr, f.skipped])

/-- The bytes of a sequence of fields. -/
def fieldArea (fields : List Field) : Bytes := (fields.map Field.line).flatten

/-- The map of the headers after a sequence of fields. -/
def putFields (fields : List Field) (hs : Std.ExtTreeMap Bytes Bytes) :
    Std.ExtTreeMap Bytes Bytes :=
  fields.foldl (fun hs f => hs.insert f.key (trimmed f.value)) hs

/-- A field as a round finds it: the key ends at the first colon and the value at the first
carriage return behind it. -/
structure Field.IsCut (f : Field) : Prop where
  colon_key : colon ∉ f.key
  cr_value : cr ∉ f.value

lemma fieldArea_cons (f : Field) (fields : List Field) :
    fieldArea (f :: fields) = f.line ++ fieldArea fields := rfl

/-- There are no more fields than bytes. -/
lemma length_le_fieldArea (fields : List Field) : fields.length ≤ (fieldArea fields).length := by
  induction fields with
  | nil => exact le_rfl
  | cons f fields ih =>
    have hpos : 0 < f.line.length := by simp [Field.line]
    rw [fieldArea_cons, List.length_append, List.length_cons]
    omega

lemma Field.line_append (f : Field) (rest : Bytes) :
    f.line ++ rest = f.key ++ colon :: (f.value ++ cr :: f.skipped :: rest) := by
  simp [Field.line]

lemma notMem_line {f : Field} {b : Byte} (h : b ∉ f.line) :
    b ∉ f.key ∧ b ∉ f.value ∧ b ≠ f.skipped := by
  rw [Field.line, List.mem_append, List.mem_cons, List.mem_append, not_or, not_or, not_or] at h
  simp only [List.mem_cons, List.not_mem_nil, or_false, not_or] at h
  exact ⟨h.1, h.2.2.1, h.2.2.2.2⟩

/-! ## The rounds -/

variable {done rest : Bytes} {req : Request}

lemma headersLoop_blank (buf rest : Bytes) (n i : ℕ) (req : Request) :
    headersLoop buf (n + 1) (cr :: lf :: rest) i req = .ok (req, i + 2) := by
  rw [headersLoop]
  simp [blankLine]

/-- The round that takes a field. -/
lemma headersLoop_field {f : Field} (hcut : f.IsCut) (hnul : nul ∉ f.line)
    (hblank : ¬ AtBlank (f.line ++ rest)) (hdone : nul ∉ done) (hrest : Terminated rest)
    (hne : rest ≠ []) (n : ℕ) (req : Request) :
    headersLoop (done ++ (f.line ++ rest)) (n + 1) (f.line ++ rest) done.length req =
      headersLoop ((done ++ f.line) ++ rest) n rest (done ++ f.line).length
        { req with headers := req.headers.insert f.key (trimmed f.value) } := by
  obtain ⟨hkey, hvalue, hskip⟩ := notMem_line hnul
  have hmem := hrest.mem hne
  have hterm : Terminated (f.line ++ rest) := by
    rcases hrest with h | h
    · exact absurd h hne
    · right
      rw [List.getLast?_append, h]
      rfl
  obtain ⟨b, hb, hiff⟩ := blankLine_eq hterm (by simp [Field.line])
  have htrim : nul ∉ trimmed f.value := fun h => hvalue (by
    rw [← spaces_append_trimmed f.value]
    simp [h])
  have hlen : done.length + f.key.length + 1 + f.value.length + 2 = (done ++ f.line).length := by
    simp [Field.line]
    omega
  rw [headersLoop, hb, Except.ok_bind, if_neg fun h => hblank (hiff.mp h)]
  conv_lhs => rw [f.line_append]
  rw [headerField_ok hdone hcut.colon_key hkey hcut.cr_value (by simp [hmem]), Except.ok_bind,
    untilNul_eq_self htrim, hlen, ← f.line_append, ← List.append_assoc]
  rfl

/-- A key that does not start with a carriage return makes the line no blank one. -/
lemma not_atBlank_line {f : Field} (hkey : cr ∉ f.key) (rest : Bytes) :
    ¬ AtBlank (f.line ++ rest) := by
  rintro ⟨rest', h⟩
  rw [f.line_append] at h
  cases hk : f.key with
  | nil =>
    rw [hk, List.nil_append, List.cons.injEq] at h
    exact absurd h.1 (by decide)
  | cons c k =>
    rw [hk, List.cons_append, List.cons.injEq] at h
    exact hkey (by simp [hk, h.1])

/-- The loop reads a sequence of fields and the blank line behind them. -/
lemma headersLoop_fieldArea {fields : List Field} (hcut : ∀ f ∈ fields, f.IsCut)
    (hkey : ∀ f ∈ fields, cr ∉ f.key) (hnul : ∀ f ∈ fields, nul ∉ f.line)
    (hrest : nul ∈ rest) (hterm : Terminated rest) :
    ∀ (n : ℕ) (done : Bytes) (req : Request), fields.length < n → nul ∉ done →
      headersLoop (done ++ (fieldArea fields ++ cr :: lf :: rest)) n
          (fieldArea fields ++ cr :: lf :: rest) done.length req =
        .ok ({ req with headers := putFields fields req.headers },
          done.length + (fieldArea fields).length + 2) := by
  induction fields with
  | nil =>
    intro n done req hn _
    obtain ⟨n, rfl⟩ : ∃ k, n = k + 1 := ⟨n - 1, by simp at hn; omega⟩
    exact headersLoop_blank _ rest n done.length req
  | cons f fields ih =>
    intro n done req hn hdone
    obtain ⟨n, rfl⟩ : ∃ k, n = k + 1 := ⟨n - 1, by simp at hn; omega⟩
    have hf := hnul f List.mem_cons_self
    have hdone' : nul ∉ done ++ f.line := by
      rw [List.mem_append, not_or]
      exact ⟨hdone, hf⟩
    have hterm' : Terminated (fieldArea fields ++ cr :: lf :: rest) := by
      rcases hterm with h | h
      · rw [h] at hrest
        cases hrest
      · right
        rw [List.getLast?_append, List.getLast?_cons, List.getLast?_cons, h]
        rfl
    rw [fieldArea_cons, List.append_assoc,
      headersLoop_field (hcut f List.mem_cons_self) hf
        (not_atBlank_line (hkey f List.mem_cons_self) _) hdone hterm' (by simp),
      ih (fun x hx => hcut x (List.mem_cons_of_mem _ hx))
        (fun x hx => hkey x (List.mem_cons_of_mem _ hx))
        (fun x hx => hnul x (List.mem_cons_of_mem _ hx)) n _ _ (by simp at hn; omega) hdone']
    simp only [List.length_append, ← Nat.add_assoc]
    rfl

/-- `_parse_headers` on a sequence of fields, the blank line and whatever stands behind it. -/
lemma parseHeaders_fieldArea {fields : List Field} (hcut : ∀ f ∈ fields, f.IsCut)
    (hkey : ∀ f ∈ fields, cr ∉ f.key) (hnul : ∀ f ∈ fields, nul ∉ f.line) (body : Bytes)
    (req : Request) :
    parseHeaders (fieldArea fields ++ cr :: lf :: (body ++ [nul])) req =
      .ok ({ req with headers := putFields fields req.headers }, (fieldArea fields).length + 2) := by
  have hfuel : fields.length < (fieldArea fields ++ cr :: lf :: (body ++ [nul])).length + 1 := by
    have hle := length_le_fieldArea fields
    rw [List.length_append]
    omega
  have hmem : nul ∈ body ++ [nul] := by simp
  have hrun := headersLoop_fieldArea hcut hkey hnul hmem (Or.inr (by simp)) _ [] req hfuel
    List.not_mem_nil
  rw [parseHeaders]
  simpa using hrun

/-- What a round of the loop that returns has found: a blank line, where the loop stops, or a
field, behind which it goes on. -/
lemma headersLoop_cases {n : ℕ} {s : Bytes} {out : Request × ℕ} (hdone : nul ∉ done)
    (hs : nul ∉ s)
    (h : headersLoop (done ++ (s ++ [nul])) (n + 1) (s ++ [nul]) done.length req = .ok out) :
    (∃ rest, s = cr :: lf :: rest ∧ out = (req, done.length + 2)) ∨
      ∃ (f : Field) (rest : Bytes), f.IsCut ∧ s = f.line ++ rest ∧
        headersLoop ((done ++ f.line) ++ (rest ++ [nul])) n (rest ++ [nul]) (done ++ f.line).length
          { req with headers := req.headers.insert f.key (trimmed f.value) } = .ok out := by
  have hterm : ∀ l : Bytes, Terminated (l ++ [nul]) := fun l => Or.inr (by simp)
  by_cases hblank : AtBlank (s ++ [nul])
  · left
    obtain ⟨rest, hrest⟩ := hblank
    rw [hrest, headersLoop_blank] at h
    cases h
    -- the blank line lies in front of the terminator
    match s, hrest with
    | [], hrest => cases hrest
    | [c], hrest =>
      simp only [List.cons_append, List.nil_append, List.cons.injEq] at hrest
      exact absurd hrest.2.1 (by decide)
    | c :: c' :: s, hrest =>
      simp only [List.cons_append, List.cons.injEq] at hrest
      obtain ⟨rfl, rfl, -⟩ := hrest
      exact ⟨s, rfl, rfl⟩
  right
  -- the reads of a round that does not find its bytes leave the buffer
  have hround := h
  obtain ⟨b, hb, hiff⟩ := blankLine_eq (hterm s) (by simp)
  rw [headersLoop, hb, Except.ok_bind, if_neg fun hb => hblank (hiff.mp hb)] at hround
  have hcolon : colon ∈ s := by
    by_contra hno
    have hno' : colon ∉ s ++ [nul] := by
      rw [List.mem_append, not_or]
      exact ⟨hno, by decide⟩
    rw [headerField_noColon hno'] at hround
    cases hround
  obtain ⟨k, p, rfl, hk⟩ := List.eq_append_cons_of_mem hcolon
  rw [List.append_assoc, List.cons_append] at hround
  have hcr : cr ∈ p := by
    by_contra hno
    have hno' : cr ∉ p ++ [nul] := by
      rw [List.mem_append, not_or]
      exact ⟨hno, by decide⟩
    rw [headerField_noCr hdone hk (by simp) hno'] at hround
    cases hround
  obtain ⟨w, p, rfl, hw⟩ := List.eq_append_cons_of_mem hcr
  cases p with
  | nil =>
    -- the byte behind the carriage return is the terminator
    have hknul : nul ∉ k := fun hmem => hs (by simp [hmem])
    rw [List.append_assoc, List.cons_append, List.nil_append,
      headerField_ok hdone hk hknul hw (by simp), Except.ok_bind] at hround
    cases n with
    | zero => cases hround
    | succ n => cases hround
  | cons x p =>
    obtain ⟨f, hf⟩ : ∃ f : Field, f = ⟨k, w, x⟩ := ⟨_, rfl⟩
    have hline : k ++ colon :: (w ++ cr :: x :: p) = f.line ++ p := by
      rw [f.line_append, hf]
    have hcut : f.IsCut := by
      rw [hf]
      exact ⟨hk, hw⟩
    rw [hline] at h hs hblank ⊢
    rw [List.mem_append, not_or] at hs
    rw [List.append_assoc] at h hblank
    rw [headersLoop_field hcut hs.1 hblank hdone (hterm p) (by simp)] at h
    exact ⟨f, p, hcut, rfl, h⟩

/-- **A run of the header loop that returns has cut its area into fields**, and stopped at the
first one that is a blank line. -/
lemma fieldArea_of_headersLoop :
    ∀ (n : ℕ) (done s : Bytes) (req : Request) {req' : Request} {i : ℕ}, nul ∉ done → nul ∉ s →
      headersLoop (done ++ (s ++ [nul])) n (s ++ [nul]) done.length req = .ok (req', i) →
      ∃ fields rest, s = fieldArea fields ++ cr :: lf :: rest ∧ (∀ f ∈ fields, f.IsCut) ∧
        i = done.length + (fieldArea fields).length + 2 ∧
        req' = { req with headers := putFields fields req.headers } := by
  intro n
  induction n with
  | zero =>
    intro done s req req' i _ _ h
    cases h
  | succ n ih =>
    intro done s req req' i hdone hs h
    rcases headersLoop_cases hdone hs h with ⟨rest, rfl, hout⟩ | ⟨f, rest, hcut, rfl, hloop⟩
    · cases hout
      exact ⟨[], rest, rfl, by simp, rfl, rfl⟩
    · rw [List.mem_append, not_or] at hs
      have hdone' : nul ∉ done ++ f.line := by
        rw [List.mem_append, not_or]
        exact ⟨hdone, hs.1⟩
      obtain ⟨fields, tail, rfl, hfields, hi, hreq⟩ := ih _ rest _ hdone' hs.2 hloop
      refine ⟨f :: fields, tail, by rw [fieldArea_cons, List.append_assoc], ?_, ?_, hreq⟩
      · intro x hx
        rcases List.mem_cons.mp hx with rfl | hx
        · exact hcut
        · exact hfields x hx
      · rw [hi, fieldArea_cons, List.length_append, List.length_append]
        omega

end Http
end Sunet
