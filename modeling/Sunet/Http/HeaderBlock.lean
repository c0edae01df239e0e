/-
# The end of the headers

`_parse_headers` reads back a block of headers that was written line by line, and it returns
the length of the block.  On other areas the search for a colon does not stop at the end of a
line, so a line without a colon runs into the next one, and the blank line into the body.
`CleanArea` describes the areas in which every line up to the first blank one is a header; the
loop stops there, with keys and values of one line each, exactly on these.
-/
import Sunet.Http.HeaderFields

namespace Sunet
namespace Http

open Byte

/-! ## A block that was written -/

/-- The block of headers with the blank line. -/
def headerBlock (headers : List (Bytes × Bytes)) : Bytes :=
  (headers.map fun kv => kv.1 ++ [colon, sp] ++ kv.2 ++ [cr, lf]).flatten ++ [cr, lf]

/-- A key and a value of a header. -/
def IsHeaderPair (kv : Bytes × Bytes) : Prop :=
  (colon ∉ kv.1 ∧ cr ∉ kv.1 ∧ lf ∉ kv.1 ∧ nul ∉ kv.1) ∧
    cr ∉ kv.2 ∧ nul ∉ kv.2 ∧ kv.2.head? ≠ some sp

instance : DecidablePred IsHeaderPair := fun kv => by
  unfold IsHeaderPair
  infer_instance

/-- The field of a header that was written. -/
def headerPairField (kv : Bytes × Bytes) : Field := ⟨kv.1, sp :: kv.2, lf⟩

lemma headerBlock_eq (headers : List (Bytes × Bytes)) :
    headerBlock headers = fieldArea (headers.map headerPairField) ++ [cr, lf] := by
  rw [headerBlock, fieldArea, List.map_map]
  congr 3
  funext kv
  simp [headerPairField, Field.line]

/-- The space in front of the value is not part of it. -/
lemma trimmed_headerPair {kv : Bytes × Bytes} (h : kv.2.head? ≠ some sp) :
    trimmed (sp :: kv.2) = kv.2 := by
  rw [trimmed, List.dropWhile_cons_of_pos (by simp)]
  cases hv : kv.2 with
  | nil => rfl
  | cons c v =>
    have hc : c ≠ sp := by
      rintro rfl
      exact h (by rw [hv]; rfl)
    rw [List.dropWhile_cons_of_neg (by simpa using hc)]

lemma putFields_headerPairs {headers : List (Bytes × Bytes)}
    (hh : ∀ kv ∈ headers, IsHeaderPair kv) (hs : Std.ExtTreeMap Bytes Bytes) :
    putFields (headers.map headerPairField) hs = headers.foldl (fun hs kv => hs.insert kv.1 kv.2) hs := by
  induction headers generalizing hs with
  | nil => rfl
  | cons kv headers ih =>
    have htrim := trimmed_headerPair (hh kv List.mem_cons_self).2.2.2
    have hrest := ih (fun x hx => hh x (List.mem_cons_of_mem _ hx)) (hs.insert kv.1 kv.2)
    rw [List.foldl_cons, ← hrest]
    simp only [putFields, List.map_cons, List.foldl_cons, headerPairField, htrim]

/-- After a sequence of insertions the last value of each key is found. -/
lemma getElem?_foldl_insert (pairs : List (Bytes × Bytes)) (hs : Std.ExtTreeMap Bytes Bytes)
    (k : Bytes) :
    (pairs.foldl (fun hs kv => hs.insert kv.1 kv.2) hs)[k]? =
      (pairs.reverse.lookup k).or hs[k]? := by
  induction pairs generalizing hs with
  | nil => rfl
  | cons kv pairs ih =>
    obtain ⟨k', v⟩ := kv
    rw [List.foldl_cons, ih, List.reverse_cons, List.lookup_append, List.lookup_singleton,
      Option.or_assoc, Std.ExtTreeMap.getElem?_insert]
    by_cases hk : k = k'
    · simp [hk]
    · simp [hk, Ne.symm hk]

/-- **Header block round trip.**  The value returned is the length of the block, each key of the
block has its last value, and no other entry and no other field of the request changes. -/
theorem parseHeaders_headerBlock (headers : List (Bytes × Bytes)) (tail : Bytes) (req : Request)
    (hh : ∀ kv ∈ headers, IsHeaderPair kv) :
    ∃ req', parseHeaders (headerBlock headers ++ tail ++ [nul]) req =
        .ok (req', (headerBlock headers).length) ∧
      (∀ k, req'.headers[k]? = (headers.reverse.lookup k).or req.headers[k]?) ∧
      req' = { req with headers := req'.headers } := by
  have hbuf : headerBlock headers ++ tail ++ [nul] =
      fieldArea (headers.map headerPairField) ++ cr :: lf :: (tail ++ [nul]) := by
    rw [headerBlock_eq]
    simp
  have hlen : (headerBlock headers).length =
      (fieldArea (headers.map headerPairField)).length + 2 := by
    rw [headerBlock_eq, List.length_append]
    rfl
  have hcut : ∀ f ∈ headers.map headerPairField, f.IsCut ∧ cr ∉ f.key ∧ nul ∉ f.line := by
    intro f hf
    obtain ⟨kv, hkv, rfl⟩ := List.mem_map.mp hf
    obtain ⟨⟨hkcolon, hkcr, -, hknul⟩, hvcr, hvnul, -⟩ := hh kv hkv
    refine ⟨⟨hkcolon, ?_⟩, hkcr, ?_⟩
    · simpa [headerPairField] using ⟨by decide, hvcr⟩
    · simp [headerPairField, Field.line, hknul, hvnul]
  have hrun := parseHeaders_fieldArea (fun f hf => (hcut f hf).1) (fun f hf => (hcut f hf).2.1)
    (fun f hf => (hcut f hf).2.2) tail req
  rw [putFields_headerPairs hh] at hrun
  refine ⟨{ req with headers := headers.foldl (fun hs kv => hs.insert kv.1 kv.2) req.headers }, ?_,
    fun k => getElem?_foldl_insert headers req.headers k, rfl⟩
  rw [hbuf, hlen]
  exact hrun

/-- A block with a key that comes up twice and an empty value. -/
theorem parseHeaders_headerBlock_three :
    ∃ req', parseHeaders (headerBlock [(bytes "A", bytes "x"), (bytes "B", []),
        (bytes "A", bytes "y:z")] ++ bytes "body" ++ [nul]) Request.new = .ok (req', 21) ∧
      (∀ k, req'.headers[k]? = (List.lookup k [(bytes "A", bytes "y:z"), (bytes "B", []),
        (bytes "A", bytes "x")]).or Request.new.headers[k]?) ∧
      req' = { Request.new with headers := req'.headers } :=
  parseHeaders_headerBlock [(bytes "A", bytes "x"), (bytes "B", []), (bytes "A", bytes "y:z")] _
    Request.new (by decide)

/-! ## The first blank line -/

/-- A string without carriage return and line feed. -/
def OneLine (w : Bytes) : Prop := cr ∉ w ∧ lf ∉ w

/-- The headers end at `n`: behind a blank line at the start of the area, or else behind the
first blank line at the end of another line. -/
def EndsAt (s : Bytes) (n : ℕ) : Prop :=
  (AtBlank s ∧ n = 2) ∨
    ¬ AtBlank s ∧ ∃ h t, s = h ++ cr :: lf :: cr :: lf :: t ∧ n = h.length + 4 ∧
      ∀ h' t', s = h' ++ cr :: lf :: cr :: lf :: t' → h.length ≤ h'.length

/-- `_parse_headers` stops at the first blank line, and no key and no value goes over the end of
a line. -/
def StopsAtBlank (s : Bytes) : Prop :=
  ∃ req n, parseHeaders (s ++ [nul]) Request.new = .ok (req, n) ∧ EndsAt s n ∧
    ∀ k v, req.headers[k]? = some v → OneLine k ∧ OneLine v

/-- The keys and the values of a sequence of fields. -/
def fieldPairs (fields : List Field) : List (Bytes × Bytes) :=
  fields.map fun f => (f.key, trimmed f.value)

/-- Up to the first blank line the area consists of fields with keys of one line, the last one
ended by a line feed, and the last value of each key has no line feed in it. -/
def CleanArea (s : Bytes) : Prop :=
  ∃ fields t, s = fieldArea fields ++ cr :: lf :: t ∧
    (∀ f ∈ fields, f.IsCut ∧ OneLine f.key) ∧
    (∀ k v, (fieldPairs fields).reverse.lookup k = some v → lf ∉ v) ∧
    ∀ f, fields.getLast? = some f → f.skipped = lf

lemma getElem?_putFields (fields : List Field) (hs : Std.ExtTreeMap Bytes Bytes) (k : Bytes) :
    (putFields fields hs)[k]? = ((fieldPairs fields).reverse.lookup k).or hs[k]? := by
  rw [← getElem?_foldl_insert, fieldPairs, List.foldl_map]
  rfl

/-- The first blank line behind clean fields is the one behind the last of them. -/
lemma length_le_of_blank {fields : List Field} (hfields : ∀ f ∈ fields, f.IsCut ∧ OneLine f.key)
    (hlast : ∀ f, fields.getLast? = some f → f.skipped = lf) {t : Bytes} :
    ∀ h' t' : Bytes, fieldArea fields ++ cr :: lf :: t = h' ++ cr :: lf :: cr :: lf :: t' →
      (fieldArea fields).length ≤ h'.length + 2 := by
  induction fields with
  | nil =>
    intro h' t' _
    simp [fieldArea]
  | cons f fields ih =>
    intro h' t' heq
    obtain ⟨hcut, hkey⟩ := hfields f List.mem_cons_self
    have hcr : cr ∉ f.key ++ colon :: f.value := by
      simp [hkey.1, hcut.cr_value]
    have hlen : (fieldArea (f :: fields)).length =
        (f.key ++ colon :: f.value).length + 2 + (fieldArea fields).length := by
      simp [fieldArea_cons, Field.line]
      omega
    have hline : fieldArea (f :: fields) ++ cr :: lf :: t =
        (f.key ++ colon :: f.value) ++ cr :: (f.skipped :: (fieldArea fields ++ cr :: lf :: t)) := by
      rw [fieldArea_cons, List.append_assoc, f.line_append]
      simp
    rw [hline] at heq
    rw [hlen]
    generalize f.key ++ colon :: f.value = a at *
    rcases Cut.cut_or_behind hcr heq with ⟨rfl, hrest⟩ | ⟨h'', rfl, hrest⟩
    · -- the carriage return of this field
      rw [List.cons.injEq] at hrest
      cases fields with
      | nil => simp [fieldArea]
      | cons g fields =>
        refine absurd ⟨t', ?_⟩ (not_atBlank_line (hfields g (by simp)).2.1
          (fieldArea fields ++ cr :: lf :: t))
        rw [← List.append_assoc, ← fieldArea_cons]
        exact hrest.2
    · cases h'' with
      | nil =>
        -- the skipped byte is a carriage return
        rw [List.nil_append, List.cons.injEq] at hrest
        obtain ⟨hskip, hrest⟩ := hrest
        cases fields with
        | nil =>
          have hlf := hlast f rfl
          rw [hlf] at hskip
          exact absurd hskip (by decide)
        | cons g fields =>
          rw [fieldArea_cons, List.append_assoc, g.line_append] at hrest
          cases hk : g.key with
          | nil =>
            rw [hk, List.nil_append, List.cons.injEq] at hrest
            exact absurd hrest.1 (by decide)
          | cons c k =>
            rw [hk, List.cons_append, List.cons.injEq] at hrest
            exact absurd (by simp [hk, hrest.1]) (hfields g (by simp)).2.2
      | cons x h'' =>
        rw [List.cons_append, List.cons.injEq] at hrest
        cases fields with
        | nil =>
          simp [fieldArea]
        | cons g fields =>
          have hle := ih (fun y hy => hfields y (List.mem_cons_of_mem _ hy))
            (fun y hy => hlast y (by rw [List.getLast?_cons_cons]; exact hy)) h'' t' hrest.2
          simp only [List.length_append, List.length_cons] at hle ⊢
          omega

/-- A sequence of fields that is not empty ends with its last skipped byte. -/
lemma fieldArea_concat (fields : List Field) (f : Field) :
    fieldArea (fields ++ [f]) =
      (fieldArea fields ++ (f.key ++ colon :: f.value)) ++ [cr, f.skipped] := by
  simp [fieldArea, Field.line]

lemma endsAt_fieldArea {fields : List Field} (hfields : ∀ f ∈ fields, f.IsCut ∧ OneLine f.key)
    (hlast : ∀ f, fields.getLast? = some f → f.skipped = lf) (t : Bytes) :
    EndsAt (fieldArea fields ++ cr :: lf :: t) ((fieldArea fields).length + 2) := by
  have hmin := length_le_of_blank hfields hlast (t := t)
  rcases List.eq_nil_or_concat fields with rfl | ⟨init, f, rfl⟩
  · exact Or.inl ⟨⟨t, rfl⟩, rfl⟩
  · rw [List.concat_eq_append] at *
    have hskip := hlast f List.getLast?_concat
    have harea := fieldArea_concat init f
    rw [hskip] at harea
    refine Or.inr ⟨?_, fieldArea init ++ (f.key ++ colon :: f.value), t, by rw [harea]; simp,
      by rw [harea]; simp; omega, ?_⟩
    · -- the first field does not start with a carriage return
      cases init with
      | nil =>
        have hline : fieldArea ([] ++ [f]) = f.line := by simp [fieldArea]
        rw [hline]
        exact not_atBlank_line (hfields f (by simp)).2.1 _
      | cons g init =>
        rw [List.cons_append, fieldArea_cons, List.append_assoc]
        exact not_atBlank_line (hfields g (by simp)).2.1 _
    · intro h' t' heq
      have hle := hmin h' t' heq
      rw [harea, List.length_append, List.length_cons, List.length_singleton] at hle
      omega

lemma mem_fieldPairs {fields : List Field} {k v : Bytes}
    (h : (fieldPairs fields).reverse.lookup k = some v) :
    ∃ f ∈ fields, f.key = k ∧ trimmed f.value = v := by
  obtain ⟨l₁, l₂, heq, -⟩ := List.lookup_eq_some_iff.mp h
  have hmem : (k, v) ∈ (fieldPairs fields).reverse := by
    rw [heq]
    simp
  obtain ⟨f, hf, hkv⟩ := List.mem_map.mp (List.mem_reverse.mp hmem)
  cases hkv
  exact ⟨f, hf, rfl, rfl⟩

lemma notMem_trimmed {b : Byte} {w : Bytes} (h : b ∉ w) : b ∉ trimmed w := fun hmem => h (by
  rw [← spaces_append_trimmed w]
  simp [hmem])

/-- The loop stops at the blank line of a clean area. -/
lemma CleanArea.stopsAtBlank {s : Bytes} (hs : nul ∉ s) (h : CleanArea s) : StopsAtBlank s := by
  obtain ⟨fields, t, rfl, hfields, hvalues, hlast⟩ := h
  have hnul : ∀ f ∈ fields, nul ∉ f.line := by
    intro f hf hmem
    refine hs (List.mem_append_left _ ?_)
    exact List.mem_flatten.mpr ⟨f.line, List.mem_map_of_mem hf, hmem⟩
  have hbuf : fieldArea fields ++ cr :: lf :: t ++ [nul] =
      fieldArea fields ++ cr :: lf :: (t ++ [nul]) := by simp
  have hrun := parseHeaders_fieldArea (fun f hf => (hfields f hf).1)
    (fun f hf => (hfields f hf).2.1) hnul t Request.new
  refine ⟨{ Request.new with headers := putFields fields Request.new.headers }, _, ?_,
    endsAt_fieldArea hfields hlast t, ?_⟩
  · rw [hbuf]
    exact hrun
  · intro k v hkv
    have hempty : Request.new.headers[k]? = none := Std.ExtTreeMap.getElem?_empty
    have hget := getElem?_putFields fields Request.new.headers k
    rw [hempty, Option.or_none] at hget
    have hlookup : (fieldPairs fields).reverse.lookup k = some v := by
      rw [← hget]
      exact hkv
    obtain ⟨f, hf, rfl, rfl⟩ := mem_fieldPairs hlookup
    exact ⟨(hfields f hf).2, notMem_trimmed (hfields f hf).1.cr_value, hvalues _ _ hlookup⟩

/-- A run that stops at the first blank line has cut a clean area. -/
lemma StopsAtBlank.cleanArea {s : Bytes} (hs : nul ∉ s) (h : StopsAtBlank s) : CleanArea s := by
  obtain ⟨req, n, hrun, hend, hclean⟩ := h
  have hloop : headersLoop ([] ++ (s ++ [nul])) ((s ++ [nul]).length + 1) (s ++ [nul])
      ([] : Bytes).length Request.new = .ok (req, n) := hrun
  obtain ⟨fields, t, rfl, hcut, hn, hreq⟩ :=
    fieldArea_of_headersLoop _ [] s Request.new List.not_mem_nil hs hloop
  have hget : ∀ k v, (fieldPairs fields).reverse.lookup k = some v → req.headers[k]? = some v := by
    intro k v hlookup
    rw [hreq]
    show (putFields fields Request.new.headers)[k]? = some v
    rw [getElem?_putFields, hlookup]
    rfl
  refine ⟨fields, t, rfl, ?_, ?_, ?_⟩
  · intro f hf
    refine ⟨hcut f hf, ?_⟩
    have hmem : ∃ kv ∈ (fieldPairs fields).reverse, kv.1 = f.key :=
      ⟨(f.key, trimmed f.value), List.mem_reverse.mpr (List.mem_map_of_mem hf), rfl⟩
    have hsome : ((fieldPairs fields).reverse.lookup f.key).isSome := by
      rw [List.lookup_isSome_iff]
      obtain ⟨kv, hkv, hk⟩ := hmem
      exact ⟨kv, hkv, by simp [hk]⟩
    obtain ⟨v, hv⟩ := Option.isSome_iff_exists.mp hsome
    exact (hclean _ _ (hget _ _ hv)).1
  · intro k v hlookup
    exact (hclean _ _ (hget _ _ hlookup)).2.2
  · intro f hf
    obtain ⟨init, hinit⟩ := List.getLast?_eq_some_iff.mp hf
    rcases hend with ⟨-, h2⟩ | ⟨-, h, t', heq, h4, -⟩
    · -- the blank line at the start leaves no room for a field
      have hle := length_le_fieldArea fields
      rw [hinit, List.length_append, List.length_singleton, ← hinit] at hle
      rw [h2, List.length_nil] at hn
      omega
    · rw [List.length_nil] at hn
      have hsplit : fieldArea fields ++ cr :: lf :: t = (h ++ [cr, lf]) ++ cr :: lf :: t' := by
        rw [heq]
        simp
      have harea := (List.append_inj hsplit (by simp; omega)).1
      rw [hinit, fieldArea_concat] at harea
      have htwo := (List.append_inj' harea rfl).2
      simpa using htwo

/-- **The headers end at the first blank line** exactly in the clean areas. -/
theorem stopsAtBlank_iff (s : Bytes) (hs : nul ∉ s) : StopsAtBlank s ↔ CleanArea s :=
  ⟨fun h => h.cleanArea hs, fun h => h.stopsAtBlank hs⟩

/-- A single header. -/
theorem stopsAtBlank_one : StopsAtBlank (bytes "Host: x\r\n\r\nbody") :=
  (stopsAtBlank_iff _ (by decide)).mpr
    ⟨[⟨bytes "Host", bytes " x", lf⟩], bytes "body", by decide, by
      intro f hf
      rw [List.mem_singleton] at hf
      subst hf
      exact ⟨⟨by decide, by decide⟩, by decide, by decide⟩, by
      intro k v hlookup
      obtain ⟨f, hf, rfl, rfl⟩ := mem_fieldPairs hlookup
      rw [List.mem_singleton] at hf
      subst hf
      decide, by
      intro f hf
      cases hf
      rfl⟩

/-- A line without a colon: the blank line and the body become a part of a key. -/
theorem not_stopsAtBlank :
    ¬ ∀ s : Bytes, nul ∉ s → [cr, lf, cr, lf] <:+: s → StopsAtBlank s := by
  intro h
  have hstop := h (bytes "a\r\n\r\nb" ++ colon :: bytes "c\r\n\r\n") (by decide) (by decide)
  obtain ⟨fields, t, heq, hfields, -⟩ := hstop.cleanArea (by decide)
  cases fields with
  | nil =>
    have hhead : some (97 : Byte) = some cr := congrArg List.head? heq
    exact absurd hhead (by decide)
  | cons f fields =>
    rw [fieldArea_cons, List.append_assoc, f.line_append] at heq
    obtain ⟨hcut, hkey⟩ := hfields f List.mem_cons_self
    obtain ⟨hk, -⟩ := Cut.cut_unique (show colon ∉ bytes "a\r\n\r\nb" by decide) hcut.colon_key heq
    rw [← hk] at hkey
    exact absurd hkey.1 (by decide)

end Http
end Sunet
