/-
# Word segmentation

`WordSeg::segment` splits a string into characters, has each of them tagged by a CRF model,
and joins them again: a segment is finished where the tag says that a word ends.  The tagger
is a library, here a parameter; what is relied on is that it returns one row for each line
it is given, with the character in the first column, where this is neither a NUL nor a TAB.
-/
import Sunet.Util.Characters

namespace Sunet
namespace Seg

open StringUtil Byte

/-! ## The tagger -/

/-- What the tagger returns for a line: `x(i, 0)` and `y2(i)`. -/
structure Row where
  x₀ : Bytes
  y2 : Bytes
deriving DecidableEq, Repr

/-- `CRFPP::Tagger`: the rows that `parse` makes of the lines that were added since `clear`,
or `none` when it fails. -/
structure Tagger where
  parse : List Bytes → Option (List Row)

/-- What `c_str` shows of a string: the bytes before the first NUL. -/
def cStr (s : Bytes) : Bytes := s.takeWhile (· ≠ nul)

/-- The line that is written for a character. -/
def contextText (word : Bytes) : Bytes := cStr word ++ bytes "\to\tB"

/-- The tagger returns one row for each of the characters, with the character in the first
column. -/
def Tagger.RowsOf (tagger : Tagger) (words : List Bytes) : Prop :=
  ∀ rows : List Row, tagger.parse (words.map contextText) = some rows →
    rows.map Row.x₀ = words.map cStr

/-- The tagger does so for all characters but the NUL, behind which nothing of a line is seen,
and the TAB, with which the first column is empty and dropped. -/
def Tagger.OneRowPerToken (tagger : Tagger) : Prop :=
  ∀ words : List Bytes, (∀ word ∈ words, IsToken word ∧ tab ∉ word ∧ nul ∉ word) →
    tagger.RowsOf words

/-! ## The segmentation -/

/-- `sprintf` into `context`, or `none` when the line and its terminator do not fit. -/
def context (word : Bytes) : Option Bytes :=
  if (contextText word).length < 64 then some (contextText word) else none

/-- The tag ends a word. -/
def EndsWord (tagRes : Bytes) : Prop := tagRes = bytes "E" ∨ tagRes = bytes "S"

instance (tagRes : Bytes) : Decidable (EndsWord tagRes) :=
  inferInstanceAs (Decidable (tagRes = bytes "E" ∨ tagRes = bytes "S"))

/-- The loop over the rows: what is appended to `seg_results`. -/
def segLoop (segStr : Bytes) : List Row → List Bytes
  | [] => []
  | row :: rows =>
    let segStr := segStr ++ row.x₀
    if EndsWord row.y2 then segStr :: segLoop [] rows else segLoop segStr rows

/-- The values of `define.h` that `segment` returns. -/
inductive SegRet
  | ok
  | fail
deriving DecidableEq, Repr

/-- `segment`: the value returned and `seg_results`. -/
def segment (tagger : Option Tagger) (str : Bytes) (segResults : List Bytes) :
    Option (SegRet × List Bytes) :=
  match tagger with
  | none => some (.fail, segResults)
  | some tagger => do
    let words ← splitChInt str
    let lines ← words.mapM context
    match tagger.parse lines with
    | none => some (.fail, segResults)
    | some rows => some (.ok, segLoop [] rows)

/-! ## What the loop leaves behind -/

/-- What is in `seg_str` behind the loop. -/
def left (segStr : Bytes) : List Row → Bytes
  | [] => segStr
  | row :: rows => if EndsWord row.y2 then left [] rows else left (segStr ++ row.x₀) rows

/-- The segments and what is left are the text of the rows. -/
lemma segLoop_flatten (segStr : Bytes) (rows : List Row) :
    (segLoop segStr rows).flatten ++ left segStr rows =
      segStr ++ (rows.map Row.x₀).flatten := by
  induction rows generalizing segStr with
  | nil => simp [segLoop, left]
  | cons row rows ih =>
    rw [segLoop, left, List.map_cons, List.flatten_cons, ← List.append_assoc]
    by_cases hends : EndsWord row.y2
    · have hrest := ih []
      rw [List.nil_append] at hrest
      simp only [if_pos hends, List.flatten_cons, List.append_assoc]
      rw [hrest]
    · simp only [if_neg hends]
      exact ih _

/-- Nothing is left exactly if the last row ends a word. -/
lemma left_eq_nil_iff {rows : List Row} (hrows : ∀ row ∈ rows, row.x₀ ≠ []) (segStr : Bytes) :
    left segStr rows = [] ↔
      (rows = [] → segStr = []) ∧ ∀ row ∈ rows.getLast?, EndsWord row.y2 := by
  induction rows generalizing segStr with
  | nil => simp [left]
  | cons row rows ih =>
    have hrow := hrows row List.mem_cons_self
    have hrest := ih fun r hr => hrows r (List.mem_cons_of_mem _ hr)
    rw [left]
    cases rows with
    | nil =>
      by_cases hends : EndsWord row.y2
      · simp [hends, left]
      · simp [hends, left, hrow]
    | cons row' rows =>
      split
      · rw [hrest]
        simp
      · rw [hrest]
        simp

lemma segLoop_ne_nil {rows : List Row} (hrows : ∀ row ∈ rows, row.x₀ ≠ []) (segStr : Bytes) :
    ∀ seg ∈ segLoop segStr rows, seg ≠ [] := by
  induction rows generalizing segStr with
  | nil => simp [segLoop]
  | cons row rows ih =>
    have hrow := hrows row List.mem_cons_self
    have hrest := ih fun r hr => hrows r (List.mem_cons_of_mem _ hr)
    rw [segLoop]
    split
    · intro seg hseg
      rcases List.mem_cons.mp hseg with rfl | hseg
      · simp [hrow]
      · exact hrest _ seg hseg
    · exact hrest _

/-! ## Characters as C strings -/

lemma nul_notMem_cStr (s : Bytes) : nul ∉ cStr s := by
  intro h
  have hne := List.mem_takeWhile_imp h
  simp at hne

/-- Of all characters only the NUL is not what `c_str` shows. -/
lemma cStr_token {t : Bytes} (h : IsToken t) (hnul : t ≠ [nul]) : cStr t = t := by
  have hno : nul ∉ t := by
    rcases h with ⟨b, rfl, -⟩ | ⟨b, b₁, b₂, rfl, hb, h₁, h₂⟩
    · simpa using Ne.symm hnul
    · have hcont : ∀ c, isCont c → nul ≠ c := by
        rintro c hc rfl
        revert hc
        decide
      have hlead : nul ≠ b := by
        rintro rfl
        revert hb
        decide
      simp [hlead, hcont b₁ h₁, hcont b₂ h₂]
  rw [cStr, List.takeWhile_eq_self_iff]
  intro b hb
  have hne : b ≠ nul := fun h => hno (h ▸ hb)
  simpa using hne

lemma context_eq {word : Bytes} (h : IsToken word) : context word = some (contextText word) := by
  have hle : (cStr word).length ≤ word.length := (List.takeWhile_sublist _).length_le
  have hlen := h.length_le
  have htext : (bytes "\to\tB").length = 4 := by decide
  rw [context, if_pos]
  rw [contextText, List.length_append, htext]
  omega

lemma mapM_context {words : List Bytes} (h : ∀ t ∈ words, IsToken t) :
    words.mapM context = some (words.map contextText) := by
  induction words with
  | nil => rfl
  | cons word words ih =>
    have hrest := ih fun t ht => h t (List.mem_cons_of_mem _ ht)
    rw [List.mapM_cons, context_eq (h word List.mem_cons_self), hrest]
    rfl

/-! ## The result -/

/-- The segments are the text of the characters, and none is empty. -/
def KeepsText (words segs : List Bytes) : Prop :=
  segs.flatten = words.flatten ∧ ∀ seg ∈ segs, seg ≠ []

lemma keepsText_iff {words : List Bytes} (hwords : ∀ t ∈ words, IsToken t) {rows : List Row}
    (hrows : rows.map Row.x₀ = words.map cStr) :
    KeepsText words (segLoop [] rows) ↔
      [nul] ∉ words ∧ ∀ row ∈ rows.getLast?, EndsWord row.y2 := by
  have hall := segLoop_flatten [] rows
  rw [List.nil_append, hrows] at hall
  -- without the NUL the rows have the characters themselves
  have hsame : [nul] ∉ words → words.map cStr = words ∧ ∀ row ∈ rows, row.x₀ ≠ [] := by
    intro hnul
    have hmap : words.map cStr = words := by
      conv_rhs => rw [← List.map_id words]
      exact List.map_congr_left fun t ht => cStr_token (hwords t ht) fun h => hnul (h ▸ ht)
    refine ⟨hmap, fun row hrow => ?_⟩
    have hx : row.x₀ ∈ words := by
      rw [← hmap, ← hrows]
      exact List.mem_map_of_mem hrow
    exact (hwords _ hx).ne_nil
  constructor
  · rintro ⟨hflatten, -⟩
    have hnul : [nul] ∉ words := by
      intro hmem
      have hin : nul ∈ (segLoop [] rows).flatten := by
        rw [hflatten]
        exact List.mem_flatten.mpr ⟨[nul], hmem, List.mem_singleton_self _⟩
      have hshown : nul ∈ (words.map cStr).flatten := by
        rw [← hall]
        exact List.mem_append_left _ hin
      obtain ⟨t, ht, hnult⟩ := List.mem_flatten.mp hshown
      obtain ⟨word, -, rfl⟩ := List.mem_map.mp ht
      exact nul_notMem_cStr word hnult
    obtain ⟨hmap, hne⟩ := hsame hnul
    rw [hmap, hflatten] at hall
    exact ⟨hnul, ((left_eq_nil_iff hne []).mp (List.append_right_eq_self.mp hall)).2⟩
  · rintro ⟨hnul, hlast⟩
    obtain ⟨hmap, hne⟩ := hsame hnul
    have hleft : left [] rows = [] := (left_eq_nil_iff hne []).mpr ⟨fun _ => rfl, hlast⟩
    rw [hleft, List.append_nil, hmap] at hall
    exact ⟨hall, segLoop_ne_nil hne []⟩

/-- When `segment` returns `OK` and the tagger gives back the characters of this call, the
segments are their text exactly if none of these is the NUL and the tag of the last row, if there
is one, ends a word. -/
theorem segment_keepsText_iff {tagger : Tagger} {str : Bytes} {segResults segs : List Bytes}
    (htagger : ∀ words, splitChInt str = some words → tagger.RowsOf words)
    (h : segment (some tagger) str segResults = some (.ok, segs)) :
    ∃ words rows, splitChInt str = some words ∧
      tagger.parse (words.map contextText) = some rows ∧
      (KeepsText words segs ↔ [nul] ∉ words ∧ ∀ row ∈ rows.getLast?, EndsWord row.y2) := by
  rw [segment, Option.bind_eq_bind, Option.bind_eq_some_iff] at h
  obtain ⟨words, hsplit, h⟩ := h
  have hwords : ∀ t ∈ words, IsToken t := isToken_of_splitChIntLoop hsplit
  rw [mapM_context hwords, Option.bind_some] at h
  cases hparse : tagger.parse (words.map contextText) with
  | none =>
    rw [hparse] at h
    cases h
  | some rows =>
    rw [hparse] at h
    cases h
    exact ⟨words, rows, hsplit, hparse, keepsText_iff hwords (htagger words hsplit rows hparse)⟩

/-- A tagger that gives every character the same tag. -/
def constantTagger (tag : Bytes) : Tagger where
  parse lines := some (lines.map fun line => ⟨line.take (line.length - 4), tag⟩)

lemma constantTagger_rowsOf (tag : Bytes) (words : List Bytes) :
    (constantTagger tag).RowsOf words := by
  intro rows h
  cases h
  rw [List.map_map, List.map_map]
  refine List.map_congr_left fun word _ => ?_
  have htext : (bytes "\to\tB").length = 4 := by decide
  simp [contextText, htext]

lemma constantTagger_oneRowPerToken (tag : Bytes) : (constantTagger tag).OneRowPerToken :=
  fun words _ => constantTagger_rowsOf tag words

/-- Two characters that are words of their own. -/
theorem segment_keepsText_iff_single :
    ∃ words rows, splitChInt (bytes "ab") = some words ∧
      (constantTagger (bytes "S")).parse (words.map contextText) = some rows ∧
      (KeepsText words [bytes "a", bytes "b"] ↔
        [nul] ∉ words ∧ ∀ row ∈ rows.getLast?, EndsWord row.y2) := by
  have hsegment : segment (some (constantTagger (bytes "S"))) (bytes "ab") [] =
      some (.ok, [bytes "a", bytes "b"]) := by decide
  exact segment_keepsText_iff (fun words _ => constantTagger_rowsOf _ words) hsegment

/-- A character whose tag says that the word goes on. -/
theorem segment_drops_text : ¬ ∀ (tagger : Tagger) (str : Bytes) (segs : List Bytes),
    (∀ words, tagger.RowsOf words) → segment (some tagger) str [] = some (.ok, segs) →
    ∀ words, splitChInt str = some words → KeepsText words segs := by
  intro h
  have hkeeps := h (constantTagger (bytes "B")) (bytes "a") []
    (constantTagger_rowsOf _) (by decide) [bytes "a"] (by decide)
  exact absurd hkeeps.1 (by decide)

end Seg
end Sunet
