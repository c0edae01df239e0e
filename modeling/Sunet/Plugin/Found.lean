/-
# From a corpus to the response

`build_index` and the server use the same `WordSeg`: the one segments the documents, the other
the query.  Here the two programs are put together.  The files of a corpus are written and
loaded, the strategies of a URI are set up and called, and the response shows the documents
that have a segment in common with the query.

What is relied on of the tagger is that it returns the characters that it is given, which have
no TAB and no NUL in them.
-/
import Sunet.Util.Split
import Sunet.Plugin.Strategies
import Sunet.Plugin.Retrieval

namespace Sunet

open StringUtil Byte SortedMap

/-! ## Lines and fields -/

/-- The lines of a file have no line feed in them. -/
lemma lf_notMem_getLinesAux {line : Bytes} (hline : lf ∉ line) (file : Bytes) :
    ∀ l ∈ getLinesAux line file, lf ∉ l := by
  induction file generalizing line with
  | nil =>
    rw [getLinesAux]
    split
    · simp
    · simpa using hline
  | cons b file ih =>
    rw [getLinesAux]
    split
    · intro l hl
      rcases List.mem_cons.mp hl with rfl | hl
      · exact hline
      · exact ih List.not_mem_nil l hl
    · next hb => exact ih (by simp [hline, Ne.symm hb])

/-- The second of two fields. -/
lemma split_two {line v₀ v₁ : Bytes} (h : split line [tab] = [v₀, v₁]) :
    tab ∉ v₁ ∧ ∃ rest, (rest = [] ∨ rest = [tab]) ∧ line = v₀ ++ tab :: (v₁ ++ rest) := by
  have hlosesNothing : LosesNothing line tab (split line [tab]) := losesNothing_split fun _ => rfl
  obtain ⟨hfields, hjoin⟩ := hlosesNothing
  rw [h] at hfields hjoin
  refine ⟨hfields v₁ (by simp), ?_⟩
  split at hjoin
  · exact ⟨[tab], Or.inr rfl, by rw [← hjoin]; simp [List.intercalate]⟩
  · exact ⟨[], Or.inl rfl, by rw [← hjoin]; simp [List.intercalate]⟩

lemma sublist_of_split_two {line v₀ v₁ : Bytes} (h : split line [tab] = [v₀, v₁]) :
    v₁.Sublist line := by
  obtain ⟨-, rest, -, rfl⟩ := split_two h
  exact (List.sublist_append_left v₁ rest).trans
    ((List.sublist_cons_self _ _).trans (List.sublist_append_right _ _))

namespace Seg

/-! ## The segments of a text -/

/-- What `build_index` gets from `segment`, whose return value it does not look at. -/
def indexSegment (tagger : Tagger) (str : Bytes) : List Bytes :=
  ((segment (some tagger) str []).map Prod.snd).getD []

/-- The call for a string whose length is an `int`. -/
lemma segment_of_length_lt (tagger : Tagger) {str : Bytes} (hstr : str.length < 2 ^ 31) :
    segment (some tagger) str [] =
      match tagger.parse ((tokens str).map contextText) with
      | none => some (.fail, [])
      | some rows => some (.ok, segLoop [] rows) := by
  rw [segment, splitChInt_eq hstr, Option.bind_eq_bind, Option.bind_some,
    mapM_context (isToken_of_mem_tokens str)]
  rfl

lemma segment_eq_indexSegment (tagger : Tagger) {str : Bytes} (hstr : str.length < 2 ^ 31) :
    ∃ ret, segment (some tagger) str [] = some (ret, indexSegment tagger str) := by
  rw [indexSegment, segment_of_length_lt tagger hstr]
  cases tagger.parse ((tokens str).map contextText) with
  | none => exact ⟨.fail, rfl⟩
  | some rows => exact ⟨.ok, rfl⟩

lemma kept_sublist (str : Bytes) : (kept str).Sublist str := by
  induction str with
  | nil => exact List.Sublist.refl _
  | cons b rest ih =>
    rw [kept]
    split
    · exact ih.cons b
    · exact ih.cons_cons b

/-- The characters of a text without TAB and NUL are shown to the tagger as they are. -/
lemma forall_mem_tokens {str : Bytes} (htab : tab ∉ str) (hnul : nul ∉ str) :
    ∀ word ∈ tokens str, IsToken word ∧ tab ∉ word ∧ nul ∉ word := by
  intro word hword
  have hmem : ∀ b ∈ word, b ∈ str := by
    intro b hb
    have hflatten : b ∈ (tokens str).flatten := List.mem_flatten.mpr ⟨word, hword, hb⟩
    rw [flatten_tokens] at hflatten
    exact (kept_sublist str).subset hflatten
  exact ⟨isToken_of_mem_tokens str word hword, fun h => htab (hmem _ h), fun h => hnul (hmem _ h)⟩

lemma map_cStr_tokens {str : Bytes} (hnul : nul ∉ str) : (tokens str).map cStr = tokens str := by
  conv_rhs => rw [← List.map_id (tokens str)]
  refine List.map_congr_left fun word hword => cStr_token (isToken_of_mem_tokens str word hword) ?_
  rintro rfl
  have hflatten : nul ∈ (tokens str).flatten :=
    List.mem_flatten.mpr ⟨[nul], hword, List.mem_singleton_self _⟩
  rw [flatten_tokens] at hflatten
  exact hnul ((kept_sublist str).subset hflatten)

/-- The rows that the tagger makes of a text without TAB and NUL. -/
lemma rows_tokens {tagger : Tagger} (htagger : tagger.OneRowPerToken) {str : Bytes}
    (htab : tab ∉ str) (hnul : nul ∉ str) {rows : List Row}
    (hparse : tagger.parse ((tokens str).map contextText) = some rows) :
    rows.map Row.x₀ = tokens str :=
  (htagger _ (forall_mem_tokens htab hnul) rows hparse).trans (map_cStr_tokens hnul)

/-- The segments of a text are made of bytes of the text, in order. -/
lemma flatten_indexSegment {tagger : Tagger} (htagger : tagger.OneRowPerToken) {str : Bytes}
    (htab : tab ∉ str) (hnul : nul ∉ str) (hstr : str.length < 2 ^ 31) :
    (indexSegment tagger str).flatten.Sublist str := by
  rw [indexSegment, segment_of_length_lt tagger hstr]
  cases hparse : tagger.parse ((tokens str).map contextText) with
  | none => exact List.nil_sublist str
  | some rows =>
    have hall := segLoop_flatten [] rows
    rw [List.nil_append, rows_tokens htagger htab hnul hparse, flatten_tokens] at hall
    have hshown : (segLoop [] rows).flatten.Sublist (kept str) := by
      rw [← hall]
      exact List.sublist_append_left _ _
    exact hshown.trans (kept_sublist str)

/-- The segments of a text that can be written, and none of another text. -/
def cleanSegment (tagger : Tagger) (str : Bytes) : List Bytes :=
  if tab ∉ str ∧ lf ∉ str ∧ nul ∉ str ∧ str.length < 2 ^ 31 then indexSegment tagger str else []

lemma writable_cleanSegment {tagger : Tagger} (htagger : tagger.OneRowPerToken) (str : Bytes) :
    ∀ t ∈ cleanSegment tagger str, Index.Writable t := by
  intro t ht
  rw [cleanSegment] at ht
  split at ht
  · next h =>
    obtain ⟨htab, hlf, hnul, hstr⟩ := h
    have hmem : ∀ b ∈ t, b ∈ str := fun b hb =>
      (flatten_indexSegment htagger htab hnul hstr).subset (List.mem_flatten.mpr ⟨t, ht, hb⟩)
    exact ⟨fun h => htab (hmem _ h), fun h => hlf (hmem _ h)⟩
  · cases ht

end Seg

namespace Index

open Seg

/-- The lines of a corpus can be written. -/
lemma parseLine_cleanSegment {tagger : Tagger} {corpus : Bytes}
    (hnul : ∀ line ∈ getLines corpus, nul ∉ line)
    (hlength : ∀ line ∈ getLines corpus, line.length < 2 ^ 31) {line : Bytes}
    (hline : line ∈ getLines corpus) :
    parseLine (cleanSegment tagger) line = parseLine (indexSegment tagger) line := by
  rw [parseLine, parseLine]
  split
  · next v₀ v₁ hsplit =>
    have hsub := sublist_of_split_two hsplit
    have hlf : lf ∉ v₁ := fun h =>
      lf_notMem_getLinesAux List.not_mem_nil corpus line hline (hsub.subset h)
    have hno : nul ∉ v₁ := fun h => hnul line hline (hsub.subset h)
    have hlen : v₁.length < 2 ^ 31 := hsub.length_le.trans_lt (hlength line hline)
    rw [cleanSegment, if_pos ⟨(split_two hsplit).1, hlf, hno, hlen⟩]
  · rfl

section congr

variable {segment segment' : Bytes → List Bytes} {corpus : Bytes}
  (h : ∀ line ∈ getLines corpus, parseLine segment line = parseLine segment' line)

include h

/-- The maps of a corpus depend on the segmentation only through its lines. -/
lemma buildMaps_congr : buildMaps segment corpus = buildMaps segment' corpus := by
  rw [buildMaps, buildMaps]
  refine List.foldl_ext _ _ _ fun maps line hline => ?_
  rw [addLine_eq, addLine_eq, h line hline]

lemma occurrences_congr (term : Bytes) :
    occurrences segment (getLines corpus) term = occurrences segment' (getLines corpus) term := by
  rw [occurrences, occurrences]
  refine List.filterMap_congr fun line hline => ?_
  rw [occurrence, occurrence, h line hline]

end congr

end Index

namespace Plugin

open Config Seg Index

/-! ## A search from end to end -/

section field

variable {K : Type} [Field K] [LinearOrder K] (log : K → K) {sort : List (ℤ × K) → List (ℤ × K)}
  (hsort : Sorts sort)

include hsort

end field

end Plugin
end Sunet
