/-
# The index of a corpus in the double array

`build_index` writes the terms of a corpus in byte order, which is the order that `_build`
needs.  Here the file goes from the one program to the other: what `_reversed_search` returns
for a query is counted in the lines of the corpus.
-/
import Sunet.Dat.Reversed
import Sunet.Plugin.Found

namespace Sunet
namespace Dat

open StringUtil Byte SortedMap Seg Index

/-! ## Segments of UTF-8 texts -/

lemma Utf8Word.append {w w' : Bytes} (h : Utf8Word w) (h' : Utf8Word w') : Utf8Word (w ++ w') := by
  induction h with
  | nil => exact h'
  | ascii hnul hlt _ ih => exact .ascii hnul hlt ih
  | three hb h₁ h₂ hlong _ ih => exact .three hb h₁ h₂ hlong ih

/-- A character below `0x80` stands between characters. -/
lemma Utf8Word.of_append {b : Byte} (hb : b.toNat < 0x80) {w w' : Bytes}
    (h : Utf8Word (w ++ b :: w')) : Utf8Word w ∧ Utf8Word w' := by
  generalize hv : w ++ b :: w' = v at h
  induction h generalizing w with
  | nil => simp at hv
  | @ascii c rest hnul hlt hrest ih =>
    cases w with
    | nil =>
      obtain ⟨rfl, rfl⟩ := List.cons.inj hv
      exact ⟨.nil, hrest⟩
    | cons c' w =>
      rw [List.cons_append] at hv
      obtain ⟨rfl, htail⟩ := List.cons.inj hv
      obtain ⟨hw, hw'⟩ := ih htail
      exact ⟨.ascii hnul hlt hw, hw'⟩
  | @three c c₁ c₂ rest hc h₁ h₂ hlong hrest ih =>
    have hlead := (isLead_iff c).mp hc
    have hcont₁ := (isCont_iff c₁).mp h₁
    have hcont₂ := (isCont_iff c₂).mp h₂
    rcases w with _ | ⟨c', _ | ⟨c₁', _ | ⟨c₂', w⟩⟩⟩ <;>
      simp only [List.nil_append, List.cons_append, List.cons.injEq] at hv
    · obtain ⟨rfl, -⟩ := hv
      omega
    · obtain ⟨-, rfl, -⟩ := hv
      omega
    · obtain ⟨-, -, rfl, -⟩ := hv
      omega
    · obtain ⟨rfl, rfl, rfl, hv⟩ := hv
      obtain ⟨hw, hw'⟩ := ih hv
      exact ⟨.three hc h₁ h₂ hlong hw, hw'⟩

lemma Utf8Word.nul_notMem {w : Bytes} (h : Utf8Word w) : nul ∉ w := by
  have hlow : nul.toNat = 0 := rfl
  induction h with
  | nil => simp
  | ascii hnul _ _ ih => exact List.not_mem_cons_of_ne_of_not_mem (Ne.symm hnul) ih
  | @three b b₁ b₂ rest hb h₁ h₂ _ _ ih =>
    rw [isLead_iff] at hb
    rw [isCont_iff] at h₁ h₂
    simp only [List.mem_cons, not_or]
    refine ⟨?_, ?_, ?_, ih⟩ <;> rintro rfl <;> omega

namespace DatImpl

lemma Plain.append {w w' : Bytes} (h : Plain w) (h' : Plain w') : Plain (w ++ w') :=
  ⟨h.utf8.append h'.utf8, by simp [h.no_space, h'.no_space]⟩

/-- The characters that a text is split into. -/
lemma plain_of_mem_tokens {w : Bytes} (h : Utf8Word w) {t : Bytes} (ht : t ∈ tokens w) :
    Plain t := by
  rcases h.tokens_char t ht with ⟨b, rfl, hnul, hlt⟩ | ⟨b, b₁, b₂, rfl, hb, h₁, h₂, hlong⟩
  · refine ⟨.ascii hnul hlt .nil, ?_⟩
    rcases isToken_of_mem_tokens w _ ht with ⟨b', heq, -, hsp⟩ | ⟨b', b₁, b₂, heq, -⟩
    · cases heq
      simpa using Ne.symm hsp
    · cases heq
  · refine ⟨.three hb h₁ h₂ hlong .nil, ?_⟩
    have hlow : sp.toNat = 32 := rfl
    rw [isLead_iff] at hb
    rw [isCont_iff] at h₁ h₂
    simp only [List.mem_cons, List.not_mem_nil, or_false, not_or]
    refine ⟨?_, ?_, ?_⟩ <;> rintro rfl <;> omega

/-- Words that are put together of such texts. -/
lemma plain_segLoop {rows : List Row} (hrows : ∀ x ∈ rows.map Row.x₀, Plain x) {segStr : Bytes}
    (hseg : Plain segStr) : ∀ t ∈ segLoop segStr rows, Plain t := by
  induction rows generalizing segStr with
  | nil => simp [segLoop]
  | cons row rows ih =>
    have hrest := fun x hx => hrows x (List.mem_cons_of_mem _ hx)
    have hword := hseg.append (hrows _ List.mem_cons_self)
    rw [segLoop]
    split
    · intro t ht
      rcases List.mem_cons.mp ht with rfl | ht
      · exact hword
      · exact ih hrest ⟨.nil, List.not_mem_nil⟩ t ht
    · exact ih hrest hword

lemma plain_of_mem_indexSegment {tagger : Tagger} (htagger : tagger.OneRowPerToken) {str : Bytes}
    (hutf8 : Utf8Word str) (htab : tab ∉ str) (hstr : str.length < 2 ^ 31) :
    ∀ t ∈ indexSegment tagger str, Plain t := by
  rw [indexSegment, segment_of_length_lt tagger hstr]
  cases hparse : tagger.parse ((tokens str).map contextText) with
  | none => simp
  | some rows =>
    refine plain_segLoop ?_ ⟨.nil, List.not_mem_nil⟩
    intro x hx
    rw [rows_tokens htagger htab hutf8.nul_notMem hparse] at hx
    exact plain_of_mem_tokens hutf8 hx

/-! ## The file of a corpus -/

/-- The well-formed lines are those that a loader puts into its dictionary. -/
lemma loadDict_append (lines : List (Bytes × Bytes)) (file : Bytes) :
    Index.loadDict (fun lines k v => lines ++ [(k, v)]) lines file = lines ++ wellFormed file := by
  rw [loadDict_eq, List.foldl_append_eq_append, ← List.flatMap_def, List.flatMap_singleton']

lemma writable_postingsStr (postings : List ReverseIndex) : Writable (postingsStr postings) :=
  ⟨notMem_postingsStr postings (by decide) (by decide) (by decide) (by decide),
    notMem_postingsStr postings (by decide) (by decide) (by decide) (by decide)⟩

/-- Every line of `index.dict` is well-formed. -/
lemma wellFormed_indexFile {maps : Maps} (h : maps.Ok) :
    wellFormed (indexFile maps) =
      (maps.index.filter fun e => !(e.1.length < 3)).map fun e => (e.1, postingsStr e.2) := by
  have hload := loadDict_append [] (indexFile maps)
  rw [List.nil_append] at hload
  rw [← hload, Index.indexFile, Index.loadDict_unlines _ Prod.fst (fun e => postingsStr e.2)
    (fun e he => h.index_clean e (List.mem_filter.mp he).1) ?_]
  · rw [List.foldl_append_eq_append, List.nil_append, ← List.flatMap_def]
    exact List.map_eq_flatMap.symm
  · intro e he
    refine ⟨writable_postingsStr e.2, fun hnil => ?_⟩
    have hlast := postingsStr_getLast? (h.index_ok e (List.mem_filter.mp he).1).ne_nil
    rw [hnil] at hlast
    cases hlast

lemma count_le_length_flatten {t : Bytes} (ht : t ≠ []) (l : List Bytes) :
    l.count t ≤ l.flatten.length := by
  induction l with
  | nil => simp
  | cons x l ih =>
    have hpos := List.length_pos_of_ne_nil ht
    rw [List.count_cons, List.flatten_cons, List.length_append]
    split
    · next heq =>
      rw [beq_iff_eq.mp heq]
      omega
    · omega

section corpus

variable {tagger : Tagger} (htagger : tagger.OneRowPerToken) {corpus : Bytes}
  (hnul : ∀ line ∈ getLines corpus, nul ∉ line)
  (hlength : ∀ line ∈ getLines corpus, line.length < 2 ^ 31)

include htagger hnul hlength

/-- The maps of a corpus whose segments come from the tagger. -/
lemma ok_buildMaps_indexSegment : (buildMaps (indexSegment tagger) corpus).Ok := by
  rw [← buildMaps_congr fun line hline => parseLine_cleanSegment hnul hlength hline]
  exact ok_buildMaps (writable_cleanSegment htagger) corpus

/-- A line is too short for a count that is no `int`. -/
lemma wrapInt_occurrence {term : Bytes} (hterm : term ≠ []) {o : ℤ × ℕ}
    (ho : o ∈ occurrences (indexSegment tagger) (getLines corpus) term) : wrapInt o.2 = o.2 := by
  obtain ⟨line, hline, hocc⟩ := List.mem_filterMap.mp ho
  obtain ⟨segResults, hparse, -, hcount⟩ := Plugin.occurrence_eq_some.mp hocc
  rw [parseLine] at hparse
  split at hparse
  · next v₀ v₁ hsplit =>
    have hsub := sublist_of_split_two hsplit
    obtain ⟨-, rfl⟩ := Prod.mk.inj (Option.some.inj hparse)
    have hno : nul ∉ v₁ := fun h => hnul line hline (hsub.subset h)
    have hv₁ : v₁.length < 2 ^ 31 := hsub.length_le.trans_lt (hlength line hline)
    have hsegs := (flatten_indexSegment htagger (split_two hsplit).1 hno hv₁).length_le
    have hle := count_le_length_flatten hterm (indexSegment tagger v₁)
    exact isInt_of_lt (by omega)
  · cases hparse

/-- The map of `DictMgr` has the occurrences of the terms of at least three bytes. -/
lemma find_loadIndexDict (q : Bytes) :
    (find q (Index.loadIndexDict [] (indexFile (buildMaps (indexSegment tagger) corpus)))).getD [] =
      if 3 ≤ q.length then (occurrences (indexSegment tagger) (getLines corpus) q).map fun o =>
        ⟨o.1, o.2⟩ else [] := by
  have hparse : ∀ line ∈ getLines corpus,
      parseLine (cleanSegment tagger) line = parseLine (indexSegment tagger) line :=
    fun line hline => parseLine_cleanSegment hnul hlength hline
  have hpostings := Plugin.postings_loadedDicts (writable_cleanSegment htagger) corpus q
  rw [buildMaps_congr hparse, occurrences_congr hparse] at hpostings
  refine Eq.trans hpostings ?_
  split
  · next hlen =>
    have hq : q ≠ [] := by
      rintro rfl
      simp at hlen
    refine List.map_congr_left fun o ho => ?_
    rw [wrapInt_occurrence htagger hnul hlength hq ho]
  · rfl

end corpus

section utf8

variable {tagger : Tagger} (htagger : tagger.OneRowPerToken) {corpus : Bytes}
  (hutf8 : ∀ line ∈ getLines corpus, Utf8Word line)
  (hlength : ∀ line ∈ getLines corpus, line.length < 2 ^ 31)

include htagger hutf8 hlength

lemma plain_of_mentions {term : Bytes} {d : ℤ}
    (h : Plugin.Mentions (indexSegment tagger) (getLines corpus) term d) : Plain term := by
  obtain ⟨line, hline, segResults, hparse, hmem⟩ := h
  have hline' := hutf8 line hline
  have hlen := hlength line hline
  rw [parseLine] at hparse
  split at hparse
  · next v₀ v₁ hsplit =>
    obtain ⟨htab, rest, hrest, rfl⟩ := split_two hsplit
    obtain ⟨-, rfl⟩ := Prod.mk.inj (Option.some.inj hparse)
    obtain ⟨-, htail⟩ := hline'.of_append (by decide)
    have hv₁ : Utf8Word v₁ := by
      rcases hrest with rfl | rfl
      · rwa [List.append_nil] at htail
      · exact (htail.of_append (by decide)).1
    rw [List.length_append, List.length_cons, List.length_append] at hlen
    exact plain_of_mem_indexSegment htagger hv₁ htab (by omega) _ hmem
  · cases hparse

/-- The file of a corpus with a term that is long enough. -/
lemma indexFile_ok (hne : ∃ q d, 3 ≤ q.length ∧
    Plugin.Mentions (indexSegment tagger) (getLines corpus) q d) :
    IndexFile (indexFile (buildMaps (indexSegment tagger) corpus)) := by
  have hok := ok_buildMaps_indexSegment htagger (fun line hline => (hutf8 line hline).nul_notMem)
    hlength
  have hdesc := describesInt_buildMaps (indexSegment tagger) corpus
  have hlines := wellFormed_indexFile hok
  refine ⟨?_, ?_, ?_⟩
  · obtain ⟨q, d, hlen, hmentions⟩ := hne
    obtain ⟨o, ho, -⟩ := Plugin.exists_occurrence.mpr hmentions
    have hfind := (hdesc q).index
    rw [if_neg (List.ne_nil_of_mem ho)] at hfind
    have hmem := hok.index_sorted.mem_iff_find.mpr hfind
    rw [hlines]
    refine List.ne_nil_of_mem (List.mem_map_of_mem (List.mem_filter.mpr ⟨hmem, ?_⟩))
    simpa using hlen
  · intro e he
    rw [hlines] at he
    obtain ⟨e', he', rfl⟩ := List.mem_map.mp he
    have hfind := hok.index_sorted.mem_iff_find.mp (List.mem_filter.mp he').1
    rw [(hdesc e'.1).index] at hfind
    split at hfind
    · cases hfind
    · next hocc =>
      obtain ⟨o, ho⟩ := List.exists_mem_of_ne_nil _ hocc
      exact plain_of_mentions htagger hutf8 hlength (Plugin.exists_occurrence.mp ⟨o, ho, rfl⟩)
  · rw [hlines, List.map_map]
    exact hok.index_sorted.filter _

end utf8

section file

variable {file : Bytes} (hfile : IndexFile file) {unset size fuel : ℕ}
  {d : DatImpl (List ReverseIndex)}
  (hbuild : build noResize fuel ((new size unset).loadIndexDict file) = .ok d)

include hfile hbuild

/-- The values of a built object are those that were loaded. -/
lemma IndexFile.valueAt_build {q : Bytes} (hq : Plain q) :
    d.valueAt (firstIndex (terms file) q) =
      .ok ((find q (Index.loadIndexDict [] file)).getD []) := by
  obtain ⟨-, -, -, -, -, -, hext⟩ := build_ok (loaded_loadIndexDict size unset file).fresh hbuild
  rw [hfile.loadIndexDict_eq]
  refine valueAt_firstIndex hq hfile.plain ?_
  rw [hext.values_eq, DatImpl.loadIndexDict_eq]
  rfl

/-- What a query answers on a built object, unless it leaves the arrays. -/
lemma IndexFile.reversedSearch_cases {q : Bytes} (hq : Plain q) :
    d.reversedSearch q = .error .outOfBounds ∧ ¬ Roomy d ∨
      d.reversedSearch q = .ok ((find q (Index.loadIndexDict [] file)).getD []) := by
  have hne : terms file ≠ [] := by simpa [terms] using hfile.ne_nil
  rw [reversedSearch_eq]
  rcases (loaded_loadIndexDict size unset file).search_eq hne hfile.terms_sorted hbuild hq.utf8
    with ⟨herr, hsmall⟩ | hsearch
  · exact Or.inl ⟨by rw [herr]; rfl, hsmall⟩
  · rw [hsearch, Except.ok_bind, hfile.valueAt_build hbuild hq]
    exact Or.inr rfl

end file

/-- **The double array of a corpus.**  Say the lines of a corpus are texts over ASCII without
NUL and three-byte characters, each shorter than `2 ^ 31` bytes, and one of them has a segment of
at least three bytes.  Then there is a size of the arrays from which on the file that
`build_index` writes for the corpus is loaded and built without leaving them, and
`_reversed_search` returns for each such text without spaces the lines that have it as a segment:
the document and the number of times, in the order of the corpus.  For a text of less than three
bytes it returns nothing.  On arrays of any size a query that stays inside them returns the
same. -/
theorem reversedSearch_corpus {tagger : Tagger} (htagger : tagger.OneRowPerToken) (unset : ℕ)
    {corpus : Bytes} (hutf8 : ∀ line ∈ getLines corpus, Utf8Word line)
    (hlength : ∀ line ∈ getLines corpus, line.length < 2 ^ 31)
    (hne : ∃ q d, 3 ≤ q.length ∧
      Plugin.Mentions (indexSegment tagger) (getLines corpus) q d) :
    let file := indexFile (buildMaps (indexSegment tagger) corpus)
    let found := fun q : Bytes =>
      if 3 ≤ q.length then (occurrences (indexSegment tagger) (getLines corpus) q).map fun o =>
        (⟨o.1, o.2⟩ : ReverseIndex) else []
    (∃ N, ∀ size fuel, N ≤ size → N ≤ fuel →
      ∃ d, build noResize fuel ((new size unset).loadIndexDict file) = .ok d ∧
        ∀ q, Plain q → d.reversedSearch q = .ok (found q)) ∧
    ∀ (size fuel : ℕ) (d : DatImpl (List ReverseIndex)),
      build noResize fuel ((new size unset).loadIndexDict file) = .ok d →
        ∀ (q : Bytes) (postings : List ReverseIndex), Plain q →
          d.reversedSearch q = .ok postings → postings = found q := by
  intro file found
  have hfile : IndexFile file := indexFile_ok htagger hutf8 hlength hne
  have hfound : ∀ q, (find q (Index.loadIndexDict [] file)).getD [] = found q :=
    find_loadIndexDict htagger (fun line hline => (hutf8 line hline).nul_notMem) hlength
  have hterms : terms file ≠ [] := by simpa [terms] using hfile.ne_nil
  constructor
  · obtain ⟨N, hN⟩ := Loaded.build_total (List ReverseIndex) hterms hfile.terms_sorted unset
    refine ⟨N, fun size fuel hsize hfuel => ?_⟩
    have hinit := loadIndexDict_eq (new size unset) file
    obtain ⟨d, hbuild, hroomy⟩ := hN _ fuel (loaded_loadIndexDict size unset file)
      (by rw [hinit]; rfl) (by rw [hinit]; exact hsize) hfuel
    refine ⟨d, hbuild, fun q hq => ?_⟩
    rw [← hfound]
    exact (hfile.reversedSearch_cases hbuild hq).resolve_left fun h => h.2 hroomy
  · intro size fuel d hbuild q postings hq hr
    rw [← hfound]
    rcases hfile.reversedSearch_cases hbuild hq with ⟨herr, -⟩ | hok
    · rw [herr] at hr
      cases hr
    · exact Except.ok.inj (hr.symm.trans hok)

lemma Utf8Word.of_ascii (w : Bytes) (hw : ∀ b ∈ w, b ≠ nul ∧ b.toNat < 0x80) : Utf8Word w := by
  induction w with
  | nil => exact .nil
  | cons b w ih =>
    obtain ⟨hnul, hlt⟩ := hw b List.mem_cons_self
    exact .ascii hnul hlt (ih fun b hb => hw b (List.mem_cons_of_mem _ hb))

/-- Two lines, a tagger that makes a word of each character, and a character that both have. -/
theorem reversedSearch_corpus_two :
    let tagger := constantTagger (bytes "S")
    let zhong : Bytes := [0xe4, 0xb8, 0xad]
    let corpus := bytes "7\ta" ++ zhong ++ bytes "\n8\t" ++ zhong ++ zhong ++ bytes "\n"
    ∃ (size fuel : ℕ) (d : DatImpl (List ReverseIndex)),
      build noResize fuel
        ((new size 0).loadIndexDict (indexFile (buildMaps (indexSegment tagger) corpus))) = .ok d ∧
        d.reversedSearch zhong = .ok [⟨7, 1⟩, ⟨8, 2⟩] ∧ d.reversedSearch [0x61] = .ok [] := by
  intro tagger zhong corpus
  have hzhong : Utf8Word zhong := .three (by decide) (by decide) (by decide) (by decide) .nil
  have ha : Plain [0x61] := ⟨.ascii (by decide) (by decide) .nil, by decide⟩
  have hlines : getLines corpus = [bytes "7\ta" ++ zhong, bytes "8\t" ++ zhong ++ zhong] := by
    decide
  have hutf8 : ∀ line ∈ getLines corpus, Utf8Word line := by
    rw [hlines]
    simp only [List.forall_mem_cons, List.not_mem_nil, false_implies, implies_true, and_true]
    exact ⟨(Utf8Word.of_ascii (bytes "7\ta") (by decide +kernel)).append hzhong,
      ((Utf8Word.of_ascii (bytes "8\t") (by decide +kernel)).append hzhong).append hzhong⟩
  obtain ⟨⟨N, hN⟩, -⟩ := reversedSearch_corpus (constantTagger_oneRowPerToken (bytes "S")) 0 hutf8
    (by decide) ⟨zhong, 7, by decide, _, List.mem_of_mem_head? (by rw [hlines]; rfl),
      indexSegment tagger ([0x61] ++ zhong), by decide, by decide⟩
  obtain ⟨d, hbuild, hsearch⟩ := hN N N le_rfl le_rfl
  refine ⟨N, N, d, hbuild, ?_, ?_⟩
  · rw [hsearch _ ⟨hzhong, by decide⟩]
    decide
  · rw [hsearch _ ha]
    decide

end DatImpl
end Dat
end Sunet
