/-
# What a search finds in a corpus

`build_index` writes the dictionaries of a corpus, `DictMgr` loads them, and `SearchStrategy`
ranks and cuts into pages what it finds there.  Taken together, a search is a question to the
corpus: it finds the documents that mention a term of at least three bytes, scores them by
counting in the corpus, and neither loses one on the pages nor changes the dictionaries.  The
scores are those of exact arithmetic, for the corpora in which all of them are defined.
-/
import Sunet.Plugin.Defined
import Sunet.Plugin.Frame

namespace Sunet
namespace Plugin

open SortedMap Index StringUtil Byte

/-! ## Documents and terms -/

/-- A line for the document has the term in its text. -/
def Mentions (segment : Bytes → List Bytes) (lines : List Bytes) (term : Bytes) (d : ℤ) : Prop :=
  ∃ line ∈ lines, ∃ segResults, parseLine segment line = some (d, segResults) ∧ term ∈ segResults

lemma occurrence_eq_some {segment : Bytes → List Bytes} {term line : Bytes} {o : ℤ × ℕ} :
    occurrence segment term line = some o ↔ ∃ segResults,
      parseLine segment line = some (o.1, segResults) ∧ term ∈ segResults ∧
        o.2 = segResults.count term := by
  rw [occurrence]
  cases parseLine segment line with
  | none => simp
  | some r =>
    obtain ⟨id, segResults⟩ := r
    obtain ⟨d, n⟩ := o
    by_cases hmem : term ∈ segResults
    · have hne : segResults.count term ≠ 0 := (List.count_pos_iff.mpr hmem).ne'
      simp only [if_neg hne, Option.some.injEq, Prod.mk.injEq]
      constructor
      · rintro ⟨rfl, rfl⟩
        exact ⟨segResults, ⟨rfl, rfl⟩, hmem, rfl⟩
      · rintro ⟨segResults', ⟨rfl, rfl⟩, -, rfl⟩
        exact ⟨rfl, rfl⟩
    · simp only [List.count_eq_zero.mpr hmem, if_true, reduceCtorEq, Option.some.injEq,
        Prod.mk.injEq, false_iff]
      rintro ⟨segResults', ⟨-, rfl⟩, hmem', -⟩
      exact hmem hmem'

/-- The documents of the occurrences of a term are those that mention it. -/
lemma exists_occurrence {segment : Bytes → List Bytes} {lines : List Bytes} {term : Bytes} {d : ℤ} :
    (∃ o ∈ occurrences segment lines term, o.1 = d) ↔ Mentions segment lines term d := by
  constructor
  · rintro ⟨o, ho, rfl⟩
    obtain ⟨line, hline, hocc⟩ := List.mem_filterMap.mp ho
    obtain ⟨segResults, hparse, hmem, -⟩ := occurrence_eq_some.mp hocc
    exact ⟨line, hline, segResults, hparse, hmem⟩
  · rintro ⟨line, hline, segResults, hparse, hmem⟩
    refine ⟨(d, segResults.count term), List.mem_filterMap.mpr ⟨line, hline, ?_⟩, rfl⟩
    exact occurrence_eq_some.mpr ⟨segResults, hparse, hmem, rfl⟩

/-- What a document gains from the occurrences of a term. -/
def occurrenceGain {K : Type} [Field K] (log : K → K) (segment : Bytes → List Bytes)
    (lines : List Bytes) (d : ℤ) (term : Bytes) : K :=
  ((occurrences segment lines term).map fun o =>
    if o.1 = d then idf log (wrapInt (occurrences segment lines term).length) *
      rel (wrapInt o.2) (wrapInt (lastLength lines d)) else 0).sum

/-- The score of a document, counted in the corpus. -/
def corpusScore {K : Type} [Field K] (log : K → K) (segment : Bytes → List Bytes)
    (lines : List Bytes) (terms : List Bytes) (d : ℤ) : K :=
  (terms.map fun term =>
    if 3 ≤ term.length then occurrenceGain log segment lines d term else 0).sum

section corpus

variable {segment : Bytes → List Bytes} (hseg : ∀ s, ∀ t ∈ segment s, Writable t)

include hseg

/-- The postings of a term are its occurrences, if it is long enough for the index. -/
lemma postings_loadedDicts (corpus term : Bytes) :
    (loadedDicts (buildMaps segment corpus)).postings term =
      if 3 ≤ term.length then (occurrences segment (getLines corpus) term).map fun o =>
        ⟨o.1, wrapInt o.2⟩ else [] := by
  have hfind := find_loadedDicts hseg corpus term
  rw [SearchDicts.postings]
  by_cases hlen : 3 ≤ term.length ∧ occurrences segment (getLines corpus) term ≠ []
  · rw [(hfind _).mpr ⟨hlen.1, hlen.2, rfl⟩, if_pos hlen.1, Option.getD_some]
  · have hnone : find term (loadedDicts (buildMaps segment corpus)).indexDict = none := by
      by_contra hne
      obtain ⟨postings, hp⟩ := Option.ne_none_iff_exists'.mp hne
      obtain ⟨h₁, h₂, -⟩ := (hfind postings).mp hp
      exact hlen ⟨h₁, h₂⟩
    rw [hnone, Option.getD_none]
    split
    · next h₁ =>
      have hnil : occurrences segment (getLines corpus) term = [] := by
        by_contra h₂
        exact hlen ⟨h₁, h₂⟩
      rw [hnil, List.map_nil]
    · rfl

/-- A search comes across the documents that mention a term of the index. -/
lemma exists_posting (corpus term : Bytes) (d : ℤ) :
    (∃ t ∈ (loadedDicts (buildMaps segment corpus)).postings term, t.docId = d) ↔
      3 ≤ term.length ∧ Mentions segment (getLines corpus) term d := by
  rw [postings_loadedDicts hseg, ← exists_occurrence]
  split
  · next hlen => simp [hlen]
  · next hlen => simp [hlen]

lemma score_loadedDicts {K : Type} [Field K] (log : K → K) (corpus : Bytes) (terms : List Bytes)
    (d : ℤ) :
    score log (loadedDicts (buildMaps segment corpus)) terms d =
      corpusScore log segment (getLines corpus) terms d := by
  rw [score, corpusScore]
  refine congrArg List.sum (List.map_congr_left fun term _ => ?_)
  rw [postings_loadedDicts hseg]
  split
  · rw [occurrenceGain, List.map_map]
    refine congrArg List.sum (List.map_congr_left fun o ho => ?_)
    show gain _ _ d (⟨o.1, wrapInt o.2⟩ : ReverseIndex) = _
    rw [gain, termCnt_loadedDicts hseg corpus term (List.ne_nil_of_mem ho),
      lengthOf_loadedDicts hseg]
  · rfl

/-- A document that a line is for has a length. -/
lemma find_docLength_of_mentions {corpus term : Bytes} {d : ℤ}
    (h : Mentions segment (getLines corpus) term d) :
    find d (loadedDicts (buildMaps segment corpus)).docLengthDict ≠ none := by
  obtain ⟨line, hline, segResults, hparse, -⟩ := h
  have hof : isLineOf d line := by
    rw [parseLine] at hparse
    split at hparse
    · next val₀ val₁ hsplit =>
      cases hparse
      simp [isLineOf, hsplit]
    · cases hparse
  have hlength : (loadedDicts (buildMaps segment corpus)).docLengthDict =
      (buildMaps segment corpus).docLength := (ok_buildMaps hseg corpus).loadDocLengthDict
  have hne : (getLines corpus).filter (isLineOf d) ≠ [] :=
    List.ne_nil_of_mem (List.mem_filter.mpr ⟨hline, hof⟩)
  rw [hlength, buildMaps, find_docLength_foldl, List.getLast?_eq_getLast_of_ne_nil hne]
  exact Option.some_ne_none _

/-- A search leaves the dictionaries of a corpus alone. -/
lemma docLengthDict_rank {K : Type} [Field K] [LinearOrder K] (log : K → K)
    (sort : List (ℤ × K) → List (ℤ × K)) (corpus : Bytes) (terms : List Bytes) :
    (rank log sort (loadedDicts (buildMaps segment corpus)) terms).1 =
      (loadedDicts (buildMaps segment corpus)).docLengthDict := by
  refine (looksUp_terms log _ terms ⟨[], _⟩).same_iff.mpr ?_
  rintro d ⟨term, -, hpost⟩
  exact find_docLength_of_mentions hseg ((exists_posting hseg corpus term d).mp hpost).2

section field

variable {K : Type} [Field K] [LinearOrder K] (log : K → K) {sort : List (ℤ × K) → List (ℤ × K)}
  (hsort : Sorts sort)

include hsort

omit hseg in
lemma nodup_rank (dicts : SearchDicts) (terms : List Bytes) :
    ((rank log sort dicts terms).2.map Prod.fst).Nodup := by
  have hsorted := (gains_terms log dicts terms ⟨[], dicts.docLengthDict⟩).sorted List.Pairwise.nil
  exact ((hsort.perm _).map Prod.fst).nodup_iff.mpr (hsorted.imp fun hlt => ne_of_lt hlt)

omit hseg in
lemma pairwise_rank (dicts : SearchDicts) (terms : List Bytes) :
    (rank log sort dicts terms).2.Pairwise fun lhs rhs => rhs.2 ≤ lhs.2 := by
  refine (hsort.ordered _).imp fun {lhs rhs} h => ?_
  rw [cmp, decide_eq_false_iff_not] at h
  exact not_lt.mp h

/-- The ranked list of a search in a corpus. -/
lemma mem_rank_loadedDicts (corpus : Bytes) (terms : List Bytes) (d : ℤ) (s : K) :
    (d, s) ∈ (rank log sort (loadedDicts (buildMaps segment corpus)) terms).2 ↔
      (∃ term ∈ terms, 3 ≤ term.length ∧ Mentions segment (getLines corpus) term d) ∧
        s = corpusScore log segment (getLines corpus) terms d := by
  rw [mem_rank log hsort, score_loadedDicts hseg]
  simp only [exists_posting hseg]

/-- There are no more results than lines. -/
lemma length_rank_le (corpus : Bytes) (terms : List Bytes) :
    (rank log sort (loadedDicts (buildMaps segment corpus)) terms).2.length ≤
      (getLines corpus).length := by
  have hsub : (rank log sort (loadedDicts (buildMaps segment corpus)) terms).2.map Prod.fst ⊆
      (getLines corpus).filterMap fun line => (parseLine segment line).map Prod.fst := by
    intro d hd
    obtain ⟨⟨d', s⟩, he, rfl⟩ := List.mem_map.mp hd
    obtain ⟨⟨term, -, -, line, hline, segResults, hparse, -⟩, -⟩ :=
      (mem_rank_loadedDicts hseg log hsort corpus terms d' s).mp he
    exact List.mem_filterMap.mpr ⟨line, hline, by rw [hparse]; rfl⟩
  have hle := ((nodup_rank log hsort _ terms).subperm hsub).length_le
  rw [List.length_map] at hle
  exact hle.trans (List.length_filterMap_le _ _)

/-- The answer for a page of at least 1. -/
lemma process_loadedDicts {corpus : Bytes} (hlines : (getLines corpus).length < 2 ^ 31)
    {terms : List Bytes} (hterms : terms ≠ []) {page : ℤ} (hpage : 1 ≤ page) {k : ℕ} :
    let dicts := loadedDicts (buildMaps segment corpus)
    let ranked := (rank log sort dicts terms).2
    (k : ℤ) = min page (pages ranked.length) →
      process log sort dicts page terms = some (dicts,
        if ranked = [] then .none else .ok (answer ranked k).1 (pageRecords ranked k)) := by
  intro dicts ranked hk
  have hsize : ranked.length < 2 ^ 31 :=
    (length_rank_le hseg log hsort corpus terms).trans_lt hlines
  have hlength : (rank log sort dicts terms).1 = dicts.docLengthDict :=
    docLengthDict_rank hseg log sort corpus terms
  -- the page that is answered lies in the list
  have hempty : (pageRecords ranked k).length = 0 ↔ ranked = [] := by
    have hlast := (size_le_pages ranked.length).2
    rw [pageRecords, List.length_take, List.length_drop, ← List.length_eq_zero_iff]
    rw [pages] at hk hlast
    omega
  rw [process, if_neg (by rwa [List.length_eq_zero_iff])]
  simp only [hlength, Option.bind_eq_bind]
  rw [pageOf_eq hsize hpage hk, Option.bind_some]
  simp only [answer, hempty]

omit hseg in
/-- Where the divisors and the arguments of the logarithm are positive, the ranked list has the
scores of the run in which an operation may be undefined. -/
lemma perm_docScoreVec [IsStrictOrderedRing K] {dicts : SearchDicts} (h : ArgsPositive K dicts)
    (terms : List Bytes) :
    ((rank log sort dicts terms).2.map fun e => (e.1, some e.2)).Perm
      (docScoreVec log dicts terms) := by
  rw [docScoreVec_eq log h]
  exact (hsort.perm _).map _

/-- **A search answers from the corpus.**  The arithmetic is exact: the scores are elements of an
ordered field.  For every corpus of less than `2 ^ 31` lines that can be ranked, that is, where
no term of the index has more than 230000 lines, and every query with a segment, the records of
the pages from the first to the last are one after the other a list that has each document that
mentions a segment of at least three bytes, once and no other, with the score that is counted
in the corpus, and in the order of the scores.  These are the scores that the loop computes,
all of them defined, and `cmp` is an order that `std::sort` can work with on them.  A page
behind the last one is answered with the last one, and no search changes the dictionaries. -/
theorem process_corpus [IsStrictOrderedRing K] {corpus : Bytes}
    (hrankable : Rankable segment (getLines corpus))
    (hlines : (getLines corpus).length < 2 ^ 31) {terms : List Bytes} (hterms : terms ≠ []) :
    let dicts := loadedDicts (buildMaps segment corpus)
    ∃ (ranked : List (ℤ × K)) (tot : ℕ), 1 ≤ tot ∧
      (List.range' 1 tot).flatMap (pageRecords ranked) = ranked ∧
      (∀ (page : ℤ) (k : ℕ), 1 ≤ page → (k : ℤ) = min page tot →
        process log sort dicts page terms = some (dicts,
          if ranked = [] then .none else .ok (answer ranked k).1 (pageRecords ranked k))) ∧
      (ranked.map Prod.fst).Nodup ∧
      (∀ d, d ∈ ranked.map Prod.fst ↔
        ∃ term ∈ terms, 3 ≤ term.length ∧ Mentions segment (getLines corpus) term d) ∧
      (∀ e ∈ ranked, e.2 = corpusScore log segment (getLines corpus) terms e.1) ∧
      (ranked.Pairwise fun lhs rhs => rhs.2 ≤ lhs.2) ∧
      (ranked.map fun e => (e.1, some e.2)).Perm (docScoreVec log dicts terms) ∧
      StrictWeakOn cmpNum (docScoreVec log dicts terms) := by
  intro dicts
  have hargs : ArgsPositive K dicts := (argsPositive_loadedDicts hseg K corpus).mpr hrankable
  have hmem := mem_rank_loadedDicts hseg log hsort corpus terms
  set ranked := (rank log sort dicts terms).2 with hranked
  refine ⟨ranked, pages ranked.length, Nat.le_add_left 1 _, ?_, ?_, nodup_rank log hsort dicts terms,
    ?_, fun e he => ((hmem e.1 e.2).mp he).2, pairwise_rank log hsort dicts terms,
    perm_docScoreVec log hsort hargs terms, (hargs.rankingDefined log).order terms⟩
  · rw [flatMap_pageRecords, List.take_of_length_le (size_le_pages ranked.length).1]
  · exact fun page k hpage hk => process_loadedDicts hseg log hsort hlines hterms hpage hk
  · intro d
    constructor
    · intro hd
      obtain ⟨⟨d', s⟩, he, rfl⟩ := List.mem_map.mp hd
      exact ((hmem d' s).mp he).1
    · intro hd
      exact List.mem_map.mpr ⟨_, (hmem d _).mpr ⟨hd, rfl⟩, rfl⟩

end field

end corpus

/-- Two documents, one of which has a term of three bytes. -/
theorem process_corpus_two :
    let sort : List (ℤ × ℚ) → List (ℤ × ℚ) :=
      fun vec => vec.mergeSort fun lhs rhs => decide (rhs.2 ≤ lhs.2)
    let corpus := bytes "7\tabc\n8\tab\n"
    let terms := [bytes "abc", bytes "ab"]
    let dicts := loadedDicts (buildMaps wholeText corpus)
    ∃ (ranked : List (ℤ × ℚ)) (tot : ℕ), 1 ≤ tot ∧
      (List.range' 1 tot).flatMap (pageRecords ranked) = ranked ∧
      (∀ (page : ℤ) (k : ℕ), 1 ≤ page → (k : ℤ) = min page tot →
        process (fun x => x) sort dicts page terms = some (dicts,
          if ranked = [] then .none else .ok (answer ranked k).1 (pageRecords ranked k))) ∧
      (ranked.map Prod.fst).Nodup ∧
      (∀ d, d ∈ ranked.map Prod.fst ↔
        ∃ term ∈ terms, 3 ≤ term.length ∧ Mentions wholeText (getLines corpus) term d) ∧
      (∀ e ∈ ranked, e.2 = corpusScore (fun x => x) wholeText (getLines corpus) terms e.1) ∧
      (ranked.Pairwise fun lhs rhs => rhs.2 ≤ lhs.2) ∧
      (ranked.map fun e => (e.1, some e.2)).Perm
        (docScoreVec (fun x : ℚ => x) dicts terms) ∧
      StrictWeakOn cmpNum (docScoreVec (fun x : ℚ => x) dicts terms) :=
  process_corpus writable_wholeText (fun x => x) sorts_mergeSort
    (rankable_of_small (by decide) (by decide) (by decide)) (by decide) (by decide)

end Plugin
end Sunet
