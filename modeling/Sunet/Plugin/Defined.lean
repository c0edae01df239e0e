/-
# Where the ranking is defined

The weight of a term is the logarithm of a quotient that belongs to a corpus of 230000
documents, whatever the size of the corpus is, and the relevance of a posting is a quotient of
counters of the type `int`.  The main result says for which corpora everything that the loop of
`_process` computes is defined, so that no score is NaN or infinite and `std::sort` gets a
comparison it can work with.
-/
import Sunet.Plugin.Search
import Sunet.Index.Load
import Sunet.Index.Count

namespace Sunet
namespace Plugin

open SortedMap Index StringUtil Byte

/-! ## What the ranking needs -/

section field

variable {K : Type} [Field K] [LinearOrder K] (log : K → K)

/-- What `std::sort` asks of its comparison on the elements of a list. -/
structure StrictWeakOn {α : Type} (r : α → α → Bool) (l : List α) : Prop where
  irrefl : ∀ a ∈ l, r a a = false
  trans : ∀ a ∈ l, ∀ b ∈ l, ∀ c ∈ l, r a b = true → r b c = true → r a c = true
  incomparable : ∀ a ∈ l, ∀ b ∈ l, ∀ c ∈ l, r a b = false → r b a = false → r b c = false →
    r c b = false → r a c = false ∧ r c a = false

/-- The divisors and the arguments of the logarithm are positive, and no operation on the type
`int` overflows. -/
structure ArgsPositive (K : Type) [Field K] [LinearOrder K] (dicts : SearchDicts) : Prop where
  freq : ∀ term postings, find term dicts.indexDict = some postings →
    (0 : K) < (dicts.termCnt term : K) + 1 / 2
  arg : ∀ term postings, find term dicts.indexDict = some postings →
    (0 : K) < idfArg (dicts.termCnt term)
  divisor : ∀ term postings, find term dicts.indexDict = some postings → ∀ t ∈ postings,
    (0 : K) < relDivisor t.cnt (lengthOf dicts.docLengthDict t.docId)
  twice : ∀ term postings, find term dicts.indexDict = some postings → ∀ t ∈ postings,
    checkInt (t.cnt * 2) = some (t.cnt * 2)

/-- Everything that a search computes from the dictionaries is defined, and its scores can be
sorted. -/
structure RankingDefined (dicts : SearchDicts) : Prop extends ArgsPositive K dicts where
  scores : ∀ terms, ∀ e ∈ docScoreVec log dicts terms, e.2 ≠ none
  order : ∀ terms, StrictWeakOn cmpNum (docScoreVec log dicts terms)

omit [Field K] in
lemma strictWeakOn_cmpNum {vec : List (ℤ × Option K)} (h : ∀ e ∈ vec, e.2 ≠ none) :
    StrictWeakOn cmpNum vec := by
  have hnum : ∀ e ∈ vec, ∃ x, e.2 = some x := fun e he => Option.ne_none_iff_exists'.mp (h e he)
  have hcmp : ∀ {a b : ℤ × Option K} {x y : K}, a.2 = some x → b.2 = some y →
      cmpNum a b = decide (x > y) := by
    intro a b x y hx hy
    rw [cmpNum, hx, hy]
  refine ⟨?_, ?_, ?_⟩
  · intro a ha
    obtain ⟨x, hx⟩ := hnum a ha
    rw [hcmp hx hx]
    simp
  · intro a ha b hb c hc
    obtain ⟨x, hx⟩ := hnum a ha
    obtain ⟨y, hy⟩ := hnum b hb
    obtain ⟨z, hz⟩ := hnum c hc
    rw [hcmp hx hy, hcmp hy hz, hcmp hx hz, decide_eq_true_eq, decide_eq_true_eq,
      decide_eq_true_eq]
    exact fun hxy hyz => hyz.trans hxy
  · intro a ha b hb c hc
    obtain ⟨x, hx⟩ := hnum a ha
    obtain ⟨y, hy⟩ := hnum b hb
    obtain ⟨z, hz⟩ := hnum c hc
    rw [hcmp hx hy, hcmp hy hx, hcmp hy hz, hcmp hz hy, hcmp hx hz, hcmp hz hx]
    simp only [decide_eq_false_iff_not, not_lt]
    exact fun hxy hyx hyz hzy => ⟨hxy.trans hyz, hzy.trans hyx⟩

/-! ## The loop with defined numbers -/

/-- The scores of a run in which everything is defined. -/
def Scores.toNum (st : Scores K) : Scores (Option K) := ⟨mapVal some st.docScore, st.docLengthDict⟩

lemma relNum_eq {cnt length : ℤ} (h : (0 : K) < relDivisor cnt length)
    (htwice : checkInt (cnt * 2) = some (cnt * 2)) :
    relNum cnt length = some (rel cnt length : K) := by
  rw [relNum, htwice, Option.bind_eq_bind, Option.bind_some, divNum, if_neg h.ne']
  rfl

lemma addPostingNum_eq (w : K) (st : Scores K) (t : ReverseIndex)
    (h : (0 : K) < relDivisor t.cnt (lengthOf st.docLengthDict t.docId))
    (htwice : checkInt (t.cnt * 2) = some (t.cnt * 2)) :
    addPostingNum (some w) st.toNum t = (addPostingScore w st t).toNum := by
  have hrel : relNum t.cnt (docLengthAt t.docId st.docLengthDict).1 =
      some (rel t.cnt (docLengthAt t.docId st.docLengthDict).1 : K) := by
    rw [(lengthOf_docLengthAt t.docId st.docLengthDict).1]
    exact relNum_eq h htwice
  -- the addition, whatever the entry of the document is
  have hadd : ∀ docScore : List (ℤ × K),
      set t.docId (Option.map₂ (· + ·) ((find t.docId (mapVal some docScore)).getD (some 0))
        (Option.map₂ (· * ·) (some w) (relNum t.cnt (docLengthAt t.docId st.docLengthDict).1)))
        (mapVal some docScore) =
      mapVal some (set t.docId ((find t.docId docScore).getD 0 +
        w * rel t.cnt (docLengthAt t.docId st.docLengthDict).1) docScore) := by
    intro docScore
    rw [find_mapVal, hrel, Option.getD_map some, Option.map₂_some_some, Option.map₂_some_some,
      set_mapVal]
  have hfind : find t.docId st.toNum.docScore = (find t.docId st.docScore).map some :=
    find_mapVal some t.docId st.docScore
  have hset : set t.docId (some 0) st.toNum.docScore = mapVal some (set t.docId 0 st.docScore) :=
    set_mapVal some t.docId 0 st.docScore
  rw [addPostingNum, addPostingScore, hfind]
  cases find t.docId st.docScore with
  | none =>
    simp only [Option.map_none, hset]
    exact congrArg (Scores.mk · _) (hadd _)
  | some score => exact congrArg (Scores.mk · _) (hadd _)

lemma foldl_addPostingNum (w : K) (postings : List ReverseIndex) (st : Scores K)
    (h : ∀ t ∈ postings, (0 : K) < relDivisor t.cnt (lengthOf st.docLengthDict t.docId))
    (htwice : ∀ t ∈ postings, checkInt (t.cnt * 2) = some (t.cnt * 2)) :
    postings.foldl (addPostingNum (some w)) st.toNum =
      (postings.foldl (addPostingScore w) st).toNum := by
  induction postings generalizing st with
  | nil => rfl
  | cons t postings ih =>
    rw [List.foldl_cons, List.foldl_cons, addPostingNum_eq w st t (h t List.mem_cons_self)
      (htwice t List.mem_cons_self)]
    refine ih _ (fun t' ht' => ?_) fun t' ht' => htwice t' (List.mem_cons_of_mem _ ht')
    rw [(gains_addPostingScore w st t).length]
    exact h t' (List.mem_cons_of_mem _ ht')

/-! ## The signs in terms of the counters -/

variable [IsStrictOrderedRing K]

lemma freq_pos_iff (d : ℤ) : (0 : K) < (d : K) + 1 / 2 ↔ 0 ≤ d := by
  have hcast : (d : K) + 1 / 2 = ((2 * d + 1 : ℤ) : K) / 2 := by
    push_cast
    ring
  rw [hcast, div_pos_iff_of_pos_right two_pos, Int.cast_pos]
  omega

lemma idfArg_pos_iff {d : ℤ} (hd : 0 ≤ d) : (0 : K) < idfArg d ↔ d ≤ 230000 := by
  rw [idfArg, div_pos_iff_of_pos_right ((freq_pos_iff d).mpr hd), freq_pos_iff]
  omega

lemma relDivisor_pos_iff (cnt length : ℤ) :
    (0 : K) < relDivisor cnt length ↔ 0 < 32 * cnt + 3 * length + 8 := by
  have hcast : (relDivisor cnt length : K) = ((32 * cnt + 3 * length + 8 : ℤ) : K) / 32 := by
    rw [relDivisor]
    push_cast
    ring
  rw [hcast, div_pos_iff_of_pos_right (by norm_num), Int.cast_pos]

lemma argsPositive_iff (dicts : SearchDicts) :
    ArgsPositive K dicts ↔ ∀ term postings, find term dicts.indexDict = some postings →
      0 ≤ dicts.termCnt term ∧ dicts.termCnt term ≤ 230000 ∧
        ∀ t ∈ postings, 0 < 32 * t.cnt + 3 * lengthOf dicts.docLengthDict t.docId + 8 ∧
          -2 ^ 30 ≤ t.cnt ∧ t.cnt < 2 ^ 30 := by
  constructor
  · intro h term postings hfind
    have hfreq := (freq_pos_iff _).mp (h.freq term postings hfind)
    refine ⟨hfreq, (idfArg_pos_iff hfreq).mp (h.arg term postings hfind), fun t ht => ?_⟩
    obtain ⟨-, hlow, hhigh⟩ := checkInt_eq_some.mp (h.twice term postings hfind t ht)
    exact ⟨(relDivisor_pos_iff _ _).mp (h.divisor term postings hfind t ht), by omega, by omega⟩
  · intro h
    refine ⟨fun term postings hfind => ?_, fun term postings hfind => ?_,
      fun term postings hfind t ht => ?_, fun term postings hfind t ht => ?_⟩
    · exact (freq_pos_iff _).mpr (h term postings hfind).1
    · exact (idfArg_pos_iff (h term postings hfind).1).mpr (h term postings hfind).2.1
    · exact (relDivisor_pos_iff _ _).mpr ((h term postings hfind).2.2 t ht).1
    · obtain ⟨-, hlow, hhigh⟩ := (h term postings hfind).2.2 t ht
      exact checkInt_of_bounds (by omega) (by omega)

/-! ## The scores -/

lemma idfNum_eq {termCnt : ℤ} (hfreq : (0 : K) < (termCnt : K) + 1 / 2)
    (harg : (0 : K) < idfArg termCnt) : idfNum log termCnt = some (idf log termCnt) := by
  have hlow := (freq_pos_iff termCnt).mp hfreq
  have hhigh := (idfArg_pos_iff hlow).mp harg
  rw [idfNum, checkInt_of_bounds (by omega) (by omega), Option.bind_eq_bind, Option.bind_some,
    divNum, if_neg hfreq.ne', Option.bind_eq_bind, Option.bind_some, logNum]
  exact if_pos harg

/-- A run in which everything is defined computes the scores of `rank`. -/
lemma docScoreVec_eq {dicts : SearchDicts} (h : ArgsPositive K dicts) (terms : List Bytes) :
    docScoreVec log dicts terms =
      mapVal some (terms.foldl (addTermScore log dicts) ⟨[], dicts.docLengthDict⟩).docScore := by
  have hfold : ∀ (terms : List Bytes) (st : Scores K),
      (∀ d, lengthOf st.docLengthDict d = lengthOf dicts.docLengthDict d) →
      terms.foldl (addTermNum log dicts) st.toNum =
        (terms.foldl (addTermScore log dicts) st).toNum := by
    intro terms
    induction terms with
    | nil => exact fun _ _ => rfl
    | cons term terms ih =>
      intro st hst
      have hterm : addTermNum log dicts st.toNum term = (addTermScore log dicts st term).toNum := by
        rw [addTermNum, addTermScore]
        cases hfind : find term dicts.indexDict with
        | none => rfl
        | some postings =>
          simp only [idfNum_eq log (h.freq term postings hfind) (h.arg term postings hfind)]
          refine foldl_addPostingNum _ postings st (fun t ht => ?_) (h.twice term postings hfind)
          rw [hst]
          exact h.divisor term postings hfind t ht
      rw [List.foldl_cons, List.foldl_cons, hterm]
      refine ih _ fun d => ?_
      rw [(gains_addTermScore log dicts st term).length, hst]
  exact congrArg Scores.docScore (hfold terms ⟨[], dicts.docLengthDict⟩ fun _ => rfl)

/-- The scores are numbers where the divisors and the arguments of the logarithm are positive. -/
lemma ArgsPositive.rankingDefined {dicts : SearchDicts} (h : ArgsPositive K dicts) :
    RankingDefined log dicts := by
  have hscores : ∀ terms, ∀ e ∈ docScoreVec log dicts terms, e.2 ≠ none := by
    intro terms e he
    rw [docScoreVec_eq log h] at he
    obtain ⟨e', -, rfl⟩ := List.mem_map.mp he
    exact Option.some_ne_none _
  exact ⟨h, hscores, fun terms => strictWeakOn_cmpNum (hscores terms)⟩

end field

/-! ## The dictionaries of a corpus -/

/-- The dictionaries that `DictMgr` loads from the files of `build_index`. -/
def loadedDicts (maps : Maps) : SearchDicts where
  indexDict := loadIndexDict [] (indexFile maps)
  wordDocFreqDict := loadWordDocFreqDict [] (wordDocFreqFile maps)
  docLengthDict := loadDocLengthDict [] (docLengthFile maps)

/-- A line of two fields for a document. -/
def isLineOf (id : ℤ) (line : Bytes) : Bool :=
  match split line [tab] with
  | [val₀, _] => atoi val₀ = id
  | _ => false

/-- The length of the last line for a document. -/
def lastLength (lines : List Bytes) (id : ℤ) : ℕ :=
  ((lines.filter (isLineOf id)).getLast?.map List.length).getD 0

/-- Every term of the index has at most 230000 lines, the sum in the divisor of its postings is
positive and their counters can be doubled, all of them being of the type `int`. -/
def Rankable (segment : Bytes → List Bytes) (lines : List Bytes) : Prop :=
  ∀ term, 3 ≤ term.length → occurrences segment lines term ≠ [] →
    0 ≤ wrapInt (occurrences segment lines term).length ∧
      wrapInt (occurrences segment lines term).length ≤ 230000 ∧
      ∀ o ∈ occurrences segment lines term,
        0 < 32 * wrapInt o.2 + 3 * wrapInt (lastLength lines o.1) + 8 ∧
          -2 ^ 30 ≤ wrapInt o.2 ∧ wrapInt o.2 < 2 ^ 30

lemma docLength_foldl_addPosting (id : ℤ) (cntMap : List (Bytes × ℤ)) (maps : Maps) :
    (cntMap.foldl (addPosting id) maps).docLength = maps.docLength := by
  induction cntMap generalizing maps with
  | nil => rfl
  | cons e cntMap ih => exact ih _

/-- A line sets the length of its document. -/
lemma find_docLength_addLine (segment : Bytes → List Bytes) (maps : Maps) (line : Bytes) (id : ℤ) :
    find id (addLine segment maps line).docLength =
      if isLineOf id line then some (wrapInt line.length) else find id maps.docLength := by
  rw [addLine]
  split
  · next val₀ val₁ hsplit =>
    have hline : isLineOf id line = decide (atoi val₀ = id) := by rw [isLineOf, hsplit]
    rw [docLength_foldl_addPosting, hline]
    show find id (set (atoi val₀) (wrapInt line.length) maps.docLength) = _
    rw [find_set]
    by_cases hid : id = atoi val₀
    · simp [hid]
    · simp [hid, Ne.symm hid]
  · next hsplit =>
    have hline : isLineOf id line = false := by
      rw [isLineOf]
      split
      · next val₀ val₁ h => exact absurd h (hsplit val₀ val₁)
      · rfl
    rw [hline]
    rfl

/-- The reading loop keeps the length of the last line of each document. -/
lemma find_docLength_foldl (segment : Bytes → List Bytes) (lines : List Bytes) (maps : Maps)
    (id : ℤ) :
    find id (lines.foldl (addLine segment) maps).docLength =
      ((lines.filter (isLineOf id)).getLast?.map fun line => wrapInt line.length).or
        (find id maps.docLength) := by
  induction lines generalizing maps with
  | nil => rfl
  | cons line lines ih =>
    rw [List.foldl_cons, ih, find_docLength_addLine]
    cases hline : isLineOf id line with
    | false => rw [List.filter_cons_of_neg (by simp [hline])]; rfl
    | true =>
      rw [List.filter_cons_of_pos hline, List.getLast?_cons]
      cases (lines.filter (isLineOf id)).getLast? <;> rfl

lemma lengthOf_buildMaps (segment : Bytes → List Bytes) (corpus : Bytes) (id : ℤ) :
    lengthOf (buildMaps segment corpus).docLength id =
      wrapInt (lastLength (getLines corpus) id) := by
  rw [lengthOf, buildMaps, find_docLength_foldl, lastLength]
  have hzero : wrapInt ((0 : ℕ) : ℤ) = ((0 : ℕ) : ℤ) := isInt_of_lt (by norm_num)
  cases ((getLines corpus).filter (isLineOf id)).getLast? with
  | none =>
    rw [Option.map_none, Option.map_none, Option.none_or, Option.getD_none, hzero]
    rfl
  | some line =>
    rw [Option.map_some, Option.map_some, Option.some_or, Option.getD_some, Option.getD_some]

section corpus

variable {segment : Bytes → List Bytes} (hseg : ∀ s, ∀ t ∈ segment s, Writable t)

include hseg

/-- The entries of the loaded index. -/
lemma find_loadedDicts (corpus term : Bytes) (postings : List ReverseIndex) :
    find term (loadedDicts (buildMaps segment corpus)).indexDict = some postings ↔
      3 ≤ term.length ∧ occurrences segment (getLines corpus) term ≠ [] ∧
        postings = (occurrences segment (getLines corpus) term).map fun o =>
          ⟨o.1, wrapInt o.2⟩ := by
  have hok := ok_buildMaps hseg corpus
  have hindex : (loadedDicts (buildMaps segment corpus)).indexDict = _ := hok.loadIndexDict
  have hdesc := (describesInt_buildMaps segment corpus term).index
  rw [hindex, ← (hok.index_sorted.filter _).mem_iff_find, List.mem_filter,
    hok.index_sorted.mem_iff_find, hdesc]
  by_cases hocc : occurrences segment (getLines corpus) term = []
  · simp [hocc]
  · simp only [hocc, if_false, Option.some.injEq, ne_eq, not_false_eq_true, true_and,
      Bool.not_eq_true', decide_eq_false_iff_not, not_lt]
    exact ⟨fun h => ⟨h.2, h.1.symm⟩, fun h => ⟨h.2.symm, h.1⟩⟩

lemma termCnt_loadedDicts (corpus term : Bytes)
    (hocc : occurrences segment (getLines corpus) term ≠ []) :
    (loadedDicts (buildMaps segment corpus)).termCnt term =
      wrapInt (occurrences segment (getLines corpus) term).length := by
  have hfreq : (loadedDicts (buildMaps segment corpus)).wordDocFreqDict =
      (buildMaps segment corpus).wordDocFreq := (ok_buildMaps hseg corpus).freq.load
  have hdesc := (describesInt_buildMaps segment corpus term).wordDocFreq
  rw [if_neg hocc] at hdesc
  rw [SearchDicts.termCnt, hfreq, hdesc]

lemma lengthOf_loadedDicts (corpus : Bytes) (id : ℤ) :
    lengthOf (loadedDicts (buildMaps segment corpus)).docLengthDict id =
      wrapInt (lastLength (getLines corpus) id) := by
  have hlength : (loadedDicts (buildMaps segment corpus)).docLengthDict =
      (buildMaps segment corpus).docLength := (ok_buildMaps hseg corpus).loadDocLengthDict
  rw [hlength, lengthOf_buildMaps]

lemma argsPositive_loadedDicts (K : Type) [Field K] [LinearOrder K] [IsStrictOrderedRing K]
    (corpus : Bytes) :
    ArgsPositive K (loadedDicts (buildMaps segment corpus)) ↔ Rankable segment (getLines corpus) := by
  rw [argsPositive_iff]
  constructor
  · intro h term hlen hocc
    obtain ⟨hlow, hhigh, hdiv⟩ := h term _
      ((find_loadedDicts hseg corpus term _).mpr ⟨hlen, hocc, rfl⟩)
    rw [termCnt_loadedDicts hseg corpus term hocc] at hlow hhigh
    refine ⟨hlow, hhigh, fun o ho => ?_⟩
    have hpos := hdiv ⟨o.1, wrapInt o.2⟩ (List.mem_map_of_mem ho)
    rw [lengthOf_loadedDicts hseg] at hpos
    dsimp only at hpos
    exact hpos
  · intro h term postings hfind
    obtain ⟨hlen, hocc, rfl⟩ := (find_loadedDicts hseg corpus term postings).mp hfind
    obtain ⟨hlow, hhigh, hdiv⟩ := h term hlen hocc
    rw [termCnt_loadedDicts hseg corpus term hocc]
    refine ⟨hlow, hhigh, fun t ht => ?_⟩
    obtain ⟨o, ho, rfl⟩ := List.mem_map.mp ht
    rw [lengthOf_loadedDicts hseg]
    dsimp only
    exact hdiv o ho

/-- **The ranking is defined** exactly for the corpora in which each term of the index has at most
230000 lines and the counters of its postings neither make a divisor negative nor overflow. -/
theorem rankingDefined_iff {K : Type} [Field K] [LinearOrder K] [IsStrictOrderedRing K]
    (log : K → K) (corpus : Bytes) :
    RankingDefined log (loadedDicts (buildMaps segment corpus)) ↔
      Rankable segment (getLines corpus) := by
  rw [← argsPositive_loadedDicts hseg K]
  exact ⟨fun h => h.toArgsPositive, fun h => h.rankingDefined log⟩

end corpus

lemma lastLength_lt {lines : List Bytes} (hlines : ∀ line ∈ lines, line.length < 2 ^ 31) (id : ℤ) :
    lastLength lines id < 2 ^ 31 := by
  rw [lastLength]
  cases hlast : (lines.filter (isLineOf id)).getLast? with
  | none => exact (by norm_num : 0 < 2 ^ 31)
  | some line => exact hlines line (List.mem_of_mem_filter (List.mem_of_getLast? hlast))

/-- A corpus of at most 230000 lines can be ranked when no line is too long and no text has too
many terms for an `int`. -/
lemma rankable_of_small {segment : Bytes → List Bytes} {lines : List Bytes}
    (hlen : lines.length ≤ 230000) (hlines : ∀ line ∈ lines, line.length < 2 ^ 31)
    (hseg : ∀ line ∈ lines, ∀ r ∈ parseLine segment line, r.2.length < 2 ^ 30) :
    Rankable segment lines := by
  intro term _ _
  have hle : (occurrences segment lines term).length ≤ 230000 :=
    (List.length_filterMap_le _ _).trans hlen
  have hfreq : wrapInt (occurrences segment lines term).length =
      (occurrences segment lines term).length := isInt_of_lt (by omega)
  refine ⟨by omega, by omega, fun o ho => ?_⟩
  have hcnt : o.2 < 2 ^ 30 := by
    obtain ⟨line, hline, hocc⟩ := List.mem_filterMap.mp ho
    rw [occurrence] at hocc
    split at hocc
    · next id segResults hparse =>
      have hresults : segResults.length < 2 ^ 30 := hseg line hline _ hparse
      split at hocc
      · cases hocc
      · cases hocc
        exact List.count_le_length.trans_lt hresults
    · cases hocc
  have hwrapCnt : wrapInt o.2 = o.2 := isInt_of_lt (by omega)
  have hwrapLen : wrapInt (lastLength lines o.1) = lastLength lines o.1 :=
    isInt_of_lt (lastLength_lt hlines o.1)
  omega

theorem rankingDefined_two :
    RankingDefined (fun x : ℚ => x) (loadedDicts (buildMaps wholeText (bytes "7\tabc\n8\tab\n"))) :=
  (rankingDefined_iff writable_wholeText (fun x : ℚ => x) _).mpr
    (rankable_of_small (by decide) (by decide) (by decide))

/-- The occurrences of a term that is the text of all documents. -/
lemma occurrences_range {n : ℕ} (hn : n < 2 ^ 31) :
    occurrences wholeText (getLines (unlines ((List.range n).map fun i : ℕ =>
        dictLine (numToStr i) (bytes "abc")))) (bytes "abc") =
      (List.range n).map fun i : ℕ => ((i : ℤ), 1) := by
  have htext : Writable (bytes "abc") := by
    constructor <;> decide
  have hcount : (wholeText (bytes "abc")).count (bytes "abc") = 1 := by decide
  have hlines : ∀ l ∈ (List.range n).map (fun i : ℕ => dictLine (numToStr i) (bytes "abc")),
      lf ∉ l := by
    intro l hl
    obtain ⟨i, -, rfl⟩ := List.mem_map.mp hl
    exact (writable_numToStr i).dictLine htext
  rw [getLines_unlines hlines, occurrences, List.filterMap_map, ← List.filterMap_eq_map]
  refine List.filterMap_congr fun i hi => ?_
  have hint : IsInt i := isInt_of_lt ((List.mem_range.mp hi).trans hn)
  have hsplit := split_dictLine (writable_numToStr i).1 htext.1 (by decide)
  show occurrence wholeText (bytes "abc") (dictLine (numToStr i) (bytes "abc")) = some ((i : ℤ), 1)
  rw [occurrence, parseLine, hsplit]
  simp only [hcount, one_ne_zero, if_false, atoi_numToStr hint]

/-- A corpus of 230001 documents with the same term. -/
theorem not_rankingDefined :
    ¬ ∀ segment : Bytes → List Bytes, (∀ s, ∀ t ∈ segment s, Writable t) → ∀ corpus,
      RankingDefined (fun x : ℚ => x) (loadedDicts (buildMaps segment corpus)) := by
  intro h
  have hdef := h wholeText writable_wholeText (unlines ((List.range 230001).map fun i : ℕ =>
    dictLine (numToStr i) (bytes "abc")))
  have hrank := (argsPositive_loadedDicts writable_wholeText ℚ _).mp hdef.toArgsPositive
  have hlen : (occurrences wholeText (getLines (unlines ((List.range 230001).map fun i : ℕ =>
      dictLine (numToStr i) (bytes "abc")))) (bytes "abc")).length = 230001 := by
    rw [occurrences_range (by norm_num), List.length_map, List.length_range]
  have hne : occurrences wholeText (getLines (unlines ((List.range 230001).map fun i : ℕ =>
      dictLine (numToStr i) (bytes "abc")))) (bytes "abc") ≠ [] := by
    intro hnil
    rw [hnil] at hlen
    cases hlen
  obtain ⟨-, hhigh, -⟩ := hrank (bytes "abc") (by decide) hne
  have hwrap : wrapInt ((230001 : ℕ) : ℤ) = (230001 : ℕ) := isInt_of_lt (by norm_num)
  rw [hlen, hwrap] at hhigh
  omega

end Plugin
end Sunet
