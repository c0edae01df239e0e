/-
# The ranking of `SearchStrategy`

For every term of the query and every posting of the term, the document of the posting gains
the product of the weight of the term and the relevance of the posting.  The scores are kept
in a map over the documents, whose entries are then sorted.

The arithmetic is that of a field, the logarithm and the sorting function are parameters.  The
look-up of a document's length with `operator[]` puts a length of 0 into the map when there is
none; so the lengths are part of the state.
-/
import Sunet.Index.Build
import Sunet.Plugin.Page

namespace Sunet
namespace Plugin

open SortedMap Index

/-- The dictionaries of `SearchStrategy`. -/
structure SearchDicts where
  indexDict : List (Bytes × List ReverseIndex)
  wordDocFreqDict : List (Bytes × ℤ)
  docLengthDict : List (ℤ × ℤ)
deriving DecidableEq, Repr

/-- `term_cnt`. -/
def SearchDicts.termCnt (dicts : SearchDicts) (term : Bytes) : ℤ :=
  match find term dicts.wordDocFreqDict with
  | some cnt => cnt
  | none => 0

/-- `_doc_length_dict[doc_id]`: the length and the map after the look-up. -/
def docLengthAt (docId : ℤ) (docLengthDict : List (ℤ × ℤ)) : ℤ × List (ℤ × ℤ) :=
  match find docId docLengthDict with
  | some length => (length, docLengthDict)
  | none => (0, set docId 0 docLengthDict)

section field

variable {K : Type} [Field K] [LinearOrder K] (log : K → K)

/-- `cmp`. -/
def cmp (lhs rhs : ℤ × K) : Bool := decide (lhs.2 > rhs.2)

/-- `idf`. -/
def idf (termCnt : ℤ) : K := log ((((230000 - termCnt : ℤ) : K) + 1 / 2) / ((termCnt : K) + 1 / 2))

/-- `rel`. -/
def rel (cnt length : ℤ) : K :=
  ((cnt * 2 : ℤ) : K) * 1 / ((cnt : K) + 1 / 4 + 3 / 4 * (length : K) / 8)

/-- `doc_score` and `_doc_length_dict`. -/
structure Scores (K : Type) where
  docScore : List (ℤ × K)
  docLengthDict : List (ℤ × ℤ)

/-- The body of the loop over the postings of a term. -/
def addPostingScore (idf : K) (st : Scores K) (t : ReverseIndex) : Scores K :=
  let docScore :=
    match find t.docId st.docScore with
    | none => set t.docId 0 st.docScore
    | some _ => st.docScore
  let (length, docLengthDict) := docLengthAt t.docId st.docLengthDict
  ⟨set t.docId ((find t.docId docScore).getD 0 + idf * rel t.cnt length) docScore, docLengthDict⟩

/-- The body of the loop over the terms of the query. -/
def addTermScore (dicts : SearchDicts) (st : Scores K) (term : Bytes) : Scores K :=
  match find term dicts.indexDict with
  | none => st
  | some searchResults => searchResults.foldl (addPostingScore (idf log (dicts.termCnt term))) st

/-- The loop over the terms and the sorting: the lengths and the ranked list. -/
def rank (sort : List (ℤ × K) → List (ℤ × K)) (dicts : SearchDicts) (terms : List Bytes) :
    List (ℤ × ℤ) × List (ℤ × K) :=
  let st := terms.foldl (addTermScore log dicts) ⟨[], dicts.docLengthDict⟩
  (st.docLengthDict, sort st.docScore)

/-- What `_process` puts under `root["search"]`. -/
inductive Answer (K : Type)
  /-- The message `seg_error`. -/
  | segError
  /-- The message `none`. -/
  | none
  /-- The message `ok`, the records and the numbers for the pages. -/
  | ok (vars : PageVars) (result : List (ℤ × K))

/-- `SearchStrategy::_process` for the page of the request and the terms under `root["seg"]`. -/
def process (sort : List (ℤ × K) → List (ℤ × K)) (dicts : SearchDicts) (page : ℤ)
    (seg : List Bytes) : Option (SearchDicts × Answer K) :=
  if seg.length = 0 then some (dicts, .segError)
  else do
    let (docLengthDict, docScoreVec) := rank log sort dicts seg
    let (vars, result) ← pageOf docScoreVec page
    some ({ dicts with docLengthDict := docLengthDict },
      if result.length = 0 then .none else .ok vars result)

/-!
## The loop with numbers that can be undefined

A `float` that is NaN or infinite is `none`, and so is an `int` that overflows.
-/

/-- The argument of the logarithm in the weight of a term. -/
def idfArg (termCnt : ℤ) : K := (((230000 - termCnt : ℤ) : K) + 1 / 2) / ((termCnt : K) + 1 / 2)

/-- The divisor in the relevance of a posting. -/
def relDivisor (cnt length : ℤ) : K := (cnt : K) + 1 / 4 + 3 / 4 * (length : K) / 8

/-- The logarithm, `none` for NaN and infinity. -/
def logNum (x : K) : Option K := if 0 < x then some (log x) else none

/-- A division, `none` for NaN and infinity. -/
def divNum (x y : K) : Option K := if y = 0 then none else some (x / y)

/-- `idf`. -/
def idfNum (termCnt : ℤ) : Option K := do
  let rest ← checkInt (230000 - termCnt)
  let arg ← divNum ((rest : K) + 1 / 2) ((termCnt : K) + 1 / 2)
  logNum log arg

/-- `rel`. -/
def relNum (cnt length : ℤ) : Option K := do
  let twice ← checkInt (cnt * 2)
  divNum ((twice : K) * 1) (relDivisor cnt length)

/-- The body of the loop over the postings of a term. -/
def addPostingNum (idf : Option K) (st : Scores (Option K)) (t : ReverseIndex) :
    Scores (Option K) :=
  let docScore :=
    match find t.docId st.docScore with
    | none => set t.docId (some 0) st.docScore
    | some _ => st.docScore
  let (length, docLengthDict) := docLengthAt t.docId st.docLengthDict
  let gain := Option.map₂ (· * ·) idf (relNum t.cnt length)
  ⟨set t.docId (Option.map₂ (· + ·) ((find t.docId docScore).getD (some 0)) gain) docScore,
    docLengthDict⟩

/-- The body of the loop over the terms of the query. -/
def addTermNum (dicts : SearchDicts) (st : Scores (Option K)) (term : Bytes) : Scores (Option K) :=
  match find term dicts.indexDict with
  | none => st
  | some searchResults => searchResults.foldl (addPostingNum (idfNum log (dicts.termCnt term))) st

/-- `doc_score_vec` in front of the sorting. -/
def docScoreVec (dicts : SearchDicts) (terms : List Bytes) : List (ℤ × Option K) :=
  (terms.foldl (addTermNum log dicts) ⟨[], dicts.docLengthDict⟩).docScore

/-- `cmp`: a comparison with NaN is false. -/
def cmpNum (lhs rhs : ℤ × Option K) : Bool :=
  match lhs.2, rhs.2 with
  | some x, some y => decide (x > y)
  | _, _ => false

/-! ## The score of a document -/

/-- The postings of a term. -/
def SearchDicts.postings (dicts : SearchDicts) (term : Bytes) : List ReverseIndex :=
  (find term dicts.indexDict).getD []

/-- The length of a document, 0 when it is unknown. -/
def lengthOf (docLengthDict : List (ℤ × ℤ)) (docId : ℤ) : ℤ := (find docId docLengthDict).getD 0

/-- What a document gains from a posting of a term with the weight `w`. -/
def gain (docLengthDict : List (ℤ × ℤ)) (w : K) (docId : ℤ) (t : ReverseIndex) : K :=
  if t.docId = docId then w * rel t.cnt (lengthOf docLengthDict docId) else 0

/-- The score of a document: the sum over the terms of the query and their postings. -/
def score (dicts : SearchDicts) (terms : List Bytes) (docId : ℤ) : K :=
  (terms.map fun term =>
    ((dicts.postings term).map
      (gain dicts.docLengthDict (idf log (dicts.termCnt term)) docId)).sum).sum

/-- A run that adds `amount` to the scores and comes across the documents in `docs`. -/
structure Gains (st st' : Scores K) (amount : ℤ → K) (docs : Set ℤ) : Prop where
  sorted : Sorted st.docScore → Sorted st'.docScore
  score : ∀ d, (find d st'.docScore).getD 0 = (find d st.docScore).getD 0 + amount d
  known : ∀ d, find d st'.docScore ≠ none ↔ find d st.docScore ≠ none ∨ d ∈ docs
  length : ∀ d, lengthOf st'.docLengthDict d = lengthOf st.docLengthDict d

section gains

omit [LinearOrder K]

lemma Gains.refl (st : Scores K) : Gains st st (fun _ => 0) ∅ where
  sorted h := h
  score d := (add_zero _).symm
  known d := by simp
  length d := rfl

lemma Gains.trans {st st' st'' : Scores K} {f g : ℤ → K} {D E : Set ℤ} (h : Gains st st' f D)
    (h' : Gains st' st'' g E) : Gains st st'' (fun d => f d + g d) (D ∪ E) where
  sorted hs := h'.sorted (h.sorted hs)
  score d := by rw [h'.score, h.score, add_assoc]
  known d := by rw [h'.known, h.known, or_assoc, Set.mem_union]
  length d := by rw [h'.length, h.length]

lemma lengthOf_docLengthAt (docId : ℤ) (docLengthDict : List (ℤ × ℤ)) :
    (docLengthAt docId docLengthDict).1 = lengthOf docLengthDict docId ∧
      ∀ d, lengthOf (docLengthAt docId docLengthDict).2 d = lengthOf docLengthDict d := by
  rw [docLengthAt, lengthOf]
  cases hfind : find docId docLengthDict with
  | some length => exact ⟨rfl, fun _ => rfl⟩
  | none =>
    refine ⟨rfl, fun d => ?_⟩
    show lengthOf (set docId 0 docLengthDict) d = _
    rw [lengthOf, lengthOf, find_set]
    split
    · next hd => rw [hd, hfind]; rfl
    · rfl

/-- One posting adds its gain to the score of its document. -/
lemma gains_addPostingScore (w : K) (st : Scores K) (t : ReverseIndex) :
    Gains st (addPostingScore w st t) (fun d => gain st.docLengthDict w d t) {t.docId} := by
  obtain ⟨hlength, hlengths⟩ := lengthOf_docLengthAt t.docId st.docLengthDict
  -- the score the addition starts from is 0 for a document that is met for the first time
  obtain ⟨docScore, hdocScore, hsorted, hstart, hother⟩ : ∃ docScore,
      (match find t.docId st.docScore with
        | none => set t.docId 0 st.docScore
        | some _ => st.docScore) = docScore ∧ (Sorted st.docScore → Sorted docScore) ∧
      (find t.docId docScore).getD 0 = (find t.docId st.docScore).getD 0 ∧
      ∀ d, d ≠ t.docId → find d docScore = find d st.docScore := by
    refine ⟨_, rfl, ?_, ?_, ?_⟩
    · intro hs
      split
      · exact hs.set _ _
      · exact hs
    · split
      · next hnone => rw [find_set_self, hnone]; rfl
      · rfl
    · intro d hd
      split
      · exact find_set_of_ne hd _ _
      · rfl
  have hst : addPostingScore w st t =
      ⟨set t.docId ((find t.docId st.docScore).getD 0 +
        w * rel t.cnt (lengthOf st.docLengthDict t.docId)) docScore,
        (docLengthAt t.docId st.docLengthDict).2⟩ := by
    rw [addPostingScore]
    simp only [hdocScore, hstart, hlength]
  rw [hst]
  refine ⟨fun hs => (hsorted hs).set _ _, fun d => ?_, fun d => ?_, hlengths⟩
  · show (find d (set t.docId _ docScore)).getD 0 = _
    rw [find_set, gain]
    by_cases hd : d = t.docId
    · rw [if_pos hd, if_pos hd.symm, hd]
      rfl
    · rw [if_neg hd, if_neg (Ne.symm hd), add_zero, hother d hd]
  · show find d (set t.docId _ docScore) ≠ none ↔ _
    rw [find_set, Set.mem_singleton_iff]
    by_cases hd : d = t.docId
    · simp [hd]
    · simp [hd, hother d hd]

/-! The documents that a loop comes across, one element of its list after the other. -/

lemma docs_nil {α β : Type} (p : α → β → Prop) : {d | ∃ x ∈ ([] : List α), p x d} = ∅ := by
  ext d
  simp

lemma docs_cons {α β : Type} (p : α → β → Prop) (x : α) (l : List α) :
    {d | ∃ x' ∈ x :: l, p x' d} = {d | p x d} ∪ {d | ∃ x' ∈ l, p x' d} := by
  ext d
  simp

lemma postingDocs_cons (t : ReverseIndex) (postings : List ReverseIndex) :
    {d | ∃ t' ∈ t :: postings, t'.docId = d} =
      {t.docId} ∪ {d | ∃ t' ∈ postings, t'.docId = d} := by
  rw [docs_cons fun (t' : ReverseIndex) d => t'.docId = d, Set.ofPred_eq_eq_singleton']

lemma gain_congr {docLengthDict docLengthDict' : List (ℤ × ℤ)}
    (h : ∀ d, lengthOf docLengthDict d = lengthOf docLengthDict' d) (w : K) (d : ℤ) :
    gain docLengthDict w d = gain docLengthDict' w d := by
  funext t
  rw [gain, gain, h d]

/-- The loop over the postings of a term. -/
lemma gains_postings (w : K) (postings : List ReverseIndex) (st : Scores K) :
    Gains st (postings.foldl (addPostingScore w) st)
      (fun d => (postings.map (gain st.docLengthDict w d)).sum)
      {d | ∃ t ∈ postings, t.docId = d} := by
  induction postings generalizing st with
  | nil =>
    rw [docs_nil fun (t : ReverseIndex) d => t.docId = d]
    exact Gains.refl st
  | cons t postings ih =>
    have hfirst := gains_addPostingScore w st t
    have hrest := hfirst.trans (ih (addPostingScore w st t))
    have hsum : (fun d => ((t :: postings).map (gain st.docLengthDict w d)).sum) = fun d =>
        gain st.docLengthDict w d t +
          (postings.map (gain (addPostingScore w st t).docLengthDict w d)).sum := by
      funext d
      rw [List.map_cons, List.sum_cons, gain_congr hfirst.length]
    rw [List.foldl_cons, postingDocs_cons, hsum]
    exact hrest

/-- The gains for the terms of a query, the lengths being those of `docLengthDict`. -/
def termGain (dicts : SearchDicts) (docLengthDict : List (ℤ × ℤ)) (docId : ℤ) (term : Bytes) : K :=
  ((dicts.postings term).map
    (gain docLengthDict (idf log (dicts.termCnt term)) docId)).sum

lemma gains_addTermScore (dicts : SearchDicts) (st : Scores K) (term : Bytes) :
    Gains st (addTermScore log dicts st term)
      (fun d => termGain log dicts st.docLengthDict d term)
      {d | ∃ t ∈ dicts.postings term, t.docId = d} := by
  simp only [addTermScore, termGain, SearchDicts.postings]
  cases find term dicts.indexDict with
  | some postings => exact gains_postings _ postings st
  | none =>
    rw [Option.getD_none, docs_nil fun (t : ReverseIndex) d => t.docId = d]
    exact Gains.refl st

/-- The loop over the terms. -/
lemma gains_terms (dicts : SearchDicts) (terms : List Bytes) (st : Scores K) :
    Gains st (terms.foldl (addTermScore log dicts) st)
      (fun d => (terms.map (termGain log dicts st.docLengthDict d)).sum)
      {d | ∃ term ∈ terms, ∃ t ∈ dicts.postings term, t.docId = d} := by
  induction terms generalizing st with
  | nil =>
    rw [docs_nil fun term d => ∃ t ∈ dicts.postings term, t.docId = d]
    exact Gains.refl st
  | cons term terms ih =>
    have hfirst := gains_addTermScore log dicts st term
    have hrest := hfirst.trans (ih (addTermScore log dicts st term))
    have hsum : (fun d => ((term :: terms).map (termGain log dicts st.docLengthDict d)).sum) =
        fun d => termGain log dicts st.docLengthDict d term +
          (terms.map (termGain log dicts (addTermScore log dicts st term).docLengthDict d)).sum := by
      funext d
      have hcongr : termGain log dicts (addTermScore log dicts st term).docLengthDict d =
          termGain log dicts st.docLengthDict d := by
        funext term'
        rw [termGain, termGain, gain_congr hfirst.length]
      rw [List.map_cons, List.sum_cons, hcongr]
    rw [List.foldl_cons, docs_cons fun term d => ∃ t ∈ dicts.postings term, t.docId = d, hsum]
    exact hrest

end gains

/-! ## The ranked list -/

/-- A function that sorts for `cmp`. -/
structure Sorts (sort : List (ℤ × K) → List (ℤ × K)) : Prop where
  perm : ∀ vec, (sort vec).Perm vec
  ordered : ∀ vec, (sort vec).Pairwise fun lhs rhs => cmp rhs lhs = false

/-- A document with its score is in the ranked list exactly when some posting of the query is
a posting for it. -/
lemma mem_rank {sort : List (ℤ × K) → List (ℤ × K)} (hsort : Sorts sort) (dicts : SearchDicts)
    (terms : List Bytes) (d : ℤ) (s : K) :
    (d, s) ∈ (rank log sort dicts terms).2 ↔
      (∃ term ∈ terms, ∃ t ∈ dicts.postings term, t.docId = d) ∧ s = score log dicts terms d := by
  have h := gains_terms log dicts terms ⟨[], dicts.docLengthDict⟩
  have hsorted := h.sorted List.Pairwise.nil
  have hscore := h.score d
  have hknown := h.known d
  rw [rank, (hsort.perm _).mem_iff, hsorted.mem_iff_find]
  simp only [find_nil, Option.getD_none, zero_add] at hscore
  simp only [find_nil, ne_eq, not_true_eq_false, false_or, Set.mem_ofPred_eq] at hknown
  rw [← hknown]
  cases hfind : find d (terms.foldl (addTermScore log dicts) ⟨[], dicts.docLengthDict⟩).docScore with
  | none => simp
  | some s' =>
    rw [hfind, Option.getD_some] at hscore
    have hs' : s' = score log dicts terms d := hscore
    simp [hs', eq_comm]

omit [LinearOrder K] in
/-- The score, written out: over the terms and their postings for the document, the weight of the
term times the relevance of the posting. -/
lemma score_eq (dicts : SearchDicts) (terms : List Bytes) (docId : ℤ) :
    score log dicts terms docId = (terms.map fun term => ((dicts.postings term).map fun t =>
      if t.docId = docId then
        log (((230000 - dicts.termCnt term : ℤ) + 1 / 2) / (dicts.termCnt term + 1 / 2)) *
          ((t.cnt * 2 : ℤ) * 1 /
            (t.cnt + 1 / 4 + 3 / 4 * (lengthOf dicts.docLengthDict docId : K) / 8))
      else 0).sum).sum := rfl

/-- **The ranking is what its definition says.**  The ranked list has each document that occurs
in a posting of the query once, with its score, and no other; the scores do not increase, and
the order of the terms does not change them. -/
theorem rank_spec {sort : List (ℤ × K) → List (ℤ × K)} (hsort : Sorts sort) (dicts : SearchDicts)
    (terms : List Bytes) :
    let ranked := (rank log sort dicts terms).2
    (ranked.map Prod.fst).Nodup ∧
      (∀ d, d ∈ ranked.map Prod.fst ↔
        ∃ term ∈ terms, ∃ t ∈ dicts.postings term, t.docId = d) ∧
      (∀ e ∈ ranked, e.2 = score log dicts terms e.1) ∧
      ranked.Pairwise (fun lhs rhs => rhs.2 ≤ lhs.2) ∧
      ∀ terms', terms'.Perm terms → ∀ e, e ∈ (rank log sort dicts terms').2 ↔ e ∈ ranked := by
  intro ranked
  have hmem := mem_rank log hsort dicts terms
  refine ⟨?_, ?_, ?_, ?_, ?_⟩
  · have h := gains_terms log dicts terms ⟨[], dicts.docLengthDict⟩
    have hsorted := h.sorted List.Pairwise.nil
    exact ((hsort.perm _).map Prod.fst).nodup_iff.mpr (hsorted.imp fun hlt => ne_of_lt hlt)
  · intro d
    constructor
    · intro hd
      obtain ⟨⟨d', s⟩, he, rfl⟩ := List.mem_map.mp hd
      exact ((hmem d' s).mp he).1
    · intro hd
      exact List.mem_map.mpr ⟨_, (hmem d _).mpr ⟨hd, rfl⟩, rfl⟩
  · intro e he
    exact ((hmem e.1 e.2).mp he).2
  · refine (hsort.ordered _).imp fun {lhs rhs} h => ?_
    rw [cmp, decide_eq_false_iff_not] at h
    exact not_lt.mp h
  · intro terms' hperm e
    have hscore : score log dicts terms' e.1 = score log dicts terms e.1 :=
      (hperm.map _).sum_eq
    have hdocs : (∃ term ∈ terms', ∃ t ∈ dicts.postings term, t.docId = e.1) ↔
        ∃ term ∈ terms, ∃ t ∈ dicts.postings term, t.docId = e.1 := by
      simp only [hperm.mem_iff]
    rw [show e = (e.1, e.2) from rfl, mem_rank log hsort, hmem e.1 e.2, hscore, hdocs]

end field

/-- The sorting function of the core library sorts for `cmp`. -/
lemma sorts_mergeSort : Sorts (K := ℚ) (fun vec => vec.mergeSort fun lhs rhs => decide (rhs.2 ≤ lhs.2)) where
  perm vec := List.mergeSort_perm vec _
  ordered vec := by
    refine (List.pairwise_mergeSort ?_ ?_ vec).imp fun {lhs rhs} h => ?_
    · intro a b c hab hbc
      exact decide_eq_true ((of_decide_eq_true hbc).trans (of_decide_eq_true hab))
    · intro a b
      rw [Bool.or_eq_true, decide_eq_true_eq, decide_eq_true_eq]
      exact le_total _ _
    · rw [cmp, decide_eq_false_iff_not]
      exact not_lt.mpr (of_decide_eq_true h)

/-- A term with two postings, the second of them for a document without a length. -/
def twoPostings : SearchDicts :=
  ⟨[(bytes "a", [⟨1, 2⟩, ⟨2, 1⟩])], [(bytes "a", 2)], [(1, 8)]⟩

theorem rank_spec_two :
    let sort : List (ℤ × ℚ) → List (ℤ × ℚ) :=
      fun vec => vec.mergeSort fun lhs rhs => decide (rhs.2 ≤ lhs.2)
    let terms := [bytes "a", bytes "b"]
    let ranked := (rank (fun x => x) sort twoPostings terms).2
    (ranked.map Prod.fst).Nodup ∧
      (∀ d, d ∈ ranked.map Prod.fst ↔
        ∃ term ∈ terms, ∃ t ∈ twoPostings.postings term, t.docId = d) ∧
      (∀ e ∈ ranked, e.2 = score (fun x => x) twoPostings terms e.1) ∧
      ranked.Pairwise (fun lhs rhs => rhs.2 ≤ lhs.2) ∧
      ∀ terms', terms'.Perm terms → ∀ e,
        e ∈ (rank (fun x => x) sort twoPostings terms').2 ↔ e ∈ ranked :=
  rank_spec _ sorts_mergeSort _ _

end Plugin
end Sunet
