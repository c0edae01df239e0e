/-
# What a search does to the dictionaries

`_process` reads three dictionaries that all worker threads share.  The index and the document
frequencies are looked up with `find`; the length of a document is looked up with `operator[]`,
which puts an entry into the map when there is none.  So a search leaves the dictionaries as
they were exactly when every posting it comes across is one of a document with a length.
-/
import Sunet.Plugin.Search

namespace Sunet
namespace Plugin

open SortedMap Index

variable {K : Type} [Field K] (log : K → K)

/-- The dictionaries when the loop over the terms has ended; nothing behind it touches them. -/
def dictsAfter (dicts : SearchDicts) (seg : List Bytes) : SearchDicts :=
  { dicts with
    docLengthDict := (seg.foldl (addTermScore log dicts) ⟨[], dicts.docLengthDict⟩).docLengthDict }

/-- A search that returns leaves the dictionaries as they are behind the loop. -/
lemma process_dicts [LinearOrder K] {sort : List (ℤ × K) → List (ℤ × K)} {dicts dicts' : SearchDicts}
    {page : ℤ} {seg : List Bytes} {answer : Answer K}
    (h : process log sort dicts page seg = some (dicts', answer)) :
    dicts' = dictsAfter log dicts seg := by
  rw [process] at h
  split at h
  · next hnil =>
    rw [List.eq_nil_of_length_eq_zero hnil]
    cases h
    rfl
  · simp only [Option.bind_eq_bind, Option.bind_eq_some_iff] at h
    obtain ⟨r, -, h⟩ := h
    cases h
    rfl

/-- A run that looks up the lengths of the documents in `docs`: these have an entry afterwards,
and the map is the same when they had one before. -/
structure LooksUp (m m' : List (ℤ × ℤ)) (docs : Set ℤ) : Prop where
  known : ∀ d ∈ docs, find d m' ≠ none
  same : (∀ d ∈ docs, find d m ≠ none) → m' = m
  mono : ∀ d, find d m ≠ none → find d m' ≠ none

lemma LooksUp.refl (m : List (ℤ × ℤ)) : LooksUp m m ∅ where
  known _ hd := by cases hd
  same _ := rfl
  mono _ hd := hd

lemma LooksUp.trans {m m' m'' : List (ℤ × ℤ)} {D E : Set ℤ} (h : LooksUp m m' D)
    (h' : LooksUp m' m'' E) : LooksUp m m'' (D ∪ E) where
  known d hd := by
    rcases hd with hd | hd
    · exact h'.mono d (h.known d hd)
    · exact h'.known d hd
  same hall := by
    have hm : m' = m := h.same fun d hd => hall d (Or.inl hd)
    rw [← hm]
    exact h'.same fun d hd => hm ▸ hall d (Or.inr hd)
  mono d hd := h'.mono d (h.mono d hd)

/-- A map that looks like the one before has had an entry for every document looked up. -/
lemma LooksUp.same_iff {m m' : List (ℤ × ℤ)} {docs : Set ℤ} (h : LooksUp m m' docs) :
    m' = m ↔ ∀ d ∈ docs, find d m ≠ none := by
  constructor
  · intro hm d hd
    rw [← hm]
    exact h.known d hd
  · exact h.same

/-- `_doc_length_dict[doc_id]`. -/
lemma looksUp_docLengthAt (docId : ℤ) (m : List (ℤ × ℤ)) :
    LooksUp m (docLengthAt docId m).2 {docId} := by
  rw [docLengthAt]
  cases hfind : find docId m with
  | some length =>
    refine ⟨?_, fun _ => rfl, fun _ hd => hd⟩
    rintro d rfl
    rw [hfind]
    exact Option.some_ne_none _
  | none =>
    refine ⟨?_, fun hall => absurd hfind (hall docId rfl), ?_⟩
    · rintro d rfl
      rw [find_set_self]
      exact Option.some_ne_none _
    · intro d hd
      show find d (set docId 0 m) ≠ none
      rw [find_set]
      split
      · exact Option.some_ne_none _
      · exact hd

/-- The loop over the postings of a term. -/
lemma looksUp_postings (w : K) (postings : List ReverseIndex) (st : Scores K) :
    LooksUp st.docLengthDict (postings.foldl (addPostingScore w) st).docLengthDict
      {d | ∃ t ∈ postings, t.docId = d} := by
  induction postings generalizing st with
  | nil =>
    rw [docs_nil fun (t : ReverseIndex) d => t.docId = d]
    exact LooksUp.refl _
  | cons t postings ih =>
    have hfirst : LooksUp st.docLengthDict (addPostingScore w st t).docLengthDict {t.docId} :=
      looksUp_docLengthAt t.docId st.docLengthDict
    rw [List.foldl_cons, postingDocs_cons]
    exact hfirst.trans (ih _)

lemma looksUp_addTermScore (dicts : SearchDicts) (st : Scores K) (term : Bytes) :
    LooksUp st.docLengthDict (addTermScore log dicts st term).docLengthDict
      {d | ∃ t ∈ dicts.postings term, t.docId = d} := by
  simp only [addTermScore, SearchDicts.postings]
  cases find term dicts.indexDict with
  | some postings => exact looksUp_postings _ postings st
  | none =>
    rw [Option.getD_none, docs_nil fun (t : ReverseIndex) d => t.docId = d]
    exact LooksUp.refl _

/-- The loop over the terms. -/
lemma looksUp_terms (dicts : SearchDicts) (terms : List Bytes) (st : Scores K) :
    LooksUp st.docLengthDict (terms.foldl (addTermScore log dicts) st).docLengthDict
      {d | ∃ term ∈ terms, ∃ t ∈ dicts.postings term, t.docId = d} := by
  induction terms generalizing st with
  | nil =>
    rw [docs_nil fun term d => ∃ t ∈ dicts.postings term, t.docId = d]
    exact LooksUp.refl _
  | cons term terms ih =>
    have hfirst := looksUp_addTermScore log dicts st term
    rw [List.foldl_cons, docs_cons fun term d => ∃ t ∈ dicts.postings term, t.docId = d]
    exact hfirst.trans (ih _)

/-- **A search leaves the dictionaries alone** exactly when every posting of its terms is one of
a document with a length. -/
theorem dictsAfter_eq_iff (dicts : SearchDicts) (seg : List Bytes) :
    dictsAfter log dicts seg = dicts ↔
      ∀ term ∈ seg, ∀ t ∈ dicts.postings term, find t.docId dicts.docLengthDict ≠ none := by
  have h := (looksUp_terms log dicts seg ⟨[], dicts.docLengthDict⟩).same_iff
  have hdict : dictsAfter log dicts seg = dicts ↔
      (seg.foldl (addTermScore log dicts) ⟨[], dicts.docLengthDict⟩).docLengthDict =
        dicts.docLengthDict := by
    rw [dictsAfter]
    exact ⟨fun heq => congrArg SearchDicts.docLengthDict heq, fun heq => by rw [heq]⟩
  rw [hdict, h]
  constructor
  · exact fun hall term hterm t ht => hall t.docId ⟨term, hterm, t, ht, rfl⟩
  · rintro hall d ⟨term, hterm, t, ht, rfl⟩
    exact hall term hterm t ht

/-- A posting of a document that the file of the lengths does not have. -/
theorem not_dictsAfter_eq :
    ¬ ∀ (dicts : SearchDicts) (seg : List Bytes), dictsAfter (fun x : ℚ => x) dicts seg = dicts := by
  intro h
  have hdict := congrArg SearchDicts.docLengthDict
    (h ⟨[(bytes "abc", [⟨7, 1⟩])], [], []⟩ [bytes "abc"])
  exact absurd hdict (by decide)

end Plugin
end Sunet
