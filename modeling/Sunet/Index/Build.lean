/-
# `build_index`

The program reads a corpus line by line, segments the text of each document and counts; then
it writes its maps to files.  A line of an index file is a term, a tab and a value; the value
of `index.dict` is the posting list, whose postings are separated by `\002` and whose fields
by `\001`.  The segmentation is a parameter.

Integers are of the type `int`: they are wrapped after every operation.
-/
import Sunet.Util.StringUtil
import Sunet.Util.Numeral
import Sunet.Lib.SortedMap

namespace Sunet
namespace Index

open StringUtil Byte SortedMap

/-- `reverse_index`. -/
structure ReverseIndex where
  docId : ℤ
  cnt : ℤ
deriving DecidableEq, Repr

/-- The maps of `build_index`. -/
structure Maps where
  /-- `mps` -/
  index : List (Bytes × List ReverseIndex)
  wordFreq : List (Bytes × ℤ)
  wordDocFreq : List (Bytes × ℤ)
  docLength : List (ℤ × ℤ)
deriving DecidableEq, Repr

/-- The maps before the first line. -/
def Maps.empty : Maps := ⟨[], [], [], []⟩

/-- A counter for a term that starts from 0 and is incremented. -/
def increment (counts : List (Bytes × ℤ)) (term : Bytes) : List (Bytes × ℤ) :=
  set term (wrapInt ((find term counts).getD 0 + 1)) counts

/-- The body of the loop over `cnt_map` for a document. -/
def addPosting (id : ℤ) (maps : Maps) (entry : Bytes × ℤ) : Maps :=
  { maps with
    index := set entry.1 ((find entry.1 maps.index).getD [] ++ [⟨id, entry.2⟩]) maps.index
    wordDocFreq := increment maps.wordDocFreq entry.1 }

/-- The body of the loop over the lines of the corpus. -/
def addLine (segment : Bytes → List Bytes) (maps : Maps) (line : Bytes) : Maps :=
  match split line [tab] with
  | [val₀, val₁] =>
    let id := atoi val₀
    let segResults := segment val₁
    let maps := { maps with
      docLength := set id (wrapInt line.length) maps.docLength
      wordFreq := segResults.foldl increment maps.wordFreq }
    (segResults.foldl increment []).foldl (addPosting id) maps
  | _ => maps

/-- `build_index` up to the output. -/
def buildMaps (segment : Bytes → List Bytes) (corpus : Bytes) : Maps :=
  (getLines corpus).foldl (addLine segment) .empty

/-! ## The files -/

/-- A posting as it is written; the position is always 0. -/
def postingStr (t : ReverseIndex) : Bytes :=
  numToStr t.docId ++ [1] ++ numToStr t.cnt ++ [1] ++ [48]

/-- The output loop over a posting list. -/
def postingsStr : List ReverseIndex → Bytes
  | [] => []
  | [t] => postingStr t
  | t :: t' :: rest => postingStr t ++ 2 :: postingsStr (t' :: rest)

/-- A line of a file. -/
def dictLine (key val : Bytes) : Bytes := key ++ tab :: val

/-- `index.dict`. -/
def indexFile (maps : Maps) : Bytes :=
  unlines ((maps.index.filter fun e => !(e.1.length < 3)).map fun e =>
    dictLine e.1 (postingsStr e.2))

/-- `word_freq.dict`. -/
def wordFreqFile (maps : Maps) : Bytes :=
  unlines (maps.wordFreq.map fun e => dictLine e.1 (numToStr e.2))

/-- `word_doc_freq.dict`. -/
def wordDocFreqFile (maps : Maps) : Bytes :=
  unlines (maps.wordDocFreq.map fun e => dictLine e.1 (numToStr e.2))

/-- `doc_length.dict`. -/
def docLengthFile (maps : Maps) : Bytes :=
  unlines (maps.docLength.map fun e => dictLine (numToStr e.1) (numToStr e.2))

/-! ## Counters -/

/-- A term that can be written: it has no tab and no line feed. -/
def Writable (term : Bytes) : Prop := tab ∉ term ∧ lf ∉ term

/-- The keys of a map can be written. -/
def Clean {β : Type} (m : List (Bytes × β)) : Prop := ∀ e ∈ m, Writable e.1

/-- The values of a map are of the type `int`. -/
def Ints {κ : Type} (m : List (κ × ℤ)) : Prop := ∀ e ∈ m, IsInt e.2

lemma Clean.set {β : Type} {m : List (Bytes × β)} (h : Clean m) {term : Bytes}
    (hterm : Writable term) (v : β) : Clean (set term v m) := by
  intro e he
  rcases mem_set he with ⟨hk, -⟩ | he
  · exact hk ▸ hterm
  · exact h e he

lemma Ints.set {κ : Type} [LT κ] [DecidableEq κ] [DecidableLT κ] {m : List (κ × ℤ)} (h : Ints m)
    (k : κ) {v : ℤ} (hv : IsInt v) : Ints (set k v m) := by
  intro e he
  rcases mem_set he with ⟨-, hval⟩ | he
  · exact hval ▸ hv
  · exact h e he

/-- A map of counters in order. -/
structure Counters (m : List (Bytes × ℤ)) : Prop where
  sorted : Sorted m
  clean : Clean m
  ints : Ints m

lemma counters_nil : Counters [] where
  sorted := List.Pairwise.nil
  clean := fun _ h => by cases h
  ints := fun _ h => by cases h

lemma Counters.increment {m : List (Bytes × ℤ)} (h : Counters m) {term : Bytes}
    (hterm : Writable term) : Counters (increment m term) where
  sorted := h.sorted.set _ _
  clean := h.clean.set hterm _
  ints := h.ints.set _ (isInt_wrapInt _)

lemma Counters.foldl_increment {terms : List Bytes} (hterms : ∀ t ∈ terms, Writable t)
    {m : List (Bytes × ℤ)} (h : Counters m) : Counters (terms.foldl Index.increment m) := by
  induction terms generalizing m with
  | nil => exact h
  | cons t terms ih =>
    rw [List.foldl_cons]
    exact ih (fun x hx => hterms x (List.mem_cons_of_mem _ hx))
      (h.increment (hterms t List.mem_cons_self))

/-! ## The maps of a corpus -/

/-- A posting list of a document map: it is not empty, its integers are of the type `int`, and
its documents have a length. -/
structure PostingsOk (docLength : List (ℤ × ℤ)) (postings : List ReverseIndex) : Prop where
  ne_nil : postings ≠ []
  ints : ∀ t ∈ postings, IsInt t.docId ∧ IsInt t.cnt
  docs : ∀ t ∈ postings, find t.docId docLength ≠ none

/-- What holds of the maps after every line. -/
structure Maps.Ok (maps : Maps) : Prop where
  index_sorted : Sorted maps.index
  index_clean : Clean maps.index
  index_ok : ∀ e ∈ maps.index, PostingsOk maps.docLength e.2
  wordFreq : Counters maps.wordFreq
  freq : Counters maps.wordDocFreq
  doc_sorted : Sorted maps.docLength
  doc_ints : Ints maps.docLength
  doc_keys : ∀ e ∈ maps.docLength, IsInt e.1
  /-- The document frequency of a term is the length of its posting list. -/
  freq_eq : ∀ term, find term maps.wordDocFreq =
    (find term maps.index).map fun postings => wrapInt postings.length

lemma Maps.ok_empty : Maps.empty.Ok where
  index_sorted := List.Pairwise.nil
  index_clean := fun _ h => by cases h
  index_ok := fun _ h => by cases h
  wordFreq := counters_nil
  freq := counters_nil
  doc_sorted := List.Pairwise.nil
  doc_ints := fun _ h => by cases h
  doc_keys := fun _ h => by cases h
  freq_eq := fun _ => rfl

/-- One more posting is counted as one more document. -/
lemma wrapInt_length_append (known : Option (List ReverseIndex)) (t : ReverseIndex) :
    wrapInt ((known.map fun postings => wrapInt postings.length).getD 0 + 1) =
      wrapInt (known.getD [] ++ [t]).length := by
  have hlen : ((known.getD [] ++ [t]).length : ℤ) = (known.getD []).length + 1 := by
    rw [List.length_append, List.length_singleton, Nat.cast_add, Nat.cast_one]
  rw [hlen]
  cases known with
  | none => rfl
  | some postings =>
    rw [Option.map_some, Option.getD_some, Option.getD_some, wrapInt_wrapInt_add]

lemma Maps.Ok.freq_eq_addPosting {maps : Maps} (h : maps.Ok) (id : ℤ) (entry : Bytes × ℤ)
    (term : Bytes) : find term (Index.addPosting id maps entry).wordDocFreq =
      (find term (Index.addPosting id maps entry).index).map fun postings =>
        wrapInt postings.length := by
  rw [Index.addPosting, increment, find_set, find_set, h.freq_eq entry.1]
  split
  · rw [Option.map_some]
    exact congrArg some (wrapInt_length_append _ _)
  · exact h.freq_eq term

lemma Maps.Ok.addPosting {maps : Maps} (h : maps.Ok) {id : ℤ} (hid : IsInt id)
    (hdoc : find id maps.docLength ≠ none) {entry : Bytes × ℤ} (hterm : Writable entry.1)
    (hcnt : IsInt entry.2) : (addPosting id maps entry).Ok where
  index_sorted := h.index_sorted.set _ _
  index_clean := h.index_clean.set hterm _
  index_ok := by
    intro e he
    rcases mem_set he with ⟨-, hval⟩ | he
    -- the postings that are there already
    · have hold : ∀ t ∈ (find entry.1 maps.index).getD [],
          (IsInt t.docId ∧ IsInt t.cnt) ∧ find t.docId maps.docLength ≠ none := by
        intro t ht
        cases hfind : find entry.1 maps.index with
        | none =>
          rw [hfind] at ht
          cases ht
        | some postings =>
          rw [hfind] at ht
          have hok := h.index_ok _ (h.index_sorted.mem_iff_find.mpr hfind)
          exact ⟨hok.ints t ht, hok.docs t ht⟩
      rw [hval]
      refine ⟨by simp, ?_, ?_⟩
      · intro t ht
        rcases List.mem_append.mp ht with ht | ht
        · exact (hold t ht).1
        · rw [List.mem_singleton] at ht
          rw [ht]
          exact ⟨hid, hcnt⟩
      · intro t ht
        rcases List.mem_append.mp ht with ht | ht
        · exact (hold t ht).2
        · rw [List.mem_singleton] at ht
          rw [ht]
          exact hdoc
    · exact h.index_ok e he
  wordFreq := h.wordFreq
  freq := h.freq.increment hterm
  doc_sorted := h.doc_sorted
  doc_ints := h.doc_ints
  doc_keys := h.doc_keys
  freq_eq := h.freq_eq_addPosting id entry

/-- The loop over the terms of a document. -/
lemma Maps.Ok.foldl_addPosting {id : ℤ} (hid : IsInt id) {cntMap : List (Bytes × ℤ)}
    (hcnt : Counters cntMap) {maps : Maps} (h : maps.Ok) (hdoc : find id maps.docLength ≠ none) :
    (cntMap.foldl (Index.addPosting id) maps).Ok := by
  have hclean := hcnt.clean
  have hints := hcnt.ints
  clear hcnt
  induction cntMap generalizing maps with
  | nil => exact h
  | cons e cntMap ih =>
    rw [List.foldl_cons]
    exact ih (h.addPosting hid hdoc (hclean e List.mem_cons_self) (hints e List.mem_cons_self)) hdoc
      (fun x hx => hclean x (List.mem_cons_of_mem _ hx))
      (fun x hx => hints x (List.mem_cons_of_mem _ hx))

/-- The length of a document is recorded before its terms. -/
lemma Maps.Ok.setDocLength {maps : Maps} (h : maps.Ok) {id : ℤ} (hid : IsInt id) (len : ℤ)
    {wordFreq : List (Bytes × ℤ)} (hfreq : Counters wordFreq) :
    Maps.Ok { maps with
      docLength := SortedMap.set id (wrapInt len) maps.docLength, wordFreq := wordFreq } where
  index_sorted := h.index_sorted
  index_clean := h.index_clean
  index_ok := by
    intro e he
    have hok := h.index_ok e he
    refine ⟨hok.ne_nil, hok.ints, fun t ht => ?_⟩
    show find t.docId (SortedMap.set id _ maps.docLength) ≠ none
    rw [find_set]
    split
    · simp
    · exact hok.docs t ht
  wordFreq := hfreq
  freq := h.freq
  doc_sorted := h.doc_sorted.set _ _
  doc_ints := h.doc_ints.set _ (isInt_wrapInt _)
  doc_keys := by
    intro e he
    rcases mem_set he with ⟨hk, -⟩ | he
    · exact hk ▸ hid
    · exact h.doc_keys e he
  freq_eq := h.freq_eq

section segment

variable {segment : Bytes → List Bytes} (hseg : ∀ s, ∀ t ∈ segment s, Writable t)

include hseg

lemma Maps.Ok.addLine {maps : Maps} (h : maps.Ok) (line : Bytes) :
    (addLine segment maps line).Ok := by
  rw [Index.addLine]
  split
  · next val₀ val₁ _ =>
    refine Maps.Ok.foldl_addPosting (isInt_atoi val₀) ?_
      (h.setDocLength (isInt_atoi val₀) _ (h.wordFreq.foldl_increment (hseg val₁))) ?_
    · exact counters_nil.foldl_increment (hseg val₁)
    · show find (atoi val₀) (SortedMap.set (atoi val₀) _ maps.docLength) ≠ none
      rw [find_set_self]
      simp
  · exact h

/-- **The maps of a corpus agree with each other.** -/
theorem ok_buildMaps (corpus : Bytes) : (buildMaps segment corpus).Ok := by
  rw [buildMaps]
  have hfold : ∀ (ls : List Bytes) (maps : Maps), maps.Ok →
      (ls.foldl (addLine segment) maps).Ok := by
    intro ls
    induction ls with
    | nil => exact fun _ h => h
    | cons line ls ih => exact fun maps h => ih _ (h.addLine hseg line)
  exact hfold _ _ Maps.ok_empty

end segment

end Index
end Sunet
