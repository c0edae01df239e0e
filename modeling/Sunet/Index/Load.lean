/-
# Loading the index files

The loaders of `DictMgr` read a file line by line and take the lines with two fields.  What
`build_index` writes is read back as it was: the maps come out the same, and the index with
the terms that are long enough to be written.
-/
import Sunet.Index.Build

namespace Sunet
namespace Index

open StringUtil Byte SortedMap

/-! ## The loaders -/

/-- The loop that all loaders share: what is done with a line of two fields. -/
def loadDict {δ : Type} (put : δ → Bytes → Bytes → δ) (dict : δ) (file : Bytes) : δ :=
  (getLines file).foldl (fun dict line =>
    match split line [tab] with
    | [split₀, split₁] => put dict split₀ split₁
    | _ => dict) dict

/-- A posting of `_load_index_dict`, if it has three fields. -/
def readPosting (vec : Bytes) : Option ReverseIndex :=
  match split vec [1] with
  | data₀ :: data₁ :: _ :: _ => some ⟨atoi data₀, atoi data₁⟩
  | _ => none

/-- The posting list of a line. -/
def indexVec (vals : Bytes) : List ReverseIndex := (split vals [2]).filterMap readPosting

/-- `_load_index_dict`. -/
def loadIndexDict (dict : List (Bytes × List ReverseIndex)) (file : Bytes) :
    List (Bytes × List ReverseIndex) :=
  loadDict (fun dict term vals => set term (indexVec vals) dict) dict file

/-- `_load_word_doc_freq_dict`. -/
def loadWordDocFreqDict (dict : List (Bytes × ℤ)) (file : Bytes) : List (Bytes × ℤ) :=
  loadDict (fun dict term val => set term (atoi val) dict) dict file

/-- `_load_word_freq_dict`. -/
def loadWordFreqDict (dict : List (Bytes × ℤ)) (file : Bytes) : List (Bytes × ℤ) :=
  loadDict (fun dict term val => set term (atoi val) dict) dict file

/-- `_load_doc_length_dict`. -/
def loadDocLengthDict (dict : List (ℤ × ℤ)) (file : Bytes) : List (ℤ × ℤ) :=
  loadDict (fun dict id val => set (atoi id) (atoi val) dict) dict file

/-! ## A line is read as it was written -/

lemma split_dictLine {key val : Bytes} (hkey : tab ∉ key) (hval : tab ∉ val) (hne : val ≠ []) :
    split (dictLine key val) [tab] = [key, val] := by
  have hline : dictLine key val = [tab].intercalate [key, val] := by
    simp [dictLine, List.intercalate]
  have hlast : (dictLine key val).getLast? ≠ some tab := by
    rw [dictLine, List.getLast?_append, List.getLast?_cons_of_ne_nil hne]
    obtain ⟨b, hb⟩ := Option.ne_none_iff_exists'.mp (List.getLast?_eq_none_iff.not.mpr hne)
    rw [hb, Option.some_or]
    intro htab
    rw [htab] at hb
    exact hval (List.mem_of_getLast? hb)
  rw [hline] at hlast ⊢
  refine split_intercalate ?_ (by simp [List.intercalate]) hlast
  intro f hf
  rcases List.mem_cons.mp hf with rfl | hf
  · exact hkey
  · rw [List.mem_singleton] at hf
    exact hf ▸ hval

lemma Writable.dictLine {key val : Bytes} (hkey : Writable key) (hval : Writable val) :
    lf ∉ dictLine key val := by
  rw [Index.dictLine, List.mem_append, List.mem_cons, not_or, not_or]
  exact ⟨hkey.2, by decide, hval.2⟩

/-- A file that is made of lines of two fields is loaded line by line. -/
lemma loadDict_unlines {δ ε : Type} (put : δ → Bytes → Bytes → δ) (key val : ε → Bytes)
    {entries : List ε} (hkey : ∀ e ∈ entries, Writable (key e))
    (hval : ∀ e ∈ entries, Writable (val e) ∧ val e ≠ []) (dict : δ) :
    loadDict put dict (unlines (entries.map fun e => dictLine (key e) (val e))) =
      entries.foldl (fun dict e => put dict (key e) (val e)) dict := by
  have hlines : ∀ l ∈ entries.map (fun e => dictLine (key e) (val e)), lf ∉ l := by
    intro l hl
    obtain ⟨e, he, rfl⟩ := List.mem_map.mp hl
    exact (hkey e he).dictLine (hval e he).1
  rw [loadDict, getLines_unlines hlines, List.foldl_map]
  clear hlines
  induction entries generalizing dict with
  | nil => rfl
  | cons e entries ih =>
    have he := hval e List.mem_cons_self
    rw [List.foldl_cons, List.foldl_cons,
      split_dictLine (hkey e List.mem_cons_self).1 he.1.1 he.2]
    exact ih (fun x hx => hkey x (List.mem_cons_of_mem _ hx))
      (fun x hx => hval x (List.mem_cons_of_mem _ hx)) _

/-! ## Numbers and posting lists -/

lemma writable_numToStr (v : ℤ) : Writable (numToStr v) :=
  ⟨notMem_numToStr (by decide) (by decide), notMem_numToStr (by decide) (by decide)⟩

lemma postingStr_eq (t : ReverseIndex) :
    postingStr t = [1].intercalate [numToStr t.docId, numToStr t.cnt, [48]] := by
  simp [postingStr, List.intercalate]

lemma postingsStr_eq (postings : List ReverseIndex) :
    postingsStr postings = [2].intercalate (postings.map postingStr) := by
  induction postings with
  | nil => rfl
  | cons t rest ih =>
    cases rest with
    | nil => simp [postingsStr, List.intercalate]
    | cons t' rest =>
      rw [postingsStr, ih]
      simp [List.intercalate]

/-- No separator is part of a number. -/
lemma notMem_postingStr {b : Byte} (t : ReverseIndex) (hb : b ≠ 45) (hdigit : isDigit b = false)
    (hone : b ≠ 1) : b ∉ postingStr t := by
  have hzero : b ≠ 48 := by
    rintro rfl
    cases hdigit
  simp [postingStr, notMem_numToStr hb hdigit, hone, hzero]

lemma notMem_postingsStr {b : Byte} (postings : List ReverseIndex) (hb : b ≠ 45)
    (hdigit : isDigit b = false) (hone : b ≠ 1) (htwo : b ≠ 2) : b ∉ postingsStr postings := by
  fun_induction postingsStr postings with
  | case1 => simp
  | case2 t => exact notMem_postingStr t hb hdigit hone
  | case3 t t' rest ih =>
    rw [List.mem_append, List.mem_cons, not_or, not_or]
    exact ⟨notMem_postingStr t hb hdigit hone, htwo, ih⟩

lemma postingStr_getLast? (t : ReverseIndex) : (postingStr t).getLast? = some 48 := by
  rw [postingStr, List.getLast?_append]
  rfl

lemma postingsStr_getLast? {postings : List ReverseIndex} (hne : postings ≠ []) :
    (postingsStr postings).getLast? = some 48 := by
  fun_induction postingsStr postings with
  | case1 => exact absurd rfl hne
  | case2 t => exact postingStr_getLast? t
  | case3 t t' rest ih =>
    rw [List.getLast?_append, List.getLast?_cons, ih (by simp)]
    rfl

lemma readPosting_postingStr {t : ReverseIndex} (hid : IsInt t.docId) (hcnt : IsInt t.cnt) :
    readPosting (postingStr t) = some t := by
  have hsplit : split (postingStr t) [1] = [numToStr t.docId, numToStr t.cnt, [48]] := by
    have hlast := postingStr_getLast? t
    rw [postingStr_eq] at hlast ⊢
    refine split_intercalate ?_ (fun h => ?_) (fun h => ?_)
    · intro f hf
      simp only [List.mem_cons, List.not_mem_nil, or_false] at hf
      rcases hf with rfl | rfl | rfl
      · exact notMem_numToStr (by decide) (by decide)
      · exact notMem_numToStr (by decide) (by decide)
      · decide
    · rw [h] at hlast
      cases hlast
    · rw [h] at hlast
      cases hlast
  rw [readPosting, hsplit]
  simp only [atoi_numToStr hid, atoi_numToStr hcnt]

/-- Posting lists are read as they were written. -/
lemma indexVec_postingsStr {postings : List ReverseIndex} (hne : postings ≠ [])
    (hints : ∀ t ∈ postings, IsInt t.docId ∧ IsInt t.cnt) :
    indexVec (postingsStr postings) = postings := by
  have hsplit : split (postingsStr postings) [2] = postings.map postingStr := by
    have hlast := postingsStr_getLast? hne
    rw [postingsStr_eq] at hlast ⊢
    refine split_intercalate ?_ (fun h => ?_) (fun h => ?_)
    · intro f hf
      obtain ⟨t, -, rfl⟩ := List.mem_map.mp hf
      exact notMem_postingStr t (by decide) (by decide) (by decide)
    · rw [h] at hlast
      cases hlast
    · rw [h] at hlast
      cases hlast
  rw [indexVec, hsplit, List.filterMap_map]
  have hread : ∀ t ∈ postings, (readPosting ∘ postingStr) t = some t :=
    fun t ht => readPosting_postingStr (hints t ht).1 (hints t ht).2
  rw [List.filterMap_congr hread, List.filterMap_some]

/-- A posting takes at least one byte. -/
lemma length_le_postingsStr (postings : List ReverseIndex) :
    postings.length ≤ (postingsStr postings).length := by
  fun_induction postingsStr postings with
  | case1 => exact le_rfl
  | case2 t =>
    rw [postingStr, List.length_append, List.length_singleton, List.length_singleton]
    omega
  | case3 t t' rest ih =>
    rw [List.length_append, List.length_cons]
    rw [List.length_cons] at ih
    simp only [List.length_cons]
    omega

/-! ## The round trip -/

lemma foldl_set_congr {κ β ε : Type} [LT κ] [DecidableEq κ] [DecidableLT κ] {entries : List ε}
    {key key' : ε → κ} {val val' : ε → β} (hkey : ∀ e ∈ entries, key e = key' e)
    (hval : ∀ e ∈ entries, val e = val' e) (dict : List (κ × β)) :
    entries.foldl (fun d e => set (key e) (val e) d) dict =
      entries.foldl (fun d e => set (key' e) (val' e) d) dict := by
  induction entries generalizing dict with
  | nil => rfl
  | cons e entries ih =>
    rw [List.foldl_cons, List.foldl_cons, hkey e List.mem_cons_self, hval e List.mem_cons_self]
    exact ih (fun x hx => hkey x (List.mem_cons_of_mem _ hx))
      (fun x hx => hval x (List.mem_cons_of_mem _ hx)) _

/-- A map of counters is loaded as it was written. -/
lemma Counters.load {m : List (Bytes × ℤ)} (h : Counters m) :
    loadWordDocFreqDict [] (unlines (m.map fun e => dictLine e.1 (numToStr e.2))) = m := by
  rw [loadWordDocFreqDict, loadDict_unlines _ Prod.fst (fun e => numToStr e.2) h.clean
    fun e _ => ⟨writable_numToStr e.2, numToStr_ne_nil e.2⟩]
  rw [foldl_set_congr (fun _ _ => rfl) fun e he => atoi_numToStr (h.ints e he)]
  exact h.sorted.foldl_set

/-- The term frequencies are loaded as they were written. -/
lemma Maps.Ok.loadWordFreqDict {maps : Maps} (h : maps.Ok) :
    loadWordFreqDict [] (wordFreqFile maps) = maps.wordFreq :=
  h.wordFreq.load

/-- The document lengths are loaded as they were written. -/
lemma Maps.Ok.loadDocLengthDict {maps : Maps} (h : maps.Ok) :
    loadDocLengthDict [] (docLengthFile maps) = maps.docLength := by
  rw [Index.loadDocLengthDict, docLengthFile,
    loadDict_unlines _ (fun e : ℤ × ℤ => numToStr e.1) (fun e => numToStr e.2)
      (fun e _ => writable_numToStr e.1)
      (fun e _ => ⟨writable_numToStr e.2, numToStr_ne_nil e.2⟩)]
  rw [foldl_set_congr (fun e he => atoi_numToStr (h.doc_keys e he))
    fun e he => atoi_numToStr (h.doc_ints e he)]
  exact h.doc_sorted.foldl_set

/-- The index is loaded as it was written. -/
lemma Maps.Ok.loadIndexDict {maps : Maps} (h : maps.Ok) :
    loadIndexDict [] (indexFile maps) = maps.index.filter fun e => !(e.1.length < 3) := by
  have hok : ∀ e ∈ maps.index.filter (fun e => !(e.1.length < 3)), PostingsOk maps.docLength e.2 :=
    fun e he => h.index_ok e (List.mem_filter.mp he).1
  have hwritable : ∀ postings, Writable (postingsStr postings) := fun postings =>
    ⟨notMem_postingsStr postings (by decide) (by decide) (by decide) (by decide),
      notMem_postingsStr postings (by decide) (by decide) (by decide) (by decide)⟩
  rw [Index.loadIndexDict, indexFile, loadDict_unlines _ Prod.fst (fun e => postingsStr e.2)
    (fun e he => h.index_clean e (List.mem_filter.mp he).1) ?_]
  · rw [foldl_set_congr (fun _ _ => rfl)
      fun e he => indexVec_postingsStr (hok e he).ne_nil (hok e he).ints]
    exact (h.index_sorted.filter _).foldl_set
  · intro e he
    refine ⟨hwritable e.2, fun hnil => ?_⟩
    have hlast := postingsStr_getLast? (hok e he).ne_nil
    rw [hnil] at hlast
    cases hlast

/-- The posting list of a term of the index is shorter than its line. -/
lemma Maps.Ok.length_lt {maps : Maps} (h : maps.Ok)
    (hlines : ∀ line ∈ getLines (indexFile maps), line.length < 2 ^ 31) {e : Bytes × List ReverseIndex}
    (he : e ∈ maps.index.filter fun e => !(e.1.length < 3)) : e.2.length < 2 ^ 31 := by
  have hwritten : ∀ l ∈ (maps.index.filter fun e => !(e.1.length < 3)).map (fun e =>
      dictLine e.1 (postingsStr e.2)), lf ∉ l := by
    intro l hl
    obtain ⟨x, hx, rfl⟩ := List.mem_map.mp hl
    refine (h.index_clean x (List.mem_filter.mp hx).1).dictLine ⟨?_, ?_⟩
    · exact notMem_postingsStr x.2 (by decide) (by decide) (by decide) (by decide)
    · exact notMem_postingsStr x.2 (by decide) (by decide) (by decide) (by decide)
  rw [indexFile, getLines_unlines hwritten] at hlines
  have hline := hlines _ (List.mem_map_of_mem he)
  have hle := length_le_postingsStr e.2
  rw [dictLine, List.length_append, List.length_cons] at hline
  omega

/-- **Index files round trip.**  For every corpus and every segmentation into terms without tab
and line feed, loading what `build_index` has written gives its maps back, the index with the
terms of at least three bytes; and the loaded maps agree: the document frequency of a loaded
term is the length of its posting list, and its documents have a length. -/
theorem load_build {segment : Bytes → List Bytes} (hseg : ∀ s, ∀ t ∈ segment s, Writable t)
    (corpus : Bytes)
    (hlines : ∀ line ∈ getLines (indexFile (buildMaps segment corpus)), line.length < 2 ^ 31) :
    let maps := buildMaps segment corpus
    let index := loadIndexDict [] (indexFile maps)
    let wordDocFreq := loadWordDocFreqDict [] (wordDocFreqFile maps)
    let docLength := loadDocLengthDict [] (docLengthFile maps)
    index = maps.index.filter (fun e => 3 ≤ e.1.length) ∧ wordDocFreq = maps.wordDocFreq ∧
      docLength = maps.docLength ∧
      ∀ term postings, find term index = some postings →
        find term wordDocFreq = some (postings.length : ℤ) ∧
          ∀ t ∈ postings, find t.docId docLength ≠ none := by
  have h := ok_buildMaps hseg corpus
  have hindex := h.loadIndexDict
  have hfreq : loadWordDocFreqDict [] (wordDocFreqFile (buildMaps segment corpus)) = _ :=
    h.freq.load
  have hlength := h.loadDocLengthDict
  -- `build_index` skips the terms of less than three bytes
  have hfilter : (fun e : Bytes × List ReverseIndex => !decide (e.1.length < 3)) =
      fun e => decide (3 ≤ e.1.length) := by
    funext e
    rw [← decide_not, decide_eq_decide]
    exact Nat.not_lt
  intro maps index wordDocFreq docLength
  refine ⟨?_, hfreq, hlength, ?_⟩
  · rw [← hfilter]
    exact hindex
  · intro term postings hfind
    have hmem : (term, postings) ∈ maps.index.filter fun e => !(e.1.length < 3) := by
      refine (h.index_sorted.filter _).mem_iff_find.mpr ?_
      rw [← hindex]
      exact hfind
    have hmemIndex := (List.mem_filter.mp hmem).1
    refine ⟨?_, ?_⟩
    · show find term (loadWordDocFreqDict [] (wordDocFreqFile maps)) = _
      rw [hfreq, h.freq_eq, h.index_sorted.mem_iff_find.mp hmemIndex, Option.map_some]
      exact congrArg some (isInt_of_lt (h.length_lt hlines hmem))
    · intro t ht
      show find t.docId (loadDocLengthDict [] (docLengthFile maps)) ≠ none
      rw [hlength]
      exact (h.index_ok _ hmemIndex).docs t ht

/-- The whole text of a document as its only term. -/
def wholeText (s : Bytes) : List Bytes := [s.filter fun b => b ≠ tab ∧ b ≠ lf]

lemma writable_wholeText : ∀ s, ∀ t ∈ wholeText s, Writable t := by
  intro s t ht
  rw [wholeText, List.mem_singleton] at ht
  subst ht
  simp [Writable]

/-- A corpus of three documents, each of them one term, two of them the same. -/
theorem load_build_two :
    let maps := buildMaps wholeText (bytes "7\tabc\n8\tab\n9\tabc\n")
    let index := loadIndexDict [] (indexFile maps)
    let wordDocFreq := loadWordDocFreqDict [] (wordDocFreqFile maps)
    let docLength := loadDocLengthDict [] (docLengthFile maps)
    index = [(bytes "abc", [⟨7, 1⟩, ⟨9, 1⟩])] ∧ find (bytes "abc") wordDocFreq = some 2 ∧
      find 7 docLength = some 5 ∧ find 9 docLength = some 5 ∧
      index = maps.index.filter (fun e => 3 ≤ e.1.length) ∧ wordDocFreq = maps.wordDocFreq ∧
      docLength = maps.docLength ∧
      ∀ term postings, find term index = some postings →
        find term wordDocFreq = some (postings.length : ℤ) ∧
          ∀ t ∈ postings, find t.docId docLength ≠ none :=
  ⟨by decide +kernel, by decide +kernel, by decide +kernel, by decide +kernel,
    load_build writable_wholeText _ (by decide)⟩

end Index
end Sunet
