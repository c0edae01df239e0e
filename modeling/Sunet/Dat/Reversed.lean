/-
# The index in the double array

`DatImpl` can hold the inverted index: `_load_index_dict` keeps the terms of an index file in
`_dicts` and their posting lists in `_values`, and `_reversed_search` returns the posting list
at the index that the double array finds.  `DictMgr` loads the same file into a map.  The main
result is `reversedSearch_build`: on a file with sorted terms the two look-ups agree.
-/
import Sunet.Dat.Exact
import Sunet.Index.Load

namespace Sunet
namespace Dat

open Byte StringUtil Index SortedMap

namespace DatImpl

/-! ## The model -/

/-- `INDEX_SEP_LEN`. -/
abbrev indexSepLen : ℕ := 2

/-- `INDEX_DATA_SEP_LEN`. -/
abbrev indexDataSepLen : ℕ := 2

/-- The inner loop of `_load_index_dict`: `index_vec` after the postings of a line. -/
def loadPostings (vals : Bytes) : List ReverseIndex :=
  (split vals [2]).foldl (fun indexVec posting =>
    let docInforSplits := split posting [1]
    if docInforSplits.length < indexDataSepLen + 1 then indexVec
    else indexVec ++ [⟨atoi (docInforSplits.getD 0 []), atoi (docInforSplits.getD 1 [])⟩]) []

/-- `_load_index_dict`. -/
def loadIndexDict (d : DatImpl (List ReverseIndex)) (file : Bytes) :
    DatImpl (List ReverseIndex) :=
  (getLines file).foldl (fun d line =>
    let splitStrs := split line [tab]
    if splitStrs.length ≠ indexSepLen then d
    else
      { d with
        dicts := d.dicts ++ [CnString.new (splitStrs.getD 0 [])]
        values := d.values ++ [loadPostings (splitStrs.getD 1 [])] }) d

/-- `_reversed_search`; the value that is returned for a key that is not found is the one that
the default constructor makes. -/
def reversedSearch {α : Type} [Inhabited α] (d : DatImpl α) (key : Bytes) : Except Stop α :=
  match splitChWords key with
  | none => .error .outOfBounds
  | some cnWords => do
    let b ← d.readBase 0
    match ← d.searchLoop cnWords b with
    | none => .ok default
    | some b => do
      let p ← index b
      let c ← d.readCheck p
      if b = c then
        let v ← d.readBase p
        if v < 0 then
          match d.values[(-v - 1).toNat]? with
          | none => .error .outOfBounds
          | some value => .ok value
        else .ok default
      else .ok default

/-! ## The look-up -/

/-- The value at an index that `_search` has returned. -/
def valueAt {α : Type} [Inhabited α] (d : DatImpl α) (r : ℤ) : Except Stop α :=
  if 0 ≤ r then
    match d.values[r.toNat]? with
    | none => .error .outOfBounds
    | some value => .ok value
  else .ok default

/-- `_reversed_search` reads the value at the index that `_search` returns. -/
lemma reversedSearch_eq {α : Type} [Inhabited α] (d : DatImpl α) (key : Bytes) :
    d.reversedSearch key = d.search key >>= d.valueAt := by
  rw [reversedSearch, search, splitChWords_eq]
  simp only
  cases d.readBase 0 with
  | error e => rfl
  | ok b₀ =>
    simp only [Except.ok_bind]
    cases d.searchLoop (tokens key) b₀ with
    | error e => rfl
    | ok r =>
      cases r with
      | none => rfl
      | some b =>
        simp only [Except.ok_bind]
        cases index b with
        | error e => rfl
        | ok p =>
          simp only [Except.ok_bind]
          cases d.readCheck p with
          | error e => rfl
          | ok c =>
            simp only [Except.ok_bind]
            by_cases hbc : b = c
            · simp only [hbc, if_true]
              cases d.readBase p with
              | error e => rfl
              | ok v =>
                simp only [Except.ok_bind]
                by_cases hv : v < 0
                · simp only [hv, if_true, Except.ok_bind, valueAt]
                  rw [if_pos (by omega)]
                · simp only [hv, if_false]
                  rfl
            · simp only [hbc, if_false]
              rfl

/-! ## The loaders -/

/-- The term and the postings of a line with exactly two fields. -/
def fields (line : Bytes) : Option (Bytes × Bytes) :=
  match split line [tab] with
  | [split₀, split₁] => some (split₀, split₁)
  | _ => none

/-- The well-formed lines of an index file. -/
def wellFormed (file : Bytes) : List (Bytes × Bytes) := (getLines file).filterMap fields

/-- The loops over the postings of a line agree. -/
lemma loadPostings_eq (vals : Bytes) : loadPostings vals = indexVec vals := by
  have hstep : ∀ (postings : List Bytes) (vec : List ReverseIndex),
      postings.foldl (fun vec posting =>
        let docInforSplits := split posting [1]
        if docInforSplits.length < indexDataSepLen + 1 then vec
        else vec ++ [⟨atoi (docInforSplits.getD 0 []), atoi (docInforSplits.getD 1 [])⟩]) vec =
        vec ++ postings.filterMap readPosting := by
    intro postings
    induction postings with
    | nil => simp
    | cons posting postings ih =>
      intro vec
      rw [List.foldl_cons, ih, List.filterMap_cons, readPosting]
      rcases split posting [1] with _ | ⟨data₀, _ | ⟨data₁, _ | ⟨data₂, rest⟩⟩⟩ <;> simp
  rw [loadPostings, hstep, List.nil_append, indexVec]

/-- What the loader of `DictMgr` does is determined by the well-formed lines. -/
lemma loadDict_eq {δ : Type} (put : δ → Bytes → Bytes → δ) (dict : δ) (file : Bytes) :
    Index.loadDict put dict file =
      (wellFormed file).foldl (fun dict e => put dict e.1 e.2) dict := by
  rw [Index.loadDict, wellFormed, List.foldl_filterMap]
  refine List.foldl_ext _ _ _ fun dict line _ => ?_
  rw [fields]
  rcases split line [tab] with _ | ⟨split₀, _ | ⟨split₁, _ | ⟨split₂, rest⟩⟩⟩ <;> rfl

/-- The loader of `DatImpl` keeps the terms and the posting lists of the well-formed lines, so
that the two vectors are aligned. -/
lemma loadIndexDict_eq (d : DatImpl (List ReverseIndex)) (file : Bytes) :
    d.loadIndexDict file =
      { d with
        dicts := d.dicts ++ (wellFormed file).map fun e => CnString.new e.1
        values := d.values ++ (wellFormed file).map fun e => indexVec e.2 } := by
  rw [loadIndexDict, wellFormed]
  generalize getLines file = lines
  induction lines generalizing d with
  | nil => simp
  | cons line lines ih =>
    rw [List.foldl_cons, ih, List.filterMap_cons, fields]
    rcases split line [tab] with _ | ⟨split₀, _ | ⟨split₁, _ | ⟨split₂, rest⟩⟩⟩ <;>
      simp [loadPostings_eq, indexSepLen]

/-! ## Agreement -/

/-- The strings of the result: over ASCII without NUL and space, and three-byte characters. -/
structure Plain (w : Bytes) : Prop where
  utf8 : Utf8Word w
  no_space : sp ∉ w

/-- The index files of the result: at least one well-formed line, and the terms of the
well-formed lines are distinct and in byte order. -/
structure IndexFile (file : Bytes) : Prop where
  ne_nil : wellFormed file ≠ []
  plain : ∀ e ∈ wellFormed file, Plain e.1
  sorted : ((wellFormed file).map Prod.fst).Pairwise (· < ·)

/-- The terms of an index file. -/
def terms (file : Bytes) : List Bytes := (wellFormed file).map Prod.fst

lemma IndexFile.terms_sorted {file : Bytes} (h : IndexFile file) : Sorted (terms file) := by
  have hplain : ∀ w ∈ terms file, Plain w := by
    intro w hw
    obtain ⟨e, he, rfl⟩ := List.mem_map.mp hw
    exact h.plain e he
  refine ⟨fun w hw => (hplain w hw).utf8, ?_⟩
  rw [List.pairwise_map]
  refine h.sorted.imp_of_mem fun hw hw' hlt => le_of_lt ?_
  exact (hplain _ hw).utf8.codes_lt (hplain _ hw).no_space (hplain _ hw').utf8
    (hplain _ hw').no_space hlt

lemma loaded_loadIndexDict (size unset : ℕ) (file : Bytes) :
    Loaded (terms file) ((new size unset).loadIndexDict file) := by
  rw [loadIndexDict_eq]
  refine ⟨⟨fun _ => rfl, fun _ => rfl, rfl⟩, ?_⟩
  simp [new, terms]

/-- The map of `DictMgr` is the list of the well-formed lines. -/
lemma IndexFile.loadIndexDict_eq {file : Bytes} (h : IndexFile file) :
    Index.loadIndexDict [] file = (wellFormed file).map fun e => (e.1, indexVec e.2) := by
  have hsorted : SortedMap.Sorted ((wellFormed file).map fun e => (e.1, indexVec e.2)) := by
    rw [SortedMap.Sorted, List.map_map]
    exact h.sorted
  rw [Index.loadIndexDict, loadDict_eq, ← hsorted.foldl_set, List.foldl_map]

/-- The entry at the first index of a query is the one that a map has for it. -/
lemma getElem?_findIdx {q : Bytes} (hq : Plain q) {entries : List (Bytes × Bytes)}
    (hplain : ∀ e ∈ entries, Plain e.1) :
    (entries.map fun e => indexVec e.2)[(entries.map Prod.fst).findIdx fun w =>
      tokens w == tokens q]? = find q (entries.map fun e => (e.1, indexVec e.2)) := by
  induction entries with
  | nil => rfl
  | cons e entries ih =>
    have he := hplain e List.mem_cons_self
    have hkey : tokens e.1 = tokens q ↔ e.1 = q :=
      he.utf8.tokens_inj hq.utf8 he.no_space hq.no_space
    rw [List.map_cons, List.map_cons, List.map_cons, List.findIdx_cons, find]
    by_cases heq : e.1 = q
    · rw [if_pos heq.symm, heq, beq_self_eq_true]
      rfl
    · rw [if_neg fun h => heq h.symm, beq_eq_false_iff_ne.mpr fun h => heq (hkey.mp h)]
      exact ih fun x hx => hplain x (List.mem_cons_of_mem _ hx)

/-- The posting list at the first index of a query is the one that the map has for it, and
the empty list where the map has none. -/
lemma valueAt_firstIndex {q : Bytes} (hq : Plain q) {entries : List (Bytes × Bytes)}
    (hplain : ∀ e ∈ entries, Plain e.1) {t : DatImpl (List ReverseIndex)}
    (hvalues : t.values = entries.map fun e => indexVec e.2) :
    t.valueAt (firstIndex (entries.map Prod.fst) q) =
      .ok ((find q (entries.map fun e => (e.1, indexVec e.2))).getD []) := by
  have hget := getElem?_findIdx hq hplain
  rw [valueAt, firstIndex]
  by_cases hex : ∃ w ∈ entries.map Prod.fst, tokens w = tokens q
  · have hlt : (entries.map Prod.fst).findIdx (fun w => tokens w == tokens q) <
        (entries.map Prod.fst).length :=
      List.findIdx_lt_length_of_exists (by simpa using hex)
    rw [if_pos hex, if_pos (Int.natCast_nonneg _), Int.toNat_natCast, hvalues]
    rw [List.length_map, ← List.length_map (f := fun e : Bytes × Bytes => indexVec e.2)] at hlt
    rw [List.getElem?_eq_getElem hlt] at hget ⊢
    rw [← hget]
    rfl
  · have hlen : (entries.map Prod.fst).findIdx (fun w => tokens w == tokens q) =
        (entries.map Prod.fst).length := by
      refine List.findIdx_eq_length_of_false fun w hw => ?_
      exact beq_eq_false_iff_ne.mpr fun h => hex ⟨w, hw, h⟩
    rw [if_neg hex, if_neg (by decide)]
    rw [hlen, List.length_map, List.getElem?_eq_none (by rw [List.length_map])] at hget
    rw [← hget]
    rfl

/-- **The two index look-ups agree.**  For every index file with sorted terms there is a size
of the arrays from which on the object loaded by `_load_index_dict` is built without leaving
them, and `_reversed_search` then returns the posting list that `DictMgr` has for the query,
the empty list where it has none.  On arrays of any size a query that stays inside them
returns this list. -/
theorem reversedSearch_build (unset : ℕ) (file : Bytes) (hfile : IndexFile file) :
    (∃ N, ∀ size fuel, N ≤ size → N ≤ fuel →
      ∃ d, build noResize fuel ((new size unset).loadIndexDict file) = .ok d ∧
        ∀ q, Plain q →
          d.reversedSearch q = .ok ((find q (Index.loadIndexDict [] file)).getD [])) ∧
    ∀ (size fuel : ℕ) (d : DatImpl (List ReverseIndex)),
      build noResize fuel ((new size unset).loadIndexDict file) = .ok d →
        ∀ (q : Bytes) (postings : List ReverseIndex), Plain q →
          d.reversedSearch q = .ok postings →
          postings = (find q (Index.loadIndexDict [] file)).getD [] := by
  have hne : terms file ≠ [] := by simpa [terms] using hfile.ne_nil
  have hws := hfile.terms_sorted
  -- what a query answers on a built object, in terms of the map
  have hvalue : ∀ (size fuel : ℕ) (d : DatImpl (List ReverseIndex)),
      build noResize fuel ((new size unset).loadIndexDict file) = .ok d → ∀ q, Plain q →
        d.valueAt (firstIndex (terms file) q) =
          .ok ((find q (Index.loadIndexDict [] file)).getD []) := by
    intro size fuel d hbuild q hq
    obtain ⟨-, -, -, -, -, -, hext⟩ :=
      build_ok (loaded_loadIndexDict size unset file).fresh hbuild
    rw [hfile.loadIndexDict_eq]
    refine valueAt_firstIndex hq hfile.plain ?_
    rw [hext.values_eq, DatImpl.loadIndexDict_eq]
    rfl
  constructor
  · obtain ⟨N, hN⟩ := Loaded.build_total (List ReverseIndex) hne hws unset
    refine ⟨N, fun size fuel hsize hfuel => ?_⟩
    have hload := loaded_loadIndexDict size unset file
    have hinit := loadIndexDict_eq (new size unset) file
    obtain ⟨d, hbuild, hroomy⟩ := hN _ fuel hload (by rw [hinit]; rfl)
      (by rw [hinit]; exact hsize) hfuel
    refine ⟨d, hbuild, fun q hq => ?_⟩
    rcases hload.search_eq hne hws hbuild hq.utf8 with ⟨-, hsmall⟩ | hsearch
    · exact absurd hroomy hsmall
    · rw [reversedSearch_eq, hsearch, Except.ok_bind, hvalue size fuel d hbuild q hq]
  · intro size fuel d hbuild q postings hq hr
    rw [reversedSearch_eq] at hr
    rcases (loaded_loadIndexDict size unset file).search_eq hne hws hbuild hq.utf8 with
      ⟨herr, -⟩ | hsearch
    · rw [herr] at hr
      cases hr
    · rw [hsearch, Except.ok_bind, hvalue size fuel d hbuild q hq] at hr
      exact (Except.ok.inj hr).symm

/-- Two terms, a line with one field between them, and a posting with two fields. -/
theorem reversedSearch_build_two :
    ∃ (size fuel : ℕ) (d : DatImpl (List ReverseIndex)),
      build noResize fuel
        ((new size 0).loadIndexDict (bytes "a\t7\x011\x010\nb\nc\t8\x011\n")) = .ok d ∧
        d.reversedSearch [0x61] = .ok [⟨7, 1⟩] ∧ d.reversedSearch [0x63] = .ok [] ∧
        d.reversedSearch [0x62] = .ok [] := by
  have ha : Plain [0x61] := ⟨.ascii (by decide) (by decide) .nil, by decide⟩
  have hb : Plain [0x62] := ⟨.ascii (by decide) (by decide) .nil, by decide⟩
  have hc : Plain [0x63] := ⟨.ascii (by decide) (by decide) .nil, by decide⟩
  set file := bytes "a\t7\x011\x010\nb\nc\t8\x011\n"
  have hlines : wellFormed file = [([0x61], bytes "7\x011\x010"), ([0x63], bytes "8\x011")] := by
    decide
  have hfile : IndexFile file := by
    refine ⟨by rw [hlines]; simp, ?_, by rw [hlines]; decide⟩
    rw [hlines]
    simp [ha, hc]
  obtain ⟨⟨N, hN⟩, -⟩ := reversedSearch_build 0 file hfile
  obtain ⟨d, hbuild, hsearch⟩ := hN N N le_rfl le_rfl
  refine ⟨N, N, d, hbuild, ?_, ?_, ?_⟩
  · rw [hsearch _ ha]
    decide
  · rw [hsearch _ hc]
    decide
  · rw [hsearch _ hb]
    decide

end DatImpl
end Dat
end Sunet
