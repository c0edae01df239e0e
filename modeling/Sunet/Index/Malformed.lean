/-
# Malformed lines

Four loaders split the lines of a file into fields.  The two that read an index look at the
number of fields first and pass over a line that has another one.  The one of the strategy
configuration and `Trie::build` read the first two fields of every line they split, so that a
line with fewer of them, such as a blank one, makes them read behind the vector.
-/
import Sunet.Config.Strategy
import Sunet.Dat.Suggest
import Sunet.Dat.Reversed

namespace Sunet
namespace Index

open StringUtil Byte SortedMap Config

/-! ## The loaders of an index, read by read -/

/-- The loop over the postings of a line, or `none` when it reads a field that `split` has not
returned. -/
def readPostings (dataLen : ℕ) (vals : Bytes) : Option (List ReverseIndex) :=
  (split vals [2]).foldlM (fun indexVec posting =>
    let data := split posting [1]
    if data.length < dataLen then some indexVec
    else data[0]?.bind fun data₀ => data[1]?.map fun data₁ =>
      indexVec ++ [⟨atoi data₀, atoi data₁⟩]) []

/-- The body of the loop over the lines of an index. -/
def readIndexLine {δ : Type} (sepLen dataLen : ℕ) (put : δ → Bytes → List ReverseIndex → δ)
    (dict : δ) (line : Bytes) : Option δ :=
  let splits := split line [tab]
  if splits.length ≠ sepLen then some dict
  else splits[1]?.bind fun vals => (readPostings dataLen vals).bind fun indexVec =>
    splits[0]?.map fun term => put dict term indexVec

/-- The loop over the lines of an index. -/
def readIndex {δ : Type} (sepLen dataLen : ℕ) (put : δ → Bytes → List ReverseIndex → δ)
    (dict : δ) (file : Bytes) : Option δ :=
  (getLines file).foldlM (readIndexLine sepLen dataLen put) dict

/-- `DictMgr::_load_index_dict`. -/
def readIndexDict (dict : List (Bytes × List ReverseIndex)) (file : Bytes) :
    Option (List (Bytes × List ReverseIndex)) :=
  readIndex 2 3 (fun dict term indexVec => set term indexVec dict) dict file

/-- `DatImpl::_load_index_dict`. -/
def readDatIndexDict (d : Dat.DatImpl (List ReverseIndex)) (file : Bytes) :
    Option (Dat.DatImpl (List ReverseIndex)) :=
  readIndex Dat.DatImpl.indexSepLen (Dat.DatImpl.indexDataSepLen + 1)
    (fun d term indexVec =>
      { d with
        dicts := d.dicts ++ [Dat.CnString.new term]
        values := d.values ++ [indexVec] }) d file

lemma readPostings_eq (vals : Bytes) : readPostings 3 vals = some (indexVec vals) := by
  have hloop : ∀ (postings : List Bytes) (vec : List ReverseIndex),
      postings.foldlM (fun indexVec posting =>
        let data := split posting [1]
        if data.length < 3 then some indexVec
        else data[0]?.bind fun data₀ => data[1]?.map fun data₁ =>
          indexVec ++ [⟨atoi data₀, atoi data₁⟩]) vec =
        some (vec ++ postings.filterMap readPosting) := by
    intro postings
    induction postings with
    | nil => simp
    | cons posting postings ih =>
      intro vec
      rw [List.foldlM_cons, List.filterMap_cons, readPosting]
      rcases split posting [1] with _ | ⟨data₀, _ | ⟨data₁, _ | ⟨data₂, rest⟩⟩⟩
      · exact ih vec
      · exact ih vec
      · exact ih vec
      · have hlen : ¬ (data₀ :: data₁ :: data₂ :: rest).length < 3 := by
          simp only [List.length_cons]
          omega
        simp only [if_neg hlen, List.getElem?_cons_zero, List.getElem?_cons_succ,
          Option.bind_some, Option.map_some]
        show List.foldlM _ _ postings = _
        rw [ih, List.append_assoc]
        rfl
  rw [readPostings, hloop, List.nil_append, indexVec]

/-- The guards are enough: the loaders read no field that is not there. -/
lemma readIndex_eq {δ : Type} (put : δ → Bytes → List ReverseIndex → δ) (dict : δ)
    (file : Bytes) :
    readIndex 2 3 put dict file =
      some (loadDict (fun dict term vals => put dict term (indexVec vals)) dict file) := by
  rw [readIndex, loadDict]
  generalize getLines file = lines
  induction lines generalizing dict with
  | nil => rfl
  | cons line lines ih =>
    rw [List.foldlM_cons, List.foldl_cons, readIndexLine]
    rcases split line [tab] with _ | ⟨split₀, _ | ⟨split₁, _ | ⟨split₂, rest⟩⟩⟩
    · exact ih dict
    · exact ih dict
    · simp only [List.length_cons, List.length_nil, List.getElem?_cons_zero,
        List.getElem?_cons_succ, readPostings_eq, Option.bind_some, Option.map_some]
      exact ih _
    · simp [ih]

/-- The loader of `DictMgr`, with its reads. -/
lemma readIndexDict_eq (dict : List (Bytes × List ReverseIndex)) (file : Bytes) :
    readIndexDict dict file = some (loadIndexDict dict file) :=
  readIndex_eq _ dict file

/-- The loader of `DatImpl`, with its reads. -/
lemma readDatIndexDict_eq (d : Dat.DatImpl (List ReverseIndex)) (file : Bytes) :
    readDatIndexDict d file = some (d.loadIndexDict file) := by
  have hfold : ∀ (entries : List (Bytes × Bytes)) (d : Dat.DatImpl (List ReverseIndex)),
      entries.foldl (fun d e =>
        { d with
          dicts := d.dicts ++ [Dat.CnString.new e.1]
          values := d.values ++ [indexVec e.2] }) d =
        { d with
          dicts := d.dicts ++ entries.map fun e => Dat.CnString.new e.1
          values := d.values ++ entries.map fun e => indexVec e.2 } := by
    intro entries
    induction entries with
    | nil => simp
    | cons e entries ih => simp [ih]
  rw [readDatIndexDict, readIndex_eq, Dat.DatImpl.loadDict_eq, hfold,
    Dat.DatImpl.loadIndexDict_eq]

/-! ## Lines without enough fields -/

/-- `split` returns less than two fields. -/
def Short (delim : Byte) (line : Bytes) : Prop := (split line [delim]).length < 2

instance (delim : Byte) (line : Bytes) : Decidable (Short delim line) :=
  inferInstanceAs (Decidable ((split line [delim]).length < 2))

/-- A line of a strategy file that is split and has less than two fields. -/
def ShortStrategy (line : Bytes) : Prop := line.head? ≠ some bracket ∧ Short colon line

/-- The loader reads no field that `split` has not returned, and loads the same from the file
without one of its short lines. -/
structure Tolerates {δ : Type} (load : Bytes → Option δ) (IsShort : Bytes → Prop)
    (file : Bytes) : Prop where
  reads : load file ≠ none
  skips : ∀ pre line post, getLines file = pre ++ line :: post → IsShort line →
    ∀ file', getLines file' = pre ++ post → load file = load file'

lemma tolerates_iff_of_step {δ σ : Type} {load : Bytes → Option δ} {IsShort : Bytes → Prop}
    {step : σ → Bytes → Option σ} (s : σ) (finish : σ → δ)
    (hload : ∀ file, load file = ((getLines file).foldlM step s).map finish)
    (hstep : ∀ s line, step s line = none ↔ IsShort line) (file : Bytes) :
    Tolerates load IsShort file ↔ ∀ line ∈ getLines file, ¬ IsShort line := by
  have hfold : ∀ (lines : List Bytes) (s : σ),
      lines.foldlM step s ≠ none ↔ ∀ line ∈ lines, ¬ IsShort line := by
    intro lines
    induction lines with
    | nil => simp
    | cons line lines ih =>
      intro s
      rw [List.foldlM_cons, List.forall_mem_cons, ← hstep s line]
      cases hline : step s line with
      | none => simp
      | some s' => simpa using ih s'
  have hreads : load file ≠ none ↔ ∀ line ∈ getLines file, ¬ IsShort line := by
    rw [hload, ne_eq, Option.map_eq_none_iff]
    exact hfold _ s
  refine ⟨fun h => hreads.mp h.reads, fun h => ⟨hreads.mpr h, fun pre line post hfile hshort => ?_⟩⟩
  refine absurd hshort (h line ?_)
  rw [hfile]
  exact List.mem_append_right _ List.mem_cons_self

/-- The body of the loop over a strategy file reads behind the fields of a short line. -/
lemma readLine_eq_none_iff (r : Reader) (line : Bytes) :
    readLine r line = none ↔ ShortStrategy line := by
  rw [readLine, ShortStrategy, Short]
  by_cases hhead : line.head? = some bracket
  · simp [hhead]
  · rw [if_neg hhead]
    rcases split line [colon] with _ | ⟨split₀, _ | ⟨split₁, rest⟩⟩ <;> simp [hhead]

/-- The body of the loop of `build` does so, too. -/
lemma buildLine_eq_none_iff (unset : ℤ) (root : Dat.TrieNode ℤ) (line : Bytes) :
    Dat.TrieNode.buildLine unset root line = none ↔ Short tab line := by
  rw [Dat.TrieNode.buildLine, Short]
  rcases split line [tab] with _ | ⟨vals₀, _ | ⟨vals₁, rest⟩⟩ <;> simp

/-- A loader that takes the lines with two fields passes over the short ones. -/
lemma tolerates_of_loadDict {δ : Type} {load : Bytes → Option δ} {put : δ → Bytes → Bytes → δ}
    {dict : δ} (hload : ∀ file, load file = some (loadDict put dict file)) (file : Bytes) :
    Tolerates load (Short tab) file := by
  refine ⟨?_, fun pre line post hfile hshort file' hfile' => ?_⟩
  · rw [hload]
    exact Option.some_ne_none _
  · have hnone : Dat.DatImpl.fields line = none := by
      rw [Short] at hshort
      rw [Dat.DatImpl.fields]
      rcases h : split line [tab] with _ | ⟨split₀, _ | ⟨split₁, rest⟩⟩
      · rfl
      · rfl
      · rw [h] at hshort
        simp at hshort
    rw [hload, hload, Dat.DatImpl.loadDict_eq, Dat.DatImpl.loadDict_eq, Dat.DatImpl.wellFormed,
      Dat.DatImpl.wellFormed, hfile, hfile', List.filterMap_append, List.filterMap_append,
      List.filterMap_cons_none hnone]

/-- **Which loaders tolerate malformed lines.**  The strategy configuration does exactly on the
files in which every line but the headers has two fields, `Trie::build` on those in which every
line has two fields, and the two loaders of an index on all files. -/
theorem loaders_tolerate_iff (confDict : StrategyDict) (unset : ℤ) (root : Dat.TrieNode ℤ)
    (d : Dat.DatImpl (List ReverseIndex)) (dict : List (Bytes × List ReverseIndex))
    (file : Bytes) :
    (Tolerates (readConfFile · confDict) ShortStrategy file ↔
        ∀ line ∈ getLines file, ¬ ShortStrategy line) ∧
      (Tolerates (Dat.TrieNode.build unset root) (Short tab) file ↔
        ∀ line ∈ getLines file, ¬ Short tab line) ∧
      Tolerates (readDatIndexDict d) (Short tab) file ∧
      Tolerates (readIndexDict dict) (Short tab) file := by
  refine ⟨?_, ?_, ?_, ?_⟩
  · exact tolerates_iff_of_step ⟨confDict, [], []⟩ Reader.finish (fun _ => rfl)
      readLine_eq_none_iff file
  · refine tolerates_iff_of_step root id (fun file => ?_) (buildLine_eq_none_iff unset) file
    rw [Option.map_id]
    rfl
  · exact tolerates_of_loadDict (fun file => readIndex_eq _ d file) file
  · exact tolerates_of_loadDict (readIndexDict_eq dict) file

/-- A blank line stops the loader of the strategies and the one of the suggestions. -/
theorem not_loaders_tolerate :
    ¬ ∀ (confDict : StrategyDict) (unset : ℤ) (root : Dat.TrieNode ℤ)
      (d : Dat.DatImpl (List ReverseIndex)) (dict : List (Bytes × List ReverseIndex))
      (file : Bytes), Tolerates (readConfFile · confDict) ShortStrategy file ∧
        Tolerates (Dat.TrieNode.build unset root) (Short tab) file ∧
        Tolerates (readDatIndexDict d) (Short tab) file ∧
        Tolerates (readIndexDict dict) (Short tab) file := by
  intro h
  obtain ⟨hconf, -⟩ := h [] 0 (.node [] 0 0 []) (Dat.DatImpl.new 0 0) [] [lf]
  exact hconf.reads (by decide)

end Index
end Sunet
