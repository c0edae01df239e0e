/-
# The sections of one URI

The same URI may head several sections of a strategy file.  All sections but the last one of
the file are stored with `insert`, so that the first section of a URI wins; the last one of the
file is assigned, so that it replaces the others.  What a URI gets depends therefore on its own
sections and on whether one of them ends the file (`find_store_nil`), and on nothing else.
-/
import Sunet.Config.Strategy

namespace Sunet
namespace Config

open StringUtil Byte SortedMap

/-- The strategies of the sections of a URI. -/
def own (uri : Bytes) (sections : List (Bytes × List StrategyType)) : List (List StrategyType) :=
  (sections.filter fun sec => sec.1 = uri).map Prod.snd

/-- The last section of the file is one of the URI. -/
def EndsWith (uri : Bytes) (sections : List (Bytes × List StrategyType)) : Prop :=
  sections.getLast?.map Prod.fst = some uri

instance (uri : Bytes) (sections : List (Bytes × List StrategyType)) :
    Decidable (EndsWith uri sections) :=
  inferInstanceAs (Decidable (sections.getLast?.map Prod.fst = some uri))

lemma own_cons (uri : Bytes) (sec : Bytes × List StrategyType)
    (sections : List (Bytes × List StrategyType)) :
    own uri (sec :: sections) =
      if sec.1 = uri then sec.2 :: own uri sections else own uri sections := by
  by_cases h : sec.1 = uri
  · simp [own, h]
  · simp [own, h]

lemma own_concat (uri : Bytes) (sections : List (Bytes × List StrategyType))
    (sec : Bytes × List StrategyType) :
    own uri (sections ++ [sec]) =
      if sec.1 = uri then own uri sections ++ [sec.2] else own uri sections := by
  by_cases h : sec.1 = uri
  · simp [own, h]
  · simp [own, h]

lemma endsWith_concat (uri : Bytes) (sections : List (Bytes × List StrategyType))
    (sec : Bytes × List StrategyType) : EndsWith uri (sections ++ [sec]) ↔ sec.1 = uri := by
  simp [EndsWith]

/-! ## What the file leaves for a URI -/

/-- An insertion is seen only where the map has no entry. -/
lemma find_insert (uri uri₀ : Bytes) (strategies : List StrategyType) (dict : StrategyDict) :
    find uri₀ (insert uri strategies dict) =
      (find uri₀ dict).or (if uri = uri₀ then some strategies else none) := by
  rw [insert]
  cases hfind : find uri dict with
  | some old =>
    by_cases h : uri = uri₀
    · rw [← h, hfind, Option.some_or]
    · rw [if_neg h, Option.or_none]
  | none =>
    show find uri₀ (set uri strategies dict) = _
    rw [find_set]
    by_cases h : uri = uri₀
    · rw [if_pos h.symm, if_pos h, ← h, hfind, Option.none_or]
    · rw [if_neg (Ne.symm h), if_neg h, Option.or_none]

/-- Of the sections that are inserted, the first one of a URI is kept. -/
lemma find_foldl_insert (uri : Bytes) (sections : List (Bytes × List StrategyType))
    (dict : StrategyDict) :
    find uri (sections.foldl (fun dict sec => insert sec.1 sec.2 dict) dict) =
      (find uri dict).or (own uri sections).head? := by
  induction sections generalizing dict with
  | nil => simp [own]
  | cons sec sections ih =>
    rw [List.foldl_cons, ih, find_insert, own_cons]
    by_cases h : sec.1 = uri
    · rw [if_pos h, if_pos h, Option.or_assoc, Option.some_or, List.head?_cons]
    · rw [if_neg h, if_neg h, Option.or_none]

/-- The last section is set after the others are inserted. -/
lemma store_concat (dict : StrategyDict) (sections : List (Bytes × List StrategyType))
    (sec : Bytes × List StrategyType) :
    store dict (sections ++ [sec]) =
      set sec.1 sec.2 (sections.foldl (fun dict sec => insert sec.1 sec.2 dict) dict) := by
  induction sections generalizing dict with
  | nil => rfl
  | cons sec₀ sections ih =>
    rw [List.foldl_cons, ← ih]
    cases sections with
    | nil => rfl
    | cons sec₁ sections => rfl

/-- The first section of a URI wins, unless the file ends with one of its sections: then the
last one does. -/
lemma find_store_nil (uri : Bytes) (sections : List (Bytes × List StrategyType)) :
    find uri (store [] sections) =
      if EndsWith uri sections then (own uri sections).getLast? else (own uri sections).head? := by
  rcases List.eq_nil_or_concat' sections with rfl | ⟨sections, sec, rfl⟩
  · simp [store, own, EndsWith]
  · rw [store_concat, find_set, find_foldl_insert, find_nil, Option.none_or, own_concat]
    simp only [endsWith_concat]
    by_cases h : sec.1 = uri
    · rw [if_pos h.symm, if_pos h, if_pos h, List.getLast?_concat]
    · rw [if_neg (Ne.symm h), if_neg h, if_neg h]

/-! ## Two files with the same sections of a URI -/

/-- **When a URI's strategies depend only on its own sections.**  Two files with the same
sections of a URI give it the same strategies exactly if its first and its last section have
the same ones, or a section of the URI ends both files or none. -/
theorem readConfFile_own_iff {sections₁ sections₂ : List (Bytes × List StrategyType)}
    (h₁ : ∀ sec ∈ sections₁, WellFormed sec) (h₂ : ∀ sec ∈ sections₂, WellFormed sec)
    (uri : Bytes) (hown : own uri sections₁ = own uri sections₂) :
    (∃ dict₁ dict₂, readConfFile (confFile sections₁) [] = some dict₁ ∧
        readConfFile (confFile sections₂) [] = some dict₂ ∧ find uri dict₁ = find uri dict₂) ↔
      (own uri sections₁).head? = (own uri sections₁).getLast? ∨
        (EndsWith uri sections₁ ↔ EndsWith uri sections₂) := by
  have hread : (∃ dict₁ dict₂, readConfFile (confFile sections₁) [] = some dict₁ ∧
      readConfFile (confFile sections₂) [] = some dict₂ ∧ find uri dict₁ = find uri dict₂) ↔
      find uri (store [] sections₁) = find uri (store [] sections₂) := by
    rw [readConfFile_confFile h₁, readConfFile_confFile h₂]
    simp
  rw [hread, find_store_nil, find_store_nil, ← hown]
  by_cases hends₁ : EndsWith uri sections₁ <;> by_cases hends₂ : EndsWith uri sections₂
  · simp [hends₁, hends₂]
  · simp [hends₁, hends₂, eq_comm]
  · simp [hends₁, hends₂]
  · simp [hends₁, hends₂]

/-- A file that ends with a section of another URI. -/
def before : List (Bytes × List StrategyType) :=
  [(bytes "/search", [⟨bytes "TextStrategy", 255⟩]),
    (bytes "/search", [⟨bytes "SearchStrategy", 255⟩]),
    (bytes "/suggest", [⟨bytes "SuggestStrategy", 255⟩])]

/-- The same sections, the one of the other URI first. -/
def behind : List (Bytes × List StrategyType) :=
  [(bytes "/suggest", [⟨bytes "SuggestStrategy", 255⟩]),
    (bytes "/search", [⟨bytes "TextStrategy", 255⟩]),
    (bytes "/search", [⟨bytes "SearchStrategy", 255⟩])]

lemma wellFormed_singleton {uri name : Bytes} (huri : lf ∉ uri)
    (hname : colon ∉ name ∧ lf ∉ name ∧ name.head? ≠ some bracket) :
    WellFormed (uri, [⟨name, 255⟩]) := by
  refine ⟨huri, List.cons_ne_nil _ _, fun s hs => ?_⟩
  rw [List.mem_singleton] at hs
  subst hs
  exact ⟨hname.1, hname.2.1, hname.2.2, isInt_of_lt (n := 255) (by norm_num)⟩

lemma wellFormed_before : ∀ sec ∈ before, WellFormed sec := by
  intro sec hsec
  simp only [before, List.mem_cons, List.not_mem_nil, or_false] at hsec
  rcases hsec with rfl | rfl | rfl <;> exact wellFormed_singleton (by decide) (by decide)

lemma wellFormed_behind : ∀ sec ∈ behind, WellFormed sec := by
  intro sec hsec
  simp only [behind, List.mem_cons, List.not_mem_nil, or_false] at hsec
  rcases hsec with rfl | rfl | rfl <;> exact wellFormed_singleton (by decide) (by decide)

/-- Two files with the same sections of `/search`. -/
theorem readConfFile_own_iff_search :
    (∃ dict₁ dict₂, readConfFile (confFile before) [] = some dict₁ ∧
        readConfFile (confFile behind) [] = some dict₂ ∧
        find (bytes "/search") dict₁ = find (bytes "/search") dict₂) ↔
      (own (bytes "/search") before).head? = (own (bytes "/search") before).getLast? ∨
        (EndsWith (bytes "/search") before ↔ EndsWith (bytes "/search") behind) :=
  readConfFile_own_iff wellFormed_before wellFormed_behind (bytes "/search") (by decide)

/-- In one of them the first section of `/search` wins, in the other one the last. -/
theorem not_readConfFile_own :
    ¬ ∀ (sections₁ sections₂ : List (Bytes × List StrategyType)),
      (∀ sec ∈ sections₁, WellFormed sec) → (∀ sec ∈ sections₂, WellFormed sec) →
      ∀ uri, own uri sections₁ = own uri sections₂ →
        ∃ dict₁ dict₂, readConfFile (confFile sections₁) [] = some dict₁ ∧
          readConfFile (confFile sections₂) [] = some dict₂ ∧ find uri dict₁ = find uri dict₂ := by
  intro h
  obtain ⟨dict₁, dict₂, hread₁, hread₂, hfind⟩ :=
    h before behind wellFormed_before wellFormed_behind (bytes "/search") (by decide)
  rw [readConfFile_confFile wellFormed_before] at hread₁
  rw [readConfFile_confFile wellFormed_behind] at hread₂
  obtain rfl := Option.some.inj hread₁
  obtain rfl := Option.some.inj hread₂
  revert hfind
  decide

end Config
end Sunet
