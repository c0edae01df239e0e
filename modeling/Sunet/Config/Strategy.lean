/-
# The strategy configuration

A strategy file is a sequence of sections: a header line with a URI in brackets, and a line
for each strategy of the URI with its name and its level.  `_read_conf_file` keeps the
strategies of the open section in a vector.  It stores them with `insert` when the next
header arrives, so that the first section of a URI wins, and those of the last section with
an assignment, so that it replaces what is there.
-/
import Sunet.Util.StringUtil
import Sunet.Util.Numeral
import Sunet.Lib.SortedMap

namespace Sunet
namespace Config

open StringUtil Byte SortedMap

/-- `STRATEGYTYPE`. -/
structure StrategyType where
  strategyName : Bytes
  strategyLevel : ℤ
deriving DecidableEq, Repr

/-- `_strategy_conf_dict`. -/
abbrev StrategyDict := List (Bytes × List StrategyType)

/-- The byte a header line starts with. -/
abbrev bracket : Byte := 91

/-- `std::map::insert`, which leaves an entry that is there. -/
def insert (uri : Bytes) (strategies : List StrategyType) (dict : StrategyDict) : StrategyDict :=
  match find uri dict with
  | some _ => dict
  | none => set uri strategies dict

/-- The variables of `_read_conf_file`. -/
structure Reader where
  strategyConfDict : StrategyDict
  curUri : Bytes
  uriStrategyVec : List StrategyType
deriving DecidableEq, Repr

/-- The body of the loop over the lines, or `none` when it reads a field that `split` has not
returned. -/
def readLine (r : Reader) (line : Bytes) : Option Reader :=
  if line.head? = some bracket then
    some
      { strategyConfDict :=
          if r.uriStrategyVec.length ≠ 0 then insert r.curUri r.uriStrategyVec r.strategyConfDict
          else r.strategyConfDict
        -- `substr` counts from the length of the line, a closing bracket or not
        curUri := (line.drop 1).take (line.length - 2)
        uriStrategyVec := [] }
  else
    match split line [colon] with
    | split₀ :: split₁ :: _ =>
      some { r with uriStrategyVec := r.uriStrategyVec ++ [⟨split₀, atoi split₁⟩] }
    | _ => none

/-- The statement after the loop. -/
def Reader.finish (r : Reader) : StrategyDict :=
  if r.uriStrategyVec.length ≠ 0 then set r.curUri r.uriStrategyVec r.strategyConfDict
  else r.strategyConfDict

/-- `_read_conf_file` on a file that can be opened. -/
def readConfFile (file : Bytes) (dict : StrategyDict) : Option StrategyDict :=
  ((getLines file).foldlM readLine ⟨dict, [], []⟩).map Reader.finish

/-! ## The text of a configuration -/

/-- The line of a strategy. -/
def strategyLine (s : StrategyType) : Bytes := s.strategyName ++ colon :: numToStr s.strategyLevel

/-- The lines of a section. -/
def sectionLines (sec : Bytes × List StrategyType) : List Bytes :=
  (bracket :: sec.1 ++ [93]) :: sec.2.map strategyLine

/-- The file made of a list of sections. -/
def confFile (sections : List (Bytes × List StrategyType)) : Bytes :=
  unlines (sections.flatMap sectionLines)

/-- A strategy that can be written on a line. -/
structure StrategyType.WellFormed (s : StrategyType) : Prop where
  colon_notMem : colon ∉ s.strategyName
  lf_notMem : lf ∉ s.strategyName
  head_ne : s.strategyName.head? ≠ some bracket
  level_int : IsInt s.strategyLevel

/-- A section that can be written: it has a strategy, and its URI is a line. -/
structure WellFormed (sec : Bytes × List StrategyType) : Prop where
  uri : lf ∉ sec.1
  ne_nil : sec.2 ≠ []
  strategies : ∀ s ∈ sec.2, s.WellFormed

lemma head?_strategyLine {s : StrategyType} (h : s.WellFormed) :
    (strategyLine s).head? ≠ some bracket := by
  have hhead := h.head_ne
  rw [strategyLine]
  cases hname : s.strategyName with
  | nil =>
    show some colon ≠ some bracket
    decide
  | cons b rest =>
    rw [hname] at hhead
    exact hhead

/-- The two fields of a strategy line. -/
lemma split_strategyLine {s : StrategyType} (h : s.WellFormed) :
    split (strategyLine s) [colon] = [s.strategyName, numToStr s.strategyLevel] := by
  have hline : strategyLine s = [colon].intercalate [s.strategyName, numToStr s.strategyLevel] := by
    simp [strategyLine, List.intercalate]
  have hlast : (strategyLine s).getLast? ≠ some tab := by
    obtain ⟨b, hb⟩ := Option.ne_none_iff_exists'.mp
      (List.getLast?_eq_none_iff.not.mpr (numToStr_ne_nil s.strategyLevel))
    rw [strategyLine, List.getLast?_append, List.getLast?_cons_of_ne_nil (numToStr_ne_nil _), hb,
      Option.some_or]
    intro htab
    rw [htab] at hb
    exact notMem_numToStr (by decide) (by decide) (List.mem_of_getLast? hb)
  rw [hline] at hlast ⊢
  refine split_intercalate ?_ (by simp [List.intercalate]) hlast
  intro f hf
  rcases List.mem_cons.mp hf with rfl | hf
  · exact h.colon_notMem
  · rw [List.mem_singleton] at hf
    rw [hf]
    exact notMem_numToStr (by decide) (by decide)

/-! ## The file is read section by section -/

lemma readLine_strategy (r : Reader) {s : StrategyType} (h : s.WellFormed) :
    readLine r (strategyLine s) = some { r with uriStrategyVec := r.uriStrategyVec ++ [s] } := by
  rw [readLine, if_neg (head?_strategyLine h), split_strategyLine h]
  simp only [atoi_numToStr h.level_int]

lemma foldlM_strategies {strategies : List StrategyType} (h : ∀ s ∈ strategies, s.WellFormed)
    (r : Reader) : (strategies.map strategyLine).foldlM readLine r =
      some { r with uriStrategyVec := r.uriStrategyVec ++ strategies } := by
  induction strategies generalizing r with
  | nil =>
    rw [List.append_nil]
    rfl
  | cons s strategies ih =>
    rw [List.map_cons, List.foldlM_cons, readLine_strategy r (h s List.mem_cons_self)]
    show (strategies.map strategyLine).foldlM readLine _ = _
    rw [ih fun x hx => h x (List.mem_cons_of_mem _ hx), List.append_assoc]
    rfl

/-- What a header does with the section before it. -/
def Reader.flush (r : Reader) : StrategyDict :=
  if r.uriStrategyVec.length ≠ 0 then insert r.curUri r.uriStrategyVec r.strategyConfDict
  else r.strategyConfDict

/-- A section stores the one before it and is then the open one. -/
lemma foldlM_section {sec : Bytes × List StrategyType} (h : WellFormed sec) (r : Reader) :
    (sectionLines sec).foldlM readLine r = some ⟨r.flush, sec.1, sec.2⟩ := by
  have huri : ((bracket :: sec.1 ++ [93]).drop 1).take ((bracket :: sec.1 ++ [93]).length - 2) =
      sec.1 := by
    simp
  have hheader : readLine r (bracket :: sec.1 ++ [93]) = some ⟨r.flush, sec.1, []⟩ := by
    have hhead : (bracket :: sec.1 ++ [93]).head? = some bracket := rfl
    rw [readLine, if_pos hhead, huri]
    rfl
  rw [sectionLines, List.foldlM_cons, hheader]
  show (sec.2.map strategyLine).foldlM readLine _ = _
  rw [foldlM_strategies h.strategies]
  rfl

/-- The sections before the last one are inserted, the last one is assigned. -/
def store (dict : StrategyDict) : List (Bytes × List StrategyType) → StrategyDict
  | [] => dict
  | [sec] => set sec.1 sec.2 dict
  | sec :: sec' :: rest => store (insert sec.1 sec.2 dict) (sec' :: rest)

lemma foldlM_sections {sections : List (Bytes × List StrategyType)}
    (h : ∀ sec ∈ sections, WellFormed sec) {sec : Bytes × List StrategyType} (hsec : WellFormed sec)
    (dict : StrategyDict) :
    ((sections.flatMap sectionLines).foldlM readLine ⟨dict, sec.1, sec.2⟩).map Reader.finish =
      some (store dict (sec :: sections)) := by
  have hlen : ∀ {x : Bytes × List StrategyType}, WellFormed x → x.2.length ≠ 0 :=
    fun hx => List.length_eq_zero_iff.not.mpr hx.ne_nil
  induction sections generalizing sec dict with
  | nil =>
    show some (Reader.finish ⟨dict, sec.1, sec.2⟩) = _
    rw [Reader.finish, if_pos (hlen hsec)]
    rfl
  | cons sec' sections ih =>
    rw [List.flatMap_cons, List.foldlM_append, foldlM_section (h sec' List.mem_cons_self)]
    show ((sections.flatMap sectionLines).foldlM readLine _).map Reader.finish = _
    rw [ih (fun x hx => h x (List.mem_cons_of_mem _ hx)) (h sec' List.mem_cons_self), Reader.flush,
      if_pos (hlen hsec)]
    rfl

lemma lf_notMem_sectionLines {sec : Bytes × List StrategyType} (h : WellFormed sec) :
    ∀ l ∈ sectionLines sec, lf ∉ l := by
  intro l hl
  rcases List.mem_cons.mp hl with rfl | hl
  · have huri := h.uri
    simp [huri]
    decide
  · obtain ⟨s, hs, rfl⟩ := List.mem_map.mp hl
    have hname := (h.strategies s hs).lf_notMem
    have hnum : lf ∉ numToStr s.strategyLevel := notMem_numToStr (by decide) (by decide)
    rw [strategyLine, List.mem_append, List.mem_cons, not_or, not_or]
    exact ⟨hname, by decide, hnum⟩

/-- What a file of well-formed sections leaves in a map. -/
theorem readConfFile_confFile {sections : List (Bytes × List StrategyType)}
    (h : ∀ sec ∈ sections, WellFormed sec) (dict : StrategyDict) :
    readConfFile (confFile sections) dict = some (store dict sections) := by
  have hlines : ∀ l ∈ sections.flatMap sectionLines, lf ∉ l := by
    intro l hl
    obtain ⟨sec, hsec, hl⟩ := List.mem_flatMap.mp hl
    exact lf_notMem_sectionLines (h sec hsec) l hl
  rw [readConfFile, confFile, getLines_unlines hlines]
  cases sections with
  | nil => rfl
  | cons sec sections =>
    have hsec := h sec List.mem_cons_self
    rw [List.flatMap_cons, List.foldlM_append, foldlM_section hsec]
    show ((sections.flatMap sectionLines).foldlM readLine _).map Reader.finish = _
    exact foldlM_sections (fun x hx => h x (List.mem_cons_of_mem _ hx)) hsec dict

/-! ## The round trip -/

lemma find_insert_of_none {uri : Bytes} {dict : StrategyDict} (h : find uri dict = none)
    (strategies : List StrategyType) (uri₀ : Bytes) :
    find uri₀ (insert uri strategies dict) = if uri₀ = uri then some strategies else find uri₀ dict := by
  rw [insert, h]
  exact find_set uri uri₀ strategies dict

/-- Sections with URIs of their own are all stored. -/
lemma find_store {sections : List (Bytes × List StrategyType)}
    (hnodup : (sections.map Prod.fst).Nodup) {dict : StrategyDict}
    (hnew : ∀ sec ∈ sections, find sec.1 dict = none) (uri : Bytes)
    (strategies : List StrategyType) :
    find uri (store dict sections) = some strategies ↔
      (uri, strategies) ∈ sections ∨ find uri dict = some strategies := by
  fun_induction store dict sections with
  | case1 dict => simp
  | case2 dict sec =>
    have hsec := hnew sec List.mem_cons_self
    rw [find_set, List.mem_singleton, Prod.ext_iff]
    split
    · next heq =>
      rw [heq, hsec]
      simp [eq_comm]
    · next hne => simp [hne]
  | case3 dict sec sec' rest ih =>
    have hsec := hnew sec List.mem_cons_self
    rw [List.map_cons, List.nodup_cons] at hnodup
    -- the URIs behind the section are others
    have hother : ∀ x ∈ sec' :: rest, x.1 ≠ sec.1 := by
      intro x hx heq
      exact hnodup.1 (heq ▸ List.mem_map_of_mem hx)
    rw [ih hnodup.2 ?_, find_insert_of_none hsec, List.mem_cons (b := sec), Prod.ext_iff]
    · split
      · next heq =>
        rw [heq, hsec]
        have hnot : (sec.1, strategies) ∉ sec' :: rest := fun hmem => hother _ hmem rfl
        simp [hnot, eq_comm]
      · next hne => simp [hne]
    · intro x hx
      rw [find_insert_of_none hsec, if_neg (hother x hx)]
      exact hnew x (List.mem_cons_of_mem _ hx)

/-- **Strategy configurations round trip.**  A file of well-formed sections with distinct URIs,
read into an empty map, gives exactly the URIs of the sections, each with its strategies and
their levels in the order of the file. -/
theorem readConfFile_round_trip {sections : List (Bytes × List StrategyType)}
    (hnodup : (sections.map Prod.fst).Nodup) (h : ∀ sec ∈ sections, WellFormed sec) :
    ∃ dict, readConfFile (confFile sections) [] = some dict ∧
      ∀ uri strategies, find uri dict = some strategies ↔ (uri, strategies) ∈ sections := by
  refine ⟨store [] sections, readConfFile_confFile h [], fun uri strategies => ?_⟩
  rw [find_store hnodup (fun _ _ => rfl)]
  simp

/-- The first two sections of the configuration that is shipped. -/
theorem readConfFile_round_trip_two :
    ∃ dict, readConfFile
        (confFile [(bytes "/suggest", [⟨bytes "SuggestStrategy", 255⟩]),
          (bytes "/", [⟨bytes "TextStrategy", 255⟩, ⟨bytes "RewriteStrategy", 255⟩])]) [] =
        some dict ∧
      ∀ uri strategies, find uri dict = some strategies ↔
        (uri, strategies) ∈ [(bytes "/suggest", [(⟨bytes "SuggestStrategy", 255⟩ : StrategyType)]),
          (bytes "/", [⟨bytes "TextStrategy", 255⟩, ⟨bytes "RewriteStrategy", 255⟩])] := by
  refine readConfFile_round_trip (by decide) fun sec hsec => ?_
  have hlevel : IsInt 255 := isInt_of_lt (n := 255) (by norm_num)
  have hname : ∀ s ∈ [(⟨bytes "SuggestStrategy", 255⟩ : StrategyType),
      ⟨bytes "TextStrategy", 255⟩, ⟨bytes "RewriteStrategy", 255⟩], s.WellFormed := by
    intro s hs
    simp only [List.mem_cons, List.not_mem_nil, or_false] at hs
    rcases hs with rfl | rfl | rfl
    · exact ⟨by decide, by decide, by decide, hlevel⟩
    · exact ⟨by decide, by decide, by decide, hlevel⟩
    · exact ⟨by decide, by decide, by decide, hlevel⟩
  simp only [List.mem_cons, List.not_mem_nil, or_false] at hsec
  rcases hsec with rfl | rfl
  · refine ⟨by decide, by decide, fun s hs => hname s ?_⟩
    exact List.mem_cons.mpr (Or.inl (List.mem_singleton.mp hs))
  · exact ⟨by decide, by decide, fun s hs => hname s (List.mem_cons_of_mem _ hs)⟩

end Config
end Sunet
