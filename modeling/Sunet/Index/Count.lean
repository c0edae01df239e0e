/-
# What `build_index` counts

The maps of a corpus are described term by term: the valid lines that have the term, in the
order of the corpus, each with its document and the number of times it has the term.  The
counters of the source are of the type `int`, so they agree with this description exactly as
long as the term occurs less than `2 ^ 31` times.
-/
import Sunet.Index.Build

namespace Sunet
namespace Index

open StringUtil Byte SortedMap

/-! ## The definition -/

/-- The document and the segments of a line of two fields. -/
def parseLine (segment : Bytes → List Bytes) (line : Bytes) : Option (ℤ × List Bytes) :=
  match split line [tab] with
  | [val₀, val₁] => some (atoi val₀, segment val₁)
  | _ => none

/-- The document of a line and how often the line has a term, if it has it. -/
def occurrence (segment : Bytes → List Bytes) (term line : Bytes) : Option (ℤ × ℕ) :=
  match parseLine segment line with
  | some (id, segResults) =>
    if segResults.count term = 0 then none else some (id, segResults.count term)
  | none => none

/-- The occurrences of a term in a list of lines. -/
def occurrences (segment : Bytes → List Bytes) (lines : List Bytes) (term : Bytes) :
    List (ℤ × ℕ) :=
  lines.filterMap (occurrence segment term)

/-- How often a term occurs. -/
def total (occ : List (ℤ × ℕ)) : ℕ := (occ.map Prod.snd).sum

/-- The entries of a term in the maps are given by its occurrences; without an occurrence
there are none. -/
structure Describes (occ : List (ℤ × ℕ)) (maps : Maps) (term : Bytes) : Prop where
  index : find term maps.index =
    if occ = [] then none else some (occ.map fun o => ⟨o.1, o.2⟩)
  wordDocFreq : find term maps.wordDocFreq = if occ = [] then none else some (occ.length : ℤ)
  wordFreq : find term maps.wordFreq = if occ = [] then none else some (total occ : ℤ)

/-- The same with every counter taken as an `int`. -/
structure DescribesInt (occ : List (ℤ × ℕ)) (maps : Maps) (term : Bytes) : Prop where
  index : find term maps.index =
    if occ = [] then none else some (occ.map fun o => ⟨o.1, wrapInt o.2⟩)
  wordDocFreq : find term maps.wordDocFreq =
    if occ = [] then none else some (wrapInt occ.length)
  wordFreq : find term maps.wordFreq = if occ = [] then none else some (wrapInt (total occ))

/-! ## The loops -/

lemma find_increment (counts : List (Bytes × ℤ)) (term term₀ : Bytes) :
    find term₀ (increment counts term) =
      if term₀ = term then some (wrapInt ((find term counts).getD 0 + 1))
      else find term₀ counts :=
  find_set _ _ _ _

/-- The loop over the segments of a line. -/
lemma find_foldl_increment (segResults : List Bytes) (counts : List (Bytes × ℤ)) (term : Bytes) :
    find term (segResults.foldl increment counts) =
      if segResults.count term = 0 then find term counts
      else some (wrapInt ((find term counts).getD 0 + segResults.count term)) := by
  induction segResults generalizing counts with
  | nil => rfl
  | cons s segResults ih =>
    rw [List.foldl_cons, ih, find_increment]
    by_cases hs : term = s
    · subst hs
      rw [List.count_cons_self, if_pos rfl, if_neg (Nat.succ_ne_zero _), Option.getD_some,
        wrapInt_wrapInt_add]
      have hsum : (find term counts).getD 0 + 1 + (segResults.count term : ℤ) =
          (find term counts).getD 0 + ((segResults.count term + 1 : ℕ) : ℤ) := by
        omega
      rw [hsum]
      split
      · next hzero => rw [hzero]; rfl
      · rfl
    · rw [List.count_cons_of_ne (Ne.symm hs), if_neg hs]

/-- The loop over the terms of a line. -/
lemma find_foldl_addPosting (id : ℤ) {cntMap : List (Bytes × ℤ)} (hsorted : Sorted cntMap)
    (maps : Maps) (term : Bytes) :
    let maps' := cntMap.foldl (addPosting id) maps
    find term maps'.index =
        (match find term cntMap with
        | none => find term maps.index
        | some cnt => some ((find term maps.index).getD [] ++ [⟨id, cnt⟩])) ∧
      find term maps'.wordDocFreq =
        (match find term cntMap with
        | none => find term maps.wordDocFreq
        | some _ => some (wrapInt ((find term maps.wordDocFreq).getD 0 + 1))) ∧
      maps'.wordFreq = maps.wordFreq := by
  induction cntMap generalizing maps with
  | nil => exact ⟨rfl, rfl, rfl⟩
  | cons e cntMap ih =>
    obtain ⟨s, cnt⟩ := e
    -- the keys are distinct, so the term of the entry does not come up again
    have hnone := hsorted.find_tail
    rw [Sorted, List.map_cons, List.pairwise_cons] at hsorted
    obtain ⟨hindex, hfreq, hword⟩ := ih hsorted.2 (addPosting id maps (s, cnt))
    rw [List.foldl_cons]
    refine ⟨hindex.trans ?_, hfreq.trans ?_, hword⟩
    · rw [find, addPosting, find_set]
      by_cases hs : term = s
      · rw [hs, hnone, if_pos rfl, if_pos rfl]
      · rw [if_neg hs, if_neg hs]
    · rw [find, addPosting, find_increment]
      by_cases hs : term = s
      · rw [hs, hnone, if_pos rfl, if_pos rfl]
      · rw [if_neg hs, if_neg hs]

lemma sorted_foldl_increment (segResults : List Bytes) {counts : List (Bytes × ℤ)}
    (h : Sorted counts) : Sorted (segResults.foldl increment counts) := by
  induction segResults generalizing counts with
  | nil => exact h
  | cons s segResults ih => exact ih (h.set _ _)

lemma total_append (occ occ' : List (ℤ × ℕ)) : total (occ ++ occ') = total occ + total occ' := by
  rw [total, List.map_append, List.sum_append]
  rfl

lemma DescribesInt.empty (term : Bytes) : DescribesInt [] Maps.empty term := ⟨rfl, rfl, rfl⟩

/-- A line is added by its document and its segments. -/
lemma addLine_eq (segment : Bytes → List Bytes) (maps : Maps) (line : Bytes) :
    addLine segment maps line =
      match parseLine segment line with
      | some (id, segResults) =>
        (segResults.foldl increment []).foldl (addPosting id)
          { maps with
            docLength := set id (wrapInt line.length) maps.docLength
            wordFreq := segResults.foldl increment maps.wordFreq }
      | none => maps := by
  rw [addLine]
  split
  · next val₀ val₁ hsplit =>
    have hparse : parseLine segment line = some (atoi val₀, segment val₁) := by
      rw [parseLine, hsplit]
    rw [hparse]
  · next hsplit =>
    have hparse : parseLine segment line = none := by
      rw [parseLine]
      split
      · next val₀ val₁ h => exact absurd h (hsplit val₀ val₁)
      · rfl
    rw [hparse]

lemma sorted_nil : Sorted ([] : List (Bytes × ℤ)) := List.Pairwise.nil

/-- A counter that is absent stands for 0. -/
lemma getD_counter {occ : List (ℤ × ℕ)} {n : ℕ} (hnil : occ = [] → n = 0) :
    (if occ = [] then none else some (wrapInt n)).getD 0 = wrapInt n := by
  have hzero : wrapInt ((0 : ℕ) : ℤ) = ((0 : ℕ) : ℤ) := isInt_of_lt (by norm_num)
  split
  · next h => rw [hnil h, hzero, Option.getD_none, Nat.cast_zero]
  · rw [Option.getD_some]

/-- One line: its occurrence of the term is put behind the others. -/
lemma DescribesInt.addLine {segment : Bytes → List Bytes} {occ : List (ℤ × ℕ)} {maps : Maps}
    {term : Bytes} (h : DescribesInt occ maps term) (line : Bytes) :
    DescribesInt (occ ++ (occurrence segment term line).toList) (addLine segment maps line) term := by
  rw [addLine_eq, occurrence]
  cases parseLine segment line with
  | none =>
    rw [Option.toList_none, List.append_nil]
    exact h
  | some doc =>
    obtain ⟨id, segResults⟩ := doc
    obtain ⟨hindex, hfreq, hword⟩ := find_foldl_addPosting id
      (sorted_foldl_increment segResults sorted_nil)
      { maps with
        docLength := SortedMap.set id (wrapInt line.length) maps.docLength
        wordFreq := segResults.foldl increment maps.wordFreq } term
    have hcnt := find_foldl_increment segResults [] term
    have htot := find_foldl_increment segResults maps.wordFreq term
    rw [find_nil, Option.getD_none, zero_add] at hcnt
    rw [hcnt] at hindex hfreq
    dsimp only
    -- a document without the term leaves its entries alone
    by_cases hzero : segResults.count term = 0
    · rw [if_pos hzero] at hindex hfreq htot ⊢
      rw [Option.toList_none, List.append_nil]
      refine ⟨hindex.trans h.index, hfreq.trans h.wordDocFreq, ?_⟩
      rw [hword]
      exact htot.trans h.wordFreq
    · rw [if_neg hzero] at hindex hfreq htot ⊢
      have hne : occ ++ (some (id, segResults.count term)).toList ≠ [] := by simp
      refine ⟨hindex.trans ?_, hfreq.trans ?_, ?_⟩
      · have hold : (find term maps.index).getD [] = occ.map fun o => ⟨o.1, wrapInt o.2⟩ := by
          rw [h.index]
          split
          · next hnil => rw [hnil]; rfl
          · rfl
        rw [if_neg hne, Option.toList_some, List.map_append, List.map_singleton, ← hold]
      · rw [if_neg hne]
        dsimp only
        rw [h.wordDocFreq, getD_counter (fun hnil => by rw [hnil]; rfl), wrapInt_wrapInt_add,
          Option.toList_some, List.length_append, List.length_singleton, Nat.cast_add, Nat.cast_one]
      · have hlast : total [(id, segResults.count term)] = segResults.count term := by
          rw [total, List.map_singleton, List.sum_singleton]
        rw [if_neg hne, hword, htot, h.wordFreq, getD_counter (fun hnil => by rw [hnil]; rfl),
          wrapInt_wrapInt_add, Option.toList_some, total_append, hlast, Nat.cast_add]

/-- The reading loop, by induction on the lines that are left. -/
lemma DescribesInt.foldl_addLine {segment : Bytes → List Bytes} {term : Bytes} (lines : List Bytes)
    {occ : List (ℤ × ℕ)} {maps : Maps} (h : DescribesInt occ maps term) :
    DescribesInt (occ ++ occurrences segment lines term) (lines.foldl (Index.addLine segment) maps)
      term := by
  induction lines generalizing occ maps with
  | nil =>
    rw [occurrences, List.filterMap_nil, List.append_nil]
    exact h
  | cons line lines ih =>
    have hcons : occurrences segment (line :: lines) term =
        (occurrence segment term line).toList ++ occurrences segment lines term := by
      rw [occurrences, List.filterMap_cons]
      cases occurrence segment term line <;> rfl
    rw [hcons, ← List.append_assoc]
    exact ih (h.addLine line)

/-! ## The maps of a corpus -/

lemma describesInt_buildMaps (segment : Bytes → List Bytes) (corpus term : Bytes) :
    DescribesInt (occurrences segment (getLines corpus) term) (buildMaps segment corpus) term :=
  (DescribesInt.empty term).foldl_addLine (getLines corpus)

lemma occurrence_pos {segment : Bytes → List Bytes} {term line : Bytes} {o : ℤ × ℕ}
    (h : occurrence segment term line = some o) : 0 < o.2 := by
  rw [occurrence] at h
  split at h
  · split at h
    · cases h
    · next hcount =>
      rw [← Option.some.inj h]
      exact Nat.pos_of_ne_zero hcount
  · cases h

/-- No occurrence counts for more than the total, and each of them counts. -/
lemma le_total (segment : Bytes → List Bytes) (lines : List Bytes) (term : Bytes) :
    (∀ o ∈ occurrences segment lines term, o.2 ≤ total (occurrences segment lines term)) ∧
      (occurrences segment lines term).length ≤ total (occurrences segment lines term) := by
  constructor
  · intro o ho
    exact List.le_sum_of_mem (List.mem_map_of_mem ho)
  · rw [total, ← List.length_map (f := Prod.snd)]
    refine List.length_le_sum_of_one_le _ fun n hn => ?_
    obtain ⟨o, ho, rfl⟩ := List.mem_map.mp hn
    obtain ⟨line, -, hline⟩ := List.mem_filterMap.mp ho
    exact occurrence_pos hline

/-- Counters that do not overflow are the numbers they count. -/
lemma DescribesInt.describes {segment : Bytes → List Bytes} {lines : List Bytes} {term : Bytes}
    {maps : Maps} (h : DescribesInt (occurrences segment lines term) maps term)
    (hlt : total (occurrences segment lines term) < 2 ^ 31) :
    Describes (occurrences segment lines term) maps term := by
  obtain ⟨hcnt, hlen⟩ := le_total segment lines term
  refine ⟨?_, ?_, ?_⟩
  · have hmap : ((occurrences segment lines term).map fun o => (⟨o.1, wrapInt o.2⟩ : ReverseIndex)) =
        (occurrences segment lines term).map fun o => ⟨o.1, o.2⟩ := by
      refine List.map_congr_left fun o ho => ?_
      rw [show wrapInt o.2 = o.2 from isInt_of_lt ((hcnt o ho).trans_lt hlt)]
    rw [h.index, hmap]
  · rw [h.wordDocFreq, show wrapInt (occurrences segment lines term).length = _ from
      isInt_of_lt (hlen.trans_lt hlt)]
  · rw [h.wordFreq, show wrapInt (total (occurrences segment lines term)) = _ from isInt_of_lt hlt]

/-- A total that its counter holds is an `int`. -/
lemma Describes.total_lt {occ : List (ℤ × ℕ)} {maps : Maps} {term : Bytes}
    (h : Describes occ maps term) (hint : DescribesInt occ maps term) : total occ < 2 ^ 31 := by
  have heq := hint.wordFreq.symm.trans h.wordFreq
  split at heq
  · next hnil =>
    rw [hnil]
    decide
  · obtain ⟨-, hlt⟩ := (show IsInt (total occ) from Option.some.inj heq).bounds
    omega

/-- **The index is what its definition says** for the terms that occur less than `2 ^ 31` times,
and for no others; and the three maps have the same terms. -/
theorem buildMaps_describes (segment : Bytes → List Bytes) (corpus term : Bytes) :
    let maps := buildMaps segment corpus
    let occ := occurrences segment (getLines corpus) term
    (Describes occ maps term ↔ total occ < 2 ^ 31) ∧
      (find term maps.index = none ↔ occ = []) ∧
      (find term maps.wordDocFreq = none ↔ occ = []) ∧
      (find term maps.wordFreq = none ↔ occ = []) := by
  intro maps occ
  have h : DescribesInt occ maps term := describesInt_buildMaps segment corpus term
  refine ⟨⟨fun hd => hd.total_lt h, fun hlt => h.describes hlt⟩, ?_, ?_, ?_⟩
  · rw [h.index]
    simp
  · rw [h.wordDocFreq]
    simp
  · rw [h.wordFreq]
    simp

/-- The occurrences of a term that is all a line has. -/
lemma occurrences_replicate {n : ℕ} (hn : n ≠ 0) :
    occurrences (fun _ => List.replicate n (bytes "a")) (getLines (bytes "1\tx\n")) (bytes "a") =
      [(1, n)] := by
  have hlines : getLines (bytes "1\tx\n") = [bytes "1\tx"] := by decide
  have hsplit : split (bytes "1\tx") [tab] = [bytes "1", bytes "x"] := by decide
  have hid : atoi (bytes "1") = 1 := by decide
  have hocc : occurrence (fun _ => List.replicate n (bytes "a")) (bytes "a") (bytes "1\tx") =
      some (1, n) := by
    rw [occurrence, parseLine, hsplit]
    simp only [List.count_replicate_self, hid, hn, if_false]
  rw [hlines, occurrences, List.filterMap_cons, hocc, List.filterMap_nil]

/-- A line with a term `2 ^ 31` times. -/
theorem not_buildMaps_describes :
    ¬ ∀ (segment : Bytes → List Bytes) (corpus term : Bytes),
      Describes (occurrences segment (getLines corpus) term) (buildMaps segment corpus) term := by
  intro h
  have hlt := (h (fun _ => List.replicate (2 ^ 31) (bytes "a")) (bytes "1\tx\n")
    (bytes "a")).total_lt (describesInt_buildMaps _ _ _)
  rw [occurrences_replicate (by norm_num), total, List.map_singleton, List.sum_singleton] at hlt
  exact lt_irrefl _ hlt

end Index
end Sunet
