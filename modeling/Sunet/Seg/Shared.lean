/-
# Segmentation by several threads

There is one `WordSeg` and one tagger in it, whose lines and rows are kept between the calls
of its member functions.  `segment` uses it between locking and unlocking `seg_mutex`: it
clears the tagger, adds a line for each character, has them parsed and reads the rows one by
one.  So in every interleaving a call returns what it returns when no other thread is there,
whatever the calls before it have left in the tagger.
-/
import Sunet.Lib.Critical
import Sunet.Seg.WordSeg

namespace Sunet
namespace Seg

open Critical Transition StringUtil

/-! ## The model -/

/-- What a tagger keeps: the lines that were added since `clear`, and the rows of `parse`. -/
structure TaggerState where
  lines : List Bytes
  rows : List Row
deriving DecidableEq, Repr

/-- Where a call of `segment` is, behind the lock; `segResults` is the vector of the caller. -/
inductive SegVars
  /-- Before `clear`. -/
  | clearing (words segResults : List Bytes)
  /-- In the loop over the characters, before `add`, or before `parse` if none is left. -/
  | adding (words segResults : List Bytes)
  /-- Before `size`. -/
  | parsed (segResults : List Bytes)
  /-- In the loop over the rows, before `y2(i)` and `x(i, 0)`. -/
  | reading (rows i : ℕ) (segStr : Bytes) (segResults : List Bytes)
  /-- Behind a `parse` that has failed. -/
  | failed (segResults : List Bytes)
  /-- Behind a line that does not fit in `context`, or a row that is not there. -/
  | undefined
deriving DecidableEq, Repr

/-- The next call of a member function of the tagger. -/
def segAccess (tagger : Tagger) : SegVars → TaggerState → Option (SegVars × TaggerState)
  | .clearing words segResults, _ => some (.adding words segResults, ⟨[], []⟩)
  | .adding (word :: words) segResults, st =>
    match context word with
    | none => some (.undefined, st)
    | some line => some (.adding words segResults, { st with lines := st.lines ++ [line] })
  | .adding [] segResults, st =>
    match tagger.parse st.lines with
    | none => some (.failed segResults, st)
    | some rows => some (.parsed segResults, { st with rows := rows })
  -- `seg_results` is cleared behind `size`
  | .parsed _, st => some (.reading st.rows.length 0 [] [], st)
  | .reading rows i segStr segResults, st =>
    if i < rows then
      match st.rows[i]? with
      | none => some (.undefined, st)
      | some row =>
        let segStr := segStr ++ row.x₀
        if EndsWord row.y2 then some (.reading rows (i + 1) [] (segResults ++ [segStr]), st)
        else some (.reading rows (i + 1) segStr segResults, st)
    else none
  | .failed _, _ => none
  | .undefined, _ => none

/-- What `split_ch_words` leaves in front of the lock. -/
def segStart (segResults : List Bytes) : Option (List Bytes) → SegVars
  | none => .undefined
  | some words => .clearing words segResults

/-- The value returned and the segments. -/
def segRet : SegVars → Option (SegRet × List Bytes)
  | .reading _ _ _ segResults => some (.ok, segResults)
  | .failed segResults => some (.fail, segResults)
  | _ => none

/-- `segment` on a tagger that is there, for a string and the vector of the caller.  The
characters are split before the lock, from the string alone. -/
def segBody (tagger : Tagger) :
    Body (Bytes × List Bytes) TaggerState SegVars (Option (SegRet × List Bytes)) where
  start arg := segStart arg.2 (splitChInt arg.1)
  access := segAccess tagger
  result := segRet

@[simp] lemma start_segBody (tagger : Tagger) (arg : Bytes × List Bytes) :
    (segBody tagger).start arg = segStart arg.2 (splitChInt arg.1) := by
  rw [segBody]

@[simp] lemma access_segBody (tagger : Tagger) : (segBody tagger).access = segAccess tagger := rfl

@[simp] lemma result_segBody (tagger : Tagger) : (segBody tagger).result = segRet := rfl

/-! ## A call that nothing interrupts -/

/-- What the lines of a tagger give. -/
def parseLines (tagger : Tagger) (segResults lines : List Bytes) : SegRet × List Bytes :=
  match tagger.parse lines with
  | none => (.fail, segResults)
  | some rows => (.ok, segLoop [] rows)

/-- What a call will return that is on its way. -/
def outcome (tagger : Tagger) : SegVars → TaggerState → Option (SegRet × List Bytes)
  | .clearing words segResults, _ => (words.mapM context).map (parseLines tagger segResults)
  | .adding words segResults, st =>
    (words.mapM context).map fun lines => parseLines tagger segResults (st.lines ++ lines)
  | .parsed _, st => some (.ok, segLoop [] st.rows)
  | .reading _ i segStr segResults, st =>
    some (.ok, segResults ++ segLoop segStr (st.rows.drop i))
  | .failed segResults, _ => some (.fail, segResults)
  | .undefined, _ => none

/-- The loop over the rows ends behind the last of them. -/
def CountsRows : SegVars → TaggerState → Prop
  | .reading rows _ _ _, st => rows = st.rows.length
  | _, _ => True

lemma outcome_access {tagger : Tagger} {vars vars' : SegVars} {st st' : TaggerState}
    (hrows : CountsRows vars st) (h : segAccess tagger vars st = some (vars', st')) :
    CountsRows vars' st' ∧ outcome tagger vars' st' = outcome tagger vars st := by
  cases vars with
  | clearing words segResults =>
    cases h
    exact ⟨trivial, rfl⟩
  | adding words segResults =>
    cases words with
    | nil =>
      rw [segAccess] at h
      have hlines : outcome tagger (.adding [] segResults) st =
          some (parseLines tagger segResults st.lines) := by
        show some (parseLines tagger segResults (st.lines ++ [])) = _
        rw [List.append_nil]
      rw [hlines, parseLines]
      split at h
      · next hparse =>
        cases h
        exact ⟨trivial, rfl⟩
      · next rows hparse =>
        cases h
        exact ⟨trivial, rfl⟩
    | cons word words =>
      rw [segAccess] at h
      rw [outcome, List.mapM_cons]
      split at h
      · next hcontext =>
        cases h
        rw [hcontext]
        exact ⟨trivial, rfl⟩
      · next line hcontext =>
        cases h
        rw [hcontext, outcome]
        refine ⟨trivial, ?_⟩
        cases words.mapM context with
        | none => rfl
        | some lines =>
          show some (parseLines tagger segResults ((st.lines ++ [line]) ++ lines)) = _
          rw [List.append_assoc, List.singleton_append]
          rfl
  | parsed segResults =>
    cases h
    exact ⟨rfl, rfl⟩
  | reading rows i segStr segResults =>
    rw [segAccess] at h
    split at h
    · next hi =>
      have hlt : i < st.rows.length := hrows ▸ hi
      rw [List.getElem?_eq_getElem hlt] at h
      rw [outcome, List.drop_eq_getElem_cons hlt, segLoop]
      dsimp only at h ⊢
      split at h
      · next hends =>
        cases h
        rw [if_pos hends, outcome, List.append_assoc, List.singleton_append]
        exact ⟨hrows, rfl⟩
      · next hends =>
        cases h
        rw [if_neg hends]
        exact ⟨hrows, rfl⟩
    · cases h
  | failed segResults => cases h
  | undefined => cases h

/-- Behind the lock a call will return what the tagger gives for the characters. -/
lemma outcome_segStart (tagger : Tagger) (segResults : List Bytes) (split : Option (List Bytes))
    (st : TaggerState) :
    CountsRows (segStart segResults split) st ∧ outcome tagger (segStart segResults split) st =
      split.bind fun words => (words.mapM context).map (parseLines tagger segResults) := by
  cases split with
  | none => exact ⟨trivial, rfl⟩
  | some words => exact ⟨trivial, rfl⟩

lemma segment_eq (tagger : Tagger) (str : Bytes) (segResults : List Bytes) :
    segment (some tagger) str segResults =
      (splitChInt str).bind fun words =>
        (words.mapM context).map (parseLines tagger segResults) := by
  rw [segment, Option.bind_eq_bind]
  congr 1
  funext words
  cases words.mapM context with
  | none => rfl
  | some lines =>
    rw [Option.bind_some, Option.map_some, parseLines]
    cases tagger.parse lines <;> rfl

/-- A call that nothing interrupts returns what `segment` does. -/
lemma executes_segment {tagger : Tagger} {arg : Bytes × List Bytes} {st st' : TaggerState}
    {ret : Option (SegRet × List Bytes)} (h : (segBody tagger).Executes arg st ret st') :
    ret = segment (some tagger) arg.1 arg.2 := by
  obtain ⟨vars, hleads, hend, rfl⟩ := h
  rw [start_segBody] at hleads
  rw [access_segBody] at hend
  rw [result_segBody, segment_eq]
  have hstart := outcome_segStart tagger arg.2 (splitChInt arg.1) st
  generalize splitChInt arg.1 = split at hleads hstart ⊢
  -- on the way nothing changes what the call will return
  have hway : CountsRows vars st' ∧ outcome tagger vars st' =
      split.bind fun words => (words.mapM context).map (parseLines tagger arg.2) := by
    clear hend
    induction hleads with
    | refl => exact hstart
    | tail _ haccess ih =>
      obtain ⟨hrows, hout⟩ := outcome_access ih.1 haccess
      exact ⟨hrows, hout.trans ih.2⟩
  rw [← hway.2]
  cases vars with
  | clearing words segResults => cases hend
  | adding words segResults =>
    cases words with
    | nil =>
      rw [segAccess] at hend
      split at hend <;> cases hend
    | cons word words =>
      rw [segAccess] at hend
      split at hend <;> cases hend
  | parsed segResults => cases hend
  | reading rows i segStr segResults =>
    have hle : st'.rows.length ≤ i := by
      rw [← show rows = st'.rows.length from hway.1]
      by_contra hlt
      rw [segAccess, if_pos (not_le.mp hlt)] at hend
      split at hend
      · cases hend
      · dsimp only at hend
        split at hend <;> cases hend
    rw [outcome, List.drop_eq_nil_of_le hle, segLoop, List.append_nil]
    rfl
  | failed segResults => rfl
  | undefined => rfl

/-- The rows are read up to the last one. -/
lemma exists_end_reading (tagger : Tagger) (rows : ℕ) (st : TaggerState) :
    ∀ (n i : ℕ) (segStr : Bytes) (segResults : List Bytes), rows - i ≤ n →
      ∃ vars st', (segBody tagger).Leads (.reading rows i segStr segResults) st vars st' ∧
        segAccess tagger vars st' = none := by
  have hdone : ∀ (i : ℕ) (segStr : Bytes) (segResults : List Bytes), ¬ i < rows →
      ∃ vars st', (segBody tagger).Leads (.reading rows i segStr segResults) st vars st' ∧
        segAccess tagger vars st' = none :=
    fun i segStr segResults hi => ⟨_, _, .refl, by rw [segAccess, if_neg hi]⟩
  intro n
  induction n with
  | zero => exact fun i segStr segResults hn => hdone i segStr segResults (by omega)
  | succ n ih =>
    intro i segStr segResults hn
    by_cases hi : i < rows
    · cases hrow : st.rows[i]? with
      | none =>
        refine ⟨.undefined, st, .tail .refl ?_, rfl⟩
        rw [access_segBody, segAccess, if_pos hi, hrow]
      | some row =>
        by_cases hends : EndsWord row.y2
        · obtain ⟨vars, st', hleads, hend⟩ := ih (i + 1) [] (segResults ++ [segStr ++ row.x₀])
            (by omega)
          refine ⟨vars, st', hleads.head ?_, hend⟩
          rw [access_segBody, segAccess, if_pos hi, hrow]
          exact if_pos hends
        · obtain ⟨vars, st', hleads, hend⟩ := ih (i + 1) (segStr ++ row.x₀) segResults (by omega)
          refine ⟨vars, st', hleads.head ?_, hend⟩
          rw [access_segBody, segAccess, if_pos hi, hrow]
          exact if_neg hends
    · exact hdone i segStr segResults hi

lemma exists_end_adding (tagger : Tagger) (segResults words : List Bytes) (st : TaggerState) :
    ∃ vars st', (segBody tagger).Leads (.adding words segResults) st vars st' ∧
      segAccess tagger vars st' = none := by
  induction words generalizing st with
  | nil =>
    cases hparse : tagger.parse st.lines with
    | none =>
      refine ⟨.failed segResults, st, .tail .refl ?_, rfl⟩
      rw [access_segBody, segAccess, hparse]
    | some rows =>
      obtain ⟨vars, st', hleads, hend⟩ :=
        exists_end_reading tagger rows.length ⟨st.lines, rows⟩ rows.length 0 [] [] (by omega)
      have hsize : (segBody tagger).Leads (.parsed segResults) ⟨st.lines, rows⟩ vars st' :=
        hleads.head rfl
      refine ⟨vars, st', hsize.head ?_, hend⟩
      rw [access_segBody, segAccess, hparse]
  | cons word words ih =>
    cases hcontext : context word with
    | none =>
      refine ⟨.undefined, st, .tail .refl ?_, rfl⟩
      rw [access_segBody, segAccess, hcontext]
    | some line =>
      obtain ⟨vars, st', hleads, hend⟩ := ih { st with lines := st.lines ++ [line] }
      refine ⟨vars, st', hleads.head ?_, hend⟩
      rw [access_segBody, segAccess, hcontext]

/-- No call keeps the mutex for ever. -/
lemma exists_executes (tagger : Tagger) (arg : Bytes × List Bytes) (st : TaggerState) :
    ∃ ret st', (segBody tagger).Executes arg st ret st' := by
  obtain ⟨vars, st', hleads, hend⟩ : ∃ vars st',
      (segBody tagger).Leads (segStart arg.2 (splitChInt arg.1)) st vars st' ∧
        segAccess tagger vars st' = none := by
    generalize splitChInt arg.1 = split
    cases split with
    | none => exact ⟨_, _, .refl, rfl⟩
    | some words =>
      obtain ⟨vars, st', hleads, hend⟩ := exists_end_adding tagger arg.2 words ⟨[], []⟩
      exact ⟨vars, st', hleads.head rfl, hend⟩
  refine ⟨_, st', vars, ?_, hend, rfl⟩
  rw [start_segBody]
  exact hleads

/-! ## The result -/

/-- **Threads that segment at the same time do not disturb each other.**  Whatever the tagger
held at the start and whatever the interleaving, every call that has returned has the value
and the segments of a call that is alone; no two threads are at the tagger together; and a
call that waits for the mutex can be brought to its end by threads that are in a call. -/
theorem segment_shared {θ : Type} [DecidableEq θ] (tagger : Tagger) {st : TaggerState}
    {s : State θ (Bytes × List Bytes) TaggerState SegVars (Option (SegRet × List Bytes))}
    (h : Reachable (step (segBody tagger)) (init st) s) :
    (∀ call ∈ s.returned, call.ret = segment (some tagger) call.arg.1 call.arg.2) ∧
      (∀ t t', s.Inside t → s.Inside t' → t = t') ∧
      ∀ t str segResults, s.pc t = .waiting (str, segResults) →
        ∃ as s', NoCall as ∧ run (step (segBody tagger)) s as = some s' ∧ s'.pc t = .outside ∧
          ⟨t, (str, segResults), segment (some tagger) str segResults⟩ ∈ s'.returned := by
  have hall : ∀ {s : State θ (Bytes × List Bytes) TaggerState SegVars
      (Option (SegRet × List Bytes))}, Reachable (step (segBody tagger)) (init st) s →
      ∀ call ∈ s.returned, call.ret = segment (some tagger) call.arg.1 call.arg.2 := by
    intro s h
    obtain ⟨free, hserial, -⟩ := (inv_of_reachable h).serial
    exact hserial.forall_ret (P := fun arg ret => ret = segment (some tagger) arg.1 arg.2)
      fun _ _ _ _ hcall => executes_segment hcall
  have hinv := inv_of_reachable h
  refine ⟨hall h, fun t t' ht ht' => hinv.mutex.eq_of_holds ht ht', ?_⟩
  intro t str segResults hpc
  obtain ⟨as, s', ret, hno, hrun, hout, hmem⟩ := hinv.exists_return hpc
    (exists_executes tagger _) fun _ _ _ _ => exists_executes tagger _
  have hret : ret = _ := hall (reachable_of_run h hrun) _ hmem
  exact ⟨as, s', hno, hrun, hout, hret ▸ hmem⟩

/-- A thread reads its row while another one waits. -/
theorem segment_shared_two :
    let tagger := constantTagger (bytes "S")
    ∃ s : State Bool (Bytes × List Bytes) TaggerState SegVars (Option (SegRet × List Bytes)),
      run (step (segBody tagger)) (init ⟨[bytes "x"], []⟩)
        [.call true (bytes "a", []), .lock true, .access true, .call false (bytes "b", []),
          .access true, .access true] = some s ∧
      (∀ call ∈ s.returned, call.ret = segment (some tagger) call.arg.1 call.arg.2) ∧
      (∀ t t', s.Inside t → s.Inside t' → t = t') ∧
      ∀ t str segResults, s.pc t = .waiting (str, segResults) →
        ∃ as s', NoCall as ∧ run (step (segBody tagger)) s as = some s' ∧ s'.pc t = .outside ∧
          ⟨t, (str, segResults), segment (some tagger) str segResults⟩ ∈ s'.returned := by
  intro tagger
  obtain ⟨s, hrun⟩ : ∃ s : State Bool (Bytes × List Bytes) TaggerState SegVars
      (Option (SegRet × List Bytes)), run (step (segBody tagger)) (init ⟨[bytes "x"], []⟩)
        [.call true (bytes "a", []), .lock true, .access true, .call false (bytes "b", []),
          .access true, .access true] = some s := ⟨_, rfl⟩
  exact ⟨s, hrun, segment_shared tagger (reachable_of_run .init hrun)⟩

end Seg
end Sunet
