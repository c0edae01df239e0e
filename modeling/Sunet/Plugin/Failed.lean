/-
# Failed initialisations

`_init_strategies` puts the strategies of a URI into the table as soon as it has them, and it
gives up at the first URI with a name that `_produce` does not know.  The URIs before that one
stay in the table.  The instances are new, so that the table is as it was only if none of these
URIs has a strategy.
-/
import Sunet.Plugin.Dispatch

namespace Sunet
namespace Plugin

open SortedMap Config

/-- `_init_strategies` when the instances in `heap` have been made before. -/
def initAgain (heap : List StrategyClass) (strategyTypeMap : StrategyDict)
    (uris : UriStrategies) : ℤ × Factory × UriStrategies :=
  initLoop strategyTypeMap ⟨heap, []⟩ uris

example (strategyTypeMap : StrategyDict) (uris : UriStrategies) :
    initStrategies strategyTypeMap uris = initAgain [] strategyTypeMap uris := rfl

/-- `_produce` knows the names of an entry. -/
def Known (e : Bytes × List StrategyType) : Prop :=
  ∀ s ∈ e.2, strategyClass s.strategyName ≠ none

instance (e : Bytes × List StrategyType) : Decidable (Known e) :=
  inferInstanceAs (Decidable (∀ s ∈ e.2, strategyClass s.strategyName ≠ none))

/-! ## Unknown names -/

lemma Factory.Ok.instanceOf_unknown {f : Factory} (hf : f.Ok) {name : Bytes}
    (hunknown : strategyClass name = none) : f.instanceOf name = none := by
  cases hfind : find name f.subStrategyMap with
  | some p =>
    -- what is in the map is an instance of the class of its name
    obtain ⟨hget, hlt⟩ := hf.heap_eq name p hfind
    rw [hunknown, List.getElem?_eq_none_iff] at hget
    exact absurd hlt (not_lt.mpr hget)
  | none =>
    rw [Factory.instanceOf, hfind]
    simp only [produce, hunknown]

/-- The loop over the strategies of a URI stops at an unknown name. -/
lemma Factory.Ok.strategyVec_unknown {types : List StrategyType} {f : Factory} (hf : f.Ok)
    (hunknown : ∃ s ∈ types, strategyClass s.strategyName = none) :
    (Plugin.strategyVec types f).2 = none := by
  induction types generalizing f with
  | nil =>
    obtain ⟨s, hs, -⟩ := hunknown
    cases hs
  | cons s types ih =>
    rw [Plugin.strategyVec]
    by_cases hs : strategyClass s.strategyName = none
    · rw [hf.instanceOf_unknown hs]
    · obtain ⟨p, f₁, hinst, hf₁, -, -⟩ := hf.instanceOf hs
      rw [hinst]
      show (Plugin.strategyVec types f₁).2.map _ = none
      rw [ih hf₁, Option.map_none]
      obtain ⟨x, hx, hxnone⟩ := hunknown
      rcases List.mem_cons.mp hx with rfl | hx
      · exact absurd hxnone hs
      · exact ⟨x, hx, hxnone⟩

/-! ## The instances are new -/

/-- All instances that the map knows are made after the first `n`. -/
structure Factory.New (n : ℕ) (f : Factory) : Prop where
  le_length : n ≤ f.heap.length
  le_of_find : ∀ name p, find name f.subStrategyMap = some p → n ≤ p

lemma Factory.New.instanceOf {n : ℕ} {f : Factory} (hf : f.New n) {name : Bytes} {p : ℕ}
    {f' : Factory} (h : f.instanceOf name = some (p, f')) : f'.New n ∧ n ≤ p := by
  rw [Factory.instanceOf] at h
  split at h
  · next p₀ hfind =>
    cases h
    exact ⟨hf, hf.le_of_find _ _ hfind⟩
  · next hfind =>
    rw [produce] at h
    cases hclass : strategyClass name with
    | none =>
      rw [hclass] at h
      cases h
    | some c =>
      rw [hclass] at h
      cases h
      refine ⟨⟨?_, fun name' p' hp' => ?_⟩, hf.le_length⟩
      · show n ≤ (f.heap ++ [c]).length
        rw [List.length_append]
        exact Nat.le_add_right_of_le hf.le_length
      · rw [find_set] at hp'
        split at hp'
        · obtain rfl := Option.some.inj hp'
          exact hf.le_length
        · exact hf.le_of_find name' p' hp'

/-- The vector of a URI has a new instance for each strategy. -/
lemma Factory.New.strategyVec {n : ℕ} {f : Factory} (hf : f.New n) (types : List StrategyType) :
    (Plugin.strategyVec types f).1.New n ∧ ∀ vec, (Plugin.strategyVec types f).2 = some vec →
      vec.length = types.length ∧ ∀ s ∈ vec, n ≤ s.subStrategy := by
  induction types generalizing f with
  | nil =>
    refine ⟨hf, fun vec hvec => ?_⟩
    obtain rfl := Option.some.inj hvec
    exact ⟨rfl, fun s hs => by cases hs⟩
  | cons s types ih =>
    rw [Plugin.strategyVec]
    cases hinst : f.instanceOf s.strategyName with
    | none => exact ⟨hf, fun vec hvec => by cases hvec⟩
    | some pf =>
      obtain ⟨p, f₁⟩ := pf
      obtain ⟨hf₁, hp⟩ := hf.instanceOf hinst
      obtain ⟨hnew, hrest⟩ := ih hf₁
      refine ⟨hnew, fun vec hvec => ?_⟩
      obtain ⟨rest, hrest_eq, rfl⟩ := Option.map_eq_some_iff.mp hvec
      obtain ⟨hlen, hle⟩ := hrest rest hrest_eq
      refine ⟨by rw [List.length_cons, List.length_cons, hlen], fun x hx => ?_⟩
      rcases List.mem_cons.mp hx with rfl | hx
      · exact hp
      · exact hle x hx

/-! ## What a failed initialisation leaves -/

/-- An entry of the table that has been stored for a configured URI. -/
structure Stored (n : ℕ) (e : Bytes × List StrategyType) (st : Bytes × List StrategyTypeMgr) :
    Prop where
  uri_eq : st.1 = e.1
  length_eq : st.2.length = e.2.length
  new : ∀ s ∈ st.2, n ≤ s.subStrategy

/-- The URIs before the first one with an unknown name are stored, and it fails exactly if
there is such a one.  By induction on the entries that are left. -/
lemma initLoop_stored {n : ℕ} (todo : StrategyDict) {f : Factory} (hok : f.Ok) (hnew : f.New n)
    (uris : UriStrategies) :
    ∃ stored, List.Forall₂ (Stored n) (todo.takeWhile (Known ·)) stored ∧
      (initLoop todo f uris).2.2 = stored.foldl (fun m e => set e.1 e.2 m) uris ∧
      ((initLoop todo f uris).1 = subFail ↔ ¬ ∀ e ∈ todo, Known e) := by
  induction todo generalizing f uris with
  | nil => exact ⟨[], .nil, rfl, by simp [initLoop]⟩
  | cons e todo ih =>
    obtain ⟨uri, types⟩ := e
    by_cases hknown : Known (uri, types)
    · have hnames : ∀ s ∈ types, strategyClass s.strategyName ≠ none := hknown
      obtain ⟨f₁, hvec, hok₁, -, -⟩ := hok.strategyVec hnames
      generalize types.map (entry f₁.pointer) = vec at hvec
      have hnewvec := hnew.strategyVec types
      rw [hvec] at hnewvec
      obtain ⟨hnew₁, hnewvec⟩ := hnewvec
      obtain ⟨hlen, hle⟩ := hnewvec vec rfl
      obtain ⟨stored, hstored, huris, hfail⟩ := ih hok₁ hnew₁ (set uri vec uris)
      refine ⟨(uri, vec) :: stored, ?_, ?_, ?_⟩
      · rw [List.takeWhile_cons_of_pos (by simpa using hknown)]
        exact .cons ⟨rfl, hlen, hle⟩ hstored
      · rw [initLoop, hvec, List.foldl_cons]
        exact huris
      · rw [initLoop, hvec]
        refine hfail.trans (not_congr ⟨fun h e he => ?_, fun h e he => ?_⟩)
        · rcases List.mem_cons.mp he with rfl | he
          · exact hknown
          · exact h e he
        · exact h e (List.mem_cons_of_mem _ he)
    · have hunknown : ∃ s ∈ types, strategyClass s.strategyName = none := by
        simpa [Known] using hknown
      have hvec := hok.strategyVec_unknown hunknown
      have hloop : initLoop ((uri, types) :: todo) f uris =
          (subFail, (strategyVec types f).1, uris) := by
        rw [initLoop]
        split
        · next h => rw [h]
        · next h =>
          rw [h] at hvec
          cases hvec
      refine ⟨[], ?_, ?_, ?_⟩
      · rw [List.takeWhile_cons_of_neg (by simpa using hknown)]
        exact .nil
      · rw [hloop]
        rfl
      · rw [hloop]
        exact ⟨fun _ h => hknown (h _ List.mem_cons_self), fun _ => rfl⟩

lemma map_fst_stored {n : ℕ} {entries : StrategyDict} {stored : UriStrategies}
    (h : List.Forall₂ (Stored n) entries stored) :
    stored.map Prod.fst = entries.map Prod.fst := by
  induction h with
  | nil => rfl
  | cons hst _ ih => rw [List.map_cons, List.map_cons, hst.uri_eq, ih]

/-- Entries with new instances are in a table of old ones only if they have none. -/
lemma forall_stored_iff {n : ℕ} {entries : StrategyDict} {stored uris : UriStrategies}
    (h : List.Forall₂ (Stored n) entries stored) (huris : Sorted uris)
    (hold : ∀ e ∈ uris, ∀ s ∈ e.2, s.subStrategy < n) :
    (∀ st ∈ stored, find st.1 uris = some st.2) ↔
      ∀ e ∈ entries, e.2 = [] ∧ find e.1 uris = some [] := by
  induction h with
  | nil => simp
  | @cons e st entries stored hst _ ih =>
    rw [List.forall_mem_cons, List.forall_mem_cons, ih]
    refine and_congr_left fun _ => ?_
    rw [← hst.uri_eq, ← List.length_eq_zero_iff, ← hst.length_eq, List.length_eq_zero_iff]
    constructor
    · intro hfind
      have hnil : st.2 = [] := by
        refine List.eq_nil_iff_forall_not_mem.mpr fun s hs => ?_
        have hlt := hold _ (huris.mem_iff_find.mpr hfind) s hs
        exact absurd (hst.new s hs) (not_le.mpr hlt)
      exact ⟨hnil, hnil ▸ hfind⟩
    · rintro ⟨hnil, hfind⟩
      rw [hnil, hfind]

/-- **When a failed initialisation leaves the table as it was.**  The table points to instances
that have been made.  `_init_strategies` does not fail with a change of it exactly if no URI has
an unknown name, or the URIs before the first one with an unknown name have no strategies and
are in the table without strategies already. -/
theorem initAgain_unchanged_iff {heap : List StrategyClass} {strategyTypeMap : StrategyDict}
    (hmap : Sorted strategyTypeMap) {uris : UriStrategies} (huris : Sorted uris)
    (hmade : ∀ e ∈ uris, ∀ s ∈ e.2, s.subStrategy < heap.length) :
    ((initAgain heap strategyTypeMap uris).1 = subFail →
        (initAgain heap strategyTypeMap uris).2.2 = uris) ↔
      (∀ e ∈ strategyTypeMap, Known e) ∨
        ∀ e ∈ strategyTypeMap.takeWhile (Known ·), e.2 = [] ∧ find e.1 uris = some [] := by
  have hok : Factory.Ok ⟨heap, []⟩ :=
    { heap_eq := fun _ _ h => by cases h
      inj := fun _ _ _ h => by cases h }
  have hnew : Factory.New heap.length ⟨heap, []⟩ := ⟨le_rfl, fun _ _ h => by cases h⟩
  obtain ⟨stored, hstored, htable, hfail⟩ := initLoop_stored strategyTypeMap hok hnew uris
  have hnodup : (stored.map Prod.fst).Nodup := by
    rw [map_fst_stored hstored]
    exact ((List.takeWhile_sublist _).map Prod.fst).nodup hmap.nodup
  rw [initAgain, htable, hfail, huris.foldl_set_eq_iff hnodup,
    forall_stored_iff hstored huris hmade, ← or_iff_not_imp_left]

/-- The second URI has an unknown name, and the first one no strategies. -/
theorem initAgain_unchanged_iff_empty :
    ((initAgain [.text] [(bytes "/", []), (bytes "/x", [⟨bytes "XStrategy", 255⟩])]
        [(bytes "/", [])]).1 = subFail →
      (initAgain [.text] [(bytes "/", []), (bytes "/x", [⟨bytes "XStrategy", 255⟩])]
        [(bytes "/", [])]).2.2 = [(bytes "/", [])]) ↔
      (∀ e ∈ ([(bytes "/", []), (bytes "/x", [⟨bytes "XStrategy", 255⟩])] : StrategyDict),
        Known e) ∨
        ∀ e ∈ ([(bytes "/", []), (bytes "/x", [⟨bytes "XStrategy", 255⟩])] :
          StrategyDict).takeWhile (Known ·),
          e.2 = [] ∧ find e.1 ([(bytes "/", [])] : UriStrategies) = some [] :=
  initAgain_unchanged_iff (by unfold Sorted; decide) (by unfold Sorted; decide) (by decide)

/-- The first URI is in the table, and served, after the second one has failed. -/
theorem not_initStrategies_unchanged :
    ¬ ∀ (strategyTypeMap : StrategyDict) (uris : UriStrategies), Sorted strategyTypeMap →
      Sorted uris → (initStrategies strategyTypeMap uris).1 = subFail →
        (initStrategies strategyTypeMap uris).2.2 = uris := by
  intro h
  have hfail := h [(bytes "/", [⟨bytes "TextStrategy", 255⟩]),
    (bytes "/x", [⟨bytes "XStrategy", 255⟩])] [] (by unfold Sorted; decide)
    (by unfold Sorted; decide) (by decide)
  revert hfail
  decide

end Plugin
end Sunet
