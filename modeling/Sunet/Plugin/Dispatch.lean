/-
# The dispatch of URIs to strategies

`_init_strategies` fills the table of the URIs from the strategy configuration.  It produces
an instance of a strategy when a name comes up for the first time and keeps the instances in
a map over the names.  `_run_uri` calls the strategies of a URI one after the other.

A pointer to an instance is its number in the order of the `new` expressions.  What `_process`
does is a parameter; it may change the memory of the instances and the JSON value it is given.
-/
import Sunet.Config.Strategy

namespace Sunet
namespace Plugin

open SortedMap Config

/-- `SUB_OK`. -/
abbrev subOk : ℤ := 1

/-- `SUB_FAIL`. -/
abbrev subFail : ℤ := 0

/-- The classes of strategies. -/
inductive StrategyClass
  | text
  | rewrite
  | search
  | suggest
deriving DecidableEq, Repr

/-- The class `_produce` makes an instance of, or `none` for the null pointer. -/
def strategyClass (strategyName : Bytes) : Option StrategyClass :=
  if strategyName = bytes "TextStrategy" then some .text
  else if strategyName = bytes "RewriteStrategy" then some .rewrite
  else if strategyName = bytes "SearchStrategy" then some .search
  else if strategyName = bytes "SuggestStrategy" then some .suggest
  else none

/-- `STRATEGY_TYPE_MGR`. -/
structure StrategyTypeMgr where
  subStrategy : ℕ
  strategyLevel : ℤ
deriving DecidableEq, Repr

/-- `_uri_strategies_map`. -/
abbrev UriStrategies := List (Bytes × List StrategyTypeMgr)

/-- The instances that have been made, and `sub_strategy_map`. -/
structure Factory where
  heap : List StrategyClass
  subStrategyMap : List (Bytes × ℕ)
deriving DecidableEq, Repr

/-- `_produce`: a new instance behind the others. -/
def produce (strategyName : Bytes) (f : Factory) : Option (ℕ × Factory) :=
  match strategyClass strategyName with
  | none => none
  | some c => some (f.heap.length, { f with heap := f.heap ++ [c] })

/-- The instance of a name, produced if there is none. -/
def Factory.instanceOf (f : Factory) (strategyName : Bytes) : Option (ℕ × Factory) :=
  match find strategyName f.subStrategyMap with
  | some p => some (p, f)
  | none =>
    match produce strategyName f with
    | none => none
    | some (p, f) => some (p, { f with subStrategyMap := set strategyName p f.subStrategyMap })

/-- The loop over the strategies of a URI; `none` where `_produce` returns the null pointer. -/
def strategyVec : List StrategyType → Factory → Factory × Option (List StrategyTypeMgr)
  | [], f => (f, some [])
  | s :: rest, f =>
    match f.instanceOf s.strategyName with
    -- the instances made so far stay in the map
    | none => (f, none)
    | some (p, f) =>
      let (f, vec) := strategyVec rest f
      (f, vec.map (⟨p, s.strategyLevel⟩ :: ·))

/-- The loop over the URIs. -/
def initLoop : StrategyDict → Factory → UriStrategies → ℤ × Factory × UriStrategies
  | [], f, uris => (subOk, f, uris)
  | (uri, types) :: rest, f, uris =>
    match strategyVec types f with
    | (f, none) => (subFail, f, uris)
    | (f, some vec) => initLoop rest f (set uri vec uris)

/-- `_init_strategies`: the value that is returned, the instances and the table. -/
def initStrategies (strategyTypeMap : StrategyDict) (uris : UriStrategies) :
    ℤ × Factory × UriStrategies :=
  initLoop strategyTypeMap ⟨[], []⟩ uris

/-- `_run_uri` on the memory of the instances and the JSON value. -/
def runUri {Memory Request Json : Type}
    (process : ℕ → Request → ℤ → Memory × Json → Memory × Json) (uris : UriStrategies)
    (uri : Bytes) (req : Request) (state : Memory × Json) : ℤ × Memory × Json :=
  match find uri uris with
  | none => (subFail, state)
  | some vec =>
    (subOk, vec.foldl (fun state s => process s.subStrategy req s.strategyLevel state) state)

/-! ## The instances of the names -/

/-- Every instance of the map is of the class of its name, and no two names share one. -/
structure Factory.Ok (f : Factory) : Prop where
  heap_eq : ∀ n p, find n f.subStrategyMap = some p →
    (f.heap[p]? = strategyClass n ∧ p < f.heap.length)
  inj : ∀ n n' p, find n f.subStrategyMap = some p → find n' f.subStrategyMap = some p → n = n'

/-- The instances of the names are the same later on. -/
def Factory.Kept (f f' : Factory) : Prop :=
  ∀ n p, find n f.subStrategyMap = some p → find n f'.subStrategyMap = some p

lemma Factory.Kept.refl (f : Factory) : f.Kept f := fun _ _ h => h

lemma Factory.Kept.trans {f f' f'' : Factory} (h : f.Kept f') (h' : f'.Kept f'') : f.Kept f'' :=
  fun n p hp => h' n p (h n p hp)

/-- The instance of a known name. -/
lemma Factory.Ok.instanceOf {f : Factory} (hf : f.Ok) {name : Bytes}
    (hknown : strategyClass name ≠ none) :
    ∃ p f', f.instanceOf name = some (p, f') ∧ f'.Ok ∧ f.Kept f' ∧
      find name f'.subStrategyMap = some p := by
  cases hfind : find name f.subStrategyMap with
  | some p => exact ⟨p, f, by rw [Factory.instanceOf, hfind], hf, .refl f, hfind⟩
  | none =>
    obtain ⟨c, hc⟩ := Option.ne_none_iff_exists'.mp hknown
    refine ⟨f.heap.length, ⟨f.heap ++ [c], set name f.heap.length f.subStrategyMap⟩, ?_,
      ⟨?_, ?_⟩, ?_, find_set_self _ _ _⟩
    · rw [Factory.instanceOf, hfind]
      simp only [produce, hc]
    · intro n p hp
      show (f.heap ++ [c])[p]? = strategyClass n ∧ p < (f.heap ++ [c]).length
      rw [List.length_append, List.length_singleton]
      rw [find_set] at hp
      split at hp
      -- the new name has the new instance, the others have theirs
      · next hn =>
        obtain rfl := Option.some.inj hp
        rw [hn, hc, List.getElem?_concat_length]
        exact ⟨rfl, Nat.lt_succ_self _⟩
      · obtain ⟨hget, hlt⟩ := hf.heap_eq n p hp
        rw [List.getElem?_append_left hlt]
        exact ⟨hget, Nat.lt_succ_of_lt hlt⟩
    · -- the new instance is none of the old ones
      have hnew : ∀ n, find n f.subStrategyMap ≠ some f.heap.length :=
        fun n hn => lt_irrefl _ (hf.heap_eq n _ hn).2
      intro n n' p hp hp'
      rw [find_set] at hp hp'
      split at hp <;> split at hp'
      · next hn hn' => rw [hn, hn']
      · rw [← Option.some.inj hp] at hp'
        exact absurd hp' (hnew n')
      · rw [← Option.some.inj hp'] at hp
        exact absurd hp (hnew n)
      · exact hf.inj n n' p hp hp'
    · intro n p hp
      show find n (set name _ f.subStrategyMap) = some p
      rw [find_set_of_ne, hp]
      rintro rfl
      rw [hfind] at hp
      cases hp

/-- Before the first name there are no instances. -/
lemma Factory.ok_empty : Factory.Ok ⟨[], []⟩ where
  heap_eq _ _ h := by cases h
  inj _ _ _ h := by cases h

/-- What a configured strategy is in the table when `inst` gives the instances of the names. -/
def entry (inst : Bytes → ℕ) (s : StrategyType) : StrategyTypeMgr :=
  ⟨inst s.strategyName, s.strategyLevel⟩

/-- The instances that a factory knows, 0 for other names. -/
def Factory.pointer (f : Factory) (name : Bytes) : ℕ := (find name f.subStrategyMap).getD 0

/-- Every name of a list of strategies has its instance. -/
def Factory.Covers (f : Factory) (types : List StrategyType) : Prop :=
  ∀ s ∈ types, ∃ p, find s.strategyName f.subStrategyMap = some p

lemma Factory.Covers.kept {f f' : Factory} {types : List StrategyType} (h : f.Covers types)
    (hkept : f.Kept f') :
    f'.Covers types ∧ types.map (entry f.pointer) = types.map (entry f'.pointer) := by
  refine ⟨fun s hs => ?_, List.map_congr_left fun s hs => ?_⟩
  · obtain ⟨p, hp⟩ := h s hs
    exact ⟨p, hkept _ _ hp⟩
  · obtain ⟨p, hp⟩ := h s hs
    rw [entry, entry, Factory.pointer, Factory.pointer, hp, hkept _ _ hp]

/-- The loop over the strategies of a URI, by induction on the strategies that are left. -/
lemma Factory.Ok.strategyVec {types : List StrategyType} {f : Factory} (hf : f.Ok)
    (hknown : ∀ s ∈ types, strategyClass s.strategyName ≠ none) :
    ∃ f', strategyVec types f = (f', some (types.map (entry f'.pointer))) ∧ f'.Ok ∧ f.Kept f' ∧
      f'.Covers types := by
  induction types generalizing f with
  | nil => exact ⟨f, rfl, hf, .refl f, fun _ hs => by cases hs⟩
  | cons s types ih =>
    obtain ⟨p, f₁, hinst, hf₁, hkept₁, hfind⟩ := hf.instanceOf (hknown s List.mem_cons_self)
    obtain ⟨f₂, hvec, hf₂, hkept₂, hcov⟩ := ih hf₁ fun x hx => hknown x (List.mem_cons_of_mem _ hx)
    have hfind₂ := hkept₂ _ _ hfind
    refine ⟨f₂, ?_, hf₂, hkept₁.trans hkept₂, ?_⟩
    · have hentry : entry f₂.pointer s = ⟨p, s.strategyLevel⟩ := by
        rw [entry, Factory.pointer, hfind₂]
        rfl
      rw [Plugin.strategyVec, hinst]
      simp only [hvec, Option.map_some, List.map_cons, hentry]
    · intro x hx
      rcases List.mem_cons.mp hx with rfl | hx
      · exact ⟨p, hfind₂⟩
      · exact hcov x hx

/-! ## The table of the URIs -/

/-- The table holds the strategies of the URIs in `done`. -/
def Filled (f : Factory) (uris : UriStrategies) (done : StrategyDict) : Prop :=
  (∀ e ∈ done, f.Covers e.2) ∧
    ∀ uri, find uri uris = (find uri done).map fun types => types.map (entry f.pointer)

lemma filled_nil : Filled ⟨[], []⟩ [] [] := by
  refine ⟨fun e he => ?_, fun _ => rfl⟩
  cases he

/-- The loop over the URIs, by induction on the entries that are left. -/
lemma initLoop_ok {todo : StrategyDict}
    (hknown : ∀ e ∈ todo, ∀ s ∈ e.2, strategyClass s.strategyName ≠ none) {done : StrategyDict}
    (hsorted : Sorted (done ++ todo)) {f : Factory} (hf : f.Ok) {uris : UriStrategies}
    (hfilled : Filled f uris done) :
    ∃ f' uris', initLoop todo f uris = (subOk, f', uris') ∧ f'.Ok ∧
      Filled f' uris' (done ++ todo) := by
  induction todo generalizing done f uris with
  | nil => exact ⟨f, uris, rfl, hf, by rwa [List.append_nil]⟩
  | cons e todo ih =>
    obtain ⟨uri, types⟩ := e
    obtain ⟨f₁, hvec, hf₁, hkept, hcov⟩ := hf.strategyVec (hknown _ List.mem_cons_self)
    have hassoc : done ++ (uri, types) :: todo = (done ++ [(uri, types)]) ++ todo := by simp
    have hdone : ∀ e₀ ∈ done, e₀.1 < uri := by
      intro e₀ he₀
      rw [Sorted, List.map_append, List.pairwise_append] at hsorted
      exact hsorted.2.2 e₀.1 (List.mem_map_of_mem he₀) uri (by simp)
    -- the next URI is greater, so it goes behind the others
    have hfind : ∀ u, find u (done ++ [(uri, types)]) =
        if u = uri then some types else find u done := by
      intro u
      rw [← set_eq_append types hdone]
      exact find_set uri u types done
    rw [initLoop, hvec]
    rw [hassoc] at hsorted ⊢
    refine ih (fun e he => hknown e (List.mem_cons_of_mem _ he)) hsorted hf₁ ⟨?_, ?_⟩
    · intro e he
      rcases List.mem_append.mp he with he | he
      · exact ((hfilled.1 e he).kept hkept).1
      · rw [List.mem_singleton] at he
        rw [he]
        exact hcov
    · intro u
      rw [find_set, hfind]
      split
      · rfl
      · rw [hfilled.2 u]
        cases hu : find u done with
        | none => rfl
        | some types₀ =>
          -- an older entry, whose instances are the same later on
          have hmem : (u, types₀) ∈ done := by
            refine Sorted.mem_iff_find ?_ |>.mpr hu
            rw [Sorted, List.map_append, List.pairwise_append, List.map_append,
              List.pairwise_append] at hsorted
            exact hsorted.1.1
          rw [Option.map_some, Option.map_some, ((hfilled.1 _ hmem).kept hkept).2]

/-- **Dispatch follows the configuration.**  When `_produce` knows all names of a strategy map,
there is an instance for each name, of the class of the name and no other name's, and
`_run_uri` calls the strategies of a configured URI in order, each on the instance of its name
and with its level; for another URI it fails and changes nothing. -/
theorem runUri_initStrategies {Memory Request Json : Type}
    (process : ℕ → Request → ℤ → Memory × Json → Memory × Json) {strategyTypeMap : StrategyDict}
    (hmap : Sorted strategyTypeMap)
    (hknown : ∀ e ∈ strategyTypeMap, ∀ s ∈ e.2, strategyClass s.strategyName ≠ none) :
    ∃ (f : Factory) (uris : UriStrategies) (inst : Bytes → ℕ),
      initStrategies strategyTypeMap [] = (subOk, f, uris) ∧
      (∀ e ∈ strategyTypeMap, ∀ s ∈ e.2,
        f.heap[inst s.strategyName]? = strategyClass s.strategyName) ∧
      (∀ e ∈ strategyTypeMap, ∀ s ∈ e.2, ∀ e' ∈ strategyTypeMap, ∀ s' ∈ e'.2,
        inst s.strategyName = inst s'.strategyName → s.strategyName = s'.strategyName) ∧
      ∀ uri req state, runUri process uris uri req state =
        match find uri strategyTypeMap with
        | some types =>
          (subOk, types.foldl (fun state s =>
            process (inst s.strategyName) req s.strategyLevel state) state)
        | none => (subFail, state) := by
  obtain ⟨f, uris, hinit, hf, hcov, huris⟩ :=
    initLoop_ok hknown (by rwa [List.nil_append]) Factory.ok_empty filled_nil
  rw [List.nil_append] at hcov huris
  have hpointer : ∀ e ∈ strategyTypeMap, ∀ s ∈ e.2,
      find s.strategyName f.subStrategyMap = some (f.pointer s.strategyName) := by
    intro e he s hs
    obtain ⟨p, hp⟩ := hcov e he s hs
    rw [Factory.pointer, hp]
    rfl
  refine ⟨f, uris, f.pointer, hinit, ?_, ?_, ?_⟩
  · intro e he s hs
    exact (hf.heap_eq _ _ (hpointer e he s hs)).1
  · intro e he s hs e' he' s' hs' heq
    refine hf.inj _ _ _ (hpointer e he s hs) ?_
    rw [heq]
    exact hpointer e' he' s' hs'
  · intro uri req state
    rw [runUri, huris uri]
    cases find uri strategyTypeMap with
    | none => rfl
    | some types =>
      simp only [Option.map_some, List.foldl_map]
      rfl

/-- The configuration that is shipped. -/
def shipped : StrategyDict :=
  [(bytes "/", [⟨bytes "TextStrategy", 255⟩, ⟨bytes "RewriteStrategy", 255⟩]),
    (bytes "/search", [⟨bytes "TextStrategy", 255⟩, ⟨bytes "RewriteStrategy", 255⟩,
      ⟨bytes "SearchStrategy", 255⟩]),
    (bytes "/suggest", [⟨bytes "SuggestStrategy", 255⟩])]

/-- Strategies that write down in the JSON value on which instance and with which level they
are called. -/
theorem runUri_initStrategies_shipped :
    let process : ℕ → Unit → ℤ → Unit × List (ℕ × ℤ) → Unit × List (ℕ × ℤ) :=
      fun p _ level state => (state.1, state.2 ++ [(p, level)])
    ∃ (f : Factory) (uris : UriStrategies) (inst : Bytes → ℕ),
      initStrategies shipped [] = (subOk, f, uris) ∧
      (∀ e ∈ shipped, ∀ s ∈ e.2,
        f.heap[inst s.strategyName]? = strategyClass s.strategyName) ∧
      (∀ e ∈ shipped, ∀ s ∈ e.2, ∀ e' ∈ shipped, ∀ s' ∈ e'.2,
        inst s.strategyName = inst s'.strategyName → s.strategyName = s'.strategyName) ∧
      ∀ uri req state, runUri process uris uri req state =
        match find uri shipped with
        | some types =>
          (subOk, types.foldl (fun state s =>
            process (inst s.strategyName) req s.strategyLevel state) state)
        | none => (subFail, state) :=
  runUri_initStrategies _ (by unfold Sorted; decide) (by decide)

end Plugin
end Sunet
