/-
# The strategies of a request

`_run_uri` hands the request and the JSON value of the response from one strategy to the next:
`TextStrategy` puts the segments of the query under `seg`, `SearchStrategy` takes its terms from
there, and `SuggestStrategy` asks its trie for the query.  The JSON value is all that they share.

What a run builds is described by a view of the response without JSON.  A run of the
strategies of a URI and a run of the same strategies on the view go side by side, so that what
holds of the one holds of the other.

The arithmetic of the ranking is that of a field; the library of the tagger is a parameter.  The
JSON values follow what `json/value.h` of the vendored jsoncpp says of `operator[]`, `append`,
`size` and `asString`.
-/
import Sunet.Lib.Json
import Sunet.Seg.WordSeg
import Sunet.Dat.Suggest
import Sunet.Plugin.Search
import Sunet.Plugin.Dispatch

namespace Sunet

/-- `Request::get_query`. -/
def Http.Request.getQuery (req : Http.Request) : Option Bytes := req.params[bytes "q"]?

namespace Plugin

open SortedMap Config Seg

/-! ## The values of the response -/

/-- The numbers of a JSON value. -/
inductive Number (K : Type)
  | int (n : ℤ)
  | real (x : K)

/-- `Json::Value`. -/
abbrev Value (K : Type) := Json Bytes (Number K)

variable {K : Type}

/-- `asString`.  The vendored version keeps a string up to its first NUL; a string here is the
whole of it, so that the two are the same for texts without NUL. -/
def asString : Value K → Option Bytes
  | .str s => some s
  | .null => some []
  | _ => none

/-- The terms of the loop over `jarray`: `jarray[i].asString()` below `jarray.size()`. -/
def strings : Value K → Option (List Bytes)
  | .arr elems => elems.mapM asString
  | .obj [] => some []
  -- an index into an object
  | .obj (_ :: _) => none
  | _ => some []

/-- `doc_info`. -/
def docInfo (e : ℤ × K) : Value K :=
  .obj [(bytes "id", .num (.int e.1)), (bytes "score", .num (.real e.2))]

/-- `data` of `SuggestStrategy::_process`. -/
def suggestInfo (e : Bytes × ℤ) : Value K :=
  .obj [(bytes "id", .num (.int e.2)), (bytes "title", .str e.1)]

/-- The writes under `root["search"]`. -/
def Answer.write : Answer K → Value K → Option (Value K)
  | .segError, search => search.put (bytes "msg") (.str (bytes "seg_error"))
  | .none, search => search.put (bytes "msg") (.str (bytes "none"))
  | .ok vars result, search => do
    let search ← search.put (bytes "msg") (.str (bytes "ok"))
    let search ← search.put (bytes "result") (.arr (result.map docInfo))
    let search ← search.put (bytes "tot_cnt") (.num (.int vars.totCnt))
    let search ← search.put (bytes "tot_page") (.num (.int vars.pageCnt))
    let search ← search.put (bytes "bef_page") (.num (.int vars.befPage))
    search.put (bytes "nxt_page") (.num (.int vars.nxtPage))

/-! ## The strategies -/

/-- What the instances hold: the tagger of `WordSeg`, the dictionaries of each instance of
`SearchStrategy`, and the trie of `DictMgr`. -/
structure Memory where
  tagger : Option Tagger
  dicts : ℕ → SearchDicts
  suggestDict : Dat.TrieNode ℤ

/-- `MAX_SUGGEST_CNT`. -/
def maxSuggestCnt : ℕ := 20

/-- `TextStrategy::_process`. -/
def textProcess (mem : Memory) (req : Http.Request) (root : Value K) : Option (Value K) := do
  let root ← root.put (bytes "text") (.str (bytes "yes"))
  let q ← req.getQuery
  let (_, segRes) ← segment mem.tagger q []
  segRes.foldlM (fun root seg => root.modify (bytes "seg") fun json => json.append (.str seg)) root

/-- `RewriteStrategy::_process`. -/
def rewriteProcess (root : Value K) : Option (Value K) :=
  root.put (bytes "rewrite") (.str (bytes "yes"))

/-- The suggestions for a query. -/
def suggestions (mem : Memory) (q : Bytes) : List (Bytes × ℤ) :=
  (mem.suggestDict.search (.new q) []).take maxSuggestCnt

/-- `SuggestStrategy::_process`. -/
def suggestProcess (mem : Memory) (req : Http.Request) (root : Value K) : Option (Value K) := do
  let q ← req.getQuery
  let result ← (suggestions mem q).foldlM (fun result e => result.append (suggestInfo e)) .null
  root.put (bytes "suggest") result

section field

variable [Field K] (log : K → K) (sort : List (ℤ × K) → List (ℤ × K))

/-- `SearchStrategy::_process` on the JSON value. -/
def searchProcess (dicts : SearchDicts) (req : Http.Request) (root : Value K) :
    Option (SearchDicts × Value K) := do
  let _ ← req.getQuery
  -- the look-up of `seg` makes a member of this name
  let root ← root.modify (bytes "seg") some
  let seg ← strings (root.get (bytes "seg"))
  let (dicts, answer) ← process log sort dicts req.getPage seg
  let root ← root.modify (bytes "search") answer.write
  some (dicts, root)

/-- `_process` of the instance `p`, which is of the class `c`. -/
def strategyProcess (c : StrategyClass) (p : ℕ) (req : Http.Request) (st : Memory × Value K) :
    Option (Memory × Value K) :=
  match c with
  | .text => (textProcess st.1 req st.2).map fun root => (st.1, root)
  | .rewrite => (rewriteProcess st.2).map fun root => (st.1, root)
  | .search => (searchProcess log sort (st.1.dicts p) req st.2).map fun r =>
      ({ st.1 with dicts := Function.update st.1.dicts p r.1 }, r.2)
  | .suggest => (suggestProcess st.1 req st.2).map fun root => (st.1, root)

/-- The call of `_process` through a pointer, for `runUri`: the memory and the JSON value are
there as long as everything was defined. -/
def call (heap : List StrategyClass) (p : ℕ) (req : Http.Request) (_level : ℤ)
    (state : Unit × Option (Memory × Value K)) : Unit × Option (Memory × Value K) :=
  ((), do
    let st ← state.2
    let c ← heap[p]?
    strategyProcess log sort c p req st)

/-! ## The response without JSON -/

/-- What a response says. -/
structure View (K : Type) where
  text : Bool
  rewrite : Bool
  seg : List Bytes
  answer : Option (Answer K)
  suggest : Option (List (Bytes × ℤ))

/-- The null value. -/
def View.empty : View K := ⟨false, false, [], none, none⟩

/-- A strategy on the view. -/
def View.step (req : Http.Request) (st : Memory × View K) (s : StrategyClass × ℕ) :
    Option (Memory × View K) :=
  match s.1 with
  | .text => do
    let q ← req.getQuery
    let (_, segRes) ← segment st.1.tagger q []
    some (st.1, { st.2 with text := true, seg := st.2.seg ++ segRes })
  | .rewrite => some (st.1, { st.2 with rewrite := true })
  | .search => do
    let _ ← req.getQuery
    let (dicts, answer) ← process log sort (st.1.dicts s.2) req.getPage st.2.seg
    some ({ st.1 with dicts := Function.update st.1.dicts s.2 dicts },
      { st.2 with answer := some answer })
  | .suggest => do
    let q ← req.getQuery
    some (st.1, { st.2 with suggest := some (suggestions st.1 q) })

end field

/-- A member that says yes or is not there. -/
def flag (b : Bool) : Value K := if b then .str (bytes "yes") else .null

/-- An array, or null in place of an empty one. -/
def array {α : Type} (f : α → Value K) (l : List α) : Value K :=
  if l = [] then .null else .arr (l.map f)

/-- What is under `search` says what an answer says.  An older answer may have left members
behind, when the last one has a message only. -/
def Answer.Shown (search : Value K) : Answer K → Prop
  | .segError => search.get (bytes "msg") = .str (bytes "seg_error")
  | .none => search.get (bytes "msg") = .str (bytes "none")
  | .ok vars result => search.get (bytes "msg") = .str (bytes "ok") ∧
      search.get (bytes "result") = .arr (result.map docInfo) ∧
      search.get (bytes "tot_cnt") = .num (.int vars.totCnt) ∧
      search.get (bytes "tot_page") = .num (.int vars.pageCnt) ∧
      search.get (bytes "bef_page") = .num (.int vars.befPage) ∧
      search.get (bytes "nxt_page") = .num (.int vars.nxtPage)

/-- The JSON value of a response says what the view says. -/
structure Represents (root : Value K) (view : View K) : Prop where
  isMap : root.IsMap
  search : (root.get (bytes "search")).IsMap
  text : root.get (bytes "text") = flag view.text
  rewrite : root.get (bytes "rewrite") = flag view.rewrite
  seg : root.get (bytes "seg") = array .str view.seg
  answer : match view.answer with
    | none => root.get (bytes "search") = .null
    | some answer => answer.Shown (root.get (bytes "search"))
  suggest : root.get (bytes "suggest") = (view.suggest.map (array suggestInfo)).getD .null

lemma represents_empty : Represents (.null : Value K) .empty :=
  ⟨trivial, trivial, rfl, rfl, rfl, rfl, rfl⟩

/-! ## The two runs side by side -/

/-- Either nothing is defined, or the memories are equal and the JSON value says what the view
says. -/
def Agree (r : Option (Memory × Value K)) (v : Option (Memory × View K)) : Prop :=
  match v with
  | none => r = none
  | some (mem, view) => ∃ root, r = some (mem, root) ∧ Represents root view

/-- The loop over the segments appends them. -/
lemma foldlM_seg {root : Value K} (hroot : root.IsMap) {seg : List Bytes}
    (hseg : root.get (bytes "seg") = array .str seg) (segRes : List Bytes) :
    ∃ root', segRes.foldlM (fun root seg =>
        root.modify (bytes "seg") fun json => json.append (.str seg)) root = some root' ∧
      root'.IsMap ∧ ∀ key, root'.get key =
        if key = bytes "seg" then array .str (seg ++ segRes) else root.get key := by
  induction segRes generalizing root seg with
  | nil =>
    refine ⟨root, rfl, hroot, fun key => ?_⟩
    rw [List.append_nil]
    split
    · next hkey => rw [hkey, hseg]
    · rfl
  | cons s segRes ih =>
    have happend : (root.get (bytes "seg")).append (.str s) = some (array .str (seg ++ [s])) := by
      rw [hseg, array, array, if_neg (List.concat_ne_nil s seg)]
      split
      · next hnil => rw [hnil]; rfl
      · rw [List.map_append]; rfl
    obtain ⟨root₁, hmodify, hmap, hget⟩ :=
      hroot.modify (f := fun json => json.append (.str s)) happend
    obtain ⟨root', hrest, hmap', hget'⟩ := ih hmap ((hget _).trans (if_pos rfl))
    refine ⟨root', ?_, hmap', fun key => ?_⟩
    · rw [List.foldlM_cons, hmodify, Option.bind_eq_bind, Option.bind_some, hrest]
    · rw [hget', List.append_assoc, List.singleton_append]
      split
      · rfl
      · next hkey => rw [hget, if_neg hkey]

lemma strings_array (seg : List Bytes) : strings (array .str seg : Value K) = some seg := by
  rw [array]
  split
  · next hnil => rw [hnil]; rfl
  · have hsome : asString ∘ (Json.str : Bytes → Value K) = fun seg => pure (id seg) := rfl
    rw [strings, List.mapM_map, hsome, List.mapM_pure, List.map_id]
    rfl

/-- Writes that are read back. -/
lemma Answer.exists_write {search : Value K} (h : search.IsMap) (answer : Answer K) :
    ∃ search', answer.write search = some search' ∧ search'.IsMap ∧ answer.Shown search' := by
  cases answer with
  | segError =>
    obtain ⟨search', hput, hmap, hget⟩ := h.put (bytes "msg") (.str (bytes "seg_error"))
    exact ⟨search', hput, hmap, hget _⟩
  | none =>
    obtain ⟨search', hput, hmap, hget⟩ := h.put (bytes "msg") (.str (bytes "none"))
    exact ⟨search', hput, hmap, hget _⟩
  | ok vars result =>
    obtain ⟨s₁, h₁, hmap₁, hget₁⟩ := h.put (bytes "msg") (.str (bytes "ok"))
    obtain ⟨s₂, h₂, hmap₂, hget₂⟩ := hmap₁.put (bytes "result") (.arr (result.map docInfo))
    obtain ⟨s₃, h₃, hmap₃, hget₃⟩ := hmap₂.put (bytes "tot_cnt") (.num (.int vars.totCnt))
    obtain ⟨s₄, h₄, hmap₄, hget₄⟩ := hmap₃.put (bytes "tot_page") (.num (.int vars.pageCnt))
    obtain ⟨s₅, h₅, hmap₅, hget₅⟩ := hmap₄.put (bytes "bef_page") (.num (.int vars.befPage))
    obtain ⟨s₆, h₆, hmap₆, hget₆⟩ := hmap₅.put (bytes "nxt_page") (.num (.int vars.nxtPage))
    refine ⟨s₆, ?_, hmap₆, ?_⟩
    · simp only [write, h₁, h₂, h₃, h₄, h₅, h₆, Option.bind_eq_bind, Option.bind_some]
    · -- no write changes a member that was written before
      have hmsg := (hget₂ (bytes "msg")).trans (hget₁ _)
      have hresult := (hget₃ (bytes "result")).trans (hget₂ _)
      have htot := (hget₄ (bytes "tot_cnt")).trans (hget₃ _)
      have hpage := (hget₅ (bytes "tot_page")).trans (hget₄ _)
      have hbef := (hget₆ (bytes "bef_page")).trans (hget₅ _)
      refine ⟨?_, ?_, ?_, ?_, hbef, hget₆ _⟩
      · exact (hget₆ _).trans ((hget₅ _).trans ((hget₄ _).trans ((hget₃ _).trans hmsg)))
      · exact (hget₆ _).trans ((hget₅ _).trans ((hget₄ _).trans hresult))
      · exact (hget₆ _).trans ((hget₅ _).trans htot)
      · exact (hget₆ _).trans hpage

section field

variable [Field K] (log : K → K) (sort : List (ℤ × K) → List (ℤ × K))

lemma agree_text {root : Value K} {view : View K} (h : Represents root view) (mem : Memory)
    (req : Http.Request) (p : ℕ) :
    Agree (strategyProcess log sort .text p req (mem, root))
      (View.step log sort req (mem, view) (.text, p)) := by
  obtain ⟨root₁, hput, hmap₁, hget₁⟩ := h.isMap.put (bytes "text") (.str (bytes "yes"))
  rw [strategyProcess, View.step]
  simp only [textProcess, hput, Option.bind_eq_bind, Option.bind_some]
  cases req.getQuery with
  | none => rfl
  | some q =>
    simp only [Option.bind_some]
    cases segment mem.tagger q [] with
    | none => rfl
    | some r =>
      simp only [Option.bind_some]
      have hseg : root₁.get (bytes "seg") = array .str view.seg := (hget₁ _).trans h.seg
      obtain ⟨root', hfold, hmap, hget⟩ := foldlM_seg hmap₁ hseg r.2
      -- the other members are as before
      have hother : ∀ key, key ≠ bytes "seg" → key ≠ bytes "text" →
          root'.get key = root.get key := by
        intro key hseg htext
        rw [hget, if_neg hseg, hget₁, if_neg htext]
      refine ⟨root', by rw [hfold]; rfl, hmap, ?_, ?_, ?_, ?_, ?_, ?_⟩
      · rw [hother _ (by decide) (by decide)]
        exact h.search
      · exact (hget _).trans (hget₁ _)
      · exact (hother _ (by decide) (by decide)).trans h.rewrite
      · exact hget _
      · rw [hother _ (by decide) (by decide)]
        exact h.answer
      · exact (hother _ (by decide) (by decide)).trans h.suggest

lemma agree_rewrite {root : Value K} {view : View K} (h : Represents root view) (mem : Memory)
    (req : Http.Request) (p : ℕ) :
    Agree (strategyProcess log sort .rewrite p req (mem, root))
      (View.step log sort req (mem, view) (.rewrite, p)) := by
  obtain ⟨root', hput, hmap, hget⟩ := h.isMap.put (bytes "rewrite") (.str (bytes "yes"))
  refine ⟨root', ?_, hmap, ?_, ?_, ?_, ?_, ?_, ?_⟩
  · simp only [strategyProcess, rewriteProcess, hput, Option.map_some]
  · rw [hget]
    exact h.search
  · exact (hget _).trans h.text
  · exact hget _
  · exact (hget _).trans h.seg
  · rw [hget]
    exact h.answer
  · exact (hget _).trans h.suggest

lemma agree_suggest {root : Value K} {view : View K} (h : Represents root view) (mem : Memory)
    (req : Http.Request) (p : ℕ) :
    Agree (strategyProcess log sort .suggest p req (mem, root))
      (View.step log sort req (mem, view) (.suggest, p)) := by
  rw [strategyProcess, View.step]
  simp only [suggestProcess]
  cases req.getQuery with
  | none => rfl
  | some q =>
    obtain ⟨root', hput, hmap, hget⟩ :=
      h.isMap.put (bytes "suggest") (array suggestInfo (suggestions mem q))
    refine ⟨root', ?_, hmap, ?_, ?_, ?_, ?_, ?_, hget _⟩
    · simp only [Option.bind_eq_bind, Option.bind_some, Json.foldlM_append_null]
      exact congrArg (Option.map _) hput
    · rw [hget]
      exact h.search
    · exact (hget _).trans h.text
    · exact (hget _).trans h.rewrite
    · exact (hget _).trans h.seg
    · rw [hget]
      exact h.answer

lemma agree_search {root : Value K} {view : View K} (h : Represents root view) (mem : Memory)
    (req : Http.Request) (p : ℕ) :
    Agree (strategyProcess log sort .search p req (mem, root))
      (View.step log sort req (mem, view) (.search, p)) := by
  have hsome : some (root.get (bytes "seg")) = some (root.get (bytes "seg")) := rfl
  obtain ⟨root₁, hmodify, hmap₁, hget₁⟩ := h.isMap.modify (f := some) hsome
  have hseg : root₁.get (bytes "seg") = array .str view.seg := (hget₁ _).trans h.seg
  rw [strategyProcess, View.step]
  simp only [searchProcess, hmodify, hseg, strings_array, Option.bind_eq_bind, Option.bind_some]
  cases req.getQuery with
  | none => rfl
  | some q =>
    simp only [Option.bind_some]
    cases process log sort (mem.dicts p) req.getPage view.seg with
    | none => rfl
    | some r =>
      obtain ⟨dicts, answer⟩ := r
      have hsearch : (root₁.get (bytes "search")).IsMap := by
        rw [hget₁]
        exact h.search
      obtain ⟨search', hwrite, hmapS, hshown⟩ := answer.exists_write hsearch
      obtain ⟨root', hroot', hmap, hget⟩ := hmap₁.modify hwrite
      refine ⟨root', by rw [Option.bind_some, hroot']; rfl, hmap, ?_, ?_, ?_, ?_, ?_, ?_⟩
      · rw [hget]
        exact hmapS
      · exact (hget _).trans ((hget₁ _).trans h.text)
      · exact (hget _).trans ((hget₁ _).trans h.rewrite)
      · exact (hget _).trans hseg
      · show answer.Shown _
        rw [hget]
        exact hshown
      · exact (hget _).trans ((hget₁ _).trans h.suggest)

/-- A strategy on a JSON value and on a view of it. -/
lemma agree_step {root : Value K} {view : View K} (h : Represents root view) (mem : Memory)
    (req : Http.Request) (s : StrategyClass × ℕ) :
    Agree (strategyProcess log sort s.1 s.2 req (mem, root))
      (View.step log sort req (mem, view) s) := by
  obtain ⟨c, p⟩ := s
  cases c with
  | text => exact agree_text log sort h mem req p
  | rewrite => exact agree_rewrite log sort h mem req p
  | search => exact agree_search log sort h mem req p
  | suggest => exact agree_suggest log sort h mem req p

/-- The strategies of a list one after the other, by induction on the list. -/
lemma agree_run (req : Http.Request) (l : List (StrategyClass × ℕ)) {root : Value K}
    {view : View K} (h : Represents root view) (mem : Memory) :
    Agree (l.foldlM (fun st s => strategyProcess log sort s.1 s.2 req st) (mem, root))
      (l.foldlM (View.step log sort req) (mem, view)) := by
  induction l generalizing root view mem with
  | nil => exact ⟨root, rfl, h⟩
  | cons s l ih =>
    have hstep := agree_step log sort h mem req s
    rw [List.foldlM_cons, List.foldlM_cons]
    cases hview : View.step log sort req (mem, view) s with
    | none =>
      rw [hview] at hstep
      rw [show strategyProcess log sort s.1 s.2 req (mem, root) = none from hstep]
      rfl
    | some st =>
      rw [hview] at hstep
      obtain ⟨root', hroot', hrep⟩ := hstep
      rw [hroot']
      exact ih hrep st.1

/-! ## Dispatch -/

/-- The strategies of a URI with their classes and instances. -/
def instances (f : Factory) (types : List StrategyType) : List (StrategyClass × ℕ) :=
  types.filterMap fun s => (strategyClass s.strategyName).map fun c => (c, f.pointer s.strategyName)

/-- The loop of `_run_uri` over strategies whose instances are on the heap. -/
lemma foldl_call {f : Factory} (req : Http.Request) {types : List StrategyType}
    (hheap : ∀ s ∈ types, ∃ c, strategyClass s.strategyName = some c ∧
      f.heap[f.pointer s.strategyName]? = some c) (st : Option (Memory × Value K)) :
    (types.map (entry f.pointer)).foldl
        (fun state s => call log sort f.heap s.subStrategy req s.strategyLevel state) ((), st) =
      ((), st.bind ((instances f types).foldlM
        fun st s => strategyProcess log sort s.1 s.2 req st)) := by
  induction types generalizing st with
  | nil => cases st <;> rfl
  | cons s types ih =>
    obtain ⟨c, hclass, hget⟩ := hheap s List.mem_cons_self
    have hinst : instances f (s :: types) = (c, f.pointer s.strategyName) :: instances f types := by
      rw [instances, List.filterMap_cons_some]
      · rfl
      · rw [hclass]
        rfl
    rw [List.map_cons, List.foldl_cons, hinst]
    have hcall : call log sort f.heap (entry f.pointer s).subStrategy req
        (entry f.pointer s).strategyLevel ((), st) =
        ((), st.bind (strategyProcess log sort c (f.pointer s.strategyName) req)) := by
      rw [call, entry, hget]
      rfl
    rw [hcall, ih fun s' hs' => hheap s' (List.mem_cons_of_mem _ hs')]
    cases st with
    | none => rfl
    | some st => rw [Option.bind_some, Option.bind_some, List.foldlM_cons]; rfl

/-- The strategies of a configured URI are called one after the other, and none for another URI. -/
lemma runUri_instances {strategyTypeMap : StrategyDict} (hmap : Sorted strategyTypeMap)
    (hknown : ∀ e ∈ strategyTypeMap, ∀ s ∈ e.2, strategyClass s.strategyName ≠ none) :
    ∃ f uris, initStrategies strategyTypeMap [] = (subOk, f, uris) ∧
      (∀ uri, find uri strategyTypeMap = none → find uri uris = none) ∧
      ∀ uri types, find uri strategyTypeMap = some types → ∀ (req : Http.Request) (mem : Memory),
        runUri (call log sort f.heap) uris uri req ((), some (mem, .null)) =
          (subOk, (), (instances f types).foldlM
            (fun st s => strategyProcess log sort s.1 s.2 req st) (mem, .null)) := by
  obtain ⟨f, uris, hinit, hf, hcov, huris⟩ :=
    initLoop_ok hknown (by rwa [List.nil_append]) Factory.ok_empty filled_nil
  rw [List.nil_append] at hcov huris
  refine ⟨f, uris, hinit, fun uri hnone => by rw [huris uri, hnone]; rfl,
    fun uri types hfind req mem => ?_⟩
  have hmem := hmap.mem_iff_find.mpr hfind
  have hheap : ∀ s ∈ types, ∃ c, strategyClass s.strategyName = some c ∧
      f.heap[f.pointer s.strategyName]? = some c := by
    intro s hs
    obtain ⟨c, hc⟩ := Option.ne_none_iff_exists'.mp (hknown _ hmem s hs)
    obtain ⟨p, hp⟩ := hcov _ hmem s hs
    refine ⟨c, hc, ?_⟩
    rw [Factory.pointer, hp, Option.getD_some, (hf.heap_eq _ _ hp).1, hc]
  rw [runUri, huris uri, hfind]
  simp only [Option.map_some]
  rw [foldl_call log sort req hheap]
  rfl

/-- **A run of a URI builds what its view says.**  When `_produce` knows all names of a strategy
map, the strategies of a configured URI, called one after the other on an empty response, are
defined exactly if they are on the view, and then the JSON value says what the view says, and
the memory is that of the run on the view. -/
theorem runUri_view {strategyTypeMap : StrategyDict} (hmap : Sorted strategyTypeMap)
    (hknown : ∀ e ∈ strategyTypeMap, ∀ s ∈ e.2, strategyClass s.strategyName ≠ none) :
    ∃ f uris, initStrategies strategyTypeMap [] = (subOk, f, uris) ∧
      ∀ uri types, find uri strategyTypeMap = some types → ∀ (req : Http.Request) (mem : Memory),
        ∃ r, runUri (call log sort f.heap) uris uri req ((), some (mem, .null)) = (subOk, (), r) ∧
          Agree r ((instances f types).foldlM (View.step log sort req) (mem, .empty)) := by
  obtain ⟨f, uris, hinit, -, hrun⟩ := runUri_instances log sort hmap hknown
  refine ⟨f, uris, hinit, fun uri types hfind req mem => ⟨_, hrun uri types hfind req mem, ?_⟩⟩
  exact agree_run log sort req (instances f types) represents_empty mem

/-! ## A search among other strategies -/

/-- The view behind strategies none of which searches. -/
def View.behind (mem : Memory) (q : Bytes) (segRes : List Bytes) (classes : List StrategyClass)
    (view : View K) : View K where
  text := view.text || classes.any (· = .text)
  rewrite := view.rewrite || classes.any (· = .rewrite)
  seg := view.seg ++ (List.replicate (classes.count .text) segRes).flatten
  answer := view.answer
  suggest := bif classes.any (· = .suggest) then some (suggestions mem q) else view.suggest

/-- Strategies that do not search, by induction on their list. -/
lemma run_quiet {req : Http.Request} {q : Bytes} (hq : req.getQuery = some q) {mem : Memory}
    {ret : SegRet} {segRes : List Bytes} (hseg : segment mem.tagger q [] = some (ret, segRes))
    {l : List (StrategyClass × ℕ)} (hl : ∀ s ∈ l, s.1 ≠ .search) (view : View K) :
    l.foldlM (View.step log sort req) (mem, view) =
      some (mem, view.behind mem q segRes (l.map Prod.fst)) := by
  induction l generalizing view with
  | nil =>
    rw [List.map_nil, View.behind]
    simp
  | cons s l ih =>
    obtain ⟨c, p⟩ := s
    have hrest := ih fun s hs => hl s (List.mem_cons_of_mem _ hs)
    rw [List.foldlM_cons, List.map_cons]
    cases c with
    | search => exact absurd rfl (hl _ List.mem_cons_self)
    | text =>
      rw [View.step]
      simp only [hq, hseg, Option.bind_eq_bind, Option.bind_some, hrest]
      simp [View.behind, List.replicate_succ]
    | rewrite =>
      rw [View.step]
      simp only [Option.bind_eq_bind, Option.bind_some, hrest]
      simp [View.behind]
    | suggest =>
      rw [View.step]
      simp only [hq, Option.bind_eq_bind, Option.bind_some, hrest]
      simp [View.behind]

lemma eq_of_strategyClass {name : Bytes} {c : StrategyClass} (h : strategyClass name = some c) :
    name = match c with
      | .text => bytes "TextStrategy"
      | .rewrite => bytes "RewriteStrategy"
      | .search => bytes "SearchStrategy"
      | .suggest => bytes "SuggestStrategy" := by
  rw [strategyClass] at h
  split at h
  · next hname => cases h; exact hname
  · split at h
    · next hname => cases h; exact hname
    · split at h
      · next hname => cases h; exact hname
      · split at h
        · next hname => cases h; exact hname
        · cases h

/-- The class of a strategy whose name `_produce` knows. -/
def classOf (s : StrategyType) : StrategyClass := (strategyClass s.strategyName).getD .rewrite

lemma map_instances (f : Factory) {types : List StrategyType}
    (hknown : ∀ s ∈ types, strategyClass s.strategyName ≠ none) :
    instances f types = types.map fun s => (classOf s, f.pointer s.strategyName) := by
  rw [instances, ← List.filterMap_eq_map]
  refine List.filterMap_congr fun s hs => ?_
  obtain ⟨c, hc⟩ := Option.ne_none_iff_exists'.mp (hknown s hs)
  show _ = some (classOf s, f.pointer s.strategyName)
  rw [classOf, hc]
  rfl

/-- The instances of strategies none of which is `SearchStrategy`. -/
lemma quiet_instances (f : Factory) {types : List StrategyType}
    (hknown : ∀ s ∈ types, strategyClass s.strategyName ≠ none)
    (hother : ∀ s ∈ types, s.strategyName ≠ bytes "SearchStrategy") :
    (∀ s ∈ instances f types, s.1 ≠ .search) ∧
      (instances f types).map Prod.fst = types.map classOf := by
  rw [map_instances f hknown, List.map_map]
  refine ⟨?_, rfl⟩
  intro s hs hsearch
  obtain ⟨t, ht, rfl⟩ := List.mem_map.mp hs
  obtain ⟨c, hc⟩ := Option.ne_none_iff_exists'.mp (hknown t ht)
  change classOf t = .search at hsearch
  rw [classOf, hc] at hsearch
  exact hother t ht (eq_of_strategyClass (hc.trans (congrArg some hsearch)))

/-- The segments that the strategies of a list put under `seg`. -/
def texts (segRes : List Bytes) (types : List StrategyType) : List Bytes :=
  (List.replicate ((types.map classOf).count .text) segRes).flatten

/-- The view behind a list of strategies exactly one of which searches. -/
lemma run_search {f : Factory} {pre post : List StrategyType} {level : ℤ}
    (hknown : ∀ s ∈ pre ++ ⟨bytes "SearchStrategy", level⟩ :: post,
      strategyClass s.strategyName ≠ none)
    (hother : ∀ s ∈ pre ++ post, s.strategyName ≠ bytes "SearchStrategy") {req : Http.Request}
    {mem : Memory} {q : Bytes} (hq : req.getQuery = some q) {ret : SegRet} {segRes : List Bytes}
    (hseg : segment mem.tagger q [] = some (ret, segRes)) :
    let p := f.pointer (bytes "SearchStrategy")
    let classes := (pre ++ post).map classOf
    (instances f (pre ++ ⟨bytes "SearchStrategy", level⟩ :: post)).foldlM
        (View.step log sort req) (mem, .empty) =
      (process log sort (mem.dicts p) req.getPage (texts segRes pre)).map fun r =>
        ({ mem with dicts := Function.update mem.dicts p r.1 },
          { text := classes.any (· = .text)
            rewrite := classes.any (· = .rewrite)
            seg := texts segRes pre ++ texts segRes post
            answer := some r.2
            suggest := bif classes.any (· = .suggest) then some (suggestions mem q) else none }) := by
  intro p classes
  -- the strategies in front and behind do not search
  have hsub : ∀ s ∈ pre ++ post, strategyClass s.strategyName ≠ none := fun s hs =>
    hknown s ((List.mem_append.mp hs).elim (List.mem_append_left _)
      fun h => List.mem_append_right _ (List.mem_cons_of_mem _ h))
  obtain ⟨hpre, hpreClasses⟩ := quiet_instances f
    (fun s hs => hsub s (List.mem_append_left _ hs)) fun s hs => hother s (List.mem_append_left _ hs)
  obtain ⟨hpost, hpostClasses⟩ := quiet_instances f
    (fun s hs => hsub s (List.mem_append_right _ hs)) fun s hs =>
      hother s (List.mem_append_right _ hs)
  have hinst : instances f (pre ++ ⟨bytes "SearchStrategy", level⟩ :: post) =
      instances f pre ++ (.search, p) :: instances f post := by
    rw [instances, List.filterMap_append, List.filterMap_cons_some]
    · rfl
    · rfl
  rw [hinst, List.foldlM_append, run_quiet log sort hq hseg hpre, Option.bind_eq_bind,
    Option.bind_some, List.foldlM_cons, hpreClasses, View.step]
  simp only [hq, Option.bind_eq_bind, Option.bind_some]
  rw [show (View.behind mem q segRes (pre.map classOf) (.empty : View K)).seg = texts segRes pre
    from List.nil_append _]
  cases process log sort (mem.dicts p) req.getPage (texts segRes pre) with
  | none => rfl
  | some r =>
    obtain ⟨dicts, answer⟩ := r
    have hseg' : segment ({ mem with dicts := Function.update mem.dicts p dicts } : Memory).tagger
      q [] = some (ret, segRes) := hseg
    rw [Option.bind_some, Option.bind_some, run_quiet log sort hq hseg' hpost, hpostClasses]
    simp only [Option.map_some, View.behind, View.empty, classes, List.map_append,
      List.any_append, List.nil_append, Bool.false_or]
    congr 3
    cases (post.map classOf).any (· = .suggest) <;>
      cases (pre.map classOf).any (· = .suggest) <;> rfl

/-- **A search works on the segments of the query.**  When `_produce` knows all names of a
strategy map and exactly one strategy of a URI is `SearchStrategy`, its terms are the segments
of the query, once for each `TextStrategy` in front of it; so with none in front the answer is
an error whatever the query is.  The response shows the answer, all segments that were put
there, and the suggestions if `SuggestStrategy` is called, and of the memory only the
dictionaries of the instance that searches can have changed. -/
theorem runUri_search {strategyTypeMap : StrategyDict} (hmap : Sorted strategyTypeMap)
    (hknown : ∀ e ∈ strategyTypeMap, ∀ s ∈ e.2, strategyClass s.strategyName ≠ none) :
    ∃ f uris, initStrategies strategyTypeMap [] = (subOk, f, uris) ∧
      ∀ (uri : Bytes) (pre post : List StrategyType) (level : ℤ),
        find uri strategyTypeMap = some (pre ++ ⟨bytes "SearchStrategy", level⟩ :: post) →
        (∀ s ∈ pre ++ post, s.strategyName ≠ bytes "SearchStrategy") →
        ∀ (req : Http.Request) (mem : Memory) (q : Bytes) (ret : SegRet) (segRes : List Bytes),
          req.getQuery = some q → segment mem.tagger q [] = some (ret, segRes) →
          let p := f.pointer (bytes "SearchStrategy")
          ∃ r, runUri (call log sort f.heap) uris uri req ((), some (mem, .null)) =
              (subOk, (), r) ∧
            (process log sort (mem.dicts p) req.getPage (texts segRes pre) = none → r = none) ∧
            ∀ dicts answer, process log sort (mem.dicts p) req.getPage (texts segRes pre) =
                some (dicts, answer) → ∃ root : Value K,
              r = some ({ mem with dicts := Function.update mem.dicts p dicts }, root) ∧
              answer.Shown (root.get (bytes "search")) ∧
              root.get (bytes "seg") = array .str (texts segRes pre ++ texts segRes post) ∧
              root.get (bytes "suggest") =
                bif ((pre ++ post).map classOf).any (· = .suggest) then
                  array suggestInfo (suggestions mem q) else .null := by
  obtain ⟨f, uris, hinit, -, hrun⟩ := runUri_instances log sort hmap hknown
  refine ⟨f, uris, hinit, ?_⟩
  intro uri pre post level hfind hother req mem q ret segRes hq hseg p
  refine ⟨_, hrun uri _ hfind req mem, ?_⟩
  have hagree := agree_run log sort req (instances f (pre ++ ⟨bytes "SearchStrategy", level⟩ :: post))
    represents_empty mem
  rw [run_search log sort (hknown _ (hmap.mem_iff_find.mpr hfind)) hother hq hseg] at hagree
  constructor
  · intro hprocess
    rw [hprocess] at hagree
    exact hagree
  · intro dicts answer hprocess
    rw [hprocess] at hagree
    obtain ⟨root, hroot, hrep⟩ := hagree
    refine ⟨root, hroot, hrep.answer, hrep.seg, hrep.suggest.trans ?_⟩
    show (Option.map _ (bif _ then some _ else none)).getD _ = _
    cases ((pre ++ post).map classOf).any (· = .suggest) <;> rfl

end field

/-- The query `ab` for a tagger that makes a word of each character. -/
def searchAb : Http.Request where
  url := bytes "/search"
  method := bytes "GET"
  version := bytes "HTTP/1.1"
  headers := ∅
  params := ((∅ : Std.ExtTreeMap Bytes Bytes).insert (bytes "p") (bytes "1")).insert (bytes "q")
    (bytes "ab")

/-- Two postings for the term `a` in the index of every instance, and nothing to suggest. -/
def memoryAb : Memory := ⟨some (constantTagger (bytes "S")), fun _ => twoPostings, .root 0 0⟩

/-- The URIs of the shipped configuration. -/
theorem runUri_view_shipped :
    let sort : List (ℤ × ℚ) → List (ℤ × ℚ) :=
      fun vec => vec.mergeSort fun lhs rhs => decide (rhs.2 ≤ lhs.2)
    ∃ f uris, initStrategies shipped [] = (subOk, f, uris) ∧
      ∀ uri types, find uri shipped = some types → ∀ (req : Http.Request) (mem : Memory),
        ∃ r, runUri (call (fun x => x) sort f.heap) uris uri req ((), some (mem, .null)) =
            (subOk, (), r) ∧
          Agree r ((instances f types).foldlM (View.step (fun x => x) sort req) (mem, .empty)) :=
  runUri_view _ _ (by unfold Sorted; decide) (by decide)

/-- A search of the shipped configuration. -/
theorem runUri_search_shipped :
    let sort : List (ℤ × ℚ) → List (ℤ × ℚ) :=
      fun vec => vec.mergeSort fun lhs rhs => decide (rhs.2 ≤ lhs.2)
    ∃ f uris, initStrategies shipped [] = (subOk, f, uris) ∧
      let segRes := [bytes "a", bytes "b"]
      let pre : List StrategyType := [⟨bytes "TextStrategy", 255⟩, ⟨bytes "RewriteStrategy", 255⟩]
      let p := f.pointer (bytes "SearchStrategy")
      ∃ r, runUri (call (fun x => x) sort f.heap) uris (bytes "/search") searchAb
            ((), some (memoryAb, .null)) = (subOk, (), r) ∧
        (process (fun x => x) sort twoPostings searchAb.getPage (texts segRes pre) = none →
          r = none) ∧
        ∀ dicts answer, process (fun x => x) sort twoPostings searchAb.getPage
            (texts segRes pre) = some (dicts, answer) → ∃ root : Value ℚ,
          r = some ({ memoryAb with dicts := Function.update memoryAb.dicts p dicts }, root) ∧
          answer.Shown (root.get (bytes "search")) ∧
          root.get (bytes "seg") = array .str (texts segRes pre ++ texts segRes []) ∧
          root.get (bytes "suggest") =
            bif ((pre ++ []).map classOf).any (· = StrategyClass.suggest) then
              array suggestInfo (suggestions memoryAb (bytes "ab")) else .null := by
  intro sort
  obtain ⟨f, uris, hinit, hsearch⟩ := runUri_search (fun x : ℚ => x) sort
    (show Sorted shipped by unfold Sorted; decide) (by decide)
  have hq : searchAb.getQuery = some (bytes "ab") := Std.ExtTreeMap.getElem?_insert_self
  have hseg : segment memoryAb.tagger (bytes "ab") [] = some (.ok, [bytes "a", bytes "b"]) := by
    decide
  have hfind : find (bytes "/search") shipped = some ([⟨bytes "TextStrategy", 255⟩,
      ⟨bytes "RewriteStrategy", 255⟩] ++ ⟨bytes "SearchStrategy", 255⟩ :: []) := rfl
  have hother : ∀ s ∈ ([⟨bytes "TextStrategy", 255⟩, ⟨bytes "RewriteStrategy", 255⟩] ++ [] :
      List StrategyType), s.strategyName ≠ bytes "SearchStrategy" := by
    decide
  exact ⟨f, uris, hinit, hsearch _ _ _ _ hfind hother searchAb memoryAb _ _ _ hq hseg⟩

end Plugin
end Sunet
