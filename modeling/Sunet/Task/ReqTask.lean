/-
# `ReqTask::_run`

A worker parses the data of its task, has the strategies of the URI called on an empty JSON
value, and leaves the text of the value as a response for the descriptor of the task.  Here the
parts of the server are put together: what a worker answers to a request, and what is left of
the request in the memory that all workers share.

The text that is made of a JSON value is that of a library, here a parameter.
-/
import Sunet.Io.Framing
import Sunet.Plugin.Found

namespace Sunet

open Byte SortedMap Config Seg Index

namespace Plugin

/-! ## What a request leaves in the memory -/

/-- The dictionaries of every instance were loaded from the files of a corpus. -/
def Memory.Loaded (mem : Memory) : Prop :=
  ∀ p, ∃ (segment : Bytes → List Bytes) (corpus : Bytes),
    (∀ s, ∀ t ∈ segment s, Writable t) ∧ mem.dicts p = loadedDicts (buildMaps segment corpus)

section field

variable {K : Type} [Field K] [LinearOrder K] (log : K → K) (sort : List (ℤ × K) → List (ℤ × K))

/-- A search leaves the dictionaries of a corpus alone. -/
lemma process_eq_self {segment : Bytes → List Bytes} (hseg : ∀ s, ∀ t ∈ segment s, Writable t)
    {corpus : Bytes} {page : ℤ} {terms : List Bytes} {dicts : SearchDicts} {answer : Answer K}
    (h : process log sort (loadedDicts (buildMaps segment corpus)) page terms =
      some (dicts, answer)) : dicts = loadedDicts (buildMaps segment corpus) := by
  rw [process] at h
  split at h
  · cases h
    rfl
  · simp only [docLengthDict_rank hseg log sort corpus terms, Option.bind_eq_bind,
      Option.bind_eq_some_iff] at h
    obtain ⟨r, -, h⟩ := h
    exact (congrArg Prod.fst (Option.some.inj h)).symm

/-- A strategy leaves the memory alone. -/
lemma mem_of_strategyProcess {c : StrategyClass} {p : ℕ} {req : Http.Request} {mem mem' : Memory}
    (hmem : mem.Loaded) {root root' : Value K}
    (h : strategyProcess log sort c p req (mem, root) = some (mem', root')) : mem' = mem := by
  cases c with
  | search =>
    rw [strategyProcess, Option.map_eq_some_iff] at h
    obtain ⟨⟨dicts, value⟩, hsearch, h⟩ := h
    obtain ⟨rfl, -⟩ := Prod.mk.inj h
    obtain ⟨segment, corpus, hseg, hdicts⟩ := hmem p
    simp only [searchProcess, Option.bind_eq_bind, Option.bind_eq_some_iff] at hsearch
    obtain ⟨q, -, value₁, -, seg, -, ⟨dicts', answer⟩, hprocess, value₂, -, heq⟩ := hsearch
    obtain ⟨rfl, -⟩ := Prod.mk.inj (Option.some.inj heq)
    rw [hdicts] at hprocess
    show ({ mem with dicts := Function.update mem.dicts p dicts' } : Memory) = mem
    rw [process_eq_self log sort hseg hprocess, ← hdicts, Function.update_eq_self]
  | text | rewrite | suggest =>
    rw [strategyProcess, Option.map_eq_some_iff] at h
    obtain ⟨value, -, h⟩ := h
    exact (Prod.mk.inj h).1.symm

/-! ## The calls of `_run_uri`, one by one -/

/-- The call of one strategy, or `none` where it is not defined. -/
def called (heap : List StrategyClass) (req : Http.Request) (st : Memory × Value K)
    (s : StrategyTypeMgr) : Option (Memory × Value K) :=
  (call log sort heap s.subStrategy req s.strategyLevel ((), some st)).2

omit [LinearOrder K] in
/-- `_run_uri` calls what the table has for the URI, by induction on the strategies. -/
lemma runUri_called (heap : List StrategyClass) (uris : UriStrategies) (uri : Bytes)
    (req : Http.Request) (st : Memory × Value K) :
    (runUri (call log sort heap) uris uri req ((), some st)).2.2 =
      ((find uri uris).getD []).foldlM (called log sort heap req) st := by
  have hfold : ∀ (vec : List StrategyTypeMgr) (st : Option (Memory × Value K)),
      (vec.foldl (fun state s => call log sort heap s.subStrategy req s.strategyLevel state)
        ((), st)).2 = st.bind (vec.foldlM (called log sort heap req)) := by
    intro vec
    induction vec with
    | nil => intro st; cases st <;> rfl
    | cons s vec ih =>
      intro st
      rw [List.foldl_cons]
      refine (ih _).trans ?_
      cases st <;> rfl
  rw [runUri]
  cases find uri uris with
  | none => rfl
  | some vec => exact hfold vec (some st)

lemma mem_of_called {heap : List StrategyClass} {req : Http.Request} {mem mem' : Memory}
    (hmem : mem.Loaded) {root root' : Value K} {s : StrategyTypeMgr}
    (h : called log sort heap req (mem, root) s = some (mem', root')) : mem' = mem := by
  simp only [called, call, Option.bind_eq_bind, Option.bind_some, Option.bind_eq_some_iff] at h
  obtain ⟨c, -, hprocess⟩ := h
  exact mem_of_strategyProcess log sort hmem hprocess

/-- The calls for a URI leave the memory alone, by induction on them. -/
lemma mem_of_foldlM_called {heap : List StrategyClass} {req : Http.Request} {mem mem' : Memory}
    (hmem : mem.Loaded) {vec : List StrategyTypeMgr} {root root' : Value K}
    (h : vec.foldlM (called log sort heap req) (mem, root) = some (mem', root')) : mem' = mem := by
  induction vec generalizing root with
  | nil => exact (congrArg Prod.fst (Option.some.inj h)).symm
  | cons s vec ih =>
    rw [List.foldlM_cons, Option.bind_eq_bind, Option.bind_eq_some_iff] at h
    obtain ⟨⟨mem₁, root₁⟩, hcall, hrest⟩ := h
    obtain rfl := mem_of_called log sort hmem hcall
    exact ih hrest

end field

end Plugin

namespace Task

open Plugin

/-! ## The task -/

/-- `_task_call_back_proc_dict`, with a number for each function. -/
abbrev CallBackProcs := List (Bytes × ℕ)

/-- `REQ_TASK`. -/
def reqTask : Bytes := bytes "req_task"

section run

variable {K : Type} [Field K] [LinearOrder K] (log : K → K) (sort : List (ℤ × K) → List (ℤ × K))
  (beyond : Byte) (toStyledString : Value K → Bytes) (procs : CallBackProcs) (f : Factory)
  (uris : UriStrategies)

/-- `_run` for the epoll server: the memory of the strategies and the response, if there is one.
Nothing is defined when the parser leaves the buffer or throws, or when a strategy is not. -/
def reqTaskRun (mem : Memory) (task : Io.ReqTaskData) (serial : ℕ) :
    Option (Memory × Option Io.OutEnv) :=
  match find reqTask procs with
  | none => some (mem, none)
  | some _ =>
    match Http.parse beyond task.data Http.Request.new with
    | .error _ => none
    | .ok request =>
      -- what `_run_uri` returns is not looked at
      let (_, _, state) := runUri (call log sort f.heap) uris request.url request
        ((), some (mem, .null))
      state.map fun r => (r.1, some (.new task (toStyledString r.2) serial))

/-- Tasks one after the other, with the number that each response gets. -/
def reqTasksRun (mem : Memory) : List (Io.ReqTaskData × ℕ) →
    Option (Memory × List (Option Io.OutEnv))
  | [] => some (mem, [])
  | (task, serial) :: tasks => do
    let (mem, env) ← reqTaskRun log sort beyond toStyledString procs f uris mem task serial
    let (mem, envs) ← reqTasksRun mem tasks
    some (mem, env :: envs)

end run

/-! ## Requests do not influence each other -/

section field

variable {K : Type} [Field K] [LinearOrder K] (log : K → K) {sort : List (ℤ × K) → List (ℤ × K)}

/-- One task leaves the memory as it is. -/
lemma mem_of_reqTaskRun {f : Factory} {uris : UriStrategies} {beyond : Byte}
    {toStyledString : Value K → Bytes} {procs : CallBackProcs} {mem mem' : Memory}
    (hmem : mem.Loaded) {task : Io.ReqTaskData} {serial : ℕ} {env : Option Io.OutEnv}
    (h : reqTaskRun log sort beyond toStyledString procs f uris mem task serial =
      some (mem', env)) : mem' = mem := by
  rw [reqTaskRun] at h
  split at h
  · exact (congrArg Prod.fst (Option.some.inj h)).symm
  · split at h
    · cases h
    · next request _ =>
      have hcalls := runUri_called log sort f.heap uris request.url request (mem, .null)
      simp only [hcalls, Option.map_eq_some_iff] at h
      obtain ⟨⟨mem₁, root⟩, hroot, h⟩ := h
      obtain ⟨rfl, -⟩ := Prod.mk.inj h
      exact mem_of_foldlM_called log sort hmem hroot

variable (sort) in
/-- **Requests do not influence each other.**  When the dictionaries were loaded from files of
`build_index` and `_produce` knows the names of the strategy map, tasks with any data that are
run one after the other are defined exactly if each of them is on the memory as it was loaded;
then their responses are those that they have there, and the memory is not changed. -/
theorem reqTasksRun_eq {strategyTypeMap : StrategyDict} (hmap : Sorted strategyTypeMap)
    (hknown : ∀ e ∈ strategyTypeMap, ∀ s ∈ e.2, strategyClass s.strategyName ≠ none) :
    ∃ f uris, initStrategies strategyTypeMap [] = (subOk, f, uris) ∧
      ∀ (beyond : Byte) (toStyledString : Value K → Bytes) (procs : CallBackProcs) (mem : Memory),
        mem.Loaded → ∀ tasks : List (Io.ReqTaskData × ℕ),
          reqTasksRun log sort beyond toStyledString procs f uris mem tasks =
            (tasks.mapM fun t => (reqTaskRun log sort beyond toStyledString procs f uris mem
              t.1 t.2).map Prod.snd).map fun envs => (mem, envs) := by
  obtain ⟨f, uris, hinit, -⟩ := runUri_instances log sort hmap hknown
  refine ⟨f, uris, hinit, ?_⟩
  intro beyond toStyledString procs mem hmem tasks
  induction tasks with
  | nil => rfl
  | cons t tasks ih =>
    obtain ⟨task, serial⟩ := t
    rw [reqTasksRun, List.mapM_cons]
    cases h : reqTaskRun log sort beyond toStyledString procs f uris mem task serial with
    | none => rfl
    | some r =>
      obtain ⟨mem', env⟩ := r
      obtain rfl := mem_of_reqTaskRun log hmem h
      simp only [Option.bind_eq_bind, Option.bind_some, ih, Option.map_some]
      cases tasks.mapM fun t => (reqTaskRun log sort beyond toStyledString procs f uris mem'
        t.1 t.2).map Prod.snd <;> rfl

/-! ## A request that is answered -/

/-- The value of the parameter `q` that `_parse` finds. -/
def query (msg : Http.Message) : Bytes := (msg.params.reverse.lookup (bytes "q")).getD []

/-- The page that `_parse` finds. -/
def page (msg : Http.Message) : ℤ := atoi ((msg.params.reverse.lookup (bytes "p")).getD (bytes "1"))

/-- What is read of the text of a request. -/
lemma parse_message (beyond : Byte) (msg : Http.Message) (body : Bytes) :
    ∃ req, Http.parse beyond (msg.text ++ body ++ [nul]) Http.Request.new = .ok req ∧
      req.url = msg.path ∧ req.getQuery = some (query msg) ∧ req.getPage = page msg := by
  obtain ⟨version, hparse⟩ := msg.parse_parts beyond body
  have hparams := fun k => Http.getElem?_foldl_insert msg.params Http.Request.new.params k
  have hq : Http.Request.new.params[bytes "q"]? = some [] := by decide
  have hp : Http.Request.new.params[bytes "p"]? = some (bytes "1") := by decide
  refine ⟨_, hparse, rfl, (hparams _).trans ?_, ?_⟩
  · rw [hq, query]
    cases msg.params.reverse.lookup (bytes "q") <;> rfl
  · rw [Http.Request.getPage, show msg.front.params[bytes "p"]? = _ from hparams _, hp, page]
    cases msg.params.reverse.lookup (bytes "p") <;> rfl

/-- Every string whose length is an `int` can be segmented, also when there is no tagger. -/
lemma exists_segment (tagger : Option Tagger) {str : Bytes} (hstr : str.length < 2 ^ 31) :
    ∃ ret segRes, segment tagger str [] = some (ret, segRes) := by
  cases tagger with
  | none => exact ⟨_, _, rfl⟩
  | some tagger =>
    obtain ⟨ret, hseg⟩ := segment_eq_indexSegment tagger hstr
    exact ⟨ret, _, hseg⟩

/-- What the trie of a file answers: the kept lines that match, in the byte order of what is
shown of them. -/
lemma search_lines (m : Dat.TrieNode.Memory ℤ) {lines : List Dat.TrieNode.SuggestLine}
    {file : Bytes} (hfile : getLines file = lines.map Dat.TrieNode.SuggestLine.text)
    {trie : Dat.TrieNode ℤ} (htrie : Dat.TrieNode.build m.nodeVal (.new m) file = some trie)
    {q : Bytes} (hq : StringUtil.tokens q ≠ []) :
    let found := trie.search (.new q) []
    (∀ r, r ∈ found ↔ ∃ line, Dat.TrieNode.Kept lines line ∧
      StringUtil.tokens q <+: StringUtil.tokens line.title ∧
      r = (Dat.TrieNode.retitled q line.title, atoi line.id)) ∧
    found.Pairwise fun lhs rhs => lhs.1 < rhs.1 := by
  rw [Dat.TrieNode.build_lines m hfile, Option.some.injEq] at htrie
  subst htrie
  constructor
  · obtain ⟨appended, hsearch, hmem⟩ := Dat.TrieNode.mem_appended m lines q []
    intro r
    rw [hsearch, List.nil_append, hmem]
    exact or_iff_right fun h => hq h.1
  · obtain ⟨below, hsearch, -, hsorted⟩ := Dat.TrieNode.exists_below
      (Dat.TrieNode.ordered_insertedOn m (Dat.TrieNode.insertions lines)) q []
    rw [hsearch, List.nil_append, List.pairwise_map]
    exact (List.pairwise_map.mp hsorted).imp List.append_left_lt

omit [LinearOrder K] in
variable (sort) in
/-- **A request for suggestions is answered.**  For a URI with a `SuggestStrategy` and without a
`SearchStrategy`, and a trie that was built from a file of lines with an id and a title, the
response has the matching lines of the file, of several with the same characters the last one,
in the byte order of what is shown of them, and of these the first 20. -/
theorem reqTask_suggest {strategyTypeMap : StrategyDict} (hmap : Sorted strategyTypeMap)
    (hknown : ∀ e ∈ strategyTypeMap, ∀ s ∈ e.2, strategyClass s.strategyName ≠ none)
    (m : Dat.TrieNode.Memory ℤ) {lines : List Dat.TrieNode.SuggestLine} {file : Bytes}
    (hfile : getLines file = lines.map Dat.TrieNode.SuggestLine.text) :
    ∃ f uris, initStrategies strategyTypeMap [] = (subOk, f, uris) ∧
      ∀ (uri : Bytes) (types : List StrategyType), find uri strategyTypeMap = some types →
        (∀ s ∈ types, s.strategyName ≠ bytes "SearchStrategy") →
        (∃ s ∈ types, s.strategyName = bytes "SuggestStrategy") →
        ∀ mem : Memory, Dat.TrieNode.build m.nodeVal (.new m) file = some mem.suggestDict →
          ∀ q : Bytes, q.length < 2 ^ 31 → StringUtil.tokens q ≠ [] →
            ∃ found : List (Bytes × ℤ),
              (∀ r, r ∈ found ↔ ∃ line, Dat.TrieNode.Kept lines line ∧
                StringUtil.tokens q <+: StringUtil.tokens line.title ∧
                r = (Dat.TrieNode.retitled q line.title, atoi line.id)) ∧
              (found.Pairwise fun lhs rhs => lhs.1 < rhs.1) ∧
              ∀ (beyond : Byte) (toStyledString : Value K → Bytes) (procs : CallBackProcs)
                (msg : Http.Message) (body : Bytes) (task : Io.ReqTaskData) (serial : ℕ),
                find reqTask procs ≠ none → msg.path = uri → query msg = q →
                task.data = msg.text ++ body ++ [nul] → ∃ root : Value K,
                  reqTaskRun log sort beyond toStyledString procs f uris mem task serial =
                    some (mem, some (.new task (toStyledString root) serial)) ∧
                  root.get (bytes "suggest") = array suggestInfo (found.take 20) := by
  obtain ⟨f, uris, hinit, -, hrun⟩ := runUri_instances log sort hmap hknown
  refine ⟨f, uris, hinit, ?_⟩
  intro uri types hfind hother hsuggest mem htrie q hq htokens
  obtain ⟨hfound, hordered⟩ := search_lines m hfile htrie htokens
  refine ⟨_, hfound, hordered, ?_⟩
  intro beyond toStyledString procs msg body task serial hproc hpath hquery hdata
  obtain ⟨req, hparse, hurl, hreqQuery, -⟩ := parse_message beyond msg body
  rw [hquery] at hreqQuery
  obtain ⟨ret, segRes, hseg⟩ := exists_segment mem.tagger hq
  obtain ⟨proc, hproc⟩ := Option.ne_none_iff_exists'.mp hproc
  obtain ⟨hquiet, hclasses⟩ :=
    quiet_instances f (hknown _ (hmap.mem_iff_find.mpr hfind)) hother
  have hany : (types.map classOf).any (· = .suggest) = true := by
    obtain ⟨s, hs, hname⟩ := hsuggest
    refine List.any_eq_true.mpr ⟨.suggest, List.mem_map.mpr ⟨s, hs, ?_⟩, decide_eq_true rfl⟩
    rw [classOf, hname]
    rfl
  have hagree := agree_run log sort req (instances f types) represents_empty mem
  rw [run_quiet log sort hreqQuery hseg hquiet] at hagree
  obtain ⟨root, hroot, hrep⟩ := hagree
  refine ⟨root, ?_, ?_⟩
  · simp only [reqTaskRun, hproc, hdata, hparse, hurl, hpath, hrun uri types hfind, hroot,
      Option.map_some]
  · have hshown := hrep.suggest
    rw [View.behind, hclasses, hany] at hshown
    exact hshown

end field

lemma isMethod_get : Http.IsMethod (bytes "GET") := by decide

lemma isPath_search : qmark ∉ bytes "/search" ∧ sp ∉ bytes "/search" ∧ cr ∉ bytes "/search" ∧
    nul ∉ bytes "/search" := by decide

lemma isKey_q (q : Bytes) : ∀ kv ∈ [(bytes "q", q)], Http.IsKey kv.1 :=
  List.forall_mem_singleton.mpr (show Http.IsKey (bytes "q") by decide)

lemma isVersion_http : cr ∉ bytes "HTTP/1.1" := by decide

lemma isHeaderPair_host : ∀ kv ∈ [(bytes "Host", bytes "localhost")], Http.IsHeaderPair kv := by
  decide

/-- The request for the first page of a query. -/
def searchMessage (q : Bytes) : Http.Message where
  method := bytes "GET"
  path := bytes "/search"
  params := [(bytes "q", q)]
  version := bytes "HTTP/1.1"
  headers := [(bytes "Host", bytes "localhost")]
  isMethod := isMethod_get
  isPath := isPath_search
  isKey := isKey_q q
  isVersion := isVersion_http
  isHeaderPair := isHeaderPair_host

lemma isPath_suggest : qmark ∉ bytes "/suggest" ∧ sp ∉ bytes "/suggest" ∧
    cr ∉ bytes "/suggest" ∧ nul ∉ bytes "/suggest" := by decide

/-- The request for the suggestions for a query. -/
def suggestMessage (q : Bytes) : Http.Message where
  method := bytes "GET"
  path := bytes "/suggest"
  params := [(bytes "q", q)]
  version := bytes "HTTP/1.1"
  headers := [(bytes "Host", bytes "localhost")]
  isMethod := isMethod_get
  isPath := isPath_suggest
  isKey := isKey_q q
  isVersion := isVersion_http
  isHeaderPair := isHeaderPair_host

/-- The callback that the server registers for `REQ_TASK`. -/
def callBackProcs : CallBackProcs := [(reqTask, 0)]

lemma tab_notMem_one : tab ∉ bytes "1" := by decide

lemma tab_notMem_ab : tab ∉ bytes "ab" := by decide

lemma ab_ne_nil : bytes "ab" ≠ [] := by decide

/-- A line of a file of suggestions. -/
def abLine : Dat.TrieNode.SuggestLine where
  id := bytes "1"
  title := bytes "ab"
  tab_notMem_id := tab_notMem_one
  tab_notMem_title := tab_notMem_ab
  title_ne_nil := ab_ne_nil

/-- The shipped configuration, a file of one line and a query that begins it. -/
theorem reqTask_suggest_shipped :
    let q := bytes "a"
    ∃ f uris, initStrategies shipped [] = (subOk, f, uris) ∧
      ∀ mem : Memory, Dat.TrieNode.build 0 (.new ⟨0, 0, 0⟩) (bytes "1\tab\n") =
          some mem.suggestDict →
        ∃ found : List (Bytes × ℤ),
          (∀ r, r ∈ found ↔ ∃ line, Dat.TrieNode.Kept [abLine] line ∧
            StringUtil.tokens q <+: StringUtil.tokens line.title ∧
            r = (Dat.TrieNode.retitled q line.title, atoi line.id)) ∧
          ∀ (toStyledString : Value ℚ → Bytes) (body : Bytes) (serial : ℕ),
            let task : Io.ReqTaskData := ⟨5, (suggestMessage q).text ++ body ++ [nul], 0⟩
            ∃ root : Value ℚ,
              reqTaskRun (fun x => x) id 0 toStyledString callBackProcs f uris mem task serial =
                some (mem, some (.new task (toStyledString root) serial)) ∧
              root.get (bytes "suggest") = array suggestInfo (found.take 20) := by
  intro q
  obtain ⟨f, uris, hinit, hrun⟩ := reqTask_suggest (fun x : ℚ => x) id
    (show Sorted shipped by unfold Sorted; decide) (by decide) ⟨0, 0, 0⟩
    (show getLines (bytes "1\tab\n") = [abLine].map Dat.TrieNode.SuggestLine.text by decide)
  refine ⟨f, uris, hinit, fun mem htrie => ?_⟩
  obtain ⟨found, hfound, -, hanswer⟩ := hrun (bytes "/suggest") [⟨bytes "SuggestStrategy", 255⟩]
    rfl (by decide) (by decide) mem htrie q (by decide) (by decide)
  refine ⟨found, hfound, fun toStyledString body serial => ?_⟩
  exact hanswer 0 toStyledString callBackProcs (suggestMessage q) body
    ⟨5, (suggestMessage q).text ++ body ++ [nul], 0⟩ serial (by decide) rfl (by decide) rfl

/-- Two requests for the shipped configuration, the second of which cannot be parsed. -/
theorem reqTasksRun_eq_shipped :
    let sort : List (ℤ × ℚ) → List (ℤ × ℚ) :=
      fun vec => vec.mergeSort fun lhs rhs => decide (rhs.2 ≤ lhs.2)
    let tasks : List (Io.ReqTaskData × ℕ) :=
      [(⟨5, (searchMessage (bytes "ab")).text ++ [nul], 0⟩, 0), (⟨6, bytes "x" ++ [nul], 1⟩, 1)]
    ∃ f uris, initStrategies shipped [] = (subOk, f, uris) ∧
      ∀ (toStyledString : Value ℚ → Bytes) (mem : Memory), mem.Loaded →
        reqTasksRun (fun x => x) sort 0 toStyledString callBackProcs f uris mem tasks =
          (tasks.mapM fun t => (reqTaskRun (fun x => x) sort 0 toStyledString callBackProcs f uris
            mem t.1 t.2).map Prod.snd).map fun envs => (mem, envs) := by
  intro sort tasks
  obtain ⟨f, uris, hinit, hrun⟩ := reqTasksRun_eq (fun x : ℚ => x) sort
    (show Sorted shipped by unfold Sorted; decide) (by decide)
  exact ⟨f, uris, hinit, fun toStyledString mem hmem =>
    hrun 0 toStyledString callBackProcs mem hmem tasks⟩

end Task
end Sunet
