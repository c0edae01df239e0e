/-
# The server with its strategies

Here the parts run together: the main thread with its connections, the queue, and workers
whose strategies all work on one memory.  Between two calls of `_process` a worker can be
interrupted by anything else.

The strategies do not change what `DictMgr` has loaded.  So each worker sees the memory as it was
loaded, whatever the others do, and a client is sent the response that its request has alone.
-/
import Sunet.Io.Ledger
import Sunet.Task.ReqTask

namespace Sunet
namespace Task
namespace Server

open Byte SortedMap Plugin Transition

/-! ## The system -/

/-- A worker in `ReqTask::_run`. -/
structure Work (K : Type) where
  task : Io.ReqTaskData
  request : Http.Request
  /-- The strategies of the URI that are still to be called. -/
  todo : List StrategyTypeMgr
  root : Value K

/-- The state of the server, with the ledger of its tasks. -/
structure State (K : Type) where
  ledger : Io.Ledger.State
  /-- What all workers share. -/
  mem : Memory
  works : List (Work K)

/-- What the parties do. -/
inductive Action
  | client (a : Io.ClientAction)
  | main (a : Io.Epoll.MainAction)
  /-- A worker takes the first task and parses its data. -/
  | getTask
  /-- The worker calls the next strategy. -/
  | strategy (i : ℕ)
  /-- The worker arms its response, which is at an address of the heap. -/
  | respond (i a : ℕ)

/-- The steps that the workers do. -/
def Action.OfWorker : Action → Prop
  | getTask | strategy _ | respond _ _ => True
  | client _ | main _ => False

def init (K : Type) (svrFd : ℕ) (mem : Memory) : State K := ⟨Io.Ledger.init svrFd, mem, []⟩

section step

variable {K : Type} [Field K] (log : K → K) (sort : List (ℤ × K) → List (ℤ × K))
  (beyond : Byte) (toStyledString : Value K → Bytes) (f : Factory) (uris : UriStrategies)

/-- The beginning of `_run`, with the callback in its dictionary. -/
def Work.start (task : Io.ReqTaskData) : Option (Work K) :=
  match Http.parse beyond task.data Http.Request.new with
  | .error _ => none
  | .ok request => some ⟨task, request, (find request.url uris).getD [], .null⟩

/-- The call of the next strategy. -/
def Work.call (mem : Memory) (w : Work K) : Option (Memory × Work K) :=
  match w.todo with
  | [] => none
  | s :: todo => (called log sort f.heap w.request (mem, w.root) s).map fun r =>
    (r.1, { w with todo := todo, root := r.2 })

/-- A step of the system; `none` also where it is not defined what the code does. -/
def step (svrFd : ℕ) (s : State K) : Action → Option (State K)
  | .client a => (Io.Ledger.step svrFd s.ledger (.client a)).map fun l => { s with ledger := l }
  | .main a => (Io.Ledger.step svrFd s.ledger (.main a)).map fun l => { s with ledger := l }
  | .getTask => do
    let task ← s.ledger.sys.queue.head?
    let w ← Work.start beyond uris task
    let l ← Io.Ledger.step svrFd s.ledger (.worker .getTask)
    some { s with ledger := l, works := s.works ++ [w] }
  | .strategy i => do
    let w ← s.works[i]?
    let (mem, w) ← w.call log sort f s.mem
    some { s with mem := mem, works := s.works.set i w }
  | .respond i a => do
    let w ← s.works[i]?
    if w.todo = [] then
      let l ← Io.Ledger.step svrFd s.ledger (.worker (.run i (toStyledString w.root) a))
      some { s with ledger := l, works := s.works.eraseIdx i }
    else none

end step

/-! ## One task among others -/

section field

variable {K : Type} [Field K] [LinearOrder K] (log : K → K) (sort : List (ℤ × K) → List (ℤ × K))
  (beyond : Byte) (toStyledString : Value K → Bytes) (procs : CallBackProcs) (f : Factory)
  (uris : UriStrategies)

/-- What a worker has still to do leads to what the task alone leads to. -/
def Work.Due (mem : Memory) (w : Work K) : Prop :=
  ∀ serial, reqTaskRun log sort beyond toStyledString procs f uris mem w.task serial =
    (w.todo.foldlM (called log sort f.heap w.request) (mem, w.root)).map fun r =>
      (r.1, some (.new w.task (toStyledString r.2) serial))

/-- A task is answered as it is alone. -/
def Answers (mem : Memory) (task : Io.ReqTaskData) (httpBody : Bytes) : Prop :=
  ∀ serial, reqTaskRun log sort beyond toStyledString procs f uris mem task serial =
    some (mem, some (.new task httpBody serial))

/-- What holds in every run. -/
structure Serves (mem : Memory) (s : State K) : Prop where
  mem_eq : s.mem = mem
  works : s.works.map Work.task = s.ledger.sys.running
  due : ∀ w ∈ s.works, w.Due log sort beyond toStyledString procs f uris mem
  answered : ∀ e ∈ s.ledger.answered,
    Answers log sort beyond toStyledString procs f uris mem e.1 e.2

variable {procs}

omit [LinearOrder K] in
lemma Work.due_start (hproc : find reqTask procs ≠ none) (mem : Memory) {task : Io.ReqTaskData}
    {w : Work K} (h : Work.start beyond uris task = some w) :
    w.task = task ∧ w.Due log sort beyond toStyledString procs f uris mem := by
  obtain ⟨proc, hproc⟩ := Option.ne_none_iff_exists'.mp hproc
  rw [Work.start] at h
  split at h
  · cases h
  · next request hparse =>
    obtain rfl := Option.some.inj h
    refine ⟨rfl, fun serial => ?_⟩
    simp only [reqTaskRun, hproc, hparse,
      runUri_called log sort f.heap uris request.url request (mem, .null)]

/-- The call of a strategy leaves the memory alone and leads on. -/
lemma Work.Due.call {mem mem' : Memory} (hmem : mem.Loaded) {w w' : Work K}
    (hdue : w.Due log sort beyond toStyledString procs f uris mem)
    (h : w.call log sort f mem = some (mem', w')) :
    mem' = mem ∧ w'.task = w.task ∧ w'.Due log sort beyond toStyledString procs f uris mem := by
  obtain ⟨task, request, todo, root⟩ := w
  cases todo with
  | nil => cases h
  | cons s todo =>
    obtain ⟨⟨mem₁, root₁⟩, hcall, h⟩ := Option.map_eq_some_iff.mp h
    obtain ⟨rfl, rfl⟩ := Prod.mk.inj h
    obtain rfl := mem_of_called log sort hmem hcall
    refine ⟨rfl, rfl, fun serial => ?_⟩
    rw [hdue serial, List.foldlM_cons, hcall]
    rfl

/-! ## The invariant -/

lemma Serves.next {svrFd : ℕ} (hproc : find reqTask procs ≠ none) {mem : Memory}
    (hmem : mem.Loaded) {s s' : State K} {a : Action}
    (h : Serves log sort beyond toStyledString procs f uris mem s)
    (hstep : step log sort beyond toStyledString f uris svrFd s a = some s') :
    Serves log sort beyond toStyledString procs f uris mem s' := by
  cases a with
  | client a =>
    obtain ⟨l, hl, rfl⟩ := Option.map_eq_some_iff.mp hstep
    obtain ⟨hrunning, hanswered⟩ := Io.Ledger.works_of_step (by simp) hl
    exact ⟨h.mem_eq, h.works.trans hrunning.symm, h.due, hanswered ▸ h.answered⟩
  | main a =>
    obtain ⟨l, hl, rfl⟩ := Option.map_eq_some_iff.mp hstep
    obtain ⟨hrunning, hanswered⟩ := Io.Ledger.works_of_step (by simp) hl
    exact ⟨h.mem_eq, h.works.trans hrunning.symm, h.due, hanswered ▸ h.answered⟩
  | getTask =>
    simp only [step, Option.bind_eq_bind, Option.bind_eq_some_iff, Option.some.injEq] at hstep
    obtain ⟨task, hhead, w, hstart, l, hl, rfl⟩ := hstep
    obtain ⟨queue, hqueue⟩ := List.head?_eq_some_iff.mp hhead
    rw [Io.Ledger.step_getTask svrFd hqueue, Option.some.injEq] at hl
    subst hl
    obtain ⟨rfl, hdue⟩ :=
      Work.due_start log sort beyond toStyledString f uris hproc mem hstart
    refine ⟨h.mem_eq, ?_, ?_, h.answered⟩
    · show (s.works ++ [w]).map Work.task = s.ledger.sys.running ++ [w.task]
      rw [List.map_append, h.works]
      rfl
    · intro w' hw'
      rcases List.mem_append.mp hw' with hw' | hw'
      · exact h.due w' hw'
      · exact List.mem_singleton.mp hw' ▸ hdue
  | strategy i =>
    simp only [step, Option.bind_eq_bind, Option.bind_eq_some_iff, Option.some.injEq] at hstep
    obtain ⟨w, hget, ⟨mem', w'⟩, hcall, rfl⟩ := hstep
    rw [h.mem_eq] at hcall
    obtain ⟨rfl, htask, hdue⟩ := Work.Due.call log sort beyond toStyledString f uris hmem
      (h.due w (List.mem_of_getElem? hget)) hcall
    refine ⟨rfl, ?_, ?_, h.answered⟩
    · show (s.works.set i w').map Work.task = _
      obtain ⟨hi, rfl⟩ := List.getElem?_eq_some_iff.mp hget
      rw [List.map_set, htask, ← List.map_set, List.set_getElem_self]
      exact h.works
    · intro w₁ hw₁
      rcases List.mem_or_eq_of_mem_set hw₁ with hw₁ | rfl
      · exact h.due w₁ hw₁
      · exact hdue
  | respond i a =>
    simp only [step, Option.bind_eq_bind, Option.bind_eq_some_iff] at hstep
    obtain ⟨w, hget, hstep⟩ := hstep
    split at hstep
    · next htodo =>
      simp only [Option.bind_eq_some_iff, Option.some.injEq] at hstep
      obtain ⟨l, hl, rfl⟩ := hstep
      obtain ⟨task, htask, hfree⟩ := Io.Ledger.of_step_run hl
      obtain ⟨l', hl', -, hrunning, -, hanswered⟩ :=
        Io.Ledger.step_run svrFd (toStyledString w.root) htask hfree
      obtain rfl := Option.some.inj (hl.symm.trans hl')
      have hw := h.due w (List.mem_of_getElem? hget)
      have htask' : w.task = task := by
        rw [← h.works, List.getElem?_map, hget] at htask
        exact Option.some.inj htask
      refine ⟨h.mem_eq, ?_, fun w' hw' => h.due w' (List.mem_of_mem_eraseIdx hw'), ?_⟩
      · show (s.works.eraseIdx i).map Work.task = l.sys.running
        rw [hrunning, ← h.works, List.eraseIdx_map]
      · intro e he
        rw [hanswered] at he
        rcases List.mem_append.mp he with he | he
        · exact h.answered e he
        · rw [List.mem_singleton.mp he]
          intro serial
          rw [← htask', hw serial, htodo]
          rfl
    · cases hstep

variable {log sort beyond toStyledString f uris}

end field

/-! ## A run -/

/-- A character of three bytes. -/
def zhong : Bytes := [0xe4, 0xb8, 0xad]

section field

variable {K : Type} [Field K] [LinearOrder K] {log : K → K} {sort : List (ℤ × K) → List (ℤ × K)}
  {beyond : Byte} {toStyledString : Value K → Bytes} {procs : CallBackProcs} {f : Factory}
  {uris : UriStrategies}

/-- The workers can go from one state to another. -/
def Leads (log : K → K) (sort : List (ℤ × K) → List (ℤ × K)) (beyond : Byte)
    (toStyledString : Value K → Bytes) (f : Factory) (uris : UriStrategies) (svrFd : ℕ)
    (s s' : State K) : Prop :=
  ∃ as : List Action, (∀ a ∈ as, a.OfWorker) ∧
    run (step log sort beyond toStyledString f uris svrFd) s as = some s'

omit [LinearOrder K] in
lemma Leads.refl (svrFd : ℕ) (s : State K) :
    Leads log sort beyond toStyledString f uris svrFd s s := ⟨[], List.forall_mem_nil _, rfl⟩

omit [LinearOrder K] in
lemma Leads.head {svrFd : ℕ} {s s₁ s' : State K} {a : Action} (ha : a.OfWorker)
    (hstep : step log sort beyond toStyledString f uris svrFd s a = some s₁)
    (h : Leads log sort beyond toStyledString f uris svrFd s₁ s') :
    Leads log sort beyond toStyledString f uris svrFd s s' := by
  obtain ⟨as, has, hrun⟩ := h
  refine ⟨a :: as, ?_, (run_cons hstep).trans hrun⟩
  intro b hb
  rcases List.mem_cons.mp hb with rfl | hb
  · exact ha
  · exact has b hb

omit [LinearOrder K] in
lemma Leads.trans {svrFd : ℕ} {s s₁ s' : State K}
    (h : Leads log sort beyond toStyledString f uris svrFd s s₁)
    (h' : Leads log sort beyond toStyledString f uris svrFd s₁ s') :
    Leads log sort beyond toStyledString f uris svrFd s s' := by
  obtain ⟨as, has, hrun⟩ := h
  obtain ⟨bs, hbs, hrun'⟩ := h'
  refine ⟨as ++ bs, ?_, (run_append hrun).trans hrun'⟩
  intro b hb
  rcases List.mem_append.mp hb with hb | hb
  · exact has b hb
  · exact hbs b hb

section finish

variable {svrFd : ℕ} (hproc : find reqTask procs ≠ none) {mem : Memory} (hmem : mem.Loaded)

include hproc hmem

end finish

end field

end Server
end Task
end Sunet
