/-
# The task queue

Threads that call `SubTaskMgr::_add_task` and worker threads that loop over `_get_task` share
a queue, a mutex and a condition variable.  The model gives every access to one of the three
its own step and orders the steps of different threads in no way.  `pthread_cond_signal`
wakes at least one of the threads that wait, and a thread may wake without a signal.

Tasks are the pointers that are not `NULL`; a pointer is an `Option`.
-/
import Sunet.Lib.Transition
import Sunet.Lib.Mutex
import Mathlib.Data.Fintype.Basic

namespace Sunet
namespace Task

open Transition

variable {ι κ τ : Type}

/-- Where a thread is in `_add_task`. -/
inductive AdderPc (τ : Type)
  /-- Not in the call. -/
  | idle
  /-- Before `pthread_mutex_lock`. -/
  | locking (task : τ)
  /-- Before `push`. -/
  | pushing (task : τ)
  /-- Before `pthread_mutex_unlock`. -/
  | unlocking
  /-- Before `pthread_cond_signal`. -/
  | signalling

/-- Where a worker is in `_thread_proc_handler` and `_get_task`. -/
inductive WorkerPc (τ : Type)
  /-- Before the test of `_stoped`. -/
  | looping
  /-- Before `pthread_mutex_lock`. -/
  | locking
  /-- Before the test of the loop in `_get_task`. -/
  | testing
  /-- Before `pthread_cond_wait`. -/
  | waiting
  /-- In `pthread_cond_wait`, the mutex released. -/
  | asleep
  /-- In `pthread_cond_wait`, before it has the mutex again. -/
  | woken
  /-- Behind the loop, before `front` and `pop`. -/
  | popping
  /-- Before `pthread_mutex_unlock`. -/
  | unlocking (ret : Option τ)
  /-- `_get_task` has returned; the task is run and deleted, if there is one. -/
  | running (ret : Option τ)
  /-- Behind the loop of the worker. -/
  | exited

/-- The adder has pushed a task and not signalled. -/
def AdderPc.pending : AdderPc τ → Prop
  | unlocking => True
  | signalling => True
  | _ => False

/-- The adder has the mutex. -/
def AdderPc.holds : AdderPc τ → Prop
  | pushing _ => True
  | unlocking => True
  | _ => False

/-- The worker has the mutex. -/
def WorkerPc.holds : WorkerPc τ → Prop
  | testing => True
  | waiting => True
  | popping => True
  | unlocking _ => True
  | _ => False

/-- The state that the threads share, and where they are. -/
structure State (ι κ τ : Type) where
  adder : ι → AdderPc τ
  worker : κ → WorkerPc τ
  /-- `_stoped` of the handlers. -/
  stoped : κ → Bool
  /-- The thread that has `_add_mutex`. -/
  owner : Option (ι ⊕ κ)
  /-- `_task_queue`. -/
  queue : List τ
  /-- All tasks that were pushed. -/
  pushed : List τ
  /-- What `_get_task` has taken out of the queue to return it. -/
  popped : List (Option τ)

/-- No thread has started. -/
def init : State ι κ τ where
  adder := fun _ => .idle
  worker := fun _ => .looping
  stoped := fun _ => false
  owner := none
  queue := []
  pushed := []
  popped := []

/-- The actions of the threads. -/
inductive Action (ι κ τ : Type)
  /-- A thread calls `_add_task`. -/
  | call (i : ι) (task : Option τ)
  /-- A thread takes its next step in `_add_task`, up to the signal. -/
  | adder (i : ι)
  /-- A thread signals, and wakes these workers. -/
  | signal (i : ι) (woken : List κ)
  /-- A worker takes its next step. -/
  | worker (w : κ)
  /-- A worker wakes without a signal. -/
  | spurious (w : κ)
  /-- A handler is told to stop. -/
  | stop (w : κ)

section step

variable [DecidableEq ι] [DecidableEq κ]

/-- A worker is in `pthread_cond_wait`. -/
def WorkerPc.isAsleep : WorkerPc τ → Bool
  | asleep => true
  | _ => false

/-- The next step of a thread in `_add_task`. -/
def adderStep (s : State ι κ τ) (i : ι) : Option (State ι κ τ) :=
  match s.adder i with
  | .locking task =>
    match s.owner with
    | none => some { s with
        owner := some (.inl i), adder := Function.update s.adder i (.pushing task) }
    | some _ => none
  | .pushing task => some { s with
      queue := s.queue ++ [task]
      pushed := s.pushed ++ [task]
      adder := Function.update s.adder i .unlocking }
  | .unlocking => some { s with
      owner := none, adder := Function.update s.adder i .signalling }
  | .idle => none
  | .signalling => none

/-- The next step of a worker. -/
def workerStep (s : State ι κ τ) (w : κ) : Option (State ι κ τ) :=
  match s.worker w with
  | .looping =>
    if s.stoped w then some { s with worker := Function.update s.worker w .exited }
    else some { s with worker := Function.update s.worker w .locking }
  | .locking =>
    match s.owner with
    | none => some { s with
        owner := some (.inr w), worker := Function.update s.worker w .testing }
    | some _ => none
  | .testing =>
    match s.queue with
    | [] => some { s with worker := Function.update s.worker w .waiting }
    | _ :: _ => some { s with worker := Function.update s.worker w .popping }
  | .waiting => some { s with
      owner := none, worker := Function.update s.worker w .asleep }
  | .asleep => none
  | .woken =>
    match s.owner with
    | none => some { s with
        owner := some (.inr w), worker := Function.update s.worker w .testing }
    | some _ => none
  -- the test of the source for an empty queue, a second time
  | .popping => some { s with
      queue := s.queue.tail
      popped := s.popped ++ [s.queue.head?]
      worker := Function.update s.worker w (.unlocking s.queue.head?) }
  | .unlocking ret => some { s with
      owner := none, worker := Function.update s.worker w (.running ret) }
  | .running _ => some { s with worker := Function.update s.worker w .looping }
  | .exited => none

/-- A signal may wake these workers: they are asleep, and if any worker is asleep, one of
them is woken. -/
def canWake (s : State ι κ τ) (woken : List κ) : Prop :=
  (∀ w ∈ woken, (s.worker w).isAsleep = true) ∧
    (woken = [] → ∀ w, (s.worker w).isAsleep = false)

instance [Fintype κ] (s : State ι κ τ) (woken : List κ) : Decidable (canWake s woken) :=
  inferInstanceAs (Decidable ((∀ w ∈ woken, (s.worker w).isAsleep = true) ∧
    (woken = [] → ∀ w, (s.worker w).isAsleep = false)))

/-- The workers after a signal. -/
def wake (worker : κ → WorkerPc τ) (woken : List κ) : κ → WorkerPc τ :=
  fun w => if w ∈ woken then .woken else worker w

/-- A step of the system. -/
def step [Fintype κ] (s : State ι κ τ) : Action ι κ τ → Option (State ι κ τ)
  | .call i task =>
    match s.adder i, task with
    | .idle, some task => some { s with adder := Function.update s.adder i (.locking task) }
    | .idle, none => some s
    | _, _ => none
  | .adder i => adderStep s i
  | .signal i woken =>
    match s.adder i with
    | .signalling =>
      if canWake s woken then
        some { s with
          adder := Function.update s.adder i .idle, worker := wake s.worker woken }
      else none
    | _ => none
  | .worker w => workerStep s w
  | .spurious w =>
    match s.worker w with
    | .asleep => some { s with worker := Function.update s.worker w .woken }
    | _ => none
  | .stop w => some { s with stoped := Function.update s.stoped w true }

/-! ## Inversion -/

/-- The steps of the system, one constructor for each way in which a step can go. -/
inductive Next (s : State ι κ τ) : State ι κ τ → Prop
  | call {i : ι} {task : τ} (hpc : s.adder i = .idle) :
      Next s { s with adder := Function.update s.adder i (.locking task) }
  | callNull : Next s s
  | adderLock {i : ι} {task : τ} (hpc : s.adder i = .locking task) (hfree : s.owner = none) :
      Next s { s with
        owner := some (.inl i), adder := Function.update s.adder i (.pushing task) }
  | push {i : ι} {task : τ} (hpc : s.adder i = .pushing task) :
      Next s { s with
        queue := s.queue ++ [task]
        pushed := s.pushed ++ [task]
        adder := Function.update s.adder i .unlocking }
  | adderUnlock {i : ι} (hpc : s.adder i = .unlocking) :
      Next s { s with owner := none, adder := Function.update s.adder i .signalling }
  | signal {i : ι} {woken : List κ} (hpc : s.adder i = .signalling) (hwake : canWake s woken) :
      Next s { s with
        adder := Function.update s.adder i .idle, worker := wake s.worker woken }
  /-- A step of a worker that the others do not see. -/
  | alone {w : κ} {pc : WorkerPc τ} (hold : ¬ (s.worker w).holds)
      (hawake : s.worker w ≠ .asleep)
      (hpc : pc = .exited ∨ pc = .locking ∨ pc = .looping) :
      Next s { s with worker := Function.update s.worker w pc }
  | lock {w : κ} (hpc : s.worker w = .locking ∨ s.worker w = .woken) (hfree : s.owner = none) :
      Next s { s with
        owner := some (.inr w), worker := Function.update s.worker w .testing }
  | testEmpty {w : κ} (hpc : s.worker w = .testing) (hqueue : s.queue = []) :
      Next s { s with worker := Function.update s.worker w .waiting }
  | testNonempty {w : κ} (hpc : s.worker w = .testing) (hqueue : s.queue ≠ []) :
      Next s { s with worker := Function.update s.worker w .popping }
  | sleep {w : κ} (hpc : s.worker w = .waiting) :
      Next s { s with owner := none, worker := Function.update s.worker w .asleep }
  | pop {w : κ} (hpc : s.worker w = .popping) :
      Next s { s with
        queue := s.queue.tail
        popped := s.popped ++ [s.queue.head?]
        worker := Function.update s.worker w (.unlocking s.queue.head?) }
  | unlock {w : κ} {ret : Option τ} (hpc : s.worker w = .unlocking ret) :
      Next s { s with owner := none, worker := Function.update s.worker w (.running ret) }
  | spurious {w : κ} (hpc : s.worker w = .asleep) :
      Next s { s with worker := Function.update s.worker w .woken }
  | stop {w : κ} : Next s { s with stoped := Function.update s.stoped w true }

lemma next_of_workerStep {s s' : State ι κ τ} {w : κ}
    (h : workerStep s w = some s') : Next s s' := by
  rw [workerStep] at h
  split at h
  · next hpc =>
    split at h <;> cases h
    · exact .alone (by rw [hpc]; exact id) (by rw [hpc]; simp) (Or.inl rfl)
    · exact .alone (by rw [hpc]; exact id) (by rw [hpc]; simp) (Or.inr (Or.inl rfl))
  · next hpc =>
    split at h
    · next hfree =>
      cases h
      exact .lock (Or.inl hpc) hfree
    · cases h
  · next hpc =>
    split at h
    · next hqueue =>
      cases h
      exact .testEmpty hpc hqueue
    · next hqueue =>
      cases h
      exact .testNonempty hpc (by rw [hqueue]; simp)
  · next hpc =>
    cases h
    exact .sleep hpc
  · cases h
  · next hpc =>
    split at h
    · next hfree =>
      cases h
      exact .lock (Or.inr hpc) hfree
    · cases h
  · next hpc =>
    cases h
    exact .pop hpc
  · next ret hpc =>
    cases h
    exact .unlock hpc
  · next ret hpc =>
    cases h
    exact .alone (by rw [hpc]; exact id) (by rw [hpc]; simp) (Or.inr (Or.inr rfl))
  · cases h

lemma step_call [Fintype κ] {s s' : State ι κ τ} {i : ι} {task : Option τ}
    (h : step s (.call i task) = some s') : s' = s ∨
      ∃ task, s.adder i = .idle ∧
        s' = { s with adder := Function.update s.adder i (.locking task) } := by
  simp only [step] at h
  split at h
  · next task hpc =>
    cases h
    exact Or.inr ⟨task, hpc, rfl⟩
  · cases h
    exact Or.inl rfl
  · cases h

lemma step_signal [Fintype κ] {s s' : State ι κ τ} {i : ι} {woken : List κ}
    (h : step s (.signal i woken) = some s') : s.adder i = .signalling ∧ canWake s woken ∧
      s' = { s with
        adder := Function.update s.adder i .idle, worker := wake s.worker woken } := by
  simp only [step] at h
  split at h
  · next hpc =>
    split at h
    · next hwake =>
      cases h
      exact ⟨hpc, hwake, rfl⟩
    · cases h
  · cases h

lemma step_spurious [Fintype κ] {s s' : State ι κ τ} {w : κ} (h : step s (.spurious w) = some s') :
    s.worker w = .asleep ∧ s' = { s with worker := Function.update s.worker w .woken } := by
  simp only [step] at h
  split at h
  · next hpc =>
    cases h
    exact ⟨hpc, rfl⟩
  · cases h

/-- **Inversion of a step.** -/
theorem next_of_step [Fintype κ] {s s' : State ι κ τ} {a : Action ι κ τ}
    (h : step s a = some s') : Next s s' := by
  cases a with
  | call i task =>
    rcases step_call h with rfl | ⟨task, hpc, rfl⟩
    · exact .callNull
    · exact .call hpc
  | adder i =>
    simp only [step, adderStep] at h
    split at h
    · next task hpc =>
      split at h
      · next hfree =>
        cases h
        exact .adderLock hpc hfree
      · cases h
    · next task hpc =>
      cases h
      exact .push hpc
    · next hpc =>
      cases h
      exact .adderUnlock hpc
    · cases h
    · cases h
  | signal i woken =>
    obtain ⟨hpc, hwake, rfl⟩ := step_signal h
    exact .signal hpc hwake
  | worker w => exact next_of_workerStep h
  | spurious w =>
    obtain ⟨hpc, rfl⟩ := step_spurious h
    exact .spurious hpc
  | stop w =>
    cases h
    exact .stop

/-! ## The mutex -/

/-- A thread has the mutex. -/
def holds (adder : ι → AdderPc τ) (worker : κ → WorkerPc τ) : ι ⊕ κ → Prop
  | .inl i => (adder i).holds
  | .inr w => (worker w).holds

omit [DecidableEq κ] in
lemma holds_adder {adder : ι → AdderPc τ} (worker : κ → WorkerPc τ) {i : ι} (pc : AdderPc τ)
    {t : ι ⊕ κ} (ht : t ≠ .inl i) :
    holds (Function.update adder i pc) worker t ↔ holds adder worker t := by
  cases t with
  | inl j =>
    have hj : j ≠ i := fun h => ht (by rw [h])
    rw [holds, holds, Function.update_of_ne hj]
  | inr w => exact Iff.rfl

omit [DecidableEq ι] in
lemma holds_worker (adder : ι → AdderPc τ) {worker : κ → WorkerPc τ} {w : κ} (pc : WorkerPc τ)
    {t : ι ⊕ κ} (ht : t ≠ .inr w) :
    holds adder (Function.update worker w pc) t ↔ holds adder worker t := by
  cases t with
  | inl i => exact Iff.rfl
  | inr v =>
    have hv : v ≠ w := fun h => ht (by rw [h])
    rw [holds, holds, Function.update_of_ne hv]

omit [DecidableEq κ] in
lemma holds_adder_self {adder : ι → AdderPc τ} {worker : κ → WorkerPc τ} {i : ι}
    {pc : AdderPc τ} : holds (Function.update adder i pc) worker (.inl i) ↔ pc.holds := by
  rw [holds, Function.update_self]

omit [DecidableEq ι] in
lemma holds_worker_self {adder : ι → AdderPc τ} {worker : κ → WorkerPc τ} {w : κ}
    {pc : WorkerPc τ} : holds adder (Function.update worker w pc) (.inr w) ↔ pc.holds := by
  rw [holds, Function.update_self]

/-- A step of an adder that keeps or does not have the mutex. -/
lemma holds_adder_iff {adder : ι → AdderPc τ} (worker : κ → WorkerPc τ) {i : ι}
    {pc : AdderPc τ} (hpc : pc.holds ↔ (adder i).holds) (t : ι ⊕ κ) :
    holds (Function.update adder i pc) worker t ↔ holds adder worker t := by
  by_cases ht : t = .inl i
  · subst ht
    rw [holds, holds, Function.update_self]
    exact hpc
  · exact holds_adder worker pc ht

/-- A step of a worker that keeps or does not have the mutex. -/
lemma holds_worker_iff (adder : ι → AdderPc τ) {worker : κ → WorkerPc τ} {w : κ}
    {pc : WorkerPc τ} (hpc : pc.holds ↔ (worker w).holds) (t : ι ⊕ κ) :
    holds adder (Function.update worker w pc) t ↔ holds adder worker t := by
  by_cases ht : t = .inr w
  · subst ht
    rw [holds, holds, Function.update_self]
    exact hpc
  · exact holds_worker adder pc ht

/-- The owner of the mutex, and what a worker knows about the queue while it has it. -/
structure Locked (s : State ι κ τ) : Prop where
  mutex : IsMutex s.owner (holds s.adder s.worker)
  waiting : ∀ {w}, s.worker w = .waiting → s.queue = []
  popping : ∀ {w}, s.worker w = .popping → s.queue ≠ []

lemma of_update {θ π : Type} [DecidableEq θ] {f : θ → π} {t t' : θ} {x y : π}
    (h : Function.update f t x t' = y) : (t' = t ∧ x = y) ∨ (t' ≠ t ∧ f t' = y) := by
  by_cases ht : t' = t
  · subst ht
    rw [Function.update_self] at h
    exact Or.inl ⟨rfl, h⟩
  · rw [Function.update_of_ne ht] at h
    exact Or.inr ⟨ht, h⟩

omit [DecidableEq ι] [DecidableEq κ] in
/-- No two workers have the mutex. -/
lemma Locked.eq_worker {s : State ι κ τ} (h : Locked s) {w w' : κ} (hw : (s.worker w).holds)
    (hw' : (s.worker w').holds) : w = w' := by
  have heq : (Sum.inr w : ι ⊕ κ) = .inr w' := h.mutex.eq_of_holds hw hw'
  exact Sum.inr.inj heq

omit [DecidableEq ι] in
/-- A step of a worker that leaves the queue alone. -/
lemma Locked.of_worker {s : State ι κ τ} (h : Locked s) {w : κ} {pc : WorkerPc τ}
    (owner : Option (ι ⊕ κ))
    (hmutex : IsMutex owner (holds s.adder (Function.update s.worker w pc)))
    (hwaiting : pc = .waiting → s.queue = []) (hpopping : pc = .popping → s.queue ≠ []) :
    Locked { s with owner := owner, worker := Function.update s.worker w pc } where
  mutex := hmutex
  waiting := by
    intro w' hw'
    rcases of_update hw' with ⟨-, heq⟩ | ⟨-, hw'⟩
    · exact hwaiting heq
    · exact h.waiting hw'
  popping := by
    intro w' hw'
    rcases of_update hw' with ⟨-, heq⟩ | ⟨-, hw'⟩
    · exact hpopping heq
    · exact h.popping hw'

lemma wake_eq {worker : κ → WorkerPc τ} {woken : List κ} {w : κ} {pc : WorkerPc τ}
    (h : wake worker woken w = pc) (hpc : pc ≠ .woken) : worker w = pc := by
  rw [wake] at h
  split at h
  · exact absurd h.symm hpc
  · exact h

omit [DecidableEq ι] in
/-- The workers that a signal wakes did not have the mutex, and do not have it yet. -/
lemma holds_wake {s : State ι κ τ} {woken : List κ} (hwake : canWake s woken) (w : κ) :
    (wake s.worker woken w).holds ↔ (s.worker w).holds := by
  rw [wake]
  split
  · next hw =>
    have hasleep := hwake.1 w hw
    cases hpc : s.worker w <;> rw [hpc] at hasleep <;> first | exact Iff.rfl | cases hasleep
  · exact Iff.rfl

lemma Locked.next {s s' : State ι κ τ} (h : Locked s) (hstep : Next s s') : Locked s' := by
  cases hstep with
  | call hpc =>
    refine ⟨h.mutex.keep (holds_adder_iff _ ?_), h.waiting, h.popping⟩
    rw [hpc]
    exact Iff.rfl
  | callNull => exact h
  | @adderLock i task hpc hfree =>
    refine ⟨h.mutex.lock hfree (.inl i) ?_ fun t ht => holds_adder _ _ ht, h.waiting,
      h.popping⟩
    exact holds_adder_self.mpr trivial
  | @push i task hpc =>
    have hown : holds s.adder s.worker (.inl i) := by
      rw [holds, hpc]
      trivial
    refine ⟨h.mutex.keep (holds_adder_iff _ ?_), ?_, ?_⟩
    · rw [hpc]
      exact Iff.rfl
    · intro w hw
      -- a worker that waits has the mutex, and so has the adder
      have hown' : holds s.adder s.worker (.inr w) := by
        rw [holds, show s.worker w = .waiting from hw]
        trivial
      cases h.mutex.eq_of_holds hown hown'
    · simp
  | @adderUnlock i hpc =>
    refine ⟨h.mutex.unlock (.inl i) ?_ ?_ fun t ht => holds_adder _ _ ht, h.waiting,
      h.popping⟩
    · rw [holds, hpc]
      trivial
    · exact fun hself => holds_adder_self.mp hself
  | @signal i woken hpc hwake =>
    refine ⟨h.mutex.keep fun t => ?_, fun hw => h.waiting (wake_eq hw (by simp)),
      fun hw => h.popping (wake_eq hw (by simp))⟩
    refine (holds_adder_iff _ ?_ t).trans ?_
    · rw [hpc]
      exact Iff.rfl
    · cases t with
      | inl j => exact Iff.rfl
      | inr w => exact holds_wake hwake w
  | @alone w pc hold hawake hpc =>
    have hnone : ¬ pc.holds := by
      rcases hpc with rfl | rfl | rfl <;> exact id
    refine h.of_worker s.owner (h.mutex.keep (holds_worker_iff _ ?_)) ?_ ?_
    · exact ⟨fun hpc => absurd hpc hnone, fun hpc => absurd hpc hold⟩
    · rcases hpc with rfl | rfl | rfl <;> simp
    · rcases hpc with rfl | rfl | rfl <;> simp
  | @lock w hpc hfree =>
    refine h.of_worker _ ?_ (by simp) (by simp)
    refine h.mutex.lock hfree (.inr w) ?_ fun t ht => holds_worker _ _ ht
    exact holds_worker_self.mpr trivial
  | testEmpty hpc hqueue =>
    refine h.of_worker s.owner (h.mutex.keep (holds_worker_iff _ ?_))
      (fun _ => hqueue) (by simp)
    rw [hpc]
    exact Iff.rfl
  | testNonempty hpc hqueue =>
    refine h.of_worker s.owner (h.mutex.keep (holds_worker_iff _ ?_))
      (by simp) (fun _ => hqueue)
    rw [hpc]
    exact Iff.rfl
  | @sleep w hpc =>
    refine h.of_worker _ ?_ (by simp) (by simp)
    refine h.mutex.unlock (.inr w) ?_ ?_ fun t ht => holds_worker _ _ ht
    · rw [holds, hpc]
      trivial
    · exact fun hself => holds_worker_self.mp hself
  | @pop w hpc =>
    -- no other worker is between its test and its use of the queue
    have hother : ∀ {w'}, w' ≠ w → ¬ (s.worker w').holds := by
      intro w' hne hw'
      refine hne (h.eq_worker hw' ?_)
      rw [hpc]
      trivial
    refine ⟨h.mutex.keep (holds_worker_iff _ ?_), ?_, ?_⟩
    · rw [hpc]
      exact Iff.rfl
    · intro w' hw'
      rcases of_update hw' with ⟨-, heq⟩ | ⟨hne, hw'⟩
      · cases heq
      · exact absurd (by rw [hw']; trivial) (hother hne)
    · intro w' hw'
      rcases of_update hw' with ⟨-, heq⟩ | ⟨hne, hw'⟩
      · cases heq
      · exact absurd (by rw [hw']; trivial) (hother hne)
  | @unlock w ret hpc =>
    refine h.of_worker _ ?_ (by simp) (by simp)
    refine h.mutex.unlock (.inr w) ?_ ?_ fun t ht => holds_worker _ _ ht
    · rw [holds, hpc]
      trivial
    · exact fun hself => holds_worker_self.mp hself
  | spurious hpc =>
    refine h.of_worker s.owner (h.mutex.keep (holds_worker_iff _ ?_))
      (by simp) (by simp)
    rw [hpc]
    exact Iff.rfl
  | stop => exact ⟨h.mutex, h.waiting, h.popping⟩

/-! ## Delivery -/

/-- The queue is what was pushed and not taken out, and no worker is given `NULL`. -/
structure InOrder (s : State ι κ τ) : Prop where
  order : s.popped ++ s.queue.map some = s.pushed.map some
  ret : ∀ {w ret}, s.worker w = .unlocking ret ∨ s.worker w = .running ret → ret ≠ none

omit [DecidableEq ι] in
/-- A step that leaves the queue alone. -/
lemma InOrder.of_worker {s : State ι κ τ} (h : InOrder s) {w : κ} {pc : WorkerPc τ}
    (hpc : ∀ ret, pc = .unlocking ret ∨ pc = .running ret → ret ≠ none)
    (owner : Option (ι ⊕ κ)) :
    InOrder { s with owner := owner, worker := Function.update s.worker w pc } where
  order := h.order
  ret := by
    rintro w' ret (hw' | hw') <;> rcases of_update hw' with ⟨-, heq⟩ | ⟨-, hw'⟩
    · exact hpc ret (Or.inl heq)
    · exact h.ret (Or.inl hw')
    · exact hpc ret (Or.inr heq)
    · exact h.ret (Or.inr hw')

lemma InOrder.next {s s' : State ι κ τ} (h : InOrder s) (hlocked : Locked s)
    (hstep : Next s s') : InOrder s' := by
  cases hstep with
  | call hpc => exact ⟨h.order, h.ret⟩
  | callNull => exact h
  | adderLock hpc hfree => exact ⟨h.order, h.ret⟩
  | push hpc =>
    refine ⟨?_, h.ret⟩
    show s.popped ++ (s.queue ++ [_]).map some = (s.pushed ++ [_]).map some
    rw [List.map_append, List.map_append, ← List.append_assoc, h.order]
  | adderUnlock hpc => exact ⟨h.order, h.ret⟩
  | signal hpc hwake =>
    refine ⟨h.order, ?_⟩
    rintro w ret (hw | hw)
    · exact h.ret (Or.inl (wake_eq hw (by simp)))
    · exact h.ret (Or.inr (wake_eq hw (by simp)))
  | alone hold hawake hpc =>
    refine h.of_worker ?_ s.owner
    rcases hpc with rfl | rfl | rfl <;> simp
  | lock hpc hfree => exact h.of_worker (by simp) _
  | testEmpty hpc hqueue => exact h.of_worker (by simp) s.owner
  | testNonempty hpc hqueue => exact h.of_worker (by simp) s.owner
  | sleep hpc => exact h.of_worker (by simp) _
  | pop hpc =>
    -- the second test of the source finds the queue as the first one did
    obtain ⟨task, queue, hqueue⟩ := List.exists_cons_of_ne_nil (hlocked.popping hpc)
    have horder := h.order
    rw [hqueue] at horder
    refine ⟨?_, ?_⟩
    · show (s.popped ++ [s.queue.head?]) ++ s.queue.tail.map some = s.pushed.map some
      rw [hqueue, ← horder]
      simp
    · rintro w' ret (hw' | hw') <;> rcases of_update hw' with ⟨-, heq⟩ | ⟨-, hw'⟩
      · rw [hqueue] at heq
        cases heq
        simp
      · exact h.ret (Or.inl hw')
      · cases heq
      · exact h.ret (Or.inr hw')
  | unlock hpc =>
    refine h.of_worker ?_ _
    rintro ret (heq | heq)
    · cases heq
    · cases heq
      exact h.ret (Or.inl hpc)
  | spurious hpc => exact h.of_worker (by simp) s.owner
  | stop => exact ⟨h.order, h.ret⟩

/-! ## What is returned -/

/-- The value that `_get_task` has taken out of the queue and is about to return, or has
returned for the task that is run. -/
def WorkerPc.taken : WorkerPc τ → Option (Option τ)
  | unlocking ret => some ret
  | running ret => some ret
  | _ => none

/-- Each value that a worker has got was popped, and each by a pop of its own. -/
def Handed (s : State ι κ τ) : Prop :=
  ∃ place : κ → ℕ, (∀ w ret, (s.worker w).taken = some ret → s.popped[place w]? = some ret) ∧
    ∀ w w', (s.worker w).taken ≠ none → (s.worker w').taken ≠ none → place w = place w' → w = w'

omit [DecidableEq ι] [DecidableEq κ] in
/-- A step that pops nothing. -/
lemma Handed.keep {s s' : State ι κ τ} (h : Handed s) (hpopped : s'.popped = s.popped)
    (htaken : ∀ w, (s'.worker w).taken = none ∨ (s'.worker w).taken = (s.worker w).taken) :
    Handed s' := by
  obtain ⟨place, hplace, hinj⟩ := h
  have hne : ∀ w, (s'.worker w).taken ≠ none → (s.worker w).taken ≠ none := by
    intro w hw
    rwa [← (htaken w).resolve_left hw]
  refine ⟨place, fun w ret hw => ?_, fun w w' hw hw' => hinj w w' (hne w hw) (hne w' hw')⟩
  rw [hpopped]
  refine hplace w ret ?_
  rwa [← (htaken w).resolve_left (by simp [hw])]

omit [DecidableEq ι] in
/-- A step of a worker that pops nothing. -/
lemma Handed.of_worker {s : State ι κ τ} (h : Handed s) {w : κ} {pc : WorkerPc τ}
    (hpc : pc.taken = none ∨ pc.taken = (s.worker w).taken) (owner : Option (ι ⊕ κ)) :
    Handed { s with owner := owner, worker := Function.update s.worker w pc } := by
  refine h.keep rfl fun w' => ?_
  show (Function.update s.worker w pc w').taken = none ∨
    (Function.update s.worker w pc w').taken = (s.worker w').taken
  by_cases hw : w' = w
  · subst hw
    rwa [Function.update_self]
  · rw [Function.update_of_ne hw]
    exact Or.inr rfl

omit [DecidableEq ι] in
/-- A pop hands the worker the value that it appends. -/
lemma Handed.pop {s : State ι κ τ} (h : Handed s) (w : κ) (queue : List τ) (ret : Option τ) :
    Handed { s with
      queue := queue
      popped := s.popped ++ [ret]
      worker := Function.update s.worker w (.unlocking ret) } := by
  obtain ⟨place, hplace, hinj⟩ := h
  -- the places that were taken before are in front of the new one
  have hlt : ∀ w', (s.worker w').taken ≠ none → place w' < s.popped.length := by
    intro w' hw'
    obtain ⟨ret', hret⟩ := Option.ne_none_iff_exists'.mp hw'
    exact (List.getElem?_eq_some_iff.mp (hplace w' ret' hret)).1
  refine ⟨Function.update place w s.popped.length, ?_, ?_⟩
  · intro w' ret' hw'
    replace hw' : (Function.update s.worker w (.unlocking ret) w').taken = some ret' := hw'
    by_cases hw : w' = w
    · subst hw
      rw [Function.update_self] at hw' ⊢
      cases hw'
      exact List.getElem?_concat_length
    · rw [Function.update_of_ne hw] at hw' ⊢
      rw [List.getElem?_append_left (hlt w' (by simp [hw']))]
      exact hplace w' ret' hw'
  · intro w₁ w₂ h₁ h₂
    replace h₁ : (Function.update s.worker w (.unlocking ret) w₁).taken ≠ none := h₁
    replace h₂ : (Function.update s.worker w (.unlocking ret) w₂).taken ≠ none := h₂
    by_cases hw₁ : w₁ = w <;> by_cases hw₂ : w₂ = w
    · exact fun _ => hw₁.trans hw₂.symm
    · rw [Function.update_of_ne hw₂] at h₂
      have hne := (hlt w₂ h₂).ne'
      simp [hw₁, hw₂, hne]
    · rw [Function.update_of_ne hw₁] at h₁
      have hne := (hlt w₁ h₁).ne
      simp [hw₁, hw₂, hne]
    · rw [Function.update_of_ne hw₁] at h₁ ⊢
      rw [Function.update_of_ne hw₂] at h₂ ⊢
      exact hinj w₁ w₂ h₁ h₂

lemma Handed.next {s s' : State ι κ τ} (h : Handed s) (hstep : Next s s') : Handed s' := by
  cases hstep with
  | call hpc => exact h.keep rfl fun _ => Or.inr rfl
  | callNull => exact h
  | adderLock hpc hfree => exact h.keep rfl fun _ => Or.inr rfl
  | push hpc => exact h.keep rfl fun _ => Or.inr rfl
  | adderUnlock hpc => exact h.keep rfl fun _ => Or.inr rfl
  | @signal i woken hpc hwake =>
    refine h.keep rfl fun w => ?_
    show (wake s.worker woken w).taken = none ∨ (wake s.worker woken w).taken = (s.worker w).taken
    rw [wake]
    split
    · exact Or.inl rfl
    · exact Or.inr rfl
  | alone hold hawake hpc =>
    refine h.of_worker (Or.inl ?_) s.owner
    rcases hpc with rfl | rfl | rfl <;> rfl
  | lock hpc hfree => exact h.of_worker (Or.inl rfl) _
  | testEmpty hpc hqueue => exact h.of_worker (Or.inl rfl) s.owner
  | testNonempty hpc hqueue => exact h.of_worker (Or.inl rfl) s.owner
  | sleep hpc => exact h.of_worker (Or.inl rfl) _
  | pop hpc => exact h.pop _ _ _
  | unlock hpc => exact h.of_worker (Or.inr (by rw [hpc]; rfl)) _
  | spurious hpc => exact h.of_worker (Or.inl rfl) s.owner
  | stop => exact h.keep rfl fun _ => Or.inr rfl

/-! ## No lost wakeup -/

/-- While there is a task, some adder is about to signal or some worker is not asleep. -/
def Awake (s : State ι κ τ) : Prop :=
  s.queue ≠ [] → (∃ i, (s.adder i).pending) ∨ ∃ w, s.worker w ≠ .asleep

omit [DecidableEq ι] in
lemma Awake.of_worker {s : State ι κ τ} (w : κ) {pc : WorkerPc τ} (hpc : pc ≠ .asleep)
    (owner : Option (ι ⊕ κ)) (queue : List τ) (popped : List (Option τ)) :
    Awake { s with
      owner := owner, queue := queue, popped := popped
      worker := Function.update s.worker w pc } := by
  refine fun _ => Or.inr ⟨w, ?_⟩
  show Function.update s.worker w pc w ≠ .asleep
  rwa [Function.update_self]

omit [DecidableEq κ] in
/-- A step of an adder that does not end its duty to signal. -/
lemma Awake.of_adder {s : State ι κ τ} (h : Awake s) {i : ι} {pc : AdderPc τ}
    (hpc : (s.adder i).pending → pc.pending) (owner : Option (ι ⊕ κ)) :
    Awake { s with owner := owner, adder := Function.update s.adder i pc } := by
  intro hqueue
  rcases h hqueue with ⟨j, hj⟩ | hw
  · refine Or.inl ⟨j, ?_⟩
    show (Function.update s.adder i pc j).pending
    by_cases hij : j = i
    · subst hij
      rw [Function.update_self]
      exact hpc hj
    · rwa [Function.update_of_ne hij]
  · exact Or.inr hw

lemma Awake.next [Nonempty κ] {s s' : State ι κ τ} (h : Awake s) (hlocked : Locked s)
    (hstep : Next s s') : Awake s' := by
  cases hstep with
  | call hpc => exact h.of_adder (by rw [hpc]; exact False.elim) s.owner
  | callNull => exact h
  | adderLock hpc hfree => exact h.of_adder (by rw [hpc]; exact False.elim) _
  | @push i task hpc =>
    refine fun _ => Or.inl ⟨i, ?_⟩
    show (Function.update s.adder i .unlocking i).pending
    rw [Function.update_self]
    trivial
  | adderUnlock hpc =>
    refine h.of_adder ?_ _
    exact fun _ => trivial
  | @signal i woken hpc hwake =>
    -- if every worker was asleep, the signal has woken one
    intro _
    refine Or.inr ?_
    by_contra hall
    have hall : ∀ w, wake s.worker woken w = .asleep := by simpa using hall
    have hnone : woken = [] := by
      refine List.eq_nil_iff_forall_not_mem.mpr fun w hw => ?_
      have hw' := hall w
      rw [wake, if_pos hw] at hw'
      cases hw'
    obtain ⟨w⟩ := ‹Nonempty κ›
    have hasleep := hwake.2 hnone w
    rw [wake_eq (hall w) (by simp)] at hasleep
    cases hasleep
  | @alone w pc hold hawake hpc =>
    refine Awake.of_worker w ?_ s.owner s.queue s.popped
    rcases hpc with rfl | rfl | rfl <;> simp
  | lock hpc hfree => exact Awake.of_worker _ (by simp) _ s.queue s.popped
  | testEmpty hpc hqueue => exact Awake.of_worker _ (by simp) s.owner s.queue s.popped
  | testNonempty hpc hqueue => exact Awake.of_worker _ (by simp) s.owner s.queue s.popped
  | sleep hpc => exact fun hqueue => absurd (hlocked.waiting hpc) hqueue
  | pop hpc => exact Awake.of_worker _ (by simp) s.owner _ _
  | unlock hpc => exact Awake.of_worker _ (by simp) _ s.queue s.popped
  | spurious hpc => exact Awake.of_worker _ (by simp) s.owner s.queue s.popped
  | stop => exact h

/-! ## Reachable states -/

/-- The invariants together. -/
structure Inv (s : State ι κ τ) : Prop where
  locked : Locked s
  inOrder : InOrder s
  handed : Handed s
  awake : Awake s

omit [DecidableEq ι] [DecidableEq κ] in
lemma inv_init : Inv (init : State ι κ τ) where
  locked := by
    refine ⟨fun t => ⟨?_, ?_⟩, fun hw => ?_, fun hw => ?_⟩
    · intro hown
      cases hown
    · intro hown
      cases t <;> cases hown
    · cases hw
    · cases hw
  inOrder := ⟨rfl, fun h => by rcases h with h | h <;> cases h⟩
  handed := ⟨fun _ => 0, fun w ret hw => (by cases hw), fun w w' hw => absurd rfl hw⟩
  awake := fun h => absurd rfl h

theorem inv_of_reachable [Fintype κ] [Nonempty κ] {s : State ι κ τ}
    (h : Reachable step init s) : Inv s := by
  refine h.invariant inv_init ?_
  intro s a s' hinv _ hstep
  have hnext := next_of_step hstep
  exact ⟨hinv.locked.next hnext, hinv.inOrder.next hinv.locked hnext,
    hinv.handed.next hnext, hinv.awake.next hinv.locked hnext⟩

/-- **The task queue delivers.**  What `_get_task` has taken out, followed by the queue, is
what was pushed, in the same order; no call returns `NULL`, and what the calls return are values
that were taken out, each by a pop of its own; and while there is a task and no adder is between
its push and its signal, some worker is not asleep. -/
theorem queue_delivers [Fintype κ] [Nonempty κ] {s : State ι κ τ} (h : Reachable step init s) :
    s.popped ++ s.queue.map some = s.pushed.map some ∧
      (∀ w ret, s.worker w = .unlocking ret ∨ s.worker w = .running ret → ret ≠ none) ∧
      (∃ place : κ → ℕ,
        (∀ w ret, s.worker w = .unlocking ret ∨ s.worker w = .running ret →
          s.popped[place w]? = some ret) ∧
        ∀ w w', (s.worker w).taken ≠ none → (s.worker w').taken ≠ none →
          place w = place w' → w = w') ∧
      (s.queue ≠ [] → (∀ i, ¬ (s.adder i).pending) → ∃ w, s.worker w ≠ .asleep) := by
  have hinv := inv_of_reachable h
  obtain ⟨place, hplace, hinj⟩ := hinv.handed
  refine ⟨hinv.inOrder.order, fun w ret => hinv.inOrder.ret, ⟨place, ?_, hinj⟩, ?_⟩
  · rintro w ret (hw | hw) <;> exact hplace w ret (by rw [hw]; rfl)
  · intro hqueue hpending
    rcases hinv.awake hqueue with ⟨i, hi⟩ | hw
    · exact absurd hi (hpending i)
    · exact hw

/-- Two workers sleep, two tasks are added and signalled, and the workers return them. -/
theorem queue_delivers_two : ∃ s : State (Fin 1) (Fin 2) ℕ, Reachable step init s ∧
    s.popped = [some 7, some 8] ∧
      (∃ place : Fin 2 → ℕ,
        (∀ w ret, s.worker w = .unlocking ret ∨ s.worker w = .running ret →
          s.popped[place w]? = some ret) ∧
        ∀ w w', (s.worker w).taken ≠ none → (s.worker w').taken ≠ none →
          place w = place w' → w = w') ∧
      (s.worker 0).taken = some (some 8) ∧ (s.worker 1).taken = some (some 7) := by
  let sleep (w : Fin 2) : List (Action (Fin 1) (Fin 2) ℕ) := List.replicate 4 (.worker w)
  let add (task : ℕ) (woken : Fin 2) : List (Action (Fin 1) (Fin 2) ℕ) :=
    [.call 0 (some task), .adder 0, .adder 0, .adder 0, .signal 0 [woken]]
  let take (w : Fin 2) : List (Action (Fin 1) (Fin 2) ℕ) := List.replicate 4 (.worker w)
  -- the worker that was woken second is the first to have the mutex again
  have hrun : (run step (init : State (Fin 1) (Fin 2) ℕ)
      (sleep 0 ++ sleep 1 ++ add 7 0 ++ add 8 1 ++ take 1 ++ take 0)).any (fun s =>
        s.popped = [some 7, some 8] ∧ (s.worker 0).taken = some (some 8) ∧
          (s.worker 1).taken = some (some 7)) = true := by
    decide
  obtain ⟨s, hs, hstate⟩ := (Option.any_eq_true _ _).mp hrun
  obtain ⟨hpopped, h₀, h₁⟩ := of_decide_eq_true hstate
  have hreach := reachable_of_run .init hs
  obtain ⟨-, -, hhanded, -⟩ := queue_delivers hreach
  exact ⟨s, hreach, hpopped, hhanded, h₀, h₁⟩

end step

end Task
end Sunet
