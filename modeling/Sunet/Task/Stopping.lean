/-
# Stopping the workers

`SubThreadPool::_stop` sets the flag of every handler and signals nothing.  A worker looks at
its flag only between two tasks, so that one that is on its way to a task, or asleep, needs
a task to come back.  The model is that of `Sunet.Task.Queue`; the results count the workers
that need a task against the tasks that are there or on their way: `canExit_of_stopsInTime` is
about the runs in which there are enough of them when the last handler is marked, `leaves_iff`
says that no weaker condition will do.
-/
import Sunet.Task.Queue
import Sunet.Lib.Count

namespace Sunet
namespace Task

open Transition

variable {ι κ τ : Type}

/-! ## What is counted -/

/-- The worker has seen its flag unset and has no task yet. -/
def WorkerPc.needsTask : WorkerPc τ → Bool
  | locking => true
  | testing => true
  | waiting => true
  | asleep => true
  | woken => true
  | popping => true
  | _ => false

/-- The worker needs a task and will look for one by itself. -/
def WorkerPc.seeking : WorkerPc τ → Bool
  | locking => true
  | testing => true
  | woken => true
  | popping => true
  | _ => false

/-- The adder has a task that it has not pushed. -/
def AdderPc.adding : AdderPc τ → Bool
  | locking _ => true
  | pushing _ => true
  | _ => false

/-- The adder has pushed a task and not signalled. -/
def AdderPc.signalDue : AdderPc τ → Bool
  | unlocking => true
  | signalling => true
  | _ => false

/-! ## The steps of a worker -/

/-- What a step of a worker does to its place and to the queue. -/
inductive Move (s : State ι κ τ) (w : κ) : WorkerPc τ → List τ → Prop
  | exit (hpc : s.worker w = .looping) (hstop : s.stoped w = true) : Move s w .exited s.queue
  | enter (hpc : s.worker w = .looping) (hrun : s.stoped w = false) : Move s w .locking s.queue
  | lock (hpc : s.worker w = .locking ∨ s.worker w = .woken) : Move s w .testing s.queue
  | testEmpty (hpc : s.worker w = .testing) (hqueue : s.queue = []) : Move s w .waiting s.queue
  | testNonempty (hpc : s.worker w = .testing) (hqueue : s.queue ≠ []) :
      Move s w .popping s.queue
  | sleep (hpc : s.worker w = .waiting) : Move s w .asleep s.queue
  | pop (hpc : s.worker w = .popping) : Move s w (.unlocking s.queue.head?) s.queue.tail
  | unlock {ret : Option τ} (hpc : s.worker w = .unlocking ret) : Move s w (.running ret) s.queue
  | again {ret : Option τ} (hpc : s.worker w = .running ret) : Move s w .looping s.queue

lemma move_of_workerStep [DecidableEq κ] {s s' : State ι κ τ} {w : κ}
    (h : workerStep s w = some s') :
    ∃ pc, Move s w pc s'.queue ∧ s'.worker = Function.update s.worker w pc ∧
      s'.adder = s.adder ∧ s'.stoped = s.stoped := by
  rw [workerStep] at h
  split at h
  · next hpc =>
    split at h
    · next hstop =>
      cases h
      exact ⟨_, .exit hpc hstop, rfl, rfl, rfl⟩
    · next hrun =>
      cases h
      exact ⟨_, .enter hpc (by simpa using hrun), rfl, rfl, rfl⟩
  · next hpc =>
    split at h
    · cases h
      exact ⟨_, .lock (.inl hpc), rfl, rfl, rfl⟩
    · cases h
  · next hpc =>
    split at h
    · next hqueue =>
      cases h
      exact ⟨_, .testEmpty hpc hqueue, rfl, rfl, rfl⟩
    · next hqueue =>
      cases h
      exact ⟨_, .testNonempty hpc (by rw [hqueue]; simp), rfl, rfl, rfl⟩
  · next hpc =>
    cases h
    exact ⟨_, .sleep hpc, rfl, rfl, rfl⟩
  · cases h
  · next hpc =>
    split at h
    · cases h
      exact ⟨_, .lock (.inr hpc), rfl, rfl, rfl⟩
    · cases h
  · next hpc =>
    cases h
    exact ⟨_, .pop hpc, rfl, rfl, rfl⟩
  · next ret hpc =>
    cases h
    exact ⟨_, .unlock hpc, rfl, rfl, rfl⟩
  · next ret hpc =>
    cases h
    exact ⟨_, .again hpc, rfl, rfl, rfl⟩
  · cases h

lemma Move.ne_exited {s : State ι κ τ} {w : κ} {pc : WorkerPc τ} {queue : List τ}
    (h : Move s w pc queue) : s.worker w ≠ .exited := by
  cases h with
  | lock hpc => rcases hpc with hpc | hpc <;> simp [hpc]
  | _ => simp [*]

/-- A worker whose flag is set needs no task anew, and gives up its need for the task that it
takes out. -/
lemma Move.needs {s : State ι κ τ} {w : κ} {pc : WorkerPc τ} {queue : List τ}
    (h : Move s w pc queue) (hlocked : Locked s) (hstop : s.stoped w = true) :
    pc.needsTask.toNat + s.queue.length = (s.worker w).needsTask.toNat + queue.length := by
  cases h with
  | exit hpc => simp [hpc, WorkerPc.needsTask]
  | enter hpc hrun =>
    rw [hstop] at hrun
    cases hrun
  | lock hpc => rcases hpc with hpc | hpc <;> simp [hpc, WorkerPc.needsTask]
  | testEmpty hpc => simp [hpc, WorkerPc.needsTask]
  | testNonempty hpc => simp [hpc, WorkerPc.needsTask]
  | sleep hpc => simp [hpc, WorkerPc.needsTask]
  | pop hpc =>
    have hpos := List.length_pos_iff.mpr (hlocked.popping hpc)
    simp only [hpc, WorkerPc.needsTask, List.length_tail, Bool.toNat_true, Bool.toNat_false]
    omega
  | unlock hpc => simp [hpc, WorkerPc.needsTask]
  | again hpc => simp [hpc, WorkerPc.needsTask]

/-- A worker stops looking for a task when it has taken one or when there is none. -/
lemma Move.seeks {s : State ι κ τ} {w : κ} {pc : WorkerPc τ} {queue : List τ}
    (h : Move s w pc queue) (hlocked : Locked s) :
    queue = [] ∨ (pc ≠ .asleep ∧
      queue.length + (s.worker w).seeking.toNat ≤ s.queue.length + pc.seeking.toNat) := by
  cases h with
  | exit hpc => exact .inr (by simp [hpc, WorkerPc.seeking])
  | enter hpc hrun => exact .inr (by simp [hpc, WorkerPc.seeking])
  | lock hpc => exact .inr (by rcases hpc with hpc | hpc <;> simp [hpc, WorkerPc.seeking])
  | testEmpty hpc hqueue => exact .inl hqueue
  | testNonempty hpc => exact .inr (by simp [hpc, WorkerPc.seeking])
  | sleep hpc => exact .inl (hlocked.waiting hpc)
  | pop hpc =>
    have hpos := List.length_pos_iff.mpr (hlocked.popping hpc)
    refine .inr ⟨by simp, ?_⟩
    simp only [hpc, WorkerPc.seeking, List.length_tail, Bool.toNat_true, Bool.toNat_false]
    omega
  | unlock hpc => exact .inr (by simp [hpc, WorkerPc.seeking])
  | again hpc => exact .inr (by simp [hpc, WorkerPc.seeking])

/-- What a step of an adder changes: a task that it has not pushed comes into the queue, and a
signal is due for each task in the queue. -/
lemma move_of_adderStep [DecidableEq ι] {s s' : State ι κ τ} {i : ι} (h : adderStep s i = some s') :
    ∃ pc, s'.adder = Function.update s.adder i pc ∧ s'.worker = s.worker ∧
      s'.stoped = s.stoped ∧
      s'.queue.length + pc.adding.toNat = s.queue.length + (s.adder i).adding.toNat ∧
      s'.queue.length + (s.adder i).signalDue.toNat ≤ s.queue.length + pc.signalDue.toNat := by
  rw [adderStep] at h
  split at h
  · next task hpc =>
    split at h
    · cases h
      exact ⟨_, rfl, rfl, rfl, by simp [hpc, AdderPc.adding], by simp [hpc, AdderPc.signalDue]⟩
    · cases h
  · next task hpc =>
    cases h
    exact ⟨_, rfl, rfl, rfl, by simp [hpc, AdderPc.adding], by simp [hpc, AdderPc.signalDue]⟩
  · next hpc =>
    cases h
    exact ⟨_, rfl, rfl, rfl, by simp [hpc, AdderPc.adding], by simp [hpc, AdderPc.signalDue]⟩
  · cases h
  · cases h

/-- Who is woken was asleep. -/
lemma canWake.asleep {s : State ι κ τ} {woken : List κ} (h : canWake s woken) {w : κ}
    (hw : w ∈ woken) : s.worker w = .asleep := by
  have hasleep := h.1 w hw
  cases hw' : s.worker w <;> rw [hw'] at hasleep <;> first | rfl | cases hasleep

/-! ## Enough tasks -/

variable [Fintype ι] [Fintype κ]

/-- There are as many tasks, in the queue or in calls of `_add_task`, as workers that need
one. -/
def Enough (s : State ι κ τ) : Prop :=
  count WorkerPc.needsTask s.worker ≤ s.queue.length + count AdderPc.adding s.adder

/-- While a worker sleeps, each task in the queue has a worker that looks for one, or a signal
that is still to come. -/
def Attended (s : State ι κ τ) : Prop :=
  (∃ w, s.worker w = .asleep) →
    s.queue.length ≤ count WorkerPc.seeking s.worker + count AdderPc.signalDue s.adder

instance (s : State ι κ τ) : Decidable (Enough s) :=
  inferInstanceAs (Decidable (_ ≤ _))

/-! ## Leaving the loop -/

section step

variable [DecidableEq ι] [DecidableEq κ]

/-- The steps that the threads of the pool and the calls of `_add_task` that are under way take
by themselves. -/
def Unaided : Action ι κ τ → Prop
  | .adder _ => True
  | .signal _ _ => True
  | .worker _ => True
  | _ => False

/-- All steps but new calls of `_add_task`. -/
def NoCall : Action ι κ τ → Prop
  | .call _ _ => False
  | _ => True

/-- A worker can reach the end of its loop by steps of a kind. -/
def CanExit (ok : Action ι κ τ → Prop) (s : State ι κ τ) (w : κ) : Prop :=
  ∃ as s', run step s as = some s' ∧ (∀ a ∈ as, ok a) ∧ s'.worker w = .exited

/-- The handlers are marked in time: when the last one is, there are enough tasks. -/
def StopsInTime (s : State ι κ τ) : Action ι κ τ → Prop
  | .stop w => (∀ v, v ≠ w → s.stoped v = true) → Enough s
  | _ => True

instance (s : State ι κ τ) (a : Action ι κ τ) : Decidable (StopsInTime s a) :=
  match a with
  | .stop w => inferInstanceAs (Decidable ((∀ v, v ≠ w → s.stoped v = true) → Enough s))
  | .call _ _ => inferInstanceAs (Decidable True)
  | .adder _ => inferInstanceAs (Decidable True)
  | .signal _ _ => inferInstanceAs (Decidable True)
  | .worker _ => inferInstanceAs (Decidable True)
  | .spurious _ => inferInstanceAs (Decidable True)

omit [Fintype ι] in
/-- A handler that is marked stays marked. -/
lemma stoped_of_step {s s' : State ι κ τ} {a : Action ι κ τ} (hstep : Task.step s a = some s') :
    s'.stoped = s.stoped ∨ ∃ w, a = .stop w ∧ s'.stoped = Function.update s.stoped w true := by
  cases a with
  | stop w =>
    cases hstep
    exact .inr ⟨w, rfl, rfl⟩
  | call i task =>
    rcases step_call hstep with rfl | ⟨_, -, rfl⟩ <;> exact .inl rfl
  | adder i =>
    obtain ⟨pc, -, -, hstoped, -, -⟩ := move_of_adderStep hstep
    exact .inl hstoped
  | signal i woken =>
    obtain ⟨-, -, rfl⟩ := step_signal hstep
    exact .inl rfl
  | worker w =>
    obtain ⟨pc, -, -, -, hstoped⟩ := move_of_workerStep hstep
    exact .inl hstoped
  | spurious w =>
    obtain ⟨-, rfl⟩ := step_spurious hstep
    exact .inl rfl

/-! ## The balance of needs and tasks -/

/-- The needs that are met between two states are the tasks that are taken. -/
def Balanced (s s' : State ι κ τ) : Prop :=
  count WorkerPc.needsTask s'.worker + (s.queue.length + count AdderPc.adding s.adder) =
    count WorkerPc.needsTask s.worker + (s'.queue.length + count AdderPc.adding s'.adder)

omit [DecidableEq ι] [DecidableEq κ] in
lemma Balanced.enough_iff {s s' : State ι κ τ} (h : Balanced s s') : Enough s' ↔ Enough s := by
  rw [Balanced] at h
  rw [Enough, Enough]
  omega

omit [DecidableEq ι] in
lemma balanced_of_workerStep {s s' : State ι κ τ} {w : κ} (hlocked : Locked s)
    (hstop : s.stoped w = true) (hstep : workerStep s w = some s') : Balanced s s' := by
  obtain ⟨pc, hmove, hworker, hadder, -⟩ := move_of_workerStep hstep
  have hcount := count_update WorkerPc.needsTask s.worker w pc
  have hneeds := hmove.needs hlocked hstop
  rw [Balanced, hworker, hadder]
  omega

omit [DecidableEq κ] in
lemma balanced_of_adderStep {s s' : State ι κ τ} {i : ι} (hstep : adderStep s i = some s') :
    Balanced s s' := by
  obtain ⟨pc, hadder, hworker, -, hadding, -⟩ := move_of_adderStep hstep
  have hcount := count_update AdderPc.adding s.adder i pc
  rw [Balanced, hworker, hadder]
  omega

/-- Once all handlers are marked, no step but a call changes the balance. -/
lemma balanced_of_step {s s' : State ι κ τ} {a : Action ι κ τ} (hlocked : Locked s)
    (hstop : ∀ w, s.stoped w = true) (ha : NoCall a) (hstep : Task.step s a = some s') :
    Balanced s s' := by
  cases a with
  | call i task => cases ha
  | adder i => exact balanced_of_adderStep hstep
  | signal i woken =>
    obtain ⟨hpc, hwake, rfl⟩ := step_signal hstep
    have hneeds : count WorkerPc.needsTask (wake s.worker woken) =
        count WorkerPc.needsTask s.worker := by
      refine count_congr fun w => ?_
      rw [wake]
      split
      · next hw =>
        rw [hwake.asleep hw]
        rfl
      · rfl
    have hcount := count_update AdderPc.adding s.adder i .idle
    simp only [hpc, AdderPc.adding, Bool.toNat_false] at hcount
    simp only [Balanced, hneeds]
    omega
  | worker w => exact balanced_of_workerStep hlocked (hstop w) hstep
  | spurious w =>
    obtain ⟨hpc, rfl⟩ := step_spurious hstep
    have hcount := count_update WorkerPc.needsTask s.worker w .woken
    simp only [hpc, WorkerPc.needsTask] at hcount
    simp only [Balanced]
    omega
  | stop w =>
    cases hstep
    rfl

/-! ## Signals -/

omit [DecidableEq ι] in
lemma Attended.of_worker {s s' : State ι κ τ} {w : κ} (h : Attended s) (hlocked : Locked s)
    (hstep : workerStep s w = some s') : Attended s' := by
  obtain ⟨pc, hmove, hworker, hadder, -⟩ := move_of_workerStep hstep
  rintro ⟨v, hv⟩
  rcases hmove.seeks hlocked with hnil | ⟨hawake, hseeks⟩
  · rw [hnil]
    exact Nat.zero_le _
  · rw [hworker] at hv
    have hasleep : ∃ v, s.worker v = .asleep := by
      rcases of_update hv with ⟨-, heq⟩ | ⟨-, hv⟩
      · exact absurd heq hawake
      · exact ⟨v, hv⟩
    have hattended := h hasleep
    have hcount := count_update WorkerPc.seeking s.worker w pc
    rw [hworker, hadder]
    omega

omit [DecidableEq κ] in
lemma Attended.of_adder {s s' : State ι κ τ} {i : ι} (h : Attended s)
    (hstep : adderStep s i = some s') : Attended s' := by
  obtain ⟨pc, hadder, hworker, -, -, hdue⟩ := move_of_adderStep hstep
  intro hasleep
  rw [hworker] at hasleep
  have hattended := h hasleep
  have hcount := count_update AdderPc.signalDue s.adder i pc
  rw [hworker, hadder]
  omega

/-- A signal that wakes a worker replaces a signal that is due by a worker that looks for a
task; a signal that wakes none finds none asleep. -/
lemma Attended.of_signal {s : State ι κ τ} {i : ι} {woken : List κ} (h : Attended s)
    (hpc : s.adder i = .signalling) (hwake : canWake s woken) :
    Attended { s with
      adder := Function.update s.adder i .idle, worker := wake s.worker woken } := by
  have hseeking : ∀ w, (s.worker w).seeking = true →
      (wake s.worker woken w).seeking = true := by
    intro w hw
    rw [wake]
    split
    · rfl
    · exact hw
  rintro ⟨v, hv⟩
  have hv' : s.worker v = .asleep := wake_eq hv (by simp)
  have hattended := h ⟨v, hv'⟩
  have hcount := count_update AdderPc.signalDue s.adder i .idle
  simp only [hpc, AdderPc.signalDue, Bool.toNat_true, Bool.toNat_false] at hcount
  show s.queue.length ≤ count WorkerPc.seeking (wake s.worker woken) +
    count AdderPc.signalDue (Function.update s.adder i .idle)
  cases woken with
  | nil =>
    have hnone := hwake.2 rfl v
    rw [hv'] at hnone
    cases hnone
  | cons w woken =>
    have hw : s.worker w = .asleep := hwake.asleep List.mem_cons_self
    have hmore : count WorkerPc.seeking s.worker <
        count WorkerPc.seeking (wake s.worker (w :: woken)) := by
      refine count_lt_count hseeking (t := w) ?_ ?_
      · rw [hw]
        rfl
      · rw [wake, if_pos List.mem_cons_self]
        rfl
    omega

lemma Attended.step {s s' : State ι κ τ} {a : Action ι κ τ} (h : Attended s)
    (hlocked : Locked s) (hstep : Task.step s a = some s') : Attended s' := by
  cases a with
  | call i task =>
    rcases step_call hstep with rfl | ⟨task, hpc, rfl⟩
    · exact h
    · intro hasleep
      have hattended := h hasleep
      have hcount := count_update AdderPc.signalDue s.adder i (.locking task)
      simp only [hpc, AdderPc.signalDue] at hcount
      show s.queue.length ≤ count WorkerPc.seeking s.worker +
        count AdderPc.signalDue (Function.update s.adder i (.locking task))
      omega
  | adder i => exact h.of_adder hstep
  | signal i woken =>
    obtain ⟨hpc, hwake, rfl⟩ := step_signal hstep
    exact h.of_signal hpc hwake
  | worker w => exact h.of_worker hlocked hstep
  | spurious w =>
    obtain ⟨hpc, rfl⟩ := step_spurious hstep
    intro _
    have hattended := h ⟨w, hpc⟩
    have hcount := count_update WorkerPc.seeking s.worker w .woken
    simp only [hpc, WorkerPc.seeking, Bool.toNat_true, Bool.toNat_false] at hcount
    show s.queue.length ≤ count WorkerPc.seeking (Function.update s.worker w .woken) +
      count AdderPc.signalDue s.adder
    omega
  | stop w =>
    cases hstep
    exact h

/-! ## What runs keep -/

/-- What holds in every state of every run. -/
structure Waits (s : State ι κ τ) : Prop where
  locked : Locked s
  attended : Attended s

omit [DecidableEq ι] [DecidableEq κ] in
lemma waits_init : Waits (init : State ι κ τ) where
  locked := inv_init.locked
  attended := by
    rintro ⟨w, hw⟩
    cases hw

lemma Waits.step {s s' : State ι κ τ} {a : Action ι κ τ} (h : Waits s)
    (hstep : Task.step s a = some s') : Waits s' :=
  ⟨h.locked.next (next_of_step hstep), h.attended.step h.locked hstep⟩

/-- The invariant of the runs whose handlers are marked in time. -/
structure Supplied (s : State ι κ τ) : Prop extends Waits s where
  enough : (∀ w, s.stoped w = true) → Enough s

omit [DecidableEq ι] [DecidableEq κ] in
lemma supplied_init : Supplied (init : State ι κ τ) where
  toWaits := waits_init
  enough := by
    intro _
    have hnone : ¬ 0 < count WorkerPc.needsTask (init : State ι κ τ).worker := by
      rw [count_pos_iff]
      rintro ⟨w, hw⟩
      cases hw
    rw [Enough]
    omega

lemma Enough.call {s s' : State ι κ τ} {i : ι} {task : Option τ} (h : Enough s)
    (hstep : Task.step s (.call i task) = some s') : Enough s' := by
  rcases step_call hstep with rfl | ⟨task, hpc, rfl⟩
  · exact h
  · have hcount := count_update AdderPc.adding s.adder i (.locking task)
    simp only [hpc, AdderPc.adding, Bool.toNat_true, Bool.toNat_false] at hcount
    rw [Enough] at h ⊢
    show count WorkerPc.needsTask s.worker ≤
      s.queue.length + count AdderPc.adding (Function.update s.adder i (.locking task))
    omega

/-- A step of a run whose handlers are marked in time. -/
lemma Supplied.step {s s' : State ι κ τ} {a : Action ι κ τ} (h : Supplied s)
    (hok : StopsInTime s a) (hstep : Task.step s a = some s') : Supplied s' := by
  refine ⟨h.toWaits.step hstep, fun hstop => ?_⟩
  rcases stoped_of_step hstep with hstoped | ⟨w, rfl, hstoped⟩
  · rw [hstoped] at hstop
    by_cases ha : NoCall a
    · exact (balanced_of_step h.locked hstop ha hstep).enough_iff.mpr (h.enough hstop)
    · cases a with
      | call i task => exact (h.enough hstop).call hstep
      | _ => exact absurd trivial ha
  · rw [hstoped] at hstop
    cases hstep
    refine hok fun v hv => ?_
    have hv' := hstop v
    rwa [Function.update_of_ne hv] at hv'

/-! ## Short runs -/

omit [Fintype ι] in
lemma CanExit.of_run {ok : Action ι κ τ → Prop} {s t : State ι κ τ} {w : κ}
    {as : List (Action ι κ τ)} (hrun : run Task.step s as = some t) (hok : ∀ a ∈ as, ok a)
    (h : CanExit ok t w) : CanExit ok s w := by
  obtain ⟨bs, s', hrun', hok', hexited⟩ := h
  refine ⟨as ++ bs, s', (run_append hrun).trans hrun', fun a ha => ?_, hexited⟩
  rcases List.mem_append.mp ha with ha | ha
  · exact hok a ha
  · exact hok' a ha

omit [Fintype ι] in
lemma CanExit.mono {ok ok' : Action ι κ τ → Prop} {s : State ι κ τ} {w : κ}
    (h : CanExit ok s w) (himp : ∀ a, ok a → ok' a) : CanExit ok' s w := by
  obtain ⟨as, s', hrun, hok, hexited⟩ := h
  exact ⟨as, s', hrun, fun a ha => himp a (hok a ha), hexited⟩

omit [Fintype ι] in
/-- A worker that can get the mutex takes a task out of a queue that has one. -/
lemma run_takeTask {s : State ι κ τ} {v : κ} (hpc : s.worker v = .locking ∨ s.worker v = .woken)
    (hfree : s.owner = none) (hqueue : s.queue ≠ []) :
    ∃ t, run Task.step s [.worker v, .worker v, .worker v, .worker v] = some t ∧
      t.owner = none ∧ t.queue = s.queue.tail ∧ t.adder = s.adder ∧ t.stoped = s.stoped ∧
      t.worker v = .running s.queue.head? ∧ ∀ u, u ≠ v → t.worker u = s.worker u := by
  obtain ⟨task, queue, heq⟩ := List.exists_cons_of_ne_nil hqueue
  have hlock : Task.step s (.worker v) = some { s with
      owner := some (.inr v), worker := Function.update s.worker v .testing } := by
    rcases hpc with hpc | hpc <;> simp [Task.step, workerStep, hpc, hfree]
  rw [run_cons hlock]
  refine ⟨{ s with
    owner := none, queue := queue, popped := s.popped ++ [some task]
    worker := Function.update s.worker v (.running (some task)) }, ?_, rfl, ?_, rfl, rfl, ?_, ?_⟩
  · simp [run, Task.step, workerStep, heq]
  · rw [heq]
    rfl
  · simp [heq]
  · intro u hu
    exact Function.update_of_ne hu _ _

omit [Fintype ι] in
/-- An adder that can get the mutex pushes its task. -/
lemma run_addTask {s : State ι κ τ} {i : ι} {task : τ} (hpc : s.adder i = .locking task)
    (hfree : s.owner = none) :
    ∃ t, run Task.step s [.adder i, .adder i, .adder i] = some t ∧ t.owner = none ∧
      t.queue = s.queue ++ [task] ∧ t.worker = s.worker ∧ t.stoped = s.stoped ∧
      t.adder i = .signalling := by
  refine ⟨{ s with
    owner := none, queue := s.queue ++ [task], pushed := s.pushed ++ [task]
    adder := Function.update s.adder i .signalling }, ?_, rfl, rfl, rfl, rfl, ?_⟩
  · simp [run, Task.step, adderStep, hpc, hfree]
  · exact Function.update_self _ _ _

omit [Fintype ι] [Fintype κ] [DecidableEq ι] [DecidableEq κ] in
lemma unaided_worker (w : κ) (n : ℕ) :
    ∀ a ∈ List.replicate n (.worker w : Action ι κ τ), Unaided a := by
  intro a ha
  rw [List.eq_of_mem_replicate ha]
  trivial

omit [Fintype ι] [Fintype κ] [DecidableEq ι] [DecidableEq κ] in
lemma unaided_adder (i : ι) (n : ℕ) :
    ∀ a ∈ List.replicate n (.adder i : Action ι κ τ), Unaided a := by
  intro a ha
  rw [List.eq_of_mem_replicate ha]
  trivial

omit [Fintype ι] in
/-- The thread that has the mutex gives it back. -/
lemma exists_run_unlock {s : State ι κ τ} (h : Locked s) :
    ∃ as t, run Task.step s as = some t ∧ (∀ a ∈ as, Unaided a) ∧ t.owner = none := by
  cases howner : s.owner with
  | none => exact ⟨[], s, rfl, by simp, howner⟩
  | some t =>
    have hholds := (h.mutex t).mp howner
    cases t with
    | inl i =>
      have hpc : (s.adder i).holds := hholds
      cases hi : s.adder i <;> rw [hi] at hpc
      case pushing task =>
        exact ⟨[.adder i, .adder i], _, by simp [run, Task.step, adderStep, hi]; rfl,
          unaided_adder i 2, rfl⟩
      case unlocking =>
        exact ⟨[.adder i], _, by simp [run, Task.step, adderStep, hi]; rfl,
          unaided_adder i 1, rfl⟩
      all_goals cases hpc
    | inr v =>
      have hpc : (s.worker v).holds := hholds
      cases hv : s.worker v <;> rw [hv] at hpc
      case testing =>
        cases hqueue : s.queue with
        | nil =>
          exact ⟨[.worker v, .worker v], _, by simp [run, Task.step, workerStep, hv, hqueue]; rfl,
            unaided_worker v 2, rfl⟩
        | cons task queue =>
          exact ⟨[.worker v, .worker v, .worker v], _,
            by simp [run, Task.step, workerStep, hv, hqueue]; rfl, unaided_worker v 3, rfl⟩
      case waiting =>
        exact ⟨[.worker v], _, by simp [run, Task.step, workerStep, hv]; rfl,
          unaided_worker v 1, rfl⟩
      case popping =>
        exact ⟨[.worker v, .worker v], _, by simp [run, Task.step, workerStep, hv]; rfl,
          unaided_worker v 2, rfl⟩
      case unlocking ret =>
        exact ⟨[.worker v], _, by simp [run, Task.step, workerStep, hv]; rfl,
          unaided_worker v 1, rfl⟩
      all_goals cases hpc

/-! ## Every worker can leave -/

/-- What holds once all handlers are marked, when there are enough tasks. -/
structure Stopped (s : State ι κ τ) : Prop extends Waits s where
  stoped : ∀ w, s.stoped w = true
  enough : Enough s

omit [Fintype ι] [Fintype κ] [DecidableEq ι] [DecidableEq κ] in
lemma noCall_of_unaided {a : Action ι κ τ} (h : Unaided a) : NoCall a := by
  cases a with
  | call i task => cases h
  | _ => trivial

omit [Fintype ι] in
lemma stoped_step {s s' : State ι κ τ} {a : Action ι κ τ} (h : ∀ w, s.stoped w = true)
    (hstep : Task.step s a = some s') (w : κ) : s'.stoped w = true := by
  rcases stoped_of_step hstep with hstoped | ⟨v, -, hstoped⟩ <;> rw [hstoped]
  · exact h w
  · by_cases hw : w = v
    · rw [hw, Function.update_self]
    · rw [Function.update_of_ne hw]
      exact h w

lemma Stopped.step {s s' : State ι κ τ} {a : Action ι κ τ} (h : Stopped s) (ha : NoCall a)
    (hstep : Task.step s a = some s') : Stopped s' :=
  ⟨h.toWaits.step hstep, stoped_step h.stoped hstep,
    (balanced_of_step h.locked h.stoped ha hstep).enough_iff.mpr h.enough⟩

lemma Stopped.run {s t : State ι κ τ} {as : List (Action ι κ τ)} (h : Stopped s)
    (hok : ∀ a ∈ as, Unaided a) (hrun : Transition.run Task.step s as = some t) : Stopped t :=
  run_invariant (fun _ _ _ hs ha hstep => hs.step (noCall_of_unaided ha) hstep) h hok hrun

omit [Fintype ι] in
lemma canExit_looping {s : State ι κ τ} {w : κ} (hpc : s.worker w = .looping)
    (hstop : s.stoped w = true) : CanExit Unaided s w := by
  refine ⟨[.worker w], { s with worker := Function.update s.worker w .exited }, ?_,
    unaided_worker w 1, Function.update_self _ _ _⟩
  simp [Transition.run, Task.step, workerStep, hpc, hstop]

omit [Fintype ι] in
lemma canExit_running {s : State ι κ τ} {w : κ} {ret : Option τ} (hpc : s.worker w = .running ret)
    (hstop : s.stoped w = true) : CanExit Unaided s w := by
  have hrun : Transition.run Task.step s [.worker w] =
      some { s with worker := Function.update s.worker w .looping } := by
    simp [Transition.run, Task.step, workerStep, hpc]
  exact CanExit.of_run hrun (unaided_worker w 1)
    (canExit_looping (Function.update_self _ _ _) hstop)

omit [Fintype ι] in
/-- A worker that can get the mutex, while there is a task. -/
lemma canExit_takeTask {s : State ι κ τ} {w : κ}
    (hpc : s.worker w = .locking ∨ s.worker w = .woken) (hfree : s.owner = none)
    (hqueue : s.queue ≠ []) (hstop : s.stoped w = true) : CanExit Unaided s w := by
  obtain ⟨t, hrun, -, -, -, hstoped, hrunning, -⟩ := run_takeTask hpc hfree hqueue
  exact CanExit.of_run hrun (unaided_worker w 4) (canExit_running hrunning (by rw [hstoped, hstop]))

omit [DecidableEq ι] [DecidableEq κ] in
/-- While the mutex is free and a worker needs a task, the queue has one or a call is about to
add one. -/
lemma Stopped.exists_adder {s : State ι κ τ} (h : Stopped s) (hfree : s.owner = none) {w : κ}
    (hneeds : (s.worker w).needsTask = true) (hqueue : s.queue = []) :
    ∃ i task, s.adder i = .locking task := by
  have henough : count WorkerPc.needsTask s.worker ≤ _ := h.enough
  have hpos := count_pos_iff.mpr ⟨w, hneeds⟩
  rw [hqueue, List.length_nil, Nat.zero_add] at henough
  obtain ⟨i, hi⟩ := count_pos_iff.mp (hpos.trans_le henough)
  cases hpc : s.adder i <;> rw [hpc] at hi
  case locking task => exact ⟨i, task, hpc⟩
  case pushing task =>
    have hown := (h.locked.mutex (.inl i)).mpr (by rw [holds, hpc]; trivial)
    rw [hfree] at hown
    cases hown
  all_goals cases hi

/-- A worker that can get the mutex. -/
lemma Stopped.canExit_awake {s : State ι κ τ} (h : Stopped s) {w : κ}
    (hpc : s.worker w = .locking ∨ s.worker w = .woken) (hfree : s.owner = none) :
    CanExit Unaided s w := by
  by_cases hqueue : s.queue = []
  · have hneeds : (s.worker w).needsTask = true := by rcases hpc with hpc | hpc <;> rw [hpc] <;> rfl
    obtain ⟨i, task, hi⟩ := h.exists_adder hfree hneeds hqueue
    obtain ⟨t, hrun, hfree', hqueue', hworker, hstoped, -⟩ := run_addTask hi hfree
    refine CanExit.of_run hrun (unaided_adder i 3) (canExit_takeTask ?_ hfree' ?_ ?_)
    · rw [hworker]
      exact hpc
    · rw [hqueue']
      simp
    · rw [hstoped]
      exact h.stoped w
  · exact canExit_takeTask hpc hfree hqueue (h.stoped w)

/-- A worker that sleeps while a signal is due. -/
lemma Stopped.canExit_signalled {s : State ι κ τ} (h : Stopped s) {w : κ} {i : ι}
    (hpc : s.worker w = .asleep) (hi : s.adder i = .signalling) (hfree : s.owner = none) :
    CanExit Unaided s w := by
  have hwake : canWake s [w] := by
    refine ⟨fun v hv => ?_, fun hnil => by cases hnil⟩
    rw [List.mem_singleton.mp hv, hpc]
    rfl
  have hstep : Task.step s (.signal i [w]) = some { s with
      adder := Function.update s.adder i .idle, worker := wake s.worker [w] } := by
    simp [Task.step, hi, hwake]
  have hrun : Transition.run Task.step s [.signal i [w]] = some _ := (run_cons hstep).trans rfl
  have hok : ∀ a ∈ [Action.signal (τ := τ) i [w]], Unaided a := by
    intro a ha
    rw [List.mem_singleton.mp ha]
    trivial
  refine CanExit.of_run hrun hok ((h.run hok hrun).canExit_awake (.inr ?_) hfree)
  simp [wake]

/-- A worker that sleeps: it is woken by a signal that is due or by the call that adds the next
task, and while there are neither, other workers take the tasks that are there. -/
lemma Stopped.canExit_asleep {n : ℕ} {s : State ι κ τ} (h : Stopped s) (hn : s.queue.length = n)
    {w : κ} (hpc : s.worker w = .asleep) (hfree : s.owner = none) : CanExit Unaided s w := by
  induction n generalizing s with
  | zero =>
    have hqueue : s.queue = [] := List.eq_nil_of_length_eq_zero hn
    obtain ⟨i, task, hi⟩ := h.exists_adder hfree (by rw [hpc]; rfl) hqueue
    obtain ⟨t, hrun, hfree', -, hworker, -, hi'⟩ := run_addTask hi hfree
    exact CanExit.of_run hrun (unaided_adder i 3)
      ((h.run (unaided_adder i 3) hrun).canExit_signalled (by rw [hworker]; exact hpc) hi' hfree')
  | succ n ih =>
    by_cases hdue : ∃ i, s.adder i = .signalling
    · obtain ⟨i, hi⟩ := hdue
      exact h.canExit_signalled hpc hi hfree
    · have hattended := h.attended ⟨w, hpc⟩
      have hnone : ¬ 0 < count AdderPc.signalDue s.adder := by
        rw [count_pos_iff]
        rintro ⟨i, hi⟩
        cases hi' : s.adder i <;> rw [hi'] at hi
        case unlocking =>
          have hown := (h.locked.mutex (.inl i)).mpr (by rw [holds, hi']; trivial)
          rw [hfree] at hown
          cases hown
        case signalling => exact hdue ⟨i, hi'⟩
        all_goals cases hi
      obtain ⟨v, hv⟩ := count_pos_iff.mp (by omega : 0 < count WorkerPc.seeking s.worker)
      have hholds : ¬ (s.worker v).holds := by
        intro hholds
        have hown := (h.locked.mutex (.inr v)).mpr hholds
        rw [hfree] at hown
        cases hown
      have hvpc : s.worker v = .locking ∨ s.worker v = .woken := by
        cases hv' : s.worker v <;> rw [hv'] at hv hholds
        case locking => exact .inl rfl
        case woken => exact .inr rfl
        all_goals first | exact absurd trivial hholds | cases hv
      have hvw : w ≠ v := by
        rintro rfl
        rw [hpc] at hv
        cases hv
      have hqueue : s.queue ≠ [] := by
        intro hnil
        rw [hnil] at hn
        cases hn
      obtain ⟨t, hrun, hfree', hqueue', -, -, -, hother⟩ := run_takeTask hvpc hfree hqueue
      refine CanExit.of_run hrun (unaided_worker v 4)
        (ih (h.run (unaided_worker v 4) hrun) ?_ ?_ hfree')
      · rw [hqueue', List.length_tail, hn, Nat.add_sub_cancel]
      · rw [hother w hvw]
        exact hpc

/-- Every worker can leave its loop. -/
lemma Stopped.canExit {s : State ι κ τ} (h : Stopped s) (w : κ) : CanExit Unaided s w := by
  -- first the mutex is given back
  obtain ⟨as, t, hrun, hok, hfree⟩ := exists_run_unlock h.locked
  have ht := h.run hok hrun
  refine CanExit.of_run hrun hok ?_
  have hholds : ¬ (t.worker w).holds := by
    intro hholds
    have hown := (ht.locked.mutex (.inr w)).mpr hholds
    rw [hfree] at hown
    cases hown
  cases hpc : t.worker w <;> rw [hpc] at hholds
  case looping => exact canExit_looping hpc (ht.stoped w)
  case locking => exact ht.canExit_awake (.inl hpc) hfree
  case asleep => exact ht.canExit_asleep rfl hpc hfree
  case woken => exact ht.canExit_awake (.inr hpc) hfree
  case running ret => exact canExit_running hpc (ht.stoped w)
  case exited => exact ⟨[], t, rfl, by simp, hpc⟩
  all_goals exact absurd trivial hholds

/-! ## The runs -/

/-- **Stopping the pool.**  In every run whose handlers are marked in time, once all of them
are marked every worker can reach the end of its loop, by steps of the workers and of the
calls of `_add_task` that are under way, with no wakeup but by a signal. -/
theorem canExit_of_stopsInTime {s : State ι κ τ} (h : ReachableWhile Task.step StopsInTime init s)
    (hstop : ∀ w, s.stoped w = true) (w : κ) : CanExit Unaided s w := by
  have hsupplied : Supplied s :=
    h.invariant supplied_init fun _ _ _ hs hok hstep => hs.step hok hstep
  exact Stopped.canExit ⟨hsupplied.toWaits, hstop, hsupplied.enough hstop⟩ w

/-- A worker that was asleep when a task was added. -/
theorem canExit_of_stopsInTime_one : ∃ s : State (Fin 1) (Fin 1) ℕ,
    ReachableWhile Task.step StopsInTime init s ∧ s.stoped 0 = true ∧ CanExit Unaided s 0 := by
  have hrun : (run (fun s a => if StopsInTime s a then Task.step s a else none)
      (init : State (Fin 1) (Fin 1) ℕ)
      [.worker 0, .worker 0, .worker 0, .worker 0, .call 0 (some 7), .adder 0, .adder 0, .adder 0,
        .signal 0 [0], .stop 0]).any (fun s => s.stoped 0) = true := by
    decide
  obtain ⟨s, hs, hstop⟩ := (Option.any_eq_true _ _).mp hrun
  have hreach : ReachableWhile Task.step StopsInTime init s := ReachableWhile.init.of_run hs
  have hall : ∀ w, s.stoped w = true := by
    intro w
    rw [Subsingleton.elim w 0]
    exact hstop
  exact ⟨s, hreach, hstop, canExit_of_stopsInTime hreach hall 0⟩

/-! ## Where it fails -/

/-- The queue is empty, no call is about to add a task, and the worker needs one. -/
structure Starved (s : State ι κ τ) (w : κ) : Prop where
  queue : s.queue = []
  adder : ∀ i, (s.adder i).adding = false
  worker : (s.worker w).needsTask = true
  notPopping : s.worker w ≠ .popping

omit [Fintype ι] [Fintype κ] [DecidableEq ι] [DecidableEq κ] in
/-- A worker's own step. -/
lemma Move.starved {s : State ι κ τ} {w : κ} {pc : WorkerPc τ} {queue : List τ}
    (h : Move s w pc queue) (hqueue : s.queue = []) :
    queue = [] ∧ ((s.worker w).needsTask = true → s.worker w ≠ .popping →
      pc.needsTask = true ∧ pc ≠ .popping) := by
  cases h with
  | exit hpc => exact ⟨hqueue, by simp [hpc, WorkerPc.needsTask]⟩
  | enter hpc hrun => exact ⟨hqueue, by simp [hpc, WorkerPc.needsTask]⟩
  | lock hpc => exact ⟨hqueue, by simp [WorkerPc.needsTask]⟩
  | testEmpty hpc => exact ⟨hqueue, by simp [WorkerPc.needsTask]⟩
  | testNonempty hpc hne => exact absurd hqueue hne
  | sleep hpc => exact ⟨hqueue, by simp [WorkerPc.needsTask]⟩
  | pop hpc => exact ⟨by rw [hqueue, List.tail_nil], fun _ hne => absurd hpc hne⟩
  | unlock hpc => exact ⟨hqueue, by simp [hpc, WorkerPc.needsTask]⟩
  | again hpc => exact ⟨hqueue, by simp [hpc, WorkerPc.needsTask]⟩

omit [Fintype ι] [Fintype κ] [DecidableEq κ] in
lemma Starved.of_adder {s s' : State ι κ τ} {w : κ} {i : ι} (h : Starved s w)
    (hstep : adderStep s i = some s') : Starved s' w := by
  have hadder := h.adder i
  rw [adderStep] at hstep
  split at hstep
  · next task hpc =>
    rw [hpc] at hadder
    cases hadder
  · next task hpc =>
    rw [hpc] at hadder
    cases hadder
  · next hpc =>
    cases hstep
    refine ⟨h.queue, fun j => ?_, h.worker, h.notPopping⟩
    by_cases hj : j = i
    · subst hj
      simp [AdderPc.adding]
    · simpa [hj] using h.adder j
  · cases hstep
  · cases hstep

omit [Fintype ι] [Fintype κ] [DecidableEq ι] [DecidableEq κ] in
lemma Starved.of_wake {s s' : State ι κ τ} {w : κ} (h : Starved s w)
    (hqueue : s'.queue = s.queue) (hadder : ∀ i, (s'.adder i).adding = true →
      (s.adder i).adding = true)
    (hworker : s'.worker w = s.worker w ∨ s'.worker w = .woken) : Starved s' w := by
  refine ⟨hqueue.trans h.queue, fun i => ?_, ?_, ?_⟩
  · by_contra hi
    have hadding := hadder i (by simpa using hi)
    rw [h.adder i] at hadding
    cases hadding
  · rcases hworker with hworker | hworker <;> rw [hworker]
    · exact h.worker
    · rfl
  · rcases hworker with hworker | hworker <;> rw [hworker]
    · exact h.notPopping
    · simp

omit [Fintype ι] in
/-- No step but a call ends it. -/
lemma Starved.step {s s' : State ι κ τ} {w : κ} {a : Action ι κ τ} (h : Starved s w)
    (ha : NoCall a) (hstep : Task.step s a = some s') : Starved s' w := by
  cases a with
  | call i task => cases ha
  | adder i => exact h.of_adder hstep
  | signal i woken =>
    obtain ⟨-, -, rfl⟩ := step_signal hstep
    refine h.of_wake rfl (fun j hj => ?_) ?_
    · by_cases hji : j = i
      · subst hji
        simp [AdderPc.adding] at hj
      · simpa [hji] using hj
    · by_cases hw : w ∈ woken <;> simp [wake, hw]
  | worker v =>
    obtain ⟨pc, hmove, hworker, hadder, -⟩ := move_of_workerStep hstep
    obtain ⟨hqueue, hkeep⟩ := hmove.starved h.queue
    by_cases hwv : w = v
    · subst hwv
      obtain ⟨hneeds, hne⟩ := hkeep h.worker h.notPopping
      refine ⟨hqueue, by rw [hadder]; exact h.adder, ?_, ?_⟩ <;>
        rw [hworker, Function.update_self]
      · exact hneeds
      · exact hne
    · refine ⟨hqueue, by rw [hadder]; exact h.adder, ?_, ?_⟩ <;>
        rw [hworker, Function.update_of_ne hwv]
      · exact h.worker
      · exact h.notPopping
  | spurious v =>
    obtain ⟨-, rfl⟩ := step_spurious hstep
    refine h.of_wake rfl (fun j hj => hj) ?_
    by_cases hw : w = v <;> simp [hw]
  | stop v =>
    cases hstep
    exact ⟨h.queue, h.adder, h.worker, h.notPopping⟩

omit [Fintype ι] in
/-- Such a worker never leaves its loop, however often it wakes. -/
lemma Starved.not_canExit {s : State ι κ τ} {w : κ} (h : Starved s w) : ¬ CanExit NoCall s w := by
  rintro ⟨as, s', hrun, hok, hexited⟩
  have hend : Starved s' w :=
    run_invariant (P := fun t => Starved t w) (fun _ _ _ hs ha hstep => hs.step ha hstep) h hok
      hrun
  have hneeds := hend.worker
  rw [hexited] at hneeds
  cases hneeds

/-- A worker sleeps, and the pool is stopped. -/
theorem not_canExit : ¬ ∀ s : State (Fin 1) (Fin 1) ℕ, Reachable Task.step init s →
    (∀ w, s.stoped w = true) → ∀ w, CanExit NoCall s w := by
  intro h
  have hrun : (run Task.step (init : State (Fin 1) (Fin 1) ℕ)
      [.worker 0, .worker 0, .worker 0, .worker 0, .stop 0]).any (fun s => s.stoped 0 &&
        s.queue.isEmpty && !(s.adder 0).adding && (s.worker 0).isAsleep) = true := by
    decide
  obtain ⟨s, hs, hfacts⟩ := (Option.any_eq_true _ _).mp hrun
  simp only [Bool.and_eq_true, List.isEmpty_iff, Bool.not_eq_true'] at hfacts
  obtain ⟨⟨⟨hstop, hqueue⟩, hadder⟩, hasleep⟩ := hfacts
  have hpc : s.worker 0 = .asleep := by
    cases hw : s.worker 0 <;> rw [hw] at hasleep <;> first | rfl | cases hasleep
  have hstarved : Starved s 0 := by
    refine ⟨hqueue, fun i => ?_, by rw [hpc]; rfl, by rw [hpc]; simp⟩
    rw [Subsingleton.elim i 0]
    exact hadder
  refine hstarved.not_canExit (h s (reachable_of_run .init hs) (fun w => ?_) 0)
  rw [Subsingleton.elim w 0]
  exact hstop

/-! ## The condition is exact -/

/-- From each state that the pool can still reach without a new call, each worker can leave. -/
def Leaves (s : State ι κ τ) : Prop :=
  ∀ s', ReachableWhile Task.step (fun _ a => NoCall a) s s' → ∀ w, CanExit NoCall s' w

omit [Fintype ι] in
lemma exited_step {s s' : State ι κ τ} {a : Action ι κ τ} {w : κ} (h : s.worker w = .exited)
    (hstep : Task.step s a = some s') : s'.worker w = .exited := by
  cases a with
  | call i task =>
    rcases step_call hstep with rfl | ⟨_, -, rfl⟩ <;> exact h
  | adder i =>
    obtain ⟨pc, -, hworker, -, -, -⟩ := move_of_adderStep hstep
    rw [hworker]
    exact h
  | signal i woken =>
    obtain ⟨-, hwake, rfl⟩ := step_signal hstep
    show wake s.worker woken w = .exited
    rw [wake, if_neg, h]
    intro hw
    have hasleep := hwake.asleep hw
    rw [h] at hasleep
    cases hasleep
  | worker v =>
    obtain ⟨pc, hmove, hworker, -, -⟩ := move_of_workerStep hstep
    rw [hworker, Function.update_of_ne, h]
    rintro rfl
    exact hmove.ne_exited h
  | spurious v =>
    obtain ⟨hpc, rfl⟩ := step_spurious hstep
    show Function.update s.worker v .woken w = .exited
    rw [Function.update_of_ne, h]
    rintro rfl
    rw [h] at hpc
    cases hpc
  | stop v =>
    cases hstep
    exact h

omit [Fintype ι] in
lemma exited_run {s t : State ι κ τ} {as : List (Action ι κ τ)} {w : κ}
    (h : s.worker w = .exited) (hrun : run Task.step s as = some t) : t.worker w = .exited := by
  have hreach : Reachable Task.step s t := reachable_of_run .init hrun
  exact hreach.invariant h fun _ _ _ hs _ hstep => exited_step hs hstep

omit [Fintype ι] in
/-- The workers leave one after the other. -/
lemma Leaves.exists_exited {s : State ι κ τ} (h : Leaves s) (ws : Finset κ) :
    ∃ s', ReachableWhile Task.step (fun _ a => NoCall a) s s' ∧
      ∀ w ∈ ws, s'.worker w = .exited := by
  induction ws using Finset.induction with
  | empty => exact ⟨s, .init, by simp⟩
  | insert w ws _ ih =>
    obtain ⟨t, hreach, hexited⟩ := ih
    obtain ⟨as, s', hrun, hok, hw⟩ := h t hreach w
    have hreach' : ReachableWhile Task.step (fun _ a => NoCall a) s s' :=
      run_invariant (fun _ _ _ hs ha hstep => hs.step ha hstep) hreach hok hrun
    refine ⟨s', hreach', fun v hv => ?_⟩
    rcases Finset.mem_insert.mp hv with rfl | hv
    · exact hw
    · exact exited_run (hexited v hv) hrun

omit [DecidableEq ι] [DecidableEq κ] in
lemma enough_of_exited {s : State ι κ τ} (h : ∀ w, s.worker w = .exited) : Enough s := by
  have hnone : ¬ 0 < count WorkerPc.needsTask s.worker := by
    rw [count_pos_iff]
    rintro ⟨w, hw⟩
    rw [h w] at hw
    cases hw
  rw [Enough]
  omega

/-- **When the pool can be left.**  Once all handlers are marked, the workers can leave, come
what may, exactly when there are as many tasks as workers that need one. -/
theorem leaves_iff {s : State ι κ τ} (h : Reachable Task.step init s)
    (hstop : ∀ w, s.stoped w = true) : Leaves s ↔ Enough s := by
  have hwaits : Waits s := h.invariant waits_init fun _ _ _ hs _ hstep => hs.step hstep
  constructor
  · intro hleaves
    obtain ⟨s', hreach, hexited⟩ := hleaves.exists_exited Finset.univ
    have hkeep : Waits s' ∧ (∀ w, s'.stoped w = true) ∧ (Enough s' ↔ Enough s) := by
      refine hreach.invariant (P := fun t => Waits t ∧ (∀ w, t.stoped w = true) ∧
        (Enough t ↔ Enough s)) ⟨hwaits, hstop, Iff.rfl⟩ ?_
      rintro t a t' ⟨ht, hstoped, hiff⟩ ha hstep
      exact ⟨ht.step hstep, stoped_step hstoped hstep,
        (balanced_of_step ht.locked hstoped ha hstep).enough_iff.trans hiff⟩
    exact hkeep.2.2.mp (enough_of_exited fun w => hexited w (Finset.mem_univ w))
  · intro henough s' hreach w
    have hend : Stopped s' :=
      hreach.invariant (P := Stopped) ⟨hwaits, hstop, henough⟩
        fun _ _ _ ht ha hstep => ht.step ha hstep
    exact (hend.canExit w).mono fun _ ha => noCall_of_unaided ha

end step

end Task
end Sunet
