/-
# The server on `SubEpollEvent`

The main thread runs `_event_loop`, which calls `_on_accept` and `_on_http_read`; the worker
threads take tasks from the queue and run `ReqTask::_run`.  A step of the system is one
system call of the main thread, one access of a worker to what the threads share, or an
action of a client.  Nothing orders the steps of different threads.

An `epoll_event` carries either a descriptor or a pointer in one union, so that `data.fd` of
an event that was armed with a response is the low half of an address.  `epoll_wait` may
report any events that the registrations ask for; the model does not say when an
edge-triggered event is repeated.
-/
import Sunet.Lib.Transition
import Sunet.Io.Socket
import Sunet.Io.Event

namespace Sunet
namespace Io
namespace Epoll

/-- `epoll_data`. -/
inductive EpollData
  | fd (n : ℕ)
  | ptr (a : ℕ)
deriving DecidableEq, Repr

/-- `data.fd`. -/
def EpollData.toFd : EpollData → ℕ
  | fd n => n
  | ptr a => a % 2 ^ 32

/-- The event types of a registration. -/
inductive Interest
  /-- `EPOLLIN | EPOLLET` -/
  | input
  /-- `EPOLLOUT` -/
  | output
deriving DecidableEq, Repr

/-- A registration of a descriptor. -/
structure Reg where
  events : Interest
  data : EpollData
deriving DecidableEq, Repr

/-- An event that `epoll_wait` reports, with the two bits that the loop tests. -/
structure Event where
  epollin : Bool
  epollout : Bool
  data : EpollData
deriving DecidableEq, Repr

/-- Where the main thread is. -/
inductive MainPc
  /-- At the head of the loop over the events, or of the outer loop if there are none. -/
  | loop
  /-- In `_on_accept`, before a call of `accept`. -/
  | accepting
  /-- In `_on_accept`, before `_event_add`. -/
  | adding (fd : ℕ)
  /-- In `_on_http_read`, before a call of `recv`: the chunks received so far, and the
  connection they were received from. -/
  | reading (fd : ℕ) (conn : Option ℕ) (chunks : List Bytes)
  /-- In `_on_http_read`, before `_add_task`. -/
  | queueing (task : ReqTaskData)
  /-- After `READ_FAIL`, before `_event_del`. -/
  | deleting (fd : ℕ)
  /-- After `_event_del`, before `close`. -/
  | closing (fd : ℕ)
  /-- Before a call of `send` with `n` bytes left of the response at an address. -/
  | writing (a n : ℕ)
  /-- Behind the loop over `send`, before `_event_mod` and `delete`. -/
  | rearming (a : ℕ)
deriving DecidableEq, Repr

/-- What `send` has accepted: the connection it went to, the response it is a part of, and
how many bytes. -/
structure Sent where
  conn : ℕ
  env : OutEnv
  nwrite : ℕ
deriving DecidableEq, Repr

/-- The state of the server. -/
structure State where
  net : Net
  /-- The registrations of the epoll instance. -/
  regs : ℕ → Option Reg
  /-- The events of the last `epoll_wait` that are still to be handled. -/
  batch : List Event
  main : MainPc
  /-- `_task_queue`. -/
  queue : List ReqTaskData
  /-- The tasks that workers have taken. -/
  running : List ReqTaskData
  /-- The responses on the heap. -/
  envs : ℕ → Option OutEnv
  /-- All responses that were produced. -/
  produced : List OutEnv
  /-- All that was sent. -/
  sent : List Sent

/-- The state after `_event_init`. -/
def init (svrFd : ℕ) : State where
  net := Net.init
  regs := Function.update (fun _ => none) svrFd (some ⟨.input, .fd svrFd⟩)
  batch := []
  main := .loop
  queue := []
  running := []
  envs := fun _ => none
  produced := []
  sent := []

/-! ## `epoll_ctl` -/

/-- `_event_add`: `EPOLL_CTL_ADD` fails for a descriptor that is registered. -/
def eventAdd (regs : ℕ → Option Reg) (fd : ℕ) : ℕ → Option Reg :=
  if regs fd = none then Function.update regs fd (some ⟨.input, .fd fd⟩) else regs

/-- `_event_mod`: `EPOLL_CTL_MOD` fails for a descriptor that is not registered. -/
def eventMod (regs : ℕ → Option Reg) (fd : ℕ) (reg : Reg) : ℕ → Option Reg :=
  if regs fd = none then regs else Function.update regs fd (some reg)

/-- `_event_del`. -/
def eventDel (regs : ℕ → Option Reg) (fd : ℕ) : ℕ → Option Reg := Function.update regs fd none

/-! ## The main thread -/

/-- What the main thread does, with the results of its system calls. -/
inductive MainAction
  /-- `epoll_wait` returns an event for each of these descriptors: `EPOLLIN`, `EPOLLOUT`. -/
  | epollWait (ready : List (ℕ × Bool × Bool))
  /-- The next event is looked at. -/
  | dispatch
  /-- `accept` returns a descriptor. -/
  | accept (n : ℕ)
  /-- `accept` returns -1. -/
  | acceptEnd
  | eventAdd
  /-- `recv` returns `len` bytes. -/
  | recv (len : ℕ)
  /-- `recv` returns 0 or -1. -/
  | recvEnd (last : RecvEnd)
  | addTask
  | eventDel
  | close
  /-- `send` returns a count, or -1. -/
  | send (nwrite : Option ℕ)
  | rearm
deriving DecidableEq, Repr

/-- The event that is reported for a descriptor. -/
def report (regs : ℕ → Option Reg) (ready : ℕ × Bool × Bool) : Option Event :=
  (regs ready.1).map fun reg => ⟨ready.2.1, ready.2.2, reg.data⟩

/-- The descriptor is registered for the events that are reported for it. -/
def canReport (svrFd : ℕ) (s : State) (ready : ℕ × Bool × Bool) : Bool :=
  match s.regs ready.1 with
  | none => false
  | some reg =>
    (!ready.2.1 || (reg.events == .input && s.net.readable svrFd ready.1)) &&
      (!ready.2.2 || reg.events == .output)

/-- The body of the loop over the events up to its first system call.  The source has the length
of a response in an `int`; below `2 ^ 31` bytes this is the number here, and `Sunet.Io.Sending` has
the model with the conversion. -/
def dispatch (svrFd : ℕ) (s : State) (ev : Event) (rest : List Event) : Option State :=
  let handlerFd := ev.data.toFd
  if handlerFd = svrFd then some { s with batch := rest, main := .accepting }
  else if ev.epollin then some { s with batch := rest, main := .reading handlerFd none [] }
  else if ev.epollout then
    match ev.data with
    -- a pointer that was never stored
    | .fd _ => none
    | .ptr a =>
      match s.envs a with
      -- a response that was deleted
      | none => none
      | some outEnv =>
        if outEnv.buf.length = 0 then
          some { s with
            batch := rest
            regs := eventMod s.regs handlerFd ⟨.input, .fd handlerFd⟩
            envs := Function.update s.envs a none }
        else some { s with batch := rest, main := .writing a outEnv.buf.length }
  else some { s with batch := rest }

/-- A step of the main thread. -/
def mainStep (svrFd : ℕ) (s : State) : MainAction → Option State
  | .epollWait ready =>
    if s.main = .loop ∧ s.batch = [] ∧ (ready.map Prod.fst).Nodup ∧
        ready.all (canReport svrFd s) then
      some { s with batch := ready.filterMap (report s.regs) }
    else none
  | .dispatch =>
    match s.main, s.batch with
    | .loop, ev :: rest => dispatch svrFd s ev rest
    | _, _ => none
  | .accept n =>
    match s.main with
    | .accepting =>
      (s.net.accept svrFd n).map fun net =>
        { s with net := net, main := if 0 < n then .adding n else .loop }
    | _ => none
  | .acceptEnd =>
    match s.main with
    | .accepting => some { s with main := .loop }
    | _ => none
  | .eventAdd =>
    match s.main with
    | .adding fd => some { s with regs := eventAdd s.regs fd, main := .accepting }
    | _ => none
  | .recv len =>
    match s.main with
    | .reading fd _ chunks =>
      (s.net.recv fd len).map fun r =>
        { s with net := r.2.2, main := .reading fd (some r.1) (chunks ++ [r.2.1]) }
    | _ => none
  | .recvEnd last =>
    match s.main with
    | .reading fd conn chunks =>
      if s.net.recvEnds fd last then
        match onHttpRead chunks last, conn with
        -- `_add_task` is a step of its own
        | some (.ok, some buf), some c => some { s with main := .queueing ⟨fd, buf, c⟩ }
        | some (.ok, none), _ => some { s with main := .loop }
        | some (.fail, _), _ => some { s with main := .deleting fd }
        | _, _ => none
      else none
    | _ => none
  | .addTask =>
    match s.main with
    | .queueing task => some { s with queue := s.queue ++ [task], main := .loop }
    | _ => none
  | .eventDel =>
    match s.main with
    | .deleting fd => some { s with regs := eventDel s.regs fd, main := .closing fd }
    | _ => none
  | .close =>
    match s.main with
    | .closing fd =>
      -- a descriptor that is closed leaves the epoll instance
      some { s with net := s.net.close fd, regs := eventDel s.regs fd, main := .loop }
    | _ => none
  | .send nwrite =>
    match s.main with
    | .writing a n =>
      match s.envs a, nwrite with
      | some _, none => some { s with main := .rearming a }
      | some outEnv, some k =>
        match s.net.fds outEnv.fd with
        | none => none
        | some c =>
          if k ≤ n then
            some { s with
              sent := s.sent ++ [⟨c, outEnv, k⟩]
              -- a short count ends the loop of `send` as an error does
              main := if k < n then .rearming a else if 0 < n - k then .writing a (n - k)
                else .rearming a }
          else none
      | none, _ => none
    | _ => none
  | .rearm =>
    match s.main with
    | .rearming a =>
      match s.envs a with
      | none => none
      | some outEnv =>
        some { s with
          regs := eventMod s.regs outEnv.fd ⟨.input, .fd outEnv.fd⟩
          envs := Function.update s.envs a none
          main := .loop }
    | _ => none

/-! ## The workers -/

/-- What a worker does. -/
inductive WorkerAction
  /-- `_get_task` returns the first task of the queue. -/
  | getTask
  /-- The end of `ReqTask::_run` for the task at a position among the running ones: the
  strategies have returned a body, the response is put at an address of the heap and armed. -/
  | run (i : ℕ) (httpBody : Bytes) (a : ℕ)
deriving DecidableEq, Repr

/-- A step of a worker.  The data of a task is not looked at, so that there are runs here in which
a worker answers a task whose data the source cannot parse; `Sunet.Task.Server` parses it. -/
def workerStep (s : State) : WorkerAction → Option State
  | .getTask =>
    match s.queue with
    | [] => none
    | task :: queue => some { s with queue := queue, running := s.running ++ [task] }
  | .run i httpBody a =>
    match s.running[i]?, s.envs a with
    | some task, none =>
      let outEnv := OutEnv.new task httpBody s.produced.length
      some { s with
        running := s.running.eraseIdx i
        envs := Function.update s.envs a (some outEnv)
        regs := eventMod s.regs task.fd ⟨.output, .ptr a⟩
        produced := s.produced ++ [outEnv] }
    | _, _ => none

/-! ## The system -/

/-- An action of one of the parties. -/
inductive Action
  | client (a : ClientAction)
  | main (a : MainAction)
  | worker (a : WorkerAction)

/-- A step of the system. -/
def step (svrFd : ℕ) (s : State) : Action → Option State
  | .client a => (s.net.client a).map fun net => { s with net := net }
  | .main a => mainStep svrFd s a
  | .worker a => workerStep s a

/-! ## Pieces of runs -/

/-- A client connects and is accepted under the number `fd`. -/
def connectRun (svrFd fd : ℕ) : List Action :=
  [.client .connect, .main (.epollWait [(svrFd, true, false)]), .main .dispatch,
    .main (.accept fd), .main .eventAdd, .main .acceptEnd]

/-- A client sends data, and the main thread reads it with one call of `recv`. -/
def requestRun (fd c : ℕ) (data : Bytes) : List Action :=
  [.client (.send c data), .main (.epollWait [(fd, true, false)]), .main .dispatch,
    .main (.recv data.length), .main (.recvEnd .again), .main .addTask]

/-- A client closes its end, and the main thread notices. -/
def closeRun (fd c : ℕ) : List Action :=
  [.client (.close c), .main (.epollWait [(fd, true, false)]), .main .dispatch,
    .main (.recvEnd .closed), .main .eventDel, .main .close]

/-- The main thread sends `n` bytes of the response that is armed for a descriptor. -/
def sendRun (fd n : ℕ) : List Action :=
  [.main (.epollWait [(fd, false, true)]), .main .dispatch, .main (.send (some n)), .main .rearm]

/-! ## Inversion -/

/-- The steps of the system, one constructor for each way in which a step can go. -/
inductive Next (svrFd : ℕ) (s : State) : Action → State → Prop
  | client {a : ClientAction} {net : Net} (hnet : s.net.client a = some net) :
      Next svrFd s (.client a) { s with net := net }
  | epollWait {ready : List (ℕ × Bool × Bool)} (hmain : s.main = .loop) (hbatch : s.batch = [])
      (hnodup : (ready.map Prod.fst).Nodup) (hready : ∀ r ∈ ready, canReport svrFd s r = true) :
      Next svrFd s (.main (.epollWait ready))
        { s with batch := ready.filterMap (report s.regs) }
  | dispatchAccept {ev : Event} {rest : List Event} (hmain : s.main = .loop)
      (hbatch : s.batch = ev :: rest) (hsvr : ev.data.toFd = svrFd) :
      Next svrFd s (.main .dispatch) { s with batch := rest, main := .accepting }
  | dispatchRead {ev : Event} {rest : List Event} (hmain : s.main = .loop)
      (hbatch : s.batch = ev :: rest) (hsvr : ev.data.toFd ≠ svrFd) (hin : ev.epollin = true) :
      Next svrFd s (.main .dispatch)
        { s with batch := rest, main := .reading ev.data.toFd none [] }
  | dispatchEmpty {ev : Event} {rest : List Event} {a : ℕ} {outEnv : OutEnv}
      (hmain : s.main = .loop) (hbatch : s.batch = ev :: rest) (hdata : ev.data = .ptr a)
      (henv : s.envs a = some outEnv) (hempty : outEnv.buf = []) :
      Next svrFd s (.main .dispatch) { s with
        batch := rest
        regs := eventMod s.regs ev.data.toFd ⟨.input, .fd ev.data.toFd⟩
        envs := Function.update s.envs a none }
  | dispatchWrite {ev : Event} {rest : List Event} {a : ℕ} {outEnv : OutEnv}
      (hmain : s.main = .loop) (hbatch : s.batch = ev :: rest) (hdata : ev.data = .ptr a)
      (henv : s.envs a = some outEnv) :
      Next svrFd s (.main .dispatch)
        { s with batch := rest, main := .writing a outEnv.buf.length }
  | dispatchSkip {ev : Event} {rest : List Event} (hmain : s.main = .loop)
      (hbatch : s.batch = ev :: rest) :
      Next svrFd s (.main .dispatch) { s with batch := rest }
  | accept {n : ℕ} {net : Net} (hmain : s.main = .accepting)
      (hnet : s.net.accept svrFd n = some net) :
      Next svrFd s (.main (.accept n))
        { s with net := net, main := if 0 < n then .adding n else .loop }
  | acceptEnd (hmain : s.main = .accepting) :
      Next svrFd s (.main .acceptEnd) { s with main := .loop }
  | eventAdd {fd : ℕ} (hmain : s.main = .adding fd) :
      Next svrFd s (.main .eventAdd) { s with regs := eventAdd s.regs fd, main := .accepting }
  | recv {fd len : ℕ} {conn : Option ℕ} {chunks : List Bytes} {c : ℕ} {chunk : Bytes} {net : Net}
      (hmain : s.main = .reading fd conn chunks)
      (hnet : s.net.recv fd len = some (c, chunk, net)) :
      Next svrFd s (.main (.recv len))
        { s with net := net, main := .reading fd (some c) (chunks ++ [chunk]) }
  | recvTask {fd c : ℕ} {chunks : List Bytes} {last : RecvEnd} {buf : Bytes}
      (hmain : s.main = .reading fd (some c) chunks)
      (hread : onHttpRead chunks last = some (.ok, some buf)) :
      Next svrFd s (.main (.recvEnd last)) { s with main := .queueing ⟨fd, buf, c⟩ }
  | recvNone {fd : ℕ} {conn : Option ℕ} {chunks : List Bytes} {last : RecvEnd}
      (hmain : s.main = .reading fd conn chunks)
      (hread : onHttpRead chunks last = some (.ok, none)) :
      Next svrFd s (.main (.recvEnd last)) { s with main := .loop }
  | recvFail {fd : ℕ} {conn : Option ℕ} {chunks : List Bytes} {last : RecvEnd}
      (hmain : s.main = .reading fd conn chunks) :
      Next svrFd s (.main (.recvEnd last)) { s with main := .deleting fd }
  | addTask {task : ReqTaskData} (hmain : s.main = .queueing task) :
      Next svrFd s (.main .addTask) { s with queue := s.queue ++ [task], main := .loop }
  | eventDel {fd : ℕ} (hmain : s.main = .deleting fd) :
      Next svrFd s (.main .eventDel) { s with regs := eventDel s.regs fd, main := .closing fd }
  | close {fd : ℕ} (hmain : s.main = .closing fd) :
      Next svrFd s (.main .close)
        { s with net := s.net.close fd, regs := eventDel s.regs fd, main := .loop }
  | sendFail {a n : ℕ} {outEnv : OutEnv} (hmain : s.main = .writing a n)
      (henv : s.envs a = some outEnv) :
      Next svrFd s (.main (.send none)) { s with main := .rearming a }
  | send {a n k c : ℕ} {outEnv : OutEnv} (hmain : s.main = .writing a n)
      (henv : s.envs a = some outEnv) (hfd : s.net.fds outEnv.fd = some c) (hk : k ≤ n) :
      Next svrFd s (.main (.send (some k))) { s with
        sent := s.sent ++ [⟨c, outEnv, k⟩]
        main := .rearming a }
  | rearm {a : ℕ} {outEnv : OutEnv} (hmain : s.main = .rearming a)
      (henv : s.envs a = some outEnv) :
      Next svrFd s (.main .rearm) { s with
        regs := eventMod s.regs outEnv.fd ⟨.input, .fd outEnv.fd⟩
        envs := Function.update s.envs a none
        main := .loop }
  | getTask {task : ReqTaskData} {queue : List ReqTaskData} (hqueue : s.queue = task :: queue) :
      Next svrFd s (.worker .getTask) { s with queue := queue, running := s.running ++ [task] }
  | run {i a : ℕ} {httpBody : Bytes} {task : ReqTaskData} (htask : s.running[i]? = some task)
      (henv : s.envs a = none) :
      Next svrFd s (.worker (.run i httpBody a)) { s with
        running := s.running.eraseIdx i
        envs := Function.update s.envs a (some (.new task httpBody s.produced.length))
        regs := eventMod s.regs task.fd ⟨.output, .ptr a⟩
        produced := s.produced ++ [.new task httpBody s.produced.length] }

lemma next_of_dispatch {svrFd : ℕ} {s s' : State} {ev : Event} {rest : List Event}
    (hmain : s.main = .loop) (hbatch : s.batch = ev :: rest)
    (h : dispatch svrFd s ev rest = some s') : Next svrFd s (.main .dispatch) s' := by
  simp only [dispatch] at h
  split at h
  · next hsvr =>
    cases h
    exact .dispatchAccept hmain hbatch hsvr
  · next hsvr =>
    split at h
    · next hin =>
      cases h
      exact .dispatchRead hmain hbatch hsvr hin
    · split at h
      · split at h
        · cases h
        · next a hdata =>
          split at h
          · cases h
          · next outEnv henv =>
            split at h
            · next hempty =>
              cases h
              exact .dispatchEmpty hmain hbatch hdata henv (List.length_eq_zero_iff.mp hempty)
            · cases h
              exact .dispatchWrite hmain hbatch hdata henv
      · cases h
        exact .dispatchSkip hmain hbatch

lemma next_of_mainStep {svrFd : ℕ} {s s' : State} {a : MainAction}
    (h : mainStep svrFd s a = some s') : Next svrFd s (.main a) s' := by
  cases a with
  | epollWait ready =>
    simp only [mainStep] at h
    split at h
    · next hguard =>
      cases h
      obtain ⟨hmain, hbatch, hnodup, hready⟩ := hguard
      exact .epollWait hmain hbatch hnodup (List.all_eq_true.mp hready)
    · cases h
  | dispatch =>
    simp only [mainStep] at h
    split at h
    · next ev rest hmain hbatch => exact next_of_dispatch hmain hbatch h
    · cases h
  | accept n =>
    simp only [mainStep] at h
    split at h
    · next hmain =>
      obtain ⟨net, hnet, rfl⟩ := Option.map_eq_some_iff.mp h
      exact .accept hmain hnet
    · cases h
  | acceptEnd =>
    simp only [mainStep] at h
    split at h
    · next hmain =>
      cases h
      exact .acceptEnd hmain
    · cases h
  | eventAdd =>
    simp only [mainStep] at h
    split at h
    · next fd hmain =>
      cases h
      exact .eventAdd hmain
    · cases h
  | recv len =>
    simp only [mainStep] at h
    split at h
    · next fd conn chunks hmain =>
      obtain ⟨r, hnet, rfl⟩ := Option.map_eq_some_iff.mp h
      exact .recv hmain hnet
    · cases h
  | recvEnd last =>
    simp only [mainStep] at h
    split at h
    · next fd conn chunks hmain =>
      split at h
      · split at h
        · next buf c hread =>
          cases h
          exact .recvTask hmain hread
        · next hread =>
          cases h
          exact .recvNone hmain hread
        · cases h
          exact .recvFail hmain
        · cases h
      · cases h
    · cases h
  | addTask =>
    simp only [mainStep] at h
    split at h
    · next task hmain =>
      cases h
      exact .addTask hmain
    · cases h
  | eventDel =>
    simp only [mainStep] at h
    split at h
    · next fd hmain =>
      cases h
      exact .eventDel hmain
    · cases h
  | close =>
    simp only [mainStep] at h
    split at h
    · next fd hmain =>
      cases h
      exact .close hmain
    · cases h
  | send nwrite =>
    simp only [mainStep] at h
    split at h
    · next a n hmain =>
      split at h
      · next henv =>
        cases h
        exact .sendFail hmain henv
      · next outEnv k henv =>
        split at h
        · cases h
        · next c hfd =>
          split at h
          · next hk =>
            cases h
            -- behind a call that takes all the bytes the loop ends as well
            have hmain' : (if k < n then MainPc.rearming a
                else if 0 < n - k then .writing a (n - k) else .rearming a) = .rearming a := by
              split
              · rfl
              · rw [if_neg (by omega)]
            rw [hmain']
            exact .send hmain henv hfd hk
          · cases h
      · cases h
    · cases h
  | rearm =>
    simp only [mainStep] at h
    split at h
    · next a hmain =>
      split at h
      · cases h
      · next outEnv henv =>
        cases h
        exact .rearm hmain henv
    · cases h

/-- **Inversion of a step.** -/
theorem next_of_step {svrFd : ℕ} {s s' : State} {a : Action} (h : step svrFd s a = some s') :
    Next svrFd s a s' := by
  cases a with
  | client a =>
    obtain ⟨net, hnet, rfl⟩ := Option.map_eq_some_iff.mp h
    exact .client hnet
  | main a => exact next_of_mainStep h
  | worker a =>
    cases a with
    | getTask =>
      simp only [step, workerStep] at h
      split at h
      · cases h
      · next task queue hqueue =>
        cases h
        exact .getTask hqueue
    | run i httpBody a =>
      simp only [step, workerStep] at h
      split at h
      · next task htask henv =>
        cases h
        exact .run htask henv
      · cases h

end Epoll
end Io
end Sunet
