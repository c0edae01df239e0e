/-
# The server on `SubSelectEvent`

The main thread runs `_event_loop` of the select back-end, with the same callbacks and the
same workers as the epoll back-end.  A worker that has a response calls `_event_add` for
writing, and nothing else; the loop takes responses from `SubEventQueue`, into which nothing
puts them.  The main result is `nothing_sent`: in no run is anything ever sent.

As in the model of the epoll back-end a step is one system call of the main thread, one
access of a worker to what the threads share, or an action of a client.  `select` may report
any descriptors of the copied sets that are ready.  An `fd_set` has room for the numbers below
`FD_SETSIZE`, and `FD_SET` of another number is undefined: there is no step.
-/
import Sunet.Lib.Transition
import Sunet.Io.Socket
import Sunet.Io.Event

namespace Sunet
namespace Io
namespace Select

/-- `FD_SETSIZE`. -/
abbrev fdSetSize : ℕ := 1024

/-- An `fd_set`, which has room for the numbers below `FD_SETSIZE`. -/
abbrev FdSet := ℕ → Bool

/-- `FD_SET` of a number that there is room for. -/
def fdSet (set : FdSet) (fd : ℕ) : FdSet := Function.update set fd true

/-- `FD_CLR`. -/
def fdClr (set : FdSet) (fd : ℕ) : FdSet := Function.update set fd false

/-- `FD_ZERO`. -/
def fdZero : FdSet := fun _ => false

/-- Where the main thread is. -/
inductive MainPc
  /-- At the head of the outer loop. -/
  | loop
  /-- Before the call of `select`, with the sets copied. -/
  | waiting
  /-- Behind a call of `select` that has reported descriptors. -/
  | selected
  /-- In `_on_accept`, before a call of `accept`; the greatest number so far. -/
  | accepting (mxSock : Option ℕ)
  /-- In `_on_accept`, before `_event_add`. -/
  | adding (fd : ℕ) (mxSock : Option ℕ)
  /-- At the head of the loop over `_clt_sock_vec`. -/
  | scanning (i : ℕ)
  /-- In `_on_http_read`, before a call of `recv`: the chunks received so far, and the
  connection they were received from. -/
  | reading (i fd : ℕ) (conn : Option ℕ) (chunks : List Bytes)
  /-- In `_on_http_read`, before `_add_task`. -/
  | queueing (i : ℕ) (task : ReqTaskData)
  /-- Behind `_on_http_read`. -/
  | returned (i fd : ℕ) (ret : ReadRet)
  /-- Before the responses of a descriptor are looked up. -/
  | writing (i fd : ℕ)
deriving DecidableEq, Repr

/-- What `send` has accepted, and the connection it went to. -/
structure Sent where
  conn : ℕ
  data : Bytes
deriving DecidableEq, Repr

/-- The state of the server. -/
structure State where
  net : Net
  /-- `_read_set`. -/
  readSet : FdSet
  /-- `_write_set`. -/
  writeSet : FdSet
  /-- `_copy_read_set`. -/
  copyReadSet : FdSet
  /-- `_copy_write_set`. -/
  copyWriteSet : FdSet
  /-- `_clt_sock_vec`. -/
  cltSockVec : List ℕ
  /-- `_max_sock_fd`. -/
  maxSockFd : ℕ
  main : MainPc
  /-- `_task_queue`. -/
  queue : List ReqTaskData
  /-- The tasks that workers have taken. -/
  running : List ReqTaskData
  /-- The instance of `SubEventQueue`. -/
  evtQueue : EventQueue
  /-- All responses that were produced. -/
  produced : List OutEnv
  /-- All that was sent. -/
  sent : List Sent

/-- `_event_add(fd, EVT_READ)`, for a number that an `fd_set` has room for. -/
def eventAddRead (s : State) (fd : ℕ) : State :=
  { s with readSet := fdSet s.readSet fd, cltSockVec := s.cltSockVec ++ [fd] }

/-- `_event_add(fd, EVT_WRITE)`, for a number that an `fd_set` has room for. -/
def eventAddWrite (s : State) (fd : ℕ) : State := { s with writeSet := fdSet s.writeSet fd }

/-- The state after `_event_init`. -/
def init (svrFd : ℕ) : State :=
  eventAddRead
    { net := Net.init
      readSet := fdZero
      writeSet := fdZero
      copyReadSet := fdZero
      copyWriteSet := fdZero
      cltSockVec := []
      maxSockFd := svrFd
      main := .loop
      queue := []
      running := []
      evtQueue := fun _ => none
      produced := []
      sent := [] }
    svrFd

/-! ## The main thread -/

/-- What the main thread does, with the results of its system calls. -/
inductive MainAction
  /-- The sets are copied. -/
  | copySets
  /-- `select` returns with these descriptors in the sets for reading and writing. -/
  | select (readable writable : List ℕ)
  /-- `select` returns 0 or -1. -/
  | selectNone
  /-- The test of the listening socket. -/
  | dispatch
  /-- `accept` returns a descriptor. -/
  | accept (n : ℕ)
  /-- `accept` returns -1. -/
  | acceptEnd
  | eventAdd
  /-- A round of the loop over `_clt_sock_vec`, up to its first call. -/
  | scan
  /-- `recv` returns `len` bytes. -/
  | recv (len : ℕ)
  /-- `recv` returns 0 or -1. -/
  | recvEnd (last : RecvEnd)
  | addTask
  /-- What follows the read callback. -/
  | afterRead
  /-- The responses are looked up, and the first one is sent: `send` returns a count, or -1. -/
  | write (nwrite : Option ℕ)
deriving DecidableEq, Repr

/-- `select` can report the descriptor as readable. -/
def canRead (svrFd : ℕ) (s : State) (fd : ℕ) : Bool :=
  decide (fd ≤ s.maxSockFd) && s.copyReadSet fd && s.net.readable svrFd fd

/-- `select` can report the descriptor as writable. -/
def canWrite (s : State) (fd : ℕ) : Bool :=
  decide (fd ≤ s.maxSockFd) && s.copyWriteSet fd && (s.net.fds fd).isSome

/-- The set of some descriptors. -/
def ofList (fds : List ℕ) : FdSet := fun fd => fds.contains fd

/-- The descriptor is closed and leaves `_clt_sock_vec`, and the loop goes on behind it. -/
def drop (s : State) (i fd : ℕ) : State :=
  { s with net := s.net.close fd, cltSockVec := s.cltSockVec.eraseIdx i, main := .scanning (i + 1) }

/-- A round of the loop over `_clt_sock_vec`, up to its first call. -/
def scan (svrFd : ℕ) (s : State) (i : ℕ) : State :=
  match s.cltSockVec[i]? with
  | none => { s with main := .loop }
  | some fd =>
    if fd = svrFd then { s with main := .scanning (i + 1) }
    -- a descriptor that is readable and writable is only read
    else if s.copyReadSet fd then { s with main := .reading i fd none [] }
    else if s.copyWriteSet fd then { s with main := .writing i fd }
    else { s with main := .scanning (i + 1) }

/-- `sizeof(write_buf)`, the size of a pointer. -/
def writeBufSize : ℕ := 8

/-- The branch of the loop for a writable descriptor; `none` where `send` would read behind
the end of the buffer, for a descriptor that is not open, and for one that an `fd_set` has no room
for. -/
def write (s : State) (i fd : ℕ) (nwrite : Option ℕ) : Option State :=
  match s.evtQueue.getEvtData fd with
  | [] => some (drop { s with writeSet := fdClr s.writeSet fd, readSet := fdClr s.readSet fd } i fd)
  | writeBuf :: _ =>
    match nwrite, s.net.fds fd with
    | some k, some c =>
      if 0 < k then
        -- `send` is given `sizeof(write_buf)` bytes, whatever the length of the response
        if k ≤ writeBufSize ∧ writeBufSize ≤ writeBuf.length ∧ fd < fdSetSize then
          some (eventAddRead
            { s with sent := s.sent ++ [⟨c, writeBuf.take k⟩], main := .scanning (i + 1) } fd)
        else none
      else some (drop { s with readSet := fdClr s.readSet fd } i fd)
    | none, _ => some (drop { s with readSet := fdClr s.readSet fd } i fd)
    | some _, none => none

/-- A step of the main thread. -/
def mainStep (svrFd : ℕ) (s : State) : MainAction → Option State
  | .copySets =>
    match s.main with
    | .loop => some { s with
        copyReadSet := s.readSet, copyWriteSet := s.writeSet, main := .waiting }
    | _ => none
  | .select readable writable =>
    if s.main = .waiting ∧ (readable ≠ [] ∨ writable ≠ []) ∧
        readable.all (canRead svrFd s) ∧ writable.all (canWrite s) then
      some { s with
        copyReadSet := ofList readable, copyWriteSet := ofList writable, main := .selected }
    else none
  | .selectNone =>
    match s.main with
    | .waiting => some { s with main := .loop }
    | _ => none
  | .dispatch =>
    match s.main with
    | .selected => some { s with
        main := if s.copyReadSet svrFd then .accepting none else .scanning 0 }
    | _ => none
  | .accept n =>
    match s.main with
    | .accepting mxSock =>
      (s.net.accept svrFd n).map fun net =>
        if 0 < n then { s with net := net, main := .adding n mxSock }
        else
          -- the loop of `_on_accept` ends at the number 0
          { s with
            net := net
            maxSockFd := max s.maxSockFd (mxSock.getD 0)
            main := .scanning 0 }
    | _ => none
  | .acceptEnd =>
    match s.main with
    | .accepting mxSock => some { s with
        maxSockFd := max s.maxSockFd (mxSock.getD 0), main := .scanning 0 }
    | _ => none
  | .eventAdd =>
    match s.main with
    | .adding fd mxSock =>
      -- `FD_SET` would write outside the `fd_set`
      if fdSetSize ≤ fd then none
      else some (eventAddRead { s with main := .accepting (some (max fd (mxSock.getD 0))) } fd)
    | _ => none
  | .scan =>
    match s.main with
    | .scanning i => some (scan svrFd s i)
    | _ => none
  | .recv len =>
    match s.main with
    | .reading i fd _ chunks =>
      (s.net.recv fd len).map fun r =>
        { s with net := r.2.2, main := .reading i fd (some r.1) (chunks ++ [r.2.1]) }
    | _ => none
  | .recvEnd last =>
    match s.main with
    | .reading i fd conn chunks =>
      if s.net.recvEnds fd last then
        match onHttpRead chunks last, conn with
        | some (.ok, some buf), some c => some { s with main := .queueing i ⟨fd, buf, c⟩ }
        | some (.ok, none), _ => some { s with main := .returned i fd .ok }
        | some (.fail, _), _ => some { s with main := .returned i fd .fail }
        | _, _ => none
      else none
    | _ => none
  | .addTask =>
    match s.main with
    | .queueing i task => some { s with
        queue := s.queue ++ [task], main := .returned i task.fd .ok }
    | _ => none
  | .afterRead =>
    match s.main with
    | .returned i fd .ok => some { s with
        readSet := fdClr s.readSet fd, main := .scanning (i + 1) }
    | .returned i fd .fail => some (drop { s with
        readSet := fdClr s.readSet fd, writeSet := fdClr s.writeSet fd } i fd)
    | _ => none
  | .write nwrite =>
    match s.main with
    | .writing i fd => write s i fd nwrite
    | _ => none

/-! ## The workers -/

/-- What a worker does. -/
inductive WorkerAction
  /-- `_get_task` returns the first task of the queue. -/
  | getTask
  /-- The end of `ReqTask::_run` for the task at a position among the running ones: the
  strategies have returned a body. -/
  | run (i : ℕ) (httpBody : Bytes)
deriving DecidableEq, Repr

/-- A step of a worker.  The response is built and then left behind: `_run` hands it to
`_event_mod` for the epoll back-end only. -/
def workerStep (s : State) : WorkerAction → Option State
  | .getTask =>
    match s.queue with
    | [] => none
    | task :: queue => some { s with queue := queue, running := s.running ++ [task] }
  | .run i httpBody =>
    match s.running[i]? with
    | some task =>
      let outEnv := OutEnv.new task httpBody s.produced.length
      if fdSetSize ≤ task.fd then none
      else some (eventAddWrite
        { s with running := s.running.eraseIdx i, produced := s.produced ++ [outEnv] } task.fd)
    | none => none

/-! ## The system -/

/-- An action of one of the parties. -/
inductive Action
  | client (a : ClientAction)
  | main (a : MainAction)
  | worker (a : WorkerAction)

/-- A step of the system. -/
def step (svrFd : ℕ) (s : State) : Action → Option State
  | .client a => (s.net.client a).map fun net => { s with net := net }
  | .main a => mainStep svrFd s a
  | .worker a => workerStep s a

/-! ## Nothing is sent -/

/-- No response waits in `SubEventQueue`, and nothing has been sent. -/
structure Silent (s : State) : Prop where
  evtQueue_eq : s.evtQueue = fun _ => none
  sent_eq : s.sent = []

lemma silent_init (svrFd : ℕ) : Silent (init svrFd) := ⟨rfl, rfl⟩

/-- The loop finds no response for a descriptor, and closes it. -/
lemma Silent.write_eq {s : State} (h : Silent s) (i fd : ℕ) (nwrite : Option ℕ) :
    write s i fd nwrite =
      some (drop { s with
        writeSet := fdClr s.writeSet fd, readSet := fdClr s.readSet fd } i fd) := by
  rw [write, EventQueue.getEvtData, h.evtQueue_eq]
  rfl

lemma Silent.scan {s : State} (h : Silent s) (svrFd i : ℕ) : Silent (scan svrFd s i) := by
  rw [Select.scan]
  split
  · exact ⟨h.evtQueue_eq, h.sent_eq⟩
  · split_ifs
    · exact ⟨h.evtQueue_eq, h.sent_eq⟩
    · exact ⟨h.evtQueue_eq, h.sent_eq⟩
    · exact ⟨h.evtQueue_eq, h.sent_eq⟩
    · exact ⟨h.evtQueue_eq, h.sent_eq⟩

/-- The callbacks and the calls of the loop put nothing into `SubEventQueue`. -/
lemma Silent.mainStep {svrFd : ℕ} {s s' : State} {a : MainAction} (h : Silent s)
    (hstep : mainStep svrFd s a = some s') : Silent s' := by
  cases a with
  | scan =>
    simp only [Select.mainStep] at hstep
    split at hstep
    · next i hmain =>
      cases hstep
      exact h.scan svrFd i
    · cases hstep
  | write nwrite =>
    simp only [Select.mainStep] at hstep
    split at hstep
    · next i fd hmain =>
      -- no response is found, so the descriptor is closed
      rw [h.write_eq] at hstep
      cases hstep
      exact ⟨h.evtQueue_eq, h.sent_eq⟩
    · cases hstep
  | accept n =>
    simp only [Select.mainStep] at hstep
    split at hstep
    · obtain ⟨net, -, rfl⟩ := Option.map_eq_some_iff.mp hstep
      split
      · exact ⟨h.evtQueue_eq, h.sent_eq⟩
      · exact ⟨h.evtQueue_eq, h.sent_eq⟩
    · cases hstep
  | recv len =>
    simp only [Select.mainStep] at hstep
    split at hstep
    · obtain ⟨r, -, rfl⟩ := Option.map_eq_some_iff.mp hstep
      exact ⟨h.evtQueue_eq, h.sent_eq⟩
    · cases hstep
  | recvEnd last =>
    simp only [Select.mainStep] at hstep
    split at hstep
    · split at hstep
      · split at hstep
        · cases hstep
          exact ⟨h.evtQueue_eq, h.sent_eq⟩
        · cases hstep
          exact ⟨h.evtQueue_eq, h.sent_eq⟩
        · cases hstep
          exact ⟨h.evtQueue_eq, h.sent_eq⟩
        · cases hstep
      · cases hstep
    · cases hstep
  | eventAdd =>
    simp only [Select.mainStep] at hstep
    split at hstep
    · split at hstep
      · cases hstep
      · cases hstep
        exact ⟨h.evtQueue_eq, h.sent_eq⟩
    · cases hstep
  | copySets | select _ _ | selectNone | dispatch | acceptEnd | addTask =>
    simp only [Select.mainStep] at hstep
    split at hstep
    · cases hstep
      exact ⟨h.evtQueue_eq, h.sent_eq⟩
    · cases hstep
  | afterRead =>
    simp only [Select.mainStep] at hstep
    split at hstep
    · cases hstep
      exact ⟨h.evtQueue_eq, h.sent_eq⟩
    · cases hstep
      exact ⟨h.evtQueue_eq, h.sent_eq⟩
    · cases hstep

/-- A worker leaves its response behind. -/
lemma Silent.workerStep {s s' : State} {a : WorkerAction} (h : Silent s)
    (hstep : workerStep s a = some s') : Silent s' := by
  cases a with
  | getTask =>
    simp only [Select.workerStep] at hstep
    split at hstep
    · cases hstep
    · cases hstep
      exact ⟨h.evtQueue_eq, h.sent_eq⟩
  | run i httpBody =>
    simp only [Select.workerStep] at hstep
    split at hstep
    · split at hstep
      · cases hstep
      · cases hstep
        exact ⟨h.evtQueue_eq, h.sent_eq⟩
    · cases hstep

lemma Silent.step {svrFd : ℕ} {s s' : State} {a : Action} (h : Silent s)
    (hstep : step svrFd s a = some s') : Silent s' := by
  cases a with
  | client a =>
    obtain ⟨net, -, rfl⟩ := Option.map_eq_some_iff.mp hstep
    exact ⟨h.evtQueue_eq, h.sent_eq⟩
  | main a => exact h.mainStep hstep
  | worker a => exact h.workerStep hstep

/-- **The select back-end never sends anything.** -/
theorem nothing_sent {svrFd : ℕ} {s : State}
    (h : Transition.Reachable (step svrFd) (init svrFd) s) : s.sent = [] := by
  have hsilent : Silent s :=
    h.invariant (silent_init svrFd) fun _ _ _ hs _ hstep => hs.step hstep
  exact hsilent.sent_eq

end Select
end Io
end Sunet
