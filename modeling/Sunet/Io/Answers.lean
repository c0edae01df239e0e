/-
# The answers of the two back-ends

What a client gets back is compared for the two event loops: a client connects, sends a
request and stays connected, the strategies return a text, and both servers run until nothing
is left to do, in any interleaving.  The epoll back-end can send the response that
`SUB_EPOLL_OUT_ENV` builds; the select back-end never sends anything.
-/
import Sunet.Io.Epoll
import Sunet.Io.Select

namespace Sunet
namespace Io

open Transition Byte

/-- A server as its clients and its strategies see it. -/
structure Backend where
  State : Type
  Action : Type
  init : State
  step : State → Action → Option State
  /-- What a client does in a step. -/
  client : Action → Option ClientAction
  /-- What the strategies have returned for the task that a worker ends. -/
  result : Action → Option Bytes
  /-- Nothing is left to do. -/
  Settled : State → Prop
  /-- The bytes that have been sent back on a connection. -/
  answer : State → ℕ → Bytes

/-- In some run a client connects, sends `data` and stays connected, the strategies return
`body`, and when nothing is left to do `bytes` have been sent back to it. -/
def Backend.Answers (B : Backend) (data body bytes : Bytes) : Prop :=
  ∃ (as : List B.Action) (s : B.State), run B.step B.init as = some s ∧
    as.filterMap B.client = [.connect, .send 0 data] ∧
    (∀ x ∈ as.filterMap B.result, x = body) ∧ B.Settled s ∧ B.answer s 0 = bytes

/-! ## Reading a request -/

section reading

variable {σ α : Type} {step : σ → α → Option σ} {recv : ℕ → α}
  {reading : Net → Option ℕ → List Bytes → σ} {fd c : ℕ}

/-- A server that collects the chunks of a connection collects all that `recv` returns. -/
lemma run_receives
    (hstep : ∀ net conn pre len chunk net₁, net.recv fd len = some (c, chunk, net₁) →
      step (reading net conn pre) (recv len) = some (reading net₁ (some c) (pre ++ [chunk])))
    {net net' : Net} {chunks : List Bytes} (h : Net.Receives fd c net chunks net') :
    ∀ (conn : Option ℕ) (pre : List Bytes), ∃ lens : List ℕ,
      run step (reading net conn pre) (lens.map recv) =
        some (reading net' (if chunks = [] then conn else some c) (pre ++ chunks)) := by
  induction h with
  | nil net =>
    intro conn pre
    refine ⟨[], ?_⟩
    rw [if_pos rfl, List.append_nil]
    rfl
  | @cons net net₁ net₂ len chunk chunks hrecv _ ih =>
    intro conn pre
    obtain ⟨lens, hlens⟩ := ih (some c) (pre ++ [chunk])
    refine ⟨len :: lens, ?_⟩
    rw [List.map_cons, run_cons (hstep _ conn pre _ _ _ hrecv), hlens, ite_self,
      if_neg (List.cons_ne_nil _ _), List.append_assoc, List.singleton_append]

/-- It can read all that has arrived, and the batch makes a task of it. -/
lemma exists_run_recv
    (hstep : ∀ net conn pre len chunk net₁, net.recv fd len = some (c, chunk, net₁) →
      step (reading net conn pre) (recv len) = some (reading net₁ (some c) (pre ++ [chunk])))
    (net : Net) (hfd : net.fds fd = some c) (hne : net.inbox c ≠ []) :
    ∃ (lens : List ℕ) (chunks : List Bytes),
      run step (reading net none []) (lens.map recv) =
        some (reading { net with inbox := Function.update net.inbox c [] } (some c) chunks) ∧
      onHttpRead chunks .again = some (.ok, some (net.inbox c ++ [nul])) := by
  obtain ⟨chunks, hrecv, hflat, hchunks⟩ := Net.exists_receives _ net le_rfl hfd
  have hchunksNe : chunks ≠ [] := by
    rintro rfl
    exact hne hflat.symm
  obtain ⟨lens, hlens⟩ := run_receives hstep hrecv none []
  rw [if_neg hchunksNe, List.nil_append] at hlens
  refine ⟨lens, chunks, hlens, ?_⟩
  rw [onHttpRead_again hchunks hchunksNe, hflat]

end reading

/-! ## The epoll back-end -/

namespace Epoll

def clientOf : Action → Option ClientAction
  | .client a => some a
  | _ => none

def resultOf : Action → Option Bytes
  | .worker (.run _ httpBody _) => some httpBody
  | _ => none

/-- Nothing is left to do: all is accepted, read, run and sent. -/
structure Settled (s : State) : Prop where
  main_eq : s.main = .loop
  batch_eq : s.batch = []
  queue_eq : s.queue = []
  running_eq : s.running = []
  backlog_eq : s.net.backlog = []
  inbox_eq : ∀ c, s.net.inbox c = []
  events_eq : ∀ fd, ∀ reg ∈ s.regs fd, reg.events = .input

/-- The bytes that `send` has accepted for a connection. -/
def answer (s : State) (c : ℕ) : Bytes :=
  (s.sent.filter fun x => x.conn = c).flatMap fun x => x.env.buf.take x.nwrite

/-- The server on `SubEpollEvent`. -/
def backend (svrFd : ℕ) : Backend where
  State := State
  Action := Action
  init := init svrFd
  step := step svrFd
  client := clientOf
  result := resultOf
  Settled := Settled
  answer := answer

/-- The state after a client has been accepted as the descriptor 5. -/
def accepted : State :=
  { init 3 with
    net := { Net.init with nextConn := 1, fds := Function.update (fun _ => none) 5 (some 0) }
    regs := eventAdd (init 3).regs 5 }

lemma run_connectRun : run (step 3) (init 3) (connectRun 3 5) = some accepted := rfl

/-- The request of the run. -/
def request (data : Bytes) : ReqTaskData := ⟨5, data ++ [nul], 0⟩

/-- The state with the request in the queue. -/
def queued (data : Bytes) : State :=
  { accepted with
    net := { accepted.net with
      inbox := Function.update (Function.update accepted.net.inbox 0 data) 0 [] }
    queue := [request data] }

/-- A request is sent, read in pieces and queued. -/
def readRun (data : Bytes) (lens : List ℕ) : List Action :=
  [.client (.send 0 data), .main (.epollWait [(5, true, false)]), .main .dispatch] ++
    (lens.map fun len => .main (.recv len)) ++ [.main (.recvEnd .again), .main .addTask]

lemma run_readRun {data : Bytes} (hne : data ≠ []) : ∃ lens : List ℕ,
    run (step 3) accepted (readRun data lens) = some (queued data) := by
  let net : Net := { accepted.net with inbox := Function.update accepted.net.inbox 0 data }
  have hinbox : net.inbox 0 = data := rfl
  have hstep : ∀ (net : Net) conn pre len chunk net₁, net.recv 5 len = some (0, chunk, net₁) →
      step 3 { accepted with net := net, main := .reading 5 conn pre } (.main (.recv len)) =
        some { accepted with net := net₁, main := .reading 5 (some 0) (pre ++ [chunk]) } := by
    intro net conn pre len chunk net₁ hrecv
    simp only [step, mainStep, hrecv, Option.map_some]
  obtain ⟨lens, chunks, hlens, hread⟩ := exists_run_recv hstep net rfl (by rwa [hinbox])
  rw [hinbox] at hread
  refine ⟨lens, ?_⟩
  obtain ⟨b, rest, rfl⟩ := List.exists_cons_of_ne_nil hne
  have hstart : run (step 3) accepted [.client (.send 0 (b :: rest)),
      .main (.epollWait [(5, true, false)]), .main .dispatch] =
      some { accepted with net := net, main := .reading 5 none [] } := rfl
  rw [readRun, List.append_assoc, run_append hstart, run_append hlens]
  rw [run_cons (t := { queued (b :: rest) with
    queue := [], main := .queueing (request (b :: rest)) })]
  · rfl
  · -- the inbox is empty now, so the batch ends and its text is queued
    simp only [step, mainStep]
    rw [if_pos (show Net.recvEnds _ 5 .again = true from rfl), hread]
    rfl

/-- The response of the run. -/
def response (data body : Bytes) : OutEnv := OutEnv.new (request data) body 0

/-- The state with the response armed at the address 0. -/
def armed (data body : Bytes) : State :=
  { queued data with
    queue := []
    envs := Function.update (queued data).envs 0 (some (response data body))
    regs := eventMod (queued data).regs 5 ⟨.output, .ptr 0⟩
    produced := [response data body] }

/-- A worker takes the task and stores the response at the address 0. -/
def workerRun (body : Bytes) : List Action := [.worker .getTask, .worker (.run 0 body 0)]

lemma run_workerRun (data body : Bytes) :
    run (step 3) (queued data) (workerRun body) = some (armed data body) := rfl

/-- The state after the response has been sent. -/
def answered (data body : Bytes) : State :=
  { armed data body with
    envs := Function.update (armed data body).envs 0 none
    regs := eventMod (armed data body).regs 5 ⟨.input, .fd 5⟩
    sent := [⟨0, response data body, (response data body).buf.length⟩] }

/-- The event of an armed response leads to the call of `send`. -/
lemma step_dispatch {svrFd a : ℕ} {s : State} {outEnv : OutEnv} {rest : List Event}
    (hmain : s.main = .loop) (hbatch : s.batch = ⟨false, true, .ptr a⟩ :: rest)
    (hsvr : a % 2 ^ 32 ≠ svrFd) (henv : s.envs a = some outEnv) (hne : outEnv.buf ≠ []) :
    step svrFd s (.main .dispatch) =
      some { s with batch := rest, main := .writing a outEnv.buf.length } := by
  have hlen : outEnv.buf.length ≠ 0 := List.length_eq_zero_iff.not.mpr hne
  simp only [step, mainStep, hmain, hbatch, dispatch, EpollData.toFd, if_neg hsvr,
    Bool.false_eq_true, if_false, if_true, henv, if_neg hlen]

/-- `send` takes all the bytes that are left. -/
lemma step_send {svrFd a n c : ℕ} {s : State} {outEnv : OutEnv} (hmain : s.main = .writing a n)
    (henv : s.envs a = some outEnv) (hfd : s.net.fds outEnv.fd = some c) :
    step svrFd s (.main (.send (some n))) =
      some { s with sent := s.sent ++ [⟨c, outEnv, n⟩], main := .rearming a } := by
  simp only [step, mainStep, hmain, henv, hfd, le_refl, if_true, lt_irrefl, if_false,
    Nat.sub_self]

lemma run_send (data body : Bytes) :
    run (step 3) (armed data body) (sendRun 5 (response data body).buf.length) =
      some (answered data body) := by
  have hne : (response data body).buf ≠ [] := OutEnv.new_buf_ne_nil _ _ _
  have hdispatch : step 3 { armed data body with batch := [⟨false, true, .ptr 0⟩] }
      (.main .dispatch) =
      some { armed data body with main := .writing 0 (response data body).buf.length } :=
    step_dispatch (a := 0) rfl rfl (by decide) rfl hne
  rw [sendRun, run_cons (t := { armed data body with batch := [⟨false, true, .ptr 0⟩] }) rfl,
    run_cons hdispatch, run_cons (step_send rfl rfl rfl)]
  rfl

lemma settled_answered (data body : Bytes) : Settled (answered data body) where
  main_eq := rfl
  batch_eq := rfl
  queue_eq := rfl
  running_eq := rfl
  backlog_eq := rfl
  inbox_eq := by
    intro c
    show Function.update (Function.update accepted.net.inbox 0 data) 0 [] c = []
    by_cases hc : c = 0
    · rw [hc, Function.update_self]
    · rw [Function.update_of_ne hc, Function.update_of_ne hc]
      rfl
  events_eq := by
    intro fd reg hreg
    have hregs : (answered data body).regs fd = if fd = 5 then some ⟨.input, .fd 5⟩ else
        (init 3).regs fd := by
      by_cases hfd : fd = 5
      · rw [if_pos hfd, hfd]
        rfl
      · rw [if_neg hfd]
        change Function.update (Function.update (Function.update (init 3).regs 5 _) 5 _) 5 _ fd = _
        rw [Function.update_of_ne hfd, Function.update_of_ne hfd, Function.update_of_ne hfd]
    rw [hregs] at hreg
    split at hreg
    · cases hreg
      rfl
    · by_cases h3 : fd = 3
      · rw [h3] at hreg
        cases hreg
        rfl
      · change Function.update (fun _ => none) 3 _ fd = some reg at hreg
        rw [Function.update_of_ne h3] at hreg
        cases hreg

lemma answer_answered (data body : Bytes) :
    answer (answered data body) 0 = responseHead body ++ body := by
  have hsent : answer (answered data body) 0 =
      (response data body).buf.take (response data body).buf.length := by
    simp [answer, answered]
  rw [hsent, List.take_length]
  rfl

/-- The request is answered in a run in which its client does nothing else. -/
lemma exists_run {data : Bytes} (hne : data ≠ []) (body : Bytes) : ∃ as : List Action,
    run (step 3) (init 3) as = some (answered data body) ∧
      as.filterMap clientOf = [.connect, .send 0 data] ∧
      ∀ x ∈ as.filterMap resultOf, x = body := by
  obtain ⟨lens, hrequest⟩ := run_readRun hne
  have hclient : (lens.map fun len => Action.main (.recv len)).filterMap clientOf = [] := by
    simp [List.filterMap_map, Function.comp_def, clientOf]
  have hresult : (lens.map fun len => Action.main (.recv len)).filterMap resultOf = [] := by
    simp [List.filterMap_map, Function.comp_def, resultOf]
  refine ⟨connectRun 3 5 ++ (readRun data lens ++ (workerRun body ++
    sendRun 5 (response data body).buf.length)), ?_, ?_, ?_⟩
  · exact (run_append run_connectRun).trans ((run_append hrequest).trans
      ((run_append (run_workerRun data body)).trans (run_send data body)))
  · simp only [readRun, List.filterMap_append, hclient]
    rfl
  · have hbody : ∀ x ∈ [body], x = body := fun x hx => List.mem_singleton.mp hx
    simp only [readRun, List.filterMap_append, hresult]
    exact hbody

/-- **The epoll back-end can answer** every request with the response that is built from what
the strategies return. -/
theorem backend_answers {data : Bytes} (hne : data ≠ []) (body : Bytes) :
    (backend 3).Answers data body (responseHead body ++ body) := by
  obtain ⟨as, hrun, hclient, hresult⟩ := exists_run hne body
  exact ⟨as, answered data body, hrun, hclient, hresult, settled_answered data body,
    answer_answered data body⟩

end Epoll

/-! ## The select back-end -/

namespace Select

def clientOf : Action → Option ClientAction
  | .client a => some a
  | _ => none

def resultOf : Action → Option Bytes
  | .worker (.run _ httpBody) => some httpBody
  | _ => none

/-- Nothing is left to do: all is accepted, read and run, and no descriptor waits to be
written to. -/
structure Settled (s : State) : Prop where
  main_eq : s.main = .loop
  queue_eq : s.queue = []
  running_eq : s.running = []
  backlog_eq : s.net.backlog = []
  inbox_eq : ∀ c, s.net.inbox c = []
  writeSet_eq : ∀ fd, s.writeSet fd = false

/-- The bytes that `send` has accepted for a connection. -/
def answer (s : State) (c : ℕ) : Bytes := (s.sent.filter fun x => x.conn = c).flatMap Sent.data

/-- The server on `SubSelectEvent`. -/
def backend (svrFd : ℕ) : Backend where
  State := State
  Action := Action
  init := init svrFd
  step := step svrFd
  client := clientOf
  result := resultOf
  Settled := Settled
  answer := answer

/-- Whatever a client sends and the strategies return, nothing is sent back. -/
lemma answer_eq_nil {svrFd : ℕ} {data body bytes : Bytes}
    (h : (backend svrFd).Answers data body bytes) : bytes = [] := by
  obtain ⟨as, s, hrun, -, -, -, rfl⟩ := h
  have hsent : State.sent s = [] := nothing_sent (reachable_of_run .init hrun)
  change ((State.sent s).filter fun x => x.conn = 0).flatMap Sent.data = []
  rw [hsent]
  rfl

/-- A client connects and is accepted under the number `fd`. -/
def connectRun (svrFd fd : ℕ) : List Action :=
  [.client .connect, .main .copySets, .main (.select [svrFd] []), .main .dispatch,
    .main (.accept fd), .main .eventAdd, .main .acceptEnd, .main .scan, .main .scan, .main .scan]

/-- The state after a client has been accepted as the descriptor 5. -/
def accepted : State :=
  { init 3 with
    net := { Net.init with nextConn := 1, fds := Function.update (fun _ => none) 5 (some 0) }
    readSet := fdSet (init 3).readSet 5
    copyReadSet := ofList [3]
    copyWriteSet := ofList []
    cltSockVec := [3, 5]
    maxSockFd := 5 }

lemma run_connectRun : run (step 3) (init 3) (connectRun 3 5) = some accepted := rfl

/-- The request of the run. -/
def request (data : Bytes) : ReqTaskData := ⟨5, data ++ [nul], 0⟩

/-- The state with the request in the queue, behind a round of the loop. -/
def queued (data : Bytes) : State :=
  { accepted with
    net := { accepted.net with
      inbox := Function.update (Function.update accepted.net.inbox 0 data) 0 [] }
    readSet := fdClr accepted.readSet 5
    copyReadSet := ofList [5]
    queue := [request data] }

/-- A request is sent, read in pieces and queued. -/
def readRun (data : Bytes) (lens : List ℕ) : List Action :=
  [.client (.send 0 data), .main .copySets, .main (.select [5] []), .main .dispatch,
    .main .scan, .main .scan] ++ (lens.map fun len => .main (.recv len)) ++
    [.main (.recvEnd .again), .main .addTask, .main .afterRead, .main .scan]

lemma run_readRun {data : Bytes} (hne : data ≠ []) : ∃ lens : List ℕ,
    run (step 3) accepted (readRun data lens) = some (queued data) := by
  let net : Net := { accepted.net with inbox := Function.update accepted.net.inbox 0 data }
  have hinbox : net.inbox 0 = data := rfl
  have hstep : ∀ (net : Net) conn pre len chunk net₁, net.recv 5 len = some (0, chunk, net₁) →
      step 3 { accepted with
          net := net, copyReadSet := ofList [5], main := .reading 1 5 conn pre }
          (.main (.recv len)) =
        some { accepted with
          net := net₁, copyReadSet := ofList [5],
          main := .reading 1 5 (some 0) (pre ++ [chunk]) } := by
    intro net conn pre len chunk net₁ hrecv
    simp only [step, mainStep, hrecv, Option.map_some]
  obtain ⟨lens, chunks, hlens, hread⟩ := exists_run_recv hstep net rfl (by rwa [hinbox])
  rw [hinbox] at hread
  refine ⟨lens, ?_⟩
  obtain ⟨b, rest, rfl⟩ := List.exists_cons_of_ne_nil hne
  have hstart : run (step 3) accepted [.client (.send 0 (b :: rest)), .main .copySets,
      .main (.select [5] []), .main .dispatch, .main .scan, .main .scan] = some { accepted with
        net := net, copyReadSet := ofList [5], main := .reading 1 5 none [] } := rfl
  rw [readRun, List.append_assoc, run_append hstart, run_append hlens]
  rw [run_cons (t := { queued (b :: rest) with
    readSet := accepted.readSet, queue := [], main := .queueing 1 (request (b :: rest)) })]
  · rfl
  · simp only [step, mainStep]
    rw [if_pos (show Net.recvEnds _ 5 .again = true from rfl), hread]
    rfl

/-- The state after the worker has run and the loop has found no response. -/
def answered (data body : Bytes) : State :=
  { queued data with
    net := (queued data).net.close 5
    readSet := fdClr (queued data).readSet 5
    writeSet := fdClr (fdSet (queued data).writeSet 5) 5
    copyReadSet := ofList []
    copyWriteSet := ofList [5]
    cltSockVec := [3]
    queue := []
    produced := [OutEnv.new (request data) body 0] }

/-- The worker runs the task, and the loop closes the connection. -/
def workerRun (body : Bytes) : List Action :=
  [.worker .getTask, .worker (.run 0 body), .main .copySets, .main (.select [] [5]),
    .main .dispatch, .main .scan, .main .scan, .main (.write none), .main .scan]

lemma run_workerRun (data body : Bytes) :
    run (step 3) (queued data) (workerRun body) = some (answered data body) := rfl

lemma settled_answered (data body : Bytes) : Settled (answered data body) where
  main_eq := rfl
  queue_eq := rfl
  running_eq := rfl
  backlog_eq := rfl
  inbox_eq := by
    intro c
    show Function.update (Function.update accepted.net.inbox 0 data) 0 [] c = []
    by_cases hc : c = 0
    · rw [hc, Function.update_self]
    · rw [Function.update_of_ne hc, Function.update_of_ne hc]
      rfl
  writeSet_eq := by
    intro fd
    show Function.update (Function.update fdZero 5 true) 5 false fd = false
    by_cases hfd : fd = 5
    · rw [hfd, Function.update_self]
    · rw [Function.update_of_ne hfd, Function.update_of_ne hfd]
      rfl

/-- The request is dealt with in a run in which its client does nothing else. -/
lemma exists_run {data : Bytes} (hne : data ≠ []) (body : Bytes) : ∃ as : List Action,
    run (step 3) (init 3) as = some (answered data body) ∧
      as.filterMap clientOf = [.connect, .send 0 data] ∧
      ∀ x ∈ as.filterMap resultOf, x = body := by
  obtain ⟨lens, hrequest⟩ := run_readRun hne
  have hclient : (lens.map fun len => Action.main (.recv len)).filterMap clientOf = [] := by
    simp [List.filterMap_map, Function.comp_def, clientOf]
  have hresult : (lens.map fun len => Action.main (.recv len)).filterMap resultOf = [] := by
    simp [List.filterMap_map, Function.comp_def, resultOf]
  refine ⟨connectRun 3 5 ++ (readRun data lens ++ workerRun body), ?_, ?_, ?_⟩
  · exact (run_append run_connectRun).trans
      ((run_append hrequest).trans (run_workerRun data body))
  · simp only [readRun, List.filterMap_append, hclient]
    rfl
  · have hbody : ∀ x ∈ [body], x = body := fun x hx => List.mem_singleton.mp hx
    simp only [readRun, List.filterMap_append, hresult]
    exact hbody

/-- The select back-end deals with every request, without an answer. -/
theorem backend_answers {data : Bytes} (hne : data ≠ []) (body : Bytes) :
    (backend 3).Answers data body [] := by
  obtain ⟨as, hrun, hclient, hresult⟩ := exists_run hne body
  exact ⟨as, answered data body, hrun, hclient, hresult, settled_answered data body, rfl⟩

end Select

/-! ## The comparison -/

/-- Whatever the interleaving, a client gets the same bytes from both back-ends. -/
def AnswersAlike (data body : Bytes) : Prop :=
  ∀ (svrFd : ℕ) (bytes bytes' : Bytes), (Select.backend svrFd).Answers data body bytes →
    (Epoll.backend svrFd).Answers data body bytes' → bytes = bytes'

lemma AnswersAlike.false {data body : Bytes} (hne : data ≠ []) (h : AnswersAlike data body) :
    False := by
  have heq := h 3 _ _ (Select.backend_answers hne body) (Epoll.backend_answers hne body)
  exact List.append_ne_nil_of_left_ne_nil (responseHead_ne_nil body) body heq.symm

/-- **The two back-ends never answer alike**: for every request and every result of the
strategies the client can be sent the response by the epoll back-end, and in every
interleaving it is sent nothing by the select back-end. -/
theorem answers_never_alike {data : Bytes} (hne : data ≠ []) (body : Bytes) :
    ¬ AnswersAlike data body ∧
      (Epoll.backend 3).Answers data body (responseHead body ++ body) ∧
      ∀ (svrFd : ℕ) (bytes : Bytes), (Select.backend svrFd).Answers data body bytes →
        bytes = [] :=
  ⟨fun h => h.false hne, Epoll.backend_answers hne body, fun _ _ => Select.answer_eq_nil⟩

/-- A request for "/". -/
theorem answers_never_alike_root :
    ¬ AnswersAlike (bytes "GET / HTTP/1.1\r\n\r\n") (bytes "null\n") :=
  (answers_never_alike (by decide) _).1

theorem not_answersAlike : ¬ ∀ data body : Bytes, data ≠ [] → AnswersAlike data body := by
  intro h
  exact (h (bytes "GET / HTTP/1.1\r\n\r\n") (bytes "null\n") (by decide)).false (by decide)

end Io
end Sunet
