/-
# What becomes of the bytes of a client

A ledger beside the state of the epoll server keeps what has happened: the bytes each client
has sent, the tasks that were queued, what was thrown away because the peer had closed the
connection, and the tasks that were answered.  No step depends on it.

Nothing is lost or read twice between a client and the queue: what a client has sent on a
connection is, in order, the data of the tasks for it, what was thrown away, what the main
thread holds and what has not been read.  And each task is, exactly once, in the queue, in the
hands of a worker or answered; the workers take the tasks in the order in which they were
queued.  Which of them are answered at all depends on what the task callback does with the data,
which is no part of this state.
-/
import Sunet.Io.Once

namespace Sunet
namespace Io
namespace Ledger

open Byte Transition

/-- The server with the ledger. -/
structure State where
  sys : Epoll.State
  /-- What the client has sent on a connection. -/
  told : ℕ → Bytes
  /-- The tasks that were queued. -/
  asked : List ReqTaskData
  /-- What was received on a connection and thrown away. -/
  dropped : ℕ → Bytes
  /-- The tasks that were answered, with the bodies of the responses. -/
  answered : List (ReqTaskData × Bytes)

def init (svrFd : ℕ) : State := ⟨Epoll.init svrFd, fun _ => [], [], fun _ => [], []⟩

/-- The entries for a step that leads to `sys`. -/
def State.enter (s : State) (a : Epoll.Action) (sys : Epoll.State) : State where
  sys := sys
  told := match a with
    | .client (.send c data) => Function.update s.told c (s.told c ++ data)
    | _ => s.told
  asked := match a, s.sys.main with
    | .main .addTask, .queueing task => s.asked ++ [task]
    | _, _ => s.asked
  dropped := match a, s.sys.main, sys.main with
    | .main (.recvEnd _), .reading _ (some c) chunks, .deleting _ =>
      Function.update s.dropped c (s.dropped c ++ chunks.flatten)
    | _, _, _ => s.dropped
  answered := match a with
    | .worker (.run i httpBody _) =>
      s.answered ++ (s.sys.running[i]?.map fun task => (task, httpBody)).toList
    | _ => s.answered

/-- A step of the server, with its entries. -/
def step (svrFd : ℕ) (s : State) (a : Epoll.Action) : Option State :=
  (Epoll.step svrFd s.sys a).map (s.enter a)

/-- The ledger follows every run of the server. -/
lemma exists_reachable {svrFd : ℕ} {sys : Epoll.State}
    (h : Reachable (Epoll.step svrFd) (Epoll.init svrFd) sys) :
    ∃ s, Reachable (step svrFd) (init svrFd) s ∧ s.sys = sys := by
  induction h with
  | init => exact ⟨init svrFd, .init, rfl⟩
  | @step _ sys' a _ _ hstep ih =>
    obtain ⟨s, hs, rfl⟩ := ih
    exact ⟨s.enter a sys', hs.step trivial (by rw [step, hstep]; rfl), rfl⟩

lemma reachable_sys {svrFd : ℕ} {s : State} (h : Reachable (step svrFd) (init svrFd) s) :
    Reachable (Epoll.step svrFd) (Epoll.init svrFd) s.sys := by
  induction h with
  | init => exact .init
  | step _ _ hstep ih =>
    obtain ⟨sys', hsys, rfl⟩ := Option.map_eq_some_iff.mp hstep
    exact ih.step trivial hsys

/-! ## The bytes of a connection -/

/-- The data of the tasks for a connection, without the terminators. -/
def requested (asked : List ReqTaskData) (c : ℕ) : Bytes :=
  (asked.filter fun task => task.conn = c).flatMap fun task => task.data.dropLast

/-- What the main thread has received on a connection and not queued. -/
def inFlight (main : Epoll.MainPc) (c : ℕ) : Bytes :=
  match main with
  | .reading _ (some c') chunks => if c' = c then chunks.flatten else []
  | .queueing task => if task.conn = c then task.data.dropLast else []
  | _ => []

lemma requested_append (asked : List ReqTaskData) (task : ReqTaskData) (c : ℕ) :
    requested (asked ++ [task]) c = requested asked c ++ inFlight (.queueing task) c := by
  rw [requested, requested, inFlight, List.filter_append, List.flatMap_append,
    List.filter_singleton]
  by_cases hc : task.conn = c
  · simp [hc]
  · simp [hc]

/-- A buffer with something in front of the terminator. -/
def Terminated (data : Bytes) : Prop := ∃ text, text ≠ [] ∧ data = text ++ [nul]

/-- The bytes of the connections are all there. -/
structure Streams (s : State) : Prop where
  told : ∀ c, s.told c = requested s.asked c ++ s.dropped c ++ inFlight s.sys.main c ++
    s.sys.net.inbox c
  /-- What was thrown away was the last of what the client has sent. -/
  dropped : ∀ c, s.dropped c ≠ [] → s.sys.net.closed c = true ∧ s.sys.net.inbox c = [] ∧
    inFlight s.sys.main c = []
  asked : ∀ task ∈ s.asked, Terminated task.data
  queueing : ∀ task, s.sys.main = .queueing task → Terminated task.data

lemma streams_init (svrFd : ℕ) : Streams (init svrFd) where
  told := fun _ => rfl
  dropped := fun _ h => absurd rfl h
  asked := fun _ h => by cases h
  queueing := fun _ h => by cases h

/-- A step that keeps the bytes where they are. -/
lemma Streams.keep {s s' : State} (h : Streams s) (htold : s'.told = s.told)
    (hasked : s'.asked = s.asked) (hdropped : s'.dropped = s.dropped)
    (hinbox : s'.sys.net.inbox = s.sys.net.inbox) (hclosed : s'.sys.net.closed = s.sys.net.closed)
    (hflight : ∀ c, inFlight s'.sys.main c = inFlight s.sys.main c)
    (hqueueing : ∀ task, s'.sys.main = .queueing task → Terminated task.data) : Streams s' where
  told := by
    intro c
    rw [htold, hasked, hdropped, hinbox, hflight]
    exact h.told c
  dropped := by
    intro c hc
    rw [hclosed, hinbox, hflight]
    exact h.dropped c (hdropped ▸ hc)
  asked := by
    rw [hasked]
    exact h.asked
  queueing := hqueueing

/-- What `recv` takes from a connection. -/
lemma recv_inbox {net net' : Net} {fd len c : ℕ} {chunk : Bytes}
    (h : net.recv fd len = some (c, chunk, net')) :
    net.inbox c = chunk ++ net'.inbox c ∧ net.inbox c ≠ [] ∧
      (∀ c', c' ≠ c → net'.inbox c' = net.inbox c') ∧ net'.closed = net.closed := by
  rw [Net.recv] at h
  split at h
  · cases h
  · next c' hc =>
    split at h
    · next hlen =>
      cases h
      refine ⟨?_, ?_, fun c' hne => Function.update_of_ne hne _ _, rfl⟩
      · show net.inbox c = _ ++ Function.update net.inbox c ((net.inbox c).drop len) c
        rw [Function.update_self, List.take_append_drop]
      · intro hnil
        rw [hnil, List.length_nil] at hlen
        omega
    · cases h

/-- `_on_http_read` fails only when the peer has closed the connection. -/
lemma closed_of_fail {chunks : List Bytes} {last : RecvEnd} {buf : Option Bytes}
    (h : onHttpRead chunks last = some (.fail, buf)) : last = .closed := by
  rw [onHttpRead, Option.bind_eq_bind, Option.bind_eq_some_iff] at h
  obtain ⟨recvData, -, h⟩ := h
  by_contra hne
  rw [if_neg hne] at h
  split at h
  · split at h <;> cases h
  · cases h

/-- When the main thread turns to delete a descriptor, all that has arrived on the connection
behind it was read, and the client has closed its end. -/
lemma closed_of_deleting {svrFd fd c : ℕ} {conn : Option ℕ} {chunks : List Bytes} {last : RecvEnd}
    {sys sys' : Epoll.State} (hstep : Epoll.step svrFd sys (.main (.recvEnd last)) = some sys')
    (hmain : sys.main = .reading fd conn chunks) (hmain' : sys'.main = .deleting fd)
    (hc : sys.net.fds fd = some c) : sys.net.inbox c = [] ∧ sys.net.closed c = true := by
  simp only [Epoll.step, Epoll.mainStep, hmain] at hstep
  split at hstep
  · next hends =>
    split at hstep
    · cases hstep
      cases hmain'
    · cases hstep
      cases hmain'
    · next hread =>
      rw [closed_of_fail hread, Net.recvEnds, hc] at hends
      simpa using hends
    · cases hstep
  · cases hstep

lemma Streams.of_recv {svrFd fd len c : ℕ} {conn : Option ℕ} {chunks : List Bytes} {chunk : Bytes}
    {net : Net} {s : State} (h : Streams s) (howned : Epoll.Owned svrFd s.sys)
    (hrec : s.sys.main.Received) (hmain : s.sys.main = .reading fd conn chunks)
    (hnet : s.sys.net.recv fd len = some (c, chunk, net)) :
    Streams { s with sys := { s.sys with
      net := net, main := .reading fd (some c) (chunks ++ [chunk]) } } := by
  obtain ⟨hinbox, hne, hother, hclosed⟩ := recv_inbox hnet
  have hmainOwned := howned.main
  rw [hmain] at hrec hmainOwned
  -- what was received before came from the same connection
  have hbefore : ∀ c', inFlight s.sys.main c' = if c = c' then chunks.flatten else [] := by
    intro c'
    rw [hmain]
    cases conn with
    | none =>
      rw [hrec.2 rfl]
      simp [inFlight]
    | some c₀ =>
      have hfd := hmainOwned.2 c₀ rfl
      rw [(Net.recv_cases hnet).1] at hfd
      cases hfd
      rfl
  have hafter : ∀ c', inFlight (.reading fd (some c) (chunks ++ [chunk])) c' =
      if c = c' then chunks.flatten ++ chunk else [] := by
    intro c'
    rw [inFlight, List.flatten_append, List.flatten_singleton]
  refine ⟨?_, ?_, h.asked, fun task hq => by cases hq⟩
  · intro c'
    show s.told c' = _ ++ inFlight (.reading fd (some c) (chunks ++ [chunk])) c' ++ net.inbox c'
    rw [h.told c', hbefore, hafter]
    by_cases hc : c = c'
    · subst hc
      rw [if_pos rfl, if_pos rfl, hinbox]
      simp only [List.append_assoc]
    · rw [if_neg hc, if_neg hc, hother c' (Ne.symm hc)]
  · intro c' hdropped
    obtain ⟨hcl, hin, -⟩ := h.dropped c' hdropped
    have hc : c ≠ c' := by
      rintro rfl
      exact hne hin
    refine ⟨by rw [← hcl]; exact congrFun hclosed c', ?_, ?_⟩
    · show net.inbox c' = []
      rw [hother c' (Ne.symm hc), hin]
    · show inFlight (.reading fd (some c) (chunks ++ [chunk])) c' = []
      rw [hafter, if_neg hc]

/-- What was received is thrown away. -/
lemma Streams.of_fail {svrFd fd : ℕ} {conn : Option ℕ} {chunks : List Bytes} {last : RecvEnd}
    {s : State} (h : Streams s) (howned : Epoll.Owned svrFd s.sys) (hrec : s.sys.main.Received)
    (hmain : s.sys.main = .reading fd conn chunks)
    (hstep : Epoll.step svrFd s.sys (.main (.recvEnd last)) =
      some { s.sys with main := .deleting fd }) :
    Streams (s.enter (.main (.recvEnd last)) { s.sys with main := .deleting fd }) := by
  have hmainOwned := howned.main
  rw [hmain] at hrec hmainOwned
  cases conn with
  | none =>
    -- nothing was received
    refine h.keep rfl rfl ?_ rfl rfl (fun c => ?_) fun task hq => by cases hq
    · simp only [State.enter, hmain]
    · rw [hmain, hrec.2 rfl]
      rfl
  | some c₀ =>
    have hafter : (s.enter (.main (.recvEnd last)) { s.sys with main := .deleting fd }).dropped =
        Function.update s.dropped c₀ (s.dropped c₀ ++ chunks.flatten) := by
      simp only [State.enter, hmain]
    obtain ⟨hin, hcl⟩ := closed_of_deleting hstep hmain rfl (hmainOwned.2 c₀ rfl)
    have hflight : ∀ c, inFlight s.sys.main c = if c₀ = c then chunks.flatten else [] := by
      intro c
      rw [hmain]
      rfl
    refine ⟨?_, ?_, h.asked, fun task hq => by cases hq⟩
    · intro c
      show s.told c = requested s.asked c ++ _ ++ [] ++ s.sys.net.inbox c
      rw [hafter, h.told c, hflight]
      by_cases hc : c₀ = c
      · subst hc
        rw [if_pos rfl, Function.update_self, hin]
        simp only [List.append_nil, List.append_assoc]
      · rw [if_neg hc, Function.update_of_ne (Ne.symm hc)]
    · intro c hdropped
      refine ⟨?_, ?_, rfl⟩
      · by_cases hc : c₀ = c
        · exact hc ▸ hcl
        · rw [hafter, Function.update_of_ne (Ne.symm hc)] at hdropped
          exact (h.dropped c hdropped).1
      · by_cases hc : c₀ = c
        · exact hc ▸ hin
        · rw [hafter, Function.update_of_ne (Ne.symm hc)] at hdropped
          exact (h.dropped c hdropped).2.1

lemma Streams.of_client {a : ClientAction} {net : Net} {s : State} (h : Streams s)
    (hnet : s.sys.net.client a = some net) :
    Streams (s.enter (.client a) { s.sys with net := net }) := by
  cases a with
  | connect =>
    cases hnet
    exact h.keep rfl rfl rfl rfl rfl (fun _ => rfl) h.queueing
  | close c =>
    rw [Net.client] at hnet
    split at hnet
    · cases hnet
      refine ⟨h.told, ?_, h.asked, h.queueing⟩
      intro c' hc'
      obtain ⟨hcl, hin⟩ := h.dropped c' hc'
      refine ⟨?_, hin⟩
      show Function.update s.sys.net.closed c true c' = true
      rw [Function.update_apply]
      split
      · rfl
      · exact hcl
    · cases hnet
  | send c data =>
    rw [Net.client] at hnet
    split at hnet
    · next hopen =>
      cases hnet
      refine ⟨?_, ?_, h.asked, h.queueing⟩
      · intro c'
        show Function.update s.told c (s.told c ++ data) c' =
          _ ++ Function.update s.sys.net.inbox c (s.sys.net.inbox c ++ data) c'
        by_cases hc : c' = c
        · subst hc
          rw [Function.update_self, Function.update_self, h.told c', List.append_assoc]
          rfl
        · rw [Function.update_of_ne hc, Function.update_of_ne hc]
          exact h.told c'
      · intro c' hc'
        obtain ⟨hcl, hin, hfl⟩ := h.dropped c' hc'
        -- a client that has closed its end sends no more
        have hne : c' ≠ c := by
          rintro rfl
          rw [hopen.2] at hcl
          cases hcl
        refine ⟨hcl, ?_, hfl⟩
        show Function.update s.sys.net.inbox c _ c' = []
        rw [Function.update_of_ne hne, hin]
    · cases hnet

lemma Streams.of_addTask {task : ReqTaskData} {s : State} (h : Streams s)
    (hmain : s.sys.main = .queueing task) :
    Streams (s.enter (.main .addTask)
      { s.sys with queue := s.sys.queue ++ [task], main := .loop }) := by
  have hasked : (s.enter (.main .addTask)
      { s.sys with queue := s.sys.queue ++ [task], main := .loop }).asked = s.asked ++ [task] := by
    simp only [State.enter, hmain]
  refine ⟨?_, ?_, ?_, fun task hq => by cases hq⟩
  · intro c
    rw [hasked, requested_append, ← hmain]
    show s.told c = _ ++ s.dropped c ++ [] ++ s.sys.net.inbox c
    rw [h.told c]
    by_cases hdropped : s.dropped c = []
    · rw [hdropped]
      simp only [List.append_nil]
    · rw [(h.dropped c hdropped).2.2]
      simp only [List.append_nil]
  · intro c hdropped
    obtain ⟨hcl, hin, -⟩ := h.dropped c hdropped
    exact ⟨hcl, hin, rfl⟩
  · rw [hasked]
    intro t ht
    rcases List.mem_append.mp ht with ht | ht
    · exact h.asked t ht
    · rw [List.mem_singleton] at ht
      exact ht ▸ h.queueing task hmain

lemma Streams.next {svrFd : ℕ} {s : State} {a : Epoll.Action} {sys' : Epoll.State} (h : Streams s)
    (howned : Epoll.Owned svrFd s.sys) (hrec : s.sys.main.Received)
    (hstep : Epoll.step svrFd s.sys a = some sys') : Streams (s.enter a sys') := by
  cases Epoll.next_of_step hstep with
  | client hnet => exact h.of_client hnet
  | epollWait hmain hbatch hnodup hready =>
    exact h.keep rfl rfl rfl rfl rfl (fun _ => rfl) h.queueing
  | dispatchAccept hmain hbatch hsvr =>
    exact h.keep rfl rfl rfl rfl rfl (fun c => by rw [hmain]; rfl) fun task hq => by cases hq
  | dispatchRead hmain hbatch hsvr hin =>
    exact h.keep rfl rfl rfl rfl rfl (fun c => by rw [hmain]; rfl) fun task hq => by cases hq
  | dispatchEmpty hmain hbatch hdata henv hempty =>
    exact h.keep rfl rfl rfl rfl rfl (fun _ => rfl) h.queueing
  | dispatchWrite hmain hbatch hdata henv =>
    exact h.keep rfl rfl rfl rfl rfl (fun c => by rw [hmain]; rfl) fun task hq => by cases hq
  | dispatchSkip hmain hbatch => exact h.keep rfl rfl rfl rfl rfl (fun _ => rfl) h.queueing
  | accept hmain hnet =>
    obtain ⟨c, backlog, hbacklog, hn, hfree, rfl⟩ := Net.accept_cases hnet
    refine h.keep rfl rfl rfl rfl rfl (fun c => ?_) fun task hq => ?_
    · rw [hmain]
      show inFlight (if _ then .adding _ else .loop) c = _
      split <;> rfl
    · change (if _ then Epoll.MainPc.adding _ else .loop) = .queueing task at hq
      split at hq <;> cases hq
  | acceptEnd hmain =>
    exact h.keep rfl rfl rfl rfl rfl (fun c => by rw [hmain]; rfl) fun task hq => by cases hq
  | eventAdd hmain =>
    exact h.keep rfl rfl rfl rfl rfl (fun c => by rw [hmain]; rfl) fun task hq => by cases hq
  | recv hmain hnet => exact h.of_recv howned hrec hmain hnet
  | @recvTask fd c chunks last buf hmain hread =>
    rw [hmain] at hrec
    rcases Epoll.onHttpRead_cases hrec.1 last with hfail | ⟨hne, hok⟩ | ⟨-, hnone⟩
    · rw [hfail] at hread
      cases hread
    · rw [hok] at hread
      cases hread
      refine h.keep rfl rfl ?_ rfl rfl (fun c' => ?_) fun task hq => ?_
      · simp only [State.enter, hmain]
      · rw [hmain]
        show (if c = c' then (chunks.flatten ++ [nul]).dropLast else []) = _
        rw [List.dropLast_concat]
        rfl
      · cases hq
        exact ⟨chunks.flatten, List.length_pos_iff.mp (length_flatten_pos hrec.1 hne), rfl⟩
    · rw [hnone] at hread
      cases hread
  | @recvNone fd conn chunks last hmain hread =>
    rw [hmain] at hrec
    rcases Epoll.onHttpRead_cases hrec.1 last with hfail | ⟨-, hok⟩ | ⟨hnil, -⟩
    · rw [hfail] at hread
      cases hread
    · rw [hok] at hread
      cases hread
    · refine h.keep rfl rfl ?_ rfl rfl (fun c' => ?_) fun task hq => by cases hq
      · simp only [State.enter, hmain]
      · rw [hmain, hnil]
        cases conn with
        | none => rfl
        | some c => exact (ite_self _).symm
  | recvFail hmain => exact h.of_fail howned hrec hmain hstep
  | addTask hmain => exact h.of_addTask hmain
  | eventDel hmain =>
    exact h.keep rfl rfl rfl rfl rfl (fun c => by rw [hmain]; rfl) fun task hq => by cases hq
  | close hmain =>
    exact h.keep rfl rfl rfl rfl rfl (fun c => by rw [hmain]; rfl) fun task hq => by cases hq
  | sendFail hmain henv =>
    exact h.keep rfl rfl rfl rfl rfl (fun c => by rw [hmain]; rfl) fun task hq => by cases hq
  | send hmain henv hfd hk =>
    exact h.keep rfl rfl rfl rfl rfl (fun c => by rw [hmain]; rfl) fun task hq => by cases hq
  | rearm hmain henv =>
    exact h.keep rfl rfl rfl rfl rfl (fun c => by rw [hmain]; rfl) fun task hq => by cases hq
  | getTask hqueue => exact h.keep rfl rfl rfl rfl rfl (fun _ => rfl) h.queueing
  | run htask henv => exact h.keep rfl rfl rfl rfl rfl (fun _ => rfl) h.queueing

/-- What holds of the server holds beside the ledger. -/
lemma invariant_of_sys {svrFd : ℕ} {s : State} {P : State → Prop}
    (h : Reachable (step svrFd) (init svrFd) s) (hinit : P (init svrFd))
    (hstep : ∀ (s : State) (a : Epoll.Action) (sys' : Epoll.State), Epoll.Inv svrFd s.sys →
      s.sys.main.Received → P s → Epoll.step svrFd s.sys a = some sys' → P (s.enter a sys')) :
    P s := by
  refine h.invariant_of (Q := fun s => Epoll.Inv svrFd s.sys ∧ s.sys.main.Received) ?_ hinit ?_
  · exact fun s hs => ⟨Epoll.inv_of_reachable (reachable_sys hs),
      Epoll.received_of_reachable (reachable_sys hs)⟩
  · rintro s a s' ⟨hinv, hrec⟩ - hP - hs
    obtain ⟨sys', hsys, rfl⟩ := Option.map_eq_some_iff.mp hs
    exact hstep s a sys' hinv hrec hP hsys

lemma streams_of_reachable {svrFd : ℕ} {s : State} (h : Reachable (step svrFd) (init svrFd) s) :
    Streams s :=
  invariant_of_sys h (streams_init svrFd) fun _ _ _ hinv hrec hstreams hstep =>
    hstreams.next hinv.owned hrec hstep

/-- **No byte of a client is lost, read twice or mixed up with those of another one.**  In every
run, what a client has sent on a connection is the data of the tasks for the connection in the
order in which they were queued, what was thrown away, what the main thread has received and
not queued, and what has not been read.  The data of a task ends with the terminator and has
something in front of it; and nothing is thrown away before the client has closed its end. -/
theorem told_eq {svrFd : ℕ} {s : State} (h : Reachable (step svrFd) (init svrFd) s) :
    (∀ c, s.told c =
      requested s.asked c ++ s.dropped c ++ inFlight s.sys.main c ++ s.sys.net.inbox c) ∧
      (∀ c, s.dropped c ≠ [] → s.sys.net.closed c = true) ∧
      ∀ task ∈ s.asked, Terminated task.data := by
  have hstreams := streams_of_reachable h
  exact ⟨hstreams.told, fun c hc => (hstreams.dropped c hc).1, hstreams.asked⟩

/-- A request comes in two pieces, and the client closes its end. -/
theorem told_eq_pieces :
    ∃ s, run (step 3) (init 3) (Epoll.connectRun 3 5 ++ Epoll.requestRun 5 0 (bytes "GET / HT") ++
        [.client (.send 0 (bytes "TP/1.1\r\n\r\n"))] ++
        [.client (.close 0), .main (.epollWait [(5, true, false)]), .main .dispatch,
          .main (.recv 10), .main (.recvEnd .closed)]) = some s ∧
      (∀ c, s.told c =
        requested s.asked c ++ s.dropped c ++ inFlight s.sys.main c ++ s.sys.net.inbox c) ∧
      (∀ c, s.dropped c ≠ [] → s.sys.net.closed c = true) ∧
      ∀ task ∈ s.asked, Terminated task.data := by
  obtain ⟨s, hrun⟩ : ∃ s, run (step 3) (init 3) (Epoll.connectRun 3 5 ++
      Epoll.requestRun 5 0 (bytes "GET / HT") ++
      [.client (.send 0 (bytes "TP/1.1\r\n\r\n"))] ++
      [.client (.close 0), .main (.epollWait [(5, true, false)]), .main .dispatch,
        .main (.recv 10), .main (.recvEnd .closed)]) = some s := ⟨_, rfl⟩
  exact ⟨s, hrun, told_eq (reachable_of_run .init hrun)⟩

/-! ## The tasks -/

/-- Every task is in one place. -/
structure Tasks (s : State) : Prop where
  once : (s.sys.queue ++ s.sys.running ++ s.answered.map Prod.fst).Perm s.asked
  fifo : s.sys.queue <:+ s.asked
  produced : s.sys.produced = s.answered.mapIdx fun i x => OutEnv.new x.1 x.2 i

lemma tasks_init (svrFd : ℕ) : Tasks (init svrFd) := ⟨.refl _, List.suffix_refl _, rfl⟩

lemma Tasks.keep {s s' : State} (h : Tasks s) (hasked : s'.asked = s.asked)
    (hanswered : s'.answered = s.answered) (hqueue : s'.sys.queue = s.sys.queue)
    (hrunning : s'.sys.running = s.sys.running) (hproduced : s'.sys.produced = s.sys.produced) :
    Tasks s' where
  once := by
    rw [hqueue, hrunning, hanswered, hasked]
    exact h.once
  fifo := by
    rw [hqueue, hasked]
    exact h.fifo
  produced := by
    rw [hproduced, hanswered]
    exact h.produced

lemma Tasks.next {svrFd : ℕ} {s : State} {a : Epoll.Action} {sys' : Epoll.State} (h : Tasks s)
    (hstep : Epoll.step svrFd s.sys a = some sys') : Tasks (s.enter a sys') := by
  cases Epoll.next_of_step hstep with
  | client hnet => exact h.keep rfl rfl rfl rfl rfl
  | epollWait hmain hbatch hnodup hready => exact h.keep rfl rfl rfl rfl rfl
  | dispatchAccept hmain hbatch hsvr => exact h.keep rfl rfl rfl rfl rfl
  | dispatchRead hmain hbatch hsvr hin => exact h.keep rfl rfl rfl rfl rfl
  | dispatchEmpty hmain hbatch hdata henv hempty => exact h.keep rfl rfl rfl rfl rfl
  | dispatchWrite hmain hbatch hdata henv => exact h.keep rfl rfl rfl rfl rfl
  | dispatchSkip hmain hbatch => exact h.keep rfl rfl rfl rfl rfl
  | accept hmain hnet => exact h.keep rfl rfl rfl rfl rfl
  | acceptEnd hmain => exact h.keep rfl rfl rfl rfl rfl
  | eventAdd hmain => exact h.keep rfl rfl rfl rfl rfl
  | recv hmain hnet => exact h.keep rfl rfl rfl rfl rfl
  | recvTask hmain hread => exact h.keep rfl rfl rfl rfl rfl
  | recvNone hmain hread => exact h.keep rfl rfl rfl rfl rfl
  | recvFail hmain => exact h.keep rfl rfl rfl rfl rfl
  | @addTask task hmain =>
    have hasked : (s.enter (.main .addTask)
        { s.sys with queue := s.sys.queue ++ [task], main := .loop }).asked =
        s.asked ++ [task] := by
      simp only [State.enter, hmain]
    refine ⟨?_, ?_, h.produced⟩
    · rw [hasked]
      show (s.sys.queue ++ [task] ++ s.sys.running ++ s.answered.map Prod.fst).Perm _
      -- the new task goes from behind the queue to the end
      calc s.sys.queue ++ [task] ++ s.sys.running ++ s.answered.map Prod.fst
          = s.sys.queue ++ task :: (s.sys.running ++ s.answered.map Prod.fst) := by simp
        _ |>.Perm (task :: (s.sys.queue ++ (s.sys.running ++ s.answered.map Prod.fst))) :=
          List.perm_middle
        _ |>.Perm (task :: s.asked) := by
          rw [← List.append_assoc]
          exact h.once.cons task
        _ |>.Perm (s.asked ++ [task]) := (List.perm_append_singleton task s.asked).symm
    · rw [hasked]
      obtain ⟨taken, htaken⟩ := h.fifo
      refine ⟨taken, ?_⟩
      show taken ++ (s.sys.queue ++ [task]) = _
      rw [← List.append_assoc, htaken]
  | eventDel hmain => exact h.keep rfl rfl rfl rfl rfl
  | close hmain => exact h.keep rfl rfl rfl rfl rfl
  | sendFail hmain henv => exact h.keep rfl rfl rfl rfl rfl
  | send hmain henv hfd hk => exact h.keep rfl rfl rfl rfl rfl
  | rearm hmain henv => exact h.keep rfl rfl rfl rfl rfl
  | @getTask task queue hqueue =>
    have honce := h.once
    have hfifo := h.fifo
    rw [hqueue] at honce hfifo
    refine ⟨?_, (List.suffix_cons task queue).trans hfifo, h.produced⟩
    show (queue ++ (s.sys.running ++ [task]) ++ s.answered.map Prod.fst).Perm s.asked
    calc queue ++ (s.sys.running ++ [task]) ++ s.answered.map Prod.fst
        = queue ++ s.sys.running ++ task :: s.answered.map Prod.fst := by simp
      _ |>.Perm (task :: (queue ++ s.sys.running ++ s.answered.map Prod.fst)) := List.perm_middle
      _ |>.Perm s.asked := honce
  | @run i a httpBody task htask henv =>
    obtain ⟨hi, hget⟩ := List.getElem?_eq_some_iff.mp htask
    have hanswered : s.answered ++ (s.sys.running[i]?.map fun task => (task, httpBody)).toList =
        s.answered ++ [(task, httpBody)] := by
      rw [htask]
      rfl
    refine ⟨?_, h.fifo, ?_⟩
    · show (s.sys.queue ++ s.sys.running.eraseIdx i ++ (s.answered ++ _).map Prod.fst).Perm s.asked
      rw [hanswered, List.map_append, List.map_singleton]
      calc s.sys.queue ++ s.sys.running.eraseIdx i ++ (s.answered.map Prod.fst ++ [task])
          = s.sys.queue ++ s.sys.running.eraseIdx i ++ s.answered.map Prod.fst ++ [task] := by
            rw [List.append_assoc _ _ [task]]
        _ |>.Perm (task :: (s.sys.queue ++ s.sys.running.eraseIdx i ++ s.answered.map Prod.fst)) :=
          List.perm_append_singleton task _
        _ |>.Perm (s.sys.queue ++ task :: s.sys.running.eraseIdx i ++ s.answered.map Prod.fst) := by
          rw [List.append_assoc, List.append_assoc]
          exact List.perm_middle.symm
        _ |>.Perm (s.sys.queue ++ s.sys.running ++ s.answered.map Prod.fst) := by
          refine .append_right _ (.append_left _ ?_)
          exact hget ▸ List.getElem_cons_eraseIdx_perm hi
        _ |>.Perm s.asked := h.once
    · show s.sys.produced ++ [OutEnv.new task httpBody s.sys.produced.length] =
        (s.answered ++ _).mapIdx fun i x => OutEnv.new x.1 x.2 i
      rw [hanswered, List.mapIdx_concat, ← h.produced]
      congr 3
      rw [h.produced, List.length_mapIdx]

lemma tasks_of_reachable {svrFd : ℕ} {s : State} (h : Reachable (step svrFd) (init svrFd) s) :
    Tasks s :=
  invariant_of_sys h (tasks_init svrFd) fun _ _ _ _ _ htasks hstep => htasks.next hstep

/-- The data of a task is a piece of what the client has sent. -/
lemma Streams.isInfix_told {s : State} (h : Streams s) {task : ReqTaskData} (htask : task ∈ s.asked) :
    task.data.dropLast <:+: s.told task.conn := by
  obtain ⟨before, after, hasked⟩ := List.append_of_mem htask
  have hreq : task.data.dropLast <:+: requested s.asked task.conn := by
    rw [hasked, requested, List.filter_append, List.filter_cons_of_pos (by simp),
      List.flatMap_append, List.flatMap_cons]
    exact ⟨_, _, List.append_assoc _ _ _⟩
  refine hreq.trans ?_
  rw [h.told, List.append_assoc, List.append_assoc]
  exact (List.prefix_append _ _).isInfix

/-- **Every task is answered at most once, and what is sent answers a task.**  In every run the
tasks that were queued are those in the queue, in the hands of workers and answered, each once,
and the workers take them in the order in which they were queued.  A piece that was sent is
the beginning of the response to a task whose data is a piece of what the client has sent on
the connection of the task; and pieces that were sent one after the other belong to different
tasks. -/
theorem tasks_once {svrFd : ℕ} {s : State} (h : Reachable (step svrFd) (init svrFd) s) :
    (s.sys.queue ++ s.sys.running ++ s.answered.map Prod.fst).Perm s.asked ∧
      s.sys.queue <:+ s.asked ∧
      (∀ r ∈ s.sys.sent, ∃ task httpBody, s.answered[r.env.serial]? = some (task, httpBody) ∧
        r.env = OutEnv.new task httpBody r.env.serial ∧ r.nwrite ≤ r.env.buf.length ∧
        task.data.dropLast <:+: s.told task.conn) ∧
      (s.sys.sent.map fun r => r.env.serial).Nodup := by
  have htasks := tasks_of_reachable h
  have honce := Epoll.once_of_reachable (reachable_sys h)
  refine ⟨htasks.once, htasks.fifo, ?_, honce.nodup⟩
  intro r hr
  obtain ⟨hproduced, hle⟩ := honce.sent r hr
  have hserial := honce.serial _ hproduced
  rw [htasks.produced, List.getElem?_mapIdx, Option.map_eq_some_iff] at hserial
  obtain ⟨⟨task, httpBody⟩, hget, hnew⟩ := hserial
  refine ⟨task, httpBody, hget, hnew.symm, hle, (streams_of_reachable h).isInfix_told ?_⟩
  refine htasks.once.mem_iff.mp (List.mem_append_right _ ?_)
  exact List.mem_map_of_mem (List.mem_of_getElem? hget)

/-- Two requests of one client are taken by workers, and the second is answered first. -/
theorem tasks_once_two :
    ∃ s, run (step 3) (init 3) (Epoll.connectRun 3 5 ++ Epoll.requestRun 5 0 (bytes "GET /a") ++
        Epoll.requestRun 5 0 (bytes "GET /b") ++ [.worker .getTask, .worker .getTask,
          .worker (.run 1 (bytes "null\n") 16)] ++ Epoll.sendRun 5 75) = some s ∧
      (s.sys.queue ++ s.sys.running ++ s.answered.map Prod.fst).Perm s.asked ∧
      s.sys.queue <:+ s.asked ∧
      (∀ r ∈ s.sys.sent, ∃ task httpBody, s.answered[r.env.serial]? = some (task, httpBody) ∧
        r.env = OutEnv.new task httpBody r.env.serial ∧ r.nwrite ≤ r.env.buf.length ∧
        task.data.dropLast <:+: s.told task.conn) ∧
      (s.sys.sent.map fun r => r.env.serial).Nodup := by
  obtain ⟨s, hrun⟩ : ∃ s, run (step 3) (init 3) (Epoll.connectRun 3 5 ++
      Epoll.requestRun 5 0 (bytes "GET /a") ++ Epoll.requestRun 5 0 (bytes "GET /b") ++
      [.worker .getTask, .worker .getTask, .worker (.run 1 (bytes "null\n") 16)] ++
      Epoll.sendRun 5 75) = some s := ⟨_, rfl⟩
  exact ⟨s, hrun, tasks_once (reachable_of_run .init hrun)⟩

/-! ## What a worker does to the ledger -/

/-- The others take no tasks and answer none. -/
lemma works_of_step {svrFd : ℕ} {s s' : State} {a : Epoll.Action} (ha : ∀ w, a ≠ .worker w)
    (h : step svrFd s a = some s') :
    s'.sys.running = s.sys.running ∧ s'.answered = s.answered := by
  obtain ⟨sys', hsys, rfl⟩ := Option.map_eq_some_iff.mp h
  constructor
  · show sys'.running = s.sys.running
    cases Epoll.next_of_step hsys <;> first | rfl | exact absurd rfl (ha _)
  · cases a with
    | worker w => exact absurd rfl (ha w)
    | client c => rfl
    | main m => rfl

/-- A response is put at an address that is free. -/
lemma of_step_run {svrFd : ℕ} {s s' : State} {i : ℕ} {httpBody : Bytes} {a : ℕ}
    (h : step svrFd s (.worker (.run i httpBody a)) = some s') :
    ∃ task, s.sys.running[i]? = some task ∧ s.sys.envs a = none := by
  obtain ⟨sys', hsys, -⟩ := Option.map_eq_some_iff.mp h
  cases Epoll.next_of_step hsys with
  | run hget hfree => exact ⟨_, hget, hfree⟩

/-- A worker takes the first task. -/
lemma step_getTask (svrFd : ℕ) {s : State} {task : ReqTaskData} {queue : List ReqTaskData}
    (hqueue : s.sys.queue = task :: queue) :
    step svrFd s (.worker .getTask) = some { s with sys := { s.sys with
      queue := queue, running := s.sys.running ++ [task] } } := by
  simp only [step, Epoll.step, Epoll.workerStep, hqueue]
  rfl

/-- A worker answers a task that was taken. -/
lemma step_run (svrFd : ℕ) {s : State} {i : ℕ} {task : ReqTaskData} {a : ℕ} (httpBody : Bytes)
    (hget : s.sys.running[i]? = some task) (hfree : s.sys.envs a = none) :
    ∃ s', step svrFd s (.worker (.run i httpBody a)) = some s' ∧ s'.sys.queue = s.sys.queue ∧
      s'.sys.running = s.sys.running.eraseIdx i ∧ s'.asked = s.asked ∧
      s'.answered = s.answered ++ [(task, httpBody)] := by
  simp only [step, Epoll.step, Epoll.workerStep, hget, hfree, Option.map_some, Option.some.injEq,
    exists_eq_left']
  refine ⟨rfl, rfl, rfl, ?_⟩
  rw [State.enter, hget]
  rfl

end Ledger
end Io
end Sunet
