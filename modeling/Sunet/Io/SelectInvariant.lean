/-
# Invariants of the select server

`_clt_sock_vec` has the listening socket and the open descriptors, each once, also while the
loop erases from it.

A descriptor that was read leaves `_read_set`, and what would put it back is behind a `send`,
to which the loop never comes.  So each connection is read in one call of `_on_http_read` at
the most, and there is at most one task for it: what a client sends later is not read.
-/
import Sunet.Io.Select

namespace Sunet
namespace Io
namespace Select

open Transition

/-! ## Inversion -/

/-- The steps of a server that has nothing to send, one constructor for each way in which a step
can go. -/
inductive Next (svrFd : ℕ) (s : State) : Action → State → Prop
  | client {a : ClientAction} {net : Net} (hnet : s.net.client a = some net) :
      Next svrFd s (.client a) { s with net := net }
  | copySets (hmain : s.main = .loop) :
      Next svrFd s (.main .copySets)
        { s with copyReadSet := s.readSet, copyWriteSet := s.writeSet, main := .waiting }
  | select {readable writable : List ℕ} (hmain : s.main = .waiting)
      (hread : ∀ fd ∈ readable, canRead svrFd s fd = true) :
      Next svrFd s (.main (.select readable writable))
        { s with copyReadSet := ofList readable, copyWriteSet := ofList writable, main := .selected }
  | selectNone (hmain : s.main = .waiting) :
      Next svrFd s (.main .selectNone) { s with main := .loop }
  | dispatch (hmain : s.main = .selected) :
      Next svrFd s (.main .dispatch)
        { s with main := if s.copyReadSet svrFd then .accepting none else .scanning 0 }
  | accept {n : ℕ} {mxSock : Option ℕ} {net : Net} (hmain : s.main = .accepting mxSock)
      (hnet : s.net.accept svrFd n = some net) (hn : 0 < n) :
      Next svrFd s (.main (.accept n)) { s with net := net, main := .adding n mxSock }
  | acceptZero {mxSock : Option ℕ} {net : Net} (hmain : s.main = .accepting mxSock)
      (hnet : s.net.accept svrFd 0 = some net) :
      Next svrFd s (.main (.accept 0))
        { s with
          net := net
          maxSockFd := max s.maxSockFd (mxSock.getD 0)
          main := .scanning 0 }
  | acceptEnd {mxSock : Option ℕ} (hmain : s.main = .accepting mxSock) :
      Next svrFd s (.main .acceptEnd)
        { s with maxSockFd := max s.maxSockFd (mxSock.getD 0), main := .scanning 0 }
  | eventAdd {fd : ℕ} {mxSock : Option ℕ} (hmain : s.main = .adding fd mxSock)
      (hsize : fd < fdSetSize) :
      Next svrFd s (.main .eventAdd)
        (eventAddRead { s with main := .accepting (some (max fd (mxSock.getD 0))) } fd)
  | scanEnd {i : ℕ} (hmain : s.main = .scanning i) (hget : s.cltSockVec[i]? = none) :
      Next svrFd s (.main .scan) { s with main := .loop }
  | scanSkip {i : ℕ} (hmain : s.main = .scanning i) :
      Next svrFd s (.main .scan) { s with main := .scanning (i + 1) }
  | scanRead {i fd : ℕ} (hmain : s.main = .scanning i) (hget : s.cltSockVec[i]? = some fd)
      (hsvr : fd ≠ svrFd) (hcopy : s.copyReadSet fd = true) :
      Next svrFd s (.main .scan) { s with main := .reading i fd none [] }
  | scanWrite {i fd : ℕ} (hmain : s.main = .scanning i) (hget : s.cltSockVec[i]? = some fd)
      (hsvr : fd ≠ svrFd) :
      Next svrFd s (.main .scan) { s with main := .writing i fd }
  | recv {i fd len : ℕ} {conn : Option ℕ} {chunks : List Bytes} {r : ℕ × Bytes × Net}
      (hmain : s.main = .reading i fd conn chunks) (hnet : s.net.recv fd len = some r) :
      Next svrFd s (.main (.recv len))
        { s with net := r.2.2, main := .reading i fd (some r.1) (chunks ++ [r.2.1]) }
  | recvTask {i fd c : ℕ} {chunks : List Bytes} {last : RecvEnd} {buf : Bytes}
      (hmain : s.main = .reading i fd (some c) chunks) :
      Next svrFd s (.main (.recvEnd last)) { s with main := .queueing i ⟨fd, buf, c⟩ }
  | recvRet {i fd : ℕ} {conn : Option ℕ} {chunks : List Bytes} {last : RecvEnd} {ret : ReadRet}
      (hmain : s.main = .reading i fd conn chunks) :
      Next svrFd s (.main (.recvEnd last)) { s with main := .returned i fd ret }
  | addTask {i : ℕ} {task : ReqTaskData} (hmain : s.main = .queueing i task) :
      Next svrFd s (.main .addTask)
        { s with queue := s.queue ++ [task], main := .returned i task.fd .ok }
  | afterOk {i fd : ℕ} (hmain : s.main = .returned i fd .ok) :
      Next svrFd s (.main .afterRead)
        { s with readSet := fdClr s.readSet fd, main := .scanning (i + 1) }
  | afterFail {i fd : ℕ} (hmain : s.main = .returned i fd .fail) :
      Next svrFd s (.main .afterRead) (drop
        { s with readSet := fdClr s.readSet fd, writeSet := fdClr s.writeSet fd } i fd)
  | write {i fd : ℕ} {nwrite : Option ℕ} (hmain : s.main = .writing i fd) :
      Next svrFd s (.main (.write nwrite)) (drop
        { s with writeSet := fdClr s.writeSet fd, readSet := fdClr s.readSet fd } i fd)
  | getTask {task : ReqTaskData} {queue : List ReqTaskData} (hqueue : s.queue = task :: queue) :
      Next svrFd s (.worker .getTask)
        { s with queue := queue, running := s.running ++ [task] }
  | run {i : ℕ} {httpBody : Bytes} {task : ReqTaskData} (hget : s.running[i]? = some task) :
      Next svrFd s (.worker (.run i httpBody))
        (eventAddWrite
          { s with
            running := s.running.eraseIdx i
            produced := s.produced ++ [OutEnv.new task httpBody s.produced.length] } task.fd)

lemma next_of_scan {svrFd i : ℕ} {s : State} (hmain : s.main = .scanning i) :
    Next svrFd s (.main .scan) (scan svrFd s i) := by
  rw [scan]
  split
  · next hget => exact .scanEnd hmain hget
  · next fd hget =>
    split_ifs with hsvr hread hwrite
    · exact .scanSkip hmain
    · exact .scanRead hmain hget hsvr hread
    · exact .scanWrite hmain hget hsvr
    · exact .scanSkip hmain

lemma next_of_mainStep {svrFd : ℕ} {s s' : State} {a : MainAction} (hsilent : Silent s)
    (h : mainStep svrFd s a = some s') : Next svrFd s (.main a) s' := by
  cases a with
  | copySets =>
    simp only [mainStep] at h
    split at h
    · next hmain =>
      cases h
      exact .copySets hmain
    · cases h
  | select readable writable =>
    simp only [mainStep] at h
    split at h
    · next hguard =>
      cases h
      exact .select hguard.1 (List.all_eq_true.mp hguard.2.2.1)
    · cases h
  | selectNone =>
    simp only [mainStep] at h
    split at h
    · next hmain =>
      cases h
      exact .selectNone hmain
    · cases h
  | dispatch =>
    simp only [mainStep] at h
    split at h
    · next hmain =>
      cases h
      exact .dispatch hmain
    · cases h
  | accept n =>
    simp only [mainStep] at h
    split at h
    · next mxSock hmain =>
      obtain ⟨net, hnet, rfl⟩ := Option.map_eq_some_iff.mp h
      split
      · next hn => exact .accept hmain hnet hn
      · next hn =>
        obtain rfl : n = 0 := by omega
        exact .acceptZero hmain hnet
    · cases h
  | acceptEnd =>
    simp only [mainStep] at h
    split at h
    · next mxSock hmain =>
      cases h
      exact .acceptEnd hmain
    · cases h
  | eventAdd =>
    simp only [mainStep] at h
    split at h
    · next fd mxSock hmain =>
      split at h
      · cases h
      · next hsize =>
        cases h
        exact .eventAdd hmain (not_le.mp hsize)
    · cases h
  | scan =>
    simp only [mainStep] at h
    split at h
    · next i hmain =>
      cases h
      exact next_of_scan hmain
    · cases h
  | recv len =>
    simp only [mainStep] at h
    split at h
    · next i fd conn chunks hmain =>
      obtain ⟨r, hnet, rfl⟩ := Option.map_eq_some_iff.mp h
      exact .recv hmain hnet
    · cases h
  | recvEnd last =>
    simp only [mainStep] at h
    split at h
    · next i fd conn chunks hmain =>
      split at h
      · split at h
        · cases h
          exact .recvTask hmain
        · cases h
          exact .recvRet hmain
        · cases h
          exact .recvRet hmain
        · cases h
      · cases h
    · cases h
  | addTask =>
    simp only [mainStep] at h
    split at h
    · next i task hmain =>
      cases h
      exact .addTask hmain
    · cases h
  | afterRead =>
    simp only [mainStep] at h
    split at h
    · next i fd hmain =>
      cases h
      exact .afterOk hmain
    · next i fd hmain =>
      cases h
      exact .afterFail hmain
    · cases h
  | write nwrite =>
    simp only [mainStep] at h
    split at h
    · next i fd hmain =>
      rw [hsilent.write_eq] at h
      cases h
      exact .write hmain
    · cases h

/-- The inversion of a step. -/
theorem next_of_step {svrFd : ℕ} {s s' : State} {a : Action} (hsilent : Silent s)
    (h : step svrFd s a = some s') : Next svrFd s a s' := by
  cases a with
  | client a =>
    obtain ⟨net, hnet, rfl⟩ := Option.map_eq_some_iff.mp h
    exact .client hnet
  | main a => exact next_of_mainStep hsilent h
  | worker a =>
    cases a with
    | getTask =>
      simp only [step, workerStep] at h
      split at h
      · cases h
      · next task queue hqueue =>
        cases h
        exact .getTask hqueue
    | run i httpBody =>
      simp only [step, workerStep] at h
      split at h
      · next task hget =>
        split at h
        · cases h
        · cases h
          exact .run hget
      · cases h

/-! ## The descriptors of the loop -/

/-- The greatest number that `_on_accept` has seen. -/
def MainPc.mxSock : MainPc → ℕ
  | .accepting mxSock => mxSock.getD 0
  | .adding _ mxSock => mxSock.getD 0
  | _ => 0

/-- The main thread is not in `_on_accept`. -/
def MainPc.Idle : MainPc → Prop
  | .accepting _ | .adding _ _ => False
  | _ => True

lemma MainPc.Idle.mxSock {main : MainPc} (h : main.Idle) : main.mxSock = 0 := by
  cases main with
  | accepting _ => exact h.elim
  | adding _ _ => exact h.elim
  | _ => rfl

lemma MainPc.Idle.ne_adding {main : MainPc} (h : main.Idle) (fd : ℕ) (mxSock : Option ℕ) :
    main ≠ .adding fd mxSock := by
  rintro rfl
  exact h

/-- The main thread works on an open descriptor, which stands where the loop is. -/
def MainOpen (svrFd : ℕ) (net : Net) (vec : List ℕ) : MainPc → Prop
  | .adding fd _ => fd ∉ vec ∧ 0 < fd ∧ ∃ c, net.fds fd = some c
  | .reading i fd conn _ =>
    vec[i]? = some fd ∧ fd ≠ svrFd ∧ ∀ c, conn = some c → net.fds fd = some c
  | .queueing i task =>
    vec[i]? = some task.fd ∧ task.fd ≠ svrFd ∧ net.fds task.fd = some task.conn
  | .returned i fd _ => vec[i]? = some fd ∧ fd ≠ svrFd
  | .writing i fd => vec[i]? = some fd ∧ fd ≠ svrFd
  | _ => True

/-- `_clt_sock_vec` and the open descriptors. -/
structure Table (svrFd : ℕ) (s : State) : Prop where
  net : s.net.WF
  svr : s.net.fds svrFd = none
  nodup : s.cltSockVec.Nodup
  svr_mem : svrFd ∈ s.cltSockVec
  opened : ∀ fd ∈ s.cltSockVec, fd ≠ svrFd → s.net.fds fd ≠ none
  /-- `_on_accept` leaves the number 0 alone. -/
  covered : ∀ fd, 0 < fd → s.net.fds fd ≠ none →
    fd ∈ s.cltSockVec ∨ ∃ mxSock, s.main = .adding fd mxSock
  watched : ∀ fd ∈ s.cltSockVec, fd ≤ max s.maxSockFd s.main.mxSock
  /-- An `fd_set` has room for the descriptors. -/
  inside : ∀ fd ∈ s.cltSockVec, fd < fdSetSize
  main : MainOpen svrFd s.net s.cltSockVec s.main

lemma table_init {svrFd : ℕ} (hsvr : svrFd < fdSetSize) : Table svrFd (init svrFd) where
  net := Net.wf_init
  svr := rfl
  nodup := List.nodup_singleton svrFd
  svr_mem := List.mem_singleton_self svrFd
  opened := fun fd hfd hne => absurd (List.mem_singleton.mp hfd) hne
  covered := fun fd _ h => absurd rfl h
  watched := fun fd hfd => by
    obtain rfl := List.mem_singleton.mp hfd
    exact le_max_left _ _
  inside := fun fd hfd => by
    obtain rfl := List.mem_singleton.mp hfd
    exact hsvr
  main := trivial

/-- Only the main thread has moved. -/
lemma Table.of_main {svrFd : ℕ} {s s' : State} (h : Table svrFd s) (hnet : s'.net = s.net)
    (hvec : s'.cltSockVec = s.cltSockVec)
    (hadding : ∀ fd mxSock, s.main = .adding fd mxSock → s'.main = .adding fd mxSock)
    (hmax : max s.maxSockFd s.main.mxSock ≤ max s'.maxSockFd s'.main.mxSock)
    (hmain : MainOpen svrFd s.net s.cltSockVec s'.main) : Table svrFd s' where
  net := hnet ▸ h.net
  svr := hnet ▸ h.svr
  nodup := hvec ▸ h.nodup
  svr_mem := hvec ▸ h.svr_mem
  opened := by
    rw [hnet, hvec]
    exact h.opened
  covered := by
    intro fd hpos hfd
    rw [hnet] at hfd
    rw [hvec]
    refine (h.covered fd hpos hfd).imp_right ?_
    rintro ⟨mxSock, hm⟩
    exact ⟨mxSock, hadding fd mxSock hm⟩
  watched := fun fd hfd => (h.watched fd (hvec ▸ hfd)).trans hmax
  inside := hvec ▸ h.inside
  main := by
    rw [hnet, hvec]
    exact hmain

lemma Table.of_idle {svrFd : ℕ} {s s' : State} (h : Table svrFd s) (hidle : s.main.Idle)
    (hnet : s'.net = s.net) (hvec : s'.cltSockVec = s.cltSockVec)
    (hmax : s'.maxSockFd = s.maxSockFd) (hmain : MainOpen svrFd s.net s.cltSockVec s'.main) :
    Table svrFd s' := by
  refine h.of_main hnet hvec (fun fd mxSock hm => absurd hm (hidle.ne_adding fd mxSock)) ?_ hmain
  rw [hidle.mxSock, hmax]
  exact max_le_max le_rfl (Nat.zero_le _)

/-- The network has changed, but not the descriptors. -/
lemma Table.of_net {svrFd : ℕ} {s : State} {net : Net} {main : MainPc} (h : Table svrFd s)
    (hwf : net.WF) (hfds : net.fds = s.net.fds)
    (hadding : ∀ fd mxSock, s.main = .adding fd mxSock → main = .adding fd mxSock)
    (hmx : s.main.mxSock = main.mxSock)
    (hmain : MainOpen svrFd net s.cltSockVec main) :
    Table svrFd { s with net := net, main := main } where
  net := hwf
  svr := hfds ▸ h.svr
  nodup := h.nodup
  svr_mem := h.svr_mem
  opened := by
    show ∀ fd ∈ s.cltSockVec, fd ≠ svrFd → net.fds fd ≠ none
    rw [hfds]
    exact h.opened
  covered := by
    intro fd hpos hfd
    change net.fds fd ≠ none at hfd
    rw [hfds] at hfd
    refine (h.covered fd hpos hfd).imp_right ?_
    rintro ⟨mxSock, hm⟩
    exact ⟨mxSock, hadding fd mxSock hm⟩
  watched := by
    show ∀ fd ∈ s.cltSockVec, fd ≤ max s.maxSockFd main.mxSock
    rw [← hmx]
    exact h.watched
  inside := h.inside
  main := hmain

lemma MainOpen.congr {svrFd : ℕ} {net net' : Net} {vec : List ℕ} {main : MainPc}
    (h : MainOpen svrFd net vec main) (hfds : net'.fds = net.fds) :
    MainOpen svrFd net' vec main := by
  cases main with
  | adding fd mxSock =>
    obtain ⟨hvec, hpos, hc⟩ := h
    exact ⟨hvec, hpos, by rw [hfds]; exact hc⟩
  | reading i fd conn chunks =>
    obtain ⟨hget, hsvr, hconn⟩ := h
    exact ⟨hget, hsvr, by rw [hfds]; exact hconn⟩
  | queueing i task =>
    obtain ⟨hget, hsvr, hconn⟩ := h
    exact ⟨hget, hsvr, by rw [hfds]; exact hconn⟩
  | returned _ _ _ => exact h
  | writing _ _ => exact h
  | loop => trivial
  | waiting => trivial
  | selected => trivial
  | accepting _ => trivial
  | scanning _ => trivial

/-- What is left when the descriptor at a place leaves the vector. -/
lemma mem_eraseIdx {vec : List ℕ} (hnodup : vec.Nodup) {i fd : ℕ} (hget : vec[i]? = some fd)
    (g : ℕ) : g ∈ vec.eraseIdx i ↔ g ≠ fd ∧ g ∈ vec := by
  obtain ⟨hi, rfl⟩ := List.getElem?_eq_some_iff.mp hget
  rw [← hnodup.erase_getElem i hi]
  exact hnodup.mem_erase_iff

/-- The descriptor at a place of the vector, which is not the listening socket, is closed. -/
lemma Table.drop {svrFd : ℕ} {s : State} (h : Table svrFd s) {i fd : ℕ}
    (hget : s.cltSockVec[i]? = some fd) (hsvr : fd ≠ svrFd) (hidle : s.main.Idle)
    {readSet writeSet : FdSet} :
    Table svrFd (drop { s with readSet := readSet, writeSet := writeSet } i fd) := by
  have hmem := mem_eraseIdx h.nodup hget
  have hfds : ∀ g, g ≠ fd → (s.net.close fd).fds g = s.net.fds g :=
    fun g hg => Function.update_of_ne hg _ _
  refine ⟨h.net.close fd, ?_, h.nodup.eraseIdx i, (hmem svrFd).mpr ⟨hsvr.symm, h.svr_mem⟩, ?_, ?_,
    ?_, fun g hg => h.inside g ((hmem g).mp hg).2, trivial⟩
  · exact (hfds svrFd hsvr.symm).trans h.svr
  · intro g hg hne
    obtain ⟨hgfd, hg⟩ := (hmem g).mp hg
    show (s.net.close fd).fds g ≠ none
    rw [hfds g hgfd]
    exact h.opened g hg hne
  · intro g hpos hg
    change (s.net.close fd).fds g ≠ none at hg
    have hgfd : g ≠ fd := by
      rintro rfl
      exact hg (Function.update_self _ _ _)
    rw [hfds g hgfd] at hg
    rcases h.covered g hpos hg with hvec | ⟨mxSock, hm⟩
    · exact .inl ((hmem g).mpr ⟨hgfd, hvec⟩)
    · exact absurd hm (hidle.ne_adding g mxSock)
  · intro g hg
    have hle := h.watched g ((hmem g).mp hg).2
    rw [hidle.mxSock] at hle
    exact hle

/-- What `accept` does to the descriptors. -/
lemma Table.accept {svrFd n : ℕ} {s : State} {net : Net} (h : Table svrFd s)
    (hnet : s.net.accept svrFd n = some net) :
    net.fds svrFd = none ∧ n ∉ s.cltSockVec ∧ (∃ c, net.fds n = some c) ∧
      (∀ fd ∈ s.cltSockVec, fd ≠ svrFd → net.fds fd ≠ none) ∧
      ∀ fd, fd ≠ n → net.fds fd = s.net.fds fd := by
  obtain ⟨c, backlog, hbacklog, hsvr, hfree, rfl⟩ := Net.accept_cases hnet
  have hfds : ∀ fd, fd ≠ n → Function.update s.net.fds n (some c) fd = s.net.fds fd :=
    fun fd hfd => Function.update_of_ne hfd _ _
  have hvec : n ∉ s.cltSockVec := fun hmem => h.opened n hmem hsvr hfree
  refine ⟨(hfds svrFd hsvr.symm).trans h.svr, hvec, ⟨c, Function.update_self _ _ _⟩, ?_, hfds⟩
  intro fd hfd hne
  show Function.update s.net.fds n (some c) fd ≠ none
  rw [hfds fd fun heq => hvec (heq ▸ hfd)]
  exact h.opened fd hfd hne

lemma Table.next {svrFd : ℕ} {s s' : State} {a : Action} (h : Table svrFd s)
    (hstep : Next svrFd s a s') : Table svrFd s' := by
  have hopen := h.main
  cases hstep with
  | client hnet =>
    have hfds := (Net.client_cases hnet).1
    exact h.of_net (h.net.client hnet) hfds (fun _ _ => id) rfl (hopen.congr hfds)
  | copySets hmain => exact h.of_idle (hmain ▸ trivial) rfl rfl rfl trivial
  | select hmain hread => exact h.of_idle (hmain ▸ trivial) rfl rfl rfl trivial
  | selectNone hmain => exact h.of_idle (hmain ▸ trivial) rfl rfl rfl trivial
  | dispatch hmain =>
    refine h.of_idle (hmain ▸ trivial) rfl rfl rfl ?_
    split <;> trivial
  | @accept n mxSock net hmain hnet hn =>
    obtain ⟨hsvr, hvec, hc, hopened, hfds⟩ := h.accept hnet
    refine ⟨h.net.accept hnet, hsvr, h.nodup, h.svr_mem, hopened, ?_, ?_, h.inside,
      ⟨hvec, hn, hc⟩⟩
    · intro fd hpos hfd
      by_cases hfdn : fd = n
      · exact .inr ⟨mxSock, by rw [hfdn]⟩
      · change net.fds fd ≠ none at hfd
        rw [hfds fd hfdn] at hfd
        rcases h.covered fd hpos hfd with hmem | ⟨mx, hm⟩
        · exact .inl hmem
        · rw [hmain] at hm
          cases hm
    · have hwatched := h.watched
      rw [hmain] at hwatched
      exact hwatched
  | @acceptZero mxSock net hmain hnet =>
    obtain ⟨hsvr, hvec, hc, hopened, hfds⟩ := h.accept hnet
    refine ⟨h.net.accept hnet, hsvr, h.nodup, h.svr_mem, hopened, ?_, ?_, h.inside, trivial⟩
    · intro fd hpos hfd
      change net.fds fd ≠ none at hfd
      rw [hfds fd hpos.ne'] at hfd
      rcases h.covered fd hpos hfd with hmem | ⟨mx, hm⟩
      · exact .inl hmem
      · rw [hmain] at hm
        cases hm
    · intro fd hfd
      have hle := h.watched fd hfd
      rw [hmain] at hle
      exact hle.trans (le_max_left _ _)
  | acceptEnd hmain =>
    refine h.of_main rfl rfl (by simp [hmain]) ?_ trivial
    simp [hmain, MainPc.mxSock]
  | @eventAdd fd mxSock hmain hsize =>
    rw [hmain] at hopen
    obtain ⟨hvec, hpos, c, hc⟩ := hopen
    refine ⟨h.net, h.svr, ?_, List.mem_append_left _ h.svr_mem, ?_, ?_, ?_, ?_, trivial⟩
    · exact List.nodup_append.mpr ⟨h.nodup, List.nodup_singleton fd,
        fun a ha b hb hab => hvec (by rwa [← List.mem_singleton.mp hb, ← hab])⟩
    · intro g hg hne
      rcases List.mem_append.mp hg with hg | hg
      · exact h.opened g hg hne
      · rw [List.mem_singleton.mp hg]
        exact fun hnone => by cases hc.symm.trans hnone
    · intro g hgpos hg
      rcases h.covered g hgpos hg with hmem | ⟨mx, hm⟩
      · exact .inl (List.mem_append_left _ hmem)
      · rw [hmain] at hm
        cases hm
        exact .inl (List.mem_append_right _ (List.mem_singleton_self _))
    · intro g hg
      show g ≤ max s.maxSockFd (max fd (mxSock.getD 0))
      rcases List.mem_append.mp hg with hg | hg
      · have hle := h.watched g hg
        rw [hmain] at hle
        exact hle.trans (max_le_max le_rfl (le_max_right _ _))
      · rw [List.mem_singleton.mp hg]
        exact (le_max_left _ _).trans (le_max_right _ _)
    · intro g hg
      rcases List.mem_append.mp hg with hg | hg
      · exact h.inside g hg
      · exact List.mem_singleton.mp hg ▸ hsize
  | scanEnd hmain hget => exact h.of_idle (hmain ▸ trivial) rfl rfl rfl trivial
  | scanSkip hmain => exact h.of_idle (hmain ▸ trivial) rfl rfl rfl trivial
  | scanRead hmain hget hsvr hcopy =>
    exact h.of_idle (hmain ▸ trivial) rfl rfl rfl ⟨hget, hsvr, fun c hc => by cases hc⟩
  | scanWrite hmain hget hsvr => exact h.of_idle (hmain ▸ trivial) rfl rfl rfl ⟨hget, hsvr⟩
  | recv hmain hnet =>
    obtain ⟨hc, -, hfds, hbacklog, hnext⟩ := Net.recv_cases hnet
    rw [hmain] at hopen
    refine h.of_net (h.net.congr hfds hbacklog hnext) hfds (by simp [hmain])
      (by simp [hmain, MainPc.mxSock]) ⟨hopen.1, hopen.2.1, ?_⟩
    intro c hconn
    obtain rfl := Option.some.inj hconn
    rw [hfds]
    exact hc
  | recvTask hmain =>
    rw [hmain] at hopen
    exact h.of_idle (hmain ▸ trivial) rfl rfl rfl ⟨hopen.1, hopen.2.1, hopen.2.2 _ rfl⟩
  | recvRet hmain =>
    rw [hmain] at hopen
    exact h.of_idle (hmain ▸ trivial) rfl rfl rfl ⟨hopen.1, hopen.2.1⟩
  | addTask hmain =>
    rw [hmain] at hopen
    exact h.of_idle (hmain ▸ trivial) rfl rfl rfl ⟨hopen.1, hopen.2.1⟩
  | afterOk hmain => exact h.of_idle (hmain ▸ trivial) rfl rfl rfl trivial
  | afterFail hmain =>
    rw [hmain] at hopen
    exact h.drop hopen.1 hopen.2 (hmain ▸ trivial)
  | write hmain =>
    rw [hmain] at hopen
    exact h.drop hopen.1 hopen.2 (hmain ▸ trivial)
  | getTask hqueue => exact h.of_main rfl rfl (fun _ _ => id) le_rfl hopen
  | run hget => exact h.of_main rfl rfl (fun _ _ => id) le_rfl hopen

/-! ## One request for each connection -/

/-- The connections of all tasks that were queued. -/
def State.asked (s : State) : List ℕ :=
  (s.queue ++ s.running).map ReqTaskData.conn ++ s.produced.map OutEnv.conn

lemma asked_getTask {s : State} {task : ReqTaskData} {queue : List ReqTaskData}
    (hqueue : s.queue = task :: queue) :
    ({ s with queue := queue, running := s.running ++ [task] } : State).asked.Perm s.asked := by
  rw [State.asked, State.asked, hqueue]
  refine .append_right _ (.map _ ?_)
  rw [← List.append_assoc]
  exact List.perm_append_singleton task _

lemma asked_run {s : State} {i : ℕ} {task : ReqTaskData} (hget : s.running[i]? = some task)
    (httpBody : Bytes) (serial : ℕ) :
    ((s.queue ++ s.running.eraseIdx i).map ReqTaskData.conn ++
      (s.produced ++ [OutEnv.new task httpBody serial]).map OutEnv.conn).Perm s.asked := by
  obtain ⟨hi, hget⟩ := List.getElem?_eq_some_iff.mp hget
  have hrunning : (task :: s.running.eraseIdx i).Perm s.running :=
    hget ▸ List.getElem_cons_eraseIdx_perm hi
  rw [State.asked, List.map_append, List.map_append, List.map_append, List.map_singleton,
    ← List.append_assoc]
  refine (List.perm_append_singleton _ _).trans ?_
  rw [← List.cons_append]
  refine .append_right _ ?_
  have hmap := hrunning.map ReqTaskData.conn
  rw [List.map_cons] at hmap
  exact List.perm_middle.symm.trans (.append_left _ hmap)

/-- The descriptors from a place on that `select` has reported may be read. -/
def Ahead (svrFd : ℕ) (s : State) (i : ℕ) : Prop :=
  ∀ j fd, i ≤ j → s.cltSockVec[j]? = some fd → s.copyReadSet fd = true →
    fd = svrFd ∨ s.readSet fd = true

/-- Where the main thread is, what it reads has not been read. -/
def MainFresh (svrFd : ℕ) (s : State) : MainPc → Prop
  | .loop => True
  | .waiting | .selected | .accepting _ => Ahead svrFd s 0
  | .adding fd _ => Ahead svrFd s 0 ∧ ∀ c, s.net.fds fd = some c → c ∉ s.asked
  | .scanning i => Ahead svrFd s i
  | .reading i fd _ _ => Ahead svrFd s (i + 1) ∧ s.readSet fd = true
  | .queueing i task => Ahead svrFd s (i + 1) ∧ s.readSet task.fd = true
  | .returned i _ _ | .writing i _ => Ahead svrFd s (i + 1)

/-- A connection that has been asked for is not read again. -/
structure Reads (svrFd : ℕ) (s : State) : Prop where
  nodup : s.asked.Nodup
  known : ∀ c ∈ s.asked, c < s.net.nextConn ∧ c ∉ s.net.backlog
  spent : ∀ fd c, s.net.fds fd = some c → c ∈ s.asked →
    s.readSet fd = false ∨ ∃ i, s.main = .returned i fd .ok
  main : MainFresh svrFd s s.main

lemma reads_init (svrFd : ℕ) : Reads svrFd (init svrFd) where
  nodup := List.nodup_nil
  known := fun _ h => by cases h
  spent := fun _ _ _ h => by cases h
  main := trivial

lemma Ahead.mono {svrFd : ℕ} {s : State} {i i' : ℕ} (h : Ahead svrFd s i) (hle : i ≤ i') :
    Ahead svrFd s i' := fun j fd hj => h j fd (hle.trans hj)

lemma Ahead.congr {svrFd : ℕ} {s s' : State} {i : ℕ} (h : Ahead svrFd s i)
    (hvec : s'.cltSockVec = s.cltSockVec) (hcopy : s'.copyReadSet = s.copyReadSet)
    (hread : s'.readSet = s.readSet) : Ahead svrFd s' i := by
  intro j fd hj
  rw [hvec, hcopy, hread]
  exact h j fd hj

/-- The descriptor that was looked at is not ahead. -/
lemma Ahead.clr {svrFd : ℕ} {s : State} {i fd : ℕ} (h : Ahead svrFd s (i + 1))
    (hnodup : s.cltSockVec.Nodup) (hget : s.cltSockVec[i]? = some fd) {j g : ℕ} (hj : i + 1 ≤ j)
    (hg : s.cltSockVec[j]? = some g) (hcopy : s.copyReadSet g = true) :
    g = svrFd ∨ fdClr s.readSet fd g = true := by
  have hne : g ≠ fd := by
    rintro rfl
    obtain ⟨hi, hgi⟩ := List.getElem?_eq_some_iff.mp hget
    obtain ⟨hj', hgj⟩ := List.getElem?_eq_some_iff.mp hg
    have := (hnodup.getElem_inj_iff).mp (hgi.trans hgj.symm)
    omega
  rw [fdClr, Function.update_of_ne hne]
  exact h j g hj hg hcopy

/-- A step that asks for nothing. -/
lemma Reads.of_eq {svrFd : ℕ} {s s' : State} (h : Reads svrFd s) (hasked : s'.asked.Perm s.asked)
    (hfds : s'.net.fds = s.net.fds) (hbacklog : s'.net.backlog = s.net.backlog)
    (hnext : s'.net.nextConn = s.net.nextConn) (hread : s'.readSet = s.readSet)
    (hret : ∀ i fd, s.main = .returned i fd .ok → s'.main = .returned i fd .ok)
    (hmain : MainFresh svrFd s' s'.main) : Reads svrFd s' where
  nodup := hasked.nodup_iff.mpr h.nodup
  known := by
    intro c hc
    rw [hnext, hbacklog]
    exact h.known c (hasked.mem_iff.mp hc)
  spent := by
    intro fd c hfd hc
    rw [hfds] at hfd
    rw [hread]
    refine (h.spent fd c hfd (hasked.mem_iff.mp hc)).imp_right ?_
    rintro ⟨i, hm⟩
    exact ⟨i, hret i fd hm⟩
  main := hmain

/-- Nothing that the main thread relies on has changed. -/
lemma MainFresh.congr {svrFd : ℕ} {s s' : State} {main : MainPc} (h : MainFresh svrFd s main)
    (hvec : s'.cltSockVec = s.cltSockVec) (hcopy : s'.copyReadSet = s.copyReadSet)
    (hread : s'.readSet = s.readSet) (hfds : s'.net.fds = s.net.fds)
    (hasked : s'.asked.Perm s.asked) : MainFresh svrFd s' main := by
  have hahead : ∀ {i}, Ahead svrFd s i → Ahead svrFd s' i :=
    fun h => h.congr hvec hcopy hread
  cases main with
  | loop => trivial
  | waiting => exact hahead h
  | selected => exact hahead h
  | accepting _ => exact hahead h
  | adding fd _ =>
    refine ⟨hahead h.1, fun c hc hmem => ?_⟩
    rw [hfds] at hc
    exact h.2 c hc (hasked.mem_iff.mp hmem)
  | scanning _ => exact hahead h
  | reading _ _ _ _ => exact ⟨hahead h.1, hread ▸ h.2⟩
  | queueing _ _ => exact ⟨hahead h.1, hread ▸ h.2⟩
  | returned _ _ _ => exact hahead h
  | writing _ _ => exact hahead h

/-- A descriptor is closed and leaves the vector and `_read_set`. -/
lemma Reads.drop {svrFd : ℕ} {s : State} (h : Reads svrFd s) (htable : Table svrFd s) {i fd : ℕ}
    (hget : s.cltSockVec[i]? = some fd) (hahead : Ahead svrFd s (i + 1))
    (hret : ∀ i fd, s.main ≠ .returned i fd .ok) {writeSet : FdSet} :
    Reads svrFd (drop { s with readSet := fdClr s.readSet fd, writeSet := writeSet } i fd) := by
  refine ⟨h.nodup, h.known, ?_, ?_⟩
  · intro g c hg hc
    obtain ⟨hne, hg⟩ := Net.close_fds_of_some hg
    rcases h.spent g c hg hc with hfalse | ⟨j, hm⟩
    · refine .inl ?_
      show fdClr s.readSet fd g = false
      rw [fdClr, Function.update_of_ne hne]
      exact hfalse
    · exact absurd hm (hret j g)
  · intro j g hj hg hcopy
    change (s.cltSockVec.eraseIdx i)[j]? = some g at hg
    rw [List.getElem?_eraseIdx, if_neg (by omega)] at hg
    exact hahead.clr htable.nodup hget (by omega) hg hcopy

/-- A connection that is accepted has not been asked for. -/
lemma Reads.accept {svrFd n : ℕ} {s : State} {net : Net} (h : Reads svrFd s)
    (hnet : s.net.accept svrFd n = some net) :
    (∀ c ∈ s.asked, c < net.nextConn ∧ c ∉ net.backlog) ∧
      (∀ c, net.fds n = some c → c ∉ s.asked) ∧
      ∀ fd c, net.fds fd = some c → c ∈ s.asked → s.net.fds fd = some c := by
  obtain ⟨c₀, backlog, hbacklog, -, -, rfl⟩ := Net.accept_cases hnet
  have hnew : c₀ ∉ s.asked := fun hc => (h.known c₀ hc).2 (by simp [hbacklog])
  refine ⟨fun c hc => ⟨(h.known c hc).1, fun hmem => ?_⟩, fun c hc => ?_, fun fd c hfd hc => ?_⟩
  · refine (h.known c hc).2 ?_
    rw [hbacklog]
    exact List.mem_cons_of_mem _ hmem
  · change Function.update s.net.fds n (some c₀) n = some c at hc
    rw [Function.update_self] at hc
    exact Option.some.inj hc ▸ hnew
  · change Function.update s.net.fds n (some c₀) fd = some c at hfd
    by_cases hn : fd = n
    · rw [hn, Function.update_self] at hfd
      exact absurd hc (Option.some.inj hfd ▸ hnew)
    · rwa [Function.update_of_ne hn] at hfd

/-- The task that is queued is the first one for its connection. -/
lemma Reads.addTask {svrFd i : ℕ} {s : State} {task : ReqTaskData} (h : Reads svrFd s)
    (htable : Table svrFd s) (hmain : s.main = .queueing i task) :
    Reads svrFd { s with queue := s.queue ++ [task], main := .returned i task.fd .ok } := by
  have hfresh := h.main
  have hopen := htable.main
  rw [hmain] at hfresh hopen
  obtain ⟨hget, hsvr, hconn⟩ := hopen
  have hnew : task.conn ∉ s.asked := by
    intro hc
    rcases h.spent _ _ hconn hc with hfalse | ⟨j, hm⟩
    · exact absurd (hfresh.2.symm.trans hfalse) (by decide)
    · rw [hmain] at hm
      cases hm
  have hperm : ({ s with
      queue := s.queue ++ [task]
      main := .returned i task.fd .ok } : State).asked.Perm (task.conn :: s.asked) := by
    show ((s.queue ++ [task] ++ s.running).map ReqTaskData.conn ++ _).Perm _
    rw [List.append_assoc, List.singleton_append, State.asked, ← List.cons_append]
    refine .append_right _ ?_
    exact (List.perm_middle.map ReqTaskData.conn)
  refine ⟨hperm.nodup_iff.mpr (List.nodup_cons.mpr ⟨hnew, h.nodup⟩), ?_, ?_, ?_⟩
  · intro c hc
    rcases List.mem_cons.mp (hperm.mem_iff.mp hc) with rfl | hc
    · exact ⟨htable.net.fds_lt hconn, htable.net.fds_backlog hconn⟩
    · exact h.known c hc
  · intro fd c hfd hc
    rcases List.mem_cons.mp (hperm.mem_iff.mp hc) with rfl | hc
    · exact .inr ⟨i, by rw [htable.net.fds_inj hconn hfd]⟩
    · refine .inl ((h.spent fd c hfd hc).resolve_right ?_)
      rintro ⟨j, hm⟩
      rw [hmain] at hm
      cases hm
  · exact hfresh.1.congr rfl rfl rfl

lemma Reads.next {svrFd : ℕ} {s s' : State} {a : Action} (h : Reads svrFd s)
    (htable : Table svrFd s) (hstep : Next svrFd s a s') : Reads svrFd s' := by
  have hfresh := h.main
  have hopen := htable.main
  cases hstep with
  | @client a net hnet =>
    obtain ⟨hfds, hcases⟩ := Net.client_cases hnet
    refine ⟨h.nodup, fun c hc => ?_, ?_, hfresh.congr rfl rfl rfl hfds (.refl _)⟩
    · obtain ⟨hlt, hbacklog⟩ := h.known c hc
      show c < net.nextConn ∧ c ∉ net.backlog
      rcases hcases with ⟨hnext, hback⟩ | ⟨hnext, hback⟩
      · rw [hnext, hback]
        exact ⟨hlt, hbacklog⟩
      · rw [hnext, hback, List.mem_append, List.mem_singleton]
        refine ⟨by omega, ?_⟩
        rintro (hmem | rfl)
        · exact hbacklog hmem
        · omega
    · intro fd c hfd
      change net.fds fd = some c at hfd
      rw [hfds] at hfd
      exact h.spent fd c hfd
  | copySets hmain =>
    exact h.of_eq (.refl _) rfl rfl rfl rfl (by simp [hmain]) fun j fd _ _ hcopy => .inr hcopy
  | @select readable writable hmain hread =>
    rw [hmain] at hfresh
    refine h.of_eq (.refl _) rfl rfl rfl rfl (by simp [hmain]) fun j fd hj hget hcopy => ?_
    have hcan := hread fd (by simpa [ofList] using hcopy)
    simp only [canRead, Bool.and_eq_true] at hcan
    exact hfresh j fd hj hget hcan.1.2
  | selectNone hmain => exact h.of_eq (.refl _) rfl rfl rfl rfl (by simp [hmain]) trivial
  | dispatch hmain =>
    rw [hmain] at hfresh
    refine h.of_eq (.refl _) rfl rfl rfl rfl (by simp [hmain]) ?_
    show MainFresh svrFd _ (if s.copyReadSet svrFd = true then .accepting none else .scanning 0)
    split
    · exact Ahead.congr hfresh rfl rfl rfl
    · exact Ahead.congr hfresh rfl rfl rfl
  | accept hmain hnet hn =>
    obtain ⟨hknown, hnew, hspent⟩ := h.accept hnet
    rw [hmain] at hfresh
    refine ⟨h.nodup, hknown, fun fd c hfd hc => .inl ?_, Ahead.congr hfresh rfl rfl rfl, hnew⟩
    refine (h.spent fd c (hspent fd c hfd hc) hc).resolve_right ?_
    simp [hmain]
  | acceptZero hmain hnet =>
    obtain ⟨hknown, hnew, hspent⟩ := h.accept hnet
    rw [hmain] at hfresh
    refine ⟨h.nodup, hknown, fun fd c hfd hc => .inl ?_, Ahead.congr hfresh rfl rfl rfl⟩
    refine (h.spent fd c (hspent fd c hfd hc) hc).resolve_right ?_
    simp [hmain]
  | acceptEnd hmain =>
    rw [hmain] at hfresh
    exact h.of_eq (.refl _) rfl rfl rfl rfl (by simp [hmain]) (Ahead.congr hfresh rfl rfl rfl)
  | @eventAdd fd mxSock hmain hsize =>
    rw [hmain] at hfresh
    obtain ⟨hahead, hnew⟩ := hfresh
    refine ⟨h.nodup, h.known, ?_, ?_⟩
    · intro g c hg hc
      have hgfd : g ≠ fd := by
        rintro rfl
        exact hnew c hg hc
      refine .inl ?_
      show fdSet s.readSet fd g = false
      rw [fdSet, Function.update_of_ne hgfd]
      refine (h.spent g c hg hc).resolve_right ?_
      simp [hmain]
    · intro j g _ hget hcopy
      change (s.cltSockVec ++ [fd])[j]? = some g at hget
      show g = svrFd ∨ fdSet s.readSet fd g = true
      by_cases hgfd : g = fd
      · rw [hgfd]
        exact .inr (Function.update_self _ _ _)
      · rw [fdSet, Function.update_of_ne hgfd]
        refine hahead j g (Nat.zero_le _) ?_ hcopy
        rw [List.getElem?_append] at hget
        split at hget
        · exact hget
        · obtain ⟨hlt, heq⟩ := List.getElem?_eq_some_iff.mp hget
          rw [List.getElem_singleton] at heq
          exact absurd heq.symm hgfd
  | scanEnd hmain hget => exact h.of_eq (.refl _) rfl rfl rfl rfl (by simp [hmain]) trivial
  | scanSkip hmain =>
    rw [hmain] at hfresh
    refine h.of_eq (.refl _) rfl rfl rfl rfl (by simp [hmain]) ?_
    exact (Ahead.mono hfresh (Nat.le_succ _)).congr rfl rfl rfl
  | scanRead hmain hget hsvr hcopy =>
    rw [hmain] at hfresh
    refine h.of_eq (.refl _) rfl rfl rfl rfl (by simp [hmain]) ⟨?_, ?_⟩
    · exact (Ahead.mono hfresh (Nat.le_succ _)).congr rfl rfl rfl
    · exact (hfresh _ _ le_rfl hget hcopy).resolve_left hsvr
  | scanWrite hmain hget hsvr =>
    rw [hmain] at hfresh
    refine h.of_eq (.refl _) rfl rfl rfl rfl (by simp [hmain]) ?_
    exact (Ahead.mono hfresh (Nat.le_succ _)).congr rfl rfl rfl
  | recv hmain hnet =>
    obtain ⟨-, -, hfds, hbacklog, hnext⟩ := Net.recv_cases hnet
    rw [hmain] at hfresh
    exact h.of_eq (.refl _) hfds hbacklog hnext rfl (by simp [hmain])
      ⟨hfresh.1.congr rfl rfl rfl, hfresh.2⟩
  | recvTask hmain =>
    rw [hmain] at hfresh
    exact h.of_eq (.refl _) rfl rfl rfl rfl (by simp [hmain])
      ⟨hfresh.1.congr rfl rfl rfl, hfresh.2⟩
  | recvRet hmain =>
    rw [hmain] at hfresh
    exact h.of_eq (.refl _) rfl rfl rfl rfl (by simp [hmain]) (hfresh.1.congr rfl rfl rfl)
  | addTask hmain => exact h.addTask htable hmain
  | @afterOk i fd hmain =>
    rw [hmain] at hfresh hopen
    refine ⟨h.nodup, h.known, ?_, fun j g => hfresh.clr htable.nodup hopen.1⟩
    intro g c hg hc
    refine .inl ?_
    show fdClr s.readSet fd g = false
    by_cases hgfd : g = fd
    · rw [hgfd]
      exact Function.update_self _ _ _
    · rw [fdClr, Function.update_of_ne hgfd]
      refine (h.spent g c hg hc).resolve_right ?_
      rintro ⟨j, hm⟩
      rw [hmain] at hm
      cases hm
      exact hgfd rfl
  | afterFail hmain =>
    rw [hmain] at hfresh hopen
    exact h.drop htable hopen.1 hfresh (by simp [hmain])
  | write hmain =>
    rw [hmain] at hfresh hopen
    exact h.drop htable hopen.1 hfresh (by simp [hmain])
  | getTask hqueue =>
    have hasked := asked_getTask hqueue
    exact h.of_eq hasked rfl rfl rfl rfl (fun _ _ => id) (hfresh.congr rfl rfl rfl rfl hasked)
  | @run i httpBody task hget =>
    have hasked := asked_run hget httpBody s.produced.length
    exact h.of_eq hasked rfl rfl rfl rfl (fun _ _ => id) (hfresh.congr rfl rfl rfl rfl hasked)

/-- **On the select back-end a connection is asked for at most once.**  In every run no two of
the tasks that were queued are for one connection, and what the main thread reads is a
connection without a task: what a client sends behind its first request is never read.  The
vector of the loop has the listening socket and the open descriptors, each of them once, but for
the one that `_on_accept` is about to add and for the number 0.  An `fd_set` has room for all of
them, none is above the number that `select` is given, and one that has a task is not in the set
that `select` is given for reading. -/
theorem asked_once {svrFd : ℕ} (hsvr : svrFd < fdSetSize) {s : State}
    (h : Reachable (step svrFd) (init svrFd) s) :
    s.asked.Nodup ∧
      (∀ i fd conn chunks c, s.main = .reading i fd conn chunks → s.net.fds fd = some c →
        c ∉ s.asked) ∧
      s.cltSockVec.Nodup ∧
      (∀ fd, 0 < fd → (fd ∈ s.cltSockVec ↔
        fd = svrFd ∨ (s.net.fds fd ≠ none ∧ ∀ mxSock, s.main ≠ .adding fd mxSock))) ∧
      (∀ fd ∈ s.cltSockVec, fd < fdSetSize) ∧
      (s.main = .waiting → ∀ fd ∈ s.cltSockVec, fd ≤ s.maxSockFd ∧
        ∀ c, s.net.fds fd = some c → c ∈ s.asked → s.copyReadSet fd = false) := by
  obtain ⟨-, htable, hreads⟩ : Silent s ∧ Table svrFd s ∧ Reads svrFd s := by
    refine h.invariant (P := fun s => Silent s ∧ Table svrFd s ∧ Reads svrFd s)
      ⟨silent_init svrFd, table_init hsvr, reads_init svrFd⟩ ?_
    rintro s a s' ⟨hsilent, htable, hreads⟩ - hstep
    have hnext := next_of_step hsilent hstep
    exact ⟨hsilent.step hstep, htable.next hnext, hreads.next htable hnext⟩
  have hopen := htable.main
  have hfresh := hreads.main
  refine ⟨hreads.nodup, ?_, htable.nodup, ?_, htable.inside, ?_⟩
  · intro i fd conn chunks c hmain hfd hc
    rw [hmain] at hfresh
    rcases hreads.spent fd c hfd hc with hfalse | ⟨j, hm⟩
    · exact absurd (hfresh.2.symm.trans hfalse) (by decide)
    · rw [hmain] at hm
      cases hm
  · intro fd hpos
    constructor
    · intro hmem
      by_cases hsvr : fd = svrFd
      · exact .inl hsvr
      · refine .inr ⟨htable.opened fd hmem hsvr, fun mxSock hm => ?_⟩
        rw [hm] at hopen
        exact hopen.1 hmem
    · rintro (rfl | ⟨hfd, hadding⟩)
      · exact htable.svr_mem
      · refine (htable.covered fd hpos hfd).resolve_right ?_
        rintro ⟨mxSock, hm⟩
        exact hadding mxSock hm
  · intro hmain fd hfd
    have hle := htable.watched fd hfd
    rw [hmain] at hle hfresh
    refine ⟨by simpa [MainPc.mxSock] using hle, fun c hc hasked => ?_⟩
    obtain ⟨i, hi, hget⟩ := List.mem_iff_getElem.mp hfd
    have hread : s.readSet fd = false := by
      refine (hreads.spent fd c hc hasked).resolve_right ?_
      simp [hmain]
    by_contra hcopy
    rcases hfresh i fd (Nat.zero_le _) (List.getElem?_eq_some_iff.mpr ⟨hi, hget⟩)
      (Bool.not_eq_false _ |>.mp hcopy) with rfl | htrue
    · rw [htable.svr] at hc
      cases hc
    · rw [hread] at htrue
      cases htrue

/-- A client sends two requests, and the second one comes when the first has been read. -/
theorem asked_once_second :
    let connect : List Action := [.client .connect, .main .copySets, .main (.select [3] []),
      .main .dispatch, .main (.accept 5), .main .eventAdd, .main .acceptEnd, .main .scan, .main .scan,
      .main .scan]
    let request : List Action := [.client (.send 0 (bytes "GET /a")), .main .copySets,
      .main (.select [5] []), .main .dispatch, .main .scan, .main .scan, .main (.recv 6),
      .main (.recvEnd .again), .main .addTask, .main .afterRead, .main .scan]
    let second : List Action := [.client (.send 0 (bytes "GET /b")), .main .copySets]
    ∃ s, run (step 3) (init 3) (connect ++ request ++ second) = some s ∧ s.asked = [0] ∧
      s.net.inbox 0 = bytes "GET /b" ∧ s.main = .waiting ∧ s.cltSockVec = [3, 5] ∧
      s.asked.Nodup ∧ s.copyReadSet 5 = false := by
  intro connect request second
  obtain ⟨s, hrun, hrest⟩ := Option.map_eq_some_iff.mp (show (run (step 3) (init 3)
    (connect ++ request ++ second)).map (fun s => (s.asked, s.net.inbox 0, s.main, s.cltSockVec,
      s.net.fds 5)) = some ([0], bytes "GET /b", .waiting, [3, 5], some 0) by decide +kernel)
  simp only [Prod.mk.injEq] at hrest
  obtain ⟨hasked, hinbox, hmain, hvec, hfd⟩ := hrest
  obtain ⟨hnodup, -, -, -, -, hwatched⟩ :=
    asked_once (by decide : 3 < fdSetSize) (reachable_of_run .init hrun)
  refine ⟨s, hrun, hasked, hinbox, hmain, hvec, hnodup, ?_⟩
  exact (hwatched hmain 5 (by simp [hvec])).2 0 hfd (by simp [hasked])

end Select
end Io
end Sunet
