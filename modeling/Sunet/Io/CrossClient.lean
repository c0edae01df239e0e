/-
# Responses to the wrong client

A task holds the number of a descriptor.  If the connection is closed while the task waits
or runs, and `accept` gives the number to another client, the worker arms its response on
the registration of that client, and the main thread sends it there.  This is the only way:
in runs in which `accept` returns no number that a task holds, every response is sent on the
connection its request was read from.
-/
import Sunet.Io.EpollInvariant

namespace Sunet
namespace Io
namespace Epoll

open Transition

/-- Everything that was sent went to the connection its request was read from. -/
def NoCrossClient (s : State) : Prop := ∀ r ∈ s.sent, r.conn = r.env.conn

/-- The descriptor that a call of `accept` returns. -/
def Action.accepted : Action → Option ℕ
  | .main (.accept n) => some n
  | _ => none

/-- A call of `accept` returns no descriptor that a queued or running task holds. -/
def AcceptsFresh (s : State) (a : Action) : Prop :=
  ∀ n ∈ a.accepted, ∀ t ∈ s.queue ++ s.running, t.fd ≠ n

instance (s : State) (a : Action) : Decidable (AcceptsFresh s a) :=
  inferInstanceAs (Decidable (∀ n ∈ a.accepted, ∀ t ∈ s.queue ++ s.running, t.fd ≠ n))

/-- The response at an address will be sent, or is armed. -/
def Referenced (s : State) (a : ℕ) : Prop :=
  (∃ n, s.main = .writing a n) ∨ (∃ ev ∈ s.batch, ev.data = .ptr a) ∨
    ∃ f r, s.regs f = some r ∧ r.data = .ptr a

/-- Where a task or a response is for an open descriptor, its connection stands behind it. -/
structure OwnClient (s : State) : Prop where
  queue : ∀ t ∈ s.queue, ∀ {c}, s.net.fds t.fd = some c → c = t.conn
  running : ∀ t ∈ s.running, ∀ {c}, s.net.fds t.fd = some c → c = t.conn
  env : ∀ {a e}, Referenced s a → s.envs a = some e → ∀ {c}, s.net.fds e.fd = some c → c = e.conn
  sent : NoCrossClient s

/-- The descriptor of a response that is referenced is open. -/
lemma Inv.open_of_referenced {svrFd : ℕ} {s : State} (h : Inv svrFd s) {a : ℕ} {e : OutEnv}
    (href : Referenced s a) (he : s.envs a = some e) : ∃ c, s.net.fds e.fd = some c := by
  have hsvr := (h.owned.produced e (h.owned.env he)).2.1
  have hopen : IsOpen svrFd s.net e.fd := by
    rcases href with ⟨n, hmain⟩ | ⟨ev, hev, hdata⟩ | ⟨f, r, hr, hdata⟩
    · obtain ⟨f, hf, hopen⟩ := h.registered.busy_open ((s.envs a).map OutEnv.fd) (by
        rw [busy, hmain]
        exact List.mem_cons_self)
      rw [he] at hf
      cases hf
      exact hopen
    · obtain ⟨f, hf, hopen⟩ := h.registered.busy_open (ev.key s.envs)
        (List.mem_append_right _ (List.mem_map_of_mem hev))
      rw [Event.key, hdata] at hf
      change (s.envs a).map OutEnv.fd = some f at hf
      rw [he] at hf
      cases hf
      exact hopen
    · rcases h.registered.reg hr with rfl | ⟨a', e', rfl, he', hfd⟩
      · cases hdata
      · cases hdata
        rw [he] at he'
        cases he'
        rw [hfd]
        exact h.registered.reg_open hr
  rcases hopen with hf | hc
  · exact absurd hf hsvr
  · exact hc

/-- A step that adds no descriptor, no task and no reference to a response. -/
lemma OwnClient.of_subset {s s' : State} (h : OwnClient s)
    (hfds : ∀ {f c}, s'.net.fds f = some c → s.net.fds f = some c)
    (hqueue : ∀ t ∈ s'.queue, t ∈ s.queue)
    (hrunning : ∀ t ∈ s'.running, t ∈ s.queue ∨ t ∈ s.running)
    (henv : ∀ {a e}, s'.envs a = some e → s.envs a = some e)
    (href : ∀ {a}, Referenced s' a → Referenced s a) (hsent : NoCrossClient s') :
    OwnClient s' where
  queue := fun t ht _ hc => h.queue t (hqueue t ht) (hfds hc)
  running := fun t ht _ hc => (hrunning t ht).elim
    (fun ht => h.queue t ht (hfds hc)) (fun ht => h.running t ht (hfds hc))
  env := fun ha he _ hc => h.env (href ha) (henv he) (hfds hc)
  sent := hsent

/-- Only the main thread has moved, and does not write. -/
lemma OwnClient.of_main {s : State} (h : OwnClient s) {main : MainPc}
    (hmain : ∀ a n, main ≠ .writing a n) : OwnClient { s with main := main } := by
  refine h.of_subset id (fun _ h => h) (fun _ h => Or.inr h) id ?_ h.sent
  rintro a (⟨n, hm⟩ | href)
  · exact absurd hm (hmain a n)
  · exact Or.inr href

/-- The main thread has taken up an event, and writes only what an event referred to. -/
lemma OwnClient.of_batch {s : State} (h : OwnClient s) {main : MainPc} {batch : List Event}
    (hbatch : ∀ ev ∈ batch, ev ∈ s.batch)
    (hmain : ∀ {a n}, main = .writing a n → Referenced s a) :
    OwnClient { s with batch := batch, main := main } := by
  refine h.of_subset id (fun _ h => h) (fun _ h => Or.inr h) id ?_ h.sent
  rintro a (⟨n, hm⟩ | ⟨ev, hev, hdata⟩ | hr)
  · exact hmain hm
  · exact Or.inr (Or.inl ⟨ev, hbatch ev hev, hdata⟩)
  · exact Or.inr (Or.inr hr)

/-- No response is referred to that was not, when the thread does not write and no
registration is new. -/
lemma Referenced.of_regs {s s' : State} {a : ℕ} (h : Referenced s' a)
    (hmain : ∀ n, s'.main ≠ .writing a n) (hbatch : s'.batch = s.batch)
    (hregs : ∀ {f r}, s'.regs f = some r → r.data = .ptr a → s.regs f = some r) :
    Referenced s a := by
  rcases h with ⟨n, hm⟩ | hev | ⟨f, r, hr, hdata⟩
  · exact absurd hm (hmain n)
  · exact Or.inr (Or.inl (hbatch ▸ hev))
  · exact Or.inr (Or.inr ⟨f, r, hregs hr hdata, hdata⟩)

lemma OwnClient.next {svrFd : ℕ} {s s' : State} {a : Action} (h : OwnClient s)
    (hinv : Inv svrFd s) (hok : AcceptsFresh s a) (hstep : Next svrFd s a s') : OwnClient s' := by
  have hmainOwned := hinv.owned.main
  cases hstep with
  | client hnet =>
    have hfds := (Net.client_cases hnet).1
    exact h.of_subset (fun hc => hfds ▸ hc) (fun _ h => h) (fun _ h => Or.inr h) id id h.sent
  | epollWait hmain hbatch hnodup hready =>
    refine h.of_subset id (fun _ h => h) (fun _ h => Or.inr h) id ?_ h.sent
    rintro a (hm | ⟨ev, hev, hdata⟩ | hr)
    · exact Or.inl hm
    · obtain ⟨r, hr, hreport⟩ := List.mem_filterMap.mp hev
      rw [report, Option.map_eq_some_iff] at hreport
      obtain ⟨reg, hreg, rfl⟩ := hreport
      exact Or.inr (Or.inr ⟨_, reg, hreg, hdata⟩)
    · exact Or.inr (Or.inr hr)
  | dispatchAccept hmain hbatch hsvr =>
    exact h.of_batch (mem_batch_of_mem hbatch) (fun hm => by cases hm)
  | dispatchRead hmain hbatch hsvr hin =>
    exact h.of_batch (mem_batch_of_mem hbatch) (fun hm => by cases hm)
  | dispatchEmpty hmain hbatch hdata henv hempty =>
    exact absurd hempty (hinv.owned.produced _ (hinv.owned.env henv)).1
  | @dispatchWrite ev rest a outEnv hmain hbatch hdata henv =>
    refine h.of_batch (mem_batch_of_mem hbatch) fun hm => ?_
    cases hm
    exact Or.inr (Or.inl ⟨ev, hbatch ▸ List.mem_cons_self, hdata⟩)
  | dispatchSkip hmain hbatch =>
    exact h.of_batch (mem_batch_of_mem hbatch) fun hm => Or.inl ⟨_, hm⟩
  | @accept n net hmain hnet =>
    obtain ⟨c, backlog, hbacklog, hn, hfree, hnet'⟩ := Net.accept_cases hnet
    -- the new descriptor is neither that of a task nor that of a response
    have hfds : ∀ {f x}, f ≠ n → net.fds f = some x → s.net.fds f = some x := by
      intro f x hf hx
      rw [hnet'] at hx
      change Function.update s.net.fds n (some c) f = some x at hx
      rwa [Function.update_of_ne hf] at hx
    refine ⟨?_, ?_, ?_, h.sent⟩
    · intro t ht x hx
      exact h.queue t ht (hfds (hok n rfl t (List.mem_append_left _ ht)) hx)
    · intro t ht x hx
      exact h.running t ht (hfds (hok n rfl t (List.mem_append_right _ ht)) hx)
    · intro a e href he x hx
      have href' : Referenced s a := by
        rcases href with ⟨m, hm⟩ | href
        · change (if 0 < n then MainPc.adding n else .loop) = .writing a m at hm
          split at hm <;> cases hm
        · exact Or.inr href
      obtain ⟨y, hy⟩ := hinv.open_of_referenced href' he
      refine h.env href' he (hfds ?_ hx)
      intro hen
      rw [hen, hfree] at hy
      cases hy
  | acceptEnd hmain => exact h.of_main (by simp)
  | eventAdd hmain =>
    refine h.of_subset id (fun _ h => h) (fun _ h => Or.inr h) id ?_ h.sent
    refine fun href => href.of_regs (by simp) rfl fun hr hdata => ?_
    rcases of_eventAdd hr with ⟨-, rfl⟩ | hr
    · cases hdata
    · exact hr
  | recv hmain hnet =>
    obtain ⟨hc, hchunk, hfds, hbacklog, hnext⟩ := Net.recv_cases hnet
    refine h.of_subset (fun hx => hfds ▸ hx) (fun _ h => h) (fun _ h => Or.inr h) id ?_ h.sent
    exact fun href => href.of_regs (by simp) rfl fun hr _ => hr
  | recvTask hmain hread => exact h.of_main (by simp)
  | recvNone hmain hread => exact h.of_main (by simp)
  | recvFail hmain => exact h.of_main (by simp)
  | @addTask task hmain =>
    rw [hmain] at hmainOwned
    refine ⟨?_, h.running, ?_, h.sent⟩
    · intro t ht c hc
      rcases List.mem_append.mp ht with ht | ht
      · exact h.queue t ht hc
      · rw [List.mem_singleton] at ht
        subst ht
        have hown : s.net.fds t.fd = some t.conn := hmainOwned.2
        change s.net.fds t.fd = some c at hc
        rw [hown] at hc
        exact (Option.some.inj hc).symm
    · rintro a e (⟨n, hm⟩ | href) he
      · cases hm
      · exact h.env (Or.inr href) he
  | eventDel hmain =>
    refine h.of_subset id (fun _ h => h) (fun _ h => Or.inr h) id ?_ h.sent
    exact fun href => href.of_regs (by simp) rfl fun hr _ => (of_eventDel hr).2
  | close hmain =>
    refine h.of_subset (fun hc => (Net.close_fds_of_some hc).2) (fun _ h => h)
      (fun _ h => Or.inr h) id ?_ h.sent
    exact fun href => href.of_regs (by simp) rfl fun hr _ => (of_eventDel hr).2
  | sendFail hmain henv => exact h.of_main (by simp)
  | @send a n k c outEnv hmain henv hfd hk =>
    refine h.of_subset id (fun _ h => h) (fun _ h => Or.inr h) id ?_ ?_
    · exact fun href => href.of_regs (by simp) rfl fun hr _ => hr
    · intro r hr
      rcases List.mem_append.mp hr with hr | hr
      · exact h.sent r hr
      · rw [List.mem_singleton] at hr
        subst hr
        exact h.env (Or.inl ⟨n, hmain⟩) henv hfd
  | @rearm a outEnv hmain henv =>
    refine h.of_subset id (fun _ h => h) (fun _ h => Or.inr h) ?_ ?_ h.sent
    · intro a' e he
      change Function.update s.envs a none a' = some e at he
      rw [Function.update_apply] at he
      split at he
      · cases he
      · exact he
    · refine fun href => href.of_regs (by simp) rfl fun hr hdata => ?_
      rcases of_eventMod hr with ⟨-, rfl, -⟩ | ⟨-, hr⟩
      · cases hdata
      · exact hr
  | getTask hqueue =>
    refine h.of_subset id ?_ ?_ id id h.sent
    · exact fun t ht => hqueue ▸ List.mem_cons_of_mem _ ht
    · intro t ht
      rcases List.mem_append.mp ht with ht | ht
      · exact Or.inr ht
      · rw [List.mem_singleton] at ht
        exact Or.inl (by rw [hqueue, ht]; exact List.mem_cons_self)
  | @run i a httpBody task htask henv =>
    refine ⟨h.queue, fun t ht => h.running t (List.mem_of_mem_eraseIdx ht), ?_, h.sent⟩
    intro a' e href he c hc
    change Function.update s.envs a (some _) a' = some e at he
    rw [Function.update_apply] at he
    split at he
    · cases he
      exact h.running task (List.mem_of_getElem? htask) hc
    · next hne =>
      refine h.env ?_ he hc
      rcases href with hm | hev | ⟨f, r, hr, hdata⟩
      · exact Or.inl hm
      · exact Or.inr (Or.inl hev)
      · rcases of_eventMod hr with ⟨-, rfl, -⟩ | ⟨-, hr⟩
        · cases hdata
          exact absurd rfl hne
        · exact Or.inr (Or.inr ⟨f, r, hr, hdata⟩)

lemma ownClient_init (svrFd : ℕ) : OwnClient (init svrFd) where
  queue := fun _ h => by cases h
  running := fun _ h => by cases h
  env := fun _ h => by cases h
  sent := fun _ h => by cases h

/-- **Responses reach their own client**, in every run in which `accept` returns no descriptor
that a task holds. -/
theorem noCrossClient_of_acceptsFresh {svrFd : ℕ} {s : State}
    (h : ReachableWhile (step svrFd) AcceptsFresh (init svrFd) s) : NoCrossClient s := by
  have hown : OwnClient s := by
    refine h.invariant_of (Q := Inv svrFd) (fun _ => inv_of_reachable) (ownClient_init svrFd) ?_
    intro s a s' hinv _ hown hok hstep
    exact hown.next hinv hok (next_of_step hstep)
  exact hown.sent

/-- A client is served and closes, and the next one, who gets its descriptor, is served as
well. -/
theorem noCrossClient_of_acceptsFresh_single :
    ∃ s, ReachableWhile (step 3) AcceptsFresh (init 3) s ∧
      s.sent.map (fun r => (r.conn, r.env.conn, r.env.fd)) = [(0, 0, 5), (1, 1, 5)] ∧
      NoCrossClient s := by
  let serve (c : ℕ) (data : Bytes) : List Action :=
    connectRun 3 5 ++ requestRun 5 c data ++
      [.worker .getTask, .worker (.run 0 (bytes "null\n") 16)] ++ sendRun 5 75
  have hrun : ((run (fun s a => if AcceptsFresh s a then step 3 s a else none) (init 3)
      (serve 0 (bytes "GET /a HTTP/1.1\r\n\r\n") ++ closeRun 5 0 ++
        serve 1 (bytes "GET /b HTTP/1.1\r\n\r\n"))).map
      fun s => s.sent.map fun r => (r.conn, r.env.conn, r.env.fd)) =
        some [(0, 0, 5), (1, 1, 5)] := by
    decide +kernel
  obtain ⟨s, hs, hsent⟩ := Option.map_eq_some_iff.mp hrun
  have hreach : ReachableWhile (step 3) AcceptsFresh (init 3) s := ReachableWhile.init.of_run hs
  exact ⟨s, hreach, hsent, noCrossClient_of_acceptsFresh hreach⟩

/-- A client closes while its request is in the queue; its descriptor goes to the next
client, who gets the response. -/
theorem not_noCrossClient : ¬ ∀ s, Reachable (step 3) (init 3) s → NoCrossClient s := by
  intro h
  have hrun : ((run (step 3) (init 3)
      (connectRun 3 5 ++ requestRun 5 0 (bytes "GET / HTTP/1.1\r\n\r\n") ++ [.worker .getTask] ++
        closeRun 5 0 ++ connectRun 3 5 ++ [.worker (.run 0 (bytes "null\n") 16)] ++
        sendRun 5 75)).map
      fun s => s.sent.map fun r => (r.conn, r.env.conn)) = some [(1, 0)] := by
    decide
  obtain ⟨s, hs, hsent⟩ := Option.map_eq_some_iff.mp hrun
  obtain ⟨r, hr, hconn⟩ := List.map_eq_singleton_iff.mp hsent
  have hsame := h s (reachable_of_run .init hs) r (by rw [hr]; exact List.mem_singleton_self r)
  obtain ⟨h₁, h₀⟩ := Prod.mk.inj hconn
  omega

end Epoll
end Io
end Sunet
