/-
# Invariants of the epoll server

What holds in every reachable state, whatever the order of the steps.  A task and a response
carry the descriptor under which their connection was accepted, as long as it is open.  A
registration holds its own descriptor or a response for it; and the events that are still to
be handled are for different open descriptors, none of which the main thread is working on.
So the main thread follows no pointer to a response that was deleted.
-/
import Sunet.Io.Epoll

namespace Sunet
namespace Io
namespace Epoll

open Transition

/-! ## Whose a task is -/

/-- What the main thread reads it reads from the connection it names. -/
def MainOwned (svrFd : ℕ) (net : Net) : MainPc → Prop
  | .adding fd => ∃ c, net.fds fd = some c
  | .reading fd conn _ => fd ≠ svrFd ∧ ∀ c, conn = some c → net.fds fd = some c
  | .queueing task => task.fd ≠ svrFd ∧ net.fds task.fd = some task.conn
  | .deleting fd => fd ≠ svrFd
  | .closing fd => fd ≠ svrFd
  | _ => True

/-- Tasks and responses carry the descriptor of their connection. -/
structure Owned (svrFd : ℕ) (s : State) : Prop where
  net : s.net.WF
  svr : s.net.fds svrFd = none
  main : MainOwned svrFd s.net s.main
  queue : ∀ t ∈ s.queue, t.fd ≠ svrFd ∧ s.net.AcceptedAs t.fd t.conn
  running : ∀ t ∈ s.running, t.fd ≠ svrFd ∧ s.net.AcceptedAs t.fd t.conn
  produced : ∀ e ∈ s.produced, e.buf ≠ [] ∧ e.fd ≠ svrFd ∧ s.net.AcceptedAs e.fd e.conn
  env : ∀ {a e}, s.envs a = some e → e ∈ s.produced

/-- The part of `Owned` that a change of the network has to keep. -/
lemma Owned.of_net {svrFd : ℕ} {s : State} (h : Owned svrFd s) {net : Net} {main : MainPc}
    (hwf : net.WF) (hsvr : net.fds svrFd = none) (hmain : MainOwned svrFd net main)
    (hacc : ∀ {f c}, s.net.AcceptedAs f c → net.AcceptedAs f c) :
    Owned svrFd { s with net := net, main := main } where
  net := hwf
  svr := hsvr
  main := hmain
  queue := fun t ht => ⟨(h.queue t ht).1, hacc (h.queue t ht).2⟩
  running := fun t ht => ⟨(h.running t ht).1, hacc (h.running t ht).2⟩
  produced := fun e he =>
    ⟨(h.produced e he).1, (h.produced e he).2.1, hacc (h.produced e he).2.2⟩
  env := h.env

/-- Only the main thread has moved, and possibly the registrations and the batch. -/
lemma Owned.of_main {svrFd : ℕ} {s : State} (h : Owned svrFd s) {main : MainPc}
    {regs : ℕ → Option Reg} {batch : List Event} {sent : List Sent}
    (hmain : MainOwned svrFd s.net main) :
    Owned svrFd { s with regs := regs, batch := batch, main := main, sent := sent } :=
  ⟨h.net, h.svr, hmain, h.queue, h.running, h.produced, h.env⟩

lemma owned_init (svrFd : ℕ) : Owned svrFd (init svrFd) where
  net := Net.wf_init
  svr := rfl
  main := trivial
  queue := fun _ h => by cases h
  running := fun _ h => by cases h
  produced := fun _ h => by cases h
  env := fun h => by cases h

lemma MainOwned.congr {svrFd : ℕ} {net net' : Net} {main : MainPc}
    (h : MainOwned svrFd net main) (hfds : net'.fds = net.fds) : MainOwned svrFd net' main := by
  cases main with
  | reading fd conn chunks => exact ⟨h.1, fun c hc => by rw [hfds]; exact h.2 c hc⟩
  | queueing task => exact ⟨h.1, by rw [hfds]; exact h.2⟩
  | deleting fd => exact h
  | closing fd => exact h
  | loop => trivial
  | accepting => trivial
  | adding fd =>
    show ∃ c, net'.fds fd = some c
    rw [hfds]
    exact h
  | writing a n => trivial
  | rearming a => trivial

lemma Owned.next {svrFd : ℕ} {s s' : State} {a : Action} (h : Owned svrFd s)
    (hstep : Next svrFd s a s') : Owned svrFd s' := by
  have hmainOwned := h.main
  cases hstep with
  | client hnet =>
    have hfds := (Net.client_cases hnet).1
    exact h.of_net (h.net.client hnet) (by rw [hfds]; exact h.svr) (h.main.congr hfds)
      fun hacc => hacc.client hnet
  | epollWait hmain hbatch hnodup hready => exact h.of_main h.main
  | dispatchAccept hmain hbatch hsvr => exact h.of_main trivial
  | dispatchRead hmain hbatch hsvr hin =>
    exact h.of_main ⟨hsvr, fun c hc => by cases hc⟩
  -- no response is empty, it starts with the status line
  | dispatchEmpty hmain hbatch hdata henv hempty =>
    exact absurd hempty (h.produced _ (h.env henv)).1
  | dispatchWrite hmain hbatch hdata henv => exact h.of_main trivial
  | dispatchSkip hmain hbatch => exact h.of_main h.main
  | accept hmain hnet =>
    obtain ⟨c, backlog, hbacklog, hn, hfree, hnet'⟩ := Net.accept_cases hnet
    refine h.of_net (h.net.accept hnet) ?_ ?_ fun hacc => hacc.accept hnet
    · rw [hnet']
      show Function.update s.net.fds _ (some c) svrFd = none
      rw [Function.update_of_ne (Ne.symm hn)]
      exact h.svr
    · split
      · refine ⟨c, ?_⟩
        rw [hnet']
        exact Function.update_self _ _ _
      · trivial
  | acceptEnd hmain => exact h.of_main trivial
  | eventAdd hmain => exact h.of_main trivial
  | recv hmain hnet =>
    obtain ⟨hc, hchunk, hfds, hbacklog, hnext⟩ := Net.recv_cases hnet
    rw [hmain] at hmainOwned
    refine h.of_net (h.net.congr hfds hbacklog hnext) (by rw [hfds]; exact h.svr)
      ⟨hmainOwned.1, ?_⟩ fun hacc => hacc.congr hfds hbacklog hnext
    intro x hx
    rw [hfds, hc, hx]
  | recvTask hmain hread =>
    rw [hmain] at hmainOwned
    exact h.of_main ⟨hmainOwned.1, hmainOwned.2 _ rfl⟩
  | recvNone hmain hread => exact h.of_main trivial
  | recvFail hmain =>
    rw [hmain] at hmainOwned
    exact h.of_main hmainOwned.1
  | @addTask task hmain =>
    rw [hmain] at hmainOwned
    refine ⟨h.net, h.svr, trivial, ?_, h.running, h.produced, h.env⟩
    intro t ht
    rcases List.mem_append.mp ht with ht | ht
    · exact h.queue t ht
    · rw [List.mem_singleton] at ht
      subst ht
      exact ⟨hmainOwned.1, h.net.acceptedAs hmainOwned.2⟩
  | eventDel hmain =>
    rw [hmain] at hmainOwned
    exact h.of_main hmainOwned
  | close hmain =>
    refine ⟨h.net.close _, ?_, trivial, ?_, ?_, ?_, h.env⟩
    -- the listening socket was never a client's descriptor
    · cases hfd : (s.net.close _).fds svrFd with
      | none => rfl
      | some c =>
        have hopen := (Net.close_fds_of_some hfd).2
        rw [h.svr] at hopen
        cases hopen
    · exact fun t ht => ⟨(h.queue t ht).1, (h.queue t ht).2.close _⟩
    · exact fun t ht => ⟨(h.running t ht).1, (h.running t ht).2.close _⟩
    · exact fun e he =>
        ⟨(h.produced e he).1, (h.produced e he).2.1, (h.produced e he).2.2.close _⟩
  | sendFail hmain henv => exact h.of_main trivial
  | send hmain henv hfd hk => exact h.of_main trivial
  | rearm hmain henv =>
    refine ⟨h.net, h.svr, trivial, h.queue, h.running, h.produced, ?_⟩
    intro a' e he
    change Function.update s.envs _ none a' = some e at he
    rw [Function.update_apply] at he
    split at he
    · cases he
    · exact h.env he
  | getTask hqueue =>
    have hhead := h.queue _ (by rw [hqueue]; exact List.mem_cons_self)
    refine ⟨h.net, h.svr, h.main, ?_, ?_, h.produced, h.env⟩
    · exact fun t ht => h.queue t (by rw [hqueue]; exact List.mem_cons_of_mem _ ht)
    · intro t ht
      rcases List.mem_append.mp ht with ht | ht
      · exact h.running t ht
      · rw [List.mem_singleton] at ht
        exact ht ▸ hhead
  | run htask henv =>
    have htaskOwned := h.running _ (List.mem_of_getElem? htask)
    refine ⟨h.net, h.svr, h.main, h.queue, ?_, ?_, ?_⟩
    · exact fun t ht => h.running t (List.mem_of_mem_eraseIdx ht)
    · intro e he
      rcases List.mem_append.mp he with he | he
      · exact h.produced e he
      · rw [List.mem_singleton] at he
        subst he
        exact ⟨OutEnv.new_buf_ne_nil _ _ _, htaskOwned⟩
    · intro a' e he
      change Function.update s.envs _ (some _) a' = some e at he
      rw [Function.update_apply] at he
      split at he
      · cases he
        simp
      · exact List.mem_append_left _ (h.env he)

/-! ## What is registered and reported -/

@[simp] lemma eventDel_self (regs : ℕ → Option Reg) (fd : ℕ) : eventDel regs fd fd = none := by
  rw [eventDel, Function.update_self]

lemma of_eventDel {regs : ℕ → Option Reg} {fd f : ℕ} {r : Reg}
    (h : eventDel regs fd f = some r) : f ≠ fd ∧ regs f = some r := by
  by_cases hf : f = fd
  · subst hf
    rw [eventDel_self] at h
    cases h
  · rw [eventDel, Function.update_of_ne hf] at h
    exact ⟨hf, h⟩

lemma of_eventAdd {regs : ℕ → Option Reg} {fd f : ℕ} {r : Reg}
    (h : eventAdd regs fd f = some r) :
    (f = fd ∧ r = ⟨.input, .fd fd⟩) ∨ regs f = some r := by
  rw [eventAdd] at h
  split at h
  · rw [Function.update_apply] at h
    split at h
    · next hf => exact Or.inl ⟨hf, (Option.some.inj h).symm⟩
    · exact Or.inr h
  · exact Or.inr h

lemma of_eventMod {regs : ℕ → Option Reg} {fd f : ℕ} {reg r : Reg}
    (h : eventMod regs fd reg f = some r) :
    (f = fd ∧ r = reg ∧ ∃ r₀, regs fd = some r₀) ∨ (f ≠ fd ∧ regs f = some r) := by
  rw [eventMod] at h
  split at h
  · next hnone =>
    refine Or.inr ⟨?_, h⟩
    rintro rfl
    rw [hnone] at h
    cases h
  · next hsome =>
    rw [Function.update_apply] at h
    split at h
    · next hf => exact Or.inl ⟨hf, (Option.some.inj h).symm, Option.ne_none_iff_exists'.mp hsome⟩
    · next hf => exact Or.inr ⟨hf, h⟩

/-- What is registered after `epoll_ctl` was registered before. -/
lemma exists_of_eventMod {regs : ℕ → Option Reg} {fd f : ℕ} {reg r : Reg}
    (h : eventMod regs fd reg f = some r) : ∃ r₀, regs f = some r₀ := by
  rcases of_eventMod h with ⟨rfl, -, hsome⟩ | ⟨-, hsame⟩
  · exact hsome
  · exact ⟨r, hsame⟩

/-- A registration holds its descriptor, or a response for it. -/
def RegOk (envs : ℕ → Option OutEnv) (f : ℕ) (r : Reg) : Prop :=
  r = ⟨.input, .fd f⟩ ∨ ∃ a e, r = ⟨.output, .ptr a⟩ ∧ envs a = some e ∧ e.fd = f

/-- A registration is not affected when the response of another descriptor changes. -/
lemma RegOk.update {envs : ℕ → Option OutEnv} {a f : ℕ} {r : Reg} (h : RegOk envs f r)
    (x : Option OutEnv) (ha : ∀ e, envs a = some e → e.fd ≠ f) :
    RegOk (Function.update envs a x) f r := by
  rcases h with rfl | ⟨a', e, rfl, he, hfd⟩
  · exact Or.inl rfl
  · refine Or.inr ⟨a', e, rfl, ?_, hfd⟩
    have hne : a' ≠ a := by
      rintro rfl
      exact ha e he hfd
    rw [Function.update_of_ne hne]
    exact he

/-- The descriptor an event is for. -/
def Event.key (envs : ℕ → Option OutEnv) (ev : Event) : Option ℕ :=
  match ev.data with
  | .fd n => some n
  | .ptr a => (envs a).map OutEnv.fd

/-- The descriptor the main thread works on. -/
def MainPc.keys (envs : ℕ → Option OutEnv) : MainPc → List (Option ℕ)
  | .reading fd _ _ => [some fd]
  | .queueing task => [some task.fd]
  | .deleting fd => [some fd]
  | .closing fd => [some fd]
  | .writing a _ => [(envs a).map OutEnv.fd]
  | .rearming a => [(envs a).map OutEnv.fd]
  | _ => []

/-- The descriptors the main thread works on or has an event for. -/
def busy (envs : ℕ → Option OutEnv) (main : MainPc) (batch : List Event) : List (Option ℕ) :=
  main.keys envs ++ batch.map (Event.key envs)

/-- An event for reading carries a descriptor, an event for writing a response. -/
def EventOk (ev : Event) : Prop :=
  (ev.epollin = true → ∃ n, ev.data = .fd n) ∧ (ev.epollout = true → ∃ a, ev.data = .ptr a)

/-- A descriptor that is open. -/
def IsOpen (svrFd : ℕ) (net : Net) (f : ℕ) : Prop := f = svrFd ∨ ∃ c, net.fds f = some c

/-- The registrations and the events are in order. -/
structure Registered (svrFd : ℕ) (s : State) : Prop where
  reg : ∀ {f r}, s.regs f = some r → RegOk s.envs f r
  reg_open : ∀ {f r}, s.regs f = some r → IsOpen svrFd s.net f
  event : ∀ ev ∈ s.batch, EventOk ev
  nodup : (busy s.envs s.main s.batch).Nodup
  busy_open : ∀ k ∈ busy s.envs s.main s.batch, ∃ f, k = some f ∧ IsOpen svrFd s.net f
  closing : ∀ {f}, s.main = .closing f → s.regs f = none

lemma registered_init (svrFd : ℕ) : Registered svrFd (init svrFd) where
  reg := by
    intro f r h
    change Function.update (fun _ => none) svrFd _ f = some r at h
    rw [Function.update_apply] at h
    split at h
    · next hf => exact Or.inl (by rw [hf]; exact (Option.some.inj h).symm)
    · cases h
  reg_open := by
    intro f r h
    change Function.update (fun _ => none) svrFd _ f = some r at h
    rw [Function.update_apply] at h
    split at h
    · next hf => exact Or.inl hf
    · cases h
  event := fun _ h => by cases h
  nodup := List.nodup_nil
  busy_open := fun _ h => by cases h
  closing := fun h => by cases h

/-- The keys of the events that `epoll_wait` reports are the descriptors it reports. -/
lemma map_key_report {svrFd : ℕ} {s : State} (h : Registered svrFd s)
    {ready : List (ℕ × Bool × Bool)} (hready : ∀ r ∈ ready, canReport svrFd s r = true) :
    (ready.filterMap (report s.regs)).map (Event.key s.envs) = ready.map fun r => some r.1 := by
  induction ready with
  | nil => rfl
  | cons r ready ih =>
    have htail := ih fun x hx => hready x (List.mem_cons_of_mem _ hx)
    have hhead := hready r List.mem_cons_self
    cases hreg : s.regs r.1 with
    | none =>
      simp only [canReport, hreg] at hhead
      cases hhead
    | some reg =>
      have hreport : report s.regs r = some ⟨r.2.1, r.2.2, reg.data⟩ := by
        rw [report, hreg]
        rfl
      rw [List.filterMap_cons_some hreport, List.map_cons, List.map_cons, htail]
      congr 1
      rcases h.reg hreg with rfl | ⟨a, e, rfl, he, hfd⟩
      · rfl
      · show (s.envs a).map OutEnv.fd = some r.1
        rw [he, ← hfd]
        rfl

lemma eventOk_report {svrFd : ℕ} {s : State} (h : Registered svrFd s) {r : ℕ × Bool × Bool}
    {ev : Event} (hready : canReport svrFd s r = true) (hev : report s.regs r = some ev) :
    EventOk ev := by
  cases hreg : s.regs r.1 with
  | none =>
    simp only [canReport, hreg] at hready
    cases hready
  | some reg =>
    rw [report, hreg] at hev
    cases hev
    simp only [canReport, hreg] at hready
    rcases h.reg hreg with rfl | ⟨a, e, rfl, he, hfd⟩
    · refine ⟨fun _ => ⟨r.1, rfl⟩, fun hout => ?_⟩
      rw [show r.2.2 = true from hout] at hready
      simp at hready
    · refine ⟨fun hin => ?_, fun _ => ⟨a, rfl⟩⟩
      rw [show r.2.1 = true from hin] at hready
      simp at hready

/-- A change of a response whose descriptor is not busy. -/
lemma busy_update {envs : ℕ → Option OutEnv} {main : MainPc} {batch : List Event} {a : ℕ}
    (h : (envs a).map OutEnv.fd ∉ busy envs main batch) (x : Option OutEnv) :
    busy (Function.update envs a x) main batch = busy envs main batch := by
  have hmain : ∀ n, main ≠ .writing a n ∧ main ≠ .rearming a := by
    refine fun n => ⟨?_, ?_⟩ <;> rintro rfl
    · exact h List.mem_cons_self
    · exact h List.mem_cons_self
  have hbatch : ∀ ev ∈ batch, ev.data ≠ .ptr a := by
    intro ev hev hdata
    refine h (List.mem_append_right _ (List.mem_map.mpr ⟨ev, hev, ?_⟩))
    rw [Event.key, hdata]
  rw [busy, busy]
  congr 1
  · cases main with
    | writing a' n =>
      have hne : a' ≠ a := fun h => (hmain n).1 (by rw [h])
      simp only [MainPc.keys, Function.update_of_ne hne]
    | rearming a' =>
      have hne : a' ≠ a := fun h => (hmain 0).2 (by rw [h])
      simp only [MainPc.keys, Function.update_of_ne hne]
    | loop => rfl
    | accepting => rfl
    | adding fd => rfl
    | reading fd conn chunks => rfl
    | queueing task => rfl
    | deleting fd => rfl
    | closing fd => rfl
  · refine List.map_congr_left fun ev hev => ?_
    rw [Event.key, Event.key]
    cases hdata : ev.data with
    | fd n => rfl
    | ptr a' =>
      have hne : a' ≠ a := fun h => hbatch ev hev (by rw [hdata, h])
      simp only [Function.update_of_ne hne]

/-- A step that does not touch the registrations and responses, and takes up no new
descriptor. -/
lemma Registered.of_sublist {svrFd : ℕ} {s s' : State} (h : Registered svrFd s)
    (hregs : s'.regs = s.regs) (henvs : s'.envs = s.envs)
    (hopen : ∀ {f}, IsOpen svrFd s.net f → IsOpen svrFd s'.net f)
    (hbatch : ∀ ev ∈ s'.batch, ev ∈ s.batch)
    (hbusy : (busy s.envs s'.main s'.batch).Sublist (busy s.envs s.main s.batch))
    (hclosing : ∀ {f}, s'.main = .closing f → s.regs f = none) : Registered svrFd s' where
  reg := fun hr => by
    rw [henvs]
    exact h.reg (hregs ▸ hr)
  reg_open := fun hr => hopen (h.reg_open (hregs ▸ hr))
  event := fun ev hev => h.event ev (hbatch ev hev)
  nodup := by
    rw [henvs]
    exact h.nodup.sublist hbusy
  busy_open := fun k hk => by
    rw [henvs] at hk
    obtain ⟨f, hf, hfopen⟩ := h.busy_open k (hbusy.subset hk)
    exact ⟨f, hf, hopen hfopen⟩
  closing := fun hf => by
    rw [hregs]
    exact hclosing hf

/-- A step that registers a descriptor again and changes the response at an address, whose
descriptor is that one and is not busy. -/
lemma Registered.of_modified {svrFd fd a : ℕ} {s s' : State} {reg : Reg} {x : Option OutEnv}
    (h : Registered svrFd s) (hnet : s'.net = s.net) (hbatch : s'.batch = s.batch)
    (hregs : s'.regs = eventMod s.regs fd reg) (henvs : s'.envs = Function.update s.envs a x)
    (hreg : RegOk s'.envs fd reg) (hfd : ∀ e, s.envs a = some e → e.fd = fd)
    (hnotMem : (s.envs a).map OutEnv.fd ∉ busy s.envs s'.main s.batch)
    (hbusy : (busy s.envs s'.main s.batch).Sublist (busy s.envs s.main s.batch))
    (hclosing : ∀ {f}, s'.main = .closing f → s.regs f = none) : Registered svrFd s' := by
  have hsame : busy s'.envs s'.main s'.batch = busy s.envs s'.main s.batch := by
    rw [henvs, hbatch, busy_update hnotMem]
  refine ⟨?_, ?_, hbatch ▸ h.event, ?_, ?_, ?_⟩
  · intro f r hr
    rw [hregs] at hr
    rcases of_eventMod hr with ⟨rfl, rfl, -⟩ | ⟨hne, hr⟩
    · exact hreg
    · rw [henvs]
      refine (h.reg hr).update x fun e he => ?_
      rw [hfd e he]
      exact hne.symm
  · intro f r hr
    rw [hregs] at hr
    obtain ⟨r₀, hr₀⟩ := exists_of_eventMod hr
    rw [hnet]
    exact h.reg_open hr₀
  · rw [hsame]
    exact h.nodup.sublist hbusy
  · intro k hk
    rw [hsame] at hk
    rw [hnet]
    exact h.busy_open k (hbusy.subset hk)
  · intro f hf
    rw [hregs]
    cases hreg' : eventMod s.regs fd reg f with
    | none => rfl
    | some r =>
      obtain ⟨r₀, hr₀⟩ := exists_of_eventMod hreg'
      rw [hclosing hf] at hr₀
      cases hr₀

/-- The events behind the next one are in the batch. -/
lemma mem_batch_of_mem {s : State} {ev : Event} {rest : List Event} (h : s.batch = ev :: rest) :
    ∀ ev' ∈ rest, ev' ∈ s.batch := by
  intro ev' hev
  rw [h]
  exact List.mem_cons_of_mem _ hev

/-- The main thread is done with its descriptor and turns to the next event. -/
lemma busy_cons {envs : ℕ → Option OutEnv} {ev : Event} {rest : List Event} :
    busy envs .loop (ev :: rest) = ev.key envs :: busy envs .loop rest := rfl

lemma Registered.next {svrFd : ℕ} {s s' : State} {a : Action} (h : Registered svrFd s)
    (howned : Owned svrFd s) (hstep : Next svrFd s a s') : Registered svrFd s' := by
  have hbusyNodup := h.nodup
  have hbusyOpen := h.busy_open
  have hmainOwned := howned.main
  cases hstep with
  | client hnet =>
    have hfds := (Net.client_cases hnet).1
    refine h.of_sublist rfl rfl ?_ (fun _ h => h) (List.Sublist.refl _) h.closing
    rintro f (hf | hf)
    · exact Or.inl hf
    · exact Or.inr (hfds ▸ hf)
  | epollWait hmain hbatch hnodup hready =>
    have hkeys := map_key_report h hready
    have hloop : ∀ batch, busy s.envs s.main batch = batch.map (Event.key s.envs) := by
      intro batch
      rw [busy, hmain]
      rfl
    refine ⟨h.reg, h.reg_open, ?_, ?_, ?_, h.closing⟩
    · intro ev hev
      obtain ⟨r, hr, hreport⟩ := List.mem_filterMap.mp hev
      exact eventOk_report h (hready r hr) hreport
    · show (busy s.envs s.main _).Nodup
      -- `epoll_wait` reports no descriptor twice
      rw [hloop, hkeys, show (fun r : ℕ × Bool × Bool => some r.1) = some ∘ Prod.fst from rfl,
        ← List.map_map]
      exact hnodup.map (Option.some_injective _)
    · intro k hk
      change k ∈ busy s.envs s.main _ at hk
      rw [hloop, hkeys] at hk
      obtain ⟨r, hr, rfl⟩ := List.mem_map.mp hk
      refine ⟨r.1, rfl, ?_⟩
      have hcan := hready r hr
      cases hreg : s.regs r.1 with
      | none =>
        simp only [canReport, hreg] at hcan
        cases hcan
      | some reg => exact h.reg_open hreg
  | dispatchAccept hmain hbatch hsvr =>
    refine h.of_sublist rfl rfl id (mem_batch_of_mem hbatch) ?_ (fun h => by cases h)
    rw [hmain, hbatch, busy_cons]
    exact List.sublist_cons_self _ _
  | @dispatchRead ev rest hmain hbatch hsvr hin =>
    have hkey : some ev.data.toFd = ev.key s.envs := by
      obtain ⟨n, hn⟩ := (h.event ev (by rw [hbatch]; exact List.mem_cons_self)).1 hin
      rw [Event.key, hn]
      rfl
    refine h.of_sublist rfl rfl id (mem_batch_of_mem hbatch) ?_ (fun h => by cases h)
    rw [hmain, hbatch, busy_cons, ← hkey]
    exact List.Sublist.refl _
  | dispatchEmpty hmain hbatch hdata henv hempty =>
    exact absurd hempty (howned.produced _ (howned.env henv)).1
  | @dispatchWrite ev rest a outEnv hmain hbatch hdata henv =>
    have hkey : (s.envs a).map OutEnv.fd = ev.key s.envs := by
      rw [Event.key, hdata]
    refine h.of_sublist rfl rfl id (mem_batch_of_mem hbatch) ?_ (fun h => by cases h)
    rw [hmain, hbatch, busy_cons, ← hkey]
    exact List.Sublist.refl _
  | dispatchSkip hmain hbatch =>
    refine h.of_sublist rfl rfl id (mem_batch_of_mem hbatch) ?_ h.closing
    show (busy s.envs s.main _).Sublist _
    rw [hmain, hbatch, busy_cons]
    exact List.sublist_cons_self _ _
  | @accept n net hmain hnet =>
    obtain ⟨c, backlog, hbacklog, hn, hfree, hnet'⟩ := Net.accept_cases hnet
    refine h.of_sublist rfl rfl ?_ (fun _ h => h) ?_ ?_
    · rintro f (hf | ⟨c', hc'⟩)
      · exact Or.inl hf
      · refine Or.inr ⟨c', ?_⟩
        -- the new number was not open
        have hne : f ≠ n := fun hfn => by
          rw [hfn, hfree] at hc'
          cases hc'
        rw [hnet']
        show Function.update s.net.fds n (some c) f = some c'
        rw [Function.update_of_ne hne]
        exact hc'
    · rw [hmain]
      show (busy s.envs (if 0 < n then .adding n else .loop) s.batch).Sublist _
      split <;> exact List.Sublist.refl _
    · intro f hf
      change (if 0 < n then MainPc.adding n else .loop) = .closing f at hf
      split at hf <;> cases hf
  | acceptEnd hmain =>
    refine h.of_sublist rfl rfl id (fun _ h => h) ?_ (fun h => by cases h)
    rw [hmain]
    exact List.Sublist.refl _
  | @eventAdd fd hmain =>
    rw [hmain] at hmainOwned hbusyNodup hbusyOpen
    refine ⟨?_, ?_, h.event, hbusyNodup, hbusyOpen, fun hf => by cases hf⟩
    · intro f r hr
      rcases of_eventAdd hr with ⟨rfl, rfl⟩ | hr
      · exact Or.inl rfl
      · exact h.reg hr
    · intro f r hr
      rcases of_eventAdd hr with ⟨rfl, rfl⟩ | hr
      · exact Or.inr hmainOwned
      · exact h.reg_open hr
  | recv hmain hnet =>
    obtain ⟨hc, hchunk, hfds, hbacklog, hnext⟩ := Net.recv_cases hnet
    refine h.of_sublist rfl rfl ?_ (fun _ h => h) ?_ (fun h => by cases h)
    · rintro f (hf | hf)
      · exact Or.inl hf
      · exact Or.inr (hfds ▸ hf)
    · rw [hmain]
      exact List.Sublist.refl _
  | recvTask hmain hread =>
    refine h.of_sublist rfl rfl id (fun _ h => h) ?_ (fun h => by cases h)
    rw [hmain]
    exact List.Sublist.refl _
  | recvNone hmain hread =>
    refine h.of_sublist rfl rfl id (fun _ h => h) ?_ (fun h => by cases h)
    rw [hmain]
    exact List.sublist_cons_self _ _
  | recvFail hmain =>
    refine h.of_sublist rfl rfl id (fun _ h => h) ?_ (fun h => by cases h)
    rw [hmain]
    exact List.Sublist.refl _
  | addTask hmain =>
    refine h.of_sublist rfl rfl id (fun _ h => h) ?_ (fun h => by cases h)
    rw [hmain]
    exact List.sublist_cons_self _ _
  | eventDel hmain =>
    rw [hmain] at hbusyNodup hbusyOpen
    refine ⟨?_, ?_, h.event, hbusyNodup, hbusyOpen, ?_⟩
    · exact fun hr => h.reg (of_eventDel hr).2
    · exact fun hr => h.reg_open (of_eventDel hr).2
    · intro f hf
      cases hf
      exact eventDel_self _ _
  | @close fd hmain =>
    -- what stays open is every other descriptor
    have hopen : ∀ {f}, f ≠ fd → IsOpen svrFd s.net f → IsOpen svrFd (s.net.close fd) f := by
      rintro f hf (hsvr | ⟨c, hc⟩)
      · exact Or.inl hsvr
      · refine Or.inr ⟨c, ?_⟩
        show Function.update s.net.fds fd none f = some c
        rw [Function.update_of_ne hf]
        exact hc
    rw [hmain] at hbusyNodup hbusyOpen
    obtain ⟨hnotMem, hnodup⟩ := List.nodup_cons.mp hbusyNodup
    refine ⟨?_, ?_, h.event, hnodup, ?_, fun hf => by cases hf⟩
    · exact fun hr => h.reg (of_eventDel hr).2
    · exact fun hr => hopen (of_eventDel hr).1 (h.reg_open (of_eventDel hr).2)
    · intro k hk
      obtain ⟨f, rfl, hf⟩ := hbusyOpen k (List.mem_cons_of_mem _ hk)
      refine ⟨f, rfl, hopen ?_ hf⟩
      rintro rfl
      exact hnotMem hk
  | sendFail hmain henv =>
    refine h.of_sublist rfl rfl id (fun _ h => h) ?_ (fun h => by cases h)
    rw [hmain]
    exact List.Sublist.refl _
  | send hmain henv hfd hk =>
    refine h.of_sublist rfl rfl id (fun _ h => h) ?_ (fun h => by cases h)
    rw [hmain]
    exact List.Sublist.refl _
  | @rearm a outEnv hmain henv =>
    rw [hmain] at hbusyNodup
    refine h.of_modified rfl rfl rfl rfl (Or.inl rfl) ?_ (List.nodup_cons.mp hbusyNodup).1 ?_
      (fun hf => by cases hf)
    · intro e he
      rw [henv] at he
      rw [Option.some.inj he]
    · rw [hmain]
      exact List.sublist_cons_self _ _
  | getTask hqueue =>
    exact h.of_sublist rfl rfl id (fun _ h => h) (List.Sublist.refl _) h.closing
  | @run i a httpBody task htask henv =>
    refine h.of_modified rfl rfl rfl rfl ?_ ?_ ?_ (List.Sublist.refl _) h.closing
    · exact Or.inr ⟨a, _, rfl, Function.update_self _ _ _, rfl⟩
    · intro e he
      rw [henv] at he
      cases he
    · -- a busy descriptor is open, and there is none at the address
      rw [henv]
      intro hmem
      obtain ⟨f, hf, -⟩ := hbusyOpen _ hmem
      cases hf

/-! ## Reachable states -/

/-- The invariants together. -/
structure Inv (svrFd : ℕ) (s : State) : Prop where
  owned : Owned svrFd s
  registered : Registered svrFd s

theorem inv_of_reachable {svrFd : ℕ} {s : State}
    (h : Reachable (step svrFd) (init svrFd) s) : Inv svrFd s := by
  refine h.invariant ⟨owned_init svrFd, registered_init svrFd⟩ ?_
  intro s a s' hinv _ hstep
  have hnext := next_of_step hstep
  exact ⟨hinv.owned.next hnext, hinv.registered.next hinv.owned hnext⟩

end Epoll
end Io
end Sunet
