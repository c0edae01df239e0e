/-
# Responses that are lost

The registration of a descriptor has room for one response.  A connection is read again
while its request is in the hands of a worker, so that two workers may arm responses for it:
the second replaces the first, or, if it comes while the first is being sent, is replaced
when the main thread turns the registration back to reading.  A response is lost as well
when `send` takes a part of it only.  Nothing else loses one.
-/
import Sunet.Io.EpollInvariant

namespace Sunet
namespace Io
namespace Epoll

open Transition

/-- The response was sent as a whole on the connection of its request. -/
def Delivered (sent : List Sent) (e : OutEnv) : Prop := ⟨e.conn, e, e.buf.length⟩ ∈ sent

/-- The response is the one that the registration holds. -/
def Armed (regs : ℕ → Option Reg) (envs : ℕ → Option OutEnv) (f : ℕ) (e : OutEnv) : Prop :=
  ∃ a, regs f = some ⟨.output, .ptr a⟩ ∧ envs a = some e

/-- A response for a connection that is open, and that the server is not about to close, was
sent or is armed. -/
def NoLostResponse (s : State) : Prop :=
  ∀ e ∈ s.produced, ∀ f, s.net.fds f = some e.conn → s.main ≠ .closing f →
    Delivered s.sent e ∨ Armed s.regs s.envs f e

/-- The task whose response an action arms. -/
def armedTask (s : State) : Action → Option ReqTaskData
  | .worker (.run i _ _) => s.running[i]?
  | _ => none

/-- The result of a call of `send`. -/
def Action.sends : Action → Option (Option ℕ)
  | .main (.send nwrite) => some nwrite
  | _ => none

/-- The number of bytes that the main thread has to send. -/
def MainPc.left : MainPc → Option ℕ
  | .writing _ n => some n
  | _ => none

/-- A worker arms a response only on a registration that holds none, and `send` takes all it
is given. -/
def ArmsFree (s : State) (a : Action) : Prop :=
  (∀ t ∈ armedTask s a, ∀ r ∈ s.regs t.fd, r.events = .input) ∧
    ∀ nwrite ∈ a.sends, ∀ n ∈ s.main.left, nwrite = some n

instance (s : State) (a : Action) : Decidable (ArmsFree s a) :=
  inferInstanceAs (Decidable ((∀ t ∈ armedTask s a, ∀ r ∈ s.regs t.fd, r.events = .input) ∧
    ∀ nwrite ∈ a.sends, ∀ n ∈ s.main.left, nwrite = some n))

/-! ## The invariant -/

/-- An event that carries a response is for a registration that holds it. -/
def EventArmed (regs : ℕ → Option Reg) (envs : ℕ → Option OutEnv) (ev : Event) : Prop :=
  match ev.data with
  | .fd n => regs n ≠ none
  | .ptr a => ∃ e, envs a = some e ∧ regs e.fd = some ⟨.output, .ptr a⟩

/-- The response the main thread works on is the one its registration holds. -/
def MainArmed (s : State) : MainPc → Prop
  | .reading fd _ _ => s.regs fd ≠ none
  | .queueing task => s.regs task.fd ≠ none
  | .writing a n =>
    ∃ e, s.envs a = some e ∧ s.regs e.fd = some ⟨.output, .ptr a⟩ ∧ n = e.buf.length
  | .rearming a =>
    ∃ e, s.envs a = some e ∧ s.regs e.fd = some ⟨.output, .ptr a⟩ ∧
      (s.net.fds e.fd = some e.conn → Delivered s.sent e)
  | _ => True

/-- No response is in the way of another one. -/
structure OneResponse (s : State) : Prop where
  task : ∀ t, t ∈ s.queue ∨ t ∈ s.running → s.net.fds t.fd = some t.conn →
    s.regs t.fd ≠ none ∨ s.main = .closing t.fd
  event : ∀ ev ∈ s.batch, EventArmed s.regs s.envs ev
  main : MainArmed s s.main
  noLost : NoLostResponse s

lemma oneResponse_init (svrFd : ℕ) : OneResponse (init svrFd) where
  task := fun t ht => by rcases ht with ht | ht <;> cases ht
  event := fun _ h => by cases h
  main := trivial
  noLost := fun _ h => by cases h

/-- A step that keeps the armed responses keeps that of the main thread. -/
lemma MainArmed.congr {s s' : State} {main : MainPc} (h : MainArmed s main)
    (hreg : ∀ {f}, s.regs f ≠ none → s'.regs f ≠ none)
    (harmed : ∀ {a e}, s.envs a = some e → s.regs e.fd = some ⟨.output, .ptr a⟩ →
      s'.envs a = some e ∧ s'.regs e.fd = some ⟨.output, .ptr a⟩)
    (hfds : s'.net.fds = s.net.fds) (hsent : s'.sent = s.sent) : MainArmed s' main := by
  cases main with
  | loop => trivial
  | accepting => trivial
  | adding fd => trivial
  | reading fd conn chunks => exact hreg h
  | queueing task => exact hreg h
  | deleting fd => trivial
  | closing fd => trivial
  | writing a n =>
    obtain ⟨e, he, hr, hn⟩ := h
    obtain ⟨he', hr'⟩ := harmed he hr
    exact ⟨e, he', hr', hn⟩
  | rearming a =>
    obtain ⟨e, he, hr, hdelivered⟩ := h
    obtain ⟨he', hr'⟩ := harmed he hr
    refine ⟨e, he', hr', ?_⟩
    rw [hfds, hsent]
    exact hdelivered

/-- Only the main thread has moved, and it was not about to close a descriptor. -/
lemma OneResponse.of_main {s : State} (h : OneResponse s) {main : MainPc} {batch : List Event}
    (hbefore : ∀ f, s.main ≠ .closing f) (hbatch : ∀ ev ∈ batch, ev ∈ s.batch)
    (hmain : MainArmed s main) : OneResponse { s with batch := batch, main := main } where
  task := fun t ht hfd => Or.inl ((h.task t ht hfd).resolve_right (hbefore _))
  event := fun ev hev => h.event ev (hbatch ev hev)
  main := by
    cases main <;> exact hmain
  noLost := fun e he f hf _ => h.noLost e he f hf (hbefore f)

/-- The network has changed, but not its open descriptors. -/
lemma OneResponse.of_net {s : State} (h : OneResponse s) {net : Net} {main : MainPc}
    (hfds : net.fds = s.net.fds) (hclosing : ∀ f, s.main = .closing f → main = .closing f)
    (hmain : MainArmed s main) : OneResponse { s with net := net, main := main } where
  task := fun t ht hfd => by
    change net.fds t.fd = some t.conn at hfd
    rw [hfds] at hfd
    exact (h.task t ht hfd).imp id (hclosing _)
  event := h.event
  main := hmain.congr id (fun he hreg => ⟨he, hreg⟩) hfds rfl
  noLost := fun e he f hf hmain => by
    change net.fds f = some e.conn at hf
    rw [hfds] at hf
    exact h.noLost e he f hf fun hc => hmain (hclosing f hc)

/-! ## Changes of the registrations -/

lemma eventAdd_of_some {regs : ℕ → Option Reg} {f : ℕ} {r : Reg} (fd : ℕ)
    (h : regs f = some r) : eventAdd regs fd f = some r := by
  rw [eventAdd]
  split
  · next hnone =>
    rw [Function.update_of_ne ?_]
    · exact h
    · rintro rfl
      rw [hnone] at h
      cases h
  · exact h

lemma eventAdd_ne_none {regs : ℕ → Option Reg} {f : ℕ} (fd : ℕ) (h : regs f ≠ none) :
    eventAdd regs fd f ≠ none := by
  obtain ⟨r, hr⟩ := Option.ne_none_iff_exists'.mp h
  rw [eventAdd_of_some fd hr]
  simp

lemma eventDel_of_ne {regs : ℕ → Option Reg} {f fd : ℕ} (h : f ≠ fd) :
    eventDel regs fd f = regs f := by
  rw [eventDel, Function.update_of_ne h]

lemma eventMod_of_ne {regs : ℕ → Option Reg} {f fd : ℕ} (reg : Reg) (h : f ≠ fd) :
    eventMod regs fd reg f = regs f := by
  rw [eventMod]
  split
  · rfl
  · rw [Function.update_of_ne h]

lemma eventMod_self {regs : ℕ → Option Reg} {fd : ℕ} (reg : Reg) (h : regs fd ≠ none) :
    eventMod regs fd reg fd = some reg := by
  rw [eventMod, if_neg h, Function.update_self]

lemma eventMod_ne_none {regs : ℕ → Option Reg} {f fd : ℕ} (reg : Reg) (h : regs f ≠ none) :
    eventMod regs fd reg f ≠ none := by
  by_cases hf : f = fd
  · subst hf
    rw [eventMod_self reg h]
    simp
  · rwa [eventMod_of_ne reg hf]

/-- The descriptor of an event is a key of the batch. -/
lemma key_mem_batch {envs : ℕ → Option OutEnv} {batch : List Event} {ev : Event} {a : ℕ}
    {e : OutEnv} (hev : ev ∈ batch) (hdata : ev.data = .ptr a) (he : envs a = some e) :
    some e.fd ∈ batch.map (Event.key envs) := by
  refine List.mem_map.mpr ⟨ev, hev, ?_⟩
  rw [Event.key, hdata]
  show (envs a).map OutEnv.fd = some e.fd
  rw [he]
  rfl

/-- A step that keeps the registration of an event keeps the event armed. -/
lemma EventArmed.congr {regs regs' : ℕ → Option Reg} {envs envs' : ℕ → Option OutEnv} {ev : Event}
    (h : EventArmed regs envs ev)
    (hfd : ∀ n, ev.data = .fd n → regs n ≠ none → regs' n ≠ none)
    (hptr : ∀ a e, ev.data = .ptr a → envs a = some e → regs e.fd = some ⟨.output, .ptr a⟩ →
      envs' a = some e ∧ regs' e.fd = some ⟨.output, .ptr a⟩) : EventArmed regs' envs' ev := by
  rw [EventArmed] at h ⊢
  split
  · next n hdata =>
    rw [hdata] at h
    exact hfd n hdata h
  · next a hdata =>
    rw [hdata] at h
    obtain ⟨e, he, hreg⟩ := h
    exact ⟨e, hptr a e hdata he hreg⟩

/-! ## The steps that change connections, registrations or responses -/

lemma OneResponse.of_accept {svrFd n : ℕ} {s : State} {net : Net} (h : OneResponse s)
    (howned : Owned svrFd s) (hmain : s.main = .accepting)
    (hnet : s.net.accept svrFd n = some net) :
    OneResponse { s with net := net, main := if 0 < n then .adding n else .loop } := by
  obtain ⟨c, backlog, hbacklog, hn, hfree, hnet'⟩ := Net.accept_cases hnet
  -- the new connection is not that of a task or a response
  have hfds : ∀ {f x}, x ∉ s.net.backlog → net.fds f = some x → s.net.fds f = some x := by
    intro f x hx hfd
    rw [hnet'] at hfd
    change Function.update s.net.fds n (some c) f = some x at hfd
    by_cases hf : f = n
    · subst hf
      rw [Function.update_self] at hfd
      cases hfd
      exact absurd (by rw [hbacklog]; exact List.mem_cons_self) hx
    · rwa [Function.update_of_ne hf] at hfd
  refine ⟨?_, h.event, ?_, ?_⟩
  · intro t ht hfd
    have hacc : s.net.AcceptedAs t.fd t.conn :=
      ht.elim (fun ht => (howned.queue t ht).2) (fun ht => (howned.running t ht).2)
    refine Or.inl ((h.task t ht (hfds hacc.notMem hfd)).resolve_right ?_)
    simp [hmain]
  · show MainArmed _ (if 0 < n then MainPc.adding n else .loop)
    split <;> trivial
  · intro e he f hf _
    exact h.noLost e he f (hfds (howned.produced e he).2.2.notMem hf) (by simp [hmain])

lemma OneResponse.of_eventDel {svrFd fd : ℕ} {s : State} (h : OneResponse s)
    (hreg : Registered svrFd s) (hmain : s.main = .deleting fd) :
    OneResponse { s with regs := eventDel s.regs fd, main := .closing fd } := by
  have hnodup := hreg.nodup
  rw [hmain] at hnodup
  have hnotMem := (List.nodup_cons.mp hnodup).1
  refine ⟨?_, ?_, trivial, ?_⟩
  · intro t ht hfd
    by_cases hf : t.fd = fd
    · exact Or.inr (by rw [hf])
    · refine Or.inl ?_
      show eventDel s.regs fd t.fd ≠ none
      rw [eventDel_of_ne hf]
      exact (h.task t ht hfd).resolve_right (by simp [hmain])
  · intro ev hev
    -- the descriptor is busy, so no event is for it
    show EventArmed (eventDel s.regs fd) s.envs ev
    refine (h.event ev hev).congr (fun n hdata hreg => ?_) fun a e hdata he hreg => ⟨he, ?_⟩
    · have hne : n ≠ fd := by
        rintro rfl
        refine hnotMem (List.mem_map.mpr ⟨ev, hev, ?_⟩)
        rw [Event.key, hdata]
      rw [eventDel_of_ne hne]
      exact hreg
    · have hne : e.fd ≠ fd := fun hfd => hnotMem (hfd ▸ key_mem_batch hev hdata he)
      rw [eventDel_of_ne hne]
      exact hreg
  · intro e he f hf hclosing
    have hne : f ≠ fd := fun hfd => hclosing (by rw [hfd])
    rcases h.noLost e he f hf (by simp [hmain]) with hd | ⟨a, hreg, henv⟩
    · exact Or.inl hd
    · refine Or.inr ⟨a, ?_, henv⟩
      show eventDel s.regs fd f = _
      rw [eventDel_of_ne hne]
      exact hreg

lemma OneResponse.of_close {svrFd fd : ℕ} {s : State} (h : OneResponse s) (hreg : Registered svrFd s)
    (hmain : s.main = .closing fd) :
    OneResponse { s with net := s.net.close fd, regs := eventDel s.regs fd, main := .loop } := by
  -- the descriptor has left the epoll instance before
  have hregs : eventDel s.regs fd = s.regs := by
    rw [eventDel, ← hreg.closing hmain, Function.update_eq_self]
  refine ⟨?_, ?_, trivial, ?_⟩
  · intro t ht hfd
    -- a task for another descriptor
    obtain ⟨hne, hfd⟩ := Net.close_fds_of_some hfd
    refine Or.inl ?_
    show eventDel s.regs fd t.fd ≠ none
    rw [hregs]
    refine (h.task t ht hfd).resolve_right fun hc => ?_
    rw [hmain] at hc
    exact hne (MainPc.closing.inj hc).symm
  · intro ev hev
    show EventArmed (eventDel s.regs fd) s.envs ev
    rw [hregs]
    exact h.event ev hev
  · intro e he f hf _
    obtain ⟨hne, hfd⟩ := Net.close_fds_of_some hf
    show _ ∨ Armed (eventDel s.regs fd) s.envs f e
    rw [hregs]
    refine h.noLost e he f hfd fun hc => ?_
    rw [hmain] at hc
    exact hne (MainPc.closing.inj hc).symm

lemma OneResponse.of_rearm {svrFd a : ℕ} {s : State} {outEnv : OutEnv} (h : OneResponse s)
    (hregistered : Registered svrFd s) (hmain : s.main = .rearming a)
    (henv : s.envs a = some outEnv) :
    OneResponse { s with
      regs := eventMod s.regs outEnv.fd ⟨.input, .fd outEnv.fd⟩
      envs := Function.update s.envs a none
      main := .loop } := by
  have hnodup := hregistered.nodup
  have hmainArmed := h.main
  rw [hmain] at hnodup hmainArmed
  obtain ⟨e, he, hreg, hsent⟩ := hmainArmed
  rw [henv] at he
  cases he
  have hnotMem := (List.nodup_cons.mp hnodup).1
  rw [henv] at hnotMem
  refine ⟨?_, ?_, trivial, ?_⟩
  · intro t ht hfd
    exact Or.inl (eventMod_ne_none _ ((h.task t ht hfd).resolve_right (by simp [hmain])))
  · intro ev hev
    show EventArmed (eventMod s.regs outEnv.fd _) (Function.update s.envs a none) ev
    refine (h.event ev hev).congr (fun n _ hreg => eventMod_ne_none _ hreg)
      fun a' e' hdata he' hreg' => ?_
    have hne : e'.fd ≠ outEnv.fd := by
      intro hfd
      have hmem := key_mem_batch hev hdata he'
      rw [hfd] at hmem
      exact hnotMem hmem
    have hne' : a' ≠ a := by
      rintro rfl
      rw [henv] at he'
      exact hne (by rw [Option.some.inj he'])
    rw [Function.update_of_ne hne', eventMod_of_ne _ hne]
    exact ⟨he', hreg'⟩
  · intro e' he' f hf _
    rcases h.noLost e' he' f hf (by simp [hmain]) with hd | ⟨a', hreg', henv'⟩
    · exact Or.inl hd
    · by_cases hfd : f = outEnv.fd
      · -- the response that was just sent
        subst hfd
        rw [hreg] at hreg'
        cases hreg'
        rw [henv] at henv'
        cases henv'
        exact Or.inl (hsent hf)
      · have hne : a' ≠ a := by
          rintro rfl
          rcases hregistered.reg hreg' with hr | ⟨b, e'', hr, he'', hfd'⟩
          · cases hr
          · cases hr
            rw [henv] at he''
            cases he''
            exact hfd hfd'.symm
        refine Or.inr ⟨a', ?_, ?_⟩
        · show eventMod s.regs outEnv.fd _ f = _
          rw [eventMod_of_ne _ hfd]
          exact hreg'
        · show Function.update s.envs a none a' = some e'
          rw [Function.update_of_ne hne]
          exact henv'

lemma OneResponse.of_run {svrFd i a : ℕ} {s : State} {task : ReqTaskData} (h : OneResponse s)
    (howned : Owned svrFd s) (hfree : ∀ r, s.regs task.fd = some r → r.events = .input)
    (htask : s.running[i]? = some task) (henv : s.envs a = none) (httpBody : Bytes) :
    OneResponse { s with
      running := s.running.eraseIdx i
      envs := Function.update s.envs a (some (.new task httpBody s.produced.length))
      regs := eventMod s.regs task.fd ⟨.output, .ptr a⟩
      produced := s.produced ++ [.new task httpBody s.produced.length] } := by
  -- a registration that holds a response is not that of the task
  have hother : ∀ {f a'}, s.regs f = some ⟨.output, .ptr a'⟩ →
      eventMod s.regs task.fd ⟨.output, .ptr a⟩ f = some ⟨.output, .ptr a'⟩ := by
    intro f a' hreg
    rw [eventMod_of_ne]
    · exact hreg
    · rintro rfl
      cases hfree _ hreg
  have hold : ∀ {a' e}, s.envs a' = some e →
      Function.update s.envs a (some (.new task httpBody s.produced.length)) a' = some e := by
    intro a' e he
    rw [Function.update_of_ne]
    · exact he
    · rintro rfl
      rw [henv] at he
      cases he
  refine ⟨?_, ?_, ?_, ?_⟩
  · intro t ht hfd
    have ht' : t ∈ s.queue ∨ t ∈ s.running := ht.imp id List.mem_of_mem_eraseIdx
    exact (h.task t ht' hfd).imp (eventMod_ne_none _) id
  · intro ev hev
    exact (h.event ev hev).congr (fun n _ hreg => eventMod_ne_none _ hreg)
      fun a' e _ he hreg => ⟨hold he, hother hreg⟩
  · exact h.main.congr (fun hreg => eventMod_ne_none _ hreg)
      (fun he hreg => ⟨hold he, hother hreg⟩) rfl rfl
  · intro e he f hf hclosing
    rcases List.mem_append.mp he with he | he
    · rcases h.noLost e he f hf hclosing with hd | ⟨a', hreg, henv'⟩
      · exact Or.inl hd
      · exact Or.inr ⟨a', hother hreg, hold henv'⟩
    · -- the new response: its connection is registered, as long as it is open
      rw [List.mem_singleton] at he
      subst he
      have htask' := List.mem_of_getElem? htask
      have hfd : f = task.fd := (howned.running task htask').2.eq hf
      subst hfd
      have hreg := (h.task task (Or.inr htask') hf).resolve_right hclosing
      exact Or.inr ⟨a, eventMod_self _ hreg, Function.update_self _ _ _⟩

/-! ## The runs -/

lemma OneResponse.next {svrFd : ℕ} {s s' : State} {a : Action} (h : OneResponse s)
    (hinv : Inv svrFd s) (hok : ArmsFree s a) (hstep : Next svrFd s a s') : OneResponse s' := by
  have hmainArmed := h.main
  cases hstep with
  | client hnet => exact h.of_net (Net.client_cases hnet).1 (fun _ h => h) h.main
  | epollWait hmain hbatch hnodup hready =>
    refine ⟨h.task, ?_, h.main, h.noLost⟩
    intro ev hev
    obtain ⟨r, hr, hreport⟩ := List.mem_filterMap.mp hev
    rw [report, Option.map_eq_some_iff] at hreport
    -- the event carries what the descriptor is registered for
    obtain ⟨reg, hreg, rfl⟩ := hreport
    rcases hinv.registered.reg hreg with rfl | ⟨a, e, rfl, he, hfd⟩
    · show s.regs r.1 ≠ none
      rw [hreg]
      simp
    · exact ⟨e, he, by rw [hfd]; exact hreg⟩
  | dispatchAccept hmain hbatch hsvr =>
    exact h.of_main (by simp [hmain]) (mem_batch_of_mem hbatch) trivial
  | @dispatchRead ev rest hmain hbatch hsvr hin =>
    have hev : ev ∈ s.batch := by
      rw [hbatch]
      exact List.mem_cons_self
    refine h.of_main (by simp [hmain]) (mem_batch_of_mem hbatch) ?_
    obtain ⟨n, hn⟩ := (hinv.registered.event ev hev).1 hin
    have harmed := h.event ev hev
    rw [EventArmed, hn] at harmed
    rw [hn]
    exact harmed
  | dispatchEmpty hmain hbatch hdata henv hempty =>
    exact absurd hempty (hinv.owned.produced _ (hinv.owned.env henv)).1
  | @dispatchWrite ev rest a outEnv hmain hbatch hdata henv =>
    refine h.of_main (by simp [hmain]) (mem_batch_of_mem hbatch) ?_
    have harmed := h.event ev (by rw [hbatch]; exact List.mem_cons_self)
    rw [EventArmed, hdata] at harmed
    obtain ⟨e, he, hreg⟩ := harmed
    rw [henv] at he
    cases he
    exact ⟨outEnv, henv, hreg, rfl⟩
  | dispatchSkip hmain hbatch =>
    exact h.of_main (by simp [hmain]) (mem_batch_of_mem hbatch) h.main
  | accept hmain hnet => exact h.of_accept hinv.owned hmain hnet
  | acceptEnd hmain => exact h.of_main (by simp [hmain]) (fun _ h => h) trivial
  | @eventAdd fd hmain =>
    refine ⟨?_, ?_, trivial, ?_⟩
    · intro t ht hfd
      exact Or.inl (eventAdd_ne_none fd ((h.task t ht hfd).resolve_right (by simp [hmain])))
    · intro ev hev
      exact (h.event ev hev).congr (fun n _ hreg => eventAdd_ne_none fd hreg)
        fun a e _ he hreg => ⟨he, eventAdd_of_some fd hreg⟩
    · intro e he f hf _
      rcases h.noLost e he f hf (by simp [hmain]) with hd | ⟨a, hreg, henv⟩
      · exact Or.inl hd
      · exact Or.inr ⟨a, eventAdd_of_some fd hreg, henv⟩
  | recv hmain hnet =>
    obtain ⟨hc, hchunk, hfds, hbacklog, hnext⟩ := Net.recv_cases hnet
    rw [hmain] at hmainArmed
    exact h.of_net hfds (by simp [hmain]) hmainArmed
  | recvTask hmain hread =>
    rw [hmain] at hmainArmed
    exact h.of_main (by simp [hmain]) (fun _ h => h) hmainArmed
  | recvNone hmain hread => exact h.of_main (by simp [hmain]) (fun _ h => h) trivial
  | recvFail hmain => exact h.of_main (by simp [hmain]) (fun _ h => h) trivial
  | @addTask task hmain =>
    rw [hmain] at hmainArmed
    refine ⟨?_, h.event, trivial, ?_⟩
    · rintro t (ht | ht) hfd
      · rcases List.mem_append.mp ht with ht | ht
        · exact Or.inl ((h.task t (Or.inl ht) hfd).resolve_right (by simp [hmain]))
        · rw [List.mem_singleton] at ht
          exact Or.inl (ht ▸ hmainArmed)
      · exact Or.inl ((h.task t (Or.inr ht) hfd).resolve_right (by simp [hmain]))
    · exact fun e he f hf _ => h.noLost e he f hf (by simp [hmain])
  | eventDel hmain => exact h.of_eventDel hinv.registered hmain
  | close hmain => exact h.of_close hinv.registered hmain
  | @sendFail a n outEnv hmain henv =>
    -- `send` does not fail in these runs
    have hall := hok.2 none rfl n (by rw [hmain]; rfl)
    cases hall
  | @send a n k c outEnv hmain henv hfd hk =>
    have hall := hok.2 (some k) rfl n (by rw [hmain]; rfl)
    cases hall
    rw [hmain] at hmainArmed
    obtain ⟨e, he, hreg, hn⟩ := hmainArmed
    rw [henv] at he
    cases he
    refine ⟨?_, h.event, ⟨outEnv, henv, hreg, ?_⟩, ?_⟩
    · intro t ht hfd
      exact Or.inl ((h.task t ht hfd).resolve_right (by simp [hmain]))
    · intro hown
      change s.net.fds outEnv.fd = some outEnv.conn at hown
      rw [hfd] at hown
      cases hown
      rw [hn]
      exact List.mem_append_right _ List.mem_cons_self
    · intro e he f hf _
      exact (h.noLost e he f hf (by simp [hmain])).imp (List.mem_append_left _) id
  | rearm hmain henv => exact h.of_rearm hinv.registered hmain henv
  | getTask hqueue =>
    refine ⟨?_, h.event, ?_, h.noLost⟩
    · rintro t (ht | ht) hfd
      · exact h.task t (Or.inl (hqueue ▸ List.mem_cons_of_mem _ ht)) hfd
      · rcases List.mem_append.mp ht with ht | ht
        · exact h.task t (Or.inr ht) hfd
        · rw [List.mem_singleton] at ht
          exact h.task t (Or.inl (by rw [hqueue, ht]; exact List.mem_cons_self)) hfd
    · exact h.main
  | run htask henv => exact h.of_run hinv.owned (hok.1 _ htask) htask henv _

/-- **No response is lost** in a run in which workers arm responses only where none is armed
and `send` takes whole responses. -/
theorem noLostResponse_of_armsFree {svrFd : ℕ} {s : State}
    (h : ReachableWhile (step svrFd) ArmsFree (init svrFd) s) : NoLostResponse s := by
  have hone : OneResponse s := by
    refine h.invariant_of (Q := Inv svrFd) (fun _ => inv_of_reachable) (oneResponse_init svrFd) ?_
    intro s a s' hinv _ hone hok hstep
    exact hone.next hinv hok (next_of_step hstep)
  exact hone.noLost

/-- One client is served. -/
theorem noLostResponse_of_armsFree_single :
    ∃ s, ReachableWhile (step 3) ArmsFree (init 3) s ∧ s.produced.length = 1 ∧
      NoLostResponse s := by
  have hrun : ((run (fun s a => if ArmsFree s a then step 3 s a else none) (init 3)
      (connectRun 3 5 ++ requestRun 5 0 (bytes "GET / HTTP/1.1\r\n\r\n") ++
        [.worker .getTask, .worker (.run 0 (bytes "null\n") 16)] ++ sendRun 5 75)).map
      fun s => s.produced.length) = some 1 := by
    decide
  obtain ⟨s, hs, hproduced⟩ := Option.map_eq_some_iff.mp hrun
  have hreach : ReachableWhile (step 3) ArmsFree (init 3) s := ReachableWhile.init.of_run hs
  exact ⟨s, hreach, hproduced, noLostResponse_of_armsFree hreach⟩

/-- A client sends a second request before it has the response to the first: the second
response replaces the first one, of which nothing was sent. -/
theorem not_noLostResponse : ¬ ∀ s, Reachable (step 3) (init 3) s → NoLostResponse s := by
  intro h
  have hrun : ((run (step 3) (init 3)
      (connectRun 3 5 ++ requestRun 5 0 (bytes "GET /a HTTP/1.1\r\n\r\n") ++ [.worker .getTask] ++
        requestRun 5 0 (bytes "GET /b HTTP/1.1\r\n\r\n") ++
        [.worker .getTask, .worker (.run 0 (bytes "null\n") 16),
          .worker (.run 0 (bytes "null\n") 32)])).any
      fun s => s.sent = [] ∧ s.main = .loop ∧ s.net.fds 5 = some 0 ∧
        s.regs 5 = some ⟨.output, .ptr 32⟩ ∧
        (s.produced.map fun e => (e.conn, e.serial)) = [(0, 0), (0, 1)] ∧
        (s.envs 32).map OutEnv.serial = some 1) = true := by
    decide
  obtain ⟨s, hs, hstate⟩ := (Option.any_eq_true _ _).mp hrun
  obtain ⟨hsent, hmain, hfd, hreg, hproduced, henv⟩ := of_decide_eq_true hstate
  obtain ⟨e, es, hes, he, -⟩ := List.map_eq_cons_iff.mp hproduced
  obtain ⟨hconn, hserial⟩ := Prod.mk.inj he
  have hlost := h s (reachable_of_run .init hs) e (by rw [hes]; exact List.mem_cons_self) 5
    (by rw [hfd, hconn]) (by rw [hmain]; simp)
  rcases hlost with hd | ⟨a, hreg', henv'⟩
  · rw [hsent] at hd
    cases hd
  · rw [hreg] at hreg'
    cases hreg'
    rw [henv', Option.map_some, hserial] at henv
    cases henv

end Epoll
end Io
end Sunet
