/-
# Responses are sent at most once

A response belongs to the worker that makes it until it is armed, and to the main thread from
the event that reports it until it is deleted.  The main thread hands it to `send` once,
whatever the order of the steps, and it is deleted before the main thread turns to another
event.  Nothing on the way can stop the main thread: it follows no pointer to a response that
was deleted and takes no descriptor for a pointer, it sends on open descriptors only, and what
it reads always fits into the receive buffer, as long as the capacity of the buffer is an `int`.
-/
import Sunet.Io.Buffer
import Sunet.Io.EpollInvariant

namespace Sunet
namespace Io
namespace Epoll

open Byte Transition

/-! ## The responses -/

/-- The responses have different numbers and addresses, and one of which a part was sent is the
one that the main thread is about to delete, or is not on the heap any more. -/
structure Once (s : State) : Prop where
  serial : ∀ e ∈ s.produced, s.produced[e.serial]? = some e
  inj : ∀ {a a' e}, s.envs a = some e → s.envs a' = some e → a = a'
  writing : ∀ {a n}, s.main = .writing a n → ∃ e, s.envs a = some e ∧ n = e.buf.length
  sent : ∀ r ∈ s.sent, r.env ∈ s.produced ∧ r.nwrite ≤ r.env.buf.length
  sending : ∀ r ∈ s.sent, ∀ {a}, s.envs a = some r.env → s.main = .rearming a
  nodup : (s.sent.map fun r => r.env.serial).Nodup

lemma once_init (svrFd : ℕ) : Once (init svrFd) where
  serial := fun _ h => by cases h
  inj := fun h => by cases h
  writing := fun h => by cases h
  sent := fun _ h => by cases h
  sending := fun _ h => by cases h
  nodup := List.nodup_nil

/-- The responses and what was sent of them are as before. -/
lemma Once.of_main {s s' : State} (h : Once s) (hproduced : s'.produced = s.produced)
    (henvs : s'.envs = s.envs) (hsent : s'.sent = s.sent)
    (hwriting : ∀ {a n}, s'.main = .writing a n → ∃ e, s.envs a = some e ∧ n = e.buf.length)
    (hrearming : ∀ {a}, s.main = .rearming a → s'.main = .rearming a) : Once s' where
  serial := by
    rw [hproduced]
    exact h.serial
  inj := by
    rw [henvs]
    exact h.inj
  writing := by
    rw [henvs]
    exact hwriting
  sent := by
    rw [hsent, hproduced]
    exact h.sent
  sending := by
    rw [hsent, henvs]
    exact fun r hr _ ha => hrearming (h.sending r hr ha)
  nodup := by
    rw [hsent]
    exact h.nodup

/-- A response that is produced has a number below that of the next one. -/
lemma Once.serial_lt {s : State} (h : Once s) {e : OutEnv} (he : e ∈ s.produced) :
    e.serial < s.produced.length := (List.getElem?_eq_some_iff.mp (h.serial e he)).1

/-- Two responses with one number are the same. -/
lemma Once.eq_of_serial {s : State} (h : Once s) {e e' : OutEnv} (he : e ∈ s.produced)
    (he' : e' ∈ s.produced) (hserial : e.serial = e'.serial) : e = e' := by
  have heq := h.serial e he
  rw [hserial, h.serial e' he'] at heq
  exact (Option.some.inj heq).symm

/-- The main thread deletes the response it is done with. -/
lemma Once.of_rearm {a : ℕ} {s : State} {regs : ℕ → Option Reg} (h : Once s)
    (hmain : s.main = .rearming a) :
    Once { s with
      regs := regs
      envs := Function.update s.envs a none
      main := .loop } := by
  have hlive : ∀ {a' e}, Function.update s.envs a none a' = some e →
      a' ≠ a ∧ s.envs a' = some e := by
    intro a' e he
    rw [Function.update_apply] at he
    split at he
    · cases he
    · next hne => exact ⟨hne, he⟩
  refine ⟨h.serial, fun he he' => h.inj (hlive he).2 (hlive he').2, (fun hw => by cases hw), h.sent,
    ?_, h.nodup⟩
  intro r hr a' ha
  -- the only response of which a part was sent was the one at `a`
  obtain ⟨hne, ha⟩ := hlive ha
  have hat := h.sending r hr ha
  rw [hmain] at hat
  exact absurd (MainPc.rearming.inj hat).symm hne

/-- `send` takes a part of a response of which nothing was sent before. -/
lemma Once.of_send {svrFd a n k c : ℕ} {s : State} {outEnv : OutEnv} (h : Once s)
    (howned : Owned svrFd s) (hmain : s.main = .writing a n) (henv : s.envs a = some outEnv)
    (hk : k ≤ n) :
    Once { s with sent := s.sent ++ [⟨c, outEnv, k⟩], main := .rearming a } := by
  obtain ⟨e, he, rfl⟩ := h.writing hmain
  rw [henv] at he
  cases he
  have hproduced := howned.env henv
  refine ⟨h.serial, h.inj, (fun hw => by cases hw), ?_, ?_, ?_⟩
  · intro r hr
    rcases List.mem_append.mp hr with hr | hr
    · exact h.sent r hr
    · rw [List.mem_singleton] at hr
      subst hr
      exact ⟨hproduced, hk⟩
  · intro r hr a' ha
    rcases List.mem_append.mp hr with hr | hr
    · have hat := h.sending r hr ha
      rw [hmain] at hat
      cases hat
    · rw [List.mem_singleton] at hr
      subst hr
      show MainPc.rearming a = .rearming a'
      rw [h.inj henv ha]
  · show (List.map (fun r : Sent => r.env.serial) (s.sent ++ [⟨c, outEnv, k⟩])).Nodup
    rw [List.map_append, List.nodup_append]
    refine ⟨h.nodup, List.nodup_singleton _, ?_⟩
    intro x hx y hy hxy
    obtain ⟨r, hr, rfl⟩ := List.mem_map.mp hx
    rw [List.map_singleton, List.mem_singleton] at hy
    rw [hy] at hxy
    -- otherwise the main thread would be behind `send` already
    have heq := h.eq_of_serial (h.sent r hr).1 hproduced hxy
    have hat := h.sending r hr (heq ▸ henv)
    rw [hmain] at hat
    cases hat

/-- A worker puts a new response on the heap. -/
lemma Once.of_run {svrFd a : ℕ} {s : State} {regs : ℕ → Option Reg}
    {running : List ReqTaskData} {task : ReqTaskData} {httpBody : Bytes} (h : Once s)
    (howned : Owned svrFd s) (henv : s.envs a = none) :
    Once { s with
      running := running
      envs := Function.update s.envs a (some (.new task httpBody s.produced.length))
      regs := regs
      produced := s.produced ++ [.new task httpBody s.produced.length] } := by
  set outEnv := OutEnv.new task httpBody s.produced.length with hnew
  have hserial : outEnv.serial = s.produced.length := rfl
  have hfresh : outEnv ∉ s.produced := fun hmem => by
    have := h.serial_lt hmem
    omega
  have hlive : ∀ {a' e}, Function.update s.envs a (some outEnv) a' = some e →
      (a' = a ∧ e = outEnv) ∨ (a' ≠ a ∧ s.envs a' = some e) := by
    intro a' e he
    rw [Function.update_apply] at he
    split at he
    · next heq => exact Or.inl ⟨heq, (Option.some.inj he).symm⟩
    · next hne => exact Or.inr ⟨hne, he⟩
  refine ⟨?_, ?_, ?_, ?_, ?_, h.nodup⟩
  · intro e he
    show (s.produced ++ [outEnv])[e.serial]? = some e
    rcases List.mem_append.mp he with he | he
    · rw [List.getElem?_append_left (h.serial_lt he)]
      exact h.serial e he
    · rw [List.mem_singleton] at he
      rw [he, hserial, List.getElem?_concat_length]
  · intro a₁ a₂ e h₁ h₂
    rcases hlive h₁ with ⟨rfl, rfl⟩ | ⟨-, hold₁⟩ <;>
      rcases hlive h₂ with ⟨rfl, he⟩ | ⟨-, hold₂⟩
    · rfl
    · exact absurd (howned.env hold₂) hfresh
    · exact absurd (howned.env (he ▸ hold₁)) hfresh
    · exact h.inj hold₁ hold₂
  · intro a' n hmain
    obtain ⟨e, he, hn⟩ := h.writing hmain
    refine ⟨e, ?_, hn⟩
    show Function.update s.envs a (some outEnv) a' = some e
    rw [Function.update_of_ne, he]
    rintro rfl
    rw [henv] at he
    cases he
  · exact fun r hr => ⟨List.mem_append_left _ (h.sent r hr).1, (h.sent r hr).2⟩
  · intro r hr a' ha
    rcases hlive ha with ⟨-, heq⟩ | ⟨-, ha⟩
    · exact absurd (heq ▸ (h.sent r hr).1) hfresh
    · exact h.sending r hr ha

lemma Once.next {svrFd : ℕ} {s s' : State} {a : Action} (h : Once s) (howned : Owned svrFd s)
    (hstep : Next svrFd s a s') : Once s' := by
  cases hstep with
  | client hnet => exact h.of_main rfl rfl rfl h.writing id
  | epollWait hmain hbatch hnodup hready => exact h.of_main rfl rfl rfl h.writing id
  | dispatchAccept hmain hbatch hsvr =>
    exact h.of_main rfl rfl rfl (fun hw => by cases hw) fun hr => by simp [hmain] at hr
  | dispatchRead hmain hbatch hsvr hin =>
    exact h.of_main rfl rfl rfl (fun hw => by cases hw) fun hr => by simp [hmain] at hr
  | dispatchEmpty hmain hbatch hdata henv hempty =>
    exact absurd hempty (howned.produced _ (howned.env henv)).1
  | dispatchWrite hmain hbatch hdata henv =>
    refine h.of_main rfl rfl rfl ?_ fun hr => by simp [hmain] at hr
    intro a n hw
    obtain ⟨rfl, rfl⟩ := MainPc.writing.inj hw
    exact ⟨_, henv, rfl⟩
  | dispatchSkip hmain hbatch => exact h.of_main rfl rfl rfl h.writing id
  | accept hmain hnet =>
    refine h.of_main rfl rfl rfl ?_ fun hr => by simp [hmain] at hr
    intro a n' hw
    change (if _ then MainPc.adding _ else .loop) = .writing a n' at hw
    split at hw <;> cases hw
  | acceptEnd hmain =>
    exact h.of_main rfl rfl rfl (fun hw => by cases hw) fun hr => by simp [hmain] at hr
  | eventAdd hmain =>
    exact h.of_main rfl rfl rfl (fun hw => by cases hw) fun hr => by simp [hmain] at hr
  | recv hmain hnet =>
    exact h.of_main rfl rfl rfl (fun hw => by cases hw) fun hr => by simp [hmain] at hr
  | recvTask hmain hread =>
    exact h.of_main rfl rfl rfl (fun hw => by cases hw) fun hr => by simp [hmain] at hr
  | recvNone hmain hread =>
    exact h.of_main rfl rfl rfl (fun hw => by cases hw) fun hr => by simp [hmain] at hr
  | recvFail hmain =>
    exact h.of_main rfl rfl rfl (fun hw => by cases hw) fun hr => by simp [hmain] at hr
  | addTask hmain =>
    exact h.of_main rfl rfl rfl (fun hw => by cases hw) fun hr => by simp [hmain] at hr
  | eventDel hmain =>
    exact h.of_main rfl rfl rfl (fun hw => by cases hw) fun hr => by simp [hmain] at hr
  | close hmain =>
    exact h.of_main rfl rfl rfl (fun hw => by cases hw) fun hr => by simp [hmain] at hr
  | sendFail hmain henv =>
    exact h.of_main rfl rfl rfl (fun hw => by cases hw) fun hr => by simp [hmain] at hr
  | send hmain henv hfd hk => exact h.of_send howned hmain henv hk
  | rearm hmain henv => exact h.of_rearm hmain
  | getTask hqueue => exact h.of_main rfl rfl rfl h.writing id
  | run htask henv => exact h.of_run howned henv

lemma once_of_reachable {svrFd : ℕ} {s : State} (h : Reachable (step svrFd) (init svrFd) s) :
    Once s :=
  h.invariant_of (fun _ => inv_of_reachable) (once_init svrFd)
    fun _ _ _ hinv _ honce _ hstep => honce.next hinv.owned (next_of_step hstep)

/-- **No response is sent twice.**  In every run the calls of `send` that succeed are for
different responses, each for one that a worker has produced and for no more bytes than it
has. -/
theorem sent_once {svrFd : ℕ} {s : State} (h : Reachable (step svrFd) (init svrFd) s) :
    (s.sent.map fun r => r.env.serial).Nodup ∧
      ∀ r ∈ s.sent, s.produced[r.env.serial]? = some r.env ∧ r.nwrite ≤ r.env.buf.length := by
  have honce := once_of_reachable h
  refine ⟨honce.nodup, fun r hr => ?_⟩
  obtain ⟨hproduced, hle⟩ := honce.sent r hr
  exact ⟨honce.serial _ hproduced, hle⟩

/-- One client is served. -/
theorem sent_once_single :
    ∃ s, run (step 3) (init 3) (connectRun 3 5 ++
        requestRun 5 0 (bytes "GET / HTTP/1.1\r\n\r\n") ++
        [.worker .getTask, .worker (.run 0 (bytes "null\n") 16)] ++ sendRun 5 75) = some s ∧
      (s.sent.map fun r => r.env.serial).Nodup ∧
      ∀ r ∈ s.sent, s.produced[r.env.serial]? = some r.env ∧ r.nwrite ≤ r.env.buf.length := by
  obtain ⟨s, hrun⟩ : ∃ s, run (step 3) (init 3) (connectRun 3 5 ++
      requestRun 5 0 (bytes "GET / HTTP/1.1\r\n\r\n") ++
      [.worker .getTask, .worker (.run 0 (bytes "null\n") 16)] ++ sendRun 5 75) = some s :=
    ⟨_, rfl⟩
  exact ⟨s, hrun, sent_once (reachable_of_run .init hrun)⟩

/-! ## The main thread -/

/-- What `recv` has returned in a call of `_on_http_read`. -/
def MainPc.Received : MainPc → Prop
  | .reading _ conn chunks => (∀ x ∈ chunks, IsChunk x) ∧ (conn = none → chunks = [])
  | _ => True

lemma received_next {svrFd : ℕ} {s s' : State} {a : Action} (h : s.main.Received)
    (hstep : Next svrFd s a s') : s'.main.Received := by
  cases hstep with
  | client hnet => exact h
  | epollWait hmain hbatch hnodup hready => exact h
  | dispatchAccept hmain hbatch hsvr => trivial
  | dispatchRead hmain hbatch hsvr hin => exact ⟨fun _ hx => (by cases hx), fun _ => rfl⟩
  | dispatchEmpty hmain hbatch hdata henv hempty => exact h
  | dispatchWrite hmain hbatch hdata henv => trivial
  | dispatchSkip hmain hbatch => exact h
  | accept hmain hnet =>
    show (if _ then MainPc.adding _ else .loop).Received
    split <;> trivial
  | acceptEnd hmain => trivial
  | eventAdd hmain => trivial
  | recv hmain hnet =>
    rw [hmain] at h
    refine ⟨fun x hx => ?_, fun hnone => by cases hnone⟩
    rcases List.mem_append.mp hx with hx | hx
    · exact h.1 x hx
    · rw [List.mem_singleton] at hx
      exact hx ▸ (Net.recv_cases hnet).2.1
  | recvTask hmain hread => trivial
  | recvNone hmain hread => trivial
  | recvFail hmain => trivial
  | addTask hmain => trivial
  | eventDel hmain => trivial
  | close hmain => trivial
  | sendFail hmain henv => trivial
  | send hmain henv hfd hk => trivial
  | rearm hmain henv => trivial
  | getTask hqueue => exact h
  | run htask henv => exact h

lemma received_of_reachable {svrFd : ℕ} {s : State}
    (h : Reachable (step svrFd) (init svrFd) s) : s.main.Received :=
  h.invariant (P := fun s => s.main.Received) trivial
    fun _ _ _ hrec _ hstep => received_next hrec (next_of_step hstep)

/-- `_on_http_read` comes to its end after any chunks: it drops them, or queues them with a
terminator if there are any. -/
lemma onHttpRead_cases {chunks : List Bytes} (hchunks : ∀ x ∈ chunks, IsChunk x)
    (last : RecvEnd) :
    onHttpRead chunks last = some (.fail, none) ∨
      (chunks ≠ [] ∧ onHttpRead chunks last = some (.ok, some (chunks.flatten ++ [nul]))) ∨
      (chunks = [] ∧ onHttpRead chunks last = some (.ok, none)) := by
  have hroom : RecvData.new.Roomy := by
    change 0 + 1024 < 4096
    omega
  obtain ⟨d, hd, hroom', hdata⟩ := foldlM_recvChunk hchunks hroom
  rw [show RecvData.new.data ++ chunks.flatten = chunks.flatten from rfl] at hdata
  have hfit : d.data.length < d.bufCap := by
    have : d.data.length + bufLeft < d.bufCap := hroom'
    omega
  rw [onHttpRead, hd, Option.bind_eq_bind, Option.bind_some]
  by_cases hclosed : last = .closed
  · exact Or.inl (if_pos hclosed)
  rw [if_neg hclosed]
  by_cases hne : chunks = []
  · refine Or.inr (Or.inr ⟨hne, if_neg ?_⟩)
    rw [hdata, hne]
    simp
  · have hpos : 0 < d.data.length := hdata ▸ length_flatten_pos hchunks hne
    rw [if_pos hpos, if_pos hfit, hdata]
    exact Or.inr (Or.inl ⟨hne, rfl⟩)

end Epoll
end Io
end Sunet
