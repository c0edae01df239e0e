/-
# Sending a response

When a descriptor can be written to, the event loop sends the response that is stored for it
and then, in any case, switches the descriptor back to reading and deletes the response.  The
model here follows the loop over `send` with the bytes that each call accepts; the length of
the response passes through an `int`.  `run_writeBack` says how it appears among the steps of
the event loop.
-/
import Sunet.Io.Epoll

namespace Sunet
namespace Io
namespace Epoll

/-- What `send` returns: a positive count, -1 with `EAGAIN`, or -1 with another error. -/
inductive SendRet
  | count (nwrite : ℕ)
  | again
  | error
deriving DecidableEq, Repr

/-- What is done with a response, one after the other. -/
inductive SendEffect
  /-- A call of `send`, and the bytes that it accepts. -/
  | send (ret : SendRet) (piece : Bytes)
  /-- `_event_mod` to `EPOLLIN`. -/
  | eventMod
  /-- `delete out_env`. -/
  | delete
deriving DecidableEq, Repr

/-- The loop over `send` with `n` bytes to go, given what the calls return; `none` if a count
is none that `send` can return, or the calls are used up. -/
def sendLoop (writeBuf : Bytes) (leftBufSize : ℤ) : ℤ → List SendRet → Option (List SendEffect)
  | n, [] => if 0 < n then none else some []
  | n, ret :: rets =>
    if 0 < n then
      match ret with
      | .count nwrite =>
        if 0 < nwrite ∧ (nwrite : ℤ) ≤ n then
          let piece := (writeBuf.drop (leftBufSize - n).toNat).take nwrite
          -- a short count leaves the loop, as an error does
          if (nwrite : ℤ) < n then some [.send ret piece]
          else (sendLoop writeBuf leftBufSize (n - nwrite) rets).map (.send ret piece :: ·)
        else none
      | .again => some [.send ret []]
      | .error => some [.send ret []]
    else some []

/-- What the event loop does with the response `buf` at `EPOLLOUT`. -/
def writeBack (buf : Bytes) (rets : List SendRet) : Option (List SendEffect) :=
  if buf.length = 0 then some [.eventMod, .delete]
  else
    (sendLoop buf (wrapInt buf.length) (wrapInt buf.length) rets).map
      (· ++ [.eventMod, .delete])

/-- The bytes of an effect that `send` has accepted. -/
def SendEffect.piece : SendEffect → Bytes
  | send _ piece => piece
  | _ => []

/-- The bytes that `send` has accepted. -/
def acceptedBytes (effects : List SendEffect) : Bytes := (effects.map SendEffect.piece).flatten

/-- The descriptor is switched back and the response deleted only when the response has been
accepted, in order and once, or after an error other than `EAGAIN`. -/
def SentFirst (buf : Bytes) (effects : List SendEffect) : Prop :=
  ∀ before effect after, effects = before ++ effect :: after →
    effect = .eventMod ∨ effect = .delete →
    acceptedBytes before = buf ∨ ∃ piece, .send .error piece ∈ before

/-! ## One call -/

/-- What a first call accepts. -/
def firstPiece (buf : Bytes) : SendRet → Bytes
  | .count nwrite => buf.take nwrite
  | _ => []

lemma sendLoop_of_nonpos {buf : Bytes} {left n : ℤ} (hn : ¬ 0 < n) (rets : List SendRet) :
    sendLoop buf left n rets = some [] := by
  cases rets with
  | nil => rw [sendLoop, if_neg hn]
  | cons ret rest => cases ret <;> rw [sendLoop, if_neg hn]

/-- The loop makes one call: a full count leaves nothing to send, and everything else leaves
the loop. -/
lemma sendLoop_cases {buf : Bytes} {n : ℤ} (hn : 0 < n) {rets : List SendRet}
    {effects : List SendEffect} (h : sendLoop buf n n rets = some effects) :
    ∃ ret rest, rets = ret :: rest ∧ effects = [.send ret (firstPiece buf ret)] ∧
      ∀ nwrite, ret = .count nwrite → 0 < nwrite ∧ (nwrite : ℤ) ≤ n := by
  cases rets with
  | nil =>
    rw [sendLoop, if_pos hn] at h
    cases h
  | cons ret rest =>
    refine ⟨ret, rest, rfl, ?_⟩
    cases ret with
    | again =>
      rw [sendLoop, if_pos hn] at h
      cases h
      exact ⟨rfl, fun _ heq => by cases heq⟩
    | error =>
      rw [sendLoop, if_pos hn] at h
      cases h
      exact ⟨rfl, fun _ heq => by cases heq⟩
    | count nwrite =>
      rw [sendLoop, if_pos hn] at h
      split at h
      · next hcount =>
        have hvalid : ∀ k, SendRet.count nwrite = .count k → 0 < k ∧ (k : ℤ) ≤ n := by
          rintro k ⟨⟩
          exact hcount
        rw [sub_self, Int.toNat_zero, List.drop_zero] at h
        split at h
        · cases h
          exact ⟨rfl, hvalid⟩
        · next hfull =>
          rw [sendLoop_of_nonpos (by omega)] at h
          cases h
          exact ⟨rfl, hvalid⟩
      · cases h

lemma acceptedBytes_append (effects effects' : List SendEffect) :
    acceptedBytes (effects ++ effects') = acceptedBytes effects ++ acceptedBytes effects' := by
  simp [acceptedBytes]

/-- Only the calls of `send` stand before the two last effects. -/
lemma sentFirst_append_iff {buf : Bytes} {sends : List SendEffect}
    (hsends : ∀ e ∈ sends, e ≠ .eventMod ∧ e ≠ .delete) :
    SentFirst buf (sends ++ [.eventMod, .delete]) ↔
      acceptedBytes sends = buf ∨ ∃ piece, .send .error piece ∈ sends := by
  constructor
  · intro h
    exact h sends .eventMod [.delete] rfl (.inl rfl)
  · intro h before effect after heq heffect
    have hbefore : ∃ more, before = sends ++ more ∧ more ⊆ [.eventMod, .delete] := by
      rcases List.append_eq_append_iff.mp heq with ⟨more, hbefore, hmore⟩ | ⟨more, hsplit, hrest⟩
      · exact ⟨more, hbefore, hmore ▸ List.subset_append_left _ _⟩
      · cases more with
        | nil => exact ⟨[], by rw [hsplit, List.append_nil, List.append_nil], by simp⟩
        | cons e more =>
          -- the effect would be one of the calls
          obtain ⟨rfl, -⟩ := List.cons.inj hrest
          have hno := hsends effect (hsplit ▸ by simp)
          exact absurd heffect (not_or.mpr hno)
    obtain ⟨more, rfl, hmore⟩ := hbefore
    have hnone : acceptedBytes more = [] := by
      rw [acceptedBytes, List.flatten_eq_nil_iff]
      intro piece hpiece
      obtain ⟨e, he, rfl⟩ := List.mem_map.mp hpiece
      have hcases := hmore he
      simp only [List.mem_cons, List.not_mem_nil, or_false] at hcases
      rcases hcases with rfl | rfl
      · rfl
      · rfl
    rcases h with hall | ⟨piece, hmem⟩
    · left
      rw [acceptedBytes_append, hnone, List.append_nil, hall]
    · exact .inr ⟨piece, List.mem_append_left _ hmem⟩

/-! ## When everything is sent first -/

/-- The response is deleted only after all of it was accepted exactly if it is empty, or its
length is positive as an `int` and the first call of `send` accepts all of it or fails. -/
theorem sentFirst_iff {buf : Bytes} {rets : List SendRet} {effects : List SendEffect}
    (h : writeBack buf rets = some effects) :
    SentFirst buf effects ↔ buf = [] ∨ (0 < wrapInt buf.length ∧
      (rets.head? = some .error ∨ rets.head? = some (.count buf.length))) := by
  rw [writeBack] at h
  split at h
  · next hlen =>
    cases h
    have hnil : buf = [] := List.eq_nil_of_length_eq_zero hlen
    refine iff_of_true ?_ (.inl hnil)
    have hiff : SentFirst buf ([] ++ [.eventMod, .delete]) ↔ _ := sentFirst_append_iff (by simp)
    refine hiff.mpr (.inl ?_)
    rw [hnil]
    rfl
  · next hlen =>
    have hne : buf ≠ [] := fun hnil => hlen (by rw [hnil]; rfl)
    rw [Option.map_eq_some_iff] at h
    obtain ⟨sends, hloop, rfl⟩ := h
    by_cases hpos : 0 < wrapInt buf.length
    · obtain ⟨ret, rest, rfl, rfl, hcount⟩ := sendLoop_cases hpos hloop
      rw [sentFirst_append_iff (by simp)]
      cases ret with
      | again => simp [acceptedBytes, SendEffect.piece, firstPiece, hne, hne.symm]
      | error => simp [hpos]
      | count nwrite =>
        have hle := (hcount nwrite rfl).2
        have hlen' := wrapInt_le buf.length
        have htake : buf.take nwrite = buf ↔ nwrite = buf.length := by
          rw [List.take_eq_self_iff]
          omega
        simp [acceptedBytes, SendEffect.piece, firstPiece, hne, hpos, htake]
    · rw [sendLoop_of_nonpos hpos] at hloop
      cases hloop
      rw [sentFirst_append_iff (by simp)]
      simp [acceptedBytes, hne, hne.symm, hpos]

/-- A response of two bytes that is accepted at once. -/
theorem sentFirst_iff_full :
    SentFirst (bytes "ok") [.send (.count 2) (bytes "ok"), .eventMod, .delete] ↔
      bytes "ok" = [] ∨ (0 < wrapInt (bytes "ok").length ∧
        ([SendRet.count 2].head? = some .error ∨
          [SendRet.count 2].head? = some (.count (bytes "ok").length))) :=
  sentFirst_iff (by decide)

/-- A response of two bytes of which `send` accepts one. -/
theorem not_sentFirst : ¬ ∀ (buf : Bytes) (rets : List SendRet) (effects : List SendEffect),
    writeBack buf rets = some effects → SentFirst buf effects := by
  intro h
  have hfirst := h (bytes "ok") [.count 1]
    [.send (.count 1) (bytes "o"), .eventMod, .delete] (by decide)
    [.send (.count 1) (bytes "o")] .eventMod [.delete] rfl (.inl rfl)
  rcases hfirst with hall | ⟨piece, hmem⟩
  · revert hall
    decide
  · simp at hmem

/-! ## In the event loop -/

/-- The result of `send` as the event loop sees it. -/
def SendRet.nwrite : SendRet → Option ℕ
  | count nwrite => some nwrite
  | _ => none

/-- What is recorded of a call of `send`. -/
def SendRet.record (c : ℕ) (outEnv : OutEnv) : SendRet → List Sent
  | count nwrite => [⟨c, outEnv, nwrite⟩]
  | _ => []

open Transition

/-- The effects of `writeBack` are the steps of the event loop from the first call of `send`
to the next event: it is called once, the descriptor is armed for reading, and the response
is gone. -/
theorem run_writeBack {svrFd a c : ℕ} {s : State} {outEnv : OutEnv} {ret : SendRet}
    {rets : List SendRet} {effects : List SendEffect}
    (hmain : s.main = .writing a outEnv.buf.length) (henv : s.envs a = some outEnv)
    (hfd : s.net.fds outEnv.fd = some c) (hne : outEnv.buf ≠ [])
    (hlen : outEnv.buf.length < 2 ^ 31)
    (h : writeBack outEnv.buf (ret :: rets) = some effects) :
    effects = [.send ret (firstPiece outEnv.buf ret), .eventMod, .delete] ∧
      run (step svrFd) s [.main (.send ret.nwrite), .main .rearm] = some { s with
        sent := s.sent ++ ret.record c outEnv
        regs := eventMod s.regs outEnv.fd ⟨.input, .fd outEnv.fd⟩
        envs := Function.update s.envs a none
        main := .loop } := by
  have hlen0 : outEnv.buf.length ≠ 0 := fun h0 => hne (List.eq_nil_of_length_eq_zero h0)
  have hwrap : wrapInt outEnv.buf.length = outEnv.buf.length := isInt_of_lt hlen
  rw [writeBack, if_neg hlen0, hwrap, Option.map_eq_some_iff] at h
  obtain ⟨sends, hloop, rfl⟩ := h
  obtain ⟨ret', rest, hrets, rfl, hcount⟩ := sendLoop_cases (by omega) hloop
  cases hrets
  refine ⟨rfl, ?_⟩
  -- the first step ends the loop whatever `send` returns
  have hsend : step svrFd s (.main (.send ret.nwrite)) =
      some { s with sent := s.sent ++ ret.record c outEnv, main := .rearming a } := by
    cases ret with
    | again => simp [step, mainStep, SendRet.nwrite, SendRet.record, hmain, henv]
    | error => simp [step, mainStep, SendRet.nwrite, SendRet.record, hmain, henv]
    | count nwrite =>
      have hle : nwrite ≤ outEnv.buf.length := by
        have hcount' := (hcount nwrite rfl).2
        omega
      have hend : (if nwrite < outEnv.buf.length then MainPc.rearming a
          else if 0 < outEnv.buf.length - nwrite then .writing a (outEnv.buf.length - nwrite)
          else .rearming a) = .rearming a := by
        split
        · rfl
        · rw [if_neg (by omega)]
      simp only [step, mainStep, SendRet.nwrite, SendRet.record, hmain, henv, hfd, if_pos hle, hend]
  rw [run_cons hsend]
  simp [run, step, mainStep, henv]

end Epoll
end Io
end Sunet
