/-
# The read callback

`SubServer::_on_http_read` collects what `recv` returns until the socket has no more data
and queues one task with it.  The receive buffer starts with 4096 bytes and is doubled when
less than 1024 of them are left; a write outside it would end the run of the model.
-/
import Sunet.Util.Bytes

namespace Sunet
namespace Io

open Byte

/-- `RECV_DATA`: the first `buf_len` bytes of `buf`, and `buf_cap`. -/
structure RecvData where
  data : Bytes
  bufCap : ℕ
deriving DecidableEq, Repr

/-- The constructor of `RECV_DATA`. -/
def RecvData.new : RecvData := ⟨[], 4096⟩

/-- `buf_left`. -/
def bufLeft : ℕ := 1024

/-- The result of the `recv` call that ends the loop. -/
inductive RecvEnd
  /-- -1 with `EAGAIN`. -/
  | again
  /-- -1 with another error. -/
  | error
  /-- 0, the peer has closed the connection. -/
  | closed
deriving DecidableEq, Repr

/-- The values of `define.h` that the callback returns. -/
inductive ReadRet
  | ok
  | fail
deriving DecidableEq, Repr

/-- A round of the loop in which `recv` returns `chunk`: the bytes and a terminator are
written behind the data; `none` if one of them would lie outside the buffer. -/
def recvChunk (recvData : RecvData) (chunk : Bytes) : Option RecvData :=
  let data := recvData.data ++ chunk
  if data.length < recvData.bufCap then
    some ⟨data, if data.length + bufLeft ≥ recvData.bufCap then recvData.bufCap * 2
      else recvData.bufCap⟩
  else none

/-- `_on_http_read`, given the chunks that `recv` returns before the call that ends the loop:
the value returned and the buffer of the task that is queued. -/
def onHttpRead (chunks : List Bytes) (last : RecvEnd) : Option (ReadRet × Option Bytes) := do
  let recvData ← chunks.foldlM recvChunk RecvData.new
  -- what was received before the peer closed is dropped
  if last = .closed then some (.fail, none)
  else if 0 < recvData.data.length then
    if recvData.data.length < recvData.bufCap then
      some (.ok, some (recvData.data ++ [nul]))
    else none
  else some (.ok, none)

/-- What a call of `recv` can return: at least one byte and at most `buf_left`. -/
def IsChunk (chunk : Bytes) : Prop := chunk ≠ [] ∧ chunk.length ≤ bufLeft

/-- Between two calls there is room for another chunk and its terminator. -/
def RecvData.Roomy (recvData : RecvData) : Prop :=
  recvData.data.length + bufLeft < recvData.bufCap

lemma recvChunk_spec {recvData : RecvData} {chunk : Bytes} (h : recvData.Roomy)
    (hchunk : IsChunk chunk) :
    ∃ recvData', recvChunk recvData chunk = some recvData' ∧ recvData'.Roomy ∧
      recvData'.data = recvData.data ++ chunk := by
  have hlen := hchunk.2
  have hcap : recvData.data.length + bufLeft < recvData.bufCap := h
  have hfit : (recvData.data ++ chunk).length < recvData.bufCap := by
    rw [List.length_append]
    omega
  refine ⟨_, if_pos hfit, ?_, rfl⟩
  rw [RecvData.Roomy]
  split
  · next hfull =>
    change (recvData.data ++ chunk).length + bufLeft < recvData.bufCap * 2
    omega
  · next hfull =>
    change (recvData.data ++ chunk).length + bufLeft < recvData.bufCap
    omega

/-- The loop never writes outside the buffer, and collects the chunks in order. -/
lemma foldlM_recvChunk {chunks : List Bytes} (hchunks : ∀ c ∈ chunks, IsChunk c) :
    ∀ {recvData : RecvData}, recvData.Roomy →
      ∃ recvData', chunks.foldlM recvChunk recvData = some recvData' ∧ recvData'.Roomy ∧
        recvData'.data = recvData.data ++ chunks.flatten := by
  induction chunks with
  | nil =>
    intro recvData h
    exact ⟨recvData, rfl, h, by simp⟩
  | cons c chunks ih =>
    intro recvData h
    obtain ⟨d, hd, hroom, hdata⟩ := recvChunk_spec h (hchunks c (by simp))
    obtain ⟨d', hd', hroom', hdata'⟩ := ih (fun x hx => hchunks x (by simp [hx])) hroom
    refine ⟨d', ?_, hroom', ?_⟩
    · rw [List.foldlM_cons, hd]
      exact hd'
    · rw [hdata', hdata, List.flatten_cons, List.append_assoc]

lemma length_flatten_pos {chunks : List Bytes} (hchunks : ∀ c ∈ chunks, IsChunk c)
    (hne : chunks ≠ []) : 0 < chunks.flatten.length := by
  obtain ⟨c, cs, rfl⟩ := List.exists_cons_of_ne_nil hne
  have hc := List.length_pos_iff.mpr (hchunks c List.mem_cons_self).1
  rw [List.flatten_cons, List.length_append]
  omega

/-- A batch that ends because the socket is empty is queued as it is, with a terminator. -/
lemma onHttpRead_again {chunks : List Bytes} (hchunks : ∀ c ∈ chunks, IsChunk c)
    (hne : chunks ≠ []) :
    onHttpRead chunks .again = some (.ok, some (chunks.flatten ++ [nul])) := by
  have hroom : RecvData.new.Roomy := by
    change 0 + 1024 < 4096
    omega
  obtain ⟨d, hd, hroom', hdata⟩ := foldlM_recvChunk hchunks hroom
  rw [show RecvData.new.data ++ chunks.flatten = chunks.flatten from rfl] at hdata
  have hpos : 0 < d.data.length := hdata ▸ length_flatten_pos hchunks hne
  have hfit : d.data.length < d.bufCap := by
    have : d.data.length + bufLeft < d.bufCap := hroom'
    omega
  rw [onHttpRead, hd, Option.bind_eq_bind, Option.bind_some, if_neg (by simp), if_pos hpos,
    if_pos hfit, hdata]

end Io
end Sunet
