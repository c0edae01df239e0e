/-
# The receive buffer

`_on_http_read` receives into the block of a `RECV_DATA`, which `resize` replaces by one of
twice the size.  The model here has the block with every byte of it: what it contains when
it is new, every write with its position, and the copy that `resize` makes.  It refines
`onHttpRead`, which knows the received bytes only.
-/
import Sunet.Io.Receive
import Sunet.Lib.Except

namespace Sunet
namespace Io

open Byte Sunet.Except

/-- How a run can go wrong. -/
inductive BufFault
  /-- A write at a position that is not below `buf_cap`. -/
  | outside
  /-- A capacity that is no `int`. -/
  | overflow
deriving DecidableEq, Repr

/-- `RECV_DATA`. -/
structure RecvBuf where
  buf : Bytes
  bufLen : ℕ
  bufCap : ℕ
deriving DecidableEq, Repr

/-- A new block of `n` bytes: what it contains depends on the memory. -/
def newBlock (memory : ℕ → ℕ → Byte) (n : ℕ) : Bytes := (List.range n).map (memory n)

namespace RecvBuf

/-- The constructor: `sizeof(buf)` is the size of a pointer. -/
def new (memory : ℕ → ℕ → Byte) : RecvBuf where
  buf := List.replicate 8 nul ++ (newBlock memory 4096).drop 8
  bufLen := 0
  bufCap := 4096

/-- `buf[i] = b`. -/
def store (r : RecvBuf) (i : ℕ) (b : Byte) : Except BufFault RecvBuf :=
  if i < r.bufCap then .ok { r with buf := r.buf.set i b } else .error .outside

/-- The bytes of a chunk, written from position `i` on. -/
def storeBytes (r : RecvBuf) : ℕ → Bytes → Except BufFault RecvBuf
  | _, [] => .ok r
  | i, b :: bs => do
    let r ← r.store i b
    storeBytes r (i + 1) bs

/-- `resize`, which copies `buf_len` bytes. -/
def resize (memory : ℕ → ℕ → Byte) (r : RecvBuf) : Except BufFault RecvBuf :=
  if r.bufCap * 2 < 2 ^ 31 then
    .ok { r with
      buf := r.buf.take r.bufLen ++ (newBlock memory (r.bufCap * 2)).drop r.bufLen
      bufCap := r.bufCap * 2 }
  else .error .overflow

/-- A round of the loop in which `recv` writes `chunk` into the buffer. -/
def recv (memory : ℕ → ℕ → Byte) (r : RecvBuf) (chunk : Bytes) : Except BufFault RecvBuf := do
  let r ← r.storeBytes r.bufLen chunk
  let r := { r with bufLen := r.bufLen + chunk.length }
  let r ← r.store r.bufLen nul
  if r.bufLen + bufLeft ≥ r.bufCap then r.resize memory else .ok r

end RecvBuf

/-- `_on_http_read`, given the chunks that `recv` returns before the call that ends the loop:
the value returned and the buffers of the tasks that are queued. -/
def onHttpReadBuf (memory : ℕ → ℕ → Byte) (chunks : List Bytes) (last : RecvEnd) :
    Except BufFault (ReadRet × List RecvBuf) := do
  let r ← chunks.foldlM (RecvBuf.recv memory) (RecvBuf.new memory)
  if last = .closed then .ok (.fail, [])
  else if 0 < r.bufLen then do
    let r ← r.store r.bufLen nul
    .ok (.ok, [r])
  else .ok (.ok, [])

namespace RecvBuf

/-- The buffer contains `data`, and between two calls there is room for another chunk and
its terminator. -/
structure Contains (r : RecvBuf) (data : Bytes) : Prop where
  length_buf : r.buf.length = r.bufCap
  bufLen_eq : r.bufLen = data.length
  prefix_buf : data <+: r.buf
  room : r.bufLen + bufLeft < r.bufCap

/-- The received bytes alone. -/
def toRecvData (r : RecvBuf) : RecvData := ⟨r.buf.take r.bufLen, r.bufCap⟩

lemma length_newBlock (memory : ℕ → ℕ → Byte) (n : ℕ) : (newBlock memory n).length = n := by
  simp [newBlock]

lemma contains_new (memory : ℕ → ℕ → Byte) : (new memory).Contains [] where
  length_buf := by simp [new, length_newBlock]
  bufLen_eq := rfl
  prefix_buf := List.nil_prefix
  room := by
    show 0 + 1024 < 4096
    omega

lemma Contains.toRecvData_eq {r : RecvBuf} {data : Bytes} (h : r.Contains data) :
    r.toRecvData = ⟨data, r.bufCap⟩ := by
  obtain ⟨rest, hrest⟩ := h.prefix_buf
  rw [toRecvData, ← hrest, h.bufLen_eq, List.take_left]

lemma store_append {r : RecvBuf} {pre rest : Bytes} {old : Byte} (hbuf : r.buf = pre ++ old :: rest)
    (hlen : r.buf.length = r.bufCap) (b : Byte) :
    r.store pre.length b = .ok { r with buf := pre ++ b :: rest } := by
  have hin : pre.length < r.bufCap := by
    rw [← hlen, hbuf, List.length_append, List.length_cons]
    omega
  rw [store, if_pos hin, hbuf]
  simp

/-- A chunk replaces as many bytes as it has. -/
lemma storeBytes_append {chunk old : Bytes} (hold : old.length = chunk.length) {r : RecvBuf}
    {pre rest : Bytes} (hbuf : r.buf = pre ++ old ++ rest) (hlen : r.buf.length = r.bufCap) :
    r.storeBytes pre.length chunk = .ok { r with buf := pre ++ chunk ++ rest } := by
  induction chunk generalizing r pre old with
  | nil =>
    have hnil : old = [] := List.eq_nil_of_length_eq_zero hold
    rw [hnil] at hbuf
    rw [storeBytes, ← hbuf]
  | cons b chunk ih =>
    cases old with
    | nil => cases hold
    | cons b₀ old =>
      have hbuf' : r.buf = pre ++ b₀ :: (old ++ rest) := by rw [hbuf]; simp
      rw [storeBytes, store_append hbuf' hlen, ok_bind]
      have hnew : pre ++ b :: (old ++ rest) = pre ++ [b] ++ old ++ rest := by simp
      have hnext := ih (Nat.succ.inj hold) (r := { r with buf := pre ++ b :: (old ++ rest) }) hnew
        (by rw [← hlen, hbuf']; simp)
      rw [List.length_append, List.length_singleton] at hnext
      rw [hnext]
      simp

/-- A chunk and its terminator are written behind the data, inside the buffer. -/
lemma Contains.recv_eq (memory : ℕ → ℕ → Byte) {r : RecvBuf} {data chunk : Bytes}
    (h : r.Contains data) (hchunk : IsChunk chunk) :
    ∃ rest : Bytes, r.bufCap = (data ++ chunk).length + (rest.length + 1) ∧
      r.recv memory chunk =
        if (data ++ chunk).length + bufLeft ≥ r.bufCap then
          resize memory ⟨data ++ chunk ++ nul :: rest, (data ++ chunk).length, r.bufCap⟩
        else .ok ⟨data ++ chunk ++ nul :: rest, (data ++ chunk).length, r.bufCap⟩ := by
  obtain ⟨tail, htail⟩ := h.prefix_buf
  have hroom := h.room
  have hle := hchunk.2
  have hlen := h.length_buf
  rw [h.bufLen_eq] at hroom
  -- the bytes that the chunk replaces, the one that the terminator replaces, and the rest
  have htailLen : chunk.length + 1 ≤ tail.length := by
    rw [← htail, List.length_append] at hlen
    omega
  obtain ⟨old, x, rest, rfl, hold⟩ :
      ∃ old x rest, tail = old ++ x :: rest ∧ old.length = chunk.length := by
    refine ⟨tail.take chunk.length, tail[chunk.length], tail.drop (chunk.length + 1), ?_, ?_⟩
    · rw [← List.drop_eq_getElem_cons, List.take_append_drop]
    · rw [List.length_take]
      omega
  have hbuf : r.buf = data ++ old ++ x :: rest := by rw [← htail, List.append_assoc]
  have hcap : r.bufCap = (data ++ chunk).length + (rest.length + 1) := by
    rw [← hlen, hbuf]
    simp only [List.length_append, List.length_cons]
    omega
  have hchunkStored : r.storeBytes r.bufLen chunk =
      .ok { r with buf := data ++ chunk ++ x :: rest } := by
    have hstored := storeBytes_append hold hbuf hlen
    rwa [← h.bufLen_eq] at hstored
  have hnulStored :
      store ⟨data ++ chunk ++ x :: rest, r.bufLen + chunk.length, r.bufCap⟩
          (r.bufLen + chunk.length) nul =
        .ok ⟨data ++ chunk ++ nul :: rest, r.bufLen + chunk.length, r.bufCap⟩ := by
    have hpos : r.bufLen + chunk.length = (data ++ chunk).length := by
      rw [h.bufLen_eq, List.length_append]
    rw [hpos]
    exact store_append rfl (by rw [hcap, List.length_append]; rfl) nul
  refine ⟨rest, hcap, ?_⟩
  rw [recv, hchunkStored, ok_bind]
  dsimp only
  rw [hnulStored, ok_bind, h.bufLen_eq, ← List.length_append]

/-- `resize` keeps the data and makes room. -/
lemma contains_resize (memory : ℕ → ℕ → Byte) {data : Bytes} (rest : Bytes) {cap : ℕ}
    (hcap : data.length < cap) (hbig : bufLeft < cap) (hfit : cap * 2 < 2 ^ 31) :
    ∃ r', resize memory ⟨data ++ nul :: rest, data.length, cap⟩ = .ok r' ∧ r'.Contains data ∧
      r'.bufCap = cap * 2 := by
  rw [resize, if_pos hfit]
  refine ⟨_, rfl, ?_, rfl⟩
  dsimp only
  rw [List.take_left]
  refine ⟨?_, rfl, List.prefix_append _ _, ?_⟩
  · show (_ : Bytes).length = cap * 2
    rw [List.length_append, List.length_drop, length_newBlock]
    omega
  · show data.length + bufLeft < cap * 2
    omega

/-- A chunk is received: only the doubling of the capacity can fail. -/
lemma recv_cases (memory : ℕ → ℕ → Byte) {r : RecvBuf} {data chunk : Bytes}
    (h : r.Contains data) (hchunk : IsChunk chunk) :
    (r.recv memory chunk = .error .overflow ∧ 2 ^ 30 ≤ (data ++ chunk).length + bufLeft) ∨
      ∃ r', r.recv memory chunk = .ok r' ∧ r'.Contains (data ++ chunk) ∧
        recvChunk r.toRecvData chunk = some r'.toRecvData := by
  obtain ⟨rest, hcap, hrecv⟩ := h.recv_eq memory hchunk
  have hroom := h.room
  have habs : recvChunk r.toRecvData chunk = some ⟨data ++ chunk,
      if (data ++ chunk).length + bufLeft ≥ r.bufCap then r.bufCap * 2 else r.bufCap⟩ := by
    have hfit : (data ++ chunk).length < r.bufCap := by omega
    rw [h.toRecvData_eq, recvChunk]
    exact if_pos hfit
  rw [hrecv, habs]
  by_cases hfull : (data ++ chunk).length + bufLeft ≥ r.bufCap
  · rw [if_pos hfull, if_pos hfull]
    by_cases hfit : r.bufCap * 2 < 2 ^ 31
    · have hlt : (data ++ chunk).length < r.bufCap := by omega
      obtain ⟨r', hresize, hcontains, hcap'⟩ := contains_resize memory rest hlt (by omega) hfit
      refine .inr ⟨r', hresize, hcontains, ?_⟩
      rw [hcontains.toRecvData_eq, hcap']
    · rw [resize, if_neg hfit]
      exact .inl ⟨rfl, le_trans (by omega) hfull⟩
  · rw [if_neg hfull, if_neg hfull]
    have hcontains : Contains ⟨data ++ chunk ++ nul :: rest, (data ++ chunk).length, r.bufCap⟩
        (data ++ chunk) := by
      refine ⟨?_, rfl, List.prefix_append _ _, not_le.mp hfull⟩
      show (_ : Bytes).length = r.bufCap
      rw [hcap, List.length_append, List.length_cons]
    exact .inr ⟨_, rfl, hcontains, by rw [hcontains.toRecvData_eq]⟩

/-- The loop: the buffer contains what was received, as the model without a buffer has it. -/
lemma foldlM_recv (memory : ℕ → ℕ → Byte) {chunks : List Bytes}
    (hchunks : ∀ c ∈ chunks, IsChunk c) {r : RecvBuf} {data : Bytes} (h : r.Contains data) :
    (chunks.foldlM (recv memory) r = .error .overflow ∧
        2 ^ 30 ≤ (data ++ chunks.flatten).length + bufLeft) ∨
      ∃ r', chunks.foldlM (recv memory) r = .ok r' ∧ r'.Contains (data ++ chunks.flatten) ∧
        chunks.foldlM recvChunk r.toRecvData = some r'.toRecvData := by
  induction chunks generalizing r data with
  | nil => exact .inr ⟨r, rfl, by simpa using h, rfl⟩
  | cons c chunks ih =>
    rw [List.foldlM_cons, List.foldlM_cons, List.flatten_cons, ← List.append_assoc]
    rcases recv_cases memory h (hchunks c List.mem_cons_self) with
      ⟨hover, hbig⟩ | ⟨r₁, hr₁, hcontains, hchunk⟩
    · refine .inl ⟨by rw [hover, error_bind], ?_⟩
      rw [List.length_append]
      omega
    · have hrest := ih (fun x hx => hchunks x (List.mem_cons_of_mem _ hx)) hcontains
      rw [hr₁, ok_bind, hchunk]
      exact hrest

/-- The buffer of a task: the data and a terminator, inside the capacity. -/
structure Holds (r : RecvBuf) (data : Bytes) : Prop where
  bufLen_eq : r.bufLen = data.length
  take_buf : r.buf.take (r.bufLen + 1) = data ++ [nul]
  bufLen_lt : r.bufLen < r.bufCap
  length_buf : r.buf.length = r.bufCap

lemma Contains.store_nul {r : RecvBuf} {data : Bytes} (h : r.Contains data) :
    ∃ r', r.store r.bufLen nul = .ok r' ∧ r'.Holds data := by
  obtain ⟨tail, htail⟩ := h.prefix_buf
  have hroom := h.room
  have hlen := h.length_buf
  rw [h.bufLen_eq] at hroom
  cases tail with
  | nil =>
    rw [List.append_nil] at htail
    rw [← htail] at hlen
    omega
  | cons x rest =>
    have hstored := store_append htail.symm hlen nul
    rw [← h.bufLen_eq] at hstored
    refine ⟨_, hstored, h.bufLen_eq, ?_, ?_, ?_⟩
    · show (data ++ nul :: rest).take (r.bufLen + 1) = data ++ [nul]
      rw [h.bufLen_eq, List.take_append, List.take_of_length_le (by omega)]
      simp
    · show r.bufLen < r.bufCap
      rw [h.bufLen_eq]
      omega
    · show (data ++ nul :: rest).length = r.bufCap
      rw [← hlen, ← htail, List.length_append, List.length_append, List.length_cons,
        List.length_cons]

end RecvBuf

/-- The end of the function, behind a loop that has not failed. -/
lemma onHttpReadBuf_of_foldlM {memory : ℕ → ℕ → Byte} {chunks : List Bytes}
    (hchunks : ∀ c ∈ chunks, IsChunk c) (last : RecvEnd) {r : RecvBuf}
    (hloop : chunks.foldlM (RecvBuf.recv memory) (RecvBuf.new memory) = .ok r)
    (hcontains : r.Contains chunks.flatten) :
    ∃ ret tasks, onHttpReadBuf memory chunks last = .ok (ret, tasks) ∧
      ((last = .closed ∧ ret = .fail ∧ tasks = []) ∨
        (last ≠ .closed ∧ ret = .ok ∧ chunks = [] ∧ tasks = []) ∨
        (last ≠ .closed ∧ ret = .ok ∧ chunks ≠ [] ∧
          ∃ r, tasks = [r] ∧ r.Holds chunks.flatten)) := by
  rw [onHttpReadBuf, hloop, ok_bind]
  by_cases hclosed : last = .closed
  · rw [if_pos hclosed]
    exact ⟨.fail, [], rfl, .inl ⟨hclosed, rfl, rfl⟩⟩
  · rw [if_neg hclosed, hcontains.bufLen_eq]
    by_cases hne : chunks = []
    · subst hne
      exact ⟨.ok, [], rfl, .inr (.inl ⟨hclosed, rfl, rfl, rfl⟩)⟩
    · obtain ⟨r', hstored, hholds⟩ := hcontains.store_nul
      rw [hcontains.bufLen_eq] at hstored
      rw [if_pos (length_flatten_pos hchunks hne), hstored, ok_bind]
      exact ⟨.ok, [r'], rfl, .inr (.inr ⟨hclosed, rfl, hne, r', rfl, hholds⟩)⟩

/-- **The receive buffer.**  Whatever `recv` returns, every write lies below the capacity, and
the run fails only where a capacity is no `int`.  Otherwise nothing is queued when the peer
has closed or nothing was received, and when the socket has no more data exactly one task is,
whose buffer holds what was received and a terminator. -/
theorem onHttpReadBuf_spec (memory : ℕ → ℕ → Byte) {chunks : List Bytes}
    (hchunks : ∀ c ∈ chunks, IsChunk c) (last : RecvEnd) :
    (onHttpReadBuf memory chunks last = .error .overflow ∧
        2 ^ 30 ≤ chunks.flatten.length + bufLeft) ∨
      ∃ ret tasks, onHttpReadBuf memory chunks last = .ok (ret, tasks) ∧
        ((last = .closed ∧ ret = .fail ∧ tasks = []) ∨
          (last ≠ .closed ∧ ret = .ok ∧ chunks = [] ∧ tasks = []) ∨
          (last ≠ .closed ∧ ret = .ok ∧ chunks ≠ [] ∧
            ∃ r, tasks = [r] ∧ r.Holds chunks.flatten)) := by
  rcases RecvBuf.foldlM_recv memory hchunks (RecvBuf.contains_new memory) with
    ⟨hover, hbig⟩ | ⟨r, hloop, hcontains, -⟩
  · exact .inl ⟨by rw [onHttpReadBuf, hover, error_bind], hbig⟩
  · exact .inr (onHttpReadBuf_of_foldlM hchunks last hloop hcontains)

/-- Two chunks, in a memory that is full of the byte 255. -/
theorem onHttpReadBuf_spec_two :
    (onHttpReadBuf (fun _ _ => 255) [bytes "GET ", bytes "/"] .again = .error .overflow ∧
        2 ^ 30 ≤ [bytes "GET ", bytes "/"].flatten.length + bufLeft) ∨
      ∃ ret tasks,
        onHttpReadBuf (fun _ _ => 255) [bytes "GET ", bytes "/"] .again = .ok (ret, tasks) ∧
        ((RecvEnd.again = .closed ∧ ret = .fail ∧ tasks = []) ∨
          (RecvEnd.again ≠ .closed ∧ ret = .ok ∧ [bytes "GET ", bytes "/"] = [] ∧ tasks = []) ∨
          (RecvEnd.again ≠ .closed ∧ ret = .ok ∧ [bytes "GET ", bytes "/"] ≠ [] ∧
            ∃ r, tasks = [r] ∧ r.Holds [bytes "GET ", bytes "/"].flatten)) := by
  refine onHttpReadBuf_spec (fun _ _ => 255) (fun c hc => ?_) .again
  rcases List.mem_cons.mp hc with rfl | hc
  · exact ⟨by decide, by decide⟩
  · rw [List.mem_singleton.mp hc]
    exact ⟨by decide, by decide⟩

/-- Where the buffers are large enough, the model without a buffer returns the same. -/
theorem onHttpRead_of_onHttpReadBuf {memory : ℕ → ℕ → Byte} {chunks : List Bytes}
    (hchunks : ∀ c ∈ chunks, IsChunk c) {last : RecvEnd} {ret : ReadRet} {tasks : List RecvBuf}
    (h : onHttpReadBuf memory chunks last = .ok (ret, tasks)) :
    onHttpRead chunks last = some (ret, tasks.head?.map fun r => r.buf.take (r.bufLen + 1)) := by
  rcases RecvBuf.foldlM_recv memory hchunks (RecvBuf.contains_new memory) with
    ⟨hover, -⟩ | ⟨r, hloop, hcontains, hrefines⟩
  · rw [onHttpReadBuf, hover, error_bind] at h
    cases h
  · rw [onHttpReadBuf, hloop, ok_bind] at h
    rw [List.nil_append] at hcontains
    rw [(RecvBuf.contains_new memory).toRecvData_eq] at hrefines
    have hstart : chunks.foldlM recvChunk RecvData.new = some r.toRecvData := hrefines
    have hroom := hcontains.room
    rw [onHttpRead, hstart, Option.bind_eq_bind, Option.bind_some, hcontains.toRecvData_eq]
    rw [hcontains.bufLen_eq] at h hroom
    dsimp only
    split at h
    · next hclosed =>
      cases h
      rw [if_pos hclosed]
      rfl
    · next hclosed =>
      rw [if_neg hclosed]
      split at h
      · next hpos =>
        obtain ⟨r', hstored, hholds⟩ := hcontains.store_nul
        rw [hcontains.bufLen_eq] at hstored
        rw [hstored, ok_bind] at h
        cases h
        rw [if_pos hpos, if_pos (by omega)]
        simp [hholds.take_buf]
      · next hpos =>
        cases h
        rw [if_neg hpos]
        rfl

end Io
end Sunet
