/-
# The thread pool

The pool keeps its threads in a vector and, in a field of its own, how many of them there
are to be.  `_start` fills an empty vector with that many threads and `_stop` counts up to
the same field.  `_set_thread_cnt` leaves the field alone while there are threads; `_init`
sets it to the configured count at any time.
-/
import Sunet.Util.Numeral
import Sunet.Lib.SortedMap
import Sunet.Lib.Transition

namespace Sunet
namespace Thread

open SortedMap Transition

/-! ## The configured count -/

/-- `_conf_dict`. -/
abbrev ConfDict := List (Bytes × Bytes)

/-- `_get_conf_val`. -/
def getConfVal (confDict : ConfDict) (key : Bytes) : Bytes := (find key confDict).getD []

/-- `_get_conf_int_val`, which leaves the default where the value is missing or empty. -/
def getConfIntVal (confDict : ConfDict) (key : Bytes) (defaultVal : ℤ) : ℤ :=
  let confVal := getConfVal confDict key
  if confVal = [] then defaultVal else atoi confVal

/-- `_get_thread_cnt`. -/
def getThreadCnt (confDict : ConfDict) : ℤ := getConfIntVal confDict (bytes "thread_cnt") 5

/-! ## The pool -/

/-- `SubThread`: `_stoped` of its handler. -/
structure SubThread where
  stoped : Bool
deriving DecidableEq, Repr

/-- `SubThread::_stop`. -/
def SubThread.stop (_ : SubThread) : SubThread := ⟨true⟩

/-- `SubThreadPool`. -/
structure SubThreadPool where
  threads : List SubThread
  threadsCnt : ℤ
deriving DecidableEq, Repr

namespace SubThreadPool

/-- The constructor. -/
def new : SubThreadPool := ⟨[], 0⟩

/-- `_init`. -/
def init (pool : SubThreadPool) (confDict : ConfDict) : SubThreadPool :=
  { pool with threadsCnt := getThreadCnt confDict }

/-- `_set_thread_cnt`. -/
def setThreadCnt (pool : SubThreadPool) (threadCnt : ℤ) : SubThreadPool :=
  if pool.threads.length ≠ 0 then pool else { pool with threadsCnt := threadCnt }

/-- The loop of `_start`, with `n` threads to go. -/
def startLoop : ℕ → List SubThread → List SubThread
  | 0, threads => threads
  | n + 1, threads => startLoop n (threads ++ [⟨false⟩])

/-- `_start`. -/
def start (pool : SubThreadPool) : SubThreadPool :=
  if pool.threads.length ≠ 0 ∨ pool.threadsCnt < 1 then pool
  else { pool with threads := startLoop pool.threadsCnt.toNat pool.threads }

/-- The loop of `_stop` at index `i`, with `n` indices to go; `none` if one of them is not
below the size of the vector. -/
def stopLoop : ℕ → ℕ → List SubThread → Option (List SubThread)
  | 0, _, threads => some threads
  | n + 1, i, threads =>
    match threads[i]? with
    | some thread => stopLoop n (i + 1) (threads.set i thread.stop)
    | none => none

/-- `_stop`. -/
def stop (pool : SubThreadPool) : Option SubThreadPool := do
  let threads ← stopLoop pool.threadsCnt.toNat 0 pool.threads
  some { pool with threads := threads }

end SubThreadPool

open SubThreadPool

/-- The calls. -/
inductive Call
  | init (confDict : ConfDict)
  | setThreadCnt (threadCnt : ℤ)
  | start
  | stop

/-- The pool after a call, or `none` where the call reads outside the vector. -/
def step (pool : SubThreadPool) : Call → Option SubThreadPool
  | .init confDict => some (pool.init confDict)
  | .setThreadCnt threadCnt => some (pool.setThreadCnt threadCnt)
  | .start => some pool.start
  | .stop => pool.stop

/-- Every thread is told to stop. -/
def AllTold (threads : List SubThread) : Prop := ∀ thread ∈ threads, thread.stoped = true

/-- `_stop` uses indices of the vector only, and tells every thread. -/
def StopsAll (pool : SubThreadPool) : Prop :=
  ∃ pool', step pool .stop = some pool' ∧
    pool'.threads.length = pool.threads.length ∧ AllTold pool'.threads

/-- A count is none too large for the vector, and the threads behind it, if any, are told
already. -/
def Covers (cnt : ℤ) (threads : List SubThread) : Prop :=
  cnt.toNat ≤ threads.length ∧ AllTold (threads.drop cnt.toNat)

/-- The calls that keep the count and the vector together: `_stop` once the pool is started
or while no thread is to be started, `_init` before `_start` or with a count that still
covers the threads. -/
def Together (pool : SubThreadPool) : Call → Prop
  | .init confDict => pool.threads = [] ∨ Covers (getThreadCnt confDict) pool.threads
  | .stop => pool.threads ≠ [] ∨ pool.threadsCnt < 1
  | _ => True

/-! ## The loops -/

lemma startLoop_eq (n : ℕ) (threads : List SubThread) :
    startLoop n threads = threads ++ List.replicate n ⟨false⟩ := by
  induction n generalizing threads with
  | zero => simp [startLoop]
  | succ n ih =>
    rw [startLoop, ih, List.append_assoc, List.replicate_succ]
    rfl

/-- The loop of `_stop` with the threads before its index apart. -/
lemma stopLoop_append (n : ℕ) (told threads : List SubThread) :
    stopLoop n told.length (told ++ threads) =
      if n ≤ threads.length then
        some (told ++ (threads.take n).map SubThread.stop ++ threads.drop n)
      else none := by
  induction n generalizing told threads with
  | zero => simp [stopLoop]
  | succ n ih =>
    cases threads with
    | nil => simp [stopLoop]
    | cons thread threads =>
      have hget : (told ++ thread :: threads)[told.length]? = some thread := by simp
      have hset : (told ++ thread :: threads).set told.length thread.stop =
          (told ++ [thread.stop]) ++ threads := by simp
      have hlen : told.length + 1 = (told ++ [thread.stop]).length := by simp
      rw [stopLoop, hget]
      dsimp only
      rw [hset, hlen, ih]
      simp

/-- The threads with those at the first `n` indices told to stop. -/
def tell (n : ℕ) (threads : List SubThread) : List SubThread :=
  (threads.take n).map SubThread.stop ++ threads.drop n

lemma length_tell (n : ℕ) (threads : List SubThread) :
    (tell n threads).length = threads.length := by
  simp only [tell, List.length_append, List.length_map, List.length_take, List.length_drop]
  omega

lemma drop_tell {n : ℕ} {threads : List SubThread} (h : n ≤ threads.length) :
    (tell n threads).drop n = threads.drop n := by
  have hlen : ((threads.take n).map SubThread.stop).length = n := by simp [h]
  rw [tell, List.drop_append_of_le_length hlen.ge, List.drop_of_length_le hlen.le,
    List.nil_append]

lemma allTold_tell {n : ℕ} {threads : List SubThread} (h : AllTold (threads.drop n)) :
    AllTold (tell n threads) := by
  intro thread hthread
  rcases List.mem_append.mp hthread with hfirst | hrest
  · obtain ⟨thread', -, rfl⟩ := List.mem_map.mp hfirst
    rfl
  · exact h thread hrest

lemma stop_eq (pool : SubThreadPool) :
    pool.stop =
      if pool.threadsCnt.toNat ≤ pool.threads.length then
        some { pool with threads := tell pool.threadsCnt.toNat pool.threads }
      else none := by
  have hloop := stopLoop_append pool.threadsCnt.toNat [] pool.threads
  rw [List.length_nil, List.nil_append, List.nil_append] at hloop
  rw [stop, hloop]
  split
  · rfl
  · rfl

/-- What `_stop` needs of a state. -/
lemma stopsAll_iff (pool : SubThreadPool) :
    StopsAll pool ↔ Covers pool.threadsCnt pool.threads := by
  constructor
  · rintro ⟨pool', hstep, -, htold⟩
    rw [step, stop_eq] at hstep
    split at hstep
    · next hle =>
      cases hstep
      exact ⟨hle, fun thread hthread => htold thread (List.mem_append_right _ hthread)⟩
    · cases hstep
  · rintro ⟨hle, htold⟩
    exact ⟨{ pool with threads := tell pool.threadsCnt.toNat pool.threads },
      by rw [step, stop_eq, if_pos hle], length_tell _ _, allTold_tell htold⟩

/-! ## Runs -/

/-- Once the pool is started, its count covers its threads. -/
def Counted (pool : SubThreadPool) : Prop :=
  pool.threads = [] ∨ Covers pool.threadsCnt pool.threads

lemma counted_setThreadCnt {pool : SubThreadPool} (h : Counted pool) (threadCnt : ℤ) :
    Counted (pool.setThreadCnt threadCnt) := by
  rw [setThreadCnt]
  split
  · exact h
  · next hno =>
    have hnil : pool.threads = [] := List.eq_nil_of_length_eq_zero (by omega)
    exact .inl hnil

lemma counted_start {pool : SubThreadPool} (h : Counted pool) : Counted pool.start := by
  rw [SubThreadPool.start]
  split
  · exact h
  · next hno =>
    have hnil : pool.threads = [] := List.eq_nil_of_length_eq_zero (by omega)
    right
    rw [hnil, startLoop_eq]
    refine ⟨by simp, fun thread hthread => ?_⟩
    simp at hthread

lemma counted_stop {pool pool' : SubThreadPool} (h : Counted pool)
    (hstop : pool.stop = some pool') : Counted pool' := by
  rw [stop_eq] at hstop
  split at hstop
  · next hle =>
    cases hstop
    rcases h with hnil | ⟨-, htold⟩
    · left
      simp [hnil, tell]
    · right
      refine ⟨by rw [length_tell]; exact hle, ?_⟩
      rw [drop_tell hle]
      exact htold
  · cases hstop

/-- A call that keeps the count and the vector together leaves the pool counted. -/
lemma counted_step {pool pool' : SubThreadPool} {call : Call} (h : Counted pool)
    (hok : Together pool call) (hstep : step pool call = some pool') : Counted pool' := by
  cases call with
  | init confDict =>
    cases hstep
    exact hok
  | setThreadCnt threadCnt =>
    cases hstep
    exact counted_setThreadCnt h threadCnt
  | start =>
    cases hstep
    exact counted_start h
  | stop => exact counted_stop h hstep

/-- No call takes a thread out of the vector. -/
lemma length_le_of_step {pool pool' : SubThreadPool} {call : Call}
    (hstep : step pool call = some pool') : pool.threads.length ≤ pool'.threads.length := by
  cases call with
  | init confDict =>
    cases hstep
    exact le_rfl
  | setThreadCnt threadCnt =>
    cases hstep
    rw [setThreadCnt]
    split <;> exact le_rfl
  | start =>
    cases hstep
    rw [SubThreadPool.start]
    split
    · exact le_rfl
    · simp [startLoop_eq]
  | stop =>
    rw [step, stop_eq] at hstep
    split at hstep
    · cases hstep
      exact (length_tell _ _).ge
    · cases hstep

lemma together_stop_iff {pool : SubThreadPool} (h : Counted pool) :
    Together pool .stop ↔ StopsAll pool := by
  rw [stopsAll_iff]
  constructor
  · intro hok
    rcases h with hnil | hcovers
    · have hcnt : pool.threadsCnt < 1 := hok.resolve_left (not_not.mpr hnil)
      rw [hnil]
      exact ⟨by simp; omega, fun thread hthread => by simp at hthread⟩
    · exact hcovers
  · rintro ⟨hle, -⟩
    by_cases hnil : pool.threads = []
    · right
      rw [hnil, List.length_nil] at hle
      omega
    · exact .inl hnil

/-- In a run whose calls keep the count and the vector together every call is possible and
keeps the threads there are.  In its states `_stop` tells every thread, exactly if it is
such a call; and exactly the calls of `_init` that are such calls leave it so. -/
theorem stop_tells_every_thread {pool : SubThreadPool}
    (h : ReachableWhile step Together .new pool) :
    (∀ call, Together pool call → ∃ pool', step pool call = some pool' ∧
      pool.threads.length ≤ pool'.threads.length) ∧
    (Together pool .stop ↔ StopsAll pool) ∧
    (∀ confDict, pool.threads ≠ [] →
      (Together pool (.init confDict) ↔ StopsAll (pool.init confDict))) := by
  have hcounted : Counted pool :=
    h.invariant (.inl rfl) fun _ _ _ hs hok hstep => counted_step hs hok hstep
  refine ⟨fun call hok => ?_, together_stop_iff hcounted, fun confDict hne => ?_⟩
  · have hsome : ∃ pool', step pool call = some pool' := by
      cases call with
      | stop =>
        obtain ⟨pool', hstep, -⟩ := (together_stop_iff hcounted).mp hok
        exact ⟨pool', hstep⟩
      | _ => exact ⟨_, rfl⟩
    obtain ⟨pool', hstep⟩ := hsome
    exact ⟨pool', hstep, length_le_of_step hstep⟩
  · rw [stopsAll_iff]
    exact ⟨fun hok => hok.resolve_left hne, .inr⟩

/-- Initialised without a configured count and started. -/
theorem stop_tells_every_thread_five :
    StopsAll ⟨List.replicate 5 ⟨false⟩, 5⟩ := by
  have hrun : ReachableWhile step Together .new ⟨List.replicate 5 ⟨false⟩, 5⟩ :=
    (ReachableWhile.init.step (a := .init []) (.inl rfl) rfl).step (a := .start) trivial rfl
  exact (stop_tells_every_thread hrun).2.1.mp (.inl (by simp))

/-- `_stop` in a signal handler between `_init` and `_start`. -/
theorem stop_reads_outside : ¬ ∀ pool, Reachable step .new pool → StopsAll pool := by
  intro h
  have hreach : Reachable step .new ⟨[], 5⟩ :=
    ReachableWhile.init.step (a := .init []) trivial rfl
  obtain ⟨pool', hstep, -⟩ := h _ hreach
  cases hstep

end Thread
end Sunet
