/-
# The logger

`_write_log` takes a mutex, changes the log file when the hour has changed, and appends a line
to the file.  It leaves without unlocking when `fopen` fails, in either of the two places where
a file is opened, and the case of `FATAL` falls through to the default case, which unlocks and
returns without a line.  The main result is `calls_served_iff`, which says for all sequences
of calls when each of them returns with the mutex released and has appended its line.

A log file is what has been written to it.  A call comes with the clock it reads and with the
answers of `fopen`.
-/
import Sunet.Util.Numeral
import Sunet.Lib.Transition

namespace Sunet
namespace Log

open Byte Transition

/-! ## The model -/

/-- The levels. -/
inductive LogType
  | debug
  | warn
  | notice
  | fatal
deriving DecidableEq, Repr

/-- The number of a level. -/
def LogType.toNat : LogType → ℕ
  | .debug => 0
  | .warn => 1
  | .notice => 2
  | .fatal => 3

/-- What `_write_log` puts before the message. -/
def LogType.tag : LogType → Bytes
  | .debug => bytes " [DEBUG] "
  | .warn => bytes " [WARNING] "
  | .notice => bytes " [NOTICE] "
  | .fatal => bytes " [FATAL] "

/-- `MAX_LOG_LEN`. -/
abbrev maxLogLen : ℕ := 1024

/-- The fields of `struct tm` that are read. -/
structure Tm where
  year : ℤ
  mon : ℤ
  mday : ℤ
  hour : ℤ
  min : ℤ
  sec : ℤ
deriving DecidableEq, Repr

/-- A number printed with leading zeros, `%0nd`. -/
def padded (n : ℕ) (v : ℤ) : Bytes :=
  let digits := numToStr v.natAbs
  if v < 0 then 45 :: List.replicate (n - 1 - digits.length) 48 ++ digits
  else List.replicate (n - digits.length) 48 ++ digits

/-- The name of the log file of an hour. -/
def fileName (tm : Tm) : Bytes :=
  bytes "sub.log." ++ padded 4 (tm.year + 1900) ++ padded 2 (tm.mon + 1) ++ padded 2 tm.mday ++
    padded 2 tm.hour ++ bytes "00"

/-- The date that a line starts with. -/
def date (tm : Tm) : Bytes :=
  padded 4 (tm.year + 1900) ++ bytes "-" ++ padded 2 (tm.mon + 1) ++ bytes "-" ++
    padded 2 tm.mday ++ bytes " " ++ padded 2 tm.hour ++ bytes ":" ++ padded 2 tm.min ++
    bytes ":" ++ padded 2 tm.sec

/-- `SubLogger` and the log files.  The stream of `_log_file_p` is given by the path it has been
opened at, and `none` is the null pointer. -/
structure SubLogger where
  logLevel : BitVec 32
  logPath : Bytes
  logFileName : Bytes
  logFileP : Option Bytes
  logMutex : Bool
  files : Bytes → Bytes

/-- A call of `_write_log`: the level, the formatted message, the clock, and what `fopen` answers
in `_update_log_file_name` and in `_write_log` itself. -/
structure Call where
  logType : LogType
  message : Bytes
  tm : Tm
  fopenUpdate : Bool
  fopenWrite : Bool
deriving DecidableEq, Repr

namespace SubLogger

/-- `_update_log_file_name`, and whether it returns `LOG_OK`. -/
def updateLogFileName (s : SubLogger) (tm : Tm) (fopen : Bool) : SubLogger × Bool :=
  if s.logFileName ≠ fileName tm then
    ({ s with
        logFileName := fileName tm
        logFileP := if fopen then some (s.logPath ++ fileName tm) else none }, fopen)
  else (s, true)

/-- `_init_logger` with the configured level and path. -/
def initLogger (logLevel : BitVec 32) (logPath : Bytes) (files : Bytes → Bytes) (tm : Tm)
    (fopen : Bool) : SubLogger :=
  (updateLogFileName
    { logLevel := logLevel
      logPath := logPath
      logFileName := []
      logFileP := none
      logMutex := false
      files := files } tm fopen).1

/-- `fprintf`, which ends at a NUL of the line. -/
def fprintf (s : SubLogger) (p line : Bytes) : SubLogger :=
  { s with files := Function.update s.files p (s.files p ++ line.takeWhile (· ≠ nul) ++ [lf]) }

end SubLogger

/-- `log_line` when it is written. -/
def Call.logLine (c : Call) : Bytes := (date c.tm ++ c.logType.tag ++ c.message).take (maxLogLen - 1)

/-- `_write_log`, or `none` where it waits for the mutex without end. -/
def writeLog (s : SubLogger) (c : Call) : Option SubLogger :=
  if (1#32 <<< c.logType.toNat) &&& s.logLevel = 0 then some s
  else if s.logMutex then none
  else
    match { s with logMutex := true }.updateLogFileName c.tm c.fopenUpdate with
    -- returns with the mutex locked
    | (s, false) => some s
    | (s, true) =>
      if c.logType = .fatal then some { s with logMutex := false }
      else
        match s.logFileP with
        | some p => some { s.fprintf p c.logLine with logMutex := false }
        | none =>
          if c.fopenWrite then
            let p := s.logPath ++ s.logFileName
            some { { s with logFileP := some p }.fprintf p c.logLine with logMutex := false }
          -- returns with the mutex locked
          else some s

/-! ## What a call is for -/

/-- The level of a call is enabled in the mask. -/
def Enabled (s : SubLogger) (c : Call) : Prop := (1#32 <<< c.logType.toNat) &&& s.logLevel ≠ 0

/-- The log file of the hour is open or can be opened. -/
def CanOpen (s : SubLogger) (c : Call) : Prop :=
  if s.logFileName ≠ fileName c.tm then c.fopenUpdate = true
  else s.logFileP ≠ none ∨ c.fopenWrite = true

instance (s : SubLogger) (c : Call) : Decidable (Enabled s c) :=
  inferInstanceAs (Decidable (_ ≠ _))

instance (s : SubLogger) (c : Call) : Decidable (CanOpen s c) :=
  inferInstanceAs (Decidable (ite _ _ _))

/-- After a call the mutex is released, and the call has appended one line to the log file of the
hour, if its level is enabled and the file can be opened, and nothing otherwise.  A line is what
`fprintf` makes of `log_line`, whatever the message has in it: the bytes before the first NUL and
a line feed. -/
structure Served (s : SubLogger) (c : Call) (s' : SubLogger) : Prop where
  released : s'.logMutex = false
  files_eq : s'.files = if Enabled s c ∧ CanOpen s c then
    (s.fprintf (s.logPath ++ fileName c.tm) c.logLine).files else s.files

/-- The calls that are served: their level is disabled, or it is not `FATAL` and the file can be
opened, or it is `FATAL` and the file of the hour is not open and cannot be opened. -/
def Serves (s : SubLogger) (c : Call) : Prop :=
  ¬ Enabled s c ∨ (c.logType ≠ .fatal ∧ CanOpen s c) ∨
    (c.logType = .fatal ∧ s.logFileName = fileName c.tm ∧ ¬ CanOpen s c)

/-- The mutex is free, and the stream is that of the current name. -/
structure Idle (s : SubLogger) : Prop where
  free : s.logMutex = false
  path_eq : ∀ p, s.logFileP = some p → p = s.logPath ++ s.logFileName

/-! ## Single calls -/

lemma fprintf_ne (s : SubLogger) (p line : Bytes) : (s.fprintf p line).files ≠ s.files := by
  intro h
  have hlen := congrArg List.length (congrFun h p)
  simp [SubLogger.fprintf] at hlen

/-- What a served call has appended, and that the other files are as before. -/
lemma Served.files_of_writes {s s' : SubLogger} {c : Call} (h : Served s c s')
    (hwrite : Enabled s c ∧ CanOpen s c) :
    s'.files (s.logPath ++ fileName c.tm) =
        s.files (s.logPath ++ fileName c.tm) ++ c.logLine.takeWhile (· ≠ nul) ++ [lf] ∧
      ∀ p, p ≠ s.logPath ++ fileName c.tm → s'.files p = s.files p := by
  rw [h.files_eq, if_pos hwrite, SubLogger.fprintf]
  exact ⟨Function.update_self _ _ _, fun p hp => Function.update_of_ne hp _ _⟩

/-- A call that changes no file is served exactly if it had nothing to write. -/
lemma served_iff_of_eq {s s' : SubLogger} {c : Call} (hfree : s'.logMutex = false)
    (hfiles : s'.files = s.files) : Served s c s' ↔ ¬ (Enabled s c ∧ CanOpen s c) := by
  constructor
  · intro h hwrite
    have heq := h.files_eq
    rw [if_pos hwrite, hfiles] at heq
    exact fprintf_ne _ _ _ heq.symm
  · intro h
    exact ⟨hfree, by rw [if_neg h, hfiles]⟩

lemma writeLog_of_not_enabled {s : SubLogger} {c : Call} (h : ¬ Enabled s c) :
    writeLog s c = some s := by
  rw [writeLog, if_pos (not_not.mp h)]

/-- What an enabled call does with a free mutex when the hour is that of the open file. -/
lemma writeLog_same {s : SubLogger} {c : Call} (h : Enabled s c) (hfree : s.logMutex = false)
    (hname : s.logFileName = fileName c.tm) :
    writeLog s c =
      if c.logType = .fatal then some s
      else
        match s.logFileP with
        | some p => some (s.fprintf p c.logLine)
        | none =>
          if c.fopenWrite then
            some ({ s with logFileP := some (s.logPath ++ fileName c.tm) }.fprintf
              (s.logPath ++ fileName c.tm) c.logLine)
          else some { s with logMutex := true } := by
  obtain ⟨logLevel, logPath, logFileName, logFileP, logMutex, files⟩ := s
  obtain rfl : logMutex = false := hfree
  obtain rfl : logFileName = fileName c.tm := hname
  rw [writeLog, if_neg h]
  simp only [SubLogger.updateLogFileName, ne_eq, not_true_eq_false, if_false, Bool.false_eq_true]
  rfl

/-- What it does when the hour is another one. -/
lemma writeLog_rotate {s : SubLogger} {c : Call} (h : Enabled s c) (hfree : s.logMutex = false)
    (hname : s.logFileName ≠ fileName c.tm) :
    writeLog s c =
      if c.fopenUpdate then
        let s := { s with
          logFileName := fileName c.tm
          logFileP := some (s.logPath ++ fileName c.tm) }
        if c.logType = .fatal then some s
        else some (s.fprintf (s.logPath ++ fileName c.tm) c.logLine)
      else some { s with logFileName := fileName c.tm, logFileP := none, logMutex := true } := by
  obtain ⟨logLevel, logPath, logFileName, logFileP, logMutex, files⟩ := s
  obtain rfl : logMutex = false := hfree
  rw [writeLog, if_neg h]
  simp only [SubLogger.updateLogFileName, if_pos hname, Bool.false_eq_true, if_false]
  cases c.fopenUpdate <;> rfl

lemma served_same_iff {s : SubLogger} {c : Call} (hs : Idle s) (henabled : Enabled s c)
    (hname : s.logFileName = fileName c.tm) :
    (∃ s', writeLog s c = some s' ∧ Served s c s') ↔ Serves s c := by
  have hcan : CanOpen s c ↔ s.logFileP ≠ none ∨ c.fopenWrite = true := by
    rw [CanOpen, if_neg (not_not.mpr hname)]
  rw [writeLog_same henabled hs.free hname, Serves]
  by_cases hfatal : c.logType = .fatal
  · -- no line is written
    rw [if_pos hfatal]
    simp [served_iff_of_eq hs.free, henabled, hfatal, hname]
  · rw [if_neg hfatal]
    simp only [henabled, hfatal, not_true_eq_false, ne_eq, not_false_eq_true, true_and,
      false_and, or_false, false_or]
    cases hp : s.logFileP with
    | some p =>
      have hopen : CanOpen s c := hcan.mpr (Or.inl (by rw [hp]; exact Option.some_ne_none p))
      have hpath : p = s.logPath ++ fileName c.tm := hname ▸ hs.path_eq p hp
      refine iff_of_true ⟨_, rfl, hs.free, ?_⟩ hopen
      rw [if_pos ⟨henabled, hopen⟩, hpath]
    | none =>
      cases hwrite : c.fopenWrite with
      | true =>
        have hopen : CanOpen s c := hcan.mpr (Or.inr hwrite)
        refine iff_of_true ⟨_, rfl, hs.free, ?_⟩ hopen
        rw [if_pos ⟨henabled, hopen⟩]
        rfl
      | false =>
        -- the mutex stays locked
        have hclosed : ¬ CanOpen s c := by
          rw [hcan, hp, hwrite]
          simp
        refine iff_of_false ?_ hclosed
        rintro ⟨s', heq, hserved⟩
        cases heq
        cases hserved.released

lemma served_rotate_iff {s : SubLogger} {c : Call} (hs : Idle s) (henabled : Enabled s c)
    (hname : s.logFileName ≠ fileName c.tm) :
    (∃ s', writeLog s c = some s' ∧ Served s c s') ↔ Serves s c := by
  have hcan : CanOpen s c ↔ c.fopenUpdate = true := by rw [CanOpen, if_pos hname]
  rw [writeLog_rotate henabled hs.free hname, Serves, hcan]
  simp only [henabled, hname, not_true_eq_false, false_or, false_and, and_false, or_false]
  cases hupdate : c.fopenUpdate with
  | false =>
    -- the mutex stays locked
    refine iff_of_false ?_ (by simp)
    rintro ⟨s', heq, hserved⟩
    cases heq
    cases hserved.released
  | true =>
    by_cases hfatal : c.logType = .fatal
    · refine iff_of_false ?_ (by simp [hfatal])
      rw [if_pos rfl]
      simp only [hfatal, if_true]
      rintro ⟨s', heq, hserved⟩
      obtain rfl := Option.some.inj heq
      refine (served_iff_of_eq ?_ ?_).mp hserved ⟨henabled, hcan.mpr hupdate⟩
      · exact hs.free
      · rfl
    · rw [if_pos rfl]
      simp only [hfatal, if_false]
      refine iff_of_true ⟨_, rfl, hs.free, ?_⟩ ⟨hfatal, trivial⟩
      rw [if_pos ⟨henabled, hcan.mpr hupdate⟩]
      rfl

lemma served_iff {s : SubLogger} (hs : Idle s) (c : Call) :
    (∃ s', writeLog s c = some s' ∧ Served s c s') ↔ Serves s c := by
  by_cases henabled : Enabled s c
  · by_cases hname : s.logFileName = fileName c.tm
    · exact served_same_iff hs henabled hname
    · exact served_rotate_iff hs henabled hname
  · rw [writeLog_of_not_enabled henabled]
    have hserved : Served s c s :=
      (served_iff_of_eq hs.free rfl).mpr fun h => henabled h.1
    exact iff_of_true ⟨s, rfl, hserved⟩ (Or.inl henabled)

/-! ## Sequences of calls -/

/-- The stream is that of the current name after every call. -/
lemma Idle.writeLog {s s' : SubLogger} {c : Call} (hs : Idle s) (h : writeLog s c = some s')
    (hfree : s'.logMutex = false) : Idle s' := by
  refine ⟨hfree, ?_⟩
  by_cases henabled : Enabled s c
  · by_cases hname : s.logFileName = fileName c.tm
    · rw [writeLog_same henabled hs.free hname] at h
      split at h
      · cases h
        exact hs.path_eq
      · split at h
        · cases h
          exact hs.path_eq
        · split at h
          · cases h
            rintro p ⟨⟩
            show _ = s.logPath ++ s.logFileName
            rw [hname]
          · cases h
            exact hs.path_eq
    · rw [writeLog_rotate henabled hs.free hname] at h
      simp only at h
      split at h
      · split at h
        · cases h
          rintro p ⟨⟩
          rfl
        · cases h
          rintro p ⟨⟩
          rfl
      · cases h
        rintro p ⟨⟩
  · rw [writeLog_of_not_enabled henabled] at h
    cases h
    exact hs.path_eq

lemma idle_initLogger (logLevel : BitVec 32) (logPath : Bytes) (files : Bytes → Bytes) (tm : Tm)
    (fopen : Bool) : Idle (.initLogger logLevel logPath files tm fopen) := by
  rw [SubLogger.initLogger, SubLogger.updateLogFileName]
  split
  · refine ⟨rfl, fun p hp => ?_⟩
    cases fopen with
    | true =>
      cases hp
      rfl
    | false => cases hp
  · exact ⟨rfl, fun p hp => by cases hp⟩

/-- **When the logger keeps its protocol.**  In a sequence of calls after `_init_logger`, each
call returns with the mutex released and appends its line if its level is enabled and the file
can be opened, and nothing otherwise, exactly if each call is one that is served in the state it
comes in. -/
theorem calls_served_iff (logLevel : BitVec 32) (logPath : Bytes) (files : Bytes → Bytes)
    (tm : Tm) (fopen : Bool) (calls : List Call) :
    (∀ pre c post, calls = pre ++ c :: post →
        ∃ s s', run writeLog (.initLogger logLevel logPath files tm fopen) pre = some s ∧
          writeLog s c = some s' ∧ Served s c s') ↔
      ∀ pre c post s, calls = pre ++ c :: post →
        run writeLog (.initLogger logLevel logPath files tm fopen) pre = some s → Serves s c :=
  run_iff (fun _ c hs => served_iff hs c) (fun _ _ _ hs h hserved => hs.writeLog h hserved.released)
    (idle_initLogger logLevel logPath files tm fopen) calls

/-- `fopen` fails when a new hour begins, and the call returns with the mutex locked. -/
theorem not_calls_served :
    ¬ ∀ (logLevel : BitVec 32) (logPath : Bytes) (files : Bytes → Bytes) (tm : Tm) (fopen : Bool)
      (calls : List Call) (pre : List Call) (c : Call) (post : List Call),
      calls = pre ++ c :: post →
        ∃ s s', run writeLog (.initLogger logLevel logPath files tm fopen) pre = some s ∧
          writeLog s c = some s' ∧ Served s c s' := by
  intro h
  let tm : Tm := ⟨117, 5, 12, 14, 49, 27⟩
  let c : Call := ⟨.notice, bytes "server start", { tm with hour := 15 }, false, false⟩
  obtain ⟨s, s', hrun, hwrite, hserved⟩ :=
    h 15 (bytes "./log/") (fun _ => []) tm true [c] [] c [] rfl
  obtain rfl := Option.some.inj hrun
  have hserves := (served_iff (idle_initLogger _ _ _ _ _) c).mp ⟨s', hwrite, hserved⟩
  revert hserves
  unfold Serves
  decide

/-- The same of a line of the level `FATAL`, which is not written. -/
example : ¬ Serves
    (.initLogger 15 (bytes "./log/") (fun _ => []) ⟨117, 5, 12, 14, 49, 27⟩ true)
    ⟨.fatal, bytes "bind failed", ⟨117, 5, 12, 14, 50, 0⟩, true, true⟩ := by
  unfold Serves
  decide

end Log
end Sunet
