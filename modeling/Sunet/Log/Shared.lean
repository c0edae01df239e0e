/-
# The logger and several threads

All threads of the server write with one `SubLogger`.  Here `_write_log` is taken apart into its
accesses to the members of the logger and to the files: the old stream is closed before the
pointer to the new one is there, and a line is in the buffer of the stream before `fflush`.  With
the mutex around them the calls are those of a sequential run of `writeLog`, and every log file
has what it had and the lines of the calls of its hour, whole and in the order in which the calls
have returned.  After one `fopen` that fails in a call, no thread writes again.
-/
import Sunet.Lib.Critical
import Sunet.Log.SubLog

namespace Sunet
namespace Log

open Byte Critical Transition

/-! ## The model -/

/-- What `_log_file_p` points to. -/
structure Stream where
  path : Bytes
  buffer : Bytes
  isOpen : Bool
deriving DecidableEq, Repr

/-- What the threads share.  `_log_level` and `_log_path` are not changed after `_init_logger`. -/
structure Shared where
  logFileName : Bytes
  logFileP : Option Stream
  files : Bytes → Bytes

/-- Where a call of `_write_log` is, behind the lock. -/
inductive LogPc
  /-- Before the name of the hour is compared. -/
  | comparing
  /-- Before the `fclose` of a stream, if there is one. -/
  | closing
  /-- Before the name is assigned. -/
  | naming
  /-- Before `fopen` in `_update_log_file_name`. -/
  | opening
  /-- Behind the `switch`, before the pointer is compared with `NULL`. -/
  | testing
  /-- Before `fopen` in `_write_log`. -/
  | creating
  /-- Before `fprintf`. -/
  | printing
  /-- Before `fflush`. -/
  | flushing
  /-- Before the unlocking. -/
  | unlocking
  /-- Behind a `return` without unlocking; for other threads the call is inside for ever. -/
  | locked
  /-- Behind a use of a stream that is closed or not there. -/
  | undefined
deriving DecidableEq, Repr

/-- The calls that get to the lock: the level is compared before. -/
abbrev EnabledCall (logLevel : BitVec 32) : Type :=
  { c : Call // (1#32 <<< c.logType.toNat) &&& logLevel ≠ 0 }

/-- The `switch`, which is left for `FATAL` through the default case. -/
def logSwitch (c : Call) : LogPc := if c.logType = .fatal then .unlocking else .testing

/-- What `fopen` returns for the current name. -/
def Shared.fopen (sh : Shared) (logPath : Bytes) : Stream := ⟨logPath ++ sh.logFileName, [], true⟩

/-- `fflush`, also as a part of `fclose`: what is in the buffer gets into the file. -/
def Shared.flush (sh : Shared) (f : Stream) : Bytes → Bytes :=
  Function.update sh.files f.path (sh.files f.path ++ f.buffer)

/-- What is printed for a line. -/
def Call.printed (c : Call) : Bytes := c.logLine.takeWhile (· ≠ nul) ++ [lf]

/-- The next access of a call. -/
def logAccess (logPath : Bytes) : Call × LogPc → Shared → Option ((Call × LogPc) × Shared)
  | (c, .comparing), sh =>
    some ((c, if sh.logFileName ≠ fileName c.tm then .closing else logSwitch c), sh)
  | (c, .closing), sh =>
    match sh.logFileP with
    | none => some ((c, .naming), sh)
    | some f =>
      if f.isOpen then
        some ((c, .naming), { sh with
          logFileP := some { f with buffer := [], isOpen := false }
          files := sh.flush f })
      else some ((c, .undefined), sh)
  | (c, .naming), sh => some ((c, .opening), { sh with logFileName := fileName c.tm })
  | (c, .opening), sh =>
    if c.fopenUpdate then some ((c, logSwitch c), { sh with logFileP := some (sh.fopen logPath) })
    else some ((c, .locked), { sh with logFileP := none })
  | (c, .testing), sh => some ((c, if sh.logFileP = none then .creating else .printing), sh)
  | (c, .creating), sh =>
    if c.fopenWrite then some ((c, .printing), { sh with logFileP := some (sh.fopen logPath) })
    else some ((c, .locked), { sh with logFileP := none })
  | (c, .printing), sh =>
    match sh.logFileP with
    | none => some ((c, .undefined), sh)
    | some f =>
      if f.isOpen then
        some ((c, .flushing),
          { sh with logFileP := some { f with buffer := f.buffer ++ c.printed } })
      else some ((c, .undefined), sh)
  | (c, .flushing), sh =>
    match sh.logFileP with
    | none => some ((c, .undefined), sh)
    | some f =>
      if f.isOpen then
        some ((c, .unlocking),
          { sh with logFileP := some { f with buffer := [] }, files := sh.flush f })
      else some ((c, .undefined), sh)
  | (_, .unlocking), _ => none
  | (c, .locked), sh => some ((c, .locked), sh)
  | (_, .undefined), _ => none

/-- `_write_log` behind the comparison of the level. -/
def logBody (logLevel : BitVec 32) (logPath : Bytes) :
    Body (EnabledCall logLevel) Shared (Call × LogPc) Unit where
  start c := (c.1, .comparing)
  access := logAccess logPath
  result _ := ()

/-- What the threads share of a logger between two calls: nothing is in a buffer. -/
def SubLogger.shared (s : SubLogger) : Shared where
  logFileName := s.logFileName
  logFileP := s.logFileP.map fun p => ⟨p, [], true⟩
  files := s.files

/-! ## Single calls -/

/-- The logger with the file of the hour open. -/
def SubLogger.opened (s : SubLogger) (c : Call) : SubLogger :=
  { s with logFileName := fileName c.tm, logFileP := some (s.logPath ++ fileName c.tm) }

/-- The logger behind an `fopen` that has failed. -/
def SubLogger.failed (s : SubLogger) (c : Call) : SubLogger :=
  { s with logFileName := fileName c.tm, logFileP := none, logMutex := true }

/-- The logger behind the line of a call. -/
def SubLogger.written (s : SubLogger) (c : Call) : SubLogger :=
  (s.opened c).fprintf (s.logPath ++ fileName c.tm) c.logLine

/-- A file that is open is that of the name. -/
lemma Idle.opened_eq {s : SubLogger} {c : Call} (hs : Idle s)
    (hname : s.logFileName = fileName c.tm) (hopen : s.logFileP ≠ none) : s.opened c = s := by
  obtain ⟨p, hp⟩ := Option.ne_none_iff_exists'.mp hopen
  have hpath := hs.path_eq p hp
  obtain ⟨logLevel, logPath, logFileName, logFileP, logMutex, files⟩ := s
  obtain rfl : logFileName = fileName c.tm := hname
  obtain rfl : logFileP = some p := hp
  rw [hpath]
  rfl

lemma writeLog_written {s : SubLogger} {c : Call} (hs : Idle s) (henabled : Enabled s c)
    (hfatal : c.logType ≠ .fatal) (hopen : CanOpen s c) : writeLog s c = some (s.written c) := by
  by_cases hname : s.logFileName = fileName c.tm
  · rw [CanOpen, if_neg (not_not.mpr hname)] at hopen
    rw [writeLog_same henabled hs.free hname, if_neg hfatal, SubLogger.written]
    cases hp : s.logFileP with
    | some p =>
      have hpath : p = s.logPath ++ fileName c.tm := hname ▸ hs.path_eq p hp
      rw [hs.opened_eq hname (by simp [hp]), ← hpath]
    | none =>
      have hwrite : c.fopenWrite = true := by simpa [hp] using hopen
      dsimp only
      rw [if_pos hwrite, SubLogger.opened, ← hname]
  · rw [CanOpen, if_pos hname] at hopen
    rw [writeLog_rotate henabled hs.free hname, if_pos hopen]
    exact if_neg hfatal

lemma writeLog_failed {s : SubLogger} {c : Call} (hs : Idle s) (henabled : Enabled s c)
    (hfatal : c.logType ≠ .fatal ∨ s.logFileName ≠ fileName c.tm) (hopen : ¬ CanOpen s c) :
    writeLog s c = some (s.failed c) := by
  by_cases hname : s.logFileName = fileName c.tm
  · rw [CanOpen, if_neg (not_not.mpr hname)] at hopen
    push Not at hopen
    have hnonfatal : c.logType ≠ .fatal := hfatal.resolve_right (not_not.mpr hname)
    have hfailed : s.failed c = { s with logMutex := true } := by
      rw [SubLogger.failed, ← hname, ← hopen.1]
    rw [writeLog_same henabled hs.free hname, if_neg hnonfatal, hfailed, hopen.1]
    exact if_neg hopen.2
  · rw [CanOpen, if_pos hname] at hopen
    rw [writeLog_rotate henabled hs.free hname, if_neg hopen]
    rfl

lemma writeLog_fatal {s : SubLogger} {c : Call} (hs : Idle s) (henabled : Enabled s c)
    (hfatal : c.logType = .fatal) (hopen : s.logFileName = fileName c.tm ∨ c.fopenUpdate = true) :
    writeLog s c = some (if s.logFileName = fileName c.tm then s else s.opened c) := by
  by_cases hname : s.logFileName = fileName c.tm
  · rw [writeLog_same henabled hs.free hname, if_pos hfatal, if_pos hname]
  · rw [writeLog_rotate henabled hs.free hname, if_pos (hopen.resolve_left hname), if_neg hname]
    exact if_pos hfatal

/-- What the threads share in the section of a call that has found the logger as `s`. -/
def Section (s : SubLogger) (c : Call) : LogPc → Shared → Prop
  | .comparing, sh => sh = s.shared
  | .closing, sh => s.logFileName ≠ fileName c.tm ∧ sh = s.shared
  | .naming, sh => s.logFileName ≠ fileName c.tm ∧ sh.files = s.files
  | .opening, sh =>
    s.logFileName ≠ fileName c.tm ∧ sh.logFileName = fileName c.tm ∧ sh.files = s.files
  | .testing, sh => c.logType ≠ .fatal ∧ ((CanOpen s c ∧ sh = (s.opened c).shared) ∨
      (s.logFileName = fileName c.tm ∧ s.logFileP = none ∧ sh = s.shared))
  | .creating, sh => c.logType ≠ .fatal ∧ s.logFileName = fileName c.tm ∧ s.logFileP = none ∧
      sh = s.shared
  | .printing, sh => c.logType ≠ .fatal ∧ CanOpen s c ∧ sh = (s.opened c).shared
  | .flushing, sh => c.logType ≠ .fatal ∧ CanOpen s c ∧ sh = { (s.opened c).shared with
      logFileP := some ⟨s.logPath ++ fileName c.tm, c.printed, true⟩ }
  | .unlocking, sh => ∃ s', writeLog s c = some s' ∧ s'.logMutex = false ∧ sh = s'.shared
  | .locked, sh => ¬ CanOpen s c ∧ writeLog s c = some (s.failed c) ∧ sh = (s.failed c).shared
  | .undefined, _ => False

/-- Behind the `switch`, when the file of the hour is open. -/
lemma section_logSwitch {s : SubLogger} {c : Call} (hs : Idle s) (henabled : Enabled s c)
    (hname : s.logFileName ≠ fileName c.tm) (hopen : c.fopenUpdate = true) :
    Section s c (logSwitch c) (s.opened c).shared := by
  by_cases hfatal : c.logType = .fatal
  · rw [logSwitch, if_pos hfatal]
    refine ⟨_, writeLog_fatal hs henabled hfatal (.inr hopen), ?_, ?_⟩
    · rw [if_neg hname]
      exact hs.free
    · rw [if_neg hname]
  · rw [logSwitch, if_neg hfatal]
    refine ⟨hfatal, .inl ⟨?_, rfl⟩⟩
    rw [CanOpen, if_pos hname]
    exact hopen

/-- One access of a call. -/
lemma Section.access {s : SubLogger} {c c' : Call} {pc pc' : LogPc} {sh sh' : Shared}
    (hs : Idle s) (henabled : Enabled s c) (h : Section s c pc sh)
    (hstep : logAccess s.logPath (c, pc) sh = some ((c', pc'), sh')) :
    c' = c ∧ Section s c pc' sh' := by
  cases pc with
  | comparing =>
    cases hstep
    refine ⟨rfl, ?_⟩
    obtain rfl : sh = s.shared := h
    by_cases hname : s.logFileName = fileName c.tm
    · rw [show s.shared.logFileName = s.logFileName from rfl, if_neg (not_not.mpr hname)]
      by_cases hfatal : c.logType = .fatal
      · rw [logSwitch, if_pos hfatal]
        refine ⟨_, writeLog_fatal hs henabled hfatal (.inl hname), ?_, ?_⟩
        · rw [if_pos hname]
          exact hs.free
        · rw [if_pos hname]
      · rw [logSwitch, if_neg hfatal]
        refine ⟨hfatal, ?_⟩
        by_cases hopen : s.logFileP = none
        · exact .inr ⟨hname, hopen, rfl⟩
        · refine .inl ⟨?_, by rw [hs.opened_eq hname hopen]⟩
          rw [CanOpen, if_neg (not_not.mpr hname)]
          exact .inl hopen
    · rw [show s.shared.logFileName = s.logFileName from rfl, if_pos hname]
      exact ⟨hname, rfl⟩
  | closing =>
    obtain ⟨hname, rfl⟩ := h
    cases hp : s.logFileP with
    | none =>
      simp only [logAccess, SubLogger.shared, hp, Option.map_none] at hstep
      cases hstep
      exact ⟨rfl, hname, rfl⟩
    | some p =>
      simp only [logAccess, SubLogger.shared, hp, Option.map_some, if_true] at hstep
      cases hstep
      refine ⟨rfl, hname, ?_⟩
      -- there is nothing in the buffer
      simp only [Shared.flush, List.append_nil, Function.update_eq_self]
  | naming =>
    cases hstep
    exact ⟨rfl, h.1, rfl, h.2⟩
  | opening =>
    obtain ⟨hname, hname', hfiles⟩ := h
    obtain ⟨logFileName, logFileP, files⟩ := sh
    obtain rfl : logFileName = fileName c.tm := hname'
    obtain rfl : files = s.files := hfiles
    rw [logAccess] at hstep
    split at hstep
    · next hopen =>
      cases hstep
      exact ⟨rfl, section_logSwitch hs henabled hname hopen⟩
    · next hopen =>
      cases hstep
      have hclosed : ¬ CanOpen s c := by
        rw [CanOpen, if_pos hname]
        exact hopen
      exact ⟨rfl, hclosed, writeLog_failed hs henabled (.inr hname) hclosed, rfl⟩
  | testing =>
    cases hstep
    refine ⟨rfl, ?_⟩
    obtain ⟨hfatal, ⟨hopen, rfl⟩ | ⟨hname, hp, rfl⟩⟩ := h
    · exact ⟨hfatal, hopen, rfl⟩
    · rw [SubLogger.shared, hp]
      refine ⟨hfatal, hname, hp, ?_⟩
      rw [SubLogger.shared, hp]
  | creating =>
    obtain ⟨hfatal, hname, hp, rfl⟩ := h
    have hcan : CanOpen s c ↔ c.fopenWrite = true := by
      simp [CanOpen, hname, hp]
    rw [logAccess] at hstep
    split at hstep
    · next hopen =>
      cases hstep
      refine ⟨rfl, hfatal, hcan.mpr hopen, ?_⟩
      rw [Shared.fopen, SubLogger.shared, SubLogger.shared, SubLogger.opened, hname]
      rfl
    · next hopen =>
      cases hstep
      have hclosed : ¬ CanOpen s c := fun h => hopen (hcan.mp h)
      refine ⟨rfl, hclosed, writeLog_failed hs henabled (.inl hfatal) hclosed, ?_⟩
      rw [SubLogger.shared, SubLogger.shared, SubLogger.failed, hname]
      rfl
  | printing =>
    obtain ⟨hfatal, hopen, rfl⟩ := h
    simp only [logAccess, SubLogger.shared, SubLogger.opened, Option.map_some, if_true,
      List.nil_append, Option.some.injEq, Prod.mk.injEq] at hstep
    obtain ⟨⟨rfl, rfl⟩, rfl⟩ := hstep
    exact ⟨rfl, hfatal, hopen, rfl⟩
  | flushing =>
    obtain ⟨hfatal, hopen, rfl⟩ := h
    simp only [logAccess, if_true, Option.some.injEq, Prod.mk.injEq] at hstep
    obtain ⟨⟨rfl, rfl⟩, rfl⟩ := hstep
    refine ⟨rfl, s.written c, writeLog_written hs henabled hfatal hopen, hs.free, ?_⟩
    rw [SubLogger.written, SubLogger.fprintf, SubLogger.shared, Shared.flush, Call.printed,
      ← List.append_assoc]
    rfl
  | unlocking => cases hstep
  | locked =>
    cases hstep
    exact ⟨rfl, h⟩
  | undefined => cases hstep

/-- The accesses of a call, by induction on them. -/
lemma section_of_leads {logLevel : BitVec 32} {s : SubLogger} {c : EnabledCall logLevel}
    {vars : Call × LogPc} {sh : Shared} (hs : Idle s) (hlevel : s.logLevel = logLevel)
    (h : (logBody logLevel s.logPath).Leads ((logBody logLevel s.logPath).start c) s.shared vars
      sh) : vars.1 = c.1 ∧ Section s c.1 vars.2 sh := by
  have henabled : Enabled s c.1 := hlevel ▸ c.2
  induction h with
  | refl => exact ⟨rfl, rfl⟩
  | @tail vars vars' sh sh' _ haccess ih =>
    obtain ⟨hcall, hsection⟩ := ih
    obtain ⟨c', pc⟩ := vars
    obtain rfl : c' = c.1 := hcall
    exact hsection.access hs henabled haccess

/-- A call that has ended has come to the unlocking. -/
lemma Section.eq_unlocking {s : SubLogger} {c : Call} {pc : LogPc} {sh : Shared}
    (h : Section s c pc sh) (hend : logAccess s.logPath (c, pc) sh = none) : pc = .unlocking := by
  cases pc with
  | unlocking => rfl
  | undefined => exact h.elim
  | comparing => cases hend
  | naming => cases hend
  | testing => cases hend
  | locked => cases hend
  | closing =>
    simp only [logAccess] at hend
    split at hend
    · cases hend
    · split at hend <;> cases hend
  | opening =>
    simp only [logAccess] at hend
    split at hend <;> cases hend
  | creating =>
    simp only [logAccess] at hend
    split at hend <;> cases hend
  | printing =>
    simp only [logAccess] at hend
    split at hend
    · cases hend
    · split at hend <;> cases hend
  | flushing =>
    simp only [logAccess] at hend
    split at hend
    · cases hend
    · split at hend <;> cases hend

/-! ## The files -/

/-- The log files behind calls that have returned with the mutex released. -/
def logged (logPath : Bytes) (files : Bytes → Bytes) (calls : List Call) (p : Bytes) : Bytes :=
  files p ++ ((calls.filter fun c => c.logType ≠ .fatal ∧ logPath ++ fileName c.tm = p).map
    Call.printed).flatten

lemma logged_concat (logPath : Bytes) (files : Bytes → Bytes) (calls : List Call) (c : Call) :
    logged logPath files (calls ++ [c]) =
      if c.logType = .fatal then logged logPath files calls
      else Function.update (logged logPath files calls) (logPath ++ fileName c.tm)
        (logged logPath files calls (logPath ++ fileName c.tm) ++ c.printed) := by
  funext p
  rw [logged, List.filter_append, List.map_append, List.flatten_append, ← List.append_assoc]
  by_cases hfatal : c.logType = .fatal
  · simp [hfatal, logged]
  · rw [if_neg hfatal]
    by_cases hp : logPath ++ fileName c.tm = p
    · subst hp
      simp [hfatal, logged]
    · rw [Function.update_of_ne (Ne.symm hp)]
      simp [hfatal, hp, logged]

lemma files_written (s : SubLogger) (c : Call) :
    (s.written c).files = Function.update s.files (s.logPath ++ fileName c.tm)
      (s.files (s.logPath ++ fileName c.tm) ++ c.printed) := by
  rw [Call.printed, ← List.append_assoc]
  rfl

/-- What a call leaves that returns with the mutex released. -/
lemma writeLog_released {s s' : SubLogger} {c : Call} (hs : Idle s) (henabled : Enabled s c)
    (hwrite : writeLog s c = some s') (hfree : s'.logMutex = false) :
    s'.logLevel = s.logLevel ∧ s'.logPath = s.logPath ∧
      s'.files = if c.logType = .fatal then s.files else (s.written c).files := by
  by_cases hfatal : c.logType = .fatal
  · rw [if_pos hfatal]
    by_cases hopen : s.logFileName = fileName c.tm ∨ c.fopenUpdate = true
    · rw [writeLog_fatal hs henabled hfatal hopen] at hwrite
      cases hwrite
      split
      · exact ⟨rfl, rfl, rfl⟩
      · exact ⟨rfl, rfl, rfl⟩
    · rw [not_or] at hopen
      have hclosed : ¬ CanOpen s c := by
        rw [CanOpen, if_pos hopen.1]
        exact hopen.2
      rw [writeLog_failed hs henabled (.inr hopen.1) hclosed] at hwrite
      cases hwrite
      cases hfree
  · rw [if_neg hfatal]
    by_cases hopen : CanOpen s c
    · rw [writeLog_written hs henabled hfatal hopen] at hwrite
      cases hwrite
      exact ⟨rfl, rfl, rfl⟩
    · rw [writeLog_failed hs henabled (.inl hfatal) hopen] at hwrite
      cases hwrite
      cases hfree

/-- What is in the files during a call is what was there before, or that and its line. -/
lemma Section.files_eq {s : SubLogger} {c : Call} {pc : LogPc} {sh : Shared} (hs : Idle s)
    (henabled : Enabled s c) (h : Section s c pc sh) :
    sh.files = s.files ∨ (c.logType ≠ .fatal ∧ sh.files = (s.written c).files) := by
  cases pc with
  | comparing =>
    obtain rfl : sh = s.shared := h
    exact .inl rfl
  | closing => exact .inl (h.2 ▸ rfl)
  | naming => exact .inl h.2
  | opening => exact .inl h.2.2
  | testing =>
    obtain ⟨-, ⟨-, rfl⟩ | ⟨-, -, rfl⟩⟩ := h
    · exact .inl rfl
    · exact .inl rfl
  | creating =>
    obtain ⟨-, -, -, rfl⟩ := h
    exact .inl rfl
  | printing =>
    obtain ⟨-, -, rfl⟩ := h
    exact .inl rfl
  | flushing =>
    obtain ⟨-, -, rfl⟩ := h
    exact .inl rfl
  | unlocking =>
    obtain ⟨s', hwrite, hfree, rfl⟩ := h
    obtain ⟨-, -, hfiles⟩ := writeLog_released hs henabled hwrite hfree
    by_cases hfatal : c.logType = .fatal
    · exact .inl (hfiles.trans (if_pos hfatal))
    · exact .inr ⟨hfatal, hfiles.trans (if_neg hfatal)⟩
  | locked =>
    obtain ⟨-, -, rfl⟩ := h
    exact .inl rfl
  | undefined => exact h.elim

/-! ## Runs -/

/-- The logger behind calls one after the other that have all released the mutex. -/
structure After (s₀ : SubLogger) (calls : List Call) (s : SubLogger) : Prop where
  run_eq : run writeLog s₀ calls = some s
  idle : Idle s
  level_eq : s.logLevel = s₀.logLevel
  path_eq : s.logPath = s₀.logPath
  files_eq : s.files = logged s₀.logPath s₀.files calls

lemma After.concat {s₀ s s' : SubLogger} {calls : List Call} {c : Call} (h : After s₀ calls s)
    (henabled : Enabled s c) (hwrite : writeLog s c = some s') (hfree : s'.logMutex = false) :
    After s₀ (calls ++ [c]) s' := by
  obtain ⟨hlevel, hpath, hfiles⟩ := writeLog_released h.idle henabled hwrite hfree
  refine ⟨?_, h.idle.writeLog hwrite hfree, hlevel.trans h.level_eq, hpath.trans h.path_eq, ?_⟩
  · rw [run_append h.run_eq, run_cons hwrite]
    rfl
  · rw [hfiles, logged_concat, files_written, h.path_eq, h.files_eq]

variable {θ : Type} {logLevel : BitVec 32} {logPath : Bytes}

/-- The sections one after the other are the calls one after the other, by induction on them. -/
lemma after_of_serial {s₀ : SubLogger} (hs₀ : Idle s₀) (hlevel : s₀.logLevel = logLevel)
    (hpath : s₀.logPath = logPath) {calls : List (Critical.Call θ (EnabledCall logLevel) Unit)}
    {sh : Shared} (h : (logBody logLevel logPath).Serial s₀.shared calls sh) :
    ∃ s, After s₀ (calls.map fun call => call.arg.1) s ∧ sh = s.shared := by
  induction h with
  | nil => exact ⟨s₀, ⟨rfl, hs₀, rfl, rfl, by funext p; simp [logged]⟩, rfl⟩
  | @concat calls sh sh' call _ hcall ih =>
    obtain ⟨s, hafter, rfl⟩ := ih
    obtain ⟨⟨c', pc⟩, hleads, hend, -⟩ := hcall
    have hlevel' : s.logLevel = logLevel := hafter.level_eq.trans hlevel
    have hpath' : s.logPath = logPath := hafter.path_eq.trans hpath
    rw [← hpath'] at hleads hend
    obtain ⟨hcall, hsection⟩ := section_of_leads hafter.idle hlevel' hleads
    obtain rfl : c' = call.arg.1 := hcall
    obtain rfl := hsection.eq_unlocking hend
    obtain ⟨s', hwrite, hfree, rfl⟩ := hsection
    refine ⟨s', ?_, rfl⟩
    rw [List.map_append]
    exact hafter.concat (hlevel' ▸ call.arg.2) hwrite hfree

/-- Both `fopen` of a call succeed, if it gets to them. -/
def Opens (c : Call) : Prop := c.fopenUpdate = true ∧ c.fopenWrite = true

/-- A call comes to its end from here if no other thread changes anything. -/
def Ends (logLevel : BitVec 32) (logPath : Bytes) (c : Call) (pc : LogPc) (sh : Shared) : Prop :=
  ∃ vars sh', (logBody logLevel logPath).Leads (c, pc) sh vars sh' ∧
    logAccess logPath vars sh' = none

lemma Ends.head {c : Call} {pc pc' : LogPc} {sh sh' : Shared}
    (hstep : logAccess logPath (c, pc) sh = some ((c, pc'), sh'))
    (h : Ends logLevel logPath c pc' sh') : Ends logLevel logPath c pc sh := by
  obtain ⟨vars, sh'', hleads, hend⟩ := h
  exact ⟨vars, sh'', hleads.head hstep, hend⟩

/-- A call ends whatever it finds, if `fopen` does not fail. -/
lemma ends_of_opens {c : Call} (hopens : Opens c) (sh : Shared) :
    Ends logLevel logPath c .comparing sh := by
  -- from the last access to the first
  have hunlocking : ∀ sh, Ends logLevel logPath c .unlocking sh :=
    fun sh => ⟨_, _, .refl, rfl⟩
  have hundefined : ∀ sh, Ends logLevel logPath c .undefined sh :=
    fun sh => ⟨_, _, .refl, rfl⟩
  have hflushing : ∀ sh, Ends logLevel logPath c .flushing sh := by
    intro sh
    cases hp : sh.logFileP with
    | none => exact .head (by simp only [logAccess, hp]; rfl) (hundefined _)
    | some f =>
      by_cases hopen : f.isOpen = true
      · exact .head (by simp only [logAccess, hp, if_pos hopen]; rfl) (hunlocking _)
      · exact .head (by simp only [logAccess, hp, if_neg hopen]; rfl) (hundefined _)
  have hprinting : ∀ sh, Ends logLevel logPath c .printing sh := by
    intro sh
    cases hp : sh.logFileP with
    | none => exact .head (by simp only [logAccess, hp]; rfl) (hundefined _)
    | some f =>
      by_cases hopen : f.isOpen = true
      · exact .head (by simp only [logAccess, hp, if_pos hopen]; rfl) (hflushing _)
      · exact .head (by simp only [logAccess, hp, if_neg hopen]; rfl) (hundefined _)
  have hcreating : ∀ sh, Ends logLevel logPath c .creating sh :=
    fun sh => .head (by rw [logAccess, if_pos hopens.2]) (hprinting _)
  have htesting : ∀ sh, Ends logLevel logPath c .testing sh := by
    intro sh
    by_cases hp : sh.logFileP = none
    · exact .head (by rw [logAccess, if_pos hp]) (hcreating _)
    · exact .head (by rw [logAccess, if_neg hp]) (hprinting _)
  have hswitch : ∀ sh, Ends logLevel logPath c (logSwitch c) sh := by
    intro sh
    rw [logSwitch]
    split
    · exact hunlocking sh
    · exact htesting sh
  have hopening : ∀ sh, Ends logLevel logPath c .opening sh :=
    fun sh => .head (by rw [logAccess, if_pos hopens.1]) (hswitch _)
  have hnaming : ∀ sh, Ends logLevel logPath c .naming sh := fun sh => .head rfl (hopening _)
  have hclosing : ∀ sh, Ends logLevel logPath c .closing sh := by
    intro sh
    cases hp : sh.logFileP with
    | none => exact .head (by simp only [logAccess, hp]; rfl) (hnaming _)
    | some f =>
      by_cases hopen : f.isOpen = true
      · exact .head (by simp only [logAccess, hp, if_pos hopen]; rfl) (hnaming _)
      · exact .head (by simp only [logAccess, hp, if_neg hopen]; rfl) (hundefined _)
  by_cases hname : sh.logFileName ≠ fileName c.tm
  · exact .head (by rw [logAccess, if_pos hname]) (hclosing _)
  · exact .head (by rw [logAccess, if_neg hname]) (hswitch _)

lemma exists_executes {c : EnabledCall logLevel} (hopens : Opens c.1) (sh : Shared) :
    ∃ ret sh', (logBody logLevel logPath).Executes c sh ret sh' := by
  obtain ⟨vars, sh', hleads, hend⟩ := ends_of_opens hopens sh
  exact ⟨(), sh', vars, hleads, hend, rfl⟩

lemma level_initLogger (logLevel : BitVec 32) (logPath : Bytes) (files : Bytes → Bytes) (tm : Tm)
    (fopen : Bool) :
    (SubLogger.initLogger logLevel logPath files tm fopen).logLevel = logLevel ∧
      (SubLogger.initLogger logLevel logPath files tm fopen).logPath = logPath := by
  rw [SubLogger.initLogger, SubLogger.updateLogFileName]
  split
  · exact ⟨rfl, rfl⟩
  · exact ⟨rfl, rfl⟩

/-- The calls that have returned. -/
def loggedCalls (s : State θ (EnabledCall logLevel) Shared (Call × LogPc) Unit) : List Call :=
  s.returned.map fun call => call.arg.1

/-- The threads have logged as if one call had come after the other, and `logger` is what these
calls leave of the logger they started with. -/
structure LogsSerially [DecidableEq θ] (logPath : Bytes) (start logger : SubLogger)
    (s : State θ (EnabledCall logLevel) Shared (Call × LogPc) Unit) : Prop where
  run_eq : run writeLog start (loggedCalls s) = some logger
  files_eq : logger.files = logged logPath start.files (loggedCalls s)
  shared_eq : s.owner = none → s.shared = logger.shared
  /-- No stream is used that is closed or not there. -/
  defined : ∀ t c vars, s.pc t = .inside c vars → vars.2 ≠ .undefined
  /-- A file does not have a part of a line. -/
  whole : ∀ t c vars, s.pc t = .inside c vars →
    s.shared.files = logged logPath start.files (loggedCalls s) ∨
      s.shared.files = logged logPath start.files (loggedCalls s ++ [c.1])
  /-- A call that leaves without unlocking could not open its file, and it is the last one that
  anything is done in. -/
  stuck : ∀ t c vars, s.pc t = .inside c vars → vars.2 = .locked →
    ¬ CanOpen logger c.1 ∧
      ∀ as s', run (step (logBody logLevel logPath)) s as = some s' →
        s'.shared.files = logged logPath start.files (loggedCalls s) ∧
          s'.returned = s.returned ∧ ∀ t' c', s.pc t' = .waiting c' → s'.pc t' = .waiting c'
  /-- A call that waits can be brought to its end, if `fopen` does not fail. -/
  returns : ∀ t c, s.pc t = .waiting c → Opens c.1 →
    (∀ t' c' vars, s.pc t' = .inside c' vars → Opens c'.1) →
      ∃ as s', NoCall as ∧ run (step (logBody logLevel logPath)) s as = some s' ∧
        s'.pc t = .outside ∧ ⟨t, c, ()⟩ ∈ s'.returned

/-- **Threads that log at the same time.**  In every interleaving the calls that have returned are
a sequential run of `writeLog` in the order in which they returned: each file has what it had and
their lines, whole, and no closed stream is used.  A call that leaves without unlocking is one
whose file could not be opened; from then on nothing is written and no thread that waits goes on.
A call that waits can otherwise be brought to its end. -/
theorem log_shared [DecidableEq θ] (files : Bytes → Bytes) (tm : Tm) (fopen : Bool)
    {s : State θ (EnabledCall logLevel) Shared (Call × LogPc) Unit}
    (h : Reachable (step (logBody logLevel logPath))
      (init (SubLogger.initLogger logLevel logPath files tm fopen).shared) s) :
    ∃ logger, LogsSerially logPath (.initLogger logLevel logPath files tm fopen) logger s := by
  have hinv := inv_of_reachable h
  obtain ⟨hlevel₀, hpath₀⟩ := level_initLogger logLevel logPath files tm fopen
  have hidle := idle_initLogger logLevel logPath files tm fopen
  generalize SubLogger.initLogger logLevel logPath files tm fopen = start at *
  obtain ⟨free, hserial, hfree, hinside⟩ := hinv.serial
  obtain ⟨logger, hafter, rfl⟩ := after_of_serial hidle hlevel₀ hpath₀ hserial
  have hlevel : logger.logLevel = logLevel := hafter.level_eq.trans hlevel₀
  have hpath : logger.logPath = logPath := hafter.path_eq.trans hpath₀
  have hfiles : logger.files = logged logPath start.files (loggedCalls s) := by
    rw [hafter.files_eq, hpath₀]
    rfl
  -- what is known of a thread in its section
  have hsection : ∀ t c vars, s.pc t = .inside c vars →
      vars.1 = c.1 ∧ Section logger c.1 vars.2 s.shared := by
    intro t c vars hpc
    have hleads := hinside t c vars hpc
    rw [← hpath] at hleads
    exact section_of_leads hafter.idle hlevel hleads
  refine ⟨logger, hafter.run_eq, hfiles, hfree, ?_, ?_, ?_, ?_⟩
  · intro t c vars hpc hundefined
    have hsec := (hsection t c vars hpc).2
    rw [hundefined] at hsec
    exact hsec
  · intro t c vars hpc
    have henabled : Enabled logger c.1 := hlevel ▸ c.2
    rcases (hsection t c vars hpc).2.files_eq hafter.idle henabled with
      hbefore | ⟨hfatal, hbehind⟩
    · exact .inl (hbefore.trans hfiles)
    · refine .inr (hbehind.trans ?_)
      rw [logged_concat, if_neg hfatal, files_written, hpath, hfiles]
  · rintro t c ⟨c', pc⟩ hpc hlocked
    obtain rfl : pc = .locked := hlocked
    obtain ⟨-, hclosed, -, hshared⟩ := hsection t c _ hpc
    refine ⟨hclosed, fun as s' hrun => ?_⟩
    obtain ⟨-, hsame, hreturned, hwait⟩ := hinv.stay hpc rfl hrun
    refine ⟨?_, hreturned, hwait⟩
    rw [hsame, hshared]
    exact hfiles
  · intro t c hpc hopens hothers
    obtain ⟨as, s', ret, hno, hrun, hout, hmem⟩ := hinv.exists_return hpc (exists_executes hopens)
      fun t' c' vars hpc' => exists_executes (hothers t' c' vars hpc')
    exact ⟨as, s', hno, hrun, hout, hmem⟩

/-- A thread is about to print while another one waits with a call whose file cannot be opened. -/
theorem log_shared_two :
    let tm : Tm := ⟨117, 5, 12, 14, 49, 27⟩
    let start : SubLogger := .initLogger 15 (bytes "./log/") (fun _ => []) tm true
    let c : EnabledCall 15 := ⟨⟨.notice, bytes "server start", tm, true, true⟩, by decide⟩
    let c' : EnabledCall 15 :=
      ⟨⟨.warn, bytes "Tagger is NULL!", { tm with hour := 15 }, false, true⟩, by decide⟩
    ∃ s : State Bool (EnabledCall 15) Shared (Call × LogPc) Unit,
      run (step (logBody 15 (bytes "./log/"))) (init start.shared)
        [.call true c, .lock true, .access true, .call false c', .access true] = some s ∧
      ∃ logger, LogsSerially (bytes "./log/") start logger s := by
  intro tm start c c'
  have hsome : (run (step (logBody 15 (bytes "./log/")))
      (init start.shared : State Bool (EnabledCall 15) Shared (Call × LogPc) Unit)
      [.call true c, .lock true, .access true, .call false c', .access true]).isSome := by
    decide +kernel
  obtain ⟨s, hrun⟩ := Option.isSome_iff_exists.mp hsome
  exact ⟨s, hrun, log_shared (fun _ => []) tm true (reachable_of_run .init hrun)⟩

end Log
end Sunet
