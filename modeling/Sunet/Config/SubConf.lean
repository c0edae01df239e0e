/-
# The configuration of the server

`SubConfig` reads a file with `key:val` on each line.  It takes what `split` makes of a line, if
there are two fields: a value with a colon in it is not taken, unless a tab at the end of the
line makes `split` leave out what stands behind the second colon, and so a line that ends in a
tab is lost.  Of several lines with one key the last one counts.
-/
import Sunet.Util.Split
import Sunet.Util.Numeral
import Sunet.Thread.Pool

namespace Sunet
namespace Config
namespace SubConfig

open StringUtil Byte SortedMap Thread

/-! ## The model -/

/-- The values of `define.h` that `_read_conf_file` returns. -/
inductive ConfRet
  | ok
  | fail
deriving DecidableEq, Repr

/-- The body of the loop of `_read_conf_file`. -/
def readConfLine (confDict : ConfDict) (line : Bytes) : ConfDict :=
  match split line [colon] with
  | [key, val] => set key val confDict
  | _ => confDict

/-- `_read_conf_file`, with `none` for a file that cannot be opened. -/
def readConfFile (fis : Option Bytes) (confDict : ConfDict) : ConfRet × ConfDict :=
  match fis with
  | none => (.fail, confDict)
  | some file => (.ok, (getLines file).foldl readConfLine confDict)

/-! ## The lines that count -/

/-- A line with a key and a value. -/
def IsEntry (line key val : Bytes) : Prop :=
  colon ∉ key ∧ colon ∉ val ∧
    ((line = key ++ colon :: val ∧ line.getLast? ≠ some tab) ∨
      ∃ rest, colon ∉ rest ∧ line = key ++ colon :: (val ++ colon :: rest) ∧
        line.getLast? = some tab)

/-- The fields between the delimiters, as a list. -/
lemma splitOn_eq_iff {line : Bytes} {fields : List Bytes} (hne : fields ≠ []) :
    line.splitOn colon = fields ↔
      (∀ f ∈ fields, colon ∉ f) ∧ line = [colon].intercalate fields := by
  constructor
  · rintro rfl
    exact ⟨notMem_of_mem_splitOn line, (List.intercalate_splitOn colon).symm⟩
  · rintro ⟨hfields, rfl⟩
    exact List.splitOn_intercalate colon hfields hne

/-- A line counts exactly if `split` makes two fields of it. -/
lemma split_eq_two_iff {line key val : Bytes} :
    split line [colon] = [key, val] ↔ IsEntry line key val := by
  by_cases hnil : line = []
  · subst hnil
    simp [IsEntry]
  have htwo : line.splitOn colon = [key, val] ↔
      colon ∉ key ∧ colon ∉ val ∧ line = key ++ colon :: val := by
    rw [splitOn_eq_iff (by simp)]
    simp [List.intercalate, and_assoc]
  by_cases htab : line.getLast? = some tab
  · rw [split_eq_dropLast hnil htab, IsEntry]
    have hthree : ∀ rest, line.splitOn colon = [key, val, rest] ↔
        colon ∉ key ∧ colon ∉ val ∧ colon ∉ rest ∧
          line = key ++ colon :: (val ++ colon :: rest) := by
      intro rest
      rw [splitOn_eq_iff (by simp)]
      simp [List.intercalate, and_assoc]
    constructor
    · intro h
      have hsplit := List.dropLast_append_getLast (List.splitOn_ne_nil colon line)
      rw [h] at hsplit
      obtain ⟨hkey, hval, hrest, hline⟩ := (hthree _).mp hsplit.symm
      exact ⟨hkey, hval, .inr ⟨_, hrest, hline, htab⟩⟩
    · rintro ⟨hkey, hval, ⟨-, hend⟩ | ⟨rest, hrest, hline, -⟩⟩
      · exact absurd htab hend
      · rw [(hthree rest).mpr ⟨hkey, hval, hrest, hline⟩]
        rfl
  · rw [split_eq_splitOn hnil htab, htwo, IsEntry]
    constructor
    · rintro ⟨hkey, hval, hline⟩
      exact ⟨hkey, hval, .inl ⟨hline, htab⟩⟩
    · rintro ⟨hkey, hval, ⟨hline, -⟩ | ⟨rest, -, -, hend⟩⟩
      · exact ⟨hkey, hval, hline⟩
      · exact absurd hend htab

/-- What a line does to the value of a key. -/
lemma find_readConfLine (confDict : ConfDict) (line key : Bytes) :
    (∀ val, IsEntry line key val → find key (readConfLine confDict line) = some val) ∧
      ((∀ val, ¬ IsEntry line key val) →
        find key (readConfLine confDict line) = find key confDict) := by
  constructor
  · intro val h
    rw [readConfLine, split_eq_two_iff.mpr h]
    exact find_set_self _ _ _
  · intro h
    rw [readConfLine]
    split
    · next key' val hsplit =>
      refine find_set_of_ne ?_ _ _
      rintro rfl
      exact h val (split_eq_two_iff.mp hsplit)
    · rfl

/-! ## What is read -/

/-- The last line of a file for a key has this value. -/
def LastEntry (file key val : Bytes) : Prop :=
  ∃ before line behind, getLines file = before ++ line :: behind ∧ IsEntry line key val ∧
    ∀ l ∈ behind, ∀ v, ¬ IsEntry l key v

/-- A file has no line for a key. -/
def NoEntry (file key : Bytes) : Prop := ∀ line ∈ getLines file, ∀ val, ¬ IsEntry line key val

/-- Lines for other keys, by induction on them. -/
lemma find_foldl_of_no_entry {lines : List Bytes} {key : Bytes}
    (h : ∀ line ∈ lines, ∀ val, ¬ IsEntry line key val) (confDict : ConfDict) :
    find key (lines.foldl readConfLine confDict) = find key confDict := by
  induction lines generalizing confDict with
  | nil => rfl
  | cons line lines ih =>
    rw [List.foldl_cons, ih fun l hl => h l (List.mem_cons_of_mem _ hl)]
    exact (find_readConfLine confDict line key).2 (h line List.mem_cons_self)

lemma find_readConfFile {file key val : Bytes} (h : LastEntry file key val) (confDict : ConfDict) :
    find key (readConfFile (some file) confDict).2 = some val := by
  obtain ⟨before, line, behind, hlines, hentry, hbehind⟩ := h
  rw [readConfFile, hlines, List.foldl_append, List.foldl_cons, find_foldl_of_no_entry hbehind]
  exact (find_readConfLine _ line key).1 val hentry

/-- `_init` and `_start` on a pool without threads. -/
lemma threads_start {pool : SubThreadPool} (hpool : pool.threads = []) (confDict : ConfDict) :
    (pool.init confDict).start.threads = List.replicate (getThreadCnt confDict).toNat ⟨false⟩ := by
  rw [SubThreadPool.start]
  split
  · next h =>
    have hlt : getThreadCnt confDict < 1 := by
      rcases h with h | h
      · exact absurd (congrArg List.length hpool) h
      · exact h
    rw [show (getThreadCnt confDict).toNat = 0 by omega]
    exact hpool
  · show SubThreadPool.startLoop _ pool.threads = _
    rw [startLoop_eq, hpool, List.nil_append]
    rfl

/-- **A key has the value of its last line.**  Whatever is in a file and in the dictionary, after
`_read_conf_file` a key has the value of the last line that has the key, a colon and a value
without a colon, and what it had before if there is no such line.  So the pool that is started
has the number of threads that the last line for it says, and 5 where nothing was ever said. -/
theorem readConfFile_last (file : Bytes) (confDict : ConfDict) :
    let confDict' := (readConfFile (some file) confDict).2
    (∀ key val, LastEntry file key val → getConfVal confDict' key = val) ∧
      (∀ key, NoEntry file key → getConfVal confDict' key = getConfVal confDict key) ∧
      ∀ pool : SubThreadPool, pool.threads = [] →
        (∀ n, IsInt n → LastEntry file (bytes "thread_cnt") (numToStr n) →
          ((pool.init confDict').start).threads = List.replicate n.toNat ⟨false⟩) ∧
        (NoEntry file (bytes "thread_cnt") → find (bytes "thread_cnt") confDict = none →
          ((pool.init confDict').start).threads = List.replicate 5 ⟨false⟩) := by
  intro confDict'
  have hlast : ∀ key val, LastEntry file key val → getConfVal confDict' key = val := by
    intro key val h
    rw [getConfVal, find_readConfFile h, Option.getD_some]
  have hnone : ∀ key, NoEntry file key → find key confDict' = find key confDict :=
    fun key h => find_foldl_of_no_entry h confDict
  refine ⟨hlast, fun key h => by rw [getConfVal, getConfVal, hnone key h], ?_⟩
  intro pool hpool
  rw [threads_start hpool]
  constructor
  · intro n hn h
    rw [getThreadCnt, getConfIntVal, hlast _ _ h]
    simp only [numToStr_ne_nil, if_false, atoi_numToStr hn]
  · intro h hconf
    rw [getThreadCnt, getConfIntVal, getConfVal, hnone _ h, hconf]
    rfl

/-- A value with a colon in it, a line that ends in a tab, and two lines with one key. -/
example : (readConfFile (some (bytes "a:1\nb:x:y\nc:2\t\na:3\n")) []).2 =
    [(bytes "a", bytes "3")] := by decide

end SubConfig
end Config
end Sunet
