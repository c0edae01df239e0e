/-
# The double array of `dat.h`

The faithful model of `DatImpl`: the two integer arrays `_base` and `_check`, the marks
`_used`, the first-fit insertion `_insert` with its recursion over the sibling lists that
`_fetch_siblings` collects, and the look-ups `_search` and `_tsearch`.

The arrays are functions that are 0 where nothing has been written, and every access of the
source goes through a test against `_size`; an access outside ends the run with
`Stop.outOfBounds`.  What the two `resize` functions do is a parameter, since they copy into
fresh memory whose contents the program does not fix; `noResize` ends the run where one of
them is called.  The unbounded loop of `_insert` and its recursion carry fuel.
-/
import Sunet.Dat.Code

namespace Sunet
namespace Dat

open StringUtil

/-- `tree_node`: the words from `left` up to `right` of the dictionary, which agree in their
first `depth - 1` characters and continue with the character `code`. -/
structure TreeNode where
  depth : ℕ
  left : ℕ
  right : ℕ
  code : ℕ
deriving DecidableEq, Repr

/-- The ways in which a run can stop before its end. -/
inductive Stop
  /-- An index outside its array. -/
  | outOfBounds
  /-- A call of one of the `resize` functions. -/
  | resize
  /-- The `exit(1)` of `get_cn_code`. -/
  | exit
  /-- The fuel of the model is used up. -/
  | fuel
deriving DecidableEq, Repr

/-- `DatImpl`. -/
structure DatImpl (α : Type) where
  /-- `_dicts`. -/
  dicts : List CnString
  /-- `_values`. -/
  values : List α
  /-- `_base`. -/
  base : ℕ → ℤ
  /-- `_check`. -/
  check : ℕ → ℤ
  /-- `_used`. -/
  used : ℕ → Bool
  /-- `_size`. -/
  size : ℕ
  /-- `_next_check_pos`. -/
  nextCheckPos : ℕ
  /-- `_non_zero_num`. -/
  nonZeroNum : ℕ
  /-- `_progress`. -/
  progress : ℕ
  /-- The value of a `right` that no statement has set. -/
  unset : ℕ

namespace DatImpl

variable {α : Type}

/-- A fresh object over arrays of `size` cells that read as 0. -/
def new (size unset : ℕ) : DatImpl α where
  dicts := []
  values := []
  base := fun _ => 0
  check := fun _ => 0
  used := fun _ => false
  size := size
  nextCheckPos := 0
  nonZeroNum := 0
  progress := 0
  unset := unset

/-- The calls `_dicts.push_back(cn_string(line))` for a list of words. -/
def addWords (d : DatImpl α) (words : List Bytes) : DatImpl α :=
  { d with dicts := d.dicts ++ words.map CnString.new }

/-- `_load_dict`: one word a line. -/
def loadDict (d : DatImpl α) (file : Bytes) : DatImpl α := d.addWords (getLines file)

/-! ## Access to the arrays -/

/-- `_check[i]`. -/
def readCheck (d : DatImpl α) (i : ℕ) : Except Stop ℤ :=
  if i < d.size then .ok (d.check i) else .error .outOfBounds

/-- `_base[i]`. -/
def readBase (d : DatImpl α) (i : ℕ) : Except Stop ℤ :=
  if i < d.size then .ok (d.base i) else .error .outOfBounds

/-- `_used[i]`. -/
def readUsed (d : DatImpl α) (i : ℕ) : Except Stop Bool :=
  if i < d.size then .ok (d.used i) else .error .outOfBounds

/-- `_check[i] = v`. -/
def writeCheck (d : DatImpl α) (i : ℕ) (v : ℤ) : Except Stop (DatImpl α) :=
  if i < d.size then .ok { d with check := Function.update d.check i v }
  else .error .outOfBounds

/-- `_base[i] = v`. -/
def writeBase (d : DatImpl α) (i : ℕ) (v : ℤ) : Except Stop (DatImpl α) :=
  if i < d.size then .ok { d with base := Function.update d.base i v }
  else .error .outOfBounds

/-- `_used[i] = true`. -/
def writeUsed (d : DatImpl α) (i : ℕ) : Except Stop (DatImpl α) :=
  if i < d.size then .ok { d with used := Function.update d.used i true }
  else .error .outOfBounds

/-! ## The siblings of a node -/

/-- `siblings[siblings.size() - 1]->right = right`. -/
def setLastRight (siblings : List TreeNode) (right : ℕ) : List TreeNode :=
  match siblings.getLast? with
  | none => []
  | some last => siblings.dropLast ++ [{ last with right := right }]

/-- `cur_code` of `_fetch_siblings` for a word of at least `depth` characters. -/
def curCode (word : CnString) (depth : ℕ) : Except Stop ℕ :=
  match word.words[depth]? with
  | none => .ok 0
  | some ch =>
    match getCnCode ch with
    | none => .error .exit
    | some code => .ok code

/-- The loop of `_fetch_siblings` over `n` words from the `i`-th on.  The result is `false`
when it returns at a word that is out of order. -/
def fetchLoop (d : DatImpl α) (depth : ℕ) :
    ℕ → ℕ → ℕ → List TreeNode → Except Stop (Bool × List TreeNode)
  | 0, _, _, siblings => .ok (true, siblings)
  | n + 1, i, prevCode, siblings =>
    match d.dicts[i]? with
    | none => .error .outOfBounds
    | some word =>
      -- the `continue`: the word ends above the node
      if word.length < depth then d.fetchLoop depth n (i + 1) prevCode siblings
      else
        match curCode word depth with
        | .error e => .error e
        | .ok cur =>
          -- a 0, the end of a word, is let through behind every code
          if cur < prevCode ∧ cur ≠ 0 then .ok (false, siblings)
          else if prevCode ≠ cur ∨ siblings = [] then
            let node : TreeNode := ⟨depth + 1, i, d.unset, cur⟩
            d.fetchLoop depth n (i + 1) cur (setLastRight siblings i ++ [node])
          else d.fetchLoop depth n (i + 1) cur siblings

/-- `_fetch_siblings` on an empty vector: the value that is returned and the vector. -/
def fetchSiblings (d : DatImpl α) (parent : TreeNode) : Except Stop (ℕ × List TreeNode) :=
  match d.fetchLoop parent.depth (parent.right - parent.left) parent.left 0 [] with
  | .error e => .error e
  | .ok (false, siblings) => .ok (0, siblings)
  | .ok (true, siblings) => .ok (siblings.length, setLastRight siblings parent.right)

/-! ## Insertion -/

/-- What the two `resize` functions do to the object. -/
structure Resizer (α : Type) where
  /-- `resize(new_size)`, called when the last sibling lies outside the arrays. -/
  grow : DatImpl α → Except Stop (DatImpl α)
  /-- `resize()`, which doubles the arrays. -/
  double : DatImpl α → Except Stop (DatImpl α)

/-- The run ends where the source calls `resize`. -/
def noResize : Resizer α := ⟨fun _ => .error .resize, fun _ => .error .resize⟩

/-- `tag`: is the cell of one of the siblings taken? -/
def anyTaken (d : DatImpl α) (begin : ℕ) : List TreeNode → Except Stop Bool
  | [] => .ok false
  | s :: rest =>
    match d.readCheck (begin + s.code) with
    | .error e => .error e
    | .ok c => if c ≠ 0 then .ok true else d.anyTaken begin rest

/-- The `while (true)` loop of `_insert`: `begin`, `pos` and the object when it breaks.
`firstCode` and `lastCode` are the codes of the first and the last sibling. -/
def findBegin (rz : Resizer α) (siblings : List TreeNode) (firstCode lastCode : ℕ) :
    ℕ → ℕ → Bool → DatImpl α → Except Stop (ℕ × ℕ × DatImpl α)
  | 0, _, _, _ => .error .fuel
  | n + 1, pos₀, first, d => do
    let pos := pos₀ + 1
    let c ← d.readCheck pos
    if c ≠ 0 then
      findBegin rz siblings firstCode lastCode n pos first
        { d with nonZeroNum := d.nonZeroNum + 1 }
    else
      let d := if first then d else { d with nextCheckPos := pos }
      let begin := pos - firstCode
      let d ← if lastCode + begin ≥ d.size then rz.grow d else .ok d
      let u ← d.readUsed begin
      -- a used `begin` is passed over after the arrays have grown for it
      if u then findBegin rz siblings firstCode lastCode n pos true d
      else
        let d ← if lastCode + begin > d.size then rz.double d else .ok d
        let tag ← d.anyTaken begin siblings
        if tag then findBegin rz siblings firstCode lastCode n pos true d
        else .ok (begin, pos, d)

/-- `_check[begin + siblings[i]->code] = begin` for all siblings. -/
def markSiblings (begin : ℕ) : List TreeNode → DatImpl α → Except Stop (DatImpl α)
  | [], d => .ok d
  | s :: rest, d => do
    let d ← d.writeCheck (begin + s.code) begin
    markSiblings begin rest d

/-- The part of `_insert` before its recursion: find `begin`, move `_next_check_pos`, and
occupy the cells.  The quotient of the source is at least `0.95` exactly when the numbers
are in this relation. -/
def place (rz : Resizer α) (fuel : ℕ) (siblings : List TreeNode) (d : DatImpl α) :
    Except Stop (ℕ × DatImpl α) :=
  match siblings.head?, siblings.getLast? with
  | some s, some last => do
    let pos := max (s.code + 1) d.nextCheckPos - 1
    let (begin, pos, d) ← findBegin rz siblings s.code last.code fuel pos false
      { d with nonZeroNum := 0 }
    let d ← d.writeUsed begin
    let d := if 19 * (pos - d.nextCheckPos + 1) ≤ 20 * d.nonZeroNum then
        { d with nextCheckPos := pos }
      else d
    let d ← markSiblings begin siblings d
    .ok (begin, d)
  | _, _ => .error .outOfBounds

/-- The last loop of `_insert` for one sibling, `ins` being the recursive call. -/
def attach (ins : List TreeNode → DatImpl α → Except Stop (ℕ × DatImpl α)) (begin : ℕ)
    (d : DatImpl α) (s : TreeNode) : Except Stop (DatImpl α) := do
  let (ret, newSiblings) ← d.fetchSiblings s
  -- 0 is returned for a node without children, and at a word out of order
  if ret = 0 then
    let d ← d.writeBase (begin + s.code) (-(s.left : ℤ) - 1)
    .ok { d with progress := d.progress + 1 }
  else
    let (subH, d) ← ins newSiblings d
    d.writeBase (begin + s.code) subH

/-- `_insert`. -/
def insert (rz : Resizer α) (fuel : ℕ) :
    ℕ → List TreeNode → DatImpl α → Except Stop (ℕ × DatImpl α)
  | 0, _, _ => .error .fuel
  | n + 1, siblings, d => do
    let (begin, d) ← place rz fuel siblings d
    let d ← siblings.foldlM (attach (insert rz fuel n) begin) d
    .ok (begin, d)

/-- `_build`. -/
def build (rz : Resizer α) (fuel : ℕ) (d : DatImpl α) : Except Stop (DatImpl α) := do
  let node : TreeNode := ⟨0, 0, d.dicts.length, 0⟩
  -- the source does not look at the value that is returned
  let (_, siblings) ← d.fetchSiblings node
  let (begin, d) ← insert rz fuel fuel siblings d
  d.writeBase 0 begin

/-! ## Look-up -/

/-- An `int` as an index of an array. -/
def index (p : ℤ) : Except Stop ℕ := if 0 ≤ p then .ok p.toNat else .error .outOfBounds

/-- The loop of `_search` over the characters of the key: the state `b` after the last one,
or `none` if there is no transition. -/
def searchLoop (d : DatImpl α) : List Bytes → ℤ → Except Stop (Option ℤ)
  | [], b => .ok (some b)
  | w :: cnWords, b =>
    match getCnCode w with
    | none => .error .exit
    | some code => do
      -- nothing compares `b + code` with `_size`, and `b` can be the negative base of a leaf
      let p ← index (b + code)
      let c ← d.readCheck p
      if b = c then
        let b ← d.readBase p
        d.searchLoop cnWords b
      else .ok none

/-- `_search`. -/
def search (d : DatImpl α) (key : Bytes) : Except Stop ℤ :=
  match splitChWords key with
  | none => .error .outOfBounds
  | some cnWords => do
    let b ← d.readBase 0
    match ← d.searchLoop cnWords b with
    | none => .ok (-1)
    | some b => do
      let p ← index b
      let c ← d.readCheck p
      if b = c then
        let v ← d.readBase p
        if v < 0 then .ok (-v - 1) else .ok (-1)
      else .ok (-1)

/-- The loop of `_tsearch`: the state `b` after the last character, or the value that the loop
returns. -/
def tsearchLoop (d : DatImpl α) : List Bytes → ℤ → Except Stop (ℤ ⊕ ℤ)
  | [], b => .ok (.inl b)
  | w :: cnWords, b =>
    match getCnCode w with
    | none => .error .exit
    | some code => do
      let p ← index (b + code)
      let v ← d.readBase p
      if v = 0 then .ok (.inr (-1))
      else if v < 0 then .ok (.inr (-v - 1))
      else d.tsearchLoop cnWords v

/-- `_tsearch`. -/
def tsearch (d : DatImpl α) (key : Bytes) : Except Stop ℤ :=
  match splitChWords key with
  | none => .error .outOfBounds
  | some cnWords => do
    let b ← d.readBase 0
    match ← d.tsearchLoop cnWords b with
    | .inr result => .ok result
    | .inl b => do
      let p ← index b
      let v ← d.readBase p
      if v < 0 then .ok (-v - 1) else .ok (-1)

end DatImpl
end Dat
end Sunet
