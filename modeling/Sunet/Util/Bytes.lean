/-
# Bytes, C strings and decimal numerals

The strings of the source are byte strings: `std::string` is a list of bytes, and a `char*`
is a block of memory that ends with the terminator NUL.  This file fixes the bytes the
sources test for, and the functions of the C and C++ libraries that the modelled code calls:
reading one past the end of a `std::string`, the conversion of a `char*` to a `std::string`,
the three-argument `std::string::assign`, `getline`, `atoi` and `operator<<` on `int`.
-/
import Mathlib.Tactic

namespace Sunet

/-- A `char` of the source. -/
abbrev Byte := UInt8

/-- A `std::string` of the source, or a block of memory. -/
abbrev Bytes := List Byte

/-- The bytes of a literal of the source. -/
def bytes (s : String) : Bytes := s.toList.map Char.toUInt8

namespace Byte

/-- The terminator of a C string. -/
abbrev nul : Byte := 0
/-- The tab. -/
abbrev tab : Byte := 9
/-- The line feed. -/
abbrev lf : Byte := 10
/-- The carriage return. -/
abbrev cr : Byte := 13
/-- The space. -/
abbrev sp : Byte := 32
/-- The percent sign. -/
abbrev percent : Byte := 37
/-- The ampersand. -/
abbrev amp : Byte := 38
/-- The colon. -/
abbrev colon : Byte := 58
/-- The equality sign. -/
abbrev eqSign : Byte := 61
/-- The question mark. -/
abbrev qmark : Byte := 63

/-! What ends one part of a request cannot be mistaken for what ends another. -/

@[simp] lemma nul_ne_sp : nul ≠ sp := by decide

@[simp] lemma nul_ne_cr : nul ≠ cr := by decide

@[simp] lemma nul_ne_lf : nul ≠ lf := by decide

@[simp] lemma nul_ne_colon : nul ≠ colon := by decide

@[simp] lemma nul_ne_qmark : nul ≠ qmark := by decide

@[simp] lemma sp_ne_nul : sp ≠ nul := nul_ne_sp.symm

@[simp] lemma sp_ne_cr : sp ≠ cr := by decide

@[simp] lemma cr_ne_nul : cr ≠ nul := nul_ne_cr.symm

@[simp] lemma cr_ne_colon : cr ≠ colon := by decide

end Byte

/-- A property of all bytes can be tested byte by byte. -/
instance decidableForallByte {p : Byte → Prop} [DecidablePred p] : Decidable (∀ b, p b) :=
  decidable_of_iff (∀ n : Fin 256, p (UInt8.ofFin n))
    ⟨fun h b => by simpa using h b.toFin, fun h n => h _⟩

/-- The value of a `char`, which is signed on the x86 build. -/
def schar (b : Byte) : ℤ := b.toInt8.toInt

lemma schar_le (b : Byte) : schar b ≤ 127 := by
  revert b
  decide +kernel

/-- `word[i]` of a `std::string`: the terminator can be read, nothing behind it. -/
def strAt (word : Bytes) (i : ℕ) : Option Byte := (word ++ [Byte.nul])[i]?

/-! ## C strings -/

/-- The `std::string` made from a `char*`: the bytes before the first NUL, or `none` when the
search for it runs out of the block. -/
def cstr (buf : Bytes) : Option Bytes :=
  if Byte.nul ∈ buf then some (buf.takeWhile (· ≠ Byte.nul)) else none

/-- `std::string::substr(pos, len)`, which throws `out_of_range` past the end. -/
def substr (s : Bytes) (pos len : ℕ) : Option Bytes :=
  if pos ≤ s.length then some ((s.drop pos).take len) else none

/-! ## Text files -/

/-- The lines that repeated `getline` calls read, `line` being the part of the current line
that has been read already. -/
def getLinesAux : Bytes → Bytes → List Bytes
  | line, [] => if line = [] then [] else [line]
  | line, b :: rest =>
    if b = Byte.lf then line :: getLinesAux [] rest else getLinesAux (line ++ [b]) rest

/-- The lines of a file: the newlines are dropped, and the end of the file ends a line only
if it is not empty. -/
def getLines (file : Bytes) : List Bytes := getLinesAux [] file

/-- The text of a list of lines, each ended by a newline. -/
def unlines (ls : List Bytes) : Bytes := (ls.map (· ++ [Byte.lf])).flatten

lemma getLinesAux_append {line l : Bytes} (hl : Byte.lf ∉ l) (rest : Bytes) :
    getLinesAux line (l ++ Byte.lf :: rest) = (line ++ l) :: getLinesAux [] rest := by
  induction l generalizing line with
  | nil => simp [getLinesAux]
  | cons b l ih =>
    simp only [List.mem_cons, not_or] at hl
    have hb : b ≠ Byte.lf := fun h => hl.1 h.symm
    simp [getLinesAux, hb, ih hl.2]

/-- Writing lines without a newline in them and reading them back changes nothing. -/
lemma getLines_unlines {ls : List Bytes} (h : ∀ l ∈ ls, Byte.lf ∉ l) :
    getLines (unlines ls) = ls := by
  induction ls with
  | nil => rfl
  | cons l ls ih =>
    have hl : Byte.lf ∉ l := h l (by simp)
    have hls : getLines (unlines ls) = ls := ih (fun x hx => h x (by simp [hx]))
    simp only [unlines, List.map_cons, List.flatten_cons, getLines, List.append_assoc,
      List.singleton_append, getLinesAux_append hl, List.nil_append, List.cons.injEq, true_and]
    exact hls

end Sunet
