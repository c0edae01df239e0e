/-
# The header area

What one round of the loop of `_parse_headers` does depends on how the area is cut at the
first colon and at the first carriage return behind it, and on whether a NUL lies in front
of the key or of the value.  `HeadersClose` describes the areas in which the loop finds its
end, and `headersLoop_ne_overread` shows that these are exactly the areas in which no read
leaves the buffer.
-/
import Mathlib.Data.List.TakeWhile
import Sunet.Http.Line
import Sunet.Lib.Cut

namespace Sunet
namespace Http

open Byte

/-! ## The scanning loops -/

lemma scanTo_cut {stop : Byte} {l : Bytes} (hl : stop ∉ l) (rest : Bytes) :
    scanTo stop (l ++ stop :: rest) = .ok (l.length, stop :: rest) := by
  induction l with
  | nil => simp [scanTo]
  | cons c l ih =>
    simp only [List.mem_cons, not_or] at hl
    rw [List.cons_append, scanTo, if_neg fun h => hl.1 h.symm, ih hl.2]
    rfl

lemma scanTo_overread {stop : Byte} {p : Bytes} (hp : stop ∉ p) :
    scanTo stop p = .error .overread := by
  induction p with
  | nil => rfl
  | cons c p ih =>
    simp only [List.mem_cons, not_or] at hp
    rw [scanTo, if_neg fun h => hp.1 h.symm, ih hp.2]
    rfl

/-- The spaces at the start of a string. -/
def spaces (w : Bytes) : Bytes := w.takeWhile (· = sp)

/-- A string without the spaces at its start. -/
def trimmed (w : Bytes) : Bytes := w.dropWhile (· = sp)

lemma spaces_append_trimmed (w : Bytes) : spaces w ++ trimmed w = w :=
  List.takeWhile_append_dropWhile

lemma notMem_spaces {b : Byte} (hb : b ≠ sp) (w : Bytes) : b ∉ spaces w := by
  intro h
  exact hb (by simpa using List.mem_takeWhile_imp h)

lemma skipSpaces_cut {c : Byte} (hc : c ≠ sp) (w rest : Bytes) :
    skipSpaces (w ++ c :: rest) =
      .ok ((spaces w).length, trimmed w ++ c :: rest) := by
  induction w with
  | nil => simp [skipSpaces, hc, spaces, trimmed]
  | cons b w ih =>
    by_cases hb : b = sp
    · rw [List.cons_append, skipSpaces, if_pos hb, ih]
      simp [spaces, trimmed, hb]
    · simp [skipSpaces, hb, spaces, trimmed]

/-- Without a carriage return behind the colon the value has no end. -/
lemma value_overread {p : Bytes} (hp : cr ∉ p) :
    (skipSpaces p >>= fun r => scanTo cr r.2) = .error .overread := by
  induction p with
  | nil => rfl
  | cons b p ih =>
    simp only [List.mem_cons, not_or] at hp
    by_cases hb : b = sp
    · have h := ih hp.2
      rw [skipSpaces, if_pos hb]
      rcases hs : skipSpaces p with e | r
      · rw [hs] at h
        exact h
      · rw [hs] at h
        exact h
    · rw [skipSpaces, if_neg hb, Except.ok_bind]
      exact scanTo_overread (by simpa using hp)

/-! ## One header -/

variable {done k w p rest : Bytes} {req : Request}

lemma headerField_noColon {buf : Bytes} {i : ℕ} (hp : colon ∉ p) :
    headerField buf p i req = .error .overread := by
  rw [headerField, scanTo_overread hp]
  rfl

/-- A NUL in front of the key makes its string throw. -/
lemma headerField_badKey (hdone : nul ∈ done) (hk : colon ∉ k) :
    headerField (done ++ (k ++ colon :: rest)) (k ++ colon :: rest) done.length req =
      .error .outOfRange := by
  rw [headerField, scanTo_cut hk, Except.ok_bind]
  simp only [Nat.add_sub_cancel]
  rw [assign_eq_outOfRange hdone]
  rfl

/-- The string of the key. -/
lemma assign_key (hdone : nul ∉ done) (hnul : nul ∈ rest) :
    assign (done ++ (k ++ colon :: rest)) done.length k.length = .ok (untilNul k) :=
  assign_part hdone (by simp [hnul])

lemma headerField_noCr (hdone : nul ∉ done) (hk : colon ∉ k) (hnul : nul ∈ p)
    (hp : cr ∉ p) :
    headerField (done ++ (k ++ colon :: p)) (k ++ colon :: p) done.length req =
      .error .overread := by
  have hvalue := value_overread hp
  rw [headerField, scanTo_cut hk, Except.ok_bind]
  simp only [Nat.add_sub_cancel, List.drop_one, List.tail_cons]
  rw [assign_key hdone hnul, Except.ok_bind]
  rcases hs : skipSpaces p with e | r
  · rw [hs] at hvalue
    cases hvalue
    rfl
  · obtain ⟨n, q⟩ := r
    rw [hs] at hvalue
    have hscan : scanTo cr q = .error .overread := hvalue
    rw [Except.ok_bind]
    simp only [hscan]
    rfl

/-- The part of the area in front of the value. -/
lemma headerField_value (hdone : nul ∉ done) (hk : colon ∉ k) (hw : cr ∉ w)
    (hnul : nul ∈ rest) :
    headerField (done ++ (k ++ colon :: (w ++ cr :: rest))) (k ++ colon :: (w ++ cr :: rest))
        done.length req =
      assign ((done ++ k ++ colon :: spaces w) ++ (trimmed w ++ cr :: rest))
          (done ++ k ++ colon :: spaces w).length (trimmed w).length >>= fun value =>
        .ok (rest.drop 1, done.length + k.length + 1 + w.length + 2,
          { req with headers := req.headers.insert (untilNul k) value }) := by
  have hcat := spaces_append_trimmed w
  have htrim : cr ∉ trimmed w := fun h => hw (by rw [← hcat]; simp [h])
  have hlen : (spaces w).length + (trimmed w).length = w.length := by
    rw [← List.length_append, hcat]
  have hbuf : done ++ (k ++ colon :: (w ++ cr :: rest)) =
      (done ++ k ++ colon :: spaces w) ++ (trimmed w ++ cr :: rest) := by
    conv_lhs => rw [← hcat]
    simp
  have hpos : done.length + k.length + 1 + (spaces w).length =
      (done ++ k ++ colon :: spaces w).length := by
    simp
    omega
  -- the four scans one after the other
  rw [headerField, scanTo_cut hk, Except.ok_bind]
  simp only [Nat.add_sub_cancel, List.drop_one, List.tail_cons]
  rw [assign_key hdone (by simp [hnul]), Except.ok_bind, skipSpaces_cut (by decide),
    Except.ok_bind]
  simp only [scanTo_cut htrim, Except.ok_bind]
  rw [hbuf, hpos]
  congr 1
  funext value
  rw [← hpos]
  simp
  omega

/-- A NUL in the key makes the string of the value throw. -/
lemma headerField_badValue (hdone : nul ∉ done) (hk : colon ∉ k) (hknul : nul ∈ k)
    (hw : cr ∉ w) (hnul : nul ∈ rest) :
    headerField (done ++ (k ++ colon :: (w ++ cr :: rest))) (k ++ colon :: (w ++ cr :: rest))
      done.length req = .error .outOfRange := by
  rw [headerField_value hdone hk hw hnul, assign_eq_outOfRange (by simp [hknul])]
  rfl

lemma headerField_ok (hdone : nul ∉ done) (hk : colon ∉ k) (hknul : nul ∉ k) (hw : cr ∉ w)
    (hnul : nul ∈ rest) :
    headerField (done ++ (k ++ colon :: (w ++ cr :: rest))) (k ++ colon :: (w ++ cr :: rest))
        done.length req =
      .ok (rest.drop 1, done.length + k.length + 1 + w.length + 2,
        { req with headers := req.headers.insert k (untilNul (trimmed w)) }) := by
  have hpre : nul ∉ done ++ k ++ colon :: spaces w := by
    simp only [List.mem_append, List.mem_cons, not_or]
    exact ⟨⟨hdone, hknul⟩, by decide, notMem_spaces (by decide) w⟩
  rw [headerField_value hdone hk hw hnul, assign_part hpre (by simp [hnul]), Except.ok_bind,
    untilNul_eq_self hknul]

/-! ## The areas that close -/

/-- The areas in which `_parse_headers` finds its end.  An area is a sequence of headers, each
a key up to a colon and a value up to a carriage return behind which one byte is passed over,
up to a carriage return with a line feed.  The flag says whether a NUL has been passed; once
that is so, the next string that is taken from the area throws. -/
inductive HeadersClose : Bool → Bytes → Prop
  | blank {seen : Bool} {rest : Bytes} : HeadersClose seen (cr :: lf :: rest)
  | badKey {k rest : Bytes} : colon ∉ k → HeadersClose true (k ++ colon :: rest)
  | badValue {k w rest : Bytes} : colon ∉ k → nul ∈ k → cr ∉ w →
      HeadersClose false (k ++ colon :: (w ++ cr :: rest))
  | field {k w rest : Bytes} {x : Byte} : colon ∉ k → nul ∉ k → cr ∉ w →
      HeadersClose (decide (nul ∈ w ++ [x])) rest →
      HeadersClose false (k ++ colon :: (w ++ cr :: x :: rest))

/-- A pointer into a buffer that ends with its terminator. -/
def Terminated (p : Bytes) : Prop := p = [] ∨ p.getLast? = some nul

lemma Terminated.of_append {l p : Bytes} (h : Terminated (l ++ p)) : Terminated p := by
  rcases List.eq_nil_or_concat p with rfl | ⟨init, last, rfl⟩
  · exact Or.inl rfl
  · right
    rcases h with h | h
    · simp at h
    · rw [List.concat_eq_append, ← List.append_assoc, List.getLast?_concat] at h
      rw [List.concat_eq_append, List.getLast?_concat, h]

lemma Terminated.mem {p : Bytes} (h : Terminated p) (hne : p ≠ []) : nul ∈ p := by
  rcases h with h | h
  · exact absurd h hne
  · exact List.mem_of_getLast? h

/-- Behind a byte that is not NUL the buffer goes on. -/
lemma Terminated.mem_of_cons {c : Byte} {p : Bytes} (h : Terminated (c :: p)) (hc : c ≠ nul) :
    nul ∈ p := by
  refine (h.of_append (l := [c])).mem ?_
  rintro rfl
  rcases h with h | h
  · cases h
  · exact hc (by simpa using h)

/-- The pointer is at a blank line. -/
def AtBlank (p : Bytes) : Prop := ∃ rest, p = cr :: lf :: rest

lemma blankLine_eq {p : Bytes} (hp : Terminated p) (hne : p ≠ []) :
    ∃ b, blankLine p = .ok b ∧ (b = true ↔ AtBlank p) := by
  cases p with
  | nil => exact absurd rfl hne
  | cons c p =>
    by_cases hc : c = cr
    · subst hc
      have hmem := hp.mem_of_cons (by decide)
      cases p with
      | nil => cases hmem
      | cons c' p =>
        refine ⟨decide (c' = lf), by simp [blankLine], ?_⟩
        simp [AtBlank]
    · refine ⟨false, ?_, ?_⟩
      · rw [blankLine.eq_def]
        simp [hc]
      · simp [AtBlank, hc]

lemma HeadersClose.colon_mem {seen : Bool} {p : Bytes} (h : HeadersClose seen p)
    (hb : ¬ AtBlank p) : colon ∈ p := by
  cases h with
  | blank => exact absurd ⟨_, rfl⟩ hb
  | badKey _ => simp
  | badValue _ _ _ => simp
  | field _ _ _ _ => simp

/-- A header closes the area together with what follows it. -/
lemma HeadersClose.inv {k p : Bytes} (hk : colon ∉ k) (hb : ¬ AtBlank (k ++ colon :: p))
    (h : HeadersClose false (k ++ colon :: p)) :
    ∃ w rest, p = w ++ cr :: rest ∧ cr ∉ w ∧
      (nul ∉ k → ∃ x rest', rest = x :: rest' ∧
        HeadersClose (decide (nul ∈ w ++ [x])) rest') := by
  generalize hq : k ++ colon :: p = q at h hb
  cases h with
  | blank => exact absurd ⟨_, rfl⟩ hb
  | badValue hk' hnul hw =>
    obtain ⟨rfl, rfl⟩ := Cut.cut_unique hk hk' hq
    exact ⟨_, _, rfl, hw, fun hn => absurd hnul hn⟩
  | field hk' _ hw hrest =>
    obtain ⟨rfl, rfl⟩ := Cut.cut_unique hk hk' hq
    exact ⟨_, _, rfl, hw, fun _ => ⟨_, _, rfl, hrest⟩⟩

/-- **The header loop stays in the buffer exactly on the areas that close**, and it ends. -/
theorem headersLoop_ne_overread :
    ∀ (n : ℕ) (done p : Bytes) (req : Request), p.length < n → Terminated p →
      headersLoop (done ++ p) n p done.length req ≠ .error .fuel ∧
        (headersLoop (done ++ p) n p done.length req ≠ .error .overread ↔
          HeadersClose (decide (nul ∈ done)) p) := by
  intro n
  induction n with
  | zero =>
    intro done p req hn
    omega
  | succ n ih =>
    intro done p req hn hp
    rw [headersLoop]
    -- the area ends here, and the test for the blank line reads behind it
    by_cases hne : p = []
    · subst hne
      refine ⟨by simp [blankLine], ?_⟩
      simp only [blankLine, Except.error_bind, ne_eq, not_true_eq_false, false_iff]
      intro h
      have hmem := h.colon_mem fun ⟨_, hrest⟩ => by cases hrest
      cases hmem
    obtain ⟨b, hb, hiff⟩ := blankLine_eq hp hne
    rw [hb, Except.ok_bind]
    by_cases hblank : AtBlank p
    · obtain ⟨rest, rfl⟩ := hblank
      rw [if_pos (hiff.mpr ⟨rest, rfl⟩)]
      exact ⟨by simp, by simp [HeadersClose.blank]⟩
    rw [if_neg fun h => hblank (hiff.mp h)]
    by_cases hcolon : colon ∈ p
    · obtain ⟨k, p₁, rfl, hk⟩ := List.eq_append_cons_of_mem hcolon
      have hnul : nul ∈ p₁ := hp.of_append.mem_of_cons (by decide)
      -- a NUL that was passed earlier makes the string of the key throw
      by_cases hdone : nul ∈ done
      · rw [headerField_badKey hdone hk, decide_eq_true hdone]
        exact ⟨by simp, by simp [HeadersClose.badKey hk]⟩
      rw [decide_eq_false hdone]
      by_cases hcr : cr ∈ p₁
      · obtain ⟨w, p₂, rfl, hw⟩ := List.eq_append_cons_of_mem hcr
        have hnul₂ : nul ∈ p₂ := by
          have hterm : Terminated ((k ++ colon :: w) ++ cr :: p₂) := by simpa using hp
          exact hterm.of_append.mem_of_cons (by decide)
        by_cases hknul : nul ∈ k
        · rw [headerField_badValue hdone hk hknul hw hnul₂]
          exact ⟨by simp, by simp [HeadersClose.badValue hk hknul hw]⟩
        obtain ⟨x, rest, rfl⟩ := List.exists_cons_of_ne_nil (List.ne_nil_of_mem hnul₂)
        rw [headerField_ok hdone hk hknul hw hnul₂, Except.ok_bind]
        -- the next round starts behind the byte that follows the carriage return
        have hbuf : done ++ (k ++ colon :: (w ++ cr :: x :: rest)) =
            (done ++ (k ++ colon :: (w ++ [cr, x]))) ++ rest := by simp
        have hlen : done.length + k.length + 1 + w.length + 2 =
            (done ++ (k ++ colon :: (w ++ [cr, x]))).length := by
          simp
          omega
        have hterm : Terminated rest := by
          have h : Terminated ((k ++ colon :: (w ++ [cr, x])) ++ rest) := by simpa using hp
          exact h.of_append
        have hseen : decide (nul ∈ done ++ (k ++ colon :: (w ++ [cr, x]))) =
            decide (nul ∈ w ++ [x]) := by
          refine decide_eq_decide.mpr ?_
          simp [hdone, hknul]
        obtain ⟨ih₁, ih₂⟩ := ih (done ++ (k ++ colon :: (w ++ [cr, x]))) rest
          { req with headers := req.headers.insert k (untilNul (trimmed w)) }
          (by simp at hn; omega) hterm
        rw [← hbuf, ← hlen] at ih₁ ih₂
        refine ⟨ih₁, ih₂.trans ?_⟩
        rw [hseen]
        constructor
        · exact HeadersClose.field hk hknul hw
        · intro h
          obtain ⟨w', p', heq, hw', hrest⟩ := h.inv hk hblank
          obtain ⟨rfl, rfl⟩ := Cut.cut_unique hw hw' heq
          obtain ⟨x', rest', heq', hclose⟩ := hrest hknul
          cases heq'
          exact hclose
      · rw [headerField_noCr hdone hk hnul hcr]
        refine ⟨by simp, ?_⟩
        simp only [Except.error_bind, ne_eq, not_true_eq_false, false_iff]
        intro h
        obtain ⟨w, rest, rfl, -, -⟩ := h.inv hk hblank
        simp at hcr
    · rw [headerField_noColon hcolon]
      refine ⟨by simp, ?_⟩
      simp only [Except.error_bind, ne_eq, not_true_eq_false, false_iff]
      exact fun h => hcolon (h.colon_mem hblank)

end Http
end Sunet
