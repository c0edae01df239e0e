/-
# Cutting a list at its first element with a property

A scanner passes over the elements without a property and stops at the first one that has
it.  The cut exists when some element has the property, and it is unique.
-/
import Mathlib.Tactic

namespace Sunet
namespace Cut

variable {α : Type}

/-- The list is `pre`, without the property, followed by `c`, which has it, and `rest`. -/
structure IsCut (p : α → Prop) (l pre : List α) (c : α) (rest : List α) : Prop where
  eq : l = pre ++ c :: rest
  pre : ∀ x ∈ pre, ¬ p x
  at_stop : p c

lemma exists_isCut {p : α → Prop} {l : List α} (h : ∃ x ∈ l, p x) :
    ∃ pre c rest, IsCut p l pre c rest := by
  classical
  induction l with
  | nil =>
    obtain ⟨x, hx, -⟩ := h
    cases hx
  | cons a l ih =>
    by_cases ha : p a
    · exact ⟨[], a, l, rfl, by simp, ha⟩
    · have hl : ∃ x ∈ l, p x := by
        obtain ⟨x, hx, hpx⟩ := h
        rcases List.mem_cons.mp hx with rfl | hx
        · exact absurd hpx ha
        · exact ⟨x, hx, hpx⟩
      obtain ⟨pre, c, rest, hcut⟩ := ih hl
      refine ⟨a :: pre, c, rest, by rw [hcut.eq]; rfl, ?_, hcut.at_stop⟩
      intro x hx
      rcases List.mem_cons.mp hx with rfl | hx
      · exact ha
      · exact hcut.pre x hx

lemma IsCut.unique {p : α → Prop} {l pre pre' : List α} {c c' : α} {rest rest' : List α}
    (h : IsCut p l pre c rest) (h' : IsCut p l pre' c' rest') :
    pre = pre' ∧ c = c' ∧ rest = rest' := by
  obtain ⟨heq, hpre, hc⟩ := h
  obtain ⟨heq', hpre', hc'⟩ := h'
  rw [heq] at heq'
  clear heq
  induction pre generalizing pre' with
  | nil =>
    cases pre' with
    | nil => simpa using heq'
    | cons b pre' =>
      have hb : c = b := by
        rw [List.nil_append, List.cons_append, List.cons.injEq] at heq'
        exact heq'.1
      exact absurd (hb ▸ hc) (hpre' b (by simp))
  | cons a pre ih =>
    cases pre' with
    | nil =>
      have ha : a = c' := by
        rw [List.nil_append, List.cons_append, List.cons.injEq] at heq'
        exact heq'.1
      exact absurd (ha ▸ hc') (hpre a (by simp))
    | cons b pre' =>
      rw [List.cons_append, List.cons_append, List.cons.injEq] at heq'
      obtain ⟨h1, h2, h3⟩ := ih (fun x hx => hpre x (by simp [hx])) heq'.2
        (fun x hx => hpre' x (by simp [hx]))
      exact ⟨by rw [heq'.1, h1], h2, h3⟩

/-- The cut at the first occurrence of an element is unique. -/
lemma cut_unique {a : α} {pre pre' rest rest' : List α} (h : a ∉ pre) (h' : a ∉ pre')
    (heq : pre ++ a :: rest = pre' ++ a :: rest') : pre = pre' ∧ rest = rest' := by
  have hcut : IsCut (· = a) (pre ++ a :: rest) pre a rest :=
    ⟨rfl, fun x hx hxa => h (hxa ▸ hx), rfl⟩
  have hcut' : IsCut (· = a) (pre ++ a :: rest) pre' a rest' :=
    ⟨heq, fun x hx hxa => h' (hxa ▸ hx), rfl⟩
  obtain ⟨h1, -, h2⟩ := hcut.unique hcut'
  exact ⟨h1, h2⟩

/-- An occurrence of an element is the first one or lies behind it. -/
lemma cut_or_behind {a : α} {pre l rest rest' : List α} (h : a ∉ pre)
    (heq : pre ++ a :: rest = l ++ a :: rest') :
    (l = pre ∧ rest = rest') ∨ ∃ l', l = pre ++ a :: l' ∧ rest = l' ++ a :: rest' := by
  by_cases ha : a ∈ l
  · obtain ⟨pre', l', rfl, hpre'⟩ := List.eq_append_cons_of_mem ha
    rw [List.append_assoc, List.cons_append] at heq
    obtain ⟨rfl, hrest⟩ := cut_unique h hpre' heq
    exact Or.inr ⟨l', rfl, hrest⟩
  · obtain ⟨rfl, hrest⟩ := cut_unique h ha heq
    exact Or.inl ⟨rfl, hrest⟩

/-- Induction over the parts of a list between the occurrences of an element. -/
lemma cut_induction {a : α} {P : List α → Prop} (hlast : ∀ l, a ∉ l → P l)
    (hcut : ∀ pre rest, a ∉ pre → P rest → P (pre ++ a :: rest)) (l : List α) : P l := by
  have hlen : ∀ (n : ℕ) (l : List α), l.length ≤ n → P l := by
    intro n
    induction n with
    | zero =>
      intro l hl
      rw [List.eq_nil_of_length_eq_zero (Nat.le_zero.mp hl)]
      exact hlast [] List.not_mem_nil
    | succ n ih =>
      intro l hl
      by_cases ha : a ∈ l
      · obtain ⟨pre, rest, rfl, hpre⟩ := List.eq_append_cons_of_mem ha
        refine hcut pre rest hpre (ih rest ?_)
        rw [List.length_append, List.length_cons] at hl
        omega
      · exact hlast l ha
  exact hlen l.length l le_rfl

/-- A prefix ends in front of an element or goes on behind it. -/
lemma prefix_append_cons {a : α} {l pre rest : List α} (h : l <+: pre ++ a :: rest) :
    l <+: pre ∨ ∃ l', l = pre ++ a :: l' ∧ l' <+: rest := by
  obtain ⟨t, ht⟩ := h
  rcases List.append_eq_append_iff.mp ht with ⟨s, hs, -⟩ | ⟨s, hs, hs'⟩
  · exact Or.inl ⟨s, hs.symm⟩
  · cases s with
    | nil =>
      rw [List.append_nil] at hs
      exact Or.inl ⟨[], by rw [hs, List.append_nil]⟩
    | cons b s =>
      rw [List.cons_append, List.cons.injEq] at hs'
      exact Or.inr ⟨s, by rw [hs, hs'.1], t, hs'.2.symm⟩

end Cut
end Sunet
