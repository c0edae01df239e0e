/-
# Prefix codes and the order of strings

Where no code word is the beginning of another one, the order of two code words decides the
order of all strings that start with them.
-/
import Mathlib.Tactic

namespace Sunet
namespace PrefixCode

variable {α : Type} [LT α]

/-- No word of the code is a beginning of another one. -/
def IsPrefixCode (S : List α → Prop) : Prop := ∀ w w', S w → S w' → w <+: w' → w = w'

/-- A string is smaller than its continuations. -/
lemma lt_append {x : List α} (p : List α) (hx : x ≠ []) : p < p ++ x := by
  induction p with
  | nil =>
    obtain ⟨a, x, rfl⟩ := List.exists_cons_of_ne_nil hx
    exact List.nil_lt_cons a x
  | cons a p ih => exact List.cons_lt_cons_iff.mpr (Or.inr ⟨rfl, ih⟩)

/-- Two strings that differ before the end of the smaller one keep their order whatever
follows them. -/
lemma append_lt_append_of_not_prefix {w w' : List α} (h : w < w') (hpre : ¬ w <+: w')
    (x y : List α) : w ++ x < w' ++ y := by
  induction w generalizing w' with
  | nil => exact absurd (List.nil_prefix) hpre
  | cons a w ih =>
    cases w' with
    | nil => exact absurd h (List.not_lt_nil _)
    | cons b w' =>
      rw [List.cons_append, List.cons_append, List.cons_lt_cons_iff]
      rcases List.cons_lt_cons_iff.mp h with hab | ⟨rfl, hlt⟩
      · exact Or.inl hab
      · refine Or.inr ⟨rfl, ih hlt fun hp => hpre ?_⟩
        exact List.cons_prefix_cons.mpr ⟨rfl, hp⟩

lemma IsPrefixCode.append_lt_append [Std.Irrefl (fun a b : α => a < b)] {S : List α → Prop}
    (hS : IsPrefixCode S) {w w' : List α} (hw : S w) (hw' : S w') (h : w < w') (x y : List α) :
    w ++ x < w' ++ y := by
  refine append_lt_append_of_not_prefix h (fun hpre => ?_) x y
  rw [hS w w' hw hw' hpre] at h
  exact List.lt_irrefl w' h

end PrefixCode
end Sunet
