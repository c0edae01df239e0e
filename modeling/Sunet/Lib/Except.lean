/-
# Rules for computations in `Except`

What a sequence of checked steps says when it returns, and that it does not fail in a given
way when none of its steps does.
-/
import Mathlib.Tactic

namespace Sunet
namespace Except

variable {ε α β σ : Type}

lemma bind_eq_ok {x : Except ε α} {f : α → Except ε β} {b : β} :
    (x >>= f) = .ok b ↔ ∃ a, x = .ok a ∧ f a = .ok b := by
  cases x with
  | error e =>
    constructor
    · intro h
      cases h
    · rintro ⟨a, h, -⟩
      cases h
  | ok a =>
    constructor
    · intro h
      exact ⟨a, rfl, h⟩
    · rintro ⟨a', h, h'⟩
      cases h
      exact h'

@[simp] lemma ok_bind (a : α) (f : α → Except ε β) : (Except.ok a >>= f) = f a := rfl

@[simp] lemma error_bind (e : ε) (f : α → Except ε β) :
    ((Except.error e : Except ε α) >>= f) = .error e := rfl

lemma ite_eq_ok {c : Prop} [Decidable c] {x : Except ε α} {e : ε} {a : α} :
    (if c then x else .error e) = .ok a ↔ c ∧ x = .ok a := by
  split <;> simp [*]

/-- A sequence avoids an error that its parts avoid. -/
lemma bind_ne_error {x : Except ε α} {f : α → Except ε β} {e : ε} (hx : x ≠ .error e)
    (hf : ∀ a, x = .ok a → f a ≠ .error e) : (x >>= f) ≠ .error e := by
  cases x with
  | error e' =>
    intro h
    exact hx (by simpa using h)
  | ok a => exact hf a rfl

lemma foldlM_cons_eq_ok {f : σ → α → Except ε σ} {s s' : σ} {a : α} {l : List α} :
    (a :: l).foldlM f s = .ok s' ↔ ∃ t, f s a = .ok t ∧ l.foldlM f t = .ok s' := by
  rw [List.foldlM_cons, bind_eq_ok]

/-- A fold avoids an error when each of its steps does, from every state that an invariant of
the fold allows. -/
lemma foldlM_ne_error {f : σ → α → Except ε σ} {e : ε} (I : σ → Prop) :
    ∀ (l : List α) (s : σ), I s → (∀ s, I s → ∀ a ∈ l, f s a ≠ .error e) →
      (∀ s, I s → ∀ a ∈ l, ∀ s', f s a = .ok s' → I s') → l.foldlM f s ≠ .error e := by
  intro l
  induction l with
  | nil =>
    intro s _ _ _ h
    cases h
  | cons a l ih =>
    intro s hs hne hI
    rw [List.foldlM_cons]
    refine bind_ne_error (hne s hs a (by simp)) fun s' hs' => ?_
    refine ih s' (hI s hs a (by simp) s' hs') ?_ ?_
    · exact fun t ht b hb => hne t ht b (by simp [hb])
    · exact fun t ht b hb => hI t ht b (by simp [hb])

end Except
end Sunet
