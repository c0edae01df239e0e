/-
# A mutex and the threads that hold it

The thread that a mutex is locked by, against the threads whose program counter says that
they have it.
-/
import Mathlib.Tactic

namespace Sunet

variable {θ : Type}

/-- The owner of the mutex is the thread that holds it. -/
def IsMutex (owner : Option θ) (holds : θ → Prop) : Prop := ∀ t, owner = some t ↔ holds t

namespace IsMutex

variable {owner : Option θ} {holds holds' : θ → Prop}

/-- No two threads hold a mutex. -/
lemma eq_of_holds (h : IsMutex owner holds) {t t' : θ} (ht : holds t) (ht' : holds t') :
    t = t' := by
  have hsame := ((h t).mpr ht).symm.trans ((h t').mpr ht')
  exact Option.some.inj hsame

/-- A step that neither locks nor unlocks. -/
lemma keep (h : IsMutex owner holds) (hsame : ∀ t, holds' t ↔ holds t) :
    IsMutex owner holds' :=
  fun t => (h t).trans (hsame t).symm

lemma lock (h : IsMutex owner holds) (hfree : owner = none) (t₀ : θ) (hself : holds' t₀)
    (hother : ∀ t, t ≠ t₀ → (holds' t ↔ holds t)) : IsMutex (some t₀) holds' := by
  intro t
  constructor
  · intro heq
    exact Option.some.inj heq ▸ hself
  · intro ht
    by_contra hne
    have ht₀ : t ≠ t₀ := fun heq => hne (by rw [heq])
    have hown := (h t).mpr ((hother t ht₀).mp ht)
    rw [hfree] at hown
    cases hown

lemma unlock (h : IsMutex owner holds) (t₀ : θ) (hold : holds t₀) (hself : ¬ holds' t₀)
    (hother : ∀ t, t ≠ t₀ → (holds' t ↔ holds t)) : IsMutex none holds' := by
  intro t
  constructor
  · intro heq
    cases heq
  · intro ht
    have ht₀ : t ≠ t₀ := fun heq => hself (heq ▸ ht)
    exact absurd (h.eq_of_holds ((hother t ht₀).mp ht) hold) ht₀

end IsMutex
end Sunet
