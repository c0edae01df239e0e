/-
# Counting threads

How many threads are at a place with a given property, and how the number changes when one
thread moves or when several do.
-/
import Mathlib.Tactic

namespace Sunet

variable {θ π : Type} [Fintype θ]

/-- How many threads are at a place with a property. -/
def count (p : π → Bool) (f : θ → π) : ℕ := (Finset.univ.filter fun t => p (f t) = true).card

lemma count_pos_iff {p : π → Bool} {f : θ → π} : 0 < count p f ↔ ∃ t, p (f t) = true := by
  rw [count, Finset.card_pos]
  constructor
  · rintro ⟨t, ht⟩
    exact ⟨t, (Finset.mem_filter.mp ht).2⟩
  · rintro ⟨t, ht⟩
    exact ⟨t, Finset.mem_filter.mpr ⟨Finset.mem_univ t, ht⟩⟩

/-- One thread moves. -/
lemma count_update [DecidableEq θ] (p : π → Bool) (f : θ → π) (t : θ) (x : π) :
    count p (Function.update f t x) + (p (f t)).toNat = count p f + (p x).toNat := by
  have hsum : ∀ g : θ → π, count p g = ∑ t', (p (g t')).toNat := by
    intro g
    rw [count, Finset.card_filter]
    refine Finset.sum_congr rfl fun t' _ => ?_
    cases p (g t') <;> rfl
  rw [hsum, hsum, ← Finset.add_sum_erase _ _ (Finset.mem_univ t),
    ← Finset.add_sum_erase _ (fun t' => (p (f t')).toNat) (Finset.mem_univ t),
    Function.update_self]
  have hrest : ∑ t' ∈ Finset.univ.erase t, (p (Function.update f t x t')).toNat =
      ∑ t' ∈ Finset.univ.erase t, (p (f t')).toNat := by
    refine Finset.sum_congr rfl fun t' ht' => ?_
    rw [Function.update_of_ne (Finset.ne_of_mem_erase ht')]
  omega

/-- Several threads move, none of them away from the property and one of them to it. -/
lemma count_lt_count {p : π → Bool} {f g : θ → π} (h : ∀ t, p (f t) = true → p (g t) = true)
    {t : θ} (hf : p (f t) = false) (hg : p (g t) = true) : count p f < count p g := by
  refine Finset.card_lt_card (Finset.ssubset_iff_of_subset ?_ |>.mpr ⟨t, ?_, ?_⟩)
  · exact fun t' ht' =>
      Finset.mem_filter.mpr ⟨Finset.mem_univ t', h t' (Finset.mem_filter.mp ht').2⟩
  · exact Finset.mem_filter.mpr ⟨Finset.mem_univ t, hg⟩
  · intro ht
    rw [(Finset.mem_filter.mp ht).2] at hf
    cases hf

/-- Several threads move, and the property does not notice. -/
lemma count_congr {p : π → Bool} {f g : θ → π} (h : ∀ t, p (f t) = p (g t)) :
    count p f = count p g := by
  simp only [count, h]

end Sunet
