/-
# Labelled transition systems

A system is a step function: an action either leads to the next state or is not possible.
Properties of the states that runs reach are proved by the invariant rule, for all runs or
for the runs whose steps meet a condition.
-/
import Mathlib.Tactic

namespace Sunet
namespace Transition

variable {σ α : Type} (step : σ → α → Option σ)

/-- The state after a sequence of actions. -/
def run (s : σ) (as : List α) : Option σ := as.foldlM step s

/-- The states that are reached from `s₀` by steps that meet a condition on the state before
the step and the action. -/
inductive ReachableWhile (ok : σ → α → Prop) (s₀ : σ) : σ → Prop
  | init : ReachableWhile ok s₀ s₀
  | step {s s' : σ} {a : α} (h : ReachableWhile ok s₀ s) (hok : ok s a)
      (hstep : step s a = some s') : ReachableWhile ok s₀ s'

/-- The states that are reached from `s₀`. -/
abbrev Reachable (s₀ s : σ) : Prop := ReachableWhile step (fun _ _ => True) s₀ s

variable {step}

lemma run_cons {s t : σ} {a : α} {as : List α} (h : step s a = some t) :
    run step s (a :: as) = run step t as := by
  rw [run, List.foldlM_cons, h]
  rfl

lemma run_append {s t : σ} {as bs : List α} (h : run step s as = some t) :
    run step s (as ++ bs) = run step t bs := by
  rw [run] at h
  rw [run, List.foldlM_append, h]
  rfl

/-- The invariant rule for a run of actions that meet a condition. -/
theorem run_invariant {ok : α → Prop} {P : σ → Prop}
    (hstep : ∀ s a s', P s → ok a → step s a = some s' → P s') {s t : σ} {as : List α} (h : P s)
    (hok : ∀ a ∈ as, ok a) (hrun : run step s as = some t) : P t := by
  induction as generalizing s with
  | nil =>
    cases hrun
    exact h
  | cons a as ih =>
    rw [run, List.foldlM_cons, Option.bind_eq_bind, Option.bind_eq_some_iff] at hrun
    obtain ⟨s', hs, hrest⟩ := hrun
    exact ih (hstep s a s' h (hok a List.mem_cons_self) hs)
      (fun b hb => hok b (List.mem_cons_of_mem _ hb)) hrest

/-- All steps of a run are possible and have a property exactly if all states of the run meet a
condition, when this is so of the single steps from states that an invariant allows. -/
theorem run_iff {I : σ → Prop} {Q : σ → α → σ → Prop} {ok : σ → α → Prop}
    (hiff : ∀ s a, I s → ((∃ s', step s a = some s' ∧ Q s a s') ↔ ok s a))
    (hkeep : ∀ s a s', I s → step s a = some s' → Q s a s' → I s') {s : σ} (hs : I s)
    (as : List α) :
    (∀ pre a post, as = pre ++ a :: post →
        ∃ t t', run step s pre = some t ∧ step t a = some t' ∧ Q t a t') ↔
      ∀ pre a post t, as = pre ++ a :: post → run step s pre = some t → ok t a := by
  induction as generalizing s with
  | nil =>
    constructor
    · intro _ pre a post t h
      exact absurd h (by simp)
    · intro _ pre a post h
      exact absurd h (by simp)
  | cons b as ih =>
    constructor
    · intro h pre a post t has hrun
      obtain ⟨s₀, s', hs₀, hstep, hQ⟩ := h [] b as rfl
      obtain rfl := Option.some.inj hs₀
      cases pre with
      | nil =>
        obtain ⟨rfl, rfl⟩ := List.cons.inj has
        obtain rfl := Option.some.inj hrun
        exact (hiff s b hs).mp ⟨s', hstep, hQ⟩
      | cons b' pre =>
        obtain ⟨rfl, rfl⟩ := List.cons.inj has
        rw [run_cons hstep] at hrun
        refine (ih (hkeep s b s' hs hstep hQ)).mp ?_ pre a post t rfl hrun
        intro pre a post has
        have hcons := h (b :: pre) a post (by rw [has]; rfl)
        rwa [run_cons hstep] at hcons
    · intro h pre a post has
      obtain ⟨s', hstep, hQ⟩ := (hiff s b hs).mpr (h [] b as s rfl rfl)
      cases pre with
      | nil =>
        obtain ⟨rfl, rfl⟩ := List.cons.inj has
        exact ⟨s, s', rfl, hstep, hQ⟩
      | cons b' pre =>
        obtain ⟨rfl, rfl⟩ := List.cons.inj has
        rw [run_cons hstep]
        refine (ih (hkeep s b s' hs hstep hQ)).mpr ?_ pre a post rfl
        intro pre a post t has hrun
        exact h (b :: pre) a post t (by rw [has]; rfl) ((run_cons hstep).trans hrun)

/-- The invariant rule. -/
theorem ReachableWhile.invariant {ok : σ → α → Prop} {s₀ s : σ} {P : σ → Prop}
    (h : ReachableWhile step ok s₀ s) (hinit : P s₀)
    (hstep : ∀ s a s', P s → ok s a → step s a = some s' → P s') : P s := by
  induction h with
  | init => exact hinit
  | step _ hok hs ih => exact hstep _ _ _ ih hok hs

/-- The invariant rule, relative to what is known of all reachable states. -/
theorem ReachableWhile.invariant_of {ok : σ → α → Prop} {s₀ s : σ} {Q P : σ → Prop}
    (h : ReachableWhile step ok s₀ s) (hQ : ∀ s, Reachable step s₀ s → Q s) (hinit : P s₀)
    (hstep : ∀ s a s', Q s → Q s' → P s → ok s a → step s a = some s' → P s') : P s := by
  have hboth : Reachable step s₀ s ∧ P s := by
    refine h.invariant (P := fun s => Reachable step s₀ s ∧ P s) ⟨.init, hinit⟩ ?_
    rintro s a s' ⟨hreach, hP⟩ hok hs
    have hreach' : Reachable step s₀ s' := hreach.step trivial hs
    exact ⟨hreach', hstep s a s' (hQ s hreach) (hQ s' hreach') hP hok hs⟩
  exact hboth.2

theorem ReachableWhile.of_run {ok : σ → α → Prop} [∀ s a, Decidable (ok s a)] {s₀ s s' : σ}
    {as : List α} (h : ReachableWhile step ok s₀ s)
    (hrun : run (fun s a => if ok s a then step s a else none) s as = some s') :
    ReachableWhile step ok s₀ s' := by
  induction as generalizing s with
  | nil =>
    cases hrun
    exact h
  | cons a as ih =>
    rw [run, List.foldlM_cons, Option.bind_eq_bind, Option.bind_eq_some_iff] at hrun
    obtain ⟨t, ht, hrest⟩ := hrun
    split at ht
    · next hok => exact ih (h.step hok ht) hrest
    · cases ht

theorem reachable_of_run {s₀ s s' : σ} {as : List α} (h : Reachable step s₀ s)
    (hrun : run step s as = some s') : Reachable step s₀ s' := by
  refine h.of_run (?_ : run _ s as = some s')
  rw [← hrun]
  congr 1

end Transition
end Sunet
