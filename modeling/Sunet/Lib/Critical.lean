/-
# Critical sections

Threads call a function that works on a shared state behind a mutex.  A call locks the mutex,
accesses the shared state step by step, unlocks the mutex and returns.  In every interleaving
the calls that have returned are those of a sequential run, in the order in which they
returned; so what holds of a call that nothing interrupts holds of every call.  A call that
waits for the mutex can be brought to its end, unless a section does not end: then it waits
for ever.
-/
import Sunet.Lib.Mutex
import Sunet.Lib.Transition

namespace Sunet
namespace Critical

open Transition

/-- What a call does between locking and unlocking. -/
structure Body (ι σ ℓ ρ : Type) where
  /-- The variables of the call behind the lock. -/
  start : ι → ℓ
  /-- The next access to the shared state, `none` in front of the unlocking. -/
  access : ℓ → σ → Option (ℓ × σ)
  /-- What is returned. -/
  result : ℓ → ρ

/-- A call that has returned. -/
structure Call (θ ι ρ : Type) where
  thread : θ
  arg : ι
  ret : ρ

variable {θ ι σ ℓ ρ : Type} {body : Body ι σ ℓ ρ}

/-! ## Calls that nothing interrupts -/

/-- The accesses of a call, one after the other. -/
inductive Body.Leads (body : Body ι σ ℓ ρ) (vars : ℓ) (shared : σ) : ℓ → σ → Prop
  | refl : Leads body vars shared vars shared
  | tail {vars' vars'' : ℓ} {shared' shared'' : σ} (h : Leads body vars shared vars' shared')
      (haccess : body.access vars' shared' = some (vars'', shared'')) :
      Leads body vars shared vars'' shared''

/-- A call from the lock to the unlocking. -/
def Body.Executes (body : Body ι σ ℓ ρ) (arg : ι) (shared : σ) (ret : ρ) (shared' : σ) : Prop :=
  ∃ vars, body.Leads (body.start arg) shared vars shared' ∧ body.access vars shared' = none ∧
    ret = body.result vars

/-- Calls one after the other. -/
inductive Body.Serial (body : Body ι σ ℓ ρ) (shared : σ) : List (Call θ ι ρ) → σ → Prop
  | nil : Serial body shared [] shared
  | concat {calls : List (Call θ ι ρ)} {shared' shared'' : σ} {call : Call θ ι ρ}
      (h : Serial body shared calls shared')
      (hcall : body.Executes call.arg shared' call.ret shared'') :
      Serial body shared (calls ++ [call]) shared''

lemma Body.Leads.head {vars vars' vars'' : ℓ} {shared shared' shared'' : σ}
    (haccess : body.access vars shared = some (vars', shared'))
    (h : body.Leads vars' shared' vars'' shared'') : body.Leads vars shared vars'' shared'' := by
  induction h with
  | refl => exact .tail .refl haccess
  | tail _ hlast ih => exact .tail ih hlast

/-- The first of the accesses, if there is one. -/
lemma Body.Leads.cases_head {vars vars' : ℓ} {shared shared' : σ}
    (h : body.Leads vars shared vars' shared') : (vars' = vars ∧ shared' = shared) ∨
      ∃ vars₁ shared₁, body.access vars shared = some (vars₁, shared₁) ∧
        body.Leads vars₁ shared₁ vars' shared' := by
  induction h with
  | refl => exact Or.inl ⟨rfl, rfl⟩
  | tail _ hlast ih =>
    rcases ih with ⟨rfl, rfl⟩ | ⟨vars₁, shared₁, hfirst, hrest⟩
    · exact Or.inr ⟨_, _, hlast, .refl⟩
    · exact Or.inr ⟨vars₁, shared₁, hfirst, .tail hrest hlast⟩

/-- A call that is on its way gets to the end of the call. -/
lemma Body.Leads.rest {vars vars' end' : ℓ} {shared shared' sharedEnd : σ}
    (h : body.Leads vars shared vars' shared') (hall : body.Leads vars shared end' sharedEnd)
    (hend : body.access end' sharedEnd = none) : body.Leads vars' shared' end' sharedEnd := by
  induction h with
  | refl => exact hall
  | tail _ hlast ih =>
    rcases ih.cases_head with ⟨rfl, rfl⟩ | ⟨vars₁, shared₁, hfirst, hrest⟩
    · rw [hend] at hlast
      cases hlast
    · -- there is only one way to go on
      rw [hlast] at hfirst
      obtain ⟨rfl, rfl⟩ := Prod.mk.inj (Option.some.inj hfirst)
      exact hrest

/-- What every call returns that nothing interrupts, all calls of a sequence return. -/
lemma Body.Serial.forall_ret {shared shared' : σ} {calls : List (Call θ ι ρ)}
    (h : body.Serial shared calls shared') {P : ι → ρ → Prop}
    (hP : ∀ arg shared ret shared', body.Executes arg shared ret shared' → P arg ret) :
    ∀ call ∈ calls, P call.arg call.ret := by
  induction h with
  | nil => simp
  | concat _ hcall ih =>
    intro call hmem
    rcases List.mem_append.mp hmem with hmem | hmem
    · exact ih call hmem
    · rw [List.mem_singleton] at hmem
      exact hmem ▸ hP _ _ _ _ hcall

/-! ## The threads -/

/-- Where a thread is. -/
inductive Pc (ι ℓ : Type)
  | outside
  /-- In a call, in front of the lock. -/
  | waiting (arg : ι)
  /-- In a call, between locking and unlocking. -/
  | inside (arg : ι) (vars : ℓ)

/-- The threads and what they share. -/
structure State (θ ι σ ℓ ρ : Type) where
  owner : Option θ
  shared : σ
  pc : θ → Pc ι ℓ
  returned : List (Call θ ι ρ)

/-- A step of a thread. -/
inductive Action (θ ι : Type)
  | call (t : θ) (arg : ι)
  | lock (t : θ)
  | access (t : θ)
  | unlock (t : θ)

/-- No thread is in a call. -/
def init (shared : σ) : State θ ι σ ℓ ρ := ⟨none, shared, fun _ => .outside, []⟩

variable [DecidableEq θ] (body)

def step (s : State θ ι σ ℓ ρ) : Action θ ι → Option (State θ ι σ ℓ ρ)
  | .call t arg =>
    match s.pc t with
    | .outside => some { s with pc := Function.update s.pc t (.waiting arg) }
    | _ => none
  | .lock t =>
    match s.pc t, s.owner with
    | .waiting arg, none => some { s with
        owner := some t, pc := Function.update s.pc t (.inside arg (body.start arg)) }
    | _, _ => none
  | .access t =>
    match s.pc t with
    | .inside arg vars => (body.access vars s.shared).map fun r =>
        { s with shared := r.2, pc := Function.update s.pc t (.inside arg r.1) }
    | _ => none
  | .unlock t =>
    match s.pc t with
    | .inside arg vars =>
      match body.access vars s.shared with
      | none => some { s with
          owner := none
          pc := Function.update s.pc t .outside
          returned := s.returned ++ [⟨t, arg, body.result vars⟩] }
      | some _ => none
    | _ => none

/-- The steps, one constructor for each way in which a step can go. -/
inductive Next (s : State θ ι σ ℓ ρ) : Action θ ι → State θ ι σ ℓ ρ → Prop
  | call {t : θ} {arg : ι} (hpc : s.pc t = .outside) :
      Next s (.call t arg) { s with pc := Function.update s.pc t (.waiting arg) }
  | lock {t : θ} {arg : ι} (hpc : s.pc t = .waiting arg) (hfree : s.owner = none) :
      Next s (.lock t) { s with
        owner := some t, pc := Function.update s.pc t (.inside arg (body.start arg)) }
  | access {t : θ} {arg : ι} {vars vars' : ℓ} {shared : σ} (hpc : s.pc t = .inside arg vars)
      (haccess : body.access vars s.shared = some (vars', shared)) :
      Next s (.access t)
        { s with shared := shared, pc := Function.update s.pc t (.inside arg vars') }
  | unlock {t : θ} {arg : ι} {vars : ℓ} (hpc : s.pc t = .inside arg vars)
      (hend : body.access vars s.shared = none) :
      Next s (.unlock t) { s with
        owner := none
        pc := Function.update s.pc t .outside
        returned := s.returned ++ [⟨t, arg, body.result vars⟩] }

variable {body}

lemma next_of_step {s s' : State θ ι σ ℓ ρ} {a : Action θ ι} (h : step body s a = some s') :
    Next body s a s' := by
  cases a with
  | call t arg =>
    simp only [step] at h
    split at h
    · next hpc =>
      cases h
      exact .call hpc
    · cases h
  | lock t =>
    simp only [step] at h
    split at h
    · next arg hpc hfree =>
      cases h
      exact .lock hpc hfree
    · cases h
  | access t =>
    simp only [step] at h
    split at h
    · next arg vars hpc =>
      obtain ⟨⟨vars', shared⟩, haccess, rfl⟩ := Option.map_eq_some_iff.mp h
      exact .access hpc haccess
    · cases h
  | unlock t =>
    simp only [step] at h
    split at h
    · next arg vars hpc =>
      split at h
      · next hend =>
        cases h
        exact .unlock hpc hend
      · cases h
    · cases h

/-! ## The invariant -/

/-- The thread is between locking and unlocking. -/
def State.Inside (s : State θ ι σ ℓ ρ) (t : θ) : Prop := ∃ arg vars, s.pc t = .inside arg vars

/-- The calls that have returned are a sequential run, and the thread that holds the mutex is
on its way from where that run has ended. -/
structure Inv (body : Body ι σ ℓ ρ) (shared : σ) (s : State θ ι σ ℓ ρ) : Prop where
  mutex : IsMutex s.owner s.Inside
  serial : ∃ free, body.Serial shared s.returned free ∧ (s.owner = none → s.shared = free) ∧
    ∀ t arg vars, s.pc t = .inside arg vars → body.Leads (body.start arg) free vars s.shared

omit [DecidableEq θ] in
lemma inv_init (body : Body ι σ ℓ ρ) (shared : σ) :
    Inv body shared (init shared : State θ ι σ ℓ ρ) where
  mutex := by
    intro t
    constructor
    · intro h
      cases h
    · rintro ⟨arg, vars, h⟩
      cases h
  serial := by
    refine ⟨shared, .nil, fun _ => rfl, ?_⟩
    intro t arg vars h
    cases h

/-- The other threads are where they were. -/
lemma inside_update_of_ne {s : State θ ι σ ℓ ρ} {t t' : θ} (hne : t' ≠ t) (pc : Pc ι ℓ) :
    (∃ arg vars, Function.update s.pc t pc t' = .inside arg vars) ↔ s.Inside t' := by
  rw [Function.update_of_ne hne, State.Inside]

lemma Inv.next {shared : σ} {s s' : State θ ι σ ℓ ρ} {a : Action θ ι} (h : Inv body shared s)
    (hstep : Next body s a s') : Inv body shared s' := by
  obtain ⟨free, hserial, hfree, hinside⟩ := h.serial
  cases hstep with
  | @call t arg hpc =>
    -- a thread that waits is not inside, before and after
    have hself : ∀ u, (∃ arg' vars, Function.update s.pc t (.waiting arg) u = .inside arg' vars) ↔
        s.Inside u := by
      intro u
      by_cases hu : u = t
      · rw [hu, Function.update_self, State.Inside, hpc]
        simp
      · exact inside_update_of_ne hu _
    refine ⟨h.mutex.keep hself, free, hserial, hfree, ?_⟩
    intro u arg' vars hu
    by_cases hut : u = t
    · rw [hut] at hu
      change Function.update s.pc t _ t = _ at hu
      rw [Function.update_self] at hu
      cases hu
    · change Function.update s.pc t _ u = _ at hu
      rw [Function.update_of_ne hut] at hu
      exact hinside u arg' vars hu
  | @lock t arg hpc hnone =>
    refine ⟨h.mutex.lock hnone t ⟨arg, body.start arg, Function.update_self _ _ _⟩
      fun u hu => inside_update_of_ne hu _, free, hserial, (fun hsome => by cases hsome), ?_⟩
    intro u arg' vars hu
    change Function.update s.pc t _ u = _ at hu
    by_cases hut : u = t
    · rw [hut, Function.update_self] at hu
      cases hu
      rw [hfree hnone]
      exact .refl
    · rw [Function.update_of_ne hut] at hu
      have howner := (h.mutex u).mpr ⟨arg', vars, hu⟩
      rw [hnone] at howner
      cases howner
  | @access t arg vars vars' shared' hpc haccess =>
    have howner : s.owner = some t := (h.mutex t).mpr ⟨arg, vars, hpc⟩
    have hself : ∀ u, (∃ arg₀ vars₀,
        Function.update s.pc t (.inside arg vars') u = .inside arg₀ vars₀) ↔ s.Inside u := by
      intro u
      by_cases hu : u = t
      · rw [hu, Function.update_self, State.Inside, hpc]
        simp
      · exact inside_update_of_ne hu _
    refine ⟨h.mutex.keep hself, free, hserial, ?_, ?_⟩
    · intro hnone
      change s.owner = none at hnone
      rw [howner] at hnone
      cases hnone
    · intro u arg₀ vars₀ hu
      change Function.update s.pc t _ u = _ at hu
      by_cases hut : u = t
      · rw [hut, Function.update_self] at hu
        cases hu
        exact .tail (hinside t arg vars hpc) haccess
      · rw [Function.update_of_ne hut] at hu
        exact absurd (h.mutex.eq_of_holds ⟨arg₀, vars₀, hu⟩ ⟨arg, vars, hpc⟩) hut
  | @unlock t arg vars hpc hend =>
    have hout : ¬ ∃ arg₀ vars₀, Function.update s.pc t .outside t = .inside arg₀ vars₀ := by
      rw [Function.update_self]
      simp
    refine ⟨h.mutex.unlock t ⟨arg, vars, hpc⟩ hout fun u hu => inside_update_of_ne hu _,
      s.shared, ?_, fun _ => rfl, ?_⟩
    · exact .concat hserial ⟨vars, hinside t arg vars hpc, hend, rfl⟩
    · intro u arg₀ vars₀ hu
      change Function.update s.pc t _ u = _ at hu
      by_cases hut : u = t
      · exact absurd ⟨arg₀, vars₀, hut ▸ hu⟩ hout
      · rw [Function.update_of_ne hut] at hu
        exact absurd (h.mutex.eq_of_holds ⟨arg₀, vars₀, hu⟩ ⟨arg, vars, hpc⟩) hut

/-- **Calls take effect one after the other.** -/
theorem inv_of_reachable {shared : σ} {s : State θ ι σ ℓ ρ}
    (h : Reachable (step body) (init shared) s) : Inv body shared s :=
  h.invariant (inv_init body shared) fun _ _ _ hinv _ hstep => hinv.next (next_of_step hstep)

/-! ## A section that does not end -/

/-- While a thread stays where it is between locking and unlocking, nothing is changed, no call
returns, and the threads that wait for the mutex go on waiting. -/
lemma Inv.stay {shared : σ} {s s' : State θ ι σ ℓ ρ} {as : List (Action θ ι)}
    (h : Inv body shared s) {t : θ} {arg : ι} {vars : ℓ} (hpc : s.pc t = .inside arg vars)
    (hloop : body.access vars s.shared = some (vars, s.shared))
    (hrun : run (step body) s as = some s') :
    s'.pc t = .inside arg vars ∧ s'.shared = s.shared ∧ s'.returned = s.returned ∧
      ∀ u arg', s.pc u = .waiting arg' → s'.pc u = .waiting arg' := by
  have hboth : Inv body shared s' ∧ s'.pc t = .inside arg vars ∧ s'.shared = s.shared ∧
      s'.returned = s.returned ∧ ∀ u arg', s.pc u = .waiting arg' → s'.pc u = .waiting arg' := by
    refine run_invariant (P := fun s' => Inv body shared s' ∧ s'.pc t = .inside arg vars ∧
      s'.shared = s.shared ∧ s'.returned = s.returned ∧
        ∀ u arg', s.pc u = .waiting arg' → s'.pc u = .waiting arg') (fun s₁ a s₂ hs₁ _ hstep => ?_)
      ⟨h, hpc, rfl, rfl, fun _ _ hu => hu⟩ (fun _ _ => trivial) hrun
    obtain ⟨hinv, hpc₁, hshared, hreturned, hwait⟩ := hs₁
    have hnext := next_of_step hstep
    refine ⟨hinv.next hnext, ?_⟩
    have howner : s₁.owner = some t := (hinv.mutex t).mpr ⟨arg, vars, hpc₁⟩
    -- a step of a thread that does not wait
    have hkeep : ∀ u pc, (∀ arg', s₁.pc u ≠ .waiting arg') → ∀ v arg', s.pc v = .waiting arg' →
        Function.update s₁.pc u pc v = .waiting arg' := by
      intro u pc hu v arg' hv
      have hvu : v ≠ u := by
        rintro rfl
        exact hu arg' (hwait v arg' hv)
      exact (Function.update_of_ne hvu _ _).trans (hwait v arg' hv)
    cases hnext with
    | @call u arg' hu =>
      have hne : t ≠ u := by
        rintro rfl
        rw [hpc₁] at hu
        cases hu
      exact ⟨(Function.update_of_ne hne _ _).trans hpc₁, hshared, hreturned,
        hkeep u _ (by simp [hu])⟩
    | lock _ hfree =>
      rw [howner] at hfree
      cases hfree
    | @access u arg' vars₁ vars₂ shared₂ hu haccess =>
      obtain rfl := hinv.mutex.eq_of_holds ⟨arg', vars₁, hu⟩ ⟨arg, vars, hpc₁⟩
      obtain ⟨rfl, rfl⟩ := Pc.inside.inj (hu.symm.trans hpc₁)
      rw [hshared, hloop] at haccess
      obtain ⟨rfl, rfl⟩ := Prod.mk.inj (Option.some.inj haccess)
      exact ⟨Function.update_self _ _ _, rfl, hreturned, hkeep u _ (by simp [hu])⟩
    | @unlock u arg' vars₁ hu hend =>
      obtain rfl := hinv.mutex.eq_of_holds ⟨arg', vars₁, hu⟩ ⟨arg, vars, hpc₁⟩
      obtain ⟨rfl, rfl⟩ := Pc.inside.inj (hu.symm.trans hpc₁)
      rw [hshared, hloop] at hend
      cases hend
  exact hboth.2

/-! ## No call waits for ever -/

/-- Steps of the threads that are in a call. -/
def NoCall (as : List (Action θ ι)) : Prop := ∀ t arg, .call t arg ∉ as

omit [DecidableEq θ] in
lemma NoCall.append {as bs : List (Action θ ι)} (ha : NoCall as) (hb : NoCall bs) :
    NoCall (as ++ bs) := by
  intro t arg hmem
  rcases List.mem_append.mp hmem with hmem | hmem
  · exact ha t arg hmem
  · exact hb t arg hmem

/-- A thread that is inside does its accesses and returns. -/
lemma exists_run_unlock {s : State θ ι σ ℓ ρ} {t : θ} {arg : ι} {vars vars' : ℓ} {shared : σ}
    (hpc : s.pc t = .inside arg vars) (hleads : body.Leads vars s.shared vars' shared)
    (hend : body.access vars' shared = none) :
    ∃ as, NoCall as ∧ run (step body) s as = some
      { owner := none
        shared := shared
        pc := Function.update s.pc t .outside
        returned := s.returned ++ [⟨t, arg, body.result vars'⟩] } := by
  have hacc : ∃ as, NoCall as ∧ run (step body) s as = some
      { s with shared := shared, pc := Function.update s.pc t (.inside arg vars') } := by
    clear hend
    induction hleads with
    | refl =>
      refine ⟨[], by simp [NoCall], ?_⟩
      rw [← hpc, Function.update_eq_self]
      rfl
    | tail _ haccess ih =>
      obtain ⟨as, hno, hrun⟩ := ih
      refine ⟨as ++ [.access t], hno.append (by simp [NoCall]), ?_⟩
      rw [run_append hrun, run_cons]
      · rfl
      · simp only [step, Function.update_self, haccess, Option.map_some, Function.update_idem]
  obtain ⟨as, hno, hrun⟩ := hacc
  refine ⟨as ++ [.unlock t], hno.append (by simp [NoCall]), ?_⟩
  rw [run_append hrun, run_cons]
  · rfl
  · simp only [step, Function.update_self, hend, Function.update_idem]

/-- **A call that waits can be brought to its end** by steps of threads that are in a call, if
neither its section nor the one that a thread is in goes on for ever. -/
theorem Inv.exists_return {shared : σ} {s : State θ ι σ ℓ ρ} (h : Inv body shared s) {t : θ}
    {arg : ι} (hpc : s.pc t = .waiting arg)
    (hends : ∀ shared, ∃ ret shared', body.Executes arg shared ret shared')
    (hinsides : ∀ u arg' vars, s.pc u = .inside arg' vars →
      ∀ shared, ∃ ret shared', body.Executes arg' shared ret shared') :
    ∃ as s' ret, NoCall as ∧ run (step body) s as = some s' ∧ s'.pc t = .outside ∧
      ⟨t, arg, ret⟩ ∈ s'.returned := by
  -- from a state in which the mutex is free
  have hlock : ∀ s : State θ ι σ ℓ ρ, s.owner = none → s.pc t = .waiting arg →
      ∃ as s' ret, NoCall as ∧ run (step body) s as = some s' ∧ s'.pc t = .outside ∧
        ⟨t, arg, ret⟩ ∈ s'.returned := by
    intro s hfree hwait
    obtain ⟨ret, shared', vars, hleads, hend, rfl⟩ := hends s.shared
    obtain ⟨locked, hlocked⟩ : ∃ locked : State θ ι σ ℓ ρ, locked = { s with
      owner := some t, pc := Function.update s.pc t (.inside arg (body.start arg)) } := ⟨_, rfl⟩
    have hpc' : locked.pc t = .inside arg (body.start arg) := by
      rw [hlocked]
      exact Function.update_self _ _ _
    have hleads' : body.Leads (body.start arg) locked.shared vars shared' := by
      rw [hlocked]
      exact hleads
    obtain ⟨as, hno, hrun⟩ := exists_run_unlock hpc' hleads' hend
    refine ⟨.lock t :: as, _, body.result vars, ?_, (run_cons ?_).trans hrun,
      Function.update_self _ _ _, List.mem_append_right _ (List.mem_singleton_self _)⟩
    · intro u arg' hmem
      rcases List.mem_cons.mp hmem with hmem | hmem
      · cases hmem
      · exact hno u arg' hmem
    · simp only [step, hwait, hfree, hlocked]
  cases howner : s.owner with
  | none => exact hlock s howner hpc
  | some u =>
    -- the thread that holds the mutex returns first
    obtain ⟨arg', vars, hu⟩ := (h.mutex u).mp howner
    obtain ⟨free, -, -, hinside⟩ := h.serial
    obtain ⟨ret, shared', vars', hall, hend, -⟩ := hinsides u arg' vars hu free
    have hrest := (hinside u arg' vars hu).rest hall hend
    obtain ⟨as, hno, hrun⟩ := exists_run_unlock hu hrest hend
    have hne : t ≠ u := by
      rintro rfl
      rw [hpc] at hu
      cases hu
    have hwait : Function.update s.pc u .outside t = .waiting arg := by
      rw [Function.update_of_ne hne]
      exact hpc
    obtain ⟨as', s', ret', hno', hrun', hout, hmem⟩ := hlock ⟨none, shared',
      Function.update s.pc u .outside, s.returned ++ [⟨u, arg', body.result vars'⟩]⟩ rfl hwait
    exact ⟨as ++ as', s', ret', hno.append hno', (run_append hrun).trans hrun', hout, hmem⟩

end Critical
end Sunet
