/-!
This module contains transition systems whose actions are partial functions on states: the states
that runs reach, inductive invariants, and the execution of given actions.
-/

namespace Threads

variable {St Act : Type}

/-- What each action does to a state in which it is enabled. -/
abbrev Step (St Act : Type) := St → Act → Option St

namespace Step

/-- The states that runs from `s₀` reach, where every step of the run meets the condition `cond`. -/
inductive Reach (step : Step St Act) (cond : St → Act → Prop) (s₀ : St) : St → Prop where
  | refl : Reach step cond s₀ s₀
  | next {s s' : St} (a : Act) (h : Reach step cond s₀ s) (hc : cond s a)
    (hstep : step s a = some s') : Reach step cond s₀ s'

abbrev any (_ : St) (_ : Act) : Prop := True

def runIf (step : Step St Act) (cond : St → Act → Bool) (s : St) (as : List Act) : Option St :=
  match as with
  | [] => some s
  | a :: as =>
    if cond s a then
      match step s a with
      | some s' => runIf step cond s' as
      | none => none
    else
      none

def run (step : Step St Act) (s : St) (as : List Act) : Option St :=
  runIf step (fun _ _ => true) s as

variable {step : Step St Act} {cond cond' : St → Act → Prop} {s₀ s s' s'' : St}

theorem Reach.trans (h : Reach step cond s s') (h' : Reach step cond s' s'')
    : Reach step cond s s'' := by
  induction h' with
  | refl => exact h
  | next a _ hc hstep ih => exact .next a ih hc hstep

theorem Reach.mono (hcond : ∀ s a, cond s a → cond' s a) (h : Reach step cond s s')
    : Reach step cond' s s' := by
  induction h with
  | refl => exact .refl
  | next a _ hc hstep ih => exact .next a ih (hcond _ a hc) hstep

theorem Reach.invariant {I : St → Prop} (h : Reach step cond s₀ s) (hinit : I s₀)
    (hkeep : ∀ s a s', I s → cond s a → step s a = some s' → I s') : I s := by
  induction h with
  | refl => exact hinit
  | next a _ hc hstep ih => exact hkeep _ a _ ih hc hstep

theorem Reach.relation {R : St → St → Prop} (h : Reach step cond s₀ s) (hrefl : ∀ s, R s s)
    (htrans : ∀ {s s' s''}, R s s' → R s' s'' → R s s'')
    (hkeep : ∀ s a s', cond s a → step s a = some s' → R s s') : R s₀ s := by
  induction h with
  | refl => exact hrefl _
  | next a _ hc hstep ih => exact htrans ih (hkeep _ a _ hc hstep)

theorem reach_of_runIf {cond : St → Act → Bool} {as : List Act} (h : runIf step cond s as = some s')
    : Reach step (fun s a => cond s a = true) s s' := by
  induction as generalizing s with
  | nil =>
    simp only [runIf, Option.some.injEq] at h
    rw [h]
    exact .refl
  | cons a as ih =>
    simp only [runIf] at h
    split at h
    . next hc =>
      split at h
      . next s₁ hstep => exact (Reach.next a .refl hc hstep).trans (ih h)
      . simp at h
    . simp at h

theorem exists_reach_of_runIf {cond : St → Act → Bool} {as : List Act} {p : St → Bool}
    (h : (runIf step cond s as).any p = true)
    : ∃ s', Reach step (fun s a => cond s a = true) s s' ∧ p s' = true := by
  cases hrun : runIf step cond s as with
  | none => simp [hrun] at h
  | some s' => exact ⟨s', reach_of_runIf hrun, by simpa [hrun] using h⟩

theorem exists_reach_of_run {as : List Act} {p : St → Bool} (h : (run step s as).any p = true)
    : ∃ s', Reach step any s s' ∧ p s' = true := by
  obtain ⟨s', hreach, hp⟩ := exists_reach_of_runIf h
  exact ⟨s', hreach.mono fun _ _ _ => trivial, hp⟩

end Step
end Threads
