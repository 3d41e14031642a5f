import RdmaSync.Threads.Transition

/-!
This module contains systems whose steps may emit events, the traces of events that they emit, and the
simulation of one such system by another.
-/

namespace Refinement

open Threads

variable {Ev S A Act : Type}

/-- The steps of a system, each with the event that it emits if it emits one. -/
abbrev Emitting (Ev S : Type) := S → Option Ev → S → Prop

namespace Emitting

/-- The actions that meet a condition, where `emit` tells what can be seen of them. -/
def ofStep (step : Step S Act) (cond : S → Act → Prop) (emit : S → Act → Option Ev)
    : Emitting Ev S := fun s e s' =>
  ∃ a, cond s a ∧ step s a = some s' ∧ emit s a = e

inductive Trace (sys : Emitting Ev S) (s : S) : List Ev → S → Prop where
  | refl : Trace sys s [] s
  | next {tr : List Ev} {s' s'' : S} {e : Option Ev} (h : Trace sys s tr s') (hstep : sys s' e s'')
    : Trace sys s (tr ++ e.toList) s''

variable {sys : Emitting Ev S} {spec : Emitting Ev A} {s s' s'' : S} {a : A}

theorem Trace.one {e : Option Ev} (h : sys s e s') : sys.Trace s e.toList s' := by
  exact .next .refl h

theorem Trace.silent {tr : List Ev} (h : sys.Trace s tr s') (hstep : sys s' none s'')
    : sys.Trace s tr s'' := by
  have hnext := h.next hstep
  rwa [Option.toList_none, List.append_nil] at hnext

theorem Trace.trans {tr tr' : List Ev} (h : sys.Trace s tr s') (h' : sys.Trace s' tr' s'')
    : sys.Trace s (tr ++ tr') s'' := by
  induction h' with
  | refl => rwa [List.append_nil]
  | next _ hstep ih =>
    rw [← List.append_assoc]
    exact .next ih hstep

theorem Trace.invariant {I : S → Prop} {tr : List Ev} (h : sys.Trace s tr s') (hinit : I s)
    (hkeep : ∀ s e s', I s → sys s e s' → I s') : I s' := by
  induction h with
  | refl => exact hinit
  | next _ hstep ih => exact hkeep _ _ _ ih hstep

theorem exists_trace_of_reach {step : Step S Act} {cond : S → Act → Prop}
    {emit : S → Act → Option Ev} (h : step.Reach cond s s')
    : ∃ tr, (ofStep step cond emit).Trace s tr s' := by
  induction h with
  | refl => exact ⟨[], .refl⟩
  | next a _ hc hstep ih =>
    obtain ⟨tr, htrace⟩ := ih
    exact ⟨_, htrace.next ⟨a, hc, hstep, rfl⟩⟩

/-- From related states, the other system can emit what a step emits and become related again. -/
def Simulates (sys : Emitting Ev S) (spec : Emitting Ev A) (rel : S → A → Prop) : Prop :=
  ∀ s e s' a, rel s a → sys s e s' → ∃ a', spec.Trace a e.toList a' ∧ rel s' a'

theorem Simulates.trace {rel : S → A → Prop} {tr : List Ev} (h : sys.Simulates spec rel)
    (htrace : sys.Trace s tr s') (hrel : rel s a) : ∃ a', spec.Trace a tr a' ∧ rel s' a' := by
  induction htrace with
  | refl => exact ⟨a, .refl, hrel⟩
  | next _ hstep ih =>
    obtain ⟨a', htrace', hrel'⟩ := ih
    obtain ⟨a'', htrace'', hrel''⟩ := h _ _ _ _ hrel' hstep
    exact ⟨a'', htrace'.trans htrace'', hrel''⟩

end Emitting
end Refinement
