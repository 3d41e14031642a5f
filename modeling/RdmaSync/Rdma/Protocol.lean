import RdmaSync.Rdma.Discipline

/-!
This module contains protocols: which events a worker may cause on shared memory in which state, and
the invariant that all workers keep together as long as they follow the protocol.
-/

namespace Rdma

variable {W κ β ε α Op : Type}

/--
An abstract protocol on the shared memory. `guard` is assumed of the steps of a run, `permit` is what
each worker has to show before it causes an event, `inv` is what everybody may rely on.
-/
structure Protocol (W β Op : Type) where
  inv : Shared W β Op → Prop
  guard : Shared W β Op → Event W β Op → Prop
  permit : Shared W β Op → Event W β Op → Prop
  inv_push : ∀ {s : Shared W β Op} {e : Event W β Op},
    inv s → guard s e → permit s e → inv (s.push e)

namespace Protocol

variable (P : Protocol W β Op) (w : W)

/-- What the other workers may do to the shared memory while `w` does nothing. -/
inductive Rely : Shared W β Op → Shared W β Op → Prop where
  | refl (s : Shared W β Op) : Rely s s
  | step {s s' : Shared W β Op} {e : Event W β Op} (h : Rely s s') (hinv : P.inv s')
    (hguard : P.guard s' e) (hpermit : P.permit s' e) (hw : e.worker ≠ w) : Rely s (s'.push e)

def Stable (A : Shared W β Op → Prop) : Prop :=
  ∀ ⦃s : Shared W β Op⦄ ⦃e : Event W β Op⦄,
    P.inv s → P.guard s e → P.permit s e → e.worker ≠ w → A s → A (s.push e)

variable {P w}

theorem Rely.trans {s s' s'' : Shared W β Op} (h : P.Rely w s s') (h' : P.Rely w s' s'')
    : P.Rely w s s'' := by
  induction h' with
  | refl => exact h
  | step _ hinv hguard hpermit hw ih => exact .step ih hinv hguard hpermit hw

theorem Rely.hist_length {s s' : Shared W β Op} (h : P.Rely w s s')
    : s.hist.length ≤ s'.hist.length := by
  induction h with
  | refl => exact Nat.le_refl _
  | step => simp only [Shared.push_hist, List.length_cons]; omega

theorem Rely.past {s s' : Shared W β Op} (h : P.Rely w s s') : s.Past s' := by
  induction h with
  | refl => exact .refl _
  | step _ _ _ _ _ ih => exact ih.push _

theorem Stable.rely {A : Shared W β Op → Prop} (hA : P.Stable w A) {s s' : Shared W β Op}
    (h : P.Rely w s s') (hs : A s) : A s' := by
  induction h with
  | refl => exact hs
  | step _ hinv hguard hpermit hw ih => exact hA hinv hguard hpermit hw ih

theorem stable_const (p : Prop) : P.Stable w (fun _ => p) := by
  intro _ _ _ _ _ _ h
  exact h

end Protocol
end Rdma
