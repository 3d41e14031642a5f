import RdmaSync.WorkerPool.Jobs

/-!
This module contains what the pool guarantees for the jobs that are scheduled on it while it is not
destroyed.
-/

namespace WorkerPool

open Threads

variable {Job : Type}

namespace Owner

def free (o : Owner Job) : Bool :=
  match o with
  | .constructing | .idle | .returned .joinAll => true
  | _ => false

def destroys (o : Owner Job) : Bool :=
  match o with
  | .destroying | .announcing _ | .spinning | .destroyed => true
  | _ => false

variable {o o' : Owner Job} {n t t' : Nat} {spurious : Bool} {c c' : Cell Job}

theorem view_of_ne (h : o.target ≠ t) : o.view t = { settled := o.passed t } := by
  simp [view, h]

theorem view_joinFrom_of_le (h : t ≤ t') (ht : t' < n) : (joinFrom n t : Owner Job).view t' = {} := by
  simp only [joinFrom, show t < n by omega, ↓reduceIte]
  by_cases heq : t = t'
  . exact view_of_target (o := join t .locking) heq
  . simp [view, target, heq, passed, show ¬t' < t by omega]

theorem free_joinFrom : (joinFrom n t : Owner Job).free = true ∨ (joinFrom n t : Owner Job).target < n := by
  unfold joinFrom
  split
  . next h => exact .inr h
  . exact .inl rfl

theorem destroys_joinFrom : (joinFrom n t : Owner Job).destroys = false := by
  unfold joinFrom
  split <;> rfl

theorem stops_of_not_destroys (h : o.destroys = false) : o.stops = false := by
  cases o <;> simp_all [destroys, stops]

theorem Moves.free (hmoves : Moves n spurious c o o' c') (hdestroys : o.destroys = false)
    (h : o.free = true ∨ o.target < n) : o'.free = true ∨ o'.target < n := by
  cases hmoves with
  | @schedule _ _ _ _ _ next | @await _ _ _ _ next | @join _ _ _ next =>
    cases next <;> simpa [Owner.free, target] using h
  | @notify sync | @pass sync => cases sync <;> simpa [Owner.free, target] using h
  | joined => exact free_joinFrom
  | ret => exact .inl rfl
  | announce => simp [destroys] at hdestroys
  | skip => simp [destroys] at hdestroys
  | _ => simpa [Owner.free, target] using h

theorem Moves.destroys (hmoves : Moves n spurious c o o' c') (hdestroys : o.destroys = false)
    : o'.destroys = false := by
  cases hmoves with
  | @schedule _ _ _ _ _ next | @await _ _ _ _ next | @join _ _ _ next => cases next <;> rfl
  | @notify sync | @pass sync => cases sync <;> rfl
  | joined => exact destroys_joinFrom
  | announce => simp [Owner.destroys] at hdestroys
  | skip => simp [Owner.destroys] at hdestroys
  | _ => rfl

theorem Moves.view_of_ne (hmoves : Moves n spurious c o o' c') (ht : t < n) (htarget : o.target ≠ t)
    (hdestroys : o.destroys = false) : o'.view t = o.view t ∨ o'.view t = {} := by
  cases hmoves with
  | @schedule _ _ _ _ _ next | @await _ _ _ _ next | @join _ _ _ next =>
    left
    cases next <;> simp_all [view, target, passed]
  | @notify sync | @pass sync =>
    left
    cases sync <;> simp_all [view, target, passed]
  | @joined t' =>
    by_cases htt : t < t' + 1
    . left
      have hlt : t < t' := by
        simp only [target] at htarget
        omega
      rw [view_joinFrom htt, Owner.view_of_ne htarget]
      simp [passed, hlt]
    . right
      exact view_joinFrom_of_le (by omega) ht
  | ret => exact .inr view_idle
  | announce => simp [Owner.destroys] at hdestroys
  | skip => simp [Owner.destroys] at hdestroys
  | _ =>
    left
    simp_all [view, target, passed]

end Owner
namespace Cell

variable {o o' : Owner Job} {n t : Nat} {spurious : Bool} {c c₁ c₁' : Cell Job}

/-- A step of the owner on another worker. -/
theorem JobsOk.other (h : JobsOk (o.view t) c) (ht : t < n) (htarget : o.target ≠ t)
    (hmoves : Owner.Moves n spurious c₁ o o' c₁') (hdestroys : o.destroys = false)
    : JobsOk (o'.view t) c := by
  obtain heq | heq := hmoves.view_of_ne ht htarget hdestroys
  . rwa [heq]
  . rw [Owner.view_of_ne htarget] at h
    rw [heq]
    exact h.away

end Cell
namespace Pool

def isDestroy (a : Action Job) : Bool :=
  match a with
  | .call .destroy => true
  | _ => false

structure SchedulingOk (n : Nat) (s : Pool Job) : Prop where
  keepRunning : s.keepRunning = true
  owner : s.owner.destroys = false
  target : s.owner.free = true ∨ s.owner.target < n
  cells : ∀ t < n, (s.cell t).JobsOk (s.owner.view t)

variable {n t : Nat} {s s' : Pool Job} {a : Action Job}

theorem schedulingOk_created : SchedulingOk n (created : Pool Job) where
  keepRunning := rfl
  owner := rfl
  target := .inl rfl
  cells := by
    intro t _
    show Cell.JobsOk (Owner.constructing.view t) _
    rw [Owner.view_constructing]
    refine ⟨?_, ?_, ?_, ?_⟩ <;> constructor <;>
      simp [created, Monitor.free, Worker.holds, Worker.hasLeft, Worker.inJob, Worker.hasJob,
        Cell.pending]

theorem schedulingOk_step (h : SchedulingOk n s) (ha : isDestroy a = false)
    (hstep : step n s a = some s') : SchedulingOk n s' := by
  obtain ⟨hkeep, howner, htarget, hcells⟩ := h
  cases moves_of_step hstep with
  | @worker t _ _ c ht hmoves =>
    refine ⟨hkeep, howner, htarget, ?_⟩
    intro t' ht'
    by_cases htt : t' = t
    . subst htt
      rw [hkeep] at hmoves
      simpa using (hcells t' ht').worker hmoves
    . simpa [htt] using hcells t' ht'
  | call hidle hbegin =>
    simp only [hidle, Owner.view_idle] at hcells
    obtain ⟨sync, t, job, ht, rfl⟩ | rfl | ⟨rfl, _⟩ := Owner.begin_isCall hbegin
    . refine ⟨hkeep, rfl, .inr ht, ?_⟩
      intro t' ht'
      simpa only [Owner.view_schedule] using hcells t' ht'
    . refine ⟨hkeep, Owner.destroys_joinFrom, Owner.free_joinFrom, ?_⟩
      intro t' ht'
      simp only [Owner.view_joinFrom_of_le (Nat.zero_le t') ht']
      exact hcells t' ht'
    . simp [isDestroy] at ha
  | constructed hconstructing =>
    refine ⟨hkeep, rfl, .inl rfl, ?_⟩
    intro t ht
    simpa only [hconstructing, Owner.view_constructing, Owner.view_idle] using hcells t ht
  | destroy hdestroying => simp [hdestroying, Owner.destroys] at howner
  | destroyed hspinning => simp [hspinning, Owner.destroys] at howner
  | @owner _ _ o c hmoves =>
    refine ⟨hkeep, hmoves.destroys howner, hmoves.free howner htarget, ?_⟩
    intro t ht
    by_cases htt : s.owner.target = t
    . subst htt
      have hcell := hcells s.owner.target ht
      rw [Owner.view_of_target rfl] at hcell
      simpa using hcell.owner hmoves (Owner.stops_of_not_destroys howner)
    . simpa [Ne.symm htt] using (hcells t ht).other ht htt hmoves howner

theorem schedulingOk_of_reach
    (h : Step.Reach (step n) (fun _ a => isDestroy a = false) (created : Pool Job) s)
    : SchedulingOk n s :=
  h.invariant schedulingOk_created fun _ _ _ h ha hstep => schedulingOk_step h ha hstep

end Pool
end WorkerPool
