import Mathlib.Data.Fintype.Basic
import RdmaSync.Threads.Transition

/-!
This module contains a mutex with a condition variable, and the stages that a thread goes through when
it locks the mutex and waits for a predicate.
-/

namespace Threads

variable {P : Type}

structure Monitor (P : Type) where
  holder : Option P
  /-- The threads that are blocked and have not been notified. -/
  blocked : P → Bool

inductive Stage where
  | locking
  | testing
  | blocking
  | waiting
  deriving DecidableEq

namespace Stage

def holds (stage : Stage) : Bool :=
  match stage with
  | .testing | .blocking => true
  | .locking | .waiting => false

end Stage

namespace Monitor

def free : Monitor P where
  holder := none
  blocked := fun _ => false

variable [DecidableEq P] [Fintype P] (m : Monitor P) (me : P)

def lock : Option (Monitor P) :=
  match m.holder with
  | none => some { m with holder := some me }
  | some _ => none

def unlock : Monitor P :=
  { m with holder := none }

/-- Release the mutex and block, in one step. -/
def block : Monitor P where
  holder := none
  blocked := Function.update m.blocked me true

def wake (p : P) : Monitor P :=
  { m with blocked := Function.update m.blocked p false }

/-- `cv.notify_one()`, which wakes one blocked thread, or nobody if nobody is blocked. -/
def notifyOne (woken : Option P) : Option (Monitor P) :=
  match woken with
  | some p => if m.blocked p then some (m.wake p) else none
  | none => if ∀ p, m.blocked p = false then some m else none

/--
One step of `guard.lock(); cv.wait(guard, pred)`. The wait is over when there is no next stage. A
thread that is blocked only goes on if the wakeup is `spurious`.
-/
def await (pred spurious : Bool) (stage : Stage) : Option (Monitor P × Option Stage) :=
  match stage with
  | .locking => (m.lock me).map fun m => (m, some .testing)
  | .testing => some (m, if pred then none else some .blocking)
  | .blocking => some (m.block me, some .waiting)
  | .waiting => if m.blocked me && !spurious then none else some (m.wake me, some .locking)

inductive Awaits (pred spurious : Bool) : Stage → Monitor P → Option Stage → Prop where
  | lock (hfree : m.holder = none)
    : Awaits pred spurious .locking { m with holder := some me } (some .testing)
  | pass (hpred : pred = true) : Awaits pred spurious .testing m none
  | fail (hpred : pred = false) : Awaits pred spurious .testing m (some .blocking)
  | block : Awaits pred spurious .blocking (m.block me) (some .waiting)
  | wake (hwoken : m.blocked me = false ∨ spurious = true)
    : Awaits pred spurious .waiting (m.wake me) (some .locking)

variable {m me}

omit [Fintype P] in
theorem awaits_of_await {pred spurious : Bool} {stage : Stage} {m' : Monitor P}
    {next : Option Stage} (h : m.await me pred spurious stage = some (m', next))
    : m.Awaits me pred spurious stage m' next := by
  cases stage with
  | locking =>
    simp only [await, lock] at h
    split at h
    . next hfree =>
      simp only [Option.map_some, Option.some.injEq, Prod.mk.injEq] at h
      obtain ⟨rfl, rfl⟩ := h
      exact .lock hfree
    . simp at h
  | testing =>
    simp only [await, Option.some.injEq, Prod.mk.injEq] at h
    obtain ⟨rfl, rfl⟩ := h
    cases hpred : pred with
    | true => exact .pass rfl
    | false => exact .fail rfl
  | blocking =>
    simp only [await, Option.some.injEq, Prod.mk.injEq] at h
    obtain ⟨rfl, rfl⟩ := h
    exact .block
  | waiting =>
    simp only [await] at h
    split at h
    . simp at h
    . next hwoken =>
      simp only [Option.some.injEq, Prod.mk.injEq] at h
      obtain ⟨rfl, rfl⟩ := h
      apply Awaits.wake
      cases hblocked : m.blocked me <;> simp_all

theorem of_notifyOne {woken : Option P} {m' : Monitor P} (h : m.notifyOne woken = some m')
    : (∃ p, m.blocked p = true ∧ m' = m.wake p) ∨ (∀ p, m.blocked p = false) ∧ m' = m := by
  cases woken with
  | some p =>
    simp only [notifyOne] at h
    split at h
    . next hblocked => exact .inl ⟨p, hblocked, (Option.some.inj h).symm⟩
    . simp at h
  | none =>
    simp only [notifyOne] at h
    split at h
    . next hnone => exact .inr ⟨hnone, (Option.some.inj h).symm⟩
    . simp at h

theorem exists_notifyOne : ∃ woken m', m.notifyOne woken = some m' := by
  by_cases h : ∀ p, m.blocked p = false
  . exact ⟨none, m, by simp [notifyOne, h]⟩
  . obtain ⟨p, hblocked⟩ := not_forall.mp h
    exact ⟨some p, m.wake p, by simpa [notifyOne] using hblocked⟩

section Blocked

variable (m me)

omit [Fintype P]

omit [DecidableEq P] in
@[simp]
theorem blocked_unlock : m.unlock.blocked = m.blocked := by
  rfl

omit [DecidableEq P] in
@[simp]
theorem holder_unlock : m.unlock.holder = none := by
  rfl

@[simp]
theorem holder_block : (m.block me).holder = none := by
  rfl

@[simp]
theorem holder_wake : (m.wake me).holder = m.holder := by
  rfl

@[simp]
theorem blocked_block (p : P) : (m.block me).blocked p = (decide (p = me) || m.blocked p) := by
  by_cases h : p = me <;> simp [block, h]

@[simp]
theorem blocked_wake (p : P) : (m.wake me).blocked p = (!decide (p = me) && m.blocked p) := by
  by_cases h : p = me <;> simp [wake, h]

end Blocked

end Monitor
end Threads
