import Mathlib.Data.Nat.Bitwise
import RdmaSync.Threads.Logic

/-!
This module contains the hybrid latch: a version counter together with a shared mutex, and the calls
that threads make to it.
-/

namespace SyncPrimitives

open Threads

abbrev Version := BitVec 64

def isLatched (version : Version) : Bool :=
  version &&& 0b10 == 0b10

theorem isLatched_eq (version : Version)
    : isLatched version = decide (version.toNat / 2 % 2 = 1) := by
  have hand : (version &&& 0b10).toNat = (version.toNat.testBit 1).toNat * 2 := by
    simpa using Nat.and_two_pow version.toNat 1
  simp only [isLatched, beq_eq_decide, BitVec.toNat_eq, hand, Nat.testBit_eq_decide_div_mod_eq]
  by_cases h : version.toNat / 2 ^ 1 % 2 = 1 <;> simp_all

structure HybridLatch (T : Type) where
  version : Version
  /-- The thread that holds `smut` exclusively. -/
  exclusive : Option T
  /-- The threads that hold `smut` shared, once for each time. -/
  shared : List T
  acquired : List T
  /-- The number of stores to the version. -/
  stores : Nat

namespace HybridLatch

variable {T : Type} [DecidableEq T]

def created : HybridLatch T where
  version := 0b100
  exclusive := none
  shared := []
  acquired := []
  stores := 0

section Smut

variable (me : T)

def isFree (l : HybridLatch T) : Bool :=
  l.exclusive.isNone && l.shared.isEmpty

def acquire (l : HybridLatch T) : HybridLatch T :=
  { l with exclusive := some me, acquired := me :: l.acquired }

def share (l : HybridLatch T) : HybridLatch T :=
  { l with shared := me :: l.shared }

def lock : Prog (HybridLatch T) Unit :=
  .await isFree (acquire me)

def tryLock : Prog (HybridLatch T) Bool :=
  .attempt isFree (acquire me)

def unlock : Prog (HybridLatch T) Unit :=
  .store fun l => { l with exclusive := none }

def lockShared : Prog (HybridLatch T) Unit :=
  .await (·.exclusive.isNone) (share me)

def tryLockShared : Prog (HybridLatch T) Bool :=
  .attempt (·.exclusive.isNone) (share me)

def unlockShared : Prog (HybridLatch T) Unit :=
  .store fun l => { l with shared := l.shared.erase me }

end Smut

def loadVersion : Prog (HybridLatch T) Version :=
  .load (·.version)

def storeVersion (v : Version) : Prog (HybridLatch T) Unit :=
  .store fun l => { l with version := v, stores := l.stores + 1 }

variable (me : T)

def latchShared : Prog (HybridLatch T) Unit := do
  lockShared me
  .ensure (!isLatched (← loadVersion))

def unlatchShared : Prog (HybridLatch T) Unit :=
  unlockShared me

def latchExclusive : Prog (HybridLatch T) Unit := do
  lock me
  let v ← loadVersion
  storeVersion (v + 0b10)
  .ensure (isLatched (← loadVersion))

def unlatchExclusive : Prog (HybridLatch T) Unit := do
  .ensure (isLatched (← loadVersion))
  let v ← loadVersion
  storeVersion (v + 0b10)
  .ensure (!isLatched (← loadVersion))
  unlock

def tryDowngradeExclusiveToShared : Prog (HybridLatch T) Bool := do
  .ensure (isLatched (← loadVersion))
  let v ← loadVersion
  storeVersion (v + 0b10)
  .ensure (!isLatched (← loadVersion))
  unlock
  latchShared me
  if v + 0b10 != (← loadVersion) then
    unlatchShared me
    return false
  else
    return true

def tryLatchExclusive : Prog (HybridLatch T) Bool := do
  if !(← tryLock me) then
    return false
  else
    let v ← loadVersion
    storeVersion (v + 0b10)
    return true

def tryLatchShared : Prog (HybridLatch T) Bool :=
  tryLockShared me

def downgradeExclusiveToOptimistic : Prog (HybridLatch T) Version := do
  let v ← loadVersion
  unlatchExclusive
  return v + 0b10

def downgradeSharedToOptimistic : Prog (HybridLatch T) Version := do
  let v ← loadVersion
  unlatchShared me
  return v

def optimisticUpgradeToShared (startRead : Version) : Prog (HybridLatch T) Bool := do
  let v ← loadVersion
  if isLatched v then
    return false
  else if v != startRead then
    return false
  else if !(← tryLatchShared me) then
    return false
  else if (← loadVersion) == startRead then
    return true
  else
    unlatchShared me
    return false

def optimisticUpgradeToExclusive (startRead : Version) : Prog (HybridLatch T) Bool := do
  let v ← loadVersion
  if v != startRead then
    return false
  else if !(← tryLatchExclusive me) then
    return false
  else if startRead + 0b10 != (← loadVersion) then
    .ensure (isLatched (← loadVersion))
    unlatchExclusive
    return false
  else
    .ensure (isLatched (← loadVersion))
    return true

def optimisticLatchOrRestart : Prog (HybridLatch T) (Option Version) := do
  let v ← loadVersion
  if isLatched v then
    return none
  else
    return some v

def optimisticReadUnlatchOrRestart (startRead : Version) : Prog (HybridLatch T) Bool := do
  return startRead == (← loadVersion)

inductive Call where
  | latchShared
  | unlatchShared
  | latchExclusive
  | unlatchExclusive
  | tryDowngradeExclusiveToShared
  | tryLatchExclusive
  | tryLatchShared
  | downgradeExclusiveToOptimistic
  | downgradeSharedToOptimistic
  | optimisticUpgradeToShared (startRead : Version)
  | optimisticUpgradeToExclusive (startRead : Version)
  | optimisticLatchOrRestart
  | optimisticReadUnlatchOrRestart (startRead : Version)
  deriving DecidableEq

inductive Result where
  | done
  | answer (b : Bool)
  | version (v : Option Version)
  deriving DecidableEq

def body (call : Call) : Prog (HybridLatch T) Result :=
  match call with
  | .latchShared => do latchShared me; return .done
  | .unlatchShared => do unlatchShared me; return .done
  | .latchExclusive => do latchExclusive me; return .done
  | .unlatchExclusive => do unlatchExclusive; return .done
  | .tryDowngradeExclusiveToShared => do return .answer (← tryDowngradeExclusiveToShared me)
  | .tryLatchExclusive => do return .answer (← tryLatchExclusive me)
  | .tryLatchShared => do return .answer (← tryLatchShared me)
  | .downgradeExclusiveToOptimistic => do return .version (some (← downgradeExclusiveToOptimistic))
  | .downgradeSharedToOptimistic => do return .version (some (← downgradeSharedToOptimistic me))
  | .optimisticUpgradeToShared startRead => do
    return .answer (← optimisticUpgradeToShared me startRead)
  | .optimisticUpgradeToExclusive startRead => do
    return .answer (← optimisticUpgradeToExclusive me startRead)
  | .optimisticLatchOrRestart => do return .version (← optimisticLatchOrRestart)
  | .optimisticReadUnlatchOrRestart startRead => do
    return .answer (← optimisticReadUnlatchOrRestart startRead)

/-- Threads release only what they hold. -/
def mayCall (call : Call) (l : HybridLatch T) : Bool :=
  match call with
  | .unlatchShared | .downgradeSharedToOptimistic => me ∈ l.shared
  | .unlatchExclusive | .tryDowngradeExclusiveToShared | .downgradeExclusiveToOptimistic =>
    l.exclusive = some me
  | _ => true

def interface : Interface T (HybridLatch T) Call Result where
  body := body
  mayCall := mayCall

end HybridLatch
end SyncPrimitives
