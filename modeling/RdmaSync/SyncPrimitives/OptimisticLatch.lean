import RdmaSync.SyncPrimitives.HybridLatch

/-!
This module contains the optimistic latch, whose lock bit, obsolete bit and version share one word, and
the protocol that the calls to it keep to.
-/

namespace SyncPrimitives

open Threads

structure OptimisticLatch (T : Type) where
  typeVersionLockObsolete : Version
  /-- The threads that have acquired the latch and not released it. -/
  holders : List T
  changes : Nat
  obsolete : Bool

namespace OptimisticLatch

variable {T : Type}

def created : OptimisticLatch T where
  typeVersionLockObsolete := 0b100
  holders := []
  changes := 0
  obsolete := false

def load : Prog (OptimisticLatch T) Version :=
  .load (·.typeVersionLockObsolete)

def compareExchange (me : T) (expected desired : Version)
    : Prog (OptimisticLatch T) (Bool × Version) :=
  .exchange (·.typeVersionLockObsolete == expected)
    (fun l =>
      { l with
        typeVersionLockObsolete := desired
        holders := me :: l.holders
        changes := l.changes + 1 })
    (·.typeVersionLockObsolete)

section Release

variable [DecidableEq T] (me : T)

def release (v : Version) (l : OptimisticLatch T) : OptimisticLatch T :=
  { l with
    typeVersionLockObsolete := v
    holders := l.holders.erase me
    changes := l.changes + 1 }

/-- The fetch-and-add with which a thread releases the latch and marks it as obsolete. -/
def releaseObsolete (l : OptimisticLatch T) : OptimisticLatch T :=
  { l with
    typeVersionLockObsolete := l.typeVersionLockObsolete + 0b11
    holders := l.holders.erase me
    changes := l.changes + 1
    obsolete := true }

end Release

def optimisticLatchOrRestart : Prog (OptimisticLatch T) (Option Version) := do
  let version ← load
  if isLatched version then
    return none
  else
    return some version

/-- It also returns the value that it leaves in its argument. -/
def upgradeToExclusiveLatch (me : T) (version : Version)
    : Prog (OptimisticLatch T) (Bool × Version) := do
  if isLatched version then
    return (false, version)
  else
    let (success, read) ← compareExchange me version (version + 0b10)
    if success then
      return (true, version + 0b10)
    else
      return (false, read)

def tryLatchExclusive (me : T) : Prog (OptimisticLatch T) Bool := do
  match ← optimisticLatchOrRestart with
  | none => return false
  | some version =>
    let (success, _) ← upgradeToExclusiveLatch me version
    if !success then
      return false
    else
      return true

section

variable [DecidableEq T] (me : T)

def unlatchExclusive : Prog (OptimisticLatch T) Unit := do
  .ensure (isLatched (← load))
  let v ← load
  .store (release me (v + 0b10))

def downgradeToOptimisticLatch : Prog (OptimisticLatch T) Version := do
  let v ← load
  unlatchExclusive me
  return v + 0b10

def writeUnlockObsolete : Prog (OptimisticLatch T) Unit :=
  .store (releaseObsolete me)

end

def optimisticUnlatch (startRead : Version) : Prog (OptimisticLatch T) Bool := do
  return startRead == (← load)

def checkOrRestart (startRead : Version) : Prog (OptimisticLatch T) Bool :=
  optimisticUnlatch startRead

inductive Call where
  | optimisticLatchOrRestart
  | tryLatchExclusive
  | upgradeToExclusiveLatch (version : Version)
  | downgradeToOptimisticLatch
  | unlatchExclusive
  | checkOrRestart (startRead : Version)
  | writeUnlockObsolete
  deriving DecidableEq

inductive Result where
  | done
  | answer (b : Bool)
  | upgraded (b : Bool) (version : Version)
  | version (v : Option Version)
  deriving DecidableEq

variable [DecidableEq T]

def body (me : T) (call : Call) : Prog (OptimisticLatch T) Result :=
  match call with
  | .optimisticLatchOrRestart => do return .version (← optimisticLatchOrRestart)
  | .tryLatchExclusive => do return .answer (← tryLatchExclusive me)
  | .upgradeToExclusiveLatch version => do
    let (success, version) ← upgradeToExclusiveLatch me version
    return .upgraded success version
  | .downgradeToOptimisticLatch => do return .version (some (← downgradeToOptimisticLatch me))
  | .unlatchExclusive => do unlatchExclusive me; return .done
  | .checkOrRestart startRead => do return .answer (← checkOrRestart startRead)
  | .writeUnlockObsolete => do writeUnlockObsolete me; return .done

/-- Threads release the latch only while they hold it. -/
def mayCall (me : T) (call : Call) (l : OptimisticLatch T) : Bool :=
  match call with
  | .downgradeToOptimisticLatch | .unlatchExclusive | .writeUnlockObsolete => me ∈ l.holders
  | _ => true

def interface : Interface T (OptimisticLatch T) Call Result where
  body := body
  mayCall := mayCall

def isObsolete (version : Version) : Bool :=
  version &&& 0b1 == 0b1

/-- `writeUnlockObsolete` is called only while the obsolete bit is clear. -/
def onceObsolete (_ : T) (call : Call) (l : OptimisticLatch T) : Bool :=
  match call with
  | .writeUnlockObsolete => !isObsolete l.typeVersionLockObsolete
  | _ => true

end OptimisticLatch
end SyncPrimitives
