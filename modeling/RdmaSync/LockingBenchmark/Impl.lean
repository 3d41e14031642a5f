import RdmaSync.LockingBenchmark.Transaction

/-!
This module contains the locking benchmark: tuples behind a reader/writer lock, and workers that lock
them in one of eight ways.
-/

namespace LockingBenchmark

open Rdma CommunicationManager

def exclusiveLocked : Word := 0x1000000000000000

def exclusiveUnlockToBeAdded : Word := 0xFFFFFFFFFFFFFFFF - exclusiveLocked + 1

def unlocked : Word := 0

structure Benchmark where
  start : Nat
  lockCount : Nat
  tupleSize : Nat
  padding : Nat
  speculativeRead : Bool
  writeCombining : Bool
  orderRelease : Bool
  start_aligned : start % 8 = 0
  tupleSize_ge : 16 ≤ tupleSize
  tupleSize_aligned : tupleSize % 8 = 0
  padding_aligned : padding % 8 = 0

namespace Benchmark

variable (b : Benchmark)

def words : Nat := b.tupleSize / 8

def lockAddr (lockId : Fin b.lockCount) : Nat :=
  b.start + 64 + lockId * b.tupleSize + lockId * b.padding

section Write

variable (lockAddr : Nat)

def xUnlock : Code Unit := do
  postFetchAdd exclusiveUnlockToBeAdded (.old, 0) .rctx signaled lockAddr false
  pollCq

def basicXLock : Code Bool := do
  postCompareSwap unlocked exclusiveLocked (.old, 0) .rctx signaled lockAddr
  pollCq
  let xLocked ← load (.old, 0)
  if xLocked ≠ unlocked then
    return false
  else
    postRead (.old, 0) .rctx signaled lockAddr b.tupleSize false
    pollCq
    return true

def speculativeReadXLock : Code Bool := do
  postCompareSwap unlocked exclusiveLocked (.old, 0) .rctx unsignaled lockAddr
  -- do not read lock value again since could be f&a
  postRead (.old, 1) .rctx signaled (lockAddr + 8) (b.tupleSize - 8) false
  pollCq
  let xLocked ← load (.old, 0)
  if xLocked ≠ unlocked then
    return false
  else
    return true

def writeCombined : Code Unit := do
  postWrite (.old, 1) .rctx unsignaled (lockAddr + 8) (b.tupleSize - 8)
  xUnlock lockAddr

def xOrderRelease : Code Unit := do
  postWrite (.old, 1) .rctx unsignaled (lockAddr + 8) (b.tupleSize - 8)
  postFetchAdd exclusiveUnlockToBeAdded (.old, 0) .rctx unsignaled lockAddr false

def writeBack : Code Unit :=
  if b.writeCombining then
    if b.orderRelease then
      b.xOrderRelease lockAddr
    else
      b.writeCombined lockAddr
  else do
    postWrite (.old, 1) .rctx signaled (lockAddr + 8) (b.tupleSize - 8)
    pollCq
    xUnlock lockAddr

def xLock : Code Bool :=
  if b.speculativeRead then
    b.speculativeReadXLock lockAddr
  else
    b.basicXLock lockAddr

def runWrite : Code Bool := do
  let locked ← b.xLock lockAddr
  if locked then
    incrementWords 1 b.words
    b.writeBack lockAddr
    return true
  else
    return false

end Write

section Read

variable (lockAddr : Nat)

def sUnlock : Code Unit := do
  postFetchAdd (-1) (.old, 0) .rctx signaled lockAddr false
  pollCq

def basicSLock : Code Bool := do
  postFetchAdd 1 (.old, 0) .rctx signaled lockAddr false
  pollCq
  let sLocked ← load (.old, 0)
  if exclusiveLocked ≤ sLocked then
    sUnlock lockAddr
    return false
  else
    postRead (.old, 0) .rctx signaled lockAddr b.tupleSize false
    pollCq
    return true

def speculativeReadSLock : Code Bool := do
  postFetchAdd 1 (.old, 0) .rctx unsignaled lockAddr false
  postRead (.old, 1) .rctx signaled (lockAddr + 8) (b.tupleSize - 8) false
  pollCq
  let sLocked ← load (.old, 0)
  if exclusiveLocked ≤ sLocked then
    sUnlock lockAddr
    return false
  else
    return true

def sOrderRelease : Code Unit :=
  postFetchAdd (-1) (.old, 0) .rctx unsignaled lockAddr false

def sRelease : Code Unit :=
  if b.orderRelease then
    sOrderRelease lockAddr
  else
    sUnlock lockAddr

def sLock : Code Bool :=
  if b.speculativeRead then
    b.speculativeReadSLock lockAddr
  else
    b.basicSLock lockAddr

def runRead : Code Bool := do
  let locked ← b.sLock lockAddr
  if locked then
    verify 1 b.words
    b.sRelease lockAddr
    return true
  else
    return false

end Read

/-- One attempt at a transaction; it returns whether the tuple could be locked. -/
def runTransaction (op : Transaction b.lockCount) : Code Bool :=
  match op with
  | .read lockId => b.runRead (b.lockAddr lockId)
  | .write lockId => b.runWrite (b.lockAddr lockId)

/-- A worker runs any transactions and repeats each of them until it has the lock. -/
def workload (nic : Nic) : Workload Ctx Buffer Terminate Bool (Transaction b.lockCount) where
  nic := nic
  program := b.runTransaction
  mayStart := fun _ _ => true
  after := fun op outcome =>
    match outcome with
    | .ok true => .idle
    | .ok false => .goto op
    | .error _ => .stop

def checkTuples (m : Mem) : Option Word :=
  consistencyCheck m 1 b.words ((List.finRange b.lockCount).map b.lockAddr) 0

end Benchmark
end LockingBenchmark
