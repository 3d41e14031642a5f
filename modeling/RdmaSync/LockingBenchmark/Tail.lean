import RdmaSync.LockingBenchmark.Transaction

/-!
This module contains the locking benchmark whose lock sits at the tail of a tuple. A writer unlocks
with the WRITE that replaces the tuple.
-/

namespace LockingBenchmarkTail

open Rdma CommunicationManager LockingBenchmark

def unlocked : Word := 0

def tupleSize : Nat := 64

def lockOffsetByte : Nat := tupleSize - 8

def lockOffsetIndex : Nat := lockOffsetByte / 8

structure Benchmark where
  start : Nat
  lockCount : Nat
  padding : Nat
  speculativeRead : Bool
  orderRelease : Bool
  start_aligned : start % 8 = 0
  padding_aligned : padding % 8 = 0

section Write

variable (lockAddr : Nat)

def basicXLock : Code Bool := do
  postCompareSwap unlocked 1 (.old, lockOffsetIndex) .rctx signaled (lockAddr + lockOffsetByte)
  pollCq
  let xLocked ← load (.old, lockOffsetIndex)
  if xLocked ≠ unlocked then
    return false
  else
    postRead (.old, 0) .rctx signaled lockAddr tupleSize false
    pollCq
    return true

def speculativeReadXLock : Code Bool := do
  postCompareSwap unlocked 1 (.old, lockOffsetIndex) .rctx unsignaled (lockAddr + lockOffsetByte)
  -- do not read lock value again since could be f&a
  postRead (.old, 0) .rctx signaled lockAddr (tupleSize - 8) false
  pollCq
  let xLocked ← load (.old, lockOffsetIndex)
  if xLocked ≠ unlocked then
    return false
  else
    return true

end Write

section Read

variable (lockAddr : Nat)

def sUnlock : Code Unit := do
  postFetchAdd (-2) (.old, lockOffsetIndex) .rctx signaled (lockAddr + lockOffsetByte) false
  pollCq

def basicSLock : Code Bool := do
  postFetchAdd 2 (.old, lockOffsetIndex) .rctx signaled (lockAddr + lockOffsetByte) false
  pollCq
  let sLocked ← load (.old, lockOffsetIndex)
  if sLocked &&& 1 = 1 then
    return false
  else
    postRead (.old, 0) .rctx signaled lockAddr (tupleSize - 8) false
    pollCq
    return true

def speculativeReadSLock : Code Bool := do
  postFetchAdd 2 (.old, lockOffsetIndex) .rctx unsignaled (lockAddr + lockOffsetByte) false
  postRead (.old, 0) .rctx signaled lockAddr (tupleSize - 8) false
  pollCq
  let sLocked ← load (.old, lockOffsetIndex)
  if sLocked &&& 1 = 1 then
    return false
  else
    return true

/-- Unlike everywhere else, the address is the one of the tuple plus the index of the lock word. -/
def sOrderRelease : Code Unit :=
  postFetchAdd (-2) (.old, lockOffsetIndex) .rctx unsignaled (lockAddr + lockOffsetIndex) true

end Read

namespace Benchmark

variable (b : Benchmark)

def lockAddr (lockId : Fin b.lockCount) : Nat :=
  b.start + lockId * tupleSize + lockId * b.padding

def xLock (lockAddr : Nat) : Code Bool :=
  if b.speculativeRead then
    speculativeReadXLock lockAddr
  else
    basicXLock lockAddr

def sLock (lockAddr : Nat) : Code Bool :=
  if b.speculativeRead then
    speculativeReadSLock lockAddr
  else
    basicSLock lockAddr

def sRelease (lockAddr : Nat) : Code Unit :=
  if b.orderRelease then
    sOrderRelease lockAddr
  else
    sUnlock lockAddr

/-- Write the tuple back, with the lock word in it. -/
def writeBack (lockAddr : Nat) : Code Unit := do
  store (.old, lockOffsetIndex) 0
  if b.orderRelease then
    postWrite (.old, 0) .rctx unsignaled lockAddr tupleSize
  else
    postWrite (.old, 0) .rctx signaled lockAddr tupleSize
    pollCq

def runRead (lockAddr : Nat) : Code Bool := do
  let locked ← b.sLock lockAddr
  if locked then
    verify 0 (lockOffsetByte / 8)
    b.sRelease lockAddr
    return true
  else
    return false

def runWrite (lockAddr : Nat) : Code Bool := do
  let locked ← b.xLock lockAddr
  if locked then
    incrementWords 0 (lockOffsetByte / 8)
    b.writeBack lockAddr
    return true
  else
    return false

def runTransaction (op : Transaction b.lockCount) : Code Bool :=
  match op with
  | .read lockId => b.runRead (b.lockAddr lockId)
  | .write lockId => b.runWrite (b.lockAddr lockId)

/-- A worker runs any transactions. It does not repeat those that could not lock their tuple. -/
def workload (nic : Nic) : Workload Ctx Buffer Terminate Bool (Transaction b.lockCount) where
  nic := nic
  program := b.runTransaction
  mayStart := fun _ _ => true
  after := fun _ outcome =>
    match outcome with
    | .ok _ => .idle
    | .error _ => .stop

def checkTuples (m : Mem) : Option Word :=
  consistencyCheck m 0 ((tupleSize - 8) / 8) ((List.finRange b.lockCount).map b.lockAddr) 0

end Benchmark
end LockingBenchmarkTail
