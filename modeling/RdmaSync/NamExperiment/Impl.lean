import RdmaSync.LockingBenchmark.Impl
import RdmaSync.Rdma.Rounds

/-!
This module contains the locking benchmark of colocated nodes: every node stores tuples, and every
worker takes the nodes in turn, with a queue pair and a buffer for each of them.
-/

namespace NamExperiment

open Rdma LockingBenchmark
open CommunicationManager (postFetchAdd postWrite signaled unsignaled)

structure Experiment (storageNodes : Nat) where
  start : Fin storageNodes → Nat
  lockCount : Nat
  tupleSize : Nat
  padding : Nat
  speculativeRead : Bool
  writeCombining : Bool
  orderRelease : Bool
  start_aligned : ∀ sId, start sId % 8 = 0
  tupleSize_ge : 16 ≤ tupleSize
  tupleSize_aligned : tupleSize % 8 = 0
  padding_aligned : padding % 8 = 0

variable {storageNodes : Nat}

namespace Experiment

variable (e : Experiment storageNodes) (sId : Fin storageNodes)

/-- The tuples of one node, and the locks that the two benchmarks have in common. -/
def onNode : Benchmark where
  start := e.start sId
  lockCount := e.lockCount
  tupleSize := e.tupleSize
  padding := e.padding
  speculativeRead := e.speculativeRead
  writeCombining := e.writeCombining
  orderRelease := e.orderRelease
  start_aligned := e.start_aligned sId
  tupleSize_ge := e.tupleSize_ge
  tupleSize_aligned := e.tupleSize_aligned
  padding_aligned := e.padding_aligned

section Write

variable (lockAddr : Nat)

def xOrderRelease : Code Unit := do
  postWrite (.old, 1) .rctx unsignaled (lockAddr + 8) (e.tupleSize - 8)
  -- with fence! should ensure that memory buffer is not overwritten
  postFetchAdd exclusiveUnlockToBeAdded (.old, 0) .rctx unsignaled lockAddr true

def writeBack : Code Unit :=
  if e.writeCombining then
    if e.orderRelease then
      e.xOrderRelease lockAddr
    else
      (e.onNode sId).writeCombined lockAddr
  else do
    postWrite (.old, 1) .rctx signaled (lockAddr + 8) (e.tupleSize - 8)
    pollCq
    Benchmark.xUnlock lockAddr

def runWrite : Code Bool := do
  let locked ← (e.onNode sId).xLock lockAddr
  if locked then
    incrementWords 1 (e.onNode sId).words
    e.writeBack sId lockAddr
    return true
  else
    return false

end Write

section Read

variable (lockAddr : Nat)

def sOrderRelease : Code Unit :=
  -- with fence!
  postFetchAdd (-1) (.old, 0) .rctx unsignaled lockAddr true

def sRelease : Code Unit :=
  if e.orderRelease then
    sOrderRelease lockAddr
  else
    Benchmark.sUnlock lockAddr

def runRead : Code Bool := do
  let locked ← (e.onNode sId).sLock lockAddr
  if locked then
    verify 1 (e.onNode sId).words
    e.sRelease lockAddr
    return true
  else
    return false

end Read

def runTransaction (op : Transaction e.lockCount) : Code Bool :=
  match op with
  | .read lockId => e.runRead sId ((e.onNode sId).lockAddr lockId)
  | .write lockId => e.runWrite sId ((e.onNode sId).lockAddr lockId)

/-- Fences apart, a transaction is one of the locking benchmark. -/
theorem runTransaction_eq (op : Transaction e.lockCount)
    : e.runTransaction sId op = (e.onNode sId).runTransaction op := by
  cases op <;> rfl

def workload (nic : Fin storageNodes → Nic)
    : Workload Ctx Buffer Terminate Bool (Transaction e.lockCount) where
  nic := nic sId
  program := e.runTransaction sId
  mayStart := fun _ _ => true
  after := fun op outcome =>
    match outcome with
    | .ok true => .idle
    | .ok false => .goto op
    | .error _ => .stop

theorem workload_eq (nic : Fin storageNodes → Nic)
    : e.workload sId nic = (e.onNode sId).workload (nic sId) := by
  simp only [workload, Benchmark.workload, funext (e.runTransaction_eq sId)]
  rfl

end Experiment

abbrev State (W : Type) (e : Experiment storageNodes) :=
  Rounds storageNodes W Ctx Buffer Terminate Bool (Transaction e.lockCount)

end NamExperiment
