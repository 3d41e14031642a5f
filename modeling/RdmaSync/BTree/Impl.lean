import RdmaSync.LockingBenchmark.Impl

/-!
This module contains the experiment in which all workers traverse the same B-Tree, from the root to
randomly chosen leaves.
-/

namespace BTree

open Rdma LockingBenchmark
open CommunicationManager (postFetchAdd postRead signaled unsignaled)

def tupleSize : Nat := 4096

theorem tupleSize_aligned : tupleSize % 8 = 0 := by
  rfl

abbrev B : Nat := 249

abbrev H : Nat := 3

def nodes : Nat := ((List.range H).map fun h => B ^ h).sum

structure Experiment where
  start : Nat
  padding : Nat
  unsynchronized : Bool
  speculativeRead : Bool
  orderRelease : Bool
  start_aligned : start % 8 = 0
  padding_aligned : padding % 8 = 0

abbrev Traversal := Fin H → Fin B

namespace Experiment

variable (e : Experiment)

def lockAddr (idx : Nat) : Nat :=
  e.start + 64 + idx * tupleSize + idx * e.padding

/-- The nodes as tuples, and the locks that this experiment has in common with the benchmark. -/
def tuples : Benchmark where
  start := e.start
  lockCount := nodes
  tupleSize := tupleSize
  padding := e.padding
  speculativeRead := e.speculativeRead
  writeCombining := false
  orderRelease := e.orderRelease
  start_aligned := e.start_aligned
  tupleSize_ge := by decide
  tupleSize_aligned := BTree.tupleSize_aligned
  padding_aligned := e.padding_aligned

section Node

variable (lockAddr : Nat)

def sLock : Code Bool :=
  if e.unsynchronized then do
    postRead (.old, 1) .rctx signaled (lockAddr + 8) (tupleSize - 8) false
    pollCq
    return true
  else
    e.tuples.sLock lockAddr

def sOrderRelease : Code Unit :=
  -- with fence!
  postFetchAdd (-1) (.old, 0) .rctx unsignaled lockAddr true

def sRelease : Code Unit :=
  if e.unsynchronized then
    return ()
  else if e.orderRelease then
    sOrderRelease lockAddr
  else
    Benchmark.sUnlock lockAddr

end Node

/-- The loop over the levels from `level` on. It returns the nodes that have been verified. -/
def traverse (level nextIdx prevId : Nat) (nodeIds : List (Fin B)) : Code (List Nat) :=
  match nodeIds with
  | [] => return []
  | nodeId :: nodeIds => do
    let locked ← e.sLock (e.lockAddr nextIdx)
    if locked then
      -- verify cl counter
      verify 1 e.tuples.words
      e.sRelease (e.lockAddr nextIdx)
      -- calculate next node
      let idxs ← traverse (level + 1) (B * level + 1 + B * prevId + nodeId) nodeId nodeIds
      return nextIdx :: idxs
    else
      traverse (level + 1) nextIdx prevId nodeIds

def run (op : Traversal) : Code (List Nat) :=
  e.traverse 0 0 0 (List.ofFn op)

def workload (nic : Nic) : Workload Ctx Buffer Terminate (List Nat) Traversal where
  nic := nic
  program := e.run
  mayStart := fun _ _ => true
  after := fun _ outcome =>
    match outcome with
    | .ok _ => .idle
    | .error _ => .stop

end Experiment
end BTree
