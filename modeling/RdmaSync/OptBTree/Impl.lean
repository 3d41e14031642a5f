import RdmaSync.BTree.Impl
import RdmaSync.OptimisticLocks.Benchmark

/-!
This module contains the experiment in which all workers traverse the B-Tree with optimistic reads instead
of locks: a node is read again until all versions in it agree.
-/

namespace OptBTree

open Rdma OptimisticLocks
open BTree (B H Traversal tupleSize tupleSize_aligned)
open CommunicationManager (load)

theorem tupleSize_pos : 0 < tupleSize := by
  decide

theorem tupleSize_lines : tupleSize % 64 = 0 := by
  rfl

structure Experiment where
  start : Nat
  padding : Nat
  flags : Flags
  start_aligned : start % 8 = 0
  padding_aligned : padding % 8 = 0

/-- One node of a traversal: where the loop over the levels is, and what the worker draws after each. -/
structure Visit where
  draws : Traversal
  level : Fin H
  nextIdx : Nat
  prevId : Nat

namespace Visit

def isFirst (v : Visit) : Bool :=
  v.level.val == 0 && v.nextIdx == 0 && v.prevId == 0

def next (v : Visit) : Option Visit :=
  let nodeId := v.draws v.level
  if h : v.level + 1 < H then
    some
      { draws := v.draws
        level := ⟨v.level + 1, h⟩
        nextIdx := B * v.level + 1 + B * v.prevId + nodeId
        prevId := nodeId }
  else
    none

end Visit

namespace Experiment

variable (e : Experiment)

def lockAddr (idx : Nat) : Nat :=
  e.start + 64 + idx * tupleSize + idx * e.padding

theorem lockAddr_aligned (idx : Nat) : e.lockAddr idx % 8 = 0 := by
  have hstart := e.start_aligned
  have hsize : idx * tupleSize % 8 = 0 := by
    rw [Nat.mul_mod, tupleSize_aligned, Nat.mul_zero, Nat.zero_mod]
  have hpadding : idx * e.padding % 8 = 0 := by
    rw [Nat.mul_mod, e.padding_aligned, Nat.mul_zero, Nat.zero_mod]
  unfold lockAddr
  omega

def tuple (idx : Nat) : Tuple where
  flags := e.flags
  consistency := .faRM
  lockType := .footerLock
  -- the second context is only declared
  rctx2Mr := false
  remoteAddress := e.lockAddr idx
  bytes := tupleSize
  remoteAddress_aligned := e.lockAddr_aligned idx
  bytes_pos := tupleSize_pos
  bytes_aligned := tupleSize_lines

end Experiment

def tupleBuffer : Buffer := .tupleBuffer false

/-- The words that are compared: three of each cache line. -/
def entryIdxs : List Nat :=
  (List.range (tupleSize / CL)).flatMap fun cl => [3, 4, 5].map fun v => cl * 8 + v

@[irreducible]
def corrupt : Code Bool := do
  let prev ← load (tupleBuffer, 3)
  let entries ← Prog.loadAll (entryIdxs.map fun idx => (tupleBuffer, idx))
  return entries.any fun entry => decide (prev ≠ entry)

namespace Experiment

variable (e : Experiment)

/-- One attempt at a node; it returns whether the node is corrupt. -/
def attempt (idx : Nat) : Code Bool := do
  let _ ← runRead (e.tuple idx) false 0
  -- after the validation we have a consistent snapshot
  corrupt

/-- Attempts are repeated; a corrupt node is a runtime error. -/
def workload (nic : Nic) : Workload Ctx Buffer OLRestartException Bool Visit where
  nic := nic
  program := fun v => e.attempt v.nextIdx
  mayStart := fun _ v => v.isFirst
  after := fun v outcome =>
    match outcome with
    | .ok false =>
      match v.next with
      | some v => .goto v
      | none => .idle
    | .ok true => .stop
    | .error _ => .goto v

end Experiment
end OptBTree
