import RdmaSync.CommunicationManager
import RdmaSync.Rdma.System

/-!
This module contains the barrier that the benchmarks use between their stages. Its loop is one
operation for each test of the loop condition.
-/

namespace BenchmarkHelper

open Rdma CommunicationManager

inductive Ctx where
  | rctx
  deriving DecidableEq

inductive Buffer where
  | localBarrierBuffer
  deriving DecidableEq

/-- A `throw` that has nothing to rethrow: it ends the process. -/
inductive Terminate where
  | throw
  deriving DecidableEq

abbrev Code := Prog Ctx Buffer Terminate

inductive BarrierOp where
  /-- The fetch-and-add and the first test. -/
  | arrive (stage : Nat)
  /-- An iteration of the loop and the test after it. -/
  | spin (stage : Nat)
  deriving DecidableEq

def BarrierOp.stage (op : BarrierOp) : Nat :=
  match op with
  | .arrive stage => stage
  | .spin stage => stage

def BarrierOp.isSpin (op : BarrierOp) : Bool :=
  match op with
  | .arrive _ => false
  | .spin _ => true

structure Barrier where
  barrierAddr : Nat
  /-- The number of workers that the function multiplies with the stage. -/
  participants : Word
  barrierAddr_aligned : barrierAddr % 8 = 0

namespace Barrier

def rdmaBarrierWait (barrierAddr : Nat) (aligned : barrierAddr % 8 = 0) (allWorker : Word)
    : Barrier where
  barrierAddr := barrierAddr
  participants := allWorker
  barrierAddr_aligned := aligned

def rdmaBarrierNamWait (barrierAddr : Nat) (aligned : barrierAddr % 8 = 0)
    (worker storageNodes : Word) : Barrier where
  barrierAddr := barrierAddr
  participants := worker * storageNodes
  barrierAddr_aligned := aligned

variable (b : Barrier)

def expected (stage : Nat) : Word :=
  b.participants * BitVec.ofNat 64 stage

def pollCq : Code Unit :=
  pollCompletions .rctx 1

/-- The condition of the loop; it returns whether the loop is over. -/
def test (stage : Nat) : Code Bool := do
  let barrierValue ← load (.localBarrierBuffer, 0)
  return barrierValue == b.expected stage

def arrive (stage : Nat) : Code Bool := do
  postFetchAdd 1 (.localBarrierBuffer, 0) .rctx signaled b.barrierAddr false
  pollCq
  b.test stage

def spin (stage : Nat) : Code Bool := do
  postRead (.localBarrierBuffer, 0) .rctx signaled b.barrierAddr 8 false
  pollCq
  b.test stage

def program (op : BarrierOp) : Code Bool :=
  match op with
  | .arrive stage => b.arrive stage
  | .spin stage => b.spin stage

def returned (done : List (BarrierOp × Bool)) : Nat :=
  done.countP (·.2)

def calling (done : List (BarrierOp × Bool)) : Bool :=
  match done with
  | (_, isOver) :: _ => !isOver
  | [] => false

/-- Workers call the barrier for the stages 1, 2, 3 and so on, and pause between the calls. -/
def workload (nic : Nic) : Workload Ctx Buffer Terminate Bool BarrierOp where
  nic := nic
  program := b.program
  mayStart := fun done op => !calling done && op == .arrive (returned done + 1)
  after := fun op outcome =>
    match outcome with
    | .ok true => .idle
    | .ok false => .goto (.spin op.stage)
    | .error _ => .stop

end Barrier
end BenchmarkHelper
