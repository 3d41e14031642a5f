import Mathlib.Data.List.Chain
import RdmaSync.CommunicationManager
import RdmaSync.Rdma.System

/-!
This module contains the loop with which the ordering benchmarks read the blocks of a region, and the
detector that it runs on each of them. What fetches a block is up to the benchmark.
-/

namespace BenchmarkHelper
namespace ReadBlocks

open Rdma CommunicationManager

inductive Ctx where
  | rctx
  deriving DecidableEq

inductive Buffer where
  | buffer
  deriving DecidableEq

abbrev Code := Prog Ctx Buffer Empty

def countAscents (prevVersion : Word) (entries : List Word) : Nat :=
  match entries with
  | [] => 0
  | v :: entries => (if prevVersion < v then 1 else 0) + countAscents v entries

/-- The detector finds nothing exactly if the entries never ascend. -/
theorem countAscents_eq_zero (prevVersion : Word) (entries : List Word)
    : countAscents prevVersion entries = 0
        ↔ (prevVersion :: entries).IsChain fun v v' => v' ≤ v := by
  induction entries generalizing prevVersion with
  | nil => simp [countAscents]
  | cons v entries ih =>
    rw [List.isChain_cons_cons, ← ih, countAscents, Nat.add_eq_zero_iff, ← BitVec.not_lt]
    simp

inductive BlockOp where
  | fetch (b_i : Nat)
  | compare (b_i : Nat)
  deriving DecidableEq

/-- A call of `readBlocks`. -/
structure Call where
  remoteAddr : Nat
  blockSize : Nat
  numberBlocks : Nat
  blockFunction : Nat → Nat → Code Unit

namespace Call

variable (c : Call)

def numberEntries : Nat :=
  c.blockSize / 8

def addr (b_i : Nat) : Nat :=
  c.remoteAddr + c.blockSize * b_i

def fetch (b_i : Nat) : Code Nat := do
  c.blockFunction c.numberEntries (c.addr b_i)
  return 0

def compare : Code Nat := do
  let prevVersion ← load (.buffer, 0)
  let entries ← Prog.loadAll ((List.range c.numberEntries).map fun e_i => (.buffer, e_i))
  return countAscents prevVersion entries

def program (op : BlockOp) : Code Nat :=
  match op with
  | .fetch b_i => c.fetch b_i
  | .compare _ => c.compare

/--
Whether the loop may go on with block `b_i`. It ends early when it is told to stop, and is called
again and again.
-/
def continues (done : List (BlockOp × Nat)) (b_i : Nat) : Bool :=
  match b_i, done with
  | 0, _ => true
  | b_i + 1, (op, _) :: _ => op == .compare b_i
  | _ + 1, [] => false

def mayStart (done : List (BlockOp × Nat)) (op : BlockOp) : Bool :=
  match op with
  | .fetch b_i => decide (b_i < c.numberBlocks) && continues done b_i
  | .compare _ => false

def workload (nic : Nic) : Workload Ctx Buffer Empty Nat BlockOp where
  nic := nic
  program := c.program
  mayStart := c.mayStart
  after := fun op _ =>
    match op with
    | .fetch b_i => .goto (.compare b_i)
    | .compare _ => .idle

theorem compare_local
    : c.compare.Local (fun _ => True) (fun _ => False) (fun _ => False) := by
  apply Prog.Local.load _ _ trivial
  intro prevVersion
  apply Prog.Local.bind (Prog.Local.loadAll fun _ _ => trivial)
  intro entries
  exact .ret _

end Call

end ReadBlocks
end BenchmarkHelper
