import RdmaSync.CommunicationManager
import RdmaSync.Rdma.Rounds

/-!
This module contains the experiment in which all workers increment counters on all storage nodes, a batch
of them at a time.
-/

namespace BatchedAtomics

open Rdma CommunicationManager

def tupleSize : Nat := 256

inductive Ctx where
  | rctx
  deriving DecidableEq

/-- One buffer for each request of a batch. -/
inductive Buffer where
  | buffers (bI : Nat)
  deriving DecidableEq

structure Experiment (storageNodes : Nat) where
  start : Fin storageNodes → Nat
  lockCount : Nat
  padding : Nat
  batch : Nat
  start_aligned : ∀ sId, start sId % 8 = 0
  padding_aligned : padding % 8 = 0

variable {storageNodes : Nat}

namespace Experiment

variable (e : Experiment storageNodes) (sId : Fin storageNodes)

abbrev Batch := Fin e.batch → Fin e.lockCount

def lockAddr (lockId : Fin e.lockCount) : Nat :=
  e.start sId + 64 + lockId * tupleSize + lockId * e.padding

def request (lockIds : e.Batch) (bI : Fin e.batch) : Prog Ctx Buffer Empty Unit :=
  let comp := if (bI : Nat) = e.batch - 1 then signaled else unsignaled
  postFetchAdd 1 (.buffers bI, 0) .rctx comp (e.lockAddr sId (lockIds bI)) false

def iteration (lockIds : e.Batch) : Prog Ctx Buffer Empty Unit := do
  Prog.forEach (List.finRange e.batch) fun bI => e.request sId lockIds bI
  pollCompletions .rctx 1

def workload (nic : Fin storageNodes → Nic) : Workload Ctx Buffer Empty Unit e.Batch where
  nic := nic sId
  program := e.iteration sId
  mayStart := fun _ _ => true
  after := fun _ _ => .idle

end Experiment

abbrev State (W : Type) (e : Experiment storageNodes) :=
  Rounds storageNodes W Ctx Buffer Empty Unit e.Batch

end BatchedAtomics
