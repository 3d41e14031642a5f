import RdmaSync.Rdma.SendQueue

/-!
This module contains the queues that connections are created with, and the wrapper around polling.
-/

namespace CommunicationManager

open Rdma

/-- The entries that `createCQ` requests. -/
def cqe : Nat := 16

/-- The requests that `createQP` wants the send queue to hold. -/
def maxSendWr : Nat := 1024

def pollCompletion {R : Type} (cq : SendQueue R) (expected : Nat) : Nat × SendQueue R :=
  let numCompletions := min expected cq.completions
  (numCompletions, cq.poll numCompletions)

theorem pollCompletion_outstanding {R : Type} (cq : SendQueue R) (expected : Nat)
    : (pollCompletion cq expected).2.outstanding + (pollCompletion cq expected).1
        = cq.outstanding := by
  exact SendQueue.outstanding_poll (Nat.min_le_right _ _)

end CommunicationManager
