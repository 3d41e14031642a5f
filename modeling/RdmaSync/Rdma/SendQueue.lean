import Mathlib.Data.List.Basic

/-!
This module contains send queues with selective signaling: requests are executed in posting order,
only the signaled ones complete, and a request leaves the queue when its own completion or that of a
later request has been polled.
-/

namespace Rdma

variable {R : Type}

/-- The requests of a queue, oldest first, and whether they are signaled. -/
structure SendQueue (R : Type) where
  requests : List (R × Bool)
  /-- How many of the requests have been executed. -/
  executed : Nat
  executed_le : executed ≤ requests.length

namespace SendQueue

def empty : SendQueue R where
  requests := []
  executed := 0
  executed_le := Nat.le_refl 0

def post (q : SendQueue R) (rs : List (R × Bool)) : SendQueue R where
  requests := q.requests ++ rs
  executed := q.executed
  executed_le := by
    rw [List.length_append]
    exact Nat.le_add_right_of_le q.executed_le

def execute (q : SendQueue R) : Option (SendQueue R) :=
  if h : q.executed < q.requests.length then
    some { q with executed := q.executed + 1, executed_le := h }
  else
    none

def completions (q : SendQueue R) : Nat :=
  (q.requests.take q.executed).countP Prod.snd

def outstanding (q : SendQueue R) : Nat :=
  q.requests.countP Prod.snd

def pollOne (q : SendQueue R) : SendQueue R where
  requests := q.requests.drop (q.requests.findIdx Prod.snd + 1)
  executed := q.executed - (q.requests.findIdx Prod.snd + 1)
  executed_le := by
    rw [List.length_drop]
    exact Nat.sub_le_sub_right q.executed_le _

def poll (q : SendQueue R) (n : Nat) : SendQueue R :=
  match n with
  | 0 => q
  | n + 1 => q.pollOne.poll n

variable {q q' : SendQueue R}

@[simp]
theorem outstanding_empty : (empty : SendQueue R).outstanding = 0 := by
  rfl

@[simp]
theorem outstanding_post (rs : List (R × Bool))
    : (q.post rs).outstanding = q.outstanding + rs.countP Prod.snd := by
  exact List.countP_append

theorem execute_requests (h : q.execute = some q') : q'.requests = q.requests := by
  unfold execute at h
  split at h
  . cases h
    rfl
  . cases h

theorem outstanding_execute (h : q.execute = some q') : q'.outstanding = q.outstanding := by
  rw [outstanding, execute_requests h, outstanding]

theorem completions_le (q : SendQueue R) : q.completions ≤ q.outstanding := by
  exact (List.take_sublist _ _).countP_le

/-- A request is left to be executed while fewer requests have completed than were signaled. -/
theorem exists_execute (h : q.completions < q.outstanding) : ∃ q', q.execute = some q' := by
  have hlt : q.executed < q.requests.length := by
    apply Nat.lt_of_not_le
    intro hle
    rw [completions, outstanding, List.take_of_length_le hle] at h
    exact Nat.lt_irrefl _ h
  exact ⟨_, dif_pos hlt⟩

theorem countP_take_findIdx {rs : List (R × Bool)} (h : 0 < rs.countP Prod.snd)
    : (rs.take (rs.findIdx Prod.snd + 1)).countP Prod.snd = 1 := by
  induction rs with
  | nil => simp at h
  | cons r rs ih =>
    rw [List.findIdx_cons]
    cases hr : r.2 with
    | true => simp [hr]
    | false =>
      rw [List.countP_cons_of_neg (by simp [hr])] at h
      rw [cond_false, List.take_succ_cons, List.countP_cons_of_neg (by simp [hr])]
      exact ih h

theorem outstanding_pollOne (h : 0 < q.completions)
    : q.pollOne.outstanding + 1 = q.outstanding := by
  have hpos := Nat.lt_of_lt_of_le h q.completions_le
  show (q.requests.drop (q.requests.findIdx Prod.snd + 1)).countP Prod.snd + 1
    = q.requests.countP Prod.snd
  rw [← List.take_append_drop (q.requests.findIdx Prod.snd + 1) q.requests, List.countP_append,
    List.take_append_drop, countP_take_findIdx hpos, Nat.add_comm]

theorem completions_pollOne (h : 0 < q.completions)
    : q.pollOne.completions + 1 = q.completions := by
  have hpos := Nat.lt_of_lt_of_le h q.completions_le
  -- The first signaled request has been executed.
  have hle : q.requests.findIdx Prod.snd + 1 ≤ q.executed := by
    have hexists := List.findIdx_lt_length_of_exists (List.countP_pos_iff.mp h)
    rw [(List.take_prefix _ _).findIdx_eq_of_findIdx_lt_length hexists]
    rw [List.length_take] at hexists
    omega
  show ((q.requests.drop (q.requests.findIdx Prod.snd + 1)).take
    (q.executed - (q.requests.findIdx Prod.snd + 1))).countP Prod.snd + 1
      = (q.requests.take q.executed).countP Prod.snd
  rw [← List.drop_take, ← List.take_append_drop (q.requests.findIdx Prod.snd + 1)
    (q.requests.take q.executed), List.countP_append, List.take_append_drop, List.take_take,
    Nat.min_eq_left hle, countP_take_findIdx hpos, Nat.add_comm]

theorem outstanding_poll {n : Nat} (h : n ≤ q.completions)
    : (q.poll n).outstanding + n = q.outstanding := by
  induction n generalizing q with
  | zero => rfl
  | succ n ih =>
    have hpos := Nat.lt_of_lt_of_le (Nat.zero_lt_succ n) h
    have hcompletions := completions_pollOne hpos
    rw [← outstanding_pollOne hpos, ← ih (q := q.pollOne) (by omega)]
    rfl

end SendQueue

end Rdma
