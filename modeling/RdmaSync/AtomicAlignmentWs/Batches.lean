import RdmaSync.CommunicationManager.Queues
import RdmaSync.Rdma.Verb
import RdmaSync.Threads.Transition

/-!
This module contains the loop that posts batches of atomics as long as it has budget. It asks for up
to sixteen completions and has room for one.
-/

namespace AtomicAlignmentWs

open CommunicationManager Rdma Threads

structure Config where
  alignment : BitVec 64
  workingSize : BitVec 64
  start : BitVec 64

def batch : Nat := 16

/-- Only the last request of a batch is signaled. -/
def sqWr (x : Config) : List (Verb Unit × Bool) :=
  (List.range batch).map fun b_i =>
    (.fetchAdd 1 ((), 0)
      (x.start + (BitVec.ofNat 64 b_i % x.workingSize) * x.alignment).toNat, b_i == batch - 1)

/-- Where the loop is; `overrun` is behind a poll that stored more than `wcReturn` can hold. -/
inductive Pc where
  | looping
  | posting
  | polling
  | overrun (stored : Nat)
  | returned
  | threw
  deriving DecidableEq

structure State where
  budget : Int
  keepRunning : Bool
  queue : SendQueue (Verb Unit)
  pc : Pc

inductive Action where
  | cpu
  | fail
  | execute
  | stop
  deriving DecidableEq

namespace State

def init : State where
  budget := 4
  keepRunning := true
  queue := .empty
  pc := .looping

def goto (s : State) (pc : Pc) : State :=
  { s with pc }

def post (x : Config) (s : State) : State :=
  { s with queue := s.queue.post (sqWr x), budget := s.budget - 1 }

/-- The array `wcReturn` holds one completion, but sixteen may be stored to it. -/
def poll (s : State) : State :=
  let comp := pollCompletion s.queue 16
  if 1 < comp.1 then
    s.goto (.overrun comp.1)
  else
    { s with
      queue := comp.2
      budget := s.budget + comp.1
      pc := if comp.1 = 0 then .polling else .looping }

def calls (s : State) : Bool :=
  match s.pc with
  | .posting => decide (0 < s.budget)
  | .polling => true
  | _ => false

end State

def step (x : Config) : Step State Action := fun s a =>
  match a with
  | .cpu =>
    match s.pc with
    | .looping => some (s.goto (if s.keepRunning then .posting else .returned))
    | .posting => some (if 0 < s.budget then s.post x else s.goto .polling)
    | .polling => some s.poll
    | .overrun _ | .returned | .threw => none
  | .fail => if s.calls then some (s.goto .threw) else none
  | .execute => s.queue.execute.map fun queue => { s with queue }
  | .stop => some { s with keepRunning := false }

/--
The budget and the batches that have not been polled for add up to four, the send queue has room for
all of them, some batch is outstanding whenever the loop polls, and no poll stores too much.
-/
structure KeepsBudget (s : State) : Prop where
  budget : s.budget + s.queue.outstanding = 4
  outstanding : s.queue.outstanding ≤ 4
  requests : s.queue.requests.length = batch * s.queue.outstanding
  fits : s.queue.requests.length ≤ maxSendWr
  awaited : s.pc = .polling → 1 ≤ s.queue.outstanding
  stored : ∀ n, s.pc ≠ .overrun n

def oneWaits (s : State) (a : Action) : Bool :=
  !(decide (a = .cpu ∧ s.pc = .polling) && decide (1 < s.queue.completions))

structure Inv (x : Config) (s : State) : Prop where
  requests : ∃ k, s.queue.requests = (List.replicate k (sqWr x)).flatten
  nonneg : 0 ≤ s.budget
  budget : s.budget + s.queue.outstanding = 4
  awaited : s.pc = .polling → 1 ≤ s.queue.outstanding

variable {x : Config} {s s' : State}

inductive Moves (x : Config) (s : State) : Action → State → Prop where
  | begin (hpc : s.pc = .looping) : Moves x s .cpu (s.goto .posting)
  | leave (hpc : s.pc = .looping) : Moves x s .cpu (s.goto .returned)
  | post (hpc : s.pc = .posting) (hpos : 0 < s.budget) : Moves x s .cpu (s.post x)
  | spent (hpc : s.pc = .posting) (hzero : ¬0 < s.budget) : Moves x s .cpu (s.goto .polling)
  | poll (hpc : s.pc = .polling) : Moves x s .cpu s.poll
  | fail : Moves x s .fail (s.goto .threw)
  | execute (queue : SendQueue (Verb Unit)) (h : s.queue.execute = some queue)
    : Moves x s .execute { s with queue }
  | stop : Moves x s .stop { s with keepRunning := false }

theorem moves_of_step {a : Action} (hstep : step x s a = some s') : Moves x s a s' := by
  cases a with
  | cpu =>
    simp only [step] at hstep
    split at hstep
    . next hpc =>
      cases hstep
      split
      . exact .begin hpc
      . exact .leave hpc
    . next hpc =>
      cases hstep
      split
      . next hpos => exact .post hpc hpos
      . next hzero => exact .spent hpc hzero
    . next hpc =>
      cases hstep
      exact .poll hpc
    . cases hstep
    . cases hstep
    . cases hstep
  | fail =>
    simp only [step] at hstep
    split at hstep
    . cases hstep
      exact .fail
    . cases hstep
  | execute =>
    obtain ⟨queue, hqueue, rfl⟩ := Option.map_eq_some_iff.mp hstep
    exact .execute queue hqueue
  | stop =>
    cases hstep
    exact .stop

theorem countP_sqWr (x : Config) : (sqWr x).countP Prod.snd = 1 := by
  rw [sqWr, List.countP_map]
  rfl

theorem length_sqWr (x : Config) : (sqWr x).length = batch := by
  simp [sqWr]

theorem findIdx_sqWr (x : Config) : (sqWr x).findIdx Prod.snd + 1 = batch := by
  rw [sqWr, List.findIdx_map]
  rfl

theorem countP_replicate (x : Config) (k : Nat)
    : (List.replicate k (sqWr x)).flatten.countP Prod.snd = k := by
  simp [List.countP_flatten, countP_sqWr]

theorem length_replicate (x : Config) (k : Nat)
    : (List.replicate k (sqWr x)).flatten.length = batch * k := by
  simp [List.length_flatten, length_sqWr, Nat.mul_comm]

theorem pollOne_requests {q : SendQueue (Verb Unit)} {k : Nat}
    (h : q.requests = (List.replicate (k + 1) (sqWr x)).flatten)
    : q.pollOne.requests = (List.replicate k (sqWr x)).flatten := by
  rw [List.replicate_succ, List.flatten_cons] at h
  have hlt : (sqWr x).findIdx Prod.snd < (sqWr x).length := by
    have := findIdx_sqWr x
    rw [length_sqWr]
    omega
  have hfind : q.requests.findIdx Prod.snd + 1 = (sqWr x).length := by
    rw [h, List.findIdx_append, if_pos hlt, findIdx_sqWr, length_sqWr]
  show q.requests.drop (q.requests.findIdx Prod.snd + 1) = _
  rw [hfind, h, List.drop_left]

namespace Inv

theorem init (x : Config) : Inv x .init where
  requests := ⟨0, rfl⟩
  nonneg := by decide
  budget := rfl
  awaited := by simp [State.init]

theorem length_requests (h : Inv x s)
    : s.queue.requests.length = batch * s.queue.outstanding := by
  obtain ⟨k, hk⟩ := h.requests
  rw [SendQueue.outstanding, hk, countP_replicate, length_replicate]

theorem outstanding_le (h : Inv x s) : s.queue.outstanding ≤ 4 := by
  have hnonneg := h.nonneg
  have hbudget := h.budget
  omega

theorem post (h : Inv x s) (hpos : 0 < s.budget) : Inv x (s.post x) := by
  have houtstanding : (s.post x).queue.outstanding = s.queue.outstanding + 1 := by
    simp [State.post, countP_sqWr]
  obtain ⟨k, hk⟩ := h.requests
  refine ⟨⟨k + 1, ?_⟩, ?_, ?_, ?_⟩
  . simp [State.post, SendQueue.post, hk, List.replicate_succ']
  . show 0 ≤ s.budget - 1
    omega
  . have hbudget := h.budget
    rw [houtstanding]
    show s.budget - 1 + _ = 4
    omega
  . intro hpolling
    rw [houtstanding]
    omega

theorem poll (h : Inv x s) (hpc : s.pc = .polling) : Inv x s.poll := by
  have hpolled := pollCompletion_outstanding s.queue 16
  have hbudget := h.budget
  have hnonneg := h.nonneg
  have hawaited := h.awaited hpc
  unfold State.poll
  dsimp only
  split
  . refine ⟨h.requests, hnonneg, hbudget, ?_⟩
    simp [State.goto]
  . next hle =>
    refine ⟨?_, ?_, ?_, ?_⟩
    . obtain ⟨k, hk⟩ := h.requests
      have houtstanding : s.queue.outstanding = k := by
        rw [SendQueue.outstanding, hk, countP_replicate]
      obtain ⟨k, rfl⟩ := Nat.exists_eq_succ_of_ne_zero (show k ≠ 0 by omega)
      by_cases hzero : (pollCompletion s.queue 16).1 = 0
      . refine ⟨k + 1, ?_⟩
        show (s.queue.poll (pollCompletion s.queue 16).1).requests = _
        rw [hzero]
        exact hk
      . have hone : (pollCompletion s.queue 16).1 = 1 := by omega
        refine ⟨k, ?_⟩
        show (s.queue.poll (pollCompletion s.queue 16).1).requests = _
        rw [hone]
        exact pollOne_requests hk
    . show 0 ≤ s.budget + _
      omega
    . show s.budget + _ + ((pollCompletion s.queue 16).2.outstanding : Int) = 4
      omega
    . intro hpolling
      have hzero : (pollCompletion s.queue 16).1 = 0 := by
        by_contra hne
        rw [if_neg hne] at hpolling
        cases hpolling
      show 1 ≤ (pollCompletion s.queue 16).2.outstanding
      omega

theorem goto (h : Inv x s) {pc : Pc} (hpc : pc = .polling → 1 ≤ s.queue.outstanding)
    : Inv x (s.goto pc) := by
  exact ⟨h.requests, h.nonneg, h.budget, hpc⟩

theorem step (h : Inv x s) {a : Action} (hmoves : Moves x s a s') : Inv x s' := by
  cases hmoves with
  | begin | leave | fail => exact h.goto (by simp)
  | post _ hpos => exact h.post hpos
  | spent _ hzero =>
    apply h.goto
    intro _
    have hbudget := h.budget
    omega
  | poll hpc => exact h.poll hpc
  | execute queue hqueue =>
    have houtstanding := SendQueue.outstanding_execute hqueue
    refine ⟨?_, h.nonneg, ?_, ?_⟩
    . rw [SendQueue.execute_requests hqueue]
      exact h.requests
    . rw [houtstanding]
      exact h.budget
    . rw [houtstanding]
      exact h.awaited
  | stop => exact ⟨h.requests, h.nonneg, h.budget, h.awaited⟩

end Inv

theorem inv_of_reach {cond : State → Action → Prop} (h : Step.Reach (step x) cond .init s)
    : Inv x s := by
  exact h.invariant (.init x) fun _ _ _ hinv _ hstep => hinv.step (moves_of_step hstep)

theorem overruns_iff (h : Inv x s) (hpc : s.pc = .polling) (hstep : step x s .cpu = some s')
    : (∃ n, s'.pc = .overrun n) ↔ 1 < s.queue.completions := by
  have hcomp : (pollCompletion s.queue 16).1 = s.queue.completions := by
    have hle := s.queue.completions_le
    have houtstanding := h.outstanding_le
    exact Nat.min_eq_right (by omega)
  simp only [step, hpc, Option.some.injEq] at hstep
  subst hstep
  unfold State.poll
  dsimp only
  rw [hcomp]
  split
  . next hlt => exact ⟨fun _ => hlt, fun _ => ⟨_, rfl⟩⟩
  . next hle =>
    constructor
    . rintro ⟨n, hn⟩
      dsimp only at hn
      split at hn <;> cases hn
    . intro hlt
      exact absurd hlt hle

theorem not_overrun_step (h : Inv x s) (hnot : ∀ n, s.pc ≠ .overrun n) {a : Action}
    (hone : oneWaits s a = true) (hstep : step x s a = some s') (n : Nat) : s'.pc ≠ .overrun n := by
  cases moves_of_step hstep with
  | begin | leave | spent | fail => simp [State.goto]
  | post | execute | stop => exact hnot n
  | poll hpc =>
    intro hn
    have hlt := (overruns_iff h hpc hstep).mp ⟨n, hn⟩
    simp [oneWaits, hpc] at hone
    omega

theorem keepsBudget_of_oneWaits
    (h : Step.Reach (step x) (fun s a => oneWaits s a = true) .init s) : KeepsBudget s := by
  have hinv := inv_of_reach h
  have hstored : ∀ n, s.pc ≠ .overrun n := by
    have hkept := h.invariant (I := fun s => Inv x s ∧ ∀ n, s.pc ≠ .overrun n)
      ⟨.init x, by simp [State.init]⟩ fun _ _ _ hkept hone hstep =>
        ⟨hkept.1.step (moves_of_step hstep), not_overrun_step hkept.1 hkept.2 hone hstep⟩
    exact hkept.2
  have houtstanding := hinv.outstanding_le
  refine ⟨hinv.budget, houtstanding, hinv.length_requests, ?_, hinv.awaited, hstored⟩
  rw [hinv.length_requests]
  simp only [batch, maxSendWr]
  omega

section Runs

def sampleConfig : Config where
  alignment := 64
  workingSize := 8
  start := 0

def postedRun : List Action :=
  List.replicate 6 .cpu

def overrunRun : List Action :=
  postedRun ++ List.replicate 32 .execute ++ [.cpu]

def replacedRun : List Action :=
  postedRun ++ List.replicate 16 .execute ++ List.replicate 4 .cpu

theorem keepsBudget_of_oneWaits_replacedRun
    : ∃ s, s.pc = .polling ∧ s.queue.executed = 0 ∧ KeepsBudget s := by
  obtain ⟨s, hreach, hs⟩ := Step.exists_reach_of_runIf
    (show (Step.runIf (step sampleConfig) oneWaits .init replacedRun).any
      (fun s => s.pc = .polling ∧ s.queue.executed = 0) = true by decide)
  rw [decide_eq_true_eq] at hs
  exact ⟨s, hs.1, hs.2, keepsBudget_of_oneWaits hreach⟩

theorem not_keepsBudget_overrunRun
    : ∃ s, Step.Reach (step sampleConfig) Step.any .init s ∧ s.pc = .overrun 2
        ∧ ¬KeepsBudget s := by
  obtain ⟨s, hreach, hs⟩ := Step.exists_reach_of_run
    (show (Step.run (step sampleConfig) .init overrunRun).any
      (fun s => s.pc = .overrun 2) = true by decide)
  rw [decide_eq_true_eq] at hs
  exact ⟨s, hreach, hs, fun h => h.stored 2 hs⟩

end Runs

end AtomicAlignmentWs
