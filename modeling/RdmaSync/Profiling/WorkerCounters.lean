import Mathlib.Algebra.BigOperators.Group.Finset.Basic
import Mathlib.Data.BitVec
import RdmaSync.Threads.Transition

/-!
This module contains the event counters of the workers: the worker threads increment them while the
profiling thread collects them, and no event is lost or counted twice unless a counter is collected
in the middle of an increment.
-/

namespace Profiling

open Threads

inductive LogLevel where
  | release
  | csv
  | test
  | trace

def LogLevel.value (level : LogLevel) : Nat :=
  match level with
  | .release => 0
  | .csv => 1
  | .test => 2
  | .trace => 3

def activeLogLevel : LogLevel := .release

inductive Name where
  | txP
  | abort
  | latency
  | ssdPagesRead
  | ssdPagesWritten
  | rdmaPagesTx
  | rdmaPagesRx
  | mhMsgsHandled
  | ppRounds
  | ppRdmaEvicted
  | ppRdmaReceived
  | ppLatencyP1IncomingRequests
  | ppLatencyP2Cooling
  | ppLatencyP3Select
  | ppLatencyP4SendRequests
  | ppLatencyP5IncomingResponses
  | ppLatencyP6SendResponses
  deriving DecidableEq

namespace Name

def all : List Name :=
  [.txP, .abort, .latency, .ssdPagesRead, .ssdPagesWritten, .rdmaPagesTx, .rdmaPagesRx,
    .mhMsgsHandled, .ppRounds, .ppRdmaEvicted, .ppRdmaReceived, .ppLatencyP1IncomingRequests,
    .ppLatencyP2Cooling, .ppLatencyP3Select, .ppLatencyP4SendRequests,
    .ppLatencyP5IncomingResponses, .ppLatencyP6SendResponses]

def workerCounterLogLevel (name : Name) : LogLevel :=
  match name with
  | .txP | .abort | .latency | .ssdPagesRead | .ssdPagesWritten | .mhMsgsHandled => .release
  | .rdmaPagesTx | .rdmaPagesRx | .ppRounds | .ppRdmaEvicted | .ppRdmaReceived
  | .ppLatencyP1IncomingRequests | .ppLatencyP2Cooling | .ppLatencyP3Select
  | .ppLatencyP4SendRequests | .ppLatencyP5IncomingResponses | .ppLatencyP6SendResponses => .csv

def isActive (name : Name) : Bool :=
  !decide (name.workerCounterLogLevel.value > activeLogLevel.value)

end Name

inductive Call where
  | incr (name : Name)
  | incrBy (name : Name) (increment : BitVec 64)
  deriving DecidableEq

namespace Call

def name (c : Call) : Name :=
  match c with
  | .incr name | .incrBy name _ => name

def increment (c : Call) : BitVec 64 :=
  match c with
  | .incr _ => 1
  | .incrBy _ increment => increment

end Call

inductive WorkerPc where
  | idle
  | loading (c : Call)
  | storing (c : Call) (value : BitVec 64)
  deriving DecidableEq

structure CounterRegistry (W : Type) where
  counters : W → Name → BitVec 64
  worker : W → WorkerPc
  workerCounters : List W
  /-- The counters that are still to be collected, if `workerMutex` is locked to do so. -/
  aggregating : Option (List (W × Name))
  aggregated : Name → BitVec 64
  collected : W → Name → BitVec 64
  incremented : W → Name → BitVec 64

inductive Action (W : Type) where
  | call (w : W) (c : Call)
  | worker (w : W)
  | aggregateWorkerCounters
  | aggregate
  | registerWorkerCounter (w : W)
  | deregisterWorkerCounter (w : W)
  deriving DecidableEq

namespace CounterRegistry

variable {W : Type} [DecidableEq W]

def created : CounterRegistry W where
  counters := fun _ _ => 0
  worker := fun _ => .idle
  workerCounters := []
  aggregating := none
  aggregated := fun _ => 0
  collected := fun _ _ => 0
  incremented := fun _ _ => 0

def set (f : W → Name → BitVec 64) (w : W) (name : Name) (value : BitVec 64)
    : W → Name → BitVec 64 :=
  Function.update f w (Function.update (f w) name value)

def goto (s : CounterRegistry W) (w : W) (pc : WorkerPc) : CounterRegistry W :=
  { s with worker := Function.update s.worker w pc }

def store (s : CounterRegistry W) (w : W) (c : Call) (value : BitVec 64) : CounterRegistry W :=
  { s.goto w .idle with
    counters := set s.counters w c.name value
    incremented := set s.incremented w c.name (s.incremented w c.name + c.increment) }

def exchange (s : CounterRegistry W) (w : W) (name : Name) (rest : List (W × Name))
    : CounterRegistry W :=
  { s with
    counters := set s.counters w name 0
    aggregating := some rest
    aggregated := Function.update s.aggregated name (s.aggregated name + s.counters w name)
    collected := set s.collected w name (s.collected w name + s.counters w name) }

def step : Step (CounterRegistry W) (Action W) := fun s a =>
  match a with
  | .call w c =>
    match s.worker w with
    | .idle =>
      if c.name.isActive then
        some (s.goto w (.loading c))
      else
        some s
    | _ => none
  | .worker w =>
    match s.worker w with
    | .idle => none
    | .loading c => some (s.goto w (.storing c (s.counters w c.name)))
    | .storing c value => some (s.store w c (value + c.increment))
  | .aggregateWorkerCounters =>
    match s.aggregating with
    | none =>
      let visited := s.workerCounters.flatMap fun w => Name.all.map fun name => (w, name)
      some { s with aggregating := some visited }
    | some _ => none
  | .aggregate =>
    match s.aggregating with
    | some ((w, name) :: rest) => some (s.exchange w name rest)
    | some [] => some { s with aggregating := none }
    | none => none
  | .registerWorkerCounter w =>
    match s.aggregating with
    | none => some { s with workerCounters := s.workerCounters ++ [w] }
    | some _ => none
  | .deregisterWorkerCounter w =>
    match s.aggregating with
    | none => some { s with workerCounters := s.workerCounters.filter fun w' => w' ≠ w }
    | some _ => none

/-- The events that a worker has counted are in its counters, or have been collected. -/
structure Counts [Fintype W] (s : CounterRegistry W) : Prop where
  counter : ∀ w name, s.worker w = .idle →
    s.collected w name + s.counters w name = s.incremented w name
  aggregated : ∀ name, s.aggregated name = ∑ w, s.collected w name

/-- The step does not collect from a counter that its worker is about to store, unless it is zero. -/
def undisturbed (s : CounterRegistry W) (a : Action W) : Bool :=
  match a, s.aggregating with
  | .aggregate, some ((w, name) :: _) =>
    match s.worker w with
    | .storing c _ => decide (c.name ≠ name) || decide (s.counters w name = 0)
    | _ => true
  | _, _ => true

section Lemmas

variable {s s' : CounterRegistry W} {w w' : W} {f : W → Name → BitVec 64} {name name' : Name}
  {value : BitVec 64}

@[simp]
theorem set_self : set f w name value w name = value := by
  simp [set]

@[simp]
theorem set_of_name_ne (h : name' ≠ name) : set f w name value w name' = f w name' := by
  simp [set, h]

@[simp]
theorem set_of_ne (h : w' ≠ w) : set f w name value w' = f w' := by
  simp [set, h]

@[simp]
theorem worker_goto_self {pc : WorkerPc} : (s.goto w pc).worker w = pc := by
  simp [goto]

@[simp]
theorem worker_goto_of_ne {pc : WorkerPc} (h : w' ≠ w) : (s.goto w pc).worker w' = s.worker w' := by
  simp [goto, h]

theorem sum_set [Fintype W] (increment : BitVec 64)
    : ∑ w', set f w name (f w name + increment) w' name = ∑ w', f w' name + increment := by
  rw [← Finset.add_sum_erase _ _ (Finset.mem_univ w), ← Finset.add_sum_erase _ _ (Finset.mem_univ w)]
  have hrest : ∀ w' ∈ Finset.univ.erase w, set f w name (f w name + increment) w' name = f w' name :=
    fun w' hw' => congrFun (set_of_ne (Finset.ne_of_mem_erase hw')) name
  rw [Finset.sum_congr rfl hrest, set_self, add_right_comm]

theorem sum_set_of_ne [Fintype W] (h : name' ≠ name)
    : ∑ w', set f w name value w' name' = ∑ w', f w' name' := by
  apply Finset.sum_congr rfl
  intro w' _
  by_cases hw : w' = w
  . subst hw
    exact set_of_name_ne h
  . rw [set_of_ne hw]

end Lemmas

structure Inv [Fintype W] (s : CounterRegistry W) : Prop where
  counter : ∀ w name, s.collected w name + s.counters w name = s.incremented w name
  loaded : ∀ w c value, s.worker w = .storing c value → value = s.counters w c.name
  aggregated : ∀ name, s.aggregated name = ∑ w, s.collected w name

section Steps

variable [Fintype W] {s s' : CounterRegistry W} {w : W}

omit [DecidableEq W] in
theorem inv_created : Inv (created : CounterRegistry W) where
  counter := by simp [created]
  loaded := by simp [created]
  aggregated := by simp [created]

theorem Inv.goto (h : Inv s) {pc : WorkerPc}
    (hloaded : ∀ c value, pc = .storing c value → value = s.counters w c.name)
    : Inv (s.goto w pc) := by
  refine ⟨h.counter, ?_, h.aggregated⟩
  intro w' c value hpc
  by_cases hw : w' = w
  . subst hw
    exact hloaded c value (worker_goto_self.symm.trans hpc)
  . rw [worker_goto_of_ne hw] at hpc
    exact h.loaded w' c value hpc

theorem Inv.store (h : Inv s) {c : Call} {value : BitVec 64} (hpc : s.worker w = .storing c value)
    : Inv (s.store w c (value + c.increment)) := by
  have hvalue := h.loaded w c value hpc
  refine ⟨?_, ?_, h.aggregated⟩
  . intro w' name
    simp only [CounterRegistry.store]
    by_cases hw : w' = w
    . subst hw
      by_cases hname : name = c.name
      . subst hname
        simp only [set_self, hvalue, CounterRegistry.goto]
        rw [← add_assoc, h.counter]
      . simpa [hname, CounterRegistry.goto] using h.counter w' name
    . simpa [hw, CounterRegistry.goto] using h.counter w' name
  . intro w' c' value' hpc'
    have hw : w' ≠ w := by
      rintro rfl
      simp [CounterRegistry.store] at hpc'
    simp only [CounterRegistry.store, worker_goto_of_ne hw] at hpc'
    simpa [CounterRegistry.store, hw] using h.loaded w' c' value' hpc'

theorem Inv.exchange (h : Inv s) {name : Name} (rest : List (W × Name))
    (hundisturbed : ∀ c value, s.worker w = .storing c value → c.name = name →
      s.counters w name = 0) : Inv (s.exchange w name rest) := by
  refine ⟨?_, ?_, ?_⟩
  . intro w' name'
    simp only [CounterRegistry.exchange]
    by_cases hw : w' = w
    . subst hw
      by_cases hname : name' = name
      . subst hname
        simpa using h.counter w' name'
      . simpa [hname] using h.counter w' name'
    . simpa [hw] using h.counter w' name'
  . intro w' c value hpc
    have hvalue := h.loaded w' c value hpc
    simp only [CounterRegistry.exchange]
    by_cases hw : w' = w
    . subst hw
      by_cases hname : c.name = name
      . subst hname
        rw [set_self, hvalue, hundisturbed c value hpc rfl]
      . rw [set_of_name_ne hname, hvalue]
    . rw [set_of_ne hw, hvalue]
  . intro name'
    simp only [CounterRegistry.exchange]
    by_cases hname : name' = name
    . subst hname
      rw [Function.update_self, sum_set, h.aggregated]
    . rw [Function.update_of_ne hname, sum_set_of_ne hname, h.aggregated]

theorem inv_step {a : Action W} (h : Inv s) (hundisturbed : undisturbed s a = true)
    (hstep : step s a = some s') : Inv s' := by
  cases a with
  | call w c =>
    cases hpc : s.worker w with
    | idle =>
      simp only [step, hpc] at hstep
      split at hstep
      . exact Option.some.inj hstep ▸ h.goto (by simp)
      . exact Option.some.inj hstep ▸ h
    | _ => simp [step, hpc] at hstep
  | worker w =>
    cases hpc : s.worker w with
    | idle => simp [step, hpc] at hstep
    | loading c =>
      simp only [step, hpc, Option.some.injEq] at hstep
      rw [← hstep]
      refine h.goto ?_
      intro c' value hvalue
      rw [WorkerPc.storing.injEq] at hvalue
      rw [← hvalue.1, hvalue.2]
    | storing c value =>
      simp only [step, hpc, Option.some.injEq] at hstep
      exact hstep ▸ h.store hpc
  | aggregateWorkerCounters =>
    simp only [step] at hstep
    split at hstep
    . exact Option.some.inj hstep ▸ ⟨h.counter, h.loaded, h.aggregated⟩
    . simp at hstep
  | aggregate =>
    simp only [step] at hstep
    split at hstep
    . next w name rest haggregating =>
      refine Option.some.inj hstep ▸ h.exchange rest ?_
      intro c value hpc hname
      simpa [undisturbed, haggregating, hpc, hname] using hundisturbed
    . exact Option.some.inj hstep ▸ ⟨h.counter, h.loaded, h.aggregated⟩
    . simp at hstep
  | registerWorkerCounter w | deregisterWorkerCounter w =>
    simp only [step] at hstep
    split at hstep
    . exact Option.some.inj hstep ▸ ⟨h.counter, h.loaded, h.aggregated⟩
    . simp at hstep

/-- No event is lost or counted twice while the profiler leaves unfinished increments alone. -/
theorem counts_of_undisturbed
    (h : Step.Reach step (fun s a => undisturbed s a = true) created s) : Counts s := by
  have hinv : Inv s := h.invariant inv_created fun _ _ _ hinv hc hstep => inv_step hinv hc hstep
  exact ⟨fun w name _ => hinv.counter w name, hinv.aggregated⟩

theorem counts_twice (h : Inv s) {c : Call} {value : BitVec 64} {rest : List (W × Name)}
    (hpc : s.worker w = .storing c value)
    (haggregating : s.aggregating = some ((w, c.name) :: rest))
    : ∃ s₁ s₂, step s .aggregate = some s₁ ∧ step s₁ (.worker w) = some s₂ ∧ s₂.worker w = .idle
      ∧ s₂.collected w c.name + s₂.counters w c.name
          =
        s₂.incremented w c.name + s.counters w c.name := by
  have hvalue := h.loaded w c value hpc
  have hcounter := h.counter w c.name
  refine ⟨s.exchange w c.name rest, (s.exchange w c.name rest).store w c (value + c.increment),
    ?_, ?_, ?_, ?_⟩
  . simp [step, haggregating]
  . simp [step, exchange, hpc]
  . simp [store]
  . simp only [store, exchange, goto, set_self, hvalue]
    rw [hcounter, add_right_comm, ← add_assoc]

end Steps

section Runs

def workers (n : Nat) : List (Action Unit) :=
  List.replicate n (.worker ())

def aggregates (n : Nat) : List (Action Unit) :=
  List.replicate n .aggregate

def apartRun : List (Action Unit) :=
  [.registerWorkerCounter (), .call () (.incrBy .latency 5)] ++ workers 2
    ++ [.call () (.incr .txP)] ++ workers 2 ++ [.call () (.incr .txP)] ++ workers 1
    ++ [.aggregateWorkerCounters, .worker ()] ++ aggregates 18

theorem counts_of_undisturbed_apartRun
    : ∃ s : CounterRegistry Unit, (s.aggregated .latency = 5 ∧ s.aggregated .txP = 2) ∧ Counts s := by
  obtain ⟨s, hreach, hs⟩ := Step.exists_reach_of_runIf
    (show (Step.runIf step undisturbed created apartRun).any
      (fun s => s.aggregated .latency = 5 && s.aggregated .txP = 2) = true by decide +kernel)
  exact ⟨s, by simpa using hs, counts_of_undisturbed hreach⟩

/-- A counter of one is collected before the worker stores two. -/
def betweenRun : List (Action Unit) :=
  [.registerWorkerCounter (), .call () (.incr .txP)] ++ workers 2 ++ [.call () (.incr .txP)]
    ++ workers 1 ++ [.aggregateWorkerCounters] ++ aggregates 18 ++ workers 1

theorem not_counts_betweenRun
    : ∃ s : CounterRegistry Unit, Step.Reach step Step.any created s ∧ s.worker () = .idle
      ∧ s.aggregating = none ∧ s.collected () .txP = 1 ∧ s.counters () .txP = 2
      ∧ s.incremented () .txP = 2 ∧ ¬Counts s := by
  obtain ⟨s, hreach, hs⟩ := Step.exists_reach_of_run
    (show (Step.run step created betweenRun).any
      (fun s => s.worker () = .idle && s.aggregating = none && s.collected () .txP = 1
        && s.counters () .txP = 2 && s.incremented () .txP = 2) = true by decide +kernel)
  simp only [Bool.and_eq_true, decide_eq_true_eq] at hs
  obtain ⟨⟨⟨⟨hidle, hnone⟩, hcollected⟩, hcounters⟩, hincremented⟩ := hs
  refine ⟨s, hreach, hidle, hnone, hcollected, hcounters, hincremented, ?_⟩
  intro hcounts
  have hcounter := hcounts.counter () .txP hidle
  rw [hcollected, hcounters, hincremented] at hcounter
  exact absurd hcounter (by decide)

end Runs

end CounterRegistry
end Profiling
