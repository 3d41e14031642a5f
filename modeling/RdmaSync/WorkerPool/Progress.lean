import RdmaSync.WorkerPool.Scheduling

/-!
This module contains how a job that is set gets executed when wakeups are not spurious: the steps of the
worker, and of an owner that still holds the mutex or has not yet notified.
-/

namespace WorkerPool

open Threads

variable {Job : Type}

namespace Worker

def rank (pc : Worker Job) : Nat :=
  match pc with
  | .unset => 9
  | .notified => 8
  | .starting => 8
  | .loop => 7
  | .wait .waiting => 7
  | .wait .locking => 6
  | .wait _ => 5
  | .woken => 4
  | .called => 3
  | .running _ => 2
  | _ => 0

end Worker
namespace Owner

def stageRank (stage : Stage) : Nat :=
  match stage with
  | .testing => 2
  | .blocking => 1
  | .locking | .waiting => 0

def rank (o : Owner Job) : Nat :=
  match o with
  | .posted _ _ _ => 2
  | .notify _ _ _ => 1
  | .schedule _ _ _ stage | .await _ _ stage | .join _ stage => stageRank stage
  | _ => 0

end Owner
namespace Cell

variable {v : View Job} {o : Owner Job} {n : Nat} {c : Cell Job}

theorem jobSet_of_pending (h : c.pending v.storing ≠ [])
    : c.thread.jobSet = true ∧ v.storing = false ∧ c.pc.hasRun = false := by
  simp only [pending, ne_eq, ite_eq_right_iff, Bool.and_eq_true, Bool.not_eq_true'] at h
  grind

/-- A worker with a pending job goes on when the owner leaves it alone. -/
theorem exists_step_worker (h : JobsOk v c) (hpending : c.pending v.storing ≠ [])
    (hholds : v.holds = false) (hnotifying : v.notifying = false)
    : ∃ woken c', c.step true false woken = some c' ∧ c'.scheduled = c.scheduled
      ∧ (c'.executed = c'.scheduled ∨ c'.pc.rank < c.pc.rank) := by
  obtain ⟨hset, hstoring, hrun⟩ := jobSet_of_pending hpending
  have hqueue := h.queue.queue
  have hholder : c.pc.holds = false → c.thread.monitor.holder = none := by
    intro hpc
    have hworker := h.locks.worker_holds
    have howner := h.locks.owner_holds
    cases hholder : c.thread.monitor.holder with
    | none => rfl
    | some p => cases p <;> simp_all
  cases hpc : c.pc with
  | starting => exact ⟨none, c.goto .loop, by simp [step, hpc], rfl, .inr (by simp [Worker.rank])⟩
  | loop =>
    exact ⟨none, c.goto (.wait .locking), by simp [step, hpc], rfl,
      .inr (by simp [Worker.rank])⟩
  | wait stage =>
    cases stage with
    | locking =>
      have hfree := hholder (by simp [hpc, Worker.holds, Stage.holds])
      exact ⟨none, (c.setMonitor { c.thread.monitor with holder := some .worker }).goto
        (.wait .testing), by simp [step, hpc, Monitor.await, Monitor.lock, hfree], rfl,
        .inr (by simp [Worker.rank])⟩
    | testing =>
      exact ⟨none, (c.setMonitor c.thread.monitor).goto .woken,
        by simp [step, hpc, Monitor.await, hset], rfl, .inr (by simp [Worker.rank])⟩
    | blocking => simp [h.flags.settled (.inr hpc)] at hset
    | waiting =>
      have hwoken : c.thread.monitor.blocked .worker = false := by
        have hasleep := h.sleep.worker_asleep
        simpa [hset, hnotifying] using hasleep
      exact ⟨none, (c.setMonitor (c.thread.monitor.wake .worker)).goto (.wait .locking),
        by simp [step, hpc, Monitor.await, hwoken], rfl, .inr (by simp [Worker.rank])⟩
  | woken =>
    exact ⟨none, { c with pc := .called, thread := { c.thread with wtReady := false } },
      by simp [step, hpc], rfl, .inr (by simp [Worker.rank])⟩
  | called =>
    obtain ⟨job, hjob⟩ := Option.isSome_iff_exists.mp (h.flags.job hset hstoring)
    exact ⟨none, c.goto (.running job), by simp [step, hpc, hjob], rfl,
      .inr (by simp [Worker.rank])⟩
  | running job =>
    refine ⟨none, { c with pc := .returned, executed := c.executed ++ [job] },
      by simp [step, hpc], rfl, .inl ?_⟩
    simp [hqueue, pending, hset, hstoring, hpc, Worker.hasRun, h.flags.running job hpc]
  | unset =>
    obtain ⟨woken, m, hnotify⟩ := c.thread.monitor.exists_notifyOne
    exact ⟨woken, (c.setMonitor m).goto .notified, by simp [step, hpc, hnotify], rfl,
      .inr (by simp [Worker.rank])⟩
  | notified =>
    exact ⟨none, (c.setMonitor c.thread.monitor.unlock).goto .loop, by simp [step, hpc], rfl,
      .inr (by simp [Worker.rank])⟩
  | returned | ready | done => simp [hpc, Worker.hasRun] at hrun
  | leaving | stopping | stopped => simpa [hpc, Worker.hasLeft] using h.flags.stays

theorem exists_await {stage : Stage} {pred : Bool} (m : Monitor Party) (hpred : pred = false)
    (hholds : stage.holds = true)
    : ∃ m' stage', m.await .owner pred false stage = some (m', some stage')
      ∧ Owner.stageRank stage' < Owner.stageRank stage := by
  cases stage with
  | testing => exact ⟨m, .blocking, by simp [Monitor.await, hpred], by decide⟩
  | blocking => exact ⟨m.block .owner, .waiting, rfl, by decide⟩
  | locking | waiting => simp [Stage.holds] at hholds

theorem exists_step_owner (h : JobsOk o.targetView c)
    (hpending : c.pending o.targetView.storing ≠ [])
    (howner : o.targetView.holds = true ∨ o.targetView.notifying = true)
    : ∃ woken o' c', o.step n false woken c = some (o', c') ∧ c'.scheduled = c.scheduled
      ∧ c'.pc = c.pc ∧ o'.rank < o.rank := by
  obtain ⟨hset, hstoring, hrun⟩ := jobSet_of_pending hpending
  have hsettled := h.flags.settled
  cases o with
  | schedule sync t job stage =>
    have hholds : stage.holds = true := by simpa [Owner.targetView, View.waiting] using howner
    have hpred : (!c.thread.jobSet && c.thread.wtReady) = false := by simp [hset]
    obtain ⟨m, stage', hawait, hrank⟩ := exists_await c.thread.monitor hpred hholds
    exact ⟨none, .schedule sync t job stage', c.setMonitor m, by simp [Owner.step, hawait], rfl,
      rfl, hrank⟩
  | await t job stage =>
    have hholds : stage.holds = true := by simpa [Owner.targetView, View.waiting] using howner
    have hpred : c.thread.jobDone = false := by simpa [hset] using h.done hholds rfl rfl
    obtain ⟨m, stage', hawait, hrank⟩ := exists_await c.thread.monitor hpred hholds
    exact ⟨none, .await t job stage', c.setMonitor m, by simp [Owner.step, hawait], rfl, rfl,
      hrank⟩
  | join t stage =>
    have hholds : stage.holds = true := by simpa [Owner.targetView, View.waiting] using howner
    have hpred : (c.thread.wtReady && !c.thread.jobSet) = false := by simp [hset]
    obtain ⟨m, stage', hawait, hrank⟩ := exists_await c.thread.monitor hpred hholds
    exact ⟨none, .join t stage', c.setMonitor m, by simp [Owner.step, hawait], rfl, rfl,
      hrank⟩
  | posted sync t job =>
    exact ⟨none, .notify sync t job, c.setMonitor c.thread.monitor.unlock, rfl, rfl, rfl,
      by simp [Owner.rank]⟩
  | notify sync t job =>
    obtain ⟨woken, m, hnotify⟩ := c.thread.monitor.exists_notifyOne
    refine ⟨woken, _, c.setMonitor m, by simp [Owner.step, hnotify]; rfl, rfl, rfl, ?_⟩
    cases sync <;> simp [Owner.rank, Owner.stageRank]
  | returned call => cases call <;> simp [Owner.targetView] at howner
  | _ => simp_all [Owner.targetView]

end Cell
namespace Pool

def isPlain (a : Action Job) : Bool :=
  match a with
  | .worker _ spurious _ | .owner spurious _ => !spurious
  | .call _ => false

variable {n t : Nat} {s : Pool Job}

theorem step_owner {spurious : Bool} {woken : Option Party} {o : Owner Job} {c : Cell Job}
    (h : s.owner.step n spurious woken (s.cell s.owner.target) = some (o, c))
    : step n s (.owner spurious woken) = some { s.setCell s.owner.target c with owner := o } := by
  simp only [step]
  split
  . next howner => simp [howner, Owner.step] at h
  . next howner => simp [howner, Owner.step] at h
  . next howner => simp [howner, Owner.step] at h
  . simp [h]

theorem exists_step (h : SchedulingOk n s) (ht : t < n)
    (hpending : (s.cell t).pending (s.owner.view t).storing ≠ [])
    : ∃ a s', isPlain a = true ∧ step n s a = some s'
      ∧ (s'.cell t).scheduled = (s.cell t).scheduled
      ∧ ((s'.cell t).executed = (s'.cell t).scheduled
        ∨ (s'.cell t).pc.rank + s'.owner.rank < (s.cell t).pc.rank + s.owner.rank) := by
  have hcell := h.cells t ht
  by_cases howner : (s.owner.view t).holds = true ∨ (s.owner.view t).notifying = true
  . have htarget : s.owner.target = t := by
      by_contra hne
      simp [Owner.view_of_ne hne] at howner
    subst htarget
    rw [Owner.view_of_target rfl] at hcell hpending howner
    obtain ⟨woken, o, c, hstep, hscheduled, hpc, hrank⟩ :=
      Cell.exists_step_owner (n := n) hcell hpending howner
    refine ⟨_, _, rfl, step_owner hstep, ?_, .inr ?_⟩
    . simpa using hscheduled
    . simpa [hpc] using hrank
  . simp only [not_or, Bool.not_eq_true] at howner
    obtain ⟨woken, c, hstep, hscheduled, hexecuted⟩ :=
      Cell.exists_step_worker hcell hpending howner.1 howner.2
    have hstep : step n s (.worker t false woken) = some
        { s.setCell t c with runningThreads := countRunning s.runningThreads (s.cell t).pc } := by
      simp [step, ht, h.keepRunning, hstep]
    exact ⟨_, _, rfl, hstep, by simpa using hscheduled, by simpa using hexecuted⟩

theorem exists_executed (h : SchedulingOk n s) (ht : t < n)
    : ∃ s', Step.Reach (step n) (fun _ a => isPlain a = true) s s'
      ∧ (s'.cell t).scheduled = (s.cell t).scheduled
      ∧ (s'.cell t).executed = (s.cell t).scheduled := by
  induction hrank : (s.cell t).pc.rank + s.owner.rank using Nat.strong_induction_on generalizing s with
  | _ rank ih =>
    have hqueue := (h.cells t ht).queue.queue
    by_cases hpending : (s.cell t).pending (s.owner.view t).storing = []
    . exact ⟨s, .refl, rfl, by simp [hqueue, hpending]⟩
    . obtain ⟨a, s₁, ha, hstep, hscheduled, hexecuted⟩ := exists_step h ht hpending
      have hreach : Step.Reach (step n) (fun _ a => isPlain a = true) s s₁ := .next a .refl ha hstep
      obtain hexecuted | hless := hexecuted
      . exact ⟨s₁, hreach, hscheduled, hexecuted.trans hscheduled⟩
      . have hdestroy : isDestroy a = false := by
          cases a with
          | call => simp [isPlain] at ha
          | _ => rfl
        obtain ⟨s', hreach', hscheduled', hexecuted'⟩ :=
          ih _ (hrank ▸ hless) (schedulingOk_step h hdestroy hstep) rfl
        exact ⟨s', hreach.trans hreach', hscheduled'.trans hscheduled, hexecuted'.trans hscheduled⟩

/-- What a pool guarantees while it is not destroyed. -/
structure RunsJobs (n : Nat) (s : Pool Job) : Prop where
  /-- Every worker executes its jobs once and in order, and has at most one to execute. -/
  inOrder : ∀ t < n, ∃ jobs, (s.cell t).scheduled = (s.cell t).executed ++ jobs ∧ jobs.length ≤ 1
  running : ∀ t < n, ∀ job, (s.cell t).pc = .running job
    → (s.cell t).scheduled = (s.cell t).executed ++ [job]
  /-- No job is lost: the threads can go on until it is executed. -/
  executable : ∀ t < n, ∃ s', Step.Reach (step n) (fun _ a => isPlain a = true) s s'
    ∧ (s'.cell t).scheduled = (s.cell t).scheduled ∧ (s'.cell t).executed = (s.cell t).scheduled
  scheduled : ∀ t job, s.owner = .returned (.scheduleJobAsync t job)
    → t < n ∧ (s.cell t).scheduled.getLast? = some job
  finished : ∀ t job, s.owner = .returned (.scheduleJobSync t job)
    → t < n ∧ (s.cell t).executed = (s.cell t).scheduled
      ∧ (s.cell t).executed.getLast? = some job
  joined : s.owner = .returned .joinAll → ∀ t < n, (s.cell t).executed = (s.cell t).scheduled
    ∧ (s.cell t).pc.hasJob = false ∧ (s.cell t).thread.jobSet = false
  /-- The owner and a worker never sleep on the same condition variable. -/
  awake : ∀ t < n, ¬ ((s.cell t).thread.monitor.blocked .owner = true
    ∧ (s.cell t).thread.monitor.blocked .worker = true)

theorem SchedulingOk.settled (h : SchedulingOk n s) (ht : t < n)
    (hsettled : (s.owner.view t).settled = true)
    : (s.cell t).executed = (s.cell t).scheduled ∧ (s.cell t).pc.hasJob = false
      ∧ (s.cell t).thread.jobSet = false := by
  have hcell := h.cells t ht
  have hset := hcell.flags.settled (.inl hsettled)
  refine ⟨?_, ?_, hset⟩
  . simp [hcell.queue.queue, Cell.pending, hset]
  . have hjob := hcell.flags.set
    simpa [hset] using fun hpc => hjob (.inl hpc)

/-- If both slept, the worker would have found no job set, and the owner a job. -/
theorem SchedulingOk.awake (h : SchedulingOk n s) (ht : t < n)
    (howner : (s.cell t).thread.monitor.blocked .owner = true)
    (hworker : (s.cell t).thread.monitor.blocked .worker = true) : False := by
  have hcell := h.cells t ht
  have hpc := hcell.locks.worker_blocked hworker
  have hwaits := hcell.locks.owner_blocked howner
  have hnotifying := hcell.sleep.worker_asleep hworker
  have hset := hcell.sleep.owner_asleep (.inl howner)
  simp_all [(s.owner.view t).not_notifying_of_waits hwaits]

/-- The pool runs every job once and in order. -/
theorem runs_jobs (h : Step.Reach (step n) (fun _ a => isDestroy a = false) (created : Pool Job) s)
    : RunsJobs n s := by
  have hok := schedulingOk_of_reach h
  refine ⟨?_, ?_, fun t => exists_executed hok, ?_, ?_, ?_, ?_⟩
  . intro t ht
    refine ⟨_, (hok.cells t ht).queue.queue, ?_⟩
    unfold Cell.pending
    cases (s.cell t).thread.job <;> split <;> simp
  . intro t ht job hpc
    have hcell := hok.cells t ht
    have hset := hcell.flags.set (.inl (by simp [hpc, Worker.hasJob]))
    have hstoring := hcell.locks.not_storing (by simp [hpc, Worker.holds])
    have hqueue := hcell.queue.queue
    simpa [Cell.pending, hset, hstoring, hpc, Worker.hasRun, hcell.flags.running job hpc] using hqueue
  . intro t job howner
    have ht : t < n := by simpa [howner, Owner.free, Owner.target] using hok.target
    have hview : s.owner.view t = { posted := some job } := by
      rw [howner]
      exact Owner.view_of_target rfl
    exact ⟨ht, ((hok.cells t ht).queue.last job (by rw [hview])).1⟩
  . intro t job howner
    have ht : t < n := by simpa [howner, Owner.free, Owner.target] using hok.target
    have hview : s.owner.view t = { settled := true, posted := some job } := by
      rw [howner]
      exact Owner.view_of_target rfl
    have hexecuted := (hok.settled ht (by rw [hview])).1
    refine ⟨ht, hexecuted, ?_⟩
    rw [hexecuted]
    exact ((hok.cells t ht).queue.last job (by rw [hview])).1
  . intro howner t ht
    exact hok.settled ht (by rw [howner, Owner.view_returned_joinAll])
  . intro t ht hbusy
    exact hok.awake ht hbusy.1 hbusy.2

def syncRun : List (Action Unit) :=
  let worker n : List (Action Unit) := List.replicate n (.worker 0 false none)
  let owner n : List (Action Unit) := List.replicate n (.owner false none)
  worker 2 ++ owner 1 ++ [.call (.scheduleJobSync 0 ())] ++ owner 7 ++ worker 10 ++ owner 3

theorem runs_jobs_syncRun
    : ∃ s : Pool Unit, s.owner = .returned (.scheduleJobSync 0 ()) ∧ RunsJobs 1 s := by
  obtain ⟨s, hreach, hs⟩ := Step.exists_reach_of_runIf
    (show (Step.runIf (step 1) (fun _ a => !isDestroy a) created syncRun).any
      (fun s => s.owner = .returned (.scheduleJobSync 0 ())) = true by decide +kernel)
  refine ⟨s, by simpa using hs, runs_jobs (hreach.mono ?_)⟩
  intro s a ha
  simpa using ha

end Pool
end WorkerPool
