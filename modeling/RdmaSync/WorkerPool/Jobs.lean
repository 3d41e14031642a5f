import RdmaSync.WorkerPool.Shutdown

/-!
This module contains the invariant that ties the jobs of a worker to its flags, its mutex and its
condition variable.
-/

namespace WorkerPool

open Threads

variable {Job : Type}

namespace Worker

def holds (pc : Worker Job) : Bool :=
  match pc with
  | .wait stage => stage.holds
  | .starting | .loop | .stopping | .stopped => false
  | _ => true

def hasJob (pc : Worker Job) : Bool :=
  match pc with
  | .woken | .called | .running _ | .returned | .ready | .done => true
  | _ => false

def inJob (pc : Worker Job) : Bool :=
  match pc with
  | .called | .running _ | .returned => true
  | _ => false

def hasRun (pc : Worker Job) : Bool :=
  match pc with
  | .returned | .ready | .done => true
  | _ => false

def hasLeft (pc : Worker Job) : Bool :=
  match pc with
  | .leaving | .stopping | .stopped => true
  | _ => false

structure Outside (pc : Worker Job) : Prop where
  hasJob : pc.hasJob = false
  inJob : pc.inJob = false
  hasRun : pc.hasRun = false
  not_running : ∀ job, pc ≠ .running job
  not_done : pc ≠ .done
  not_unset : pc ≠ .unset
  not_blocking : pc ≠ .wait .blocking

theorem outside_of_not_holds {pc : Worker Job} (h : pc.holds = false) : pc.Outside := by
  cases pc with
  | wait stage =>
    cases stage <;> constructor <;>
      simp_all [holds, Stage.holds, Worker.hasJob, Worker.inJob, Worker.hasRun]
  | _ => constructor <;> simp_all [holds, Worker.hasJob, Worker.inJob, Worker.hasRun]

end Worker

/-- What the owner does with one of the workers. -/
structure View (Job : Type) where
  holds : Bool := false
  waits : Bool := false
  fallsAsleep : Bool := false
  /-- It has set `jobSet` and not yet reset `jobDone`. -/
  clearing : Bool := false
  /-- It has set `jobSet` and not yet stored the job. -/
  storing : Bool := false
  /-- It has set `jobSet` and not yet notified. -/
  notifying : Bool := false
  settled : Bool := false
  posted : Option Job := none
  holds_of_storing : storing = true → holds = true := by simp
  holds_of_fallsAsleep : fallsAsleep = true → holds = true := by simp
  storing_of_clearing : clearing = true → storing = true := by simp
  not_notifying_of_waits : waits = true → notifying = false := by simp

namespace View

def waiting (stage : Stage) (posted : Option Job) : View Job where
  holds := stage.holds
  waits := stage = .waiting
  fallsAsleep := stage = .blocking
  posted := posted
  holds_of_fallsAsleep := by cases stage <;> simp [Stage.holds]

end View
namespace Owner

def targetView (o : Owner Job) : View Job :=
  match o with
  | .schedule _ _ _ stage | .join _ stage => .waiting stage none
  | .setting _ _ _ | .joined _ => { holds := true, settled := true }
  | .clearing _ _ _ => { holds := true, clearing := true, storing := true, notifying := true }
  | .storing _ _ _ => { holds := true, storing := true, notifying := true }
  | .posted _ _ job => { holds := true, notifying := true, posted := some job }
  | .notify _ _ job => { notifying := true, posted := some job }
  | .await _ job stage => .waiting stage (some job)
  | .finished _ job => { holds := true, settled := true, posted := some job }
  | .returned (.scheduleJobSync _ job) => { settled := true, posted := some job }
  | .returned (.scheduleJobAsync _ job) => { posted := some job }
  | .returned .joinAll => { settled := true }
  | _ => {}

/-- The owner has found that no job is set on worker `t`, which is not its target. -/
def passed (o : Owner Job) (t : Nat) : Bool :=
  match o with
  | .join t' _ | .joined t' => t < t'
  | .returned .joinAll => true
  | _ => false

def view (o : Owner Job) (t : Nat) : View Job :=
  if o.target = t then o.targetView else { settled := o.passed t }

theorem view_of_target {t : Nat} {o : Owner Job} (h : o.target = t) : o.view t = o.targetView := by
  simp [view, h]

theorem view_constructing {t : Nat} : (constructing : Owner Job).view t = {} := by
  unfold view
  split <;> rfl

theorem view_schedule {sync : Bool} {t t' : Nat} {job : Job}
    : (schedule sync t job .locking).view t' = {} := by
  unfold view
  split <;> rfl

theorem view_returned_joinAll {t : Nat}
    : (returned .joinAll : Owner Job).view t = { settled := true } := by
  unfold view
  split <;> rfl

theorem view_idle {t : Nat} : (idle : Owner Job).view t = {} := by
  unfold view
  split <;> rfl

theorem view_joinFrom {n t t' : Nat} (h : t' < t)
    : (joinFrom n t : Owner Job).view t' = { settled := true } := by
  unfold joinFrom
  split
  . simp [view, target, passed, h, show t ≠ t' by omega]
  . simp [view, targetView, passed]

end Owner
namespace Cell

def pending (c : Cell Job) (storing : Bool) : List Job :=
  if c.thread.jobSet && !storing && !c.pc.hasRun then c.thread.job.toList else []

structure LocksOk (v : View Job) (c : Cell Job) : Prop where
  worker_holds : c.thread.monitor.holder = some .worker ↔ c.pc.holds = true
  owner_holds : c.thread.monitor.holder = some .owner ↔ v.holds = true
  worker_blocked : c.thread.monitor.blocked .worker = true → c.pc = .wait .waiting
  owner_blocked : c.thread.monitor.blocked .owner = true → v.waits = true

structure FlagsOk (v : View Job) (c : Cell Job) : Prop where
  stays : c.pc.hasLeft = false
  ready : c.thread.wtReady = !c.pc.inJob
  set : c.pc.hasJob = true ∨ v.storing = true → c.thread.jobSet = true
  settled : v.settled = true ∨ c.pc = .wait .blocking → c.thread.jobSet = false
  job : c.thread.jobSet = true → v.storing = false → c.thread.job.isSome = true
  running : ∀ job, c.pc = .running job → c.thread.job = some job
  done : c.thread.jobDone = true → c.thread.jobSet = true → c.pc = .done ∨ v.clearing = true
  announced : c.pc = .done → c.thread.jobDone = true

structure SleepOk (v : View Job) (c : Cell Job) : Prop where
  worker_asleep : c.thread.monitor.blocked .worker = true
    → c.thread.jobSet = false ∨ v.notifying = true
  owner_asleep : c.thread.monitor.blocked .owner = true ∨ v.fallsAsleep = true
    → c.thread.jobSet = true ∨ c.pc = .unset

structure QueueOk (v : View Job) (c : Cell Job) : Prop where
  queue : c.scheduled = c.executed ++ c.pending v.storing
  last : ∀ job, v.posted = some job
    → c.scheduled.getLast? = some job ∧ (c.thread.jobSet = true ∨ c.thread.jobDone = true)

variable {v : View Job} {c c' : Cell Job} {spurious : Bool}

theorem LocksOk.worker (h : LocksOk v c) (hmoves : c.Moves true spurious c') : LocksOk v c' := by
  obtain ⟨hworker, howner, hblocked, hwaits⟩ := h
  cases hmoves with
  | await hpc hawaits => cases hawaits <;> constructor <;> simp_all [Worker.holds, Stage.holds]
  | _ => constructor <;> simp_all [Worker.holds, Stage.holds]

/-- While the worker holds its mutex, the owner neither posts a job nor falls asleep. -/
theorem LocksOk.not_holds (h : LocksOk v c) (hpc : c.pc.holds = true) : v.holds = false := by
  have hholder := h.worker_holds.mpr hpc
  simpa [hholder] using h.owner_holds

theorem LocksOk.not_storing (h : LocksOk v c) (hpc : c.pc.holds = true) : v.storing = false := by
  have hstoring := v.holds_of_storing
  simpa [h.not_holds hpc] using hstoring

theorem LocksOk.not_fallsAsleep (h : LocksOk v c) (hpc : c.pc.holds = true)
    : v.fallsAsleep = false := by
  have hasleep := v.holds_of_fallsAsleep
  simpa [h.not_holds hpc] using hasleep

theorem FlagsOk.worker (h : FlagsOk v c) (hlocks : LocksOk v c) (hmoves : c.Moves true spurious c')
    : FlagsOk v c' := by
  have hstoring := hlocks.not_storing
  have hclearing := v.storing_of_clearing
  obtain ⟨hstays, hready, hset, hsettled, hjob, hrunning, hdone, hannounced⟩ := h
  clear hlocks
  cases hmoves with
  | exit _ hkeep => simp at hkeep
  | leave _ hkeep => simp at hkeep
  | release hpc => simp [hpc, Worker.hasLeft] at hstays
  | stop hpc => simp [hpc, Worker.hasLeft] at hstays
  | await hpc hawaits =>
    cases hawaits <;> constructor <;>
      simp_all [Worker.holds, Stage.holds, Worker.hasLeft, Worker.inJob, Worker.hasJob]
  | run hpc hget =>
    clear hrunning
    constructor <;> simp_all [Worker.holds, Worker.hasLeft, Worker.inJob, Worker.hasJob]
  | ret hpc =>
    clear hrunning
    constructor <;> simp_all [Worker.holds, Worker.hasLeft, Worker.inJob, Worker.hasJob]
  | _ => constructor <;> simp_all [Worker.holds, Worker.hasLeft, Worker.inJob, Worker.hasJob]

theorem SleepOk.worker (h : SleepOk v c) (hlocks : LocksOk v c) (hflags : FlagsOk v c)
    (hmoves : c.Moves true spurious c') : SleepOk v c' := by
  have hasleep := hlocks.not_fallsAsleep
  have hblocked := hlocks.worker_blocked
  have hsettled := hflags.settled
  have hset := hflags.set
  obtain ⟨hworker, howner⟩ := h
  clear hlocks hflags
  cases hmoves with
  | await hpc hawaits => cases hawaits <;> constructor <;> simp_all
  | notify hpc hwoken =>
    rename_i p
    cases p with
    | worker => simp [hblocked hwoken] at hpc
    | owner => constructor <;> simp_all [Worker.holds, Worker.hasJob]
  | _ => constructor <;> simp_all [Worker.holds, Worker.hasJob]

theorem QueueOk.worker (h : QueueOk v c) (hlocks : LocksOk v c) (hflags : FlagsOk v c)
    (hmoves : c.Moves true spurious c') : QueueOk v c' := by
  have hstoring := hlocks.not_storing
  have hset := hflags.set
  have hannounced := hflags.announced
  have hqueue := h.queue
  have hlast := h.last
  clear h
  constructor
  . cases hmoves with
    | ret hpc =>
      -- The job that was pending is the next one that has been executed.
      have hjob := hflags.running _ hpc
      clear hlocks hflags hlast
      simp_all [pending, Worker.holds, Worker.hasRun, Worker.hasJob]
    | await hpc hawaits =>
      clear hlast
      cases hawaits <;> simp_all [pending, Worker.holds, Worker.hasRun, Worker.hasJob]
    | _ =>
      clear hlast
      simp_all [pending, Worker.holds, Worker.hasRun, Worker.hasJob]
  . intro job hposted
    obtain ⟨hjob, hflag⟩ := hlast job hposted
    cases hmoves with
    | done hpc => exact ⟨hjob, .inr rfl⟩
    | unset hpc => exact ⟨hjob, .inr (hannounced hpc)⟩
    | _ => exact ⟨hjob, hflag⟩

structure JobsOk (v : View Job) (c : Cell Job) : Prop where
  locks : LocksOk v c
  flags : FlagsOk v c
  sleep : SleepOk v c
  queue : QueueOk v c

theorem JobsOk.worker (h : JobsOk v c) (hmoves : c.Moves true spurious c') : JobsOk v c' where
  locks := h.locks.worker hmoves
  flags := h.flags.worker h.locks hmoves
  sleep := h.sleep.worker h.locks h.flags hmoves
  queue := h.queue.worker h.locks h.flags hmoves

end Cell
namespace Cell

open Owner (view target targetView view_idle view_joinFrom)

variable {v : View Job} {o o' : Owner Job} {n : Nat} {spurious : Bool} {c c' : Cell Job}

theorem LocksOk.outside (h : LocksOk v c) (hholds : v.holds = true) : c.pc.Outside := by
  apply Worker.outside_of_not_holds
  have hholder := h.owner_holds.mpr hholds
  simpa [hholder] using h.worker_holds

section Awaits

variable {posted : Option Job} {stage : Stage} {pred : Bool} {m : Monitor Party}
  {next : Option Stage}

abbrev passed (posted : Option Job) : View Job :=
  { holds := true, settled := true, posted := posted }

theorem LocksOk.awaits (h : LocksOk (.waiting stage posted) c)
    (hawaits : c.thread.monitor.Awaits .owner pred spurious stage m next)
    : LocksOk (next.elim (passed posted) (.waiting · posted)) (c.setMonitor m) := by
  obtain ⟨hworker, howner, hblocked, hwaits⟩ := h
  cases hawaits <;> constructor <;> simp_all [View.waiting, Stage.holds]

theorem FlagsOk.awaits (h : FlagsOk (.waiting stage posted) c)
    (hlocks : LocksOk (.waiting stage posted) c)
    (hpred : stage.holds = true → pred = !c.thread.jobSet)
    (hawaits : c.thread.monitor.Awaits .owner pred spurious stage m next)
    : FlagsOk (next.elim (passed posted) (.waiting · posted)) (c.setMonitor m) := by
  obtain ⟨hstays, hready, hset, hsettled, hjob, hrunning, hdone, hannounced⟩ := h
  have houtside := hlocks.outside
  cases hawaits <;> constructor <;> simp_all [View.waiting, Stage.holds]

theorem SleepOk.awaits (h : SleepOk (.waiting stage posted) c)
    (hlocks : LocksOk (.waiting stage posted) c)
    (hpred : stage.holds = true → pred = !c.thread.jobSet)
    (hawaits : c.thread.monitor.Awaits .owner pred spurious stage m next)
    : SleepOk (next.elim (passed posted) (.waiting · posted)) (c.setMonitor m) := by
  obtain ⟨hasleep, hasleep'⟩ := h
  have houtside := hlocks.outside
  cases hawaits <;> constructor <;> simp_all [View.waiting, Stage.holds]

theorem QueueOk.awaits (h : QueueOk (.waiting stage posted) c)
    (hawaits : c.thread.monitor.Awaits .owner pred spurious stage m next)
    : QueueOk (next.elim (passed posted) (.waiting · posted)) (c.setMonitor m) := by
  obtain ⟨hqueue, hlast⟩ := h
  cases hawaits <;> exact ⟨hqueue, hlast⟩

/-- While the owner holds the mutex, each predicate that it waits for says that no job is set. -/
theorem JobsOk.awaits (h : JobsOk (.waiting stage posted) c)
    (hpred : stage.holds = true → pred = !c.thread.jobSet)
    (hawaits : c.thread.monitor.Awaits .owner pred spurious stage m next)
    : JobsOk (next.elim (passed posted) (.waiting · posted)) (c.setMonitor m) where
  locks := h.locks.awaits hawaits
  flags := h.flags.awaits h.locks hpred hawaits
  sleep := h.sleep.awaits h.locks hpred hawaits
  queue := h.queue.awaits hawaits

end Awaits
section Post

variable {job : Job}

theorem JobsOk.set (h : JobsOk (passed none) c)
    : JobsOk { holds := true, clearing := true, storing := true, notifying := true }
      { c with thread := { c.thread with jobSet := true } } := by
  have houtside := h.locks.outside rfl
  obtain ⟨⟨hworker, howner, hblocked, hwaits⟩,
    ⟨hstays, hready, hset, hsettled, hjob, hrunning, hdone, hannounced⟩,
    ⟨hasleep, hasleep'⟩, ⟨hqueue, hlast⟩⟩ := h
  refine ⟨⟨hworker, howner, hblocked, hwaits⟩, ?_, ?_, ?_⟩
  . constructor <;> simp_all [houtside.not_blocking]
  . constructor <;> simp_all
  . constructor <;> simp_all [pending]

theorem JobsOk.clear
    (h : JobsOk { holds := true, clearing := true, storing := true, notifying := true } c)
    : JobsOk { holds := true, storing := true, notifying := true }
      { c with thread := { c.thread with jobDone := false } } := by
  have houtside := h.locks.outside rfl
  obtain ⟨⟨hworker, howner, hblocked, hwaits⟩,
    ⟨hstays, hready, hset, hsettled, hjob, hrunning, hdone, hannounced⟩,
    ⟨hasleep, hasleep'⟩, ⟨hqueue, hlast⟩⟩ := h
  refine ⟨⟨hworker, howner, hblocked, hwaits⟩, ?_, ⟨hasleep, hasleep'⟩, ?_⟩
  . constructor <;> simp_all [houtside.not_done]
  . constructor <;> simp_all [pending]

theorem JobsOk.store
    (h : JobsOk { holds := true, storing := true, notifying := true } c)
    : JobsOk { holds := true, notifying := true, posted := some job }
      { c with
        thread := { c.thread with job := some job }
        scheduled := c.scheduled ++ [job] } := by
  have houtside := h.locks.outside rfl
  obtain ⟨⟨hworker, howner, hblocked, hwaits⟩,
    ⟨hstays, hready, hset, hsettled, hjob, hrunning, hdone, hannounced⟩,
    ⟨hasleep, hasleep'⟩, ⟨hqueue, hlast⟩⟩ := h
  refine ⟨⟨hworker, howner, hblocked, hwaits⟩, ?_, ⟨hasleep, hasleep'⟩, ?_⟩
  . constructor <;> simp_all [houtside.not_running]
  . constructor <;> simp_all [pending, houtside.hasRun]

theorem FlagsOk.setMonitor {v' : View Job} (h : FlagsOk v c) (m : Monitor Party)
    (hstoring : v'.storing = v.storing) (hclearing : v'.clearing = v.clearing)
    (hsettled : v'.settled = true → v.settled = true) : FlagsOk v' (c.setMonitor m) where
  stays := h.stays
  ready := h.ready
  set := by
    rw [hstoring]
    exact h.set
  settled := fun hv => h.settled (hv.imp_left hsettled)
  job := by
    rw [hstoring]
    exact h.job
  running := h.running
  done := by
    rw [hclearing]
    exact h.done
  announced := h.announced

theorem JobsOk.unlock {notifying settled : Bool} {posted : Option Job}
    (h : JobsOk { holds := true, notifying := notifying, settled := settled, posted := posted } c)
    : JobsOk { notifying := notifying, settled := settled, posted := posted }
      (c.setMonitor c.thread.monitor.unlock) := by
  have houtside := h.locks.outside rfl
  obtain ⟨⟨hworker, howner, hblocked, hwaits⟩, hflags, ⟨hasleep, hasleep'⟩, ⟨hqueue, hlast⟩⟩ := h
  refine ⟨?_, hflags.setMonitor _ rfl rfl id, ⟨hasleep, hasleep'⟩, ⟨hqueue, hlast⟩⟩
  constructor <;> simp_all

theorem JobsOk.wake {p : Party} (h : JobsOk { notifying := true, posted := some job } c)
    (hwoken : c.thread.monitor.blocked p = true)
    : JobsOk { posted := some job } (c.setMonitor (c.thread.monitor.wake p)) := by
  obtain ⟨⟨hworker, howner, hblocked, hwaits⟩, hflags, ⟨hasleep, hasleep'⟩, ⟨hqueue, hlast⟩⟩ := h
  cases p with
  | owner => simpa using hwaits hwoken
  | worker =>
    refine ⟨?_, hflags.setMonitor _ rfl rfl id, ?_, ⟨hqueue, hlast⟩⟩
    . constructor <;> simp_all
    . constructor <;> simp_all

theorem JobsOk.pass (h : JobsOk { notifying := true, posted := some job } c)
    (hnone : ∀ p, c.thread.monitor.blocked p = false)
    : JobsOk { posted := some job } c := by
  obtain ⟨⟨hworker, howner, hblocked, hwaits⟩, hflags, ⟨hasleep, hasleep'⟩, ⟨hqueue, hlast⟩⟩ := h
  refine ⟨⟨hworker, howner, hblocked, hwaits⟩, ?_, ?_, ⟨hqueue, hlast⟩⟩
  . exact hflags.setMonitor c.thread.monitor rfl rfl id
  . constructor <;> simp_all

theorem JobsOk.away {settled : Bool} {posted : Option Job}
    (h : JobsOk { settled := settled, posted := posted } c) : JobsOk {} c := by
  obtain ⟨⟨hworker, howner, hblocked, hwaits⟩, hflags, ⟨hasleep, hasleep'⟩, ⟨hqueue, hlast⟩⟩ := h
  refine ⟨⟨hworker, howner, hblocked, hwaits⟩, ?_, ⟨hasleep, hasleep'⟩, ⟨hqueue, by simp⟩⟩
  exact hflags.setMonitor c.thread.monitor rfl rfl (by simp)

end Post

theorem JobsOk.ready (h : JobsOk v c) (hholds : v.holds = true) : c.thread.wtReady = true := by
  simp [h.flags.ready, (h.locks.outside hholds).inJob]

theorem JobsOk.done {job : Job} (h : JobsOk v c) (hholds : v.holds = true)
    (hposted : v.posted = some job) (hstoring : v.storing = false)
    : c.thread.jobDone = !c.thread.jobSet := by
  have hclearing := v.storing_of_clearing
  have hdone := h.flags.done
  have hlast := (h.queue.last job hposted).2
  have hpc := (h.locks.outside hholds).not_done
  cases hset : c.thread.jobSet <;> simp_all

theorem JobsOk.of_target {t : Nat} (ht : o.target = t) (h : JobsOk o.targetView c)
    : JobsOk (o.view t) c := by
  rwa [Owner.view_of_target ht]

theorem JobsOk.owner (h : JobsOk o.targetView c) (hmoves : Owner.Moves n spurious c o o' c')
    (hstops : o.stops = false) : JobsOk (o'.view o.target) c' := by
  cases hmoves with
  | @schedule sync t job stage m next hawaits =>
    have hpred : stage.holds = true → (!c.thread.jobSet && c.thread.wtReady) = !c.thread.jobSet := by
      intro hholds
      simp [h.ready hholds]
    have hnext := JobsOk.awaits h hpred hawaits
    cases next <;> exact JobsOk.of_target rfl hnext
  | @await t job stage m next hawaits =>
    have hpred : stage.holds = true → c.thread.jobDone = !c.thread.jobSet := by
      intro hholds
      exact h.done hholds rfl rfl
    have hnext := JobsOk.awaits h hpred hawaits
    cases next <;> exact JobsOk.of_target rfl hnext
  | @join t stage m next hawaits =>
    have hpred : stage.holds = true → (c.thread.wtReady && !c.thread.jobSet) = !c.thread.jobSet := by
      intro hholds
      simp [h.ready hholds]
    have hnext := JobsOk.awaits h hpred hawaits
    cases next <;> exact JobsOk.of_target rfl hnext
  | set => exact JobsOk.of_target rfl (JobsOk.set h)
  | clear => exact JobsOk.of_target rfl (JobsOk.clear h)
  | store => exact JobsOk.of_target rfl (JobsOk.store h)
  | unlock => exact JobsOk.of_target rfl (JobsOk.unlock h)
  | @notify sync t job p hwoken =>
    cases sync <;> exact JobsOk.of_target rfl (JobsOk.wake h hwoken)
  | @pass sync t job hnone =>
    cases sync <;> exact JobsOk.of_target rfl (JobsOk.pass h hnone)
  | finish => exact JobsOk.of_target rfl (JobsOk.unlock h)
  | @joined t =>
    rw [show (Owner.joined t : Owner Job).target = t from rfl, view_joinFrom (Nat.lt_succ_self t)]
    exact JobsOk.unlock h
  | @ret call =>
    rw [view_idle]
    cases call <;> exact JobsOk.away h
  | announce => simp [Owner.stops] at hstops
  | skip => simp [Owner.stops] at hstops

end Cell
end WorkerPool
