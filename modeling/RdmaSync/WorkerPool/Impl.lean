import RdmaSync.Threads.Monitor

/-!
This module contains the pool of worker threads: the loop of a worker, and what the thread that owns the
pool does when it schedules jobs, waits for them or destroys the pool.
-/

namespace WorkerPool

open Threads

/-- The threads that use the mutex of a worker: the worker itself and the owner of the pool. -/
inductive Party where
  | worker
  | owner
  deriving DecidableEq

instance : Fintype Party where
  elems := {.worker, .owner}
  complete := by intro p; cases p <;> decide

structure WorkerThread (Job : Type) where
  monitor : Monitor Party
  job : Option Job
  wtReady : Bool
  jobSet : Bool
  jobDone : Bool

inductive Worker (Job : Type) where
  | starting
  | loop
  | wait (stage : Stage)
  | woken
  | called
  | running (job : Job)
  | returned
  | ready
  | done
  | unset
  | notified
  | leaving
  | stopping
  | stopped
  deriving DecidableEq

inductive Call (Job : Type) where
  | scheduleJobSync (t : Nat) (job : Job)
  | scheduleJobAsync (t : Nat) (job : Job)
  | joinAll
  | destroy
  deriving DecidableEq

/-- Where the owner is. `sync` tells the two ways of scheduling apart. -/
inductive Owner (Job : Type) where
  | constructing
  | idle
  | schedule (sync : Bool) (t : Nat) (job : Job) (stage : Stage)
  | setting (sync : Bool) (t : Nat) (job : Job)
  | clearing (sync : Bool) (t : Nat) (job : Job)
  | storing (sync : Bool) (t : Nat) (job : Job)
  | posted (sync : Bool) (t : Nat) (job : Job)
  | notify (sync : Bool) (t : Nat) (job : Job)
  | await (t : Nat) (job : Job) (stage : Stage)
  | finished (t : Nat) (job : Job)
  | join (t : Nat) (stage : Stage)
  | joined (t : Nat)
  | returned (call : Call Job)
  | destroying
  | announcing (t : Nat)
  | spinning
  | destroyed
  deriving DecidableEq

/-- A worker thread with the jobs that were scheduled on it and that it has executed, oldest first. -/
structure Cell (Job : Type) where
  pc : Worker Job
  thread : WorkerThread Job
  scheduled : List Job
  executed : List Job

structure Pool (Job : Type) where
  runningThreads : Nat
  keepRunning : Bool
  cell : Nat → Cell Job
  owner : Owner Job

/-- What may happen next. A wakeup may be `spurious`, and a notification wakes one thread. -/
inductive Action (Job : Type) where
  | worker (t : Nat) (spurious : Bool) (woken : Option Party)
  | call (call : Call Job)
  | owner (spurious : Bool) (woken : Option Party)
  deriving DecidableEq

variable {Job : Type}

namespace Cell

variable (c : Cell Job)

def goto (pc : Worker Job) : Cell Job :=
  { c with pc := pc }

def setMonitor (m : Monitor Party) : Cell Job :=
  { c with thread := { c.thread with monitor := m } }

/-- One step of the worker loop, but for the number of running threads. -/
def step (keepRunning spurious : Bool) (woken : Option Party) : Option (Cell Job) :=
  match c.pc with
  | .starting => some (c.goto .loop)
  | .loop => some (c.goto (if keepRunning then .wait .locking else .stopping))
  | .wait stage =>
    (c.thread.monitor.await .worker (!keepRunning || c.thread.jobSet) spurious stage).map
      fun (m, next) => (c.setMonitor m).goto (next.elim .woken .wait)
  | .woken =>
    if keepRunning then
      some { c with pc := .called, thread := { c.thread with wtReady := false } }
    else
      some (c.goto .leaving)
  | .called =>
    match c.thread.job with
    | some job => some (c.goto (.running job))
    | none => none
  | .running job => some { c with pc := .returned, executed := c.executed ++ [job] }
  | .returned => some { c with pc := .ready, thread := { c.thread with wtReady := true } }
  | .ready => some { c with pc := .done, thread := { c.thread with jobDone := true } }
  | .done => some { c with pc := .unset, thread := { c.thread with jobSet := false } }
  | .unset => (c.thread.monitor.notifyOne woken).map fun m => (c.setMonitor m).goto .notified
  | .notified => some ((c.setMonitor c.thread.monitor.unlock).goto .loop)
  | .leaving => some ((c.setMonitor c.thread.monitor.unlock).goto .stopping)
  | .stopping => some (c.goto .stopped)
  | .stopped => none

end Cell

namespace Owner

def target (o : Owner Job) : Nat :=
  match o with
  | .schedule _ t _ _ | .setting _ t _ | .clearing _ t _ | .storing _ t _ | .posted _ t _
  | .notify _ t _ | .await t _ _ | .finished t _ | .join t _ | .joined t
  | .returned (.scheduleJobSync t _) | .returned (.scheduleJobAsync t _) | .announcing t => t
  | _ => 0

def joinFrom (n t : Nat) : Owner Job :=
  if t < n then .join t .locking else .returned .joinAll

def announceFrom (n t : Nat) : Owner Job :=
  if t < n then .announcing t else .spinning

/-- One step of the owner in a pool of `n` workers; `c` is the cell of its target. -/
def step (o : Owner Job) (n : Nat) (spurious : Bool) (woken : Option Party) (c : Cell Job)
    : Option (Owner Job × Cell Job) :=
  match o with
  | .schedule sync t job stage =>
    (c.thread.monitor.await .owner (!c.thread.jobSet && c.thread.wtReady) spurious stage).map
      fun (m, next) => (next.elim (.setting sync t job) (.schedule sync t job), c.setMonitor m)
  | .setting sync t job =>
    some (.clearing sync t job, { c with thread := { c.thread with jobSet := true } })
  | .clearing sync t job =>
    some (.storing sync t job, { c with thread := { c.thread with jobDone := false } })
  | .storing sync t job =>
    some (.posted sync t job,
      { c with thread := { c.thread with job := some job }, scheduled := c.scheduled ++ [job] })
  | .posted sync t job => some (.notify sync t job, c.setMonitor c.thread.monitor.unlock)
  | .notify sync t job =>
    (c.thread.monitor.notifyOne woken).map fun m =>
      (if sync then .await t job .locking else .returned (.scheduleJobAsync t job), c.setMonitor m)
  | .await t job stage =>
    (c.thread.monitor.await .owner c.thread.jobDone spurious stage).map
      fun (m, next) => (next.elim (.finished t job) (.await t job), c.setMonitor m)
  | .finished t job =>
    some (.returned (.scheduleJobSync t job), c.setMonitor c.thread.monitor.unlock)
  | .join t stage =>
    (c.thread.monitor.await .owner (c.thread.wtReady && !c.thread.jobSet) spurious stage).map
      fun (m, next) => (next.elim (.joined t) (.join t), c.setMonitor m)
  | .joined t => some (joinFrom n (t + 1), c.setMonitor c.thread.monitor.unlock)
  | .returned _ => some (.idle, c)
  | .announcing t =>
    (c.thread.monitor.notifyOne woken).map fun m => (announceFrom n (t + 1), c.setMonitor m)
  | .constructing | .idle | .destroying | .spinning | .destroyed => none

def begin (n : Nat) (call : Call Job) : Option (Owner Job) :=
  match call with
  | .scheduleJobSync t job => if t < n then some (.schedule true t job .locking) else none
  | .scheduleJobAsync t job => if t < n then some (.schedule false t job .locking) else none
  | .joinAll => some (joinFrom n 0)
  | .destroy => some .destroying

end Owner
namespace Pool

def created : Pool Job where
  runningThreads := 0
  keepRunning := true
  cell := fun _ =>
    { pc := .starting
      thread :=
        { monitor := .free, job := none, wtReady := true, jobSet := false, jobDone := false }
      scheduled := []
      executed := [] }
  owner := .constructing

def countRunning (runningThreads : Nat) (pc : Worker Job) : Nat :=
  match pc with
  | .starting => runningThreads + 1
  | .stopping => runningThreads - 1
  | _ => runningThreads

def setCell (s : Pool Job) (t : Nat) (c : Cell Job) : Pool Job :=
  { s with cell := Function.update s.cell t c }

def step (n : Nat) : Step (Pool Job) (Action Job) := fun s a =>
  match a with
  | .worker t spurious woken =>
    if t < n then
      ((s.cell t).step s.keepRunning spurious woken).map fun c =>
        { s.setCell t c with runningThreads := countRunning s.runningThreads (s.cell t).pc }
    else
      none
  | .call call =>
    match s.owner with
    | .idle => (Owner.begin n call).map fun o => { s with owner := o }
    | _ => none
  | .owner spurious woken =>
    match s.owner with
    | .constructing => if s.runningThreads < n then none else some { s with owner := .idle }
    | .destroying => some { s with keepRunning := false, owner := Owner.announceFrom n 0 }
    | .spinning => if s.runningThreads = 0 then some { s with owner := .destroyed } else none
    | o =>
      (o.step n spurious woken (s.cell o.target)).map fun (o', c) =>
        { s.setCell o.target c with owner := o' }

end Pool
end WorkerPool
