import RdmaSync.WorkerPool.Impl

/-!
This module contains what the steps of a worker and of the owner can do, as relations.
-/

namespace WorkerPool

open Threads

variable {Job : Type}

namespace Cell

variable (c : Cell Job)

section

variable (pc : Worker Job) (m : Monitor Party)

@[simp]
theorem pc_goto : (c.goto pc).pc = pc := by
  rfl

@[simp]
theorem thread_goto : (c.goto pc).thread = c.thread := by
  rfl

@[simp]
theorem scheduled_goto : (c.goto pc).scheduled = c.scheduled := by
  rfl

@[simp]
theorem executed_goto : (c.goto pc).executed = c.executed := by
  rfl

@[simp]
theorem pc_setMonitor : (c.setMonitor m).pc = c.pc := by
  rfl

@[simp]
theorem thread_setMonitor : (c.setMonitor m).thread = { c.thread with monitor := m } := by
  rfl

@[simp]
theorem scheduled_setMonitor : (c.setMonitor m).scheduled = c.scheduled := by
  rfl

@[simp]
theorem executed_setMonitor : (c.setMonitor m).executed = c.executed := by
  rfl

end

inductive Moves (keepRunning spurious : Bool) : Cell Job → Prop where
  | start (hpc : c.pc = .starting) : Moves keepRunning spurious (c.goto .loop)
  | enter (hpc : c.pc = .loop) (hkeep : keepRunning = true)
    : Moves keepRunning spurious (c.goto (.wait .locking))
  | exit (hpc : c.pc = .loop) (hkeep : keepRunning = false)
    : Moves keepRunning spurious (c.goto .stopping)
  | await {stage : Stage} {m : Monitor Party} {next : Option Stage} (hpc : c.pc = .wait stage)
    (hawaits : c.thread.monitor.Awaits .worker (!keepRunning || c.thread.jobSet) spurious stage m
      next)
    : Moves keepRunning spurious ((c.setMonitor m).goto (next.elim .woken .wait))
  | call (hpc : c.pc = .woken) (hkeep : keepRunning = true)
    : Moves keepRunning spurious
      { c with pc := .called, thread := { c.thread with wtReady := false } }
  | leave (hpc : c.pc = .woken) (hkeep : keepRunning = false)
    : Moves keepRunning spurious (c.goto .leaving)
  | run {job : Job} (hpc : c.pc = .called) (hjob : c.thread.job = some job)
    : Moves keepRunning spurious (c.goto (.running job))
  | ret {job : Job} (hpc : c.pc = .running job)
    : Moves keepRunning spurious { c with pc := .returned, executed := c.executed ++ [job] }
  | ready (hpc : c.pc = .returned)
    : Moves keepRunning spurious
      { c with pc := .ready, thread := { c.thread with wtReady := true } }
  | done (hpc : c.pc = .ready)
    : Moves keepRunning spurious { c with pc := .done, thread := { c.thread with jobDone := true } }
  | unset (hpc : c.pc = .done)
    : Moves keepRunning spurious
      { c with pc := .unset, thread := { c.thread with jobSet := false } }
  | notify {p : Party} (hpc : c.pc = .unset) (hblocked : c.thread.monitor.blocked p = true)
    : Moves keepRunning spurious ((c.setMonitor (c.thread.monitor.wake p)).goto .notified)
  | pass (hpc : c.pc = .unset) (hnone : ∀ p, c.thread.monitor.blocked p = false)
    : Moves keepRunning spurious (c.goto .notified)
  | unlock (hpc : c.pc = .notified)
    : Moves keepRunning spurious ((c.setMonitor c.thread.monitor.unlock).goto .loop)
  | release (hpc : c.pc = .leaving)
    : Moves keepRunning spurious ((c.setMonitor c.thread.monitor.unlock).goto .stopping)
  | stop (hpc : c.pc = .stopping) : Moves keepRunning spurious (c.goto .stopped)

variable {c}

theorem moves_of_step {keepRunning spurious : Bool} {woken : Option Party} {c' : Cell Job}
    (h : c.step keepRunning spurious woken = some c') : c.Moves keepRunning spurious c' := by
  cases hpc : c.pc with
  | wait stage =>
    simp only [step, hpc, Option.map_eq_some_iff] at h
    obtain ⟨⟨m, next⟩, hawait, rfl⟩ := h
    exact .await hpc (Monitor.awaits_of_await hawait)
  | called =>
    simp only [step, hpc] at h
    split at h
    . next job hjob =>
      obtain rfl := Option.some.inj h
      exact .run hpc hjob
    . simp at h
  | unset =>
    simp only [step, hpc, Option.map_eq_some_iff] at h
    obtain ⟨m, hnotify, rfl⟩ := h
    obtain ⟨p, hblocked, rfl⟩ | ⟨hnone, rfl⟩ := Monitor.of_notifyOne hnotify
    . exact .notify hpc hblocked
    . exact .pass hpc hnone
  | loop =>
    simp only [step, hpc] at h
    obtain rfl := Option.some.inj h
    cases keepRunning with
    | true => exact .enter hpc rfl
    | false => exact .exit hpc rfl
  | woken =>
    simp only [step, hpc] at h
    cases keepRunning with
    | true =>
      obtain rfl := Option.some.inj h
      exact .call hpc rfl
    | false =>
      obtain rfl := Option.some.inj h
      exact .leave hpc rfl
  | stopped => simp [step, hpc] at h
  | _ =>
    simp only [step, hpc] at h
    obtain rfl := Option.some.inj h
    constructor
    exact hpc

end Cell

namespace Owner

inductive Moves (n : Nat) (spurious : Bool) (c : Cell Job)
    : Owner Job → Owner Job → Cell Job → Prop where
  | schedule {sync : Bool} {t : Nat} {job : Job} {stage : Stage} {m : Monitor Party}
    {next : Option Stage}
    (hawaits : c.thread.monitor.Awaits .owner (!c.thread.jobSet && c.thread.wtReady) spurious stage
      m next)
    : Moves n spurious c (.schedule sync t job stage)
      (next.elim (.setting sync t job) (.schedule sync t job)) (c.setMonitor m)
  | set {sync : Bool} {t : Nat} {job : Job}
    : Moves n spurious c (.setting sync t job) (.clearing sync t job)
      { c with thread := { c.thread with jobSet := true } }
  | clear {sync : Bool} {t : Nat} {job : Job}
    : Moves n spurious c (.clearing sync t job) (.storing sync t job)
      { c with thread := { c.thread with jobDone := false } }
  | store {sync : Bool} {t : Nat} {job : Job}
    : Moves n spurious c (.storing sync t job) (.posted sync t job)
      { c with thread := { c.thread with job := some job }, scheduled := c.scheduled ++ [job] }
  | unlock {sync : Bool} {t : Nat} {job : Job}
    : Moves n spurious c (.posted sync t job) (.notify sync t job)
      (c.setMonitor c.thread.monitor.unlock)
  | notify {sync : Bool} {t : Nat} {job : Job} {p : Party}
    (hblocked : c.thread.monitor.blocked p = true)
    : Moves n spurious c (.notify sync t job)
      (if sync then .await t job .locking else .returned (.scheduleJobAsync t job))
      (c.setMonitor (c.thread.monitor.wake p))
  | pass {sync : Bool} {t : Nat} {job : Job} (hnone : ∀ p, c.thread.monitor.blocked p = false)
    : Moves n spurious c (.notify sync t job)
      (if sync then .await t job .locking else .returned (.scheduleJobAsync t job)) c
  | await {t : Nat} {job : Job} {stage : Stage} {m : Monitor Party} {next : Option Stage}
    (hawaits : c.thread.monitor.Awaits .owner c.thread.jobDone spurious stage m next)
    : Moves n spurious c (.await t job stage) (next.elim (.finished t job) (.await t job))
      (c.setMonitor m)
  | finish {t : Nat} {job : Job}
    : Moves n spurious c (.finished t job) (.returned (.scheduleJobSync t job))
      (c.setMonitor c.thread.monitor.unlock)
  | join {t : Nat} {stage : Stage} {m : Monitor Party} {next : Option Stage}
    (hawaits : c.thread.monitor.Awaits .owner (c.thread.wtReady && !c.thread.jobSet) spurious stage
      m next)
    : Moves n spurious c (.join t stage) (next.elim (.joined t) (.join t)) (c.setMonitor m)
  | joined {t : Nat}
    : Moves n spurious c (.joined t) (joinFrom n (t + 1)) (c.setMonitor c.thread.monitor.unlock)
  | ret {call : Call Job} : Moves n spurious c (.returned call) .idle c
  | announce {t : Nat} {p : Party} (hblocked : c.thread.monitor.blocked p = true)
    : Moves n spurious c (.announcing t) (announceFrom n (t + 1))
      (c.setMonitor (c.thread.monitor.wake p))
  | skip {t : Nat} (hnone : ∀ p, c.thread.monitor.blocked p = false)
    : Moves n spurious c (.announcing t) (announceFrom n (t + 1)) c

theorem moves_of_step {o o' : Owner Job} {n : Nat} {spurious : Bool} {woken : Option Party}
    {c c' : Cell Job} (h : o.step n spurious woken c = some (o', c'))
    : Moves n spurious c o o' c' := by
  cases o with
  | schedule sync t job stage =>
    simp only [step, Option.map_eq_some_iff, Prod.mk.injEq] at h
    obtain ⟨⟨m, next⟩, hawait, rfl, rfl⟩ := h
    exact .schedule (Monitor.awaits_of_await hawait)
  | await t job stage =>
    simp only [step, Option.map_eq_some_iff, Prod.mk.injEq] at h
    obtain ⟨⟨m, next⟩, hawait, rfl, rfl⟩ := h
    exact .await (Monitor.awaits_of_await hawait)
  | join t stage =>
    simp only [step, Option.map_eq_some_iff, Prod.mk.injEq] at h
    obtain ⟨⟨m, next⟩, hawait, rfl, rfl⟩ := h
    exact .join (Monitor.awaits_of_await hawait)
  | notify sync t job =>
    simp only [step, Option.map_eq_some_iff, Prod.mk.injEq] at h
    obtain ⟨m, hnotify, rfl, rfl⟩ := h
    obtain ⟨p, hblocked, rfl⟩ | ⟨hnone, rfl⟩ := Monitor.of_notifyOne hnotify
    . exact .notify hblocked
    . exact .pass hnone
  | announcing t =>
    simp only [step, Option.map_eq_some_iff, Prod.mk.injEq] at h
    obtain ⟨m, hnotify, rfl, rfl⟩ := h
    obtain ⟨p, hblocked, rfl⟩ | ⟨hnone, rfl⟩ := Monitor.of_notifyOne hnotify
    . exact .announce hblocked
    . exact .skip hnone
  | constructing | idle | destroying | spinning | destroyed => simp [step] at h
  | _ =>
    simp only [step, Option.some.injEq, Prod.mk.injEq] at h
    obtain ⟨rfl, rfl⟩ := h
    constructor

theorem begin_isCall {n : Nat} {call : Call Job} {o : Owner Job} (h : begin n call = some o)
    : (∃ sync t job, t < n ∧ o = .schedule sync t job .locking) ∨ o = joinFrom n 0
      ∨ call = .destroy ∧ o = .destroying := by
  cases call with
  | scheduleJobSync t job =>
    simp only [begin, Option.ite_none_right_eq_some, Option.some.injEq] at h
    exact .inl ⟨true, t, job, h.1, h.2.symm⟩
  | scheduleJobAsync t job =>
    simp only [begin, Option.ite_none_right_eq_some, Option.some.injEq] at h
    exact .inl ⟨false, t, job, h.1, h.2.symm⟩
  | joinAll => exact .inr (.inl (Option.some.inj h).symm)
  | destroy => exact .inr (.inr ⟨rfl, (Option.some.inj h).symm⟩)

end Owner
namespace Pool

section

variable (s : Pool Job) (t : Nat) (c : Cell Job)

@[simp]
theorem owner_setCell : (s.setCell t c).owner = s.owner := by
  rfl

@[simp]
theorem keepRunning_setCell : (s.setCell t c).keepRunning = s.keepRunning := by
  rfl

@[simp]
theorem cell_setCell_self : (s.setCell t c).cell t = c := by
  simp [setCell]

@[simp]
theorem cell_setCell_of_ne {t' : Nat} (h : t' ≠ t) : (s.setCell t c).cell t' = s.cell t' := by
  simp [setCell, h]

end

inductive Moves (n : Nat) (s : Pool Job) : Action Job → Pool Job → Prop where
  | worker {t : Nat} {spurious : Bool} {woken : Option Party} {c : Cell Job} (ht : t < n)
    (hmoves : (s.cell t).Moves s.keepRunning spurious c)
    : Moves n s (.worker t spurious woken)
      { s.setCell t c with runningThreads := countRunning s.runningThreads (s.cell t).pc }
  | call {call : Call Job} {o : Owner Job} (hidle : s.owner = .idle)
    (hbegin : Owner.begin n call = some o) : Moves n s (.call call) { s with owner := o }
  | constructed {spurious : Bool} {woken : Option Party} (howner : s.owner = .constructing)
    : Moves n s (.owner spurious woken) { s with owner := .idle }
  | destroy {spurious : Bool} {woken : Option Party} (howner : s.owner = .destroying)
    : Moves n s (.owner spurious woken)
      { s with keepRunning := false, owner := Owner.announceFrom n 0 }
  | destroyed {spurious : Bool} {woken : Option Party} (howner : s.owner = .spinning)
    (hstopped : s.runningThreads = 0) : Moves n s (.owner spurious woken) { s with owner := .destroyed }
  | owner {spurious : Bool} {woken : Option Party} {o : Owner Job} {c : Cell Job}
    (hmoves : Owner.Moves n spurious (s.cell s.owner.target) s.owner o c)
    : Moves n s (.owner spurious woken) { s.setCell s.owner.target c with owner := o }

theorem moves_of_step {n : Nat} {s s' : Pool Job} {a : Action Job} (h : step n s a = some s')
    : Moves n s a s' := by
  cases a with
  | worker t spurious woken =>
    simp only [step, Option.ite_none_right_eq_some, Option.map_eq_some_iff] at h
    obtain ⟨ht, c, hstep, rfl⟩ := h
    exact .worker ht (Cell.moves_of_step hstep)
  | call call =>
    simp only [step] at h
    split at h
    . next hidle =>
      obtain ⟨o, hbegin, rfl⟩ := Option.map_eq_some_iff.mp h
      exact .call hidle hbegin
    . simp at h
  | owner spurious woken =>
    simp only [step] at h
    split at h
    . next howner =>
      split at h
      . simp at h
      . obtain rfl := Option.some.inj h
        exact .constructed howner
    . next howner =>
      obtain rfl := Option.some.inj h
      exact .destroy howner
    . next howner =>
      simp only [Option.ite_none_right_eq_some, Option.some.injEq] at h
      obtain ⟨hstopped, rfl⟩ := h
      exact .destroyed howner hstopped
    . obtain ⟨⟨o, c⟩, hstep, rfl⟩ := Option.map_eq_some_iff.mp h
      exact .owner (Owner.moves_of_step hstep)

end Pool
end WorkerPool
