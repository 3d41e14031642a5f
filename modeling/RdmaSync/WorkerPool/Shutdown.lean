import RdmaSync.WorkerPool.Moves

/-!
This module contains the destruction of a worker pool: when the owner can spin forever because a worker
sleeps through its notification.
-/

namespace WorkerPool

open Threads

variable {Job : Type}

namespace Worker

def fallsAsleep (pc : Worker Job) : Bool :=
  match pc with
  | .wait .blocking => true
  | _ => false

end Worker

namespace Owner

def stops (o : Owner Job) : Bool :=
  match o with
  | .announcing _ | .spinning | .destroyed => true
  | _ => false

/-- It has notified worker `t` that the pool is destroyed. -/
def told (o : Owner Job) (t : Nat) : Bool :=
  match o with
  | .announcing t' => t < t'
  | .spinning | .destroyed => true
  | _ => false

def waitsAt (o : Owner Job) (t : Nat) : Bool :=
  match o with
  | .schedule _ t' _ .waiting | .await t' _ .waiting | .join t' .waiting => t' = t
  | _ => false

variable {o : Owner Job} {n t t' : Nat}

theorem eq_target_of_waitsAt (h : o.waitsAt t = true) : t = o.target := by
  unfold waitsAt at h
  split at h <;> simp_all [target]

theorem stops_joinFrom : (joinFrom n t : Owner Job).stops = false := by
  unfold joinFrom
  split <;> rfl

theorem stops_announceFrom : (announceFrom n t : Owner Job).stops = true := by
  unfold announceFrom
  split <;> rfl

theorem told_announceFrom (h : t' < n) : (announceFrom n t : Owner Job).told t' = decide (t' < t) := by
  unfold announceFrom
  split
  . rfl
  . next hn => simp [told, show t' < t by omega]

theorem stops_of_told (h : o.told t = true) : o.stops = true := by
  cases o <;> simp_all [told, stops]

theorem stops_of_begin {call : Call Job} (h : begin n call = some o) : o.stops = false := by
  obtain ⟨sync, t, job, _, rfl⟩ | rfl | ⟨_, rfl⟩ := begin_isCall h
  . rfl
  . exact stops_joinFrom
  . rfl

end Owner
namespace Cell

variable {c c' : Cell Job} {keepRunning spurious : Bool}

structure Awake (c : Cell Job) : Prop where
  blocked : c.thread.monitor.blocked .worker = false
  pc : c.pc.fallsAsleep = false

theorem Moves.awake (hmoves : c.Moves false spurious c') (h : c.Awake) : c'.Awake := by
  obtain ⟨hblocked, hpc⟩ := h
  cases hmoves with
  | await hstage hawaits =>
    cases hawaits with
    | lock => exact ⟨hblocked, rfl⟩
    | pass => exact ⟨hblocked, rfl⟩
    | fail hpred => simp at hpred
    | block => simp [hstage, Worker.fallsAsleep] at hpc
    | wake => exact ⟨by simp, rfl⟩
  | notify => exact ⟨by simp [hblocked], rfl⟩
  | enter _ hkeep => simp at hkeep
  | call _ hkeep => simp at hkeep
  | _ => exact ⟨hblocked, rfl⟩

theorem Moves.blocked_owner (hmoves : c.Moves keepRunning spurious c')
    (h : c'.thread.monitor.blocked .owner = true) : c.thread.monitor.blocked .owner = true := by
  cases hmoves with
  | await hstage hawaits => cases hawaits <;> simp_all
  | notify => simp_all
  | _ => exact h

end Cell
namespace Owner

variable {o o' : Owner Job} {n t : Nat} {spurious : Bool} {c c' : Cell Job}

theorem Moves.waitsAt (hmoves : Moves n spurious c o o' c')
    (h : c.thread.monitor.blocked .owner = true → o.waitsAt o.target = true)
    (hblocked : c'.thread.monitor.blocked .owner = true) : o'.waitsAt o.target = true := by
  cases hmoves with
  | schedule hawaits =>
    cases hawaits with
    | block => simp [Owner.waitsAt, target]
    | wake => simp at hblocked
    | _ => simpa [Owner.waitsAt] using h hblocked
  | await hawaits =>
    cases hawaits with
    | block => simp [Owner.waitsAt, target]
    | wake => simp at hblocked
    | _ => simpa [Owner.waitsAt] using h hblocked
  | join hawaits =>
    cases hawaits with
    | block => simp [Owner.waitsAt, target]
    | wake => simp at hblocked
    | _ => simpa [Owner.waitsAt] using h hblocked
  | notify => simp_all [Owner.waitsAt]
  | announce => simp_all [Owner.waitsAt]
  | _ => simpa [Owner.waitsAt] using h hblocked

theorem Moves.stops (hmoves : Moves n spurious c o o' c') : o'.stops = o.stops := by
  cases hmoves with
  | announce => exact stops_announceFrom
  | skip => exact stops_announceFrom
  | joined => exact stops_joinFrom
  | schedule hawaits => cases hawaits <;> rfl
  | await hawaits => cases hawaits <;> rfl
  | join hawaits => cases hawaits <;> rfl
  | notify => split <;> rfl
  | pass => split <;> rfl
  | _ => rfl

/-- A step after which worker `t` is told is its notification, unless it was told before. -/
theorem Moves.told (hmoves : Moves n spurious c o o' c') (ht : t < n) (h : o'.told t = true)
    : o.told t = true ∧ t ≠ o.target ∨ o = .announcing t := by
  have hstops := hmoves.stops ▸ stops_of_told h
  have htold : ∀ t', (announceFrom n (t' + 1) : Owner Job).told t = true
      → Owner.told (.announcing t' : Owner Job) t = true ∧ t ≠ t' ∨ t' = t := by
    intro t' h
    rw [told_announceFrom ht] at h
    simp only [Owner.told, decide_eq_true_eq] at *
    omega
  cases hmoves with
  | announce => exact (htold _ h).imp id (congrArg _)
  | skip => exact (htold _ h).imp id (congrArg _)
  | _ => simp [Owner.stops] at hstops

theorem Moves.awake (hmoves : Moves n spurious c (.announcing t) o' c')
    (howner : c.thread.monitor.blocked .owner = false) (hpc : c.pc.fallsAsleep = false) : c'.Awake := by
  cases hmoves with
  | announce hblocked =>
    refine ⟨?_, hpc⟩
    rename_i p
    cases p with
    | worker => simp
    | owner => simp [howner] at hblocked
  | skip hnone => exact ⟨hnone .worker, hpc⟩

end Owner
namespace Pool

/-- The owner notifies a worker that found its predicate false and will block. -/
def notifiesLate (s : Pool Job) (a : Action Job) : Bool :=
  match s.owner, a with
  | .announcing t, .owner _ _ => (s.cell t).pc.fallsAsleep
  | _, _ => false

/-- The owner spins until all workers have stopped, and a worker is blocked. -/
def Hangs (n : Nat) (s : Pool Job) : Prop :=
  s.owner = .spinning ∧ ∃ t < n, (s.cell t).thread.monitor.blocked .worker = true

structure ShutdownOk (n : Nat) (s : Pool Job) : Prop where
  waits : ∀ t, (s.cell t).thread.monitor.blocked .owner = true → s.owner.waitsAt t = true
  stops : s.owner.stops = true → s.keepRunning = false
  told : ∀ t < n, s.owner.told t = true → (s.cell t).Awake

variable {n t : Nat} {s s' : Pool Job} {a : Action Job}

theorem shutdownOk_created : ShutdownOk n (created : Pool Job) where
  waits := by simp [created, Monitor.free]
  stops := by simp [created, Owner.stops]
  told := by simp [created, Owner.told]

theorem shutdownOk_step (h : ShutdownOk n s) (hlate : s.notifiesLate a = false)
    (hstep : step n s a = some s') : ShutdownOk n s' := by
  cases moves_of_step hstep with
  | worker ht hmoves =>
    rename_i t spurious woken c
    refine ⟨?_, h.stops, ?_⟩
    . intro t' hblocked
      apply h.waits
      by_cases htt : t' = t
      . subst htt
        simp only [cell_setCell_self] at hblocked
        exact hmoves.blocked_owner hblocked
      . simpa [htt] using hblocked
    . intro t' ht' htold
      have hawake := h.told t' ht' htold
      by_cases htt : t' = t
      . subst htt
        rw [h.stops (Owner.stops_of_told htold)] at hmoves
        simpa using hmoves.awake hawake
      . simpa [htt] using hawake
  | call hidle hbegin =>
    rename_i call o
    have hstops := Owner.stops_of_begin hbegin
    refine ⟨?_, by simp [hstops], ?_⟩
    . intro t hblocked
      simpa [hidle, Owner.waitsAt] using h.waits t hblocked
    . intro t ht htold
      simp [Owner.stops_of_told htold] at hstops
  | constructed howner =>
    refine ⟨?_, by simp [Owner.stops], by simp [Owner.told]⟩
    intro t hblocked
    simpa [howner, Owner.waitsAt] using h.waits t hblocked
  | destroy howner =>
    refine ⟨?_, fun _ => rfl, ?_⟩
    . intro t hblocked
      simpa [howner, Owner.waitsAt] using h.waits t hblocked
    . intro t ht htold
      simp [Owner.told_announceFrom ht] at htold
  | destroyed howner =>
    refine ⟨?_, fun _ => h.stops (by simp [howner, Owner.stops]), ?_⟩
    . intro t hblocked
      simpa [howner, Owner.waitsAt] using h.waits t hblocked
    . intro t ht _
      exact h.told t ht (by simp [howner, Owner.told])
  | owner hmoves =>
    rename_i spurious woken o c
    refine ⟨?_, ?_, ?_⟩
    . intro t hblocked
      by_cases htt : t = s.owner.target
      . subst htt
        simp only [cell_setCell_self] at hblocked
        exact hmoves.waitsAt (h.waits _) hblocked
      . simp only [ne_eq, htt, not_false_eq_true, cell_setCell_of_ne] at hblocked
        exact absurd (Owner.eq_target_of_waitsAt (h.waits t hblocked)) htt
    . intro hstops
      exact h.stops (hmoves.stops ▸ hstops)
    . intro t ht htold
      obtain ⟨htold, htarget⟩ | hannouncing := hmoves.told ht htold
      . simpa [htarget] using h.told t ht htold
      . have htarget : s.owner.target = t := by rw [hannouncing]; rfl
        rw [htarget, hannouncing] at hmoves
        have hpc : (s.cell t).pc.fallsAsleep = false := by
          simpa [notifiesLate, hannouncing] using hlate
        have howner : (s.cell t).thread.monitor.blocked .owner = false := by
          simpa [hannouncing, Owner.waitsAt] using h.waits t
        simpa [htarget] using hmoves.awake howner hpc

/-- In a run in which no worker is notified late, the destruction of the pool does not hang. -/
theorem shutdown_does_not_hang
    (h : Step.Reach (step n) (fun s a => s.notifiesLate a = false) (created : Pool Job) s)
    : ¬ Hangs n s := by
  intro ⟨howner, t, ht, hblocked⟩
  have hok : ShutdownOk n s :=
    h.invariant shutdownOk_created fun s a s' h hlate hstep => shutdownOk_step h hlate hstep
  have hawake := hok.told t ht (by simp [howner, Owner.told])
  simp [hawake.blocked] at hblocked

theorem exists_announce (howner : s.owner = .announcing t)
    : ∃ m, Step.Reach (step n) Step.any s
      { s.setCell t ((s.cell t).setMonitor m) with owner := Owner.announceFrom n (t + 1) } := by
  obtain ⟨woken, m, hnotify⟩ := (s.cell t).thread.monitor.exists_notifyOne
  refine ⟨m, .next (.owner false woken) .refl trivial ?_⟩
  simp [step, howner, Owner.target, Owner.step, hnotify]

theorem exists_hangs {k : Nat} (ht : t < n) (htk : t < k)
    (hblocked : (s.cell t).thread.monitor.blocked .worker = true)
    (howner : s.owner = Owner.announceFrom n k)
    : ∃ s', Step.Reach (step n) Step.any s s' ∧ Hangs n s' := by
  induction hrest : n - k generalizing s k with
  | zero =>
    have hspinning : s.owner = .spinning := by simp [howner, Owner.announceFrom]; omega
    exact ⟨s, .refl, hspinning, t, ht, hblocked⟩
  | succ rest ih =>
    have hannouncing : s.owner = .announcing k := by simp [howner, Owner.announceFrom]; omega
    obtain ⟨m, hreach⟩ := exists_announce hannouncing
    have hne : t ≠ k := by omega
    obtain ⟨s', hreach', hhangs⟩ := ih (s := { s.setCell k ((s.cell k).setMonitor m) with
      owner := Owner.announceFrom n (k + 1) }) (k := k + 1) (by omega)
      (by simpa [hne] using hblocked) rfl (by omega)
    exact ⟨s', hreach.trans hreach', hhangs⟩

theorem exists_block (ht : t < n) (hpc : (s.cell t).pc = .wait .blocking)
    : ∃ s', Step.Reach (step n) Step.any s s' ∧ s'.owner = s.owner
      ∧ (s'.cell t).thread.monitor.blocked .worker = true := by
  have hstep : step n s (.worker t false none) = some
      { s.setCell t (((s.cell t).setMonitor ((s.cell t).thread.monitor.block .worker)).goto
          (.wait .waiting)) with runningThreads := countRunning s.runningThreads (s.cell t).pc } := by
    simp [step, ht, hpc, Cell.step, Monitor.await]
  exact ⟨_, .next _ .refl trivial hstep, rfl, by simp⟩

/-- A late notification can always be followed by a hang. -/
theorem exists_hangs_of_late (ht : t < n) (howner : s.owner = .announcing t)
    (hpc : (s.cell t).pc = .wait .blocking)
    : ∃ s', Step.Reach (step n) Step.any s s' ∧ Hangs n s' := by
  obtain ⟨m, hannounce⟩ := exists_announce (n := n) howner
  obtain ⟨s₁, hblock, howner₁, hblocked⟩ := exists_block (t := t) (n := n)
    (s := { s.setCell t ((s.cell t).setMonitor m) with owner := Owner.announceFrom n (t + 1) })
    ht (by simpa using hpc)
  obtain ⟨s', hspin, hhangs⟩ := exists_hangs ht (Nat.lt_succ_self t) hblocked howner₁
  exact ⟨s', (hannounce.trans hblock).trans hspin, hhangs⟩

def notifiedRun : List (Action Unit) :=
  List.replicate 5 (.worker 0 false none) ++
    [.owner false none, .call .destroy, .owner false none, .owner false (some .worker)]

theorem shutdown_does_not_hang_notifiedRun
    : ∃ s : Pool Unit, s.owner = .spinning ∧ ¬ Hangs 1 s := by
  obtain ⟨s, hreach, hs⟩ := Step.exists_reach_of_runIf
    (show (Step.runIf (step 1) (fun s a => !s.notifiesLate a) created notifiedRun).any
      (fun s => s.owner = .spinning) = true by decide +kernel)
  refine ⟨s, by simpa using hs, shutdown_does_not_hang (hreach.mono ?_)⟩
  intro s a hlate
  simpa using hlate

/-- The worker finds its predicate false, the owner destroys the pool, and then the worker blocks. -/
def lateRun : List (Action Unit) :=
  List.replicate 4 (.worker 0 false none) ++
    [.owner false none, .call .destroy, .owner false none, .owner false none, .worker 0 false none]

theorem shutdown_hangs_lateRun
    : ∃ s : Pool Unit, Step.Reach (step 1) Step.any created s ∧ Hangs 1 s := by
  obtain ⟨s, hreach, hs⟩ := Step.exists_reach_of_run
    (show (Step.run (step 1) created lateRun).any (fun s =>
      s.owner = .spinning ∧ (s.cell 0).thread.monitor.blocked .worker = true) = true by
      decide +kernel)
  simp only [decide_eq_true_eq] at hs
  exact ⟨s, hreach, hs.1, 0, by decide, hs.2⟩

end Pool
end WorkerPool
