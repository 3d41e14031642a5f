import RdmaSync.CommunicationManager
import RdmaSync.Rdma.Lone

/-!
This module contains the experiment with a single worker that locks the same cache line over and over,
in each of the ways that its flags select, and the proof that the worker is never refused and leaves
the memory as it was.
-/

namespace Lock

open Rdma CommunicationManager
open Rdma.Action (cpus serves)

def exclusiveLocked : Word := 0x1000000000000000

def exclusiveUnlockToBeAdded : Word := 0xFFFFFFFFFFFFFFFF - exclusiveLocked + 1

def unlocked : Word := 0

inductive Ctx where
  | rctx
  deriving DecidableEq

inductive Buffer where
  | old
  deriving DecidableEq

inductive Failure where
  | notLocked
  | ensure
  deriving DecidableEq

abbrev Code := Prog Ctx Buffer Failure

structure Experiment where
  addr : Nat
  speculativeRead : Bool
  writeCombining : Bool
  write : Bool
  orderRelease : Bool
  unlockWrite : Bool
  addr_aligned : addr % 8 = 0

namespace Experiment

variable (x : Experiment)

def pollCQ : Code Unit :=
  pollCompletions .rctx 1

def checkLocked (i : Nat) (expected : Word) : Code Unit := do
  let y ← load (.old, i)
  if y ≠ expected then
    Prog.throw .notLocked
  else
    return ()

def ensureData : Code Unit := do
  let y ← load (.old, 1)
  if y ≠ 10 then
    Prog.throw .ensure
  else
    return ()

def postReadLine : Code Unit :=
  postRead (.old, 0) .rctx signaled x.addr 64 false

section Write

/-- Lock with the last word of the line, and unlock by writing the line. -/
def unlockWrites : Code Unit := do
  postCompareSwap unlocked exclusiveLocked (.old, 0) .rctx unsignaled (x.addr + 56)
  x.postReadLine
  pollCQ
  checkLocked 7 exclusiveLocked
  ensureData
  store (.old, 7) 0
  postWrite (.old, 0) .rctx unsignaled x.addr 64

def xLock : Code Unit :=
  if x.speculativeRead then do
    -- according to spec that should be fine ... but broken?!
    postCompareSwap unlocked exclusiveLocked (.old, 0) .rctx unsignaled x.addr
    x.postReadLine
    pollCQ
    checkLocked 0 exclusiveLocked
    ensureData
  else do
    postCompareSwap unlocked exclusiveLocked (.old, 0) .rctx signaled x.addr
    pollCQ
    checkLocked 0 unlocked
    x.postReadLine
    pollCQ
    ensureData

def xUnlock : Code Unit :=
  if x.writeCombining then
    if x.orderRelease then do
      postWrite (.old, 0) .rctx unsignaled x.addr 64
      postFetchAdd exclusiveUnlockToBeAdded (.old, 0) .rctx unsignaled x.addr true
    else do
      postWrite (.old, 0) .rctx unsignaled x.addr 64
      postFetchAdd exclusiveUnlockToBeAdded (.old, 0) .rctx signaled x.addr false
      pollCQ
  else do
    postWrite (.old, 0) .rctx signaled x.addr 64
    pollCQ
    postFetchAdd exclusiveUnlockToBeAdded (.old, 0) .rctx signaled x.addr false
    pollCQ

end Write

section Read

def sLock : Code Unit :=
  if x.speculativeRead then do
    -- according to spec that should be fine ... but broken?!
    postFetchAdd 1 (.old, 0) .rctx unsignaled x.addr false
    x.postReadLine
    pollCQ
    checkLocked 0 1
    ensureData
  else do
    postFetchAdd 1 (.old, 0) .rctx signaled x.addr false
    pollCQ
    checkLocked 0 unlocked
    x.postReadLine
    pollCQ
    ensureData

def sUnlock : Code Unit :=
  if x.orderRelease then
    -- TODO must use fence
    postFetchAdd (-1) (.old, 0) .rctx unsignaled x.addr true
  else do
    postFetchAdd (-1) (.old, 0) .rctx signaled x.addr false
    pollCQ

end Read

def iteration : Code Unit :=
  if x.write then
    if x.unlockWrite then
      x.unlockWrites
    else do
      x.xLock
      x.xUnlock
  else do
    x.sLock
    x.sUnlock

def workload (nic : Nic) : Workload Ctx Buffer Failure Unit Unit :=
  .loop nic x.iteration

/-- What the storage node prepares: the lock words are free, and the second word is 10. -/
structure Prepared (m : Mem) : Prop where
  lock : m (x.addr / 8) = unlocked
  data : m (x.addr / 8 + 1) = 10
  last : m (x.addr / 8 + 7) = unlocked

section Run

variable {x} {m : Mem} {l : Local Buffer}

theorem load_addr (m : Mem) : load64 m x.addr = m (x.addr / 8) := by
  exact load64_aligned m x.addr_aligned

theorem load_last (m : Mem) : load64 m (x.addr + 56) = m (x.addr / 8 + 7) := by
  have haligned := x.addr_aligned
  rw [load64_aligned m (by omega)]
  congr 1
  omega

theorem store_addr (m : Mem) (y : Word)
    : store64 m x.addr y = Function.update m (x.addr / 8) y := by
  exact store64_aligned m y x.addr_aligned

def fetch (x : Experiment) (l : Local Buffer) (m : Mem) : Local Buffer :=
  ((Verb.read (Buffer.old, 0) x.addr 64).perform l m).1

theorem fetch_old (l : Local Buffer) (m : Mem) {i : Nat} (hi : i < 8)
    : x.fetch l m .old i = m (x.addr / 8 + i) := by
  simp [fetch, Verb.perform, hi]

theorem checkLocked_run {i : Nat} {y : Word} (h : l .old i = y) (f : Unit → Code Unit)
    : (checkLocked i y >>= f).run l m = (f ()).run l m := by
  simp [checkLocked, load, Prog.run, h]

theorem ensureData_run (h : l .old 1 = 10) (f : Unit → Code Unit)
    : (ensureData >>= f).run l m = (f ()).run l m := by
  simp [ensureData, load, Prog.run, h]

theorem readLine_run {i : Nat} {y : Word} (hi : i < 8) (hlock : m (x.addr / 8 + i) = y)
    (hdata : m (x.addr / 8 + 1) = 10) (l : Local Buffer) (f : Unit → Code Unit)
    : (x.postReadLine >>= fun _ => pollCQ >>= fun _ => checkLocked i y >>= fun _ =>
        ensureData >>= f).run l m = (f ()).run (x.fetch l m) m := by
  show (checkLocked i y >>= fun _ => ensureData >>= f).run (x.fetch l m) m = _
  rw [checkLocked_run (by rw [fetch_old l m hi, hlock]),
    ensureData_run (by rw [fetch_old l m (by decide), hdata])]

def withLock (x : Experiment) (m : Mem) (y : Word) : Mem :=
  Function.update m (x.addr / 8) y

theorem withLock_lock (y : Word) : x.withLock m y (x.addr / 8) = y := by
  simp [withLock]

theorem withLock_data (h : x.Prepared m) (y : Word) : x.withLock m y (x.addr / 8 + 1) = 10 := by
  rw [withLock, Function.update_of_ne (by omega), h.data]

theorem xLock_run (h : x.Prepared m) (l : Local Buffer) (f : Unit → Code Unit)
    : ∃ l', (x.xLock >>= f).run l m
        = (f ()).run (x.fetch l' (x.withLock m exclusiveLocked)) (x.withLock m exclusiveLocked) := by
  have hswap : (if load64 m x.addr = unlocked then store64 m x.addr exclusiveLocked else m)
      = x.withLock m exclusiveLocked := by
    rw [load_addr, if_pos h.lock, store_addr]
    rfl
  refine ⟨l.set (.old, 0) (load64 m x.addr), ?_⟩
  unfold xLock
  split
  . simp only [Prog.bind_assoc]
    show (x.postReadLine >>= fun _ => pollCQ >>= fun _ => checkLocked 0 exclusiveLocked >>= fun _ =>
      ensureData >>= f).run (l.set (.old, 0) (load64 m x.addr))
        (if load64 m x.addr = unlocked then store64 m x.addr exclusiveLocked else m) = _
    rw [hswap, readLine_run (by decide) (withLock_lock _) (withLock_data h _)]
  . simp only [Prog.bind_assoc]
    show (checkLocked 0 unlocked >>= fun _ => x.postReadLine >>= fun _ => pollCQ >>= fun _ =>
      ensureData >>= f).run (l.set (.old, 0) (load64 m x.addr))
        (if load64 m x.addr = unlocked then store64 m x.addr exclusiveLocked else m) = _
    rw [hswap, checkLocked_run (by rw [load_addr, h.lock]; rfl)]
    show (ensureData >>= f).run (x.fetch _ _) _ = _
    rw [ensureData_run (by rw [fetch_old _ _ (by decide), withLock_data h])]
    rfl

theorem sLock_run (h : x.Prepared m) (l : Local Buffer) (f : Unit → Code Unit)
    : ∃ l', (x.sLock >>= f).run l m = (f ()).run (x.fetch l' (x.withLock m 1)) (x.withLock m 1) := by
  have hadd : store64 m x.addr (load64 m x.addr + 1) = x.withLock m 1 := by
    rw [load_addr, h.lock, store_addr]
    rfl
  refine ⟨l.set (.old, 0) (load64 m x.addr), ?_⟩
  unfold sLock
  split
  . simp only [Prog.bind_assoc]
    show (x.postReadLine >>= fun _ => pollCQ >>= fun _ => checkLocked 0 1 >>= fun _ =>
      ensureData >>= f).run (l.set (.old, 0) (load64 m x.addr))
        (store64 m x.addr (load64 m x.addr + 1)) = _
    rw [hadd, readLine_run (by decide) (withLock_lock _) (withLock_data h _)]
  . simp only [Prog.bind_assoc]
    show (checkLocked 0 unlocked >>= fun _ => x.postReadLine >>= fun _ => pollCQ >>= fun _ =>
      ensureData >>= f).run (l.set (.old, 0) (load64 m x.addr))
        (store64 m x.addr (load64 m x.addr + 1)) = _
    rw [hadd, checkLocked_run (by rw [load_addr, h.lock]; rfl)]
    show (ensureData >>= f).run (x.fetch _ _) _ = _
    rw [ensureData_run (by rw [fetch_old _ _ (by decide), withLock_data h])]
    rfl

theorem store_withLock (h : x.Prepared m) {y z : Word} (hz : y + z = 0)
    : store64 (x.withLock m y) x.addr (load64 (x.withLock m y) x.addr + z) = m := by
  rw [load_addr, withLock_lock, hz, store_addr, withLock, Function.update_idem,
    Function.update_eq_self_iff]
  exact h.lock.symm

theorem perform_write (l : Local Buffer) (m : Mem)
    : (Verb.write (Buffer.old, 0) x.addr 64).perform (x.fetch l m) m = (x.fetch l m, m) := by
  apply Verb.perform_write_of_eq
  intro i hi
  rw [Nat.zero_add]
  exact fetch_old l m hi

theorem xUnlock_run (h : x.Prepared m) (l : Local Buffer)
    : ∃ l', x.xUnlock.run (x.fetch l (x.withLock m exclusiveLocked)) (x.withLock m exclusiveLocked)
        = (.ok (), l', m) := by
  have hunlock := store_withLock h (y := exclusiveLocked) (z := exclusiveUnlockToBeAdded) (by decide)
  have hwrite := perform_write (x := x) l (x.withLock m exclusiveLocked)
  unfold xUnlock
  split
  . split
    . simp only [postWrite, postFetchAdd, Prog.bind_post, Prog.bind_ret, Prog.run, hwrite]
      exact ⟨_, Prod.ext rfl (Prod.ext rfl hunlock)⟩
    . simp only [postWrite, postFetchAdd, pollCQ, pollCompletions, Prog.bind_post, Prog.bind_ret,
        Prog.run, hwrite]
      exact ⟨_, Prod.ext rfl (Prod.ext rfl hunlock)⟩
  . simp only [postWrite, postFetchAdd, pollCQ, pollCompletions, Prog.bind_post, Prog.bind_poll,
      Prog.bind_ret, Prog.run, hwrite]
    exact ⟨_, Prod.ext rfl (Prod.ext rfl hunlock)⟩

theorem sUnlock_run (h : x.Prepared m) (l : Local Buffer)
    : ∃ l', x.sUnlock.run l (x.withLock m 1) = (.ok (), l', m) := by
  have hunlock := store_withLock h (y := 1) (z := -1) (by decide)
  unfold sUnlock
  split
  . exact ⟨_, Prod.ext rfl (Prod.ext rfl hunlock)⟩
  . exact ⟨_, Prod.ext rfl (Prod.ext rfl hunlock)⟩

theorem unlockWrites_run (h : x.Prepared m) (l : Local Buffer)
    : ∃ l', x.unlockWrites.run l m = (.ok (), l', m) := by
  have hswap : (if load64 m (x.addr + 56) = unlocked then store64 m (x.addr + 56) exclusiveLocked
      else m) = Function.update m (x.addr / 8 + 7) exclusiveLocked := by
    have haligned := x.addr_aligned
    rw [load_last, if_pos h.last, store64_aligned _ _ (by omega)]
    congr 1
    omega
  have hdata : Function.update m (x.addr / 8 + 7) exclusiveLocked (x.addr / 8 + 1) = 10 := by
    rw [Function.update_of_ne (by omega), h.data]
  unfold unlockWrites
  show ∃ l', (x.postReadLine >>= fun _ => pollCQ >>= fun _ => checkLocked 7 exclusiveLocked >>= fun _ =>
    ensureData >>= fun _ => store (.old, 7) 0 >>= fun _ =>
      postWrite (.old, 0) .rctx unsignaled x.addr 64).run (l.set (.old, 0) (load64 m (x.addr + 56)))
        (if load64 m (x.addr + 56) = unlocked then store64 m (x.addr + 56) exclusiveLocked else m)
    = (.ok (), l', m)
  rw [hswap, readLine_run (by decide) (Function.update_self ..) hdata]
  refine ⟨_, Prod.ext rfl (Prod.ext rfl ?_)⟩
  funext j
  -- The word that is written to the lock is zero, all others are what they were.
  show (if _ ∧ _ then _ else _) = m j
  split
  . next hin =>
    rw [Local.set_apply]
    by_cases hj : j = x.addr / 8 + 7
    . rw [if_pos ⟨rfl, by simp only; omega⟩, hj, h.last]
      rfl
    . rw [if_neg (by simp only; omega), Nat.zero_add, fetch_old _ _ (by omega),
        Nat.add_sub_cancel' hin.1, Function.update_of_ne hj]
  . next hin => rw [Function.update_of_ne (by omega)]

theorem iteration_run (h : x.Prepared m) (l : Local Buffer)
    : ∃ l', x.iteration.run l m = (.ok (), l', m) := by
  unfold iteration
  split
  . split
    . exact unlockWrites_run h l
    . obtain ⟨l', hrun⟩ := xLock_run h l fun _ => x.xUnlock
      rw [hrun]
      exact xUnlock_run h l'
  . obtain ⟨l', hrun⟩ := sLock_run h l fun _ => x.sUnlock
    rw [hrun]
    exact sUnlock_run h _

end Run

section Discipline

variable {x} {u : List (Verb Buffer × Bool)} {f : Unit → Code Unit}

theorem synced_checkLocked {i : Nat} {y : Word} (h : Synced .rctx LoopEnds (f ()) [])
    : Synced .rctx LoopEnds (checkLocked i y >>= f) [] := by
  refine ⟨quiet_nil _, ?_⟩
  intro z
  show Synced .rctx LoopEnds ((if z ≠ y then .throw .notLocked else .ret ()) >>= f) []
  rw [Prog.bind_ite]
  exact Synced.check rfl h

theorem synced_ensureData (h : Synced .rctx LoopEnds (f ()) [])
    : Synced .rctx LoopEnds (ensureData >>= f) [] := by
  refine ⟨quiet_nil _, ?_⟩
  intro z
  show Synced .rctx LoopEnds ((if z ≠ 10 then .throw .ensure else .ret ()) >>= f) []
  rw [Prog.bind_ite]
  exact Synced.check rfl h

theorem synced_readLine (hu : ∀ p ∈ u, p.2 = false) (h : Synced .rctx LoopEnds (f ()) [])
    : Synced .rctx LoopEnds (x.postReadLine >>= fun _ => pollCQ >>= f) u := by
  exact Synced.read_poll hu h

theorem synced_fetchAdd (hu : ∀ p ∈ u, p.2 = false) (toAdd : Word) (fence : Bool)
    (h : Synced .rctx LoopEnds (f ()) [])
    : Synced .rctx LoopEnds (postFetchAdd toAdd (.old, 0) .rctx signaled x.addr fence >>= fun _ =>
        pollCQ >>= f) u := by
  exact Synced.post_poll hu (fun _ h => h.elim) h

theorem synced_xLock (hu : ∀ p ∈ u, p.2 = false) (h : Synced .rctx LoopEnds (f ()) [])
    : Synced .rctx LoopEnds (x.xLock >>= f) u := by
  unfold xLock
  split
  . simp only [Prog.bind_assoc]
    refine ⟨rfl, fun _ h => h.elim, ?_⟩
    exact synced_readLine (append_unsignaled hu _) (synced_checkLocked (synced_ensureData h))
  . simp only [Prog.bind_assoc]
    apply Synced.post_poll (v := .compareSwap ..) hu (fun _ h => h.elim)
    exact synced_checkLocked (synced_readLine (by simp) (synced_ensureData h))

theorem synced_sLock (hu : ∀ p ∈ u, p.2 = false) (h : Synced .rctx LoopEnds (f ()) [])
    : Synced .rctx LoopEnds (x.sLock >>= f) u := by
  unfold sLock
  split
  . simp only [Prog.bind_assoc]
    refine ⟨rfl, fun _ h => h.elim, ?_⟩
    exact synced_readLine (append_unsignaled hu _) (synced_checkLocked (synced_ensureData h))
  . simp only [Prog.bind_assoc]
    apply synced_fetchAdd hu
    exact synced_checkLocked (synced_readLine (by simp) (synced_ensureData h))

theorem synced_xUnlock : Synced .rctx LoopEnds x.xUnlock [] := by
  unfold xUnlock
  split
  . split
    . refine ⟨rfl, fun a _ => quiet_nil a, rfl, fun _ h => h.elim, ?_⟩
      simp [Synced, LoopEnds, unsignaled]
    . refine ⟨rfl, fun a _ => quiet_nil a, ?_⟩
      exact synced_fetchAdd (f := .ret) (by simp [unsignaled]) _ false (by simp [Synced, LoopEnds])
  . apply Synced.post_poll (by simp) (fun a _ => quiet_nil a)
    exact synced_fetchAdd (f := .ret) (by simp) _ false (by simp [Synced, LoopEnds])

theorem synced_sUnlock : Synced .rctx LoopEnds x.sUnlock [] := by
  unfold sUnlock
  split
  . refine ⟨rfl, fun _ h => h.elim, ?_⟩
    simp [Synced, LoopEnds, unsignaled]
  . exact synced_fetchAdd (f := .ret) (by simp) _ false (by simp [Synced, LoopEnds])

theorem synced_iteration (hu : ∀ p ∈ u, p.2 = false) : Synced .rctx LoopEnds x.iteration u := by
  unfold iteration
  split
  . split
    . refine ⟨rfl, fun _ h => h.elim, ?_⟩
      apply synced_readLine (append_unsignaled hu _)
      apply synced_checkLocked
      apply synced_ensureData
      refine ⟨quiet_nil _, rfl, fun a _ => quiet_nil a, ?_⟩
      simp [Synced, LoopEnds, unsignaled]
    . exact synced_xLock hu synced_xUnlock
  . exact synced_sLock hu synced_sUnlock

end Discipline

/-- A single worker always gets the lock, and gives it back. -/
theorem lock_undisturbed {x : Experiment} {nic : Nic} {s₀ s : Sys Unit Ctx Buffer Failure Unit Unit}
    (hfresh : s₀.Fresh) (hprepared : x.Prepared s₀.shared.mem)
    (hreach : Sys.Reach (x.workload nic) Sys.anyStep s₀ s) : Undisturbed s₀.shared.mem s := by
  exact undisturbed_of_run (fun _ hu => synced_iteration hu) (iteration_run hprepared) hfresh hreach

def sample : Experiment where
  addr := 0
  speculativeRead := true
  writeCombining := true
  write := true
  orderRelease := true
  unlockWrite := false
  addr_aligned := aligned_zero

/-- The requests that unlock the line are still in flight when the next iteration locks it. -/
def overlappingRun : List (Action Unit Ctx Unit) :=
  List.flatten [
    [.start () ()], cpus () 2, serves () .rctx [0], serves () .rctx [0], [.cpu () 1], cpus () 4,
    [.finish (), .start () ()], cpus () 2, serves () .rctx [0], serves () .rctx [0],
    serves () .rctx [0], serves () .rctx [0], [.cpu () 1], cpus () 4, [.finish ()],
    serves () .rctx [0], serves () .rctx [0]]

theorem lock_undisturbed_overlappingRun
    : ∃ s : Sys Unit Ctx Buffer Failure Unit Unit,
        Undisturbed (fun j => if j = 1 then 10 else 0) s ∧ (s.worker ()).done.length = 2 := by
  have hrun : ((Sys.initial (fun j => if j = 1 then 10 else 0) (fun _ _ => 0)).run
      (sample.workload { atomicReadBytes := 0, inOrderWrites := false }) overlappingRun).any
      (fun s => (s.worker ()).done.length == 2) = true := by
    decide +kernel
  obtain ⟨s, hreach, hdone⟩ := Sys.exists_reach_of_run hrun
  rw [beq_iff_eq] at hdone
  exact ⟨s, lock_undisturbed (Sys.initial_fresh _ _) ⟨rfl, rfl, rfl⟩ hreach, hdone⟩

end Experiment
end Lock
