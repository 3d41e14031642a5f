import Mathlib.Data.BitVec
import RdmaSync.LockingBenchmark.Serializable
import RdmaSync.NamExperiment.Impl

/-!
This module contains the proof that the transactions on colocated nodes are serializable: on every
node the locks exclude each other, and together the tuples of all nodes count the updates of all
workers, who spread their transactions evenly.
-/

namespace LockingBenchmark.Benchmark

open Rdma CommunicationManager

variable [DecidableEq W] [Fintype W] {b : Benchmark} {nic : Nic}
  {s₀ s : Sys W Ctx Buffer Terminate Bool (Transaction b.lockCount)}

theorem not_throw_of_reach (hcard : Fintype.card W < 2 ^ 60) (hfresh : s₀.Fresh)
    (hzero : b.Zeroed s₀.shared.mem) (hreach : Sys.Reach (b.workload nic) Sys.anyStep s₀ s) (w : W)
    (op : Transaction b.lockCount) (since : Nat) (err : Terminate)
    : (s.worker w).control ≠ .running op since (.throw err) := by
  intro hcontrol
  obtain ⟨hinit, hok⟩ := sysOk_of_reach hcard hfresh hzero hreach op.lockId
  exact hok.post_throw _ hcontrol (fun _ h => h) rfl

theorem holder_unique_of_reach (hcard : Fintype.card W < 2 ^ 60) (hfresh : s₀.Fresh)
    (hzero : b.Zeroed s₀.shared.mem) (hreach : Sys.Reach (b.workload nic) Sys.anyStep s₀ s)
    (id : Fin b.lockCount) {w w' : W} (h : (b.counter id).lock.holds w s.shared.hist = true)
    (h' : (b.counter id).lock.holds w' s.shared.hist = true) : w = w' := by
  obtain ⟨hinit, hok⟩ := sysOk_of_reach hcard hfresh hzero hreach id
  exact hok.inv.holds_unique h h'

theorem lock_word_of_quiescent (hcard : Fintype.card W < 2 ^ 60) (hfresh : s₀.Fresh)
    (hzero : b.Zeroed s₀.shared.mem) (hreach : Sys.Reach (b.workload nic) Sys.anyStep s₀ s)
    (hquiescent : s.Quiescent) (id : Fin b.lockCount)
    : load64 s.shared.mem (b.lockAddr id) = 0 := by
  obtain ⟨hinit, hok⟩ := sysOk_of_reach hcard hfresh hzero hreach id
  show load64 s.shared.mem (b.counter id).addr = 0
  rw [CounterLock.load_addr]
  apply CounterLock.word_of_resting hok.inv
  intro w
  obtain ⟨mine, hrests, _⟩ := hok.ready _ (hquiescent.control w) (hquiescent.queue w _)
  exact ⟨mine, hrests⟩

theorem counts_of_quiescent (hcard : Fintype.card W < 2 ^ 60) (hfresh : s₀.Fresh)
    (hzero : b.Zeroed s₀.shared.mem) (hreach : Sys.Reach (b.workload nic) Sys.anyStep s₀ s)
    (hquiescent : s.Quiescent) (id : Fin b.lockCount) {i : Nat} (hi : 1 ≤ i) (hlt : i < b.words)
    : load64 s.shared.mem (b.lockAddr id + 8 * i) = BitVec.ofNat 64 (b.committed id s) := by
  obtain ⟨hinit, hok⟩ := sysOk_of_reach hcard hfresh hzero hreach id
  have hresting (w : W) : ∃ mine, (b.counter id).lock.Resting w mine s.shared ∧
      mine.length = writesOn id (s.worker w).done :=
    hok.ready _ (hquiescent.control w) (hquiescent.queue w _)
  have hinv : (b.counter id).Inv _ _ s.shared := hok.inv
  have hlen := RwLock.commits_length_of_resting hresting
  have hword := hinv.data (fun w => (hresting w).choose_spec.1.holds) (i - 1)
    (by show i - 1 < b.words - 1; omega)
  rw [RwLock.latest, snap_increments hinv.chain hinit (by omega), hlen] at hword
  have haddr : (b.counter id).base + i = (b.counter id).base + 1 + (i - 1) := by omega
  rw [b.load64_lockAddr, haddr]
  exact hword

end LockingBenchmark.Benchmark

namespace NamExperiment

open Rdma LockingBenchmark Threads
open Rdma.Action (cpus serves)

variable {storageNodes : Nat} [DecidableEq W] [Fintype W]

namespace Experiment

variable (e : Experiment storageNodes)

def holds (w : W) (sId : Fin storageNodes) (id : Fin e.lockCount) (r : State W e) : Bool :=
  ((e.onNode sId).counter id).lock.holds w (r.node sId).shared.hist

def wordAddr (sId : Fin storageNodes) (id : Fin e.lockCount) (i : Nat) : Nat :=
  (e.onNode sId).lockAddr id + 8 * i

def committed (sId : Fin storageNodes) (id : Fin e.lockCount) (r : State W e) : Nat :=
  ∑ w, writesOn id ((r.node sId).worker w).done

def updates (w : W) (r : State W e) : Nat :=
  ∑ sId, LockingBenchmark.updates ((r.node sId).worker w).done

def txP (w : W) (sId : Fin storageNodes) (r : State W e) : Nat :=
  ((r.node sId).worker w).done.countP fun d => d.2

structure Serializable (r : State W e) : Prop where
  never_throws : ∀ sId w op since err,
    ((r.node sId).worker w).control ≠ .running op since (.throw err)
  holder_unique : ∀ sId id w w', e.holds w sId id r = true → e.holds w' sId id r = true → w = w'
  unlocked : ∀ sId, (r.node sId).Quiescent → ∀ id,
    load64 (r.node sId).shared.mem (e.wordAddr sId id 0) = 0
  counts : ∀ sId, (r.node sId).Quiescent → ∀ id i, 1 ≤ i → i < e.tupleSize / 8 →
    load64 (r.node sId).shared.mem (e.wordAddr sId id i) = BitVec.ofNat 64 (e.committed sId id r)
  g_updates : (∀ sId, (r.node sId).Quiescent) →
    ∑ sId, ∑ id, load64 (r.node sId).shared.mem (e.wordAddr sId id 1)
      = BitVec.ofNat 64 (∑ w, e.updates w r)
  evenly : ∀ w, r.isIdle w = true → ∀ sId sId',
    e.txP w sId r ≤ e.txP w sId' r + r.jobs w + 1

structure Started (r : State W e) : Prop where
  fresh : ∀ sId, (r.node sId).Fresh
  zero : ∀ sId id i, i < e.tupleSize / 8 →
    load64 (r.node sId).shared.mem (e.wordAddr sId id i) = 0
  currentNode : ∀ w, r.currentNode w = 0

variable {e} {nic : Fin storageNodes → Nic} {r₀ r : State W e}

omit [DecidableEq W] in
theorem sum_committed (r : State W e)
    : ∑ sId, ∑ id, e.committed sId id r = ∑ w, e.updates w r := by
  have hnode (sId : Fin storageNodes)
      : ∑ id, e.committed sId id r
          = ∑ w, LockingBenchmark.updates ((r.node sId).worker w).done := by
    unfold committed
    rw [Finset.sum_comm]
    exact Finset.sum_congr rfl fun w _ => sum_writesOn _
  exact (Finset.sum_congr rfl fun sId _ => hnode sId).trans Finset.sum_comm

omit [DecidableEq W] [Fintype W] in
theorem ended_eq (sId : Fin storageNodes) (w : W) (r : State W e)
    : Rounds.ended (e.workload sId nic) ((r.node sId).worker w) = e.txP w sId r := by
  apply List.countP_congr
  rintro ⟨op, locked⟩ _
  cases locked <;> simp [workload, Next.isIdle]

variable [NeZero storageNodes]

omit [Fintype W] in
/-- What happens on a node is a run of the locking benchmark. -/
theorem reach_onNode (hreach : (Rounds.step fun sId => e.workload sId nic).Reach Step.any r₀ r)
    (sId : Fin storageNodes)
    : Sys.Reach ((e.onNode sId).workload (nic sId)) Sys.anyStep (r₀.node sId) (r.node sId) := by
  have h := Rounds.reach_node hreach sId
  rwa [e.workload_eq sId nic] at h

/-- The transactions on colocated nodes are serializable. -/
theorem namExperiment_serializable (hcard : Fintype.card W < 2 ^ 60) (hstarted : e.Started r₀)
    (hreach : (Rounds.step fun sId => e.workload sId nic).Reach Step.any r₀ r)
    : e.Serializable r := by
  have hfresh := hstarted.fresh
  have hzero (sId : Fin storageNodes) : (e.onNode sId).Zeroed (r₀.node sId).shared.mem :=
    hstarted.zero sId
  have hnode := reach_onNode hreach
  have hcounts (sId : Fin storageNodes) (hquiescent : (r.node sId).Quiescent)
      (id : Fin e.lockCount) (i : Nat) (hi : 1 ≤ i) (hlt : i < e.tupleSize / 8)
      : load64 (r.node sId).shared.mem (e.wordAddr sId id i)
          = BitVec.ofNat 64 (e.committed sId id r) :=
    Benchmark.counts_of_quiescent hcard (hfresh sId) (hzero sId) (hnode sId) hquiescent id hi hlt
  constructor
  . exact fun sId => Benchmark.not_throw_of_reach hcard (hfresh sId) (hzero sId) (hnode sId)
  . intro sId id w w' h h'
    exact Benchmark.holder_unique_of_reach hcard (hfresh sId) (hzero sId) (hnode sId) id h h'
  . intro sId hquiescent id
    exact Benchmark.lock_word_of_quiescent hcard (hfresh sId) (hzero sId) (hnode sId) hquiescent id
  . exact hcounts
  . intro hquiescent
    have hlt : 1 < e.tupleSize / 8 := by
      have := e.tupleSize_ge
      omega
    rw [← sum_committed r]
    simp only [hcounts _ (hquiescent _) _ 1 (Nat.le_refl 1) hlt, ← BitVec.natCast_eq_ofNat,
      Nat.cast_sum]
  . intro w hidle sId sId'
    have hstops (sId : Fin storageNodes) : Rounds.StopsOnError (e.workload sId nic) :=
      fun _ _ => rfl
    have hended := Rounds.ended_le_of_reach hstops hfresh hstarted.currentNode hreach hidle sId sId'
    rwa [ended_eq, ended_eq] at hended

def sample : Experiment 2 where
  start := fun _ => 0
  lockCount := 2
  tupleSize := 24
  padding := 8
  speculativeRead := true
  writeCombining := true
  orderRelease := true
  start_aligned := fun _ => aligned_zero
  tupleSize_ge := Benchmark.sample.tupleSize_ge
  tupleSize_aligned := Benchmark.sample.tupleSize_aligned
  padding_aligned := aligned_eight

def writeRun : List (Action Bool Ctx (Transaction 2)) :=
  cpus false 2 ++ serves false .rctx [0] ++ serves false .rctx [1] ++ [.cpu false 1] ++
    cpus false 7 ++ [.finish false]

def releaseRun : List (Action Bool Ctx (Transaction 2)) :=
  serves false .rctx [1] ++ serves false .rctx [0]

def firstNode : Fin 2 := (Fin.last 0).castSucc

def secondNode : Fin 2 := Fin.last 1

/-- A worker writes a tuple on either node; the locks are released after both transactions. -/
def turnsRun : List (Turn 2 Bool Ctx (Transaction 2)) :=
  List.flatten [
    [.start false (.write firstTuple)], writeRun.map (.on firstNode),
    [.start false (.write secondTuple)], writeRun.map (.on secondNode),
    releaseRun.map (.on secondNode), releaseRun.map (.on firstNode), [.job false]]

theorem namExperiment_serializable_turnsRun
    : ∃ r : State Bool sample, sample.Serializable r ∧
        ∑ w, sample.updates w r = 2 ∧ ∀ w, r.isIdle w = true := by
  have hrun : ((Rounds.step fun sId => sample.workload sId
      fun _ => { atomicReadBytes := 0, inOrderWrites := false }).run
      { node := fun _ => Sys.initial (fun _ => 0) (fun _ _ => 0)
        currentNode := fun _ => 0
        jobs := fun _ => 0 } turnsRun).any
      (fun r => ∑ w, sample.updates w r == 2 && decide (∀ w, r.isIdle w = true)) = true := by
    decide +kernel
  obtain ⟨r, hreach, hr⟩ := Step.exists_reach_of_run hrun
  simp only [Bool.and_eq_true, beq_iff_eq, decide_eq_true_eq] at hr
  refine ⟨r, namExperiment_serializable (by decide) ⟨?_, ?_, fun _ => rfl⟩ hreach, hr⟩
  . exact fun _ => Sys.initial_fresh _ _
  . exact fun sId id i _ => (sample.onNode sId).load64_lockAddr id _ i

end Experiment
end NamExperiment
