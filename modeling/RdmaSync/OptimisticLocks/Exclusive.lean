import RdmaSync.OptimisticLocks.Writer

/-!
This module contains the proof that `ExclusiveLock` never loses an update: the tuple counts all
updates of all workers.
-/

namespace OptimisticLocks

open Rdma CommunicationManager
open Rdma.Action (cpus touches serves)

variable {W U : Type} {t : Tuple}

def UpdateValid (t : Tuple) (modification : Modification t U) (op : Bool × U)
    (prev next : Nat → Word) : Prop :=
  Replaces t modification op.2 prev next

section Counting

theorem addFive_data {r : RandomIndex t} {prev next : Nat → Word}
    (h : Replaces t (addFive t) r prev next) {j : Nat} (hj : t.isData j)
    : next j = if r.index = j then prev j + 5 else prev j := by
  obtain ⟨b, l, hcopy, rfl⟩ := h
  have hcopyj : l (.tupleBuffer b) j = prev j := by
    rw [hcopy j hj.1]
    simp [hj.2.1]
  rw [copied_apply _ _ _ hj.1, change_data _ _ _ _ _ hj]
  show l.set (.tupleBuffer b, r.index) (l (.tupleBuffer b) r.index + 5) (.tupleBuffer b) j = _
  rw [Local.set_apply]
  split
  . next heq =>
    obtain ⟨_, rfl⟩ := heq
    simp [hcopyj]
  . next hne =>
    have : ¬r.index = j := by
      rintro rfl
      exact hne ⟨rfl, rfl⟩
    simp [this, hcopyj]

variable {init : Nat → Word} {cs : List (Commit W (Bool × RandomIndex t))}

def updatesOf (t : Tuple) (j : Nat) (ops : List (Bool × RandomIndex t)) : Nat :=
  ops.countP fun op => op.2.index = j

theorem Chain.data (h : Chain (UpdateValid t (addFive t)) init cs) {j : Nat} (hj : t.isData j)
    : snap init cs cs.length j
        = init j + BitVec.ofNat 64 (5 * updatesOf t j (cs.map (·.op))) := by
  induction cs with
  | nil => simp [snap, updatesOf]
  | cons c cs ih =>
    have hnext := addFive_data h.1 hj
    rw [ih h.2] at hnext
    rw [List.length_cons, snap_cons_length, hnext]
    simp only [updatesOf, List.map_cons, List.countP_cons, decide_eq_true_eq]
    split
    . rw [Nat.mul_add, BitVec.ofNat_add, BitVec.add_assoc]
      rfl
    . rfl

end Counting

variable [DecidableEq W]

/-- Between updates a worker rests, and its commits are its finished updates. -/
def updateReady (t : Tuple) (w : W) (done : List ((Bool × U) × Unit))
    (s : Shared W Buffer (Bool × U)) : Prop :=
  ∃ mine, t.block.Rests w mine s ∧ mine.map (·.op) = done.map (·.1)

def writersSpec (modification : Modification t U) {nic : Nic} (horder : nic.inOrderWrites = true)
    (init : Nat → Word)
    : Spec (W := W) (t.block.protocol init (UpdateValid t modification))
        (writersOnly t modification nic) .rctx where
  ready := fun w done _ s => updateReady t w done s
  post := fun _ _ _ _ _ _ => True
  leftover := Leftover
  ends := fun _ _ q => Leftover q
  leftover_of_ends := id
  synced := fun _ _ hq => synced_runUpdate hq (fun _ h => h) (fun _ => leftover_nil)
  wp_program := by
    rintro w ⟨b, u⟩ since done l s _ hinv _ ⟨mine, hrests, hdone⟩
    have hvalid : ∀ prev next, Replaces t modification u prev next →
        UpdateValid t modification (b, u) prev next := fun _ _ h => h
    apply wp.mono (wp_runUpdate horder hvalid hinv hrests) hinv
    intro o _ s' _ h
    cases o with
    | ok _ =>
      obtain ⟨words, hrests'⟩ := h
      exact ⟨trivial, fun _ => ⟨_, hrests', by simp [hdone]⟩⟩
    | error _ => exact ⟨trivial, fun _ => ⟨mine, h, hdone⟩⟩

/-- The lock excludes, and the tuple counts the updates of all workers. -/
structure CountsUpdates [Fintype W] (t : Tuple)
    (s : Sys W Ctx Buffer OLRestartException Unit (Bool × RandomIndex t)) : Prop where
  lock_word : s.shared.mem (t.block.base + t.lockIdx) = wUnlocked ∨
    s.shared.mem (t.block.base + t.lockIdx) = wLocked
  holder_unique : ∀ w w', t.block.holds w s.shared.hist = true →
    t.block.holds w' s.shared.hist = true → w = w'
  lock_free : s.Quiescent → s.shared.mem (t.block.base + t.lockIdx) = wUnlocked
  version : s.Quiescent → s.shared.mem (t.block.base + t.versionIdx)
    = BitVec.ofNat 64 (∑ w, (s.worker w).done.length)
  data : s.Quiescent → ∀ j, t.isData j → s.shared.mem (t.block.base + j)
    = BitVec.ofNat 64 (5 * ∑ w, updatesOf t j ((s.worker w).done.map (·.1)))

section Run

variable [Fintype W] {nic : Nic} {horder : nic.inOrderWrites = true} {init : Nat → Word}
  {s : Sys W Ctx Buffer OLRestartException Unit (Bool × RandomIndex t)}

/-- When nothing is in flight, all commits are finished updates, and nobody holds the lock. -/
theorem quiescent_commits (hok : (writersSpec (addFive t) horder init).SysOk s)
    (hquiescent : s.Quiescent)
    : (∀ w, t.block.holds w s.shared.hist = false) ∧
      ∀ p : List (Bool × RandomIndex t) → Nat, p [] = 0 →
        (∀ op ops, p (op :: ops) = p [op] + p ops) →
        p ((t.block.commits s.shared.hist).map (·.op)) =
          ∑ w, p ((s.worker w).done.map (·.1)) := by
  have hready : ∀ w, updateReady t w (s.worker w).done s.shared := by
    intro w
    exact hok.ready _ (hquiescent.control w) (hquiescent.queue w _)
  constructor
  . intro w
    obtain ⟨_, hrests, _⟩ := hready w
    exact hrests.holds
  . intro p hnil hcons
    rw [← sum_own _ p hnil hcons]
    apply Finset.sum_congr rfl
    intro w _
    obtain ⟨mine, hrests, hdone⟩ := hready w
    rw [hrests.own, hdone]

theorem countsUpdates_of_sysOk (hok : (writersSpec (addFive t) horder init).SysOk s)
    (hzero : ∀ i, i < t.words → init i = 0) : CountsUpdates t s := by
  have hinv := hok.inv
  have hreleased (hquiescent : s.Quiescent) :=
    (hinv.lock_free (quiescent_commits hok hquiescent).1).2
  constructor
  . by_cases h : ∃ w, t.block.holds w s.shared.hist = true
    . obtain ⟨w, hw⟩ := h
      exact .inr (hinv.lock_held hw)
    . simp only [not_exists, Bool.not_eq_true] at h
      exact .inl (hinv.lock_free h).1
  . exact fun _ _ => hinv.holds_unique
  . intro hquiescent
    exact (hinv.lock_free (quiescent_commits hok hquiescent).1).1
  . intro hquiescent
    have hsum := (quiescent_commits hok hquiescent).2 List.length rfl (by simp [Nat.add_comm])
    simp only [List.length_map] at hsum
    rw [hinv.mem_of_released (hreleased hquiescent) t.versionIdx_lt t.versionIdx_ne_lockIdx,
      Block.latest, hinv.chain.counter (fun _ _ _ => Replaces.version) (Nat.le_refl _),
      hzero _ t.versionIdx_lt, hsum]
    simp
  . intro hquiescent j hj
    have hsum := (quiescent_commits hok hquiescent).2 (updatesOf t j) rfl
      (by simp [updatesOf, List.countP_cons, Nat.add_comm])
    rw [hinv.mem_of_released (hreleased hquiescent) hj.1 hj.2.1, Block.latest,
      Chain.data hinv.chain hj, hzero j hj.1, hsum]
    simp

end Run

/--
Every reachable state of the benchmark without readers: no update is lost, whatever the kinds of
consistency and lock are.
-/
theorem exclusiveLock_never_loses_updates [Fintype W] (t : Tuple) {nic : Nic}
    (horder : nic.inOrderWrites = true)
    {s₀ s : Sys W Ctx Buffer OLRestartException Unit (Bool × RandomIndex t)}
    (hfresh : s₀.Fresh) (hzero : ∀ i, i < t.words → s₀.shared.mem (t.block.base + i) = 0)
    (hreach : Sys.Reach (writersOnly t (addFive t) nic) Sys.anyStep s₀ s)
    : CountsUpdates t s := by
  let S := writersSpec (W := W) (addFive t) horder fun i => s₀.shared.mem (t.block.base + i)
  have hok : S.SysOk s := by
    apply S.sysOk_of_reach (fun _ _ _ _ _ _ _ _ => trivial) _ hreach
    apply S.sysOk_fresh (inv_fresh _ hfresh.hist (hzero _ t.lockIdx_lt)) hfresh leftover_nil
    intro w s' hr _
    exact ⟨[], (Block.rests_steady w []).rely hr (rests_fresh hfresh.hist w), rfl⟩
  exact countsUpdates_of_sysOk hok hzero

/-- Two workers update the same word; the second one fails once, because the first one is there. -/
def updatesRun : List (Action Bool Ctx (Bool × RandomIndex (sampleTuple .faRM .headerLock 0))) :=
  let op := (false, sampleIndex .faRM .headerLock)
  List.flatten [
    [.start false op], cpus false 2, serves false .rctx [0],
    [.start true op], cpus true 2, serves true .rctx [0], serves true .rctx [2, 1], [.cpu true 1],
    cpus true 1, [.finish true],
    serves false .rctx [1, 2], [.cpu false 1], cpus false 9, [.finish false],
    serves false .rctx [1, 2], serves false .rctx [0],
    cpus true 2, serves true .rctx [0], serves true .rctx [1, 2], [.cpu true 1], cpus true 9,
    [.finish true], serves true .rctx [1, 2], serves true .rctx [0]]

theorem exclusiveLock_counts_updatesRun
    : ∃ s : Sys Bool Ctx Buffer OLRestartException Unit
        (Bool × RandomIndex (sampleTuple .faRM .headerLock 0)),
        CountsUpdates (sampleTuple .faRM .headerLock 0) s ∧
        s.shared.mem 8 = 2 ∧ s.shared.mem 9 = 0 ∧ s.shared.mem 11 = 10 := by
  have hrun : ((Sys.initial (fun _ => 0) (fun _ _ => 0)).run
      (writersOnly (sampleTuple .faRM .headerLock 0) (addFive _)
        { atomicReadBytes := 0, inOrderWrites := true }) updatesRun).any
      (fun s => s.shared.mem 8 == 2 && s.shared.mem 9 == 0 && s.shared.mem 11 == 10) = true := by
    decide +kernel
  obtain ⟨s, hreach, hmem⟩ := Sys.exists_reach_of_run hrun
  refine ⟨s, ?_, by simpa [and_assoc] using hmem⟩
  exact exclusiveLock_never_loses_updates _ rfl (Sys.initial_fresh _ _) (fun _ _ => rfl) hreach

end OptimisticLocks
