import RdmaSync.BTree.Sound
import RdmaSync.OptBTree.Impl
import RdmaSync.OptimisticLocks.Farm
import RdmaSync.Rdma.Course

/-!
This module contains the proof that the outcome of an optimistic read of a node is what the memory says,
as long as nobody writes to it, and that every worker comes down the tree from the root to a leaf.
-/

namespace OptBTree

open Rdma OptimisticLocks
open BTree (B H Traversal tupleSize rootToLeaf)
open CommunicationManager (load postRead)
open Rdma.Action (cpus serves)

section Path

theorem take_rootToLeaf (draws : Traversal) (level : Fin H)
    : (rootToLeaf draws).take (level + 1)
        = (rootToLeaf draws).take level ++ [LevelOrder.node ((List.ofFn draws).take level)] := by
  match level with
  | 0 => rfl
  | 1 => rfl
  | 2 => rfl

theorem take_rootToLeaf_height (draws : Traversal) : (rootToLeaf draws).take H = rootToLeaf draws := by
  rfl

namespace Visit

variable {v v' : Visit}

structure OnPath (v : Visit) : Prop where
  node : v.nextIdx = LevelOrder.node ((List.ofFn v.draws).take v.level)
  /-- The number of the node, before the last level. -/
  id : v.level + 1 < H → v.nextIdx = v.level + v.prevId

theorem level_of_isFirst (h : v.isFirst = true) : (v.level : Nat) = 0 := by
  simp only [isFirst, Bool.and_eq_true, beq_iff_eq] at h
  exact h.1.1

theorem onPath_of_isFirst (h : v.isFirst = true) : v.OnPath := by
  simp only [isFirst, Bool.and_eq_true, beq_iff_eq] at h
  obtain ⟨⟨hlevel, hidx⟩, hid⟩ := h
  constructor
  . rw [hidx, hlevel]
    rfl
  . intro _
    rw [hidx, hlevel, hid]

structure Follows (v v' : Visit) : Prop where
  draws : v'.draws = v.draws
  level : (v'.level : Nat) = v.level + 1
  nextIdx : v'.nextIdx = B * v.level + 1 + B * v.prevId + v.draws v.level
  prevId : v'.prevId = v.draws v.level

theorem follows_of_next (h : v.next = some v') : v.Follows v' := by
  unfold next at h
  split at h
  . cases h
    exact ⟨rfl, rfl, rfl, rfl⟩
  . cases h

theorem level_of_last (h : v.next = none) : (v.level : Nat) + 1 = H := by
  unfold next at h
  split at h
  . cases h
  . next hlast =>
    have := v.level.isLt
    omega

/-- The next node is a child of the one before, as the tree has three levels. -/
theorem OnPath.next (hv : v.OnPath) (h : v.Follows v') : v'.OnPath := by
  have hlast : (v.level : Nat) + 1 < H := by
    rw [← h.level]
    exact v'.level.isLt
  have htake : (List.ofFn v.draws).take (v.level + 1)
      = (List.ofFn v.draws).take v.level ++ [v.draws v.level] := by
    rw [List.take_succ_eq_append_getElem (by simp), List.getElem_ofFn]
  have hchild : v'.nextIdx = LevelOrder.child v.nextIdx (v.draws v.level) := by
    rw [h.nextIdx, hv.id hlast, LevelOrder.child, Nat.mul_add]
    omega
  constructor
  . rw [hchild, hv.node, h.draws, h.level, htake, LevelOrder.node_concat]
  . intro hlast'
    -- Only the root is two levels above another node.
    have hroot : (v.level : Nat) = 0 := by
      rw [h.level] at hlast'
      change (v.level : Nat) + 1 + 1 < 3 at hlast'
      omega
    have hzero : v.nextIdx = 0 := by
      rw [hv.node, hroot]
      rfl
    rw [hchild, hzero, h.level, hroot, h.prevId, LevelOrder.child]
    omega

theorem OnPath.lt_nodes (hv : v.OnPath) : v.nextIdx < BTree.nodes := by
  have hmem : v.nextIdx ∈ (rootToLeaf v.draws).take (v.level + 1) := by
    rw [take_rootToLeaf, hv.node]
    exact List.mem_concat_self
  exact BTree.rootToLeaf_lt (List.mem_of_mem_take hmem)

end Visit

def reads (done : List (Visit × Bool)) : List Nat :=
  done.reverse.map fun d => d.1.nextIdx

theorem reads_cons (v : Visit) (corrupt : Bool) (done : List (Visit × Bool))
    : reads ((v, corrupt) :: done) = reads done ++ [v.nextIdx] := by
  simp [reads]

/-- The nodes of whole traversals, and those of the one that a worker is about to go on with. -/
def Descends (idxs upper : List Nat) : Prop :=
  ∃ ts : List Traversal, idxs = ts.flatMap rootToLeaf ++ upper

theorem Descends.read {v : Visit} {idxs : List Nat} (hv : v.OnPath)
    (h : Descends idxs ((rootToLeaf v.draws).take v.level))
    : Descends (idxs ++ [v.nextIdx]) ((rootToLeaf v.draws).take (v.level + 1)) := by
  obtain ⟨ts, hidxs⟩ := h
  refine ⟨ts, ?_⟩
  rw [hidxs, hv.node, List.append_assoc, take_rootToLeaf]

theorem Descends.leaf {draws : Traversal} {idxs : List Nat} (h : Descends idxs (rootToLeaf draws))
    : Descends idxs [] := by
  obtain ⟨ts, hidxs⟩ := h
  refine ⟨ts ++ [draws], ?_⟩
  rw [hidxs, List.flatMap_append, List.flatMap_singleton, List.append_nil]

def course (e : Experiment) (nic : Nic) : Course (e.workload nic) where
  idle := fun done => (∀ d ∈ done, d.2 = false) ∧ Descends (reads done) []
  runs := fun done v => v.OnPath ∧ (∀ d ∈ done, d.2 = false) ∧
    Descends (reads done) ((rootToLeaf v.draws).take v.level)
  start := by
    rintro done v ⟨hdone, hdescends⟩ hfirst
    refine ⟨Visit.onPath_of_isFirst hfirst, hdone, ?_⟩
    rwa [Visit.level_of_isFirst hfirst]
  ok := by
    rintro done v corrupt ⟨hv, hdone, hdescends⟩
    have hread := hdescends.read hv
    cases corrupt with
    | true => trivial
    | false =>
      have hdone' : ∀ d ∈ (v, false) :: done, d.2 = false :=
        List.forall_mem_cons.mpr ⟨rfl, hdone⟩
      show Next.Meets (match v.next with | some v => .goto v | none => .idle) _ _
      cases hnext : v.next with
      | some v' =>
        have hfollows := Visit.follows_of_next hnext
        refine ⟨hv.next hfollows, hdone', ?_⟩
        rwa [reads_cons, hfollows.draws, hfollows.level]
      | none =>
        rw [Visit.level_of_last hnext, take_rootToLeaf_height] at hread
        refine ⟨hdone', ?_⟩
        rw [reads_cons]
        exact hread.leaf
  error := fun h => h

end Path

namespace Experiment

def words : Nat := tupleSize / 8

def word (e : Experiment) (m : Mem) (idx i : Nat) : Word :=
  m (e.lockAddr idx / 8 + i)

/-- What the validation of a read asks for: the node is not locked and all its versions are the same. -/
def Validates (e : Experiment) (m : Mem) (idx : Nat) : Prop :=
  e.word m idx (words - 1) = 0 ∧ ∀ v < words, v % 8 = 0 → e.word m idx v = e.word m idx 0

instance (e : Experiment) (m : Mem) (idx : Nat) : Decidable (e.Validates m idx) :=
  inferInstanceAs (Decidable (_ ∧ _))

/-- How an attempt at a node ends if the memory does not change. -/
def outcome (e : Experiment) (m : Mem) (idx : Nat) : Except OLRestartException Bool :=
  if e.Validates m idx then
    .ok (entryIdxs.any fun i => decide (e.word m idx 3 ≠ e.word m idx i))
  else
    .error .restart

theorem outcome_of_validates {e : Experiment} {m : Mem} {idx : Nat} (h : e.Validates m idx)
    : e.outcome m idx = .ok (entryIdxs.any fun i => decide (e.word m idx 3 ≠ e.word m idx i)) := by
  exact if_pos h

theorem outcome_of_not {e : Experiment} {m : Mem} {idx : Nat} (h : ¬e.Validates m idx)
    : e.outcome m idx = .error .restart := by
  exact if_neg h

section Attempt

variable {e : Experiment} {m : Mem} {idx : Nat} {W : Type} {nic : Nic} {w : W} {op : Visit}
  {l : Local Buffer} {s : Shared W Buffer Visit}

def checks (e : Experiment) : Code Unit :=
  Prog.forEach (List.range e.flags.batch) fun _ =>
    FaRM.checkConsistencyProof e.flags (tupleBuffer, 0) tupleSize

theorem checks_local (idx : Nat)
    : e.checks.Local (inTuple (e.tuple idx) false) (fun a => a.1 = .userBuffer) (fun _ => True) := by
  apply Prog.Local.forEach
  intro _ _
  exact farm_check_local (e.tuple idx) false

theorem attempt_eq (idx : Nat)
    : e.attempt idx =
        ((Prog.forEach (List.range e.flags.batch) fun _ =>
            postRead (tupleBuffer, 0) .rctx true (e.lockAddr idx) tupleSize false) >>= fun _ =>
          .poll .rctx (sizeT e.flags.batchSize)
            (e.checks >>= fun _ =>
              .load (tupleBuffer, words - 1) fun x =>
                if x ≠ 0 then
                  .throw .restart
                else
                  .load (tupleBuffer, 0) fun _ => corrupt)) := by
  unfold attempt
  rw [runRead_farm rfl]
  simp only [Prog.bind_assoc, Prog.bind_poll, Prog.bind_load, Prog.bind_ite, Prog.bind_throw,
    Prog.bind_ret]
  rfl

theorem wp_readBatch {α : Type} {Q : Except OLRestartException α → Assertion W Buffer Visit}
    {next : Code α} {n : Nat} (hn : 0 < n) (hmem : s.mem = m)
    (hnext : ∀ l' s', s'.mem = m → (∀ i < words, l' tupleBuffer i = e.word m idx i) →
      wp (Protocol.readOnly m) nic w op Q next l' s')
    : wp (Protocol.readOnly m) nic w op Q
        ((Prog.forEach (List.range n) fun _ =>
          postRead (tupleBuffer, 0) .rctx true (e.lockAddr idx) tupleSize false) >>= fun _ => next)
        l s := by
  have hne : List.range n ≠ [] := by
    rw [ne_eq, List.range_eq_nil]
    omega
  generalize List.range n = xs at hne
  induction xs generalizing l s with
  | nil => exact absurd rfl hne
  | cons x xs ih =>
    apply wp_readOnly hmem
    intro l' s' hmem' hwords _
    by_cases hxs : xs = []
    . subst hxs
      apply hnext l' s' hmem'
      intro i hi
      have hword : l' tupleBuffer (0 + i) = e.word m idx i := hwords i hi
      rwa [Nat.zero_add] at hword
    . exact ih hmem' hxs

theorem corrupt_local
    : corrupt.Local (fun _ => True) (fun _ => False) (fun _ => False) := by
  unfold corrupt
  refine .load _ _ trivial ?_
  intro prev
  apply Prog.Local.bind (Prog.Local.loadAll fun _ _ => trivial)
  exact fun _ => .ret _

theorem entryIdx_lt {i : Nat} (hi : i ∈ entryIdxs) : i < words := by
  obtain ⟨cl, hcl, hi⟩ := List.mem_flatMap.mp hi
  obtain ⟨v, hv, rfl⟩ := List.mem_map.mp hi
  have hcl : cl < 64 := List.mem_range.mp hcl
  have hv : v < 8 := by
    simp only [List.mem_cons, List.not_mem_nil, or_false] at hv
    omega
  show cl * 8 + v < 512
  omega

theorem corrupt_exec (hwords : ∀ i < words, l tupleBuffer i = e.word m idx i)
    : corrupt.exec l
        = (.ok (entryIdxs.any fun i => decide (e.word m idx 3 ≠ e.word m idx i)), l) := by
  have hentries : entryIdxs.map (fun i => l tupleBuffer i) = entryIdxs.map (e.word m idx) := by
    apply List.map_congr_left
    intro i hi
    exact hwords i (entryIdx_lt hi)
  unfold corrupt
  simp only [load, Prog.bind_load, Prog.bind_ret, Prog.exec_load, Prog.exec_bind, Prog.exec_loadAll,
    List.map_map, Function.comp_def, hentries, hwords 3 (by decide)]
  simp [Prog.pure_eq, List.any_map, Function.comp_def]

theorem wp_corrupt (hvalid : e.Validates m idx)
    (hwords : ∀ i < words, l tupleBuffer i = e.word m idx i)
    : wp (Protocol.readOnly m) nic w op (fun o _ _ => o = e.outcome m idx) corrupt l s := by
  refine wp.exec (Q := fun o _ _ => o = e.outcome m idx) corrupt_local ?_
  intro _ _ _
  rw [corrupt_exec hwords]
  exact (outcome_of_validates hvalid).symm

theorem wp_attempt (hbatch : 0 < e.flags.batchSize) (hmem : s.mem = m)
    : wp (Protocol.readOnly m) nic w op (fun o _ _ => o = e.outcome m idx) (e.attempt idx) l s := by
  rw [attempt_eq]
  apply wp_readBatch (Flags.batch_pos.mpr hbatch) hmem
  intro l₁ s₁ hmem₁ hwords
  rw [wp_poll]
  apply wp.exec_bind (checks_local idx)
  . intro _ hok
    have hframe : ∀ i < words, (e.checks.exec l₁).2 tupleBuffer i = e.word m idx i := by
      intro i hi
      rw [(checks_local idx).exec_frame l₁ (by simp [tupleBuffer]), hwords i hi]
    have hversions : ∀ v < words, v % 8 = 0 → e.word m idx v = e.word m idx 0 := by
      intro v hv hmod
      rw [← hwords v hv, ← hwords 0 (by decide)]
      exact farm_checks_ok (t := e.tuple idx) (Flags.batch_pos.mpr hbatch) hok hv hmod
    rw [wp_load, hframe (words - 1) (by decide)]
    split
    . next hlocked =>
      intro _ _ _
      exact (outcome_of_not fun h => hlocked h.1).symm
    . next hlock =>
      rw [wp_load]
      exact wp_corrupt ⟨not_not.mp hlock, hversions⟩ hframe
  . intro err _ _ _ herror
    obtain ⟨v, hv, hmod, hne⟩ := farm_checks_error (t := e.tuple idx) herror
    cases err
    refine (outcome_of_not fun h => hne ?_).symm
    show l₁ tupleBuffer v = l₁ tupleBuffer 0
    rw [hwords v hv, hwords 0 (by decide)]
    exact h.2 v hv hmod

theorem synced_attempt (hbatch : 0 < e.flags.batchSize)
    : Synced .rctx (fun _ u => u = []) (e.attempt idx) [] := by
  have hread : Synced .rctx (fun _ u => u = []) (runRead (e.tuple idx) false 0) [] :=
    synced_runRead_farm rfl (Int32.ne_of_lt hbatch).symm leftover_nil fun _ => rfl
  unfold attempt
  apply Synced.bind hread
  . rintro _ _ rfl
    rw [← Prog.bind_ret_right corrupt]
    exact Synced.of_local corrupt_local (fun a _ => quiet_nil a) (fun _ h => h.elim)
      (fun _ h => h.elim) fun _ => rfl
  . exact fun _ _ h => h

end Attempt

section Run

variable {W : Type}

def spec (e : Experiment) (nic : Nic) (m : Mem) (hbatch : 0 < e.flags.batchSize)
    : Spec (W := W) (Protocol.readOnly m) (e.workload nic) .rctx where
  ready := fun _ _ _ _ => True
  post := fun _ v _ o _ _ => o = e.outcome m v.nextIdx
  leftover := fun u => u = []
  ends := fun _ _ u => u = []
  leftover_of_ends := id
  synced := by
    rintro v _ rfl
    exact synced_attempt hbatch
  wp_program := by
    intro w v _ _ _ s _ hmem _ _
    apply (wp_attempt hbatch hmem).mono hmem
    intro o _ _ _ ho
    cases o with
    | ok => exact ⟨ho, fun _ => trivial⟩
    | error => exact ⟨ho, fun _ => trivial⟩

structure Consistent (e : Experiment) (m : Mem)
    (s : Sys W Ctx Buffer OLRestartException Bool Visit) : Prop where
  mem : s.shared.mem = m
  returns : ∀ w v since isCorrupt, (s.worker w).control = .running v since (.ret isCorrupt) →
    e.outcome m v.nextIdx = .ok isCorrupt
  throws : ∀ w v since err, (s.worker w).control = .running v since (.throw err) →
    e.outcome m v.nextIdx = .error err
  passed : ∀ w, ∀ d ∈ (s.worker w).done, e.outcome m d.1.nextIdx = .ok false
  inTree : ∀ w v since p, (s.worker w).control = .running v since p → v.nextIdx < BTree.nodes
  descends : ∀ w, (s.worker w).control.Meets (Descends (reads (s.worker w).done) [])
    fun v => Descends (reads (s.worker w).done) ((rootToLeaf v.draws).take v.level)

variable [DecidableEq W] {e : Experiment} {nic : Nic}
  {s₀ s : Sys W Ctx Buffer OLRestartException Bool Visit}

/-- Optimistic reads of nodes that nobody writes to end as the memory says. -/
theorem optBTree_consistent (hbatch : 0 < e.flags.batchSize) (hfresh : s₀.Fresh)
    (hreach : Sys.Reach (e.workload nic) Sys.anyStep s₀ s) : e.Consistent s₀.shared.mem s := by
  let S := e.spec (W := W) nic s₀.shared.mem hbatch
  have hok {s' : Sys W Ctx Buffer OLRestartException Bool Visit}
      (h : Sys.Reach (e.workload nic) Sys.anyStep s₀ s') : S.SysOk s' := by
    apply S.sysOk_of_reach (fun _ _ _ _ _ _ _ _ => trivial) _ h
    exact S.sysOk_fresh rfl hfresh rfl fun _ _ _ _ => trivial
  have hcourse (w : W) : (course e nic).Ok (s.worker w) := by
    apply Course.ok_of_reach hfresh _ hreach
    exact ⟨fun _ h => absurd h List.not_mem_nil, [], rfl⟩
  have hreturns {s' : Sys W Ctx Buffer OLRestartException Bool Visit}
      (h : Sys.Reach (e.workload nic) Sys.anyStep s₀ s') (w : W) (v : Visit) (since : Nat)
      (isCorrupt : Bool) (hcontrol : (s'.worker w).control = .running v since (.ret isCorrupt))
      : e.outcome s₀.shared.mem v.nextIdx = .ok isCorrupt :=
    ((hok h).post_ret S hcontrol fun _ h => h).symm
  have hdone (w : W) : ∀ d ∈ (s.worker w).done, d.2 = false :=
    ((hcourse w).mono And.left fun _ h => h.2.1).elim
  constructor
  . exact (hok hreach).inv
  . exact hreturns hreach
  . intro w v since err hcontrol
    exact ((hok hreach).post_throw S hcontrol fun _ h => h).symm
  . intro w d hd
    rw [← hdone w d hd]
    revert d
    apply hreach.forall_done
    . intro s' hreach' w d since hcontrol
      exact hreturns hreach' w d.1 since d.2 hcontrol
    . intro w
      simp [hfresh.done]
  . intro w v since p hcontrol
    exact ((hcourse w).runs hcontrol).1.lt_nodes
  . intro w
    exact (hcourse w).mono And.right fun _ h => h.2.2

def sample : Experiment where
  start := 0
  padding := 8
  flags :=
    { batchSize := 1
      memcpy := false
      crc64 := fun _ => 0 }
  start_aligned := aligned_zero
  padding_aligned := aligned_eight

def root : Visit where
  draws := fun _ => Fin.last 248
  level := (Fin.last 2).rev
  nextIdx := 0
  prevId := 0

def rootRun : List (Action Unit Ctx Visit) :=
  [.start () root] ++ cpus () 1 ++ serves () .rctx [0] ++ [.cpu () 1] ++ cpus () 260 ++ [.finish ()]

theorem optBTree_consistent_rootRun
    : ∃ s : Sys Unit Ctx Buffer OLRestartException Bool Visit, sample.Consistent (fun _ => 0) s ∧
        (s.worker ()).done.length = 1 := by
  have hrun : ((Sys.initial (fun _ => 0) (fun _ _ => 0)).run
      (sample.workload { atomicReadBytes := 4096, inOrderWrites := false }) rootRun).any
      (fun s => (s.worker ()).done.length == 1) = true := by
    decide +kernel
  obtain ⟨s, hreach, hdone⟩ := Sys.exists_reach_of_run hrun
  rw [beq_iff_eq] at hdone
  exact ⟨s, optBTree_consistent (by decide) (Sys.initial_fresh _ _) hreach, hdone⟩

end Run
end Experiment
end OptBTree
