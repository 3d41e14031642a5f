import Mathlib.Data.List.Infix
import Mathlib.Tactic.Ring
import RdmaSync.BTree.Impl
import RdmaSync.LockingBenchmark.Serializable
import RdmaSync.Rdma.Slots
import RdmaSync.Rdma.Tallies
import RdmaSync.Trees.LevelOrder

/-!
This module contains the proof that the traversals of the B-Tree do not disturb each other: none of them
is ever refused a node, and each visits the nodes from the root to a leaf.
-/

namespace BTree

open Rdma LockingBenchmark Tallies
open CommunicationManager (postFetchAdd postRead signaled unsignaled)
open Rdma.Action (cpus serves)

section Path

theorem nodes_eq : nodes = LevelOrder.above B H := by
  decide

/-- The nodes that a traversal comes to if it is never refused. -/
def path (level nextIdx prevId : Nat) (nodeIds : List (Fin B)) : List Nat :=
  match nodeIds with
  | [] => []
  | nodeId :: nodeIds =>
    nextIdx :: path (level + 1) (B * level + 1 + B * prevId + nodeId) nodeId nodeIds

def rootToLeaf (op : Traversal) : List Nat :=
  (List.ofFn op).dropLast.inits.map LevelOrder.node

/-- As the tree has three levels, the next node is always a child of the one before. -/
theorem path_eq (op : Traversal) : path 0 0 0 (List.ofFn op) = rootToLeaf op := by
  show [0, B * 0 + 1 + B * 0 + (op 0 : Nat), B * 1 + 1 + B * (op 0 : Nat) + op 1]
    = [0, B * 0 + 1 + (op 0 : Nat), B * (B * 0 + 1 + (op 0 : Nat)) + 1 + op 1]
  simp only [List.cons.injEq, and_true, true_and]
  constructor
  . ring
  . ring

theorem rootToLeaf_lt {op : Traversal} {idx : Nat} (h : idx ∈ rootToLeaf op) : idx < nodes := by
  obtain ⟨ks, hks, rfl⟩ := List.mem_map.mp h
  have hlen : ks.length ≤ H - 1 := by
    have hprefix := (List.mem_inits ks _).mp hks
    simpa using hprefix.length_le
  rw [nodes_eq]
  exact Nat.lt_of_lt_of_le (LevelOrder.node_mem_level ks).2 (LevelOrder.above_mono (Nat.succ_le_succ hlen))

theorem eq_of_leaf {op op' : Traversal}
    (h : (rootToLeaf op).getLast? = (rootToLeaf op').getLast?) : rootToLeaf op = rootToLeaf op' := by
  have hlast (op : Traversal)
      : (rootToLeaf op).getLast? = some (LevelOrder.node [op 0, op 1]) := by
    rfl
  rw [hlast, hlast, Option.some.injEq] at h
  have hdraws := LevelOrder.node_injective h
  simp only [List.cons.injEq, and_true] at hdraws
  show [_, LevelOrder.node [op 0], LevelOrder.node [op 0, op 1]] = _
  rw [hdraws.1, hdraws.2]
  rfl

end Path

namespace Experiment

variable {e : Experiment} {m : Mem}

def slots (e : Experiment) : Slots where
  start := e.start + 64
  size := tupleSize
  padding := e.padding
  start_aligned := by
    have := e.start_aligned
    omega
  size_aligned := tupleSize_aligned
  size_pos := by decide
  padding_aligned := e.padding_aligned

def base (e : Experiment) (idx : Nat) : Nat := e.slots.base idx

theorem lockAddr_eq (idx : Nat) : e.lockAddr idx = 8 * e.base idx := by
  exact e.slots.addr_eq idx

theorem base_add_ne {idx idx' i : Nat} (hi : 1 ≤ i) (hlt : i < e.tuples.words)
    : e.base idx + i ≠ e.base idx' := by
  intro heq
  have hzero := (Slots.base_add_eq hlt heq).2
  omega

/-- The words that count the readers of nodes; `m` is what the memory contains in the beginning. -/
def counts (e : Experiment) (m : Mem) : Tallies where
  init := m
  counts := fun j => ∃ idx, idx < nodes ∧ j = e.base idx
  may := fun x => x = 0 ∨ x = 1
  may_zero := .inl rfl

/-- What the storage node provides: no node is locked, and the words of each node are the same. -/
structure Prepared (e : Experiment) (m : Mem) : Prop where
  lock : ∀ idx < nodes, m (e.base idx) = 0
  data : ∀ idx < nodes, ∀ i, 1 ≤ i → i < e.tuples.words → m (e.base idx + i) = m (e.base idx + 1)

section Discipline

variable {a : Nat} {u : List (Verb Buffer × Bool)}

theorem synced_sLock (hu : Unsignaled u)
    : Synced .rctx (fun _ u => u = []) (e.sLock a) u := by
  unfold sLock
  split
  . apply Synced.read_poll hu
    rfl
  . exact Benchmark.synced_sLock hu

theorem sRelease_eq (h : e.unsynchronized = false)
    : e.sRelease a = giveBack e.orderRelease (.fetchAdd (-1) (.old, 0) a) := by
  unfold sRelease giveBack
  rw [h]
  cases e.orderRelease <;> rfl

theorem synced_sRelease : Synced .rctx Ends (e.sRelease a) [] := by
  cases h : e.unsynchronized with
  | true =>
    unfold sRelease
    rw [h]
    exact unsignaled_nil
  | false =>
    rw [sRelease_eq h]
    exact synced_giveBack _ unsignaled_nil (by simp)

theorem synced_traverse (level nextIdx prevId : Nat) (nodeIds : List (Fin B)) (hu : Unsignaled u)
    : Synced .rctx Ends (e.traverse level nextIdx prevId nodeIds) u := by
  induction nodeIds generalizing level nextIdx prevId u with
  | nil => exact hu
  | cons nodeId nodeIds ih =>
    apply (synced_sLock hu).bind
    . rintro locked _ rfl
      cases locked with
      | false => exact ih _ _ _ unsignaled_nil
      | true =>
        apply Synced.of_local (verify_local 1 e.tuples.words)
        . exact fun a _ => quiet_nil a
        . exact fun a _ => quiet_nil a
        . exact fun _ _ => rfl
        . intro _
          apply synced_sRelease.bind
          . intro _ u hu
            apply (ih _ _ _ hu).bind
            . exact fun _ _ h => h
            . exact fun _ _ h => h
          . exact fun _ _ h => h
    . rintro _ _ rfl
      rfl

end Discipline

section Traverse

variable [DecidableEq W] [Fintype W] {nic : Nic} {w : W} {op : Traversal} {l : Local Buffer}
  {s : Shared W Buffer Traversal} {idx : Nat}

def shares (e : Experiment) (idx j : Nat) : Word :=
  if e.unsynchronized = false ∧ j = e.base idx then 1 else 0

def Copied (e : Experiment) (m : Mem) (idx : Nat) (l : Local Buffer) : Prop :=
  ∀ i, 1 ≤ i → i < e.tuples.words → l .old i = m (e.base idx + i)

theorem wp_fetch {α : Type} {d remoteOffset bytes : Nat} {signaled : Bool} {next : Code α} {f : Nat → Word}
    {Q : Except Terminate α → Assertion W Buffer Traversal} (hd : d ≤ 1)
    (hoff : remoteOffset = e.lockAddr idx + 8 * d) (hbytes : bytes = tupleSize - 8 * d)
    (hinv : (e.counts m).Inv s) (h : tally w s.hist = f)
    (hnext : ∀ l' s', (e.counts m).Inv s' → tally w s'.hist = f → e.Copied m idx l' →
      (d = 1 → l' .old 0 = l .old 0) → wp (e.counts m).protocol nic w op Q next l' s')
    : wp (e.counts m).protocol nic w op Q
        (.post .rctx signaled (.read (.old, d) remoteOffset bytes) next) l s := by
  have haddr := e.lockAddr_eq idx
  have hwords : tupleSize = 8 * e.tuples.words := e.tuples.tupleSize_eq
  apply wp_words hinv h
  intro l' s' hinv' h' hfetched hframe
  apply hnext l' s' hinv' h'
  . intro i hi hlt
    have hword := hfetched (i - d) (by omega)
    rw [show remoteOffset / 8 + (i - d) = e.base idx + i by omega,
      show (Buffer.old, d).2 + (i - d) = i by simp only; omega] at hword
    apply hword
    rintro ⟨idx', _, heq⟩
    exact e.base_add_ne hi hlt heq
  . rintro rfl
    apply hframe
    simp [Verb.lands]

theorem word_le (hm : e.Prepared m) (hidx : idx < nodes) (hinv : (e.counts m).Inv s)
    : (s.mem (e.base idx)).toNat ≤ Fintype.card W := by
  obtain ⟨n, hn, hword⟩ := hinv.word_le (fun _ h => h) (e.base idx)
  have hinit : (e.counts m).init (e.base idx) = 0 := hm.lock idx hidx
  rw [hword, hinit, zero_add, BitVec.toNat_ofNat]
  exact (Nat.mod_le _ _).trans hn

theorem not_exclusiveLocked_le (hcard : Fintype.card W < 2 ^ 60) (hm : e.Prepared m)
    (hidx : idx < nodes) (hinv : (e.counts m).Inv s) : ¬exclusiveLocked ≤ s.mem (e.base idx) := by
  have hlocked : exclusiveLocked.toNat = 2 ^ 60 := rfl
  have hword := word_le hm hidx hinv
  rw [BitVec.le_def, hlocked]
  omega

def Locked (e : Experiment) (m : Mem) (w : W) (idx : Nat) (o : Except Terminate Bool)
    : Assertion W Buffer Traversal :=
  fun l s => o = .ok true ∧ tally w s.hist = e.shares idx ∧ e.Copied m idx l

theorem wp_sLock (hcard : Fintype.card W < 2 ^ 60) (hm : e.Prepared m) (hidx : idx < nodes)
    (hinv : (e.counts m).Inv s) (h : tally w s.hist = 0)
    : wp (e.counts m).protocol nic w op (e.Locked m w idx) (e.sLock (e.lockAddr idx)) l s := by
  have hset (x : Word) : l.set (.old, 0) x .old 0 = x := Local.set_self l (Buffer.old, 0) x
  have hret (l : Local Buffer) (s : Shared W Buffer Traversal) (h : tally w s.hist = e.shares idx)
      (hcopied : e.Copied m idx l)
      : wp (e.counts m).protocol nic w op (e.Locked m w idx) (.ret true : Code Bool) l s := by
    intro s' hr _
    exact ⟨rfl, ((e.counts m).tally_steady w _).rely hr h, hcopied⟩
  unfold sLock
  split
  . next hun =>
    apply wp_fetch (Nat.le_refl 1) rfl rfl hinv h
    intro l₁ s₁ _ h₁ hcopied _
    apply hret l₁ s₁ _ hcopied
    rw [h₁]
    funext j
    simp [shares, hun]
  . next hun =>
    have hcount : Function.update (0 : Nat → Word) (e.base idx) (0 + 1) = e.shares idx := by
      funext j
      simp [shares, hun, Function.update_apply]
    have hidx' : (e.counts m).counts (e.base idx) := ⟨idx, hidx, rfl⟩
    rw [Benchmark.sLock_eq]
    unfold lockTuple
    split
    . apply wp_count (e.lockAddr_eq idx) hidx' h (.inr rfl)
      intro s₁ s' hinv₁ h₁ hinv'
      apply wp_fetch (Nat.le_refl 1) rfl rfl hinv₁ (h₁.trans hcount)
      intro l₂ s₂ _ h₂ hcopied hframe
      simp only [wp_poll, wp_load, hframe rfl, hset]
      rw [if_neg (not_exclusiveLocked_le hcard hm hidx hinv')]
      exact hret l₂ s₂ h₂ hcopied
    . apply wp_count (e.lockAddr_eq idx) hidx' h (.inr rfl)
      intro s₁ s' hinv₁ h₁ hinv'
      simp only [wp_poll, wp_load, hset]
      rw [if_neg (not_exclusiveLocked_le hcard hm hidx hinv')]
      apply wp_fetch (Nat.zero_le 1) rfl rfl hinv₁ (h₁.trans hcount)
      intro l₂ s₂ _ h₂ hcopied _
      exact hret l₂ s₂ h₂ hcopied

theorem wp_sRelease (hidx : idx < nodes) (h : tally w s.hist = e.shares idx)
    : wp (e.counts m).protocol nic w op (fun o _ s => o = .ok () ∧ tally w s.hist = 0)
        (e.sRelease (e.lockAddr idx)) l s := by
  have hret (l : Local Buffer) (s : Shared W Buffer Traversal) (h : tally w s.hist = 0)
      : wp (e.counts m).protocol nic w op (fun o _ s => o = .ok () ∧ tally w s.hist = 0)
          (.ret () : Code Unit) l s := by
    intro s' hr _
    exact ⟨rfl, ((e.counts m).tally_steady w 0).rely hr h⟩
  cases hun : e.unsynchronized with
  | true =>
    unfold sRelease
    rw [hun]
    apply hret
    rw [h]
    funext j
    simp [shares, hun]
  | false =>
    have hidx' : (e.counts m).counts (e.base idx) := ⟨idx, hidx, rfl⟩
    have hone : e.shares idx (e.base idx) + -1 = 0 ∨ e.shares idx (e.base idx) + -1 = 1 := by
      simp [shares, hun]
    have hcount : Function.update (e.shares idx) (e.base idx) (e.shares idx (e.base idx) + -1) = 0 := by
      funext j
      by_cases hj : j = e.base idx
      . simp [shares, hun, hj]
      . simp [shares, hj]
    rw [sRelease_eq hun]
    unfold giveBack
    split
    . apply wp_count (e.lockAddr_eq idx) hidx' h hone
      intro s₁ s' _ h₁ _
      exact hret _ s₁ (h₁.trans hcount)
    . apply wp_count (e.lockAddr_eq idx) hidx' h hone
      intro s₁ s' _ h₁ _
      exact hret (l.set (.old, 0) (s'.mem (e.base idx))) s₁ (h₁.trans hcount)

theorem wp_traverse (hcard : Fintype.card W < 2 ^ 60) (hm : e.Prepared m) {level nextIdx prevId : Nat}
    {nodeIds : List (Fin B)} (hpath : ∀ idx ∈ path level nextIdx prevId nodeIds, idx < nodes)
    (hinv : (e.counts m).Inv s) (h : tally w s.hist = 0)
    : wp (e.counts m).protocol nic w op
        (fun o _ s => o = .ok (path level nextIdx prevId nodeIds) ∧ tally w s.hist = 0)
        (e.traverse level nextIdx prevId nodeIds) l s := by
  induction nodeIds generalizing level nextIdx prevId l s with
  | nil =>
    intro s' hr _
    exact ⟨rfl, ((e.counts m).tally_steady w 0).rely hr h⟩
  | cons nodeId nodeIds ih =>
    have hidx : nextIdx < nodes := hpath _ List.mem_cons_self
    apply wp.bind hinv (wp_sLock hcard hm hidx hinv h)
    . rintro locked l₁ s₁ hinv₁ ⟨hlocked, h₁, hcopied⟩
      cases hlocked
      have hverify : (verify 1 e.tuples.words).exec l₁ = (.ok (), l₁) := by
        apply verify_exec e.tuples.words_ge
        intro i hi hlt
        rw [hcopied i hi hlt, hm.data nextIdx hidx i hi hlt]
      apply wp.exec_bind (verify_local _ _)
      . intro _ _
        rw [hverify]
        apply wp.bind hinv₁ (wp_sRelease hidx h₁)
        . rintro _ l₂ s₂ hinv₂ ⟨_, h₂⟩
          apply wp.bind hinv₂ (ih (fun idx hmem => hpath idx (List.mem_cons_of_mem _ hmem)) hinv₂ h₂)
          . rintro idxs l₃ s₃ _ ⟨hidxs, h₃⟩ s₄ hr _
            cases hidxs
            exact ⟨rfl, ((e.counts m).tally_steady w 0).rely hr h₃⟩
          . rintro _ _ _ _ ⟨hidxs, _⟩
            cases hidxs
        . rintro _ _ _ _ ⟨hok, _⟩
          cases hok
      . intro err s₂ _ _ herr
        rw [hverify] at herr
        cases herr
    . rintro _ _ _ _ ⟨hok, _⟩
      cases hok

def spec (e : Experiment) (nic : Nic) (hcard : Fintype.card W < 2 ^ 60) (hm : e.Prepared m)
    : Spec (W := W) (e.counts m).protocol (e.workload nic) .rctx where
  ready := fun w _ _ s => tally w s.hist = 0
  post := fun _ op _ o _ _ => o = .ok (rootToLeaf op)
  leftover := Unsignaled
  ends := fun _ => Ends
  leftover_of_ends := by
    intro _ o u h
    cases o with
    | ok => exact h
    | error =>
      obtain rfl : u = [] := h
      exact unsignaled_nil
  synced := fun op _ hu => synced_traverse 0 0 0 (List.ofFn op) hu
  wp_program := by
    intro w op _ _ _ s _ hinv _ hready
    have hpath : ∀ idx ∈ path 0 0 0 (List.ofFn op), idx < nodes := by
      intro idx hmem
      rw [path_eq] at hmem
      exact rootToLeaf_lt hmem
    apply (wp_traverse hcard hm hpath hinv hready).mono hinv
    rintro o _ s' _ ⟨rfl, h'⟩
    rw [path_eq]
    exact ⟨rfl, fun _ => h'⟩

end Traverse

section Run

variable [DecidableEq W] [Fintype W]

structure Undisturbed (e : Experiment) (m : Mem)
    (s : Sys W Ctx Buffer Terminate (List Nat) Traversal) : Prop where
  never_throws : ∀ w op since err, (s.worker w).control ≠ .running op since (.throw err)
  rootToLeaf : ∀ w, ∀ d ∈ (s.worker w).done, d.2 = rootToLeaf d.1
  sameWay : ∀ w w', ∀ d ∈ (s.worker w).done, ∀ d' ∈ (s.worker w').done,
    d.2.getLast? = d'.2.getLast? → d.2 = d'.2
  readers : ∀ idx < nodes, (load64 s.shared.mem (e.lockAddr idx)).toNat ≤ Fintype.card W
  restored : s.Quiescent → s.shared.mem = m

/-- Traversals of the B-Tree do not disturb each other. -/
theorem btree_undisturbed {nic : Nic} {s₀ s : Sys W Ctx Buffer Terminate (List Nat) Traversal}
    (hcard : Fintype.card W < 2 ^ 60) (hfresh : s₀.Fresh) (hm : e.Prepared s₀.shared.mem)
    (hreach : Sys.Reach (e.workload nic) Sys.anyStep s₀ s) : e.Undisturbed s₀.shared.mem s := by
  let S := e.spec nic hcard hm
  have hok₀ : S.SysOk s₀ := by
    apply S.sysOk_fresh (inv_initial hfresh.hist rfl) hfresh unsignaled_nil
    intro w s' hr _
    apply ((e.counts _).tally_steady w 0).rely hr
    rw [hfresh.hist]
    rfl
  have hok {s' : Sys W Ctx Buffer Terminate (List Nat) Traversal}
      (h : Sys.Reach (e.workload nic) Sys.anyStep s₀ s') : S.SysOk s' :=
    S.sysOk_of_reach (fun _ _ _ _ _ _ _ _ => trivial) hok₀ h
  have hinv : (e.counts s₀.shared.mem).Inv s.shared := (hok hreach).inv
  have hpath (w : W) : ∀ d ∈ (s.worker w).done, d.2 = BTree.rootToLeaf d.1 := by
    apply hreach.forall_done
    . rintro s' hreach' w ⟨op, idxs⟩ since hcontrol
      apply (hok hreach').post_ret_of_pull S (A := fun _ _ => idxs = BTree.rootToLeaf op) hcontrol
      . exact fun _ _ _ hret => Except.ok.inj hret
      . exact fun _ _ _ _ => ⟨fun _ _ => trivial, fun _ _ _ _ h => h⟩
    . intro w
      simp [hfresh.done]
  constructor
  . intro w op since err hcontrol
    have hpost := (hok hreach).post_throw _ hcontrol (fun _ h => h)
    cases hpost
  . exact hpath
  . intro w w' d hd d' hd' hleaf
    rw [hpath w d hd, hpath w' d' hd'] at hleaf ⊢
    exact eq_of_leaf hleaf
  . intro idx hidx
    rw [e.lockAddr_eq, load64_aligned _ (Nat.mul_mod_right 8 _), Nat.mul_div_cancel_left _ (by decide)]
    exact word_le hm hidx hinv
  . intro hquiescent
    apply hinv.mem_of_rest
    intro w
    exact (hok hreach).ready _ (hquiescent.control w) (hquiescent.queue w _)

def sample : Experiment where
  start := 0
  padding := 8
  unsynchronized := false
  speculativeRead := true
  orderRelease := true
  start_aligned := aligned_zero
  padding_aligned := aligned_eight

theorem prepared_zero (e : Experiment) : e.Prepared fun _ => 0 where
  lock := fun _ _ => rfl
  data := fun _ _ _ _ _ => rfl

def readRun (w : Bool) : List (Action Bool Ctx Traversal) :=
  cpus w 2 ++ serves w .rctx [0] ++ serves w .rctx [0] ++ [.cpu w 1] ++ cpus w 514

def sharedRun : List (Action Bool Ctx Traversal) :=
  List.flatten [
    [.start true fun _ => 7], cpus true 2, serves true .rctx [0],
    [.start false fun _ => 7], readRun false, serves false .rctx [0], readRun false,
    serves false .rctx [0], readRun false, [.finish false]]

theorem btree_undisturbed_sharedRun
    : ∃ s : Sys Bool Ctx Buffer Terminate (List Nat) Traversal, sample.Undisturbed (fun _ => 0) s ∧
        (s.worker false).done.length = 1 := by
  have hrun : ((Sys.initial (fun _ => 0) (fun _ _ => 0)).run
      (sample.workload { atomicReadBytes := 4096, inOrderWrites := false }) sharedRun).any
      (fun s => (s.worker false).done.length == 1) = true := by
    decide +kernel
  obtain ⟨s, hreach, hdone⟩ := Sys.exists_reach_of_run hrun
  rw [beq_iff_eq] at hdone
  exact ⟨s, btree_undisturbed (by decide) (Sys.initial_fresh _ _) (prepared_zero _) hreach, hdone⟩

end Run

end Experiment
end BTree
