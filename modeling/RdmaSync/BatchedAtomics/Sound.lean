import Mathlib.Tactic.Ring
import RdmaSync.BatchedAtomics.Impl
import RdmaSync.Rdma.Slots
import RdmaSync.Rdma.Tallies

/-!
This module contains the proof that no increment is lost: when all requests are over, the counters add
up to what the workers have counted themselves.
-/

namespace BatchedAtomics

open Rdma CommunicationManager Tallies Threads
open Rdma.Action (cpus serves)

variable {storageNodes : Nat} [DecidableEq W] [Fintype W]

namespace Experiment

variable (e : Experiment storageNodes) (sId : Fin storageNodes)

def slots : Slots where
  start := e.start sId + 64
  size := tupleSize
  padding := e.padding
  start_aligned := by
    have := e.start_aligned sId
    omega
  size_aligned := rfl
  size_pos := by decide
  padding_aligned := e.padding_aligned

def base (lockId : Fin e.lockCount) : Nat := (e.slots sId).base lockId

theorem lockAddr_eq (lockId : Fin e.lockCount) : e.lockAddr sId lockId = 8 * e.base sId lockId := by
  exact (e.slots sId).addr_eq lockId

theorem load_lockAddr (m : Mem) (lockId : Fin e.lockCount)
    : load64 m (e.lockAddr sId lockId) = m (e.base sId lockId) := by
  rw [lockAddr_eq, load64_aligned _ (Nat.mul_mod_right 8 _), Nat.mul_div_cancel_left _ (by decide)]

def counters (m : Mem) : Tallies where
  init := m
  counts := fun j => ∃ lockId, j = e.base sId lockId
  may := fun _ => True
  may_zero := trivial

/-- What a worker adds to the word `j` when it draws the locks. -/
def adds (lockIds : List (Fin e.lockCount)) (j : Nat) : Word :=
  BitVec.ofNat 64 (lockIds.countP fun lockId => e.base sId lockId = j)

def drawn (done : List (e.Batch × Unit)) : List (Fin e.lockCount) :=
  done.flatMap fun d => List.ofFn d.1

variable {e sId} {m : Mem} {nic : Fin storageNodes → Nic} {w : W}

theorem adds_append (lockIds lockIds' : List (Fin e.lockCount)) (j : Nat)
    : e.adds sId (lockIds ++ lockIds') j = e.adds sId lockIds j + e.adds sId lockIds' j := by
  rw [adds, List.countP_append, BitVec.ofNat_add]
  rfl

theorem adds_cons (lockId : Fin e.lockCount) (lockIds : List (Fin e.lockCount)) (j : Nat)
    : e.adds sId (lockId :: lockIds) j
        = (if j = e.base sId lockId then 1 else 0) + e.adds sId lockIds j := by
  rw [← List.singleton_append, adds_append]
  congr 1
  by_cases hj : j = e.base sId lockId
  . simp [adds, hj]
  . simp [adds, hj, Ne.symm hj]

theorem adds_base (lockIds : List (Fin e.lockCount)) (lockId : Fin e.lockCount)
    : e.adds sId lockIds (e.base sId lockId) = BitVec.ofNat 64 (lockIds.count lockId) := by
  rw [adds, List.count]
  congr 1
  apply List.countP_congr
  intro lockId' _
  simp [base, Slots.base_inj, Fin.ext_iff]

theorem length_drawn (done : List (e.Batch × Unit))
    : (e.drawn done).length = e.batch * done.length := by
  simp [drawn, List.length_flatMap, Nat.mul_comm]

section Program

variable {nic : Nic} {op : e.Batch} {l : Local Buffer} {s : Shared W Buffer e.Batch} {f : Nat → Word}

theorem wp_requests (lockIds : e.Batch) (bIs : List (Fin e.batch)) (h : tally w s.hist = f)
    : wp (e.counters sId m).protocol nic w op
        (fun _ _ s => tally w s.hist = fun j => e.adds sId (bIs.map lockIds) j + f j)
        (Prog.forEach bIs fun bI => e.request sId lockIds bI) l s := by
  induction bIs generalizing f l s with
  | nil =>
    intro s' hr _
    rw [((e.counters sId m).tally_steady w f).rely hr h]
    funext j
    simp [adds]
  | cons bI bIs ih =>
    have hcounts : (e.counters sId m).counts (e.base sId (lockIds bI)) := ⟨_, rfl⟩
    rw [Prog.forEach_cons]
    apply wp_count (e.lockAddr_eq sId (lockIds bI)) hcounts h trivial
    intro s₁ s₂ hinv₁ h₁ _
    apply (ih h₁).mono hinv₁
    intro _ _ s' _ h'
    rw [h']
    funext j
    rw [List.map_cons, adds_cons, Function.update_apply]
    split
    . next hj =>
      rw [hj]
      ring
    . ring

/-- Only the last request of a batch is signaled, so that waiting for it is waiting for all. -/
theorem synced_requests {lockIds : e.Batch} {bIs : List (Fin e.batch)} {u : List (Verb Buffer × Bool)}
    (hsorted : bIs.Pairwise (· < ·)) (hlast : bIs ≠ [] → ∃ bI ∈ bIs, (bI : Nat) = e.batch - 1)
    (hnil : bIs = [] → acked u 1 = []) (hu : ∀ p ∈ u, p.2 = false)
    : Synced .rctx (fun _ u => acked u 1 = [])
        (Prog.forEach bIs fun bI => e.request sId lockIds bI) u := by
  induction bIs generalizing u with
  | nil => exact hnil rfl
  | cons bI bIs ih =>
    obtain ⟨hlt, hsorted⟩ := List.pairwise_cons.mp hsorted
    rw [Prog.forEach_cons]
    refine ⟨rfl, fun _ h => h.elim, ?_⟩
    by_cases hbI : (bI : Nat) = e.batch - 1
    . have hbIs : bIs = [] := by
        rw [List.eq_nil_iff_forall_not_mem]
        intro bI' hmem
        have := hlt bI' hmem
        omega
      subst hbIs
      rw [if_pos hbI]
      show acked (u ++ [(_, true)]) 1 = []
      rw [acked_append_signaled hu, acked_nil]
    . rw [if_neg hbI]
      have hmem : ∃ bI' ∈ bIs, (bI' : Nat) = e.batch - 1 := by
        obtain ⟨bI', hmem, hbI'⟩ := hlast (List.cons_ne_nil _ _)
        rcases List.mem_cons.mp hmem with rfl | hmem
        . exact absurd hbI' hbI
        . exact ⟨bI', hmem, hbI'⟩
      apply ih hsorted (fun _ => hmem) _ (append_unsignaled hu _)
      rintro rfl
      simp at hmem

theorem synced_iteration {lockIds : e.Batch}
    : Synced .rctx (fun _ u => u = []) (e.iteration sId lockIds) [] := by
  apply (synced_requests (List.pairwise_lt_finRange _) _ (fun _ => acked_nil 1) (by simp)).bind
  . exact fun _ _ hacked => ⟨rfl, hacked⟩
  . exact fun err _ _ => err.elim
  . intro hne
    have hpos : 0 < e.batch := by
      rw [Nat.pos_iff_ne_zero]
      intro hzero
      apply hne
      simp [hzero]
    exact ⟨⟨e.batch - 1, by omega⟩, List.mem_finRange _, rfl⟩

def spec (e : Experiment storageNodes) (sId : Fin storageNodes) (m : Mem)
    (nic : Fin storageNodes → Nic)
    : Spec (W := W) (e.counters sId m).protocol (e.workload sId nic) .rctx where
  ready := fun w done _ s => tally w s.hist = e.adds sId (e.drawn done)
  post := fun _ _ _ _ _ _ => True
  leftover := fun u => u = []
  ends := fun _ _ u => u = []
  leftover_of_ends := fun h => h
  synced := by
    rintro _ _ rfl
    exact synced_iteration
  wp_program := by
    intro w lockIds _ done _ s _ hinv _ hready
    apply wp.bind hinv (wp_requests lockIds _ hready)
    . intro _ l' s' _ h' s'' hr _
      refine ⟨trivial, fun _ => ?_⟩
      rw [((e.counters sId m).tally_steady w _).rely hr h']
      funext j
      rw [← adds_append, ← List.ofFn_eq_map]
      rfl
    . exact fun err _ _ _ _ => err.elim

end Program

section Run

variable {r₀ r : State W e}

def drawnBy (w : W) (sId : Fin storageNodes) (lockId : Fin e.lockCount) (r : State W e) : Nat :=
  (e.drawn ((r.node sId).worker w).done).count lockId

def txP (w : W) (sId : Fin storageNodes) (r : State W e) : Nat :=
  e.batch * ((r.node sId).worker w).done.length

structure NoneLost (m : Fin storageNodes → Mem) (r : State W e) : Prop where
  drained : ∀ w, r.isIdle w = true → ∀ sId c, ((r.node sId).worker w).queue c = []
  counters : (∀ w, r.isIdle w = true) → ∀ sId lockId,
    load64 (r.node sId).shared.mem (e.lockAddr sId lockId)
      = BitVec.ofNat 64 (∑ w, drawnBy w sId lockId r)
  total : (∀ w, r.isIdle w = true) →
    ∑ sId, ∑ lockId, load64 (r.node sId).shared.mem (e.lockAddr sId lockId)
      = BitVec.ofNat 64 (∑ sId, ∑ w, txP w sId r)
  elsewhere : ∀ sId j, (∀ lockId, e.lockAddr sId lockId ≠ 8 * j) →
    (r.node sId).shared.mem j = m sId j
  evenly : ∀ w, r.isIdle w = true → ∀ sId sId',
    ((r.node sId).worker w).done.length ≤ ((r.node sId').worker w).done.length + r.jobs w + 1

omit [DecidableEq W] [Fintype W] in
theorem sum_drawnBy (w : W) (sId : Fin storageNodes) (r : State W e)
    : ∑ lockId, drawnBy w sId lockId r = txP w sId r := by
  simp only [drawnBy, ← Multiset.coe_count]
  rw [Multiset.sum_count_eq_card fun _ _ => Finset.mem_univ _, Multiset.coe_card, length_drawn]
  rfl

variable [NeZero storageNodes]

/-- No increment is lost. -/
theorem batchedAtomics_noneLost (hfresh : ∀ sId, (r₀.node sId).Fresh) (hcurrentNode : ∀ w, r₀.currentNode w = 0)
    (hzero : ∀ sId lockId, load64 (r₀.node sId).shared.mem (e.lockAddr sId lockId) = 0)
    (hreach : (Rounds.step fun sId => e.workload sId nic).Reach Step.any r₀ r)
    : NoneLost (fun sId => (r₀.node sId).shared.mem) r := by
  have hok (sId : Fin storageNodes)
      : (e.spec sId (r₀.node sId).shared.mem nic).SysOk (r.node sId) := by
    apply Spec.sysOk_of_reach _ (fun _ _ _ _ _ _ _ _ => trivial) _ (Rounds.reach_node hreach sId)
    apply Spec.sysOk_fresh _ (inv_initial (hfresh sId).hist rfl) (hfresh sId) rfl
    intro w s' hr _
    apply ((e.counters sId _).tally_steady w _).rely hr
    rw [(hfresh sId).hist]
    rfl
  have hinv (sId : Fin storageNodes)
      : (e.counters sId (r₀.node sId).shared.mem).Inv (r.node sId).shared := (hok sId).inv
  have hdrained {w : W} (hidle : r.isIdle w = true) (sId : Fin storageNodes) (c : Ctx)
      : ((r.node sId).worker w).queue c = [] :=
    (hok sId).queue_idle _ (Rounds.control_of_isIdle hidle sId) (fun _ h => h) c
  have hcounters (hidle : ∀ w, r.isIdle w = true) (sId : Fin storageNodes) (lockId : Fin e.lockCount)
      : load64 (r.node sId).shared.mem (e.lockAddr sId lockId)
          = BitVec.ofNat 64 (∑ w, drawnBy w sId lockId r) := by
    have htally (w : W) : tally w (r.node sId).shared.hist (e.base sId lockId)
        = BitVec.ofNat 64 (drawnBy w sId lockId r) := by
      have hready : tally w (r.node sId).shared.hist = _ :=
        (hok sId).ready _ (Rounds.control_of_isIdle (hidle w) sId) (hdrained (hidle w) sId _)
      rw [hready, adds_base]
      rfl
    have hinit := hzero sId lockId
    rw [load_lockAddr] at hinit
    rw [load_lockAddr, (hinv sId).word, Finset.sum_congr rfl fun w _ => htally w]
    simp only [counters, hinit, zero_add, ← BitVec.natCast_eq_ofNat, Nat.cast_sum]
  constructor
  . exact fun w hidle => hdrained hidle
  . exact hcounters
  . intro hidle
    have hnode (sId : Fin storageNodes)
        : ∑ lockId, ∑ w, drawnBy w sId lockId r = ∑ w, txP w sId r := by
      rw [Finset.sum_comm]
      exact Finset.sum_congr rfl fun w _ => sum_drawnBy w sId r
    rw [← Finset.sum_congr rfl fun sId _ => hnode sId]
    simp only [hcounters hidle, ← BitVec.natCast_eq_ofNat, Nat.cast_sum]
  . intro sId j hj
    apply (hinv sId).mem_of_away
    rintro ⟨lockId, rfl⟩
    exact hj lockId (e.lockAddr_eq sId lockId)
  . intro w hidle sId sId'
    have hended (sId : Fin storageNodes)
        : Rounds.ended (e.workload sId nic) ((r.node sId).worker w)
          = ((r.node sId).worker w).done.length := by
      simp [Rounds.ended, workload, Next.isIdle]
    have hle := Rounds.ended_le_of_reach (fun _ _ err => err.elim) hfresh hcurrentNode hreach hidle
      sId sId'
    rwa [hended, hended] at hle

end Run

def sample : Experiment 2 where
  start := fun _ => 0
  lockCount := 2
  padding := 8
  batch := 2
  start_aligned := fun _ => aligned_zero
  padding_aligned := aligned_eight

def first : Fin 2 := (Fin.last 0).castSucc

def second : Fin 2 := Fin.last 1

def batchRun (w : Bool) : List (Action Bool Ctx (Fin 2 → Fin 2)) :=
  cpus w 2 ++ serves w .rctx [0] ++ serves w .rctx [0] ++ [.cpu w 1, .finish w]

def restRun : List (Action Bool Ctx (Fin 2 → Fin 2)) :=
  serves true .rctx [0] ++ cpus true 1 ++ serves true .rctx [0] ++ [.cpu true 1, .finish true]

/-- Two workers increment the same counters, and one of them goes on with the other storage node. -/
def contendedRun : List (Turn 2 Bool Ctx (Fin 2 → Fin 2)) :=
  List.flatten [
    [.start false id, .start true fun _ => first, .on first (.cpu true 0)],
    (batchRun false).map (.on first), restRun.map (.on first),
    [.start false id], (batchRun false).map (.on second)]

theorem batchedAtomics_noneLost_contendedRun
    : ∃ r : State Bool sample, NoneLost (fun _ _ => 0) r ∧ ∑ sId, ∑ w, txP w sId r = 6 := by
  have hrun : ((Rounds.step fun sId => sample.workload sId
      fun _ => { atomicReadBytes := 0, inOrderWrites := false }).run
      { node := fun _ => Sys.initial (fun _ => 0) (fun _ _ => 0)
        currentNode := fun _ => 0
        jobs := fun _ => 0 } contendedRun).any
      (fun r => ∑ sId, ∑ w, txP w sId r == 6) = true := by
    decide +kernel
  obtain ⟨r, hreach, htotal⟩ := Step.exists_reach_of_run hrun
  rw [beq_iff_eq] at htotal
  refine ⟨r, batchedAtomics_noneLost ?_ (fun _ => rfl) ?_ hreach, htotal⟩
  . exact fun _ => Sys.initial_fresh _ _
  . intro sId lockId
    rw [load_lockAddr]
    rfl

end Experiment
end BatchedAtomics
