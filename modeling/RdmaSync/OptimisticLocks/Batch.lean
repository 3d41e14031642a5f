import RdmaSync.OptimisticLocks.Checksum
import RdmaSync.OptimisticLocks.Farm
import RdmaSync.OptimisticLocks.Pessimistic
import RdmaSync.OptimisticLocks.RC
import RdmaSync.OptimisticLocks.Versioning
import RdmaSync.Rdma.Accounting

/-!
This module contains the accounting of completions of batched operations. The batch size may be any
number that the flag can have, also a negative one.
-/

namespace OptimisticLocks

open Rdma CommunicationManager
open Rdma.Action (cpus touches serves)

def RC_BATCH_SIZE : Nat := 32

def cqEntries : Nat := 16

section Accounts

variable {U α : Type} {t : Tuple} {depth maxCall : Nat} {u : Ctx → List (Verb Buffer × Bool)}

/-- Nothing that is possibly not over is signaled. -/
def Unsignaled (u : Ctx → List (Verb Buffer × Bool)) : Prop :=
  ∀ c, ∀ p ∈ u c, p.2 = false

theorem Unsignaled.update (hu : Unsignaled u) (c : Ctx)
    : Unsignaled (Function.update u c []) := by
  intro c'
  by_cases hc : c' = c
  . subst hc
    simp
  . rw [Function.update_of_ne hc]
    exact hu c'

theorem Unsignaled.post (hu : Unsignaled u) (c : Ctx) (v : Verb Buffer)
    : Unsignaled (Function.update u c (u c ++ [(v, false)])) := by
  intro c' p hp
  by_cases hc : c' = c
  . subst hc
    rw [Function.update_self] at hp
    rcases List.mem_append.mp hp with hp | hp
    . exact hu c' p hp
    . rw [List.mem_singleton.mp hp]
  . rw [Function.update_of_ne hc] at hp
    exact hu c' p hp

theorem Unsignaled.posted (hu : Unsignaled u) (ctx : Nat → Ctx) (v : Verb Buffer) (xs : List Nat)
    : Unsignaled (Accounts.posted u ctx false v xs) := by
  intro c p hp
  rcases List.mem_append.mp hp with hp | hp
  . exact hu c p hp
  . rw [List.eq_of_mem_replicate hp]

/-- The completions of a read are those that it waits for. -/
def Balanced (t : Tuple) : Prop :=
  0 < t.flags.batch ∧ ¬(t.consistency = .rc ∧ t.rctx2Mr = true ∧ t.flags.batch % 2 = 1)

def AfterRead (t : Tuple) (u u' : Ctx → List (Verb Buffer × Bool)) : Prop :=
  Unsignaled u' ∧ (Balanced t → u .rctx2 = [] → u' = fun _ => [])

theorem update_rctx (h : u .rctx2 = []) : Function.update u .rctx [] = fun _ => [] := by
  funext c
  cases c with
  | rctx => simp
  | rctx2 => simpa using h

theorem afterRead_update (hu : Unsignaled u)
    : AfterRead t u (Function.update u .rctx []) := by
  exact ⟨hu.update .rctx, fun _ h => update_rctx h⟩

/-- There is room for the requests and the completions of a read. -/
def Fits (t : Tuple) (depth maxCall : Nat) : Prop :=
  0 < depth ∧ 0 < maxCall ∧
  match t.consistency with
  | .v2 | .crc => True
  | .rc =>
    if t.rctx2Mr then
      t.flags.batch ≤ 1 ∨
        t.flags.batch % 2 = 0 ∧ t.flags.batch / 2 ≤ depth ∧ t.flags.batch / 2 ≤ maxCall
    else
      0 ≤ t.flags.batchSize ∧ t.flags.batch ≤ depth ∧ t.flags.batch ≤ maxCall
  | .broken | .faRM => 0 ≤ t.flags.batchSize ∧ t.flags.batch ≤ depth ∧ t.flags.batch ≤ maxCall

section Batch

variable {ends : Except OLRestartException α → (Ctx → List (Verb Buffer × Bool)) → Prop}

theorem accounts_batch {n : Nat} {v : Verb Buffer} {next : Code α} (hdepth : n ≤ depth)
    (hcall : n ≤ maxCall) (hu : Unsignaled u)
    (h : Accounts depth maxCall ends next (if n = 0 then u else Function.update u .rctx []))
    : Accounts depth maxCall ends
        ((Prog.forEach (List.range n) fun _ => .post .rctx true v (.ret ())) >>= fun _ =>
          .poll .rctx n next) u := by
  have hposted : Function.update (Accounts.posted u (fun _ => .rctx) true v (List.range n)) .rctx
      (acked (Accounts.posted u (fun _ => .rctx) true v (List.range n) .rctx) n)
        = if n = 0 then u else Function.update u .rctx [] := by
    funext c
    cases n with
    | zero => cases c <;> simp [Accounts.posted]
    | succ n =>
      cases c with
      | rctx =>
        simp only [Function.update_self, Nat.add_eq_zero_iff, one_ne_zero, and_false, if_false,
          Accounts.posted, decide_true, List.countP_true, List.length_range]
        exact acked_append_replicate (hu .rctx) v (Nat.succ_pos n)
      | rctx2 => simp [Accounts.posted]
  refine Accounts.forEach_post ?_ ⟨hcall, ?_, ?_⟩
  . intro _ c
    rw [Accounts.signals_posted, signals_eq_zero (hu c)]
    cases c <;> simp [hdepth]
  . simp [Accounts.signals_posted]
  . rwa [hposted]

end Batch

def readResult (t : Tuple) (b : Bool) : Code (Word × Word) :=
  .load (.tupleBuffer b, t.lockIdx) fun x =>
    if x ≠ 0 then .throw .restart else .load (.tupleBuffer b, 0) fun version => .ret (0, version)

theorem runRead_broken (hc : t.consistency = .broken) (b : Bool) (opnum : Nat)
    : runRead t b opnum =
        (Prog.forEach (List.range t.flags.batch) fun _ =>
          .post .rctx true (dataVerb t b) (.ret ())) >>= fun _ =>
        .poll .rctx (sizeT t.flags.batchSize)
          ((Prog.forEach (List.range t.flags.batch) fun _ =>
            .post .rctx true (.read (.tupleBuffer b, 0) t.remoteAddress 8) (.ret ())) >>= fun _ =>
          .poll .rctx (sizeT t.flags.batchSize) (readResult t b)) := by
  have hcheck := checkLock_eq t b opnum
  simp only [Tuple.optimistic, hc] at hcheck
  simp only [runRead, OptimisticLock.lock, OptimisticLock.unlock, OptimisticLock.postBatch,
    Tuple.optimistic, hc, hcheck, dataVerb, readResult, postRead, pollCompletions, load, signaled,
    Prog.pure_eq, Prog.bind_ret, Prog.bind_poll, Prog.bind_load, Prog.bind_ite, Prog.bind_throw,
    Prog.bind_assoc]

section Reads

variable {b : Bool} {opnum : Nat}
  {ends : Except OLRestartException (Word × Word) → (Ctx → List (Verb Buffer × Bool)) → Prop}

theorem accounts_readResult (hends : ∀ o, ends o u)
    : Accounts depth maxCall ends (readResult t b) u := by
  intro x
  exact Accounts.check (hends _) (fun version => hends _)

theorem accounts_v2 (hc : t.consistency = .v2) (hdepth : 0 < depth) (hcall : 0 < maxCall)
    (hu : Unsignaled u) (hends : ∀ o, ends o (Function.update u .rctx []))
    : Accounts depth maxCall ends (runRead t b opnum) u := by
  cases hl : t.lockType with
  | headerLock =>
    rw [runRead_v2_header hc hl]
    apply Accounts.post_poll hdepth hcall (hu .rctx)
    apply Accounts.post_poll hdepth hcall (hu.update .rctx .rctx)
    rw [Function.update_idem]
    intro prevVersion x
    apply Accounts.check (hends _)
    apply Accounts.post_poll hdepth hcall (hu.update .rctx .rctx)
    rw [Function.update_idem]
    intro version
    apply Accounts.check (hends _)
    intro x
    exact Accounts.check (hends _) (fun version => hends _)
  | footerLock =>
    rw [runRead_v2_footer hc hl]
    apply Accounts.post_poll hdepth hcall (hu .rctx)
    intro prevVersion
    apply Accounts.post_poll hdepth hcall (hu.update .rctx .rctx)
    rw [Function.update_idem]
    intro prevVersion x
    apply Accounts.check (hends _)
    apply Accounts.post_poll hdepth hcall (hu.update .rctx .rctx)
    rw [Function.update_idem]
    intro version
    apply Accounts.check (hends _)
    intro x
    exact Accounts.check (hends _) (fun version => hends _)

theorem accounts_crc (hc : t.consistency = .crc) (hdepth : 0 < depth) (hcall : 0 < maxCall)
    (hu : Unsignaled u) (hends : ∀ o, ends o (Function.update u .rctx []))
    : Accounts depth maxCall ends (runRead t b opnum) u := by
  rw [runRead_crc hc]
  apply Accounts.post_poll hdepth hcall (hu .rctx)
  intro prevVersion x
  apply Accounts.check (hends _)
  refine Accounts.of_local (crc_check_local t b) (fun _ _ => hends _) ?_
  intro _
  apply Accounts.post_poll hdepth hcall (hu.update .rctx .rctx)
  rw [Function.update_idem]
  intro version
  apply Accounts.check (hends _)
  intro x
  exact Accounts.check (hends _) (fun version => hends _)

def afterBatch (u : Ctx → List (Verb Buffer × Bool)) (n : Nat) : Ctx → List (Verb Buffer × Bool) :=
  if n = 0 then u else Function.update u .rctx []

theorem Unsignaled.afterBatch (hu : Unsignaled u) (n : Nat) : Unsignaled (afterBatch u n) := by
  unfold OptimisticLocks.afterBatch
  split
  . exact hu
  . exact hu.update .rctx

theorem afterBatch_afterBatch (u : Ctx → List (Verb Buffer × Bool)) (n : Nat)
    : afterBatch (afterBatch u n) n = afterBatch u n := by
  unfold afterBatch
  split
  . rfl
  . rw [Function.update_idem]

theorem afterRead_batch (hu : Unsignaled u) : AfterRead t u (afterBatch u t.flags.batch) := by
  refine ⟨hu.afterBatch _, ?_⟩
  intro hbalanced hnil
  rw [afterBatch, if_neg (Nat.ne_of_gt hbalanced.1), update_rctx hnil]

theorem accounts_farm (hc : t.consistency = .faRM) (hnonneg : 0 ≤ t.flags.batchSize)
    (hdepth : t.flags.batch ≤ depth) (hcall : t.flags.batch ≤ maxCall) (hu : Unsignaled u)
    (hends : ∀ o, ends o (afterBatch u t.flags.batch))
    : Accounts depth maxCall ends (runRead t b opnum) u := by
  rw [runRead_farm hc, sizeT_batchSize hnonneg]
  apply accounts_batch hdepth hcall hu
  refine Accounts.of_local (Prog.Local.forEach fun _ _ => farm_check_local t b)
    (fun _ _ => hends _) ?_
  intro _
  exact accounts_readResult hends

theorem accounts_broken (hc : t.consistency = .broken) (hnonneg : 0 ≤ t.flags.batchSize)
    (hdepth : t.flags.batch ≤ depth) (hcall : t.flags.batch ≤ maxCall) (hu : Unsignaled u)
    (hends : ∀ o, ends o (afterBatch u t.flags.batch))
    : Accounts depth maxCall ends (runRead t b opnum) u := by
  rw [runRead_broken hc, sizeT_batchSize hnonneg]
  apply accounts_batch hdepth hcall hu
  apply accounts_batch hdepth hcall (hu.afterBatch _)
  apply accounts_readResult
  intro o
  have := hends o
  rwa [← afterBatch_afterBatch] at this

theorem accounts_rc_one (hc : t.consistency = .rc) (hr : t.rctx2Mr = false)
    (hnonneg : 0 ≤ t.flags.batchSize) (hdepth : t.flags.batch ≤ depth)
    (hcall : t.flags.batch ≤ maxCall) (hu : Unsignaled u)
    (hends : ∀ o, ends o (afterBatch u t.flags.batch))
    : Accounts depth maxCall ends (runRead t b opnum) u := by
  have hdata : dataConnection t = fun _ => .rctx := by
    funext i
    simp [dataConnection, hr]
  have hversion : versionConnection t = fun _ => .rctx := by
    funext i
    simp [versionConnection, hr]
  have hpoll : (t.optimistic b opnum).pollRC = .poll .rctx t.flags.batch (.ret ()) := by
    simp [OptimisticLock.pollRC, Tuple.optimistic, hr, pollCompletions, sizeT_batchSize hnonneg]
  rw [runRead_rc hc (by simp [hr]), hdata, hversion, hpoll]
  apply Accounts.forEach_post (by simp)
  apply accounts_batch hdepth hcall (hu.posted _ _ _)
  apply accounts_readResult
  have hposted : afterBatch (Accounts.posted u (fun _ => .rctx) false (dataVerb t b)
      (List.range t.flags.batch)) t.flags.batch = afterBatch u t.flags.batch := by
    unfold afterBatch
    funext c
    split
    . next hzero => simp [Accounts.posted, hzero]
    . cases c <;> simp [Accounts.posted]
  intro o
  have := hends o
  rwa [← hposted] at this

theorem accounts_rc_two (hc : t.consistency = .rc) (hr : t.rctx2Mr = true) {m : Nat} (hm : 0 < m)
    (hbatch : t.flags.batch = 2 * m) (hdepth : m ≤ depth) (hcall : m ≤ maxCall) (hu : Unsignaled u)
    (hends : ∀ o, ends o (fun _ => []))
    : Accounts depth maxCall ends (runRead t b opnum) u := by
  have hgt : 1 < t.flags.batchSize := Flags.one_lt_batch.mp (by omega)
  have hdata : dataConnection t = OptimisticLock.dataCtx := by
    funext i
    simp [dataConnection, hr]
  have hversion : versionConnection t = OptimisticLock.versionCtx := by
    funext i
    simp [versionConnection, hr]
  have hhalf : sizeT (t.flags.batchSize / 2) = m := by
    rw [sizeT_half (Int32.le_of_lt (Int32.lt_trans (by decide) hgt))]
    omega
  have hpoll : (t.optimistic b opnum).pollRC = .poll .rctx m (.poll .rctx2 m (.ret ())) := by
    simp [OptimisticLock.pollRC, Tuple.optimistic, hr, pollCompletions, hhalf, hgt]
  rw [runRead_rc hc fun _ => hgt, hdata, hversion, hpoll, hbatch]
  have hunsignaled := hu.posted OptimisticLock.dataCtx (dataVerb t b) (List.range (2 * m))
  have hrequests : Accounts.posted (Accounts.posted u OptimisticLock.dataCtx false (dataVerb t b)
      (List.range (2 * m))) OptimisticLock.versionCtx true (versionVerb t b) (List.range (2 * m))
      = fun c => Accounts.posted u OptimisticLock.dataCtx false (dataVerb t b)
          (List.range (2 * m)) c ++ List.replicate m (versionVerb t b, true) := by
    funext c
    rw [Accounts.posted, countP_versionCtx]
  apply Accounts.forEach_post (by simp)
  apply Accounts.forEach_post
  . intro _ c
    rw [hrequests, signals_append, signals_eq_zero (hunsignaled c), signals_replicate]
    simpa using hdepth
  rw [hrequests]
  refine ⟨hcall, by simp [signals_replicate], hcall, by simp [signals_replicate], ?_⟩
  apply accounts_readResult
  intro o
  convert hends o with c
  cases c with
  | rctx =>
    rw [Function.update_of_ne (by simp), Function.update_self]
    exact acked_append_replicate (hunsignaled .rctx) _ hm
  | rctx2 =>
    rw [Function.update_self, Function.update_of_ne (by simp)]
    exact acked_append_replicate (hunsignaled .rctx2) _ hm

/-- RC with two connections and no batch leaves the READ of the tuple behind. -/
theorem accounts_rc_single (hc : t.consistency = .rc) (hr : t.rctx2Mr = true)
    (hb : ¬1 < t.flags.batchSize) (hdepth : 0 < depth) (hcall : 0 < maxCall) (hu : Unsignaled u)
    (hends : ∀ o u', Unsignaled u' → ends o u')
    : Accounts depth maxCall ends (runRead t b opnum) u := by
  have hunsignaled := hu.post (OptimisticLock.dataCtx opnum) (dataVerb t b)
  rw [runRead_rc_single hc hr hb]
  apply Accounts.post_unsignaled
  apply Accounts.post_poll hdepth hcall (hunsignaled _)
  exact accounts_readResult fun o => hends o _ (hunsignaled.update _)

theorem accounts_runRead (hfits : Fits t depth maxCall) (hu : Unsignaled u)
    (hends : ∀ o u', AfterRead t u u' → ends o u')
    : Accounts depth maxCall ends (runRead t b opnum) u := by
  obtain ⟨hdepth, hcall, hfits⟩ := hfits
  have hendsBatch : ∀ o, ends o (afterBatch u t.flags.batch) :=
    fun o => hends o _ (afterRead_batch hu)
  have hendsOne : ∀ o, ends o (Function.update u .rctx []) :=
    fun o => hends o _ (afterRead_update hu)
  cases hc : t.consistency with
  | v2 => exact accounts_v2 hc hdepth hcall hu hendsOne
  | crc => exact accounts_crc hc hdepth hcall hu hendsOne
  | faRM =>
    simp only [hc] at hfits
    exact accounts_farm hc hfits.1 hfits.2.1 hfits.2.2 hu hendsBatch
  | broken =>
    simp only [hc] at hfits
    exact accounts_broken hc hfits.1 hfits.2.1 hfits.2.2 hu hendsBatch
  | rc =>
    simp only [hc] at hfits
    cases hr : t.rctx2Mr with
    | false =>
      simp only [hr, Bool.false_eq_true, if_false] at hfits
      exact accounts_rc_one hc hr hfits.1 hfits.2.1 hfits.2.2 hu hendsBatch
    | true =>
      simp only [hr, if_true] at hfits
      by_cases hone : t.flags.batch ≤ 1
      . have hb : ¬1 < t.flags.batchSize := by
          rw [← Flags.one_lt_batch]
          omega
        apply accounts_rc_single hc hr hb hdepth hcall hu
        intro o u' hu'
        refine hends o u' ⟨hu', ?_⟩
        rintro ⟨hpos, hodd⟩
        exact absurd ⟨hc, hr, by omega⟩ hodd
      . have hm : t.flags.batch = 2 * (t.flags.batch / 2) := by omega
        refine accounts_rc_two hc hr (by omega) hm (by omega) (by omega) hu ?_
        intro o
        exact hends o _ ⟨by simp [Unsignaled], fun _ _ => rfl⟩

end Reads

/-- What an update leaves behind gives the lock back, and is not signaled. -/
def Published (q : List (Verb Buffer × Bool)) : Prop :=
  ∀ p ∈ q, p.2 = false ∧ p.1.isCompareSwap = false

theorem Unsignaled.published (hu : Unsignaled u) {q : List (Verb Buffer × Bool)}
    (hq : Published q) : Unsignaled (Function.update u .rctx q) := by
  intro c p hp
  by_cases hc : c = .rctx
  . subst hc
    rw [Function.update_self] at hp
    exact (hq p hp).1
  . rw [Function.update_of_ne hc] at hp
    exact hu c p hp

theorem accounts_runUpdate {modification : Modification t U} {b : Bool} {x : U}
    {ends : Except OLRestartException Unit → (Ctx → List (Verb Buffer × Bool)) → Prop}
    (hdepth : 0 < depth) (hcall : 0 < maxCall) (hu : Unsignaled u)
    (hends : ∀ o q, Published q → ends o (Function.update u .rctx q))
    : Accounts depth maxCall ends (runUpdate t modification b x) u := by
  have hlocked := hu.post .rctx (.compareSwap 0 1 (.lockBuffer b, 0) t.block.lockAddr)
  rw [runUpdate_eq, lock_eq]
  simp only [Prog.bind_post, Prog.bind_poll, Prog.bind_load, Prog.bind_ite, Prog.bind_throw,
    Prog.bind_ret]
  apply Accounts.post_unsignaled
  apply Accounts.post_poll hdepth hcall (hlocked .rctx)
  rw [Function.update_idem]
  intro y
  apply Accounts.check
  . exact hends _ [] (by simp [Published])
  . refine Accounts.of_local (change_local t b modification x) (fun _ h => h.elim) ?_
    intro _
    unfold ExclusiveLock.publish
    split
    . apply Accounts.post_unsignaled
      rw [Function.update_idem, Function.update_self]
      exact hends _ _ (by simp [Published, Verb.isCompareSwap])
    . apply Accounts.post_unsignaled
      apply Accounts.post_unsignaled
      rw [Function.update_idem, Function.update_idem, Function.update_self, Function.update_self]
      exact hends _ _ (by simp [Published, Verb.isCompareSwap])

def BatchLeftover (t : Tuple) (u : Ctx → List (Verb Buffer × Bool)) : Prop :=
  Unsignaled u ∧ (Balanced t → u .rctx2 = [])

def BatchEnds (t : Tuple) (op : Iteration U)
    (u : Ctx → List (Verb Buffer × Bool)) : Prop :=
  match op with
  | .read _ _ => Unsignaled u ∧ (Balanced t → u = fun _ => [])
  | .update _ _ => BatchLeftover t u

def batchSpec (modification : Modification t U) (nic : Nic)
    (hfits : Fits t depth maxCall) : AccountSpec depth maxCall (benchmark t modification nic) where
  leftover := BatchLeftover t
  verbs := fun _ _ => True
  ends := fun op _ => BatchEnds t op
  leftover_nil := ⟨by simp [Unsignaled], fun _ => rfl⟩
  verbs_of_leftover := fun _ _ _ _ _ => trivial
  posts := fun _ => .of_forall (fun _ => trivial) _
  leftover_of_ends := by
    intro op _ u h
    cases op with
    | read => exact ⟨h.1, fun hbalanced => by rw [h.2 hbalanced]⟩
    | update => exact h
  accounts := by
    intro op u hu
    cases op with
    | read b opnum =>
      have hends : ∀ (o : Except OLRestartException (Word × Word)) u',
          AfterRead t u u' → BatchEnds t (.read b opnum : Iteration U) u' := by
        intro _ u' h
        exact ⟨h.1, fun hbalanced => h.2 hbalanced (hu.2 hbalanced)⟩
      apply (accounts_runRead hfits hu.1 hends).bind
      . intro _ _ h
        exact h
      . intro _ _ h
        exact h
    | update b x =>
      have hends : ∀ (o : Except OLRestartException Unit) q, Published q →
          BatchEnds t (.update b x : Iteration U) (Function.update u .rctx q) := by
        intro _ q hq
        exact ⟨hu.1.published hq, fun hbalanced => by simpa using hu.2 hbalanced⟩
      apply (accounts_runUpdate hfits.1 hfits.2.1 hu.1 hends).bind
      . intro _ _ h
        exact h
      . intro _ _ h
        exact h

end Accounts

section Pessimistic

variable {U : Type} {t : LockedTuple} {modification : TupleCode U} {b : Bool}
  {depth maxCall : Nat} {u : Ctx → List (Verb Buffer × Bool)}
  {ends : Except OLRestartException Unit → (Ctx → List (Verb Buffer × Bool)) → Prop}

theorem signals_rounds (t : LockedTuple) (b : Bool) (n : Nat) : signals (rounds t b n) = n := by
  induction n with
  | zero => rfl
  | succ n ih => simp [rounds, ih]

theorem accounts_forEach_sharedRound {xs : List Nat} {next : Code Unit}
    (hdepth : signals (u .rctx) + xs.length ≤ depth)
    (h : Accounts depth maxCall ends next
      (Function.update u .rctx (u .rctx ++ rounds t b xs.length)))
    : Accounts depth maxCall ends
        ((Prog.forEach xs fun _ => sharedRound t b) >>= fun _ => next) u := by
  induction xs generalizing u with
  | nil => simpa [rounds] using h
  | cons x xs ih =>
    rw [List.length_cons] at hdepth
    refine Accounts.post_unsignaled ⟨fun _ => ?_, Accounts.post_unsignaled (ih ?_ ?_)⟩
    . simp
      omega
    . simp
      omega
    . simpa [rounds] using h

theorem acked_rounds_unsignaled {q : List (Verb Buffer × Bool)} (hq : ∀ p ∈ q, p.2 = false) (n : Nat)
    : ∀ p ∈ acked (q ++ rounds t b n) n, p.2 = false := by
  cases n with
  | zero => simpa [rounds] using hq
  | succ n =>
    rw [acked_rounds hq]
    simp

theorem accounts_lockShared (modification : TupleCode U) (hnonneg : 0 ≤ t.flags.batchSize)
    (hdepth : t.flags.batch ≤ depth) (hcall : t.flags.batch ≤ maxCall) (hu : Unsignaled u)
    (hends : ∀ o u', Unsignaled u' → ends o u')
    : Accounts depth maxCall ends (runPessimistic t modification (.read b)) u := by
  rw [runPessimistic_read, sizeT_batchSize hnonneg]
  apply accounts_forEach_sharedRound
  . rw [signals_eq_zero (hu .rctx), List.length_range]
    omega
  . refine ⟨hcall, ?_, hends _ _ ?_⟩
    . simp [signals_rounds]
    intro c
    cases c with
    | rctx =>
      rw [Function.update_self, Function.update_self, List.length_range]
      exact acked_rounds_unsignaled (hu .rctx) _
    | rctx2 => simpa using hu .rctx2

theorem accounts_lockExclusive (hdepth : 0 < depth) (hcall : 0 < maxCall) (hu : Unsignaled u)
    (hends : ∀ o u', Unsignaled u' → ends o u') {x : U}
    : Accounts depth maxCall ends (runPessimistic t modification (.update b x)) u := by
  have hlocked := hu.post .rctx (.compareSwap 0 t.counter.exclusive (.lockBuffer b, 0) t.counter.addr)
  have hcopied := hlocked.update .rctx
  simp only [runPessimistic, lockExclusive_eq, unlockExclusive_eq, Prog.bind_post, Prog.bind_poll,
    Prog.bind_load, Prog.bind_ite, Prog.bind_throw, Prog.bind_ret]
  apply Accounts.post_unsignaled
  apply Accounts.post_poll hdepth hcall (hlocked .rctx)
  intro y
  apply Accounts.check
  . exact hends _ _ hcopied
  . refine Accounts.of_local (modification.code_local x _) (fun _ h => h.elim) ?_
    intro _
    apply Accounts.post_unsignaled
    apply Accounts.post_unsignaled
    exact hends _ _ ((hcopied.post .rctx _).post .rctx _)

def lockedSpec (modification : TupleCode U) (nic : Nic) (hdepth : 0 < depth) (hcall : 0 < maxCall)
    (hnonneg : 0 ≤ t.flags.batchSize) (hbatch : t.flags.batch ≤ depth)
    (hle : t.flags.batch ≤ maxCall)
    : AccountSpec depth maxCall (pessimistic t modification nic) where
  leftover := Unsignaled
  verbs := fun _ _ => True
  ends := fun _ _ => Unsignaled
  leftover_nil := by simp [Unsignaled]
  leftover_of_ends := fun h => h
  verbs_of_leftover := fun _ _ _ _ _ => trivial
  posts := fun _ => .of_forall (fun _ => trivial) _
  accounts := by
    intro op u hu
    cases op with
    | read b =>
      exact accounts_lockShared modification hnonneg hbatch hle hu (fun _ _ h => h)
    | update b x => exact accounts_lockExclusive hdepth hcall hu (fun _ _ h => h)

end Pessimistic

section Claims

variable {W U : Type} [DecidableEq W] {t : Tuple} {modification : Modification t U} {nic : Nic}

def isOver {α : Type} (p : Code α) : Bool :=
  match p with
  | .ret _ | .throw _ => true
  | _ => false

/-- Whenever a read is over, all requests have completed and all completions have been polled. -/
def ReadsDrained (W : Type) [DecidableEq W] (t : Tuple) (modification : Modification t U) (nic : Nic)
    : Prop :=
  ∀ (s₀ s : Sys W Ctx Buffer OLRestartException (Option (Word × Word)) (Iteration U))
    (w : W) (b : Bool) (opnum since : Nat) (p : Code (Option (Word × Word))),
    s₀.Fresh → Sys.Reach (benchmark t modification nic) Sys.anyStep s₀ s →
    (s.worker w).control = .running (.read b opnum) since p → isOver p = true →
    ∀ c, (s.worker w).queue c = [] ∧ (s.worker w).cq c = 0

/-- Reads wait for what they post, unless they spread an odd batch over two connections. -/
theorem reads_drained (hpos : 1 ≤ t.flags.batchSize)
    (heven : ¬(t.consistency = .rc ∧ t.rctx2Mr = true ∧ t.flags.batchSize % 2 = 1))
    : ReadsDrained W t modification nic := by
  intro s₀ s w b opnum since p hfresh hreach hcontrol hover
  have hnonneg : 0 ≤ t.flags.batchSize := Int32.le_trans (by decide) hpos
  have hbatch : 0 < t.flags.batch := Flags.batch_pos.mpr (Int32.lt_of_lt_of_le (by decide) hpos)
  have hodd : ¬(t.consistency = .rc ∧ t.rctx2Mr = true ∧ t.flags.batch % 2 = 1) := by
    rwa [Flags.batch_odd hnonneg]
  have hbalanced : Balanced t := ⟨hbatch, hodd⟩
  have hfits : Fits t t.flags.batch t.flags.batch := by
    refine ⟨hbatch, hbatch, ?_⟩
    split
    . trivial
    . trivial
    . next hc =>
      split
      . next hr =>
        have : ¬t.flags.batch % 2 = 1 := fun h => hodd ⟨hc, hr, h⟩
        omega
      . exact ⟨hnonneg, Nat.le_refl _, Nat.le_refl _⟩
    . exact ⟨hnonneg, Nat.le_refl _, Nat.le_refl _⟩
    . exact ⟨hnonneg, Nat.le_refl _, Nat.le_refl _⟩
  have hok := (batchSpec modification nic hfits).workerOk_of_reach hfresh hreach w
  cases p with
  | ret a =>
    obtain ⟨u, htracks, _, hnil⟩ := hok.ends_ret hcontrol
    intro c
    have := htracks c
    rw [hnil hbalanced] at this
    exact this.of_nil
  | throw e =>
    obtain ⟨u, htracks, _, hnil⟩ := hok.ends_throw hcontrol
    intro c
    have := htracks c
    rw [hnil hbalanced] at this
    exact this.of_nil
  | _ => simp [isOver] at hover

theorem reads_drained_rcRun
    : ∃ (s : Sys Bool Ctx Buffer OLRestartException (Option (Word × Word)) (Iteration Unit))
        (b : Bool) (opnum since : Nat) (versions : Word × Word),
        (s.worker true).control = .running (.read b opnum) since (.ret (some versions)) ∧
        ∀ c, (s.worker true).queue c = [] ∧ (s.worker true).cq c = 0 := by
  have hrun : ((Sys.initial (fun _ => 0) (fun _ _ => 0)).run
      (benchmark rcTuple (incrementAll _) { atomicReadBytes := 0, inOrderWrites := true })
      rcRun).any (returnsRead rcTuple true) = true := by
    decide +kernel
  obtain ⟨s, b, opnum, since, versions, hreach, _, hcontrol⟩ := exists_read_of_run hrun
  refine ⟨s, b, opnum, since, versions, hcontrol, ?_⟩
  exact reads_drained (by decide) (by decide) _ s true b opnum since _
    (Sys.initial_fresh _ _) hreach hcontrol rfl

def leavesBehind (w : W)
    (s : Sys W Ctx Buffer OLRestartException (Option (Word × Word)) (Iteration U)) : Bool :=
  match (s.worker w).control with
  | .running (.read _ _) _ p => isOver p && [Ctx.rctx, .rctx2].any fun c =>
      !((s.worker w).queue c).isEmpty || (s.worker w).cq c != 0
  | _ => false

theorem not_readsDrained (m : Mem) (l : Local Buffer) (w : W)
    (as : List (Action W Ctx (Iteration U)))
    (h : ((Sys.initial m l).run (benchmark t modification nic) as).any (leavesBehind w) = true)
    : ¬ReadsDrained W t modification nic := by
  intro hdrained
  obtain ⟨s, hreach, hleaves⟩ := Sys.exists_reach_of_run h
  unfold leavesBehind at hleaves
  split at hleaves
  . next b opnum since p hcontrol =>
    rw [Bool.and_eq_true] at hleaves
    have hempty := hdrained _ s w b opnum since p (Sys.initial_fresh m l) hreach hcontrol hleaves.1
    simp [hempty] at hleaves
  . simp at hleaves

def Tuple.withBatchSize (t : Tuple) (batchSize : Int32) : Tuple :=
  { t with flags := { t.flags with batchSize := batchSize } }

def unawaitedRun : List (Action Bool Ctx (Iteration Unit)) :=
  List.flatten [
    [.start true (.read false 0)], cpus true 2, serves true .rctx2 [1], [.cpu true 1],
    cpus true 2]

/-- Three READs of each kind: one of two completions on the second connection is not polled. -/
def unpolledRun : List (Action Bool Ctx (Iteration Unit)) :=
  List.flatten [
    [.start true (.read false 0)], cpus true 6, serves true .rctx [1, 2], serves true .rctx [1, 2],
    serves true .rctx [1], serves true .rctx2 [1, 2], serves true .rctx2 [1],
    serves true .rctx2 [1], [.cpu true 1, .cpu true 1], cpus true 2]

theorem reads_not_drained
    : ¬ReadsDrained Bool (rcTuple.withBatchSize 1) (incrementAll _)
        { atomicReadBytes := 0, inOrderWrites := true } ∧
      ¬ReadsDrained Bool (rcTuple.withBatchSize 3) (incrementAll _)
        { atomicReadBytes := 0, inOrderWrites := true } := by
  constructor
  . apply not_readsDrained (fun _ => 0) (fun _ _ => 0) true unawaitedRun
    decide +kernel
  . apply not_readsDrained (fun _ => 0) (fun _ _ => 0) true unpolledRun
    decide +kernel

def asks {α : Type} (p : Code α) : Option Nat :=
  match p with
  | .poll _ n _ => if n = 0 then none else some n
  | _ => none

/--
No completion queue ever has to hold more completions than it has entries, and no polling loop asks
for more completions than there is room for.
-/
def WithinQueues {α Op : Type} (W : Type) [DecidableEq W]
    (wl : Workload Ctx Buffer OLRestartException α Op) : Prop :=
  ∀ (s₀ s : Sys W Ctx Buffer OLRestartException α Op) (w : W),
    s₀.Fresh → Sys.Reach wl Sys.anyStep s₀ s →
    (∀ c, ((s.worker w).queue c).countP (·.signaled) + (s.worker w).cq c ≤ cqEntries) ∧
    ∀ op since p n, (s.worker w).control = .running op since p → asks p = some n →
      1 ≤ n ∧ n ≤ RC_BATCH_SIZE

theorem withinQueues_of_spec {α Op : Type} {wl : Workload Ctx Buffer OLRestartException α Op}
    (S : AccountSpec cqEntries RC_BATCH_SIZE wl) : WithinQueues W wl := by
  intro s₀ s w hfresh hreach
  have hok := S.workerOk_of_reach hfresh hreach w
  refine ⟨hok.signaled_le, ?_⟩
  intro op since p n hcontrol hasks
  cases p with
  | poll c k next =>
    simp only [asks] at hasks
    split at hasks
    . simp at hasks
    . next hne =>
      obtain rfl : k = n := by simpa using hasks
      exact ⟨by omega, hok.call_le hcontrol⟩
  | _ => simp [asks] at hasks

/-- The batch sizes for which there is room in the completion queues. -/
def BatchFits (t : Tuple) : Prop :=
  match t.consistency with
  | .v2 | .crc => True
  | .rc =>
    if t.rctx2Mr then
      t.flags.batchSize ≤ 1 ∨ t.flags.batchSize % 2 = 0
    else
      0 ≤ t.flags.batchSize ∧ t.flags.batchSize ≤ 16
  | .broken | .faRM => 0 ≤ t.flags.batchSize ∧ t.flags.batchSize ≤ 16

theorem batch_le_cqEntries {flags : Flags} (h : flags.batchSize ≤ 16)
    : flags.batch ≤ cqEntries ∧ flags.batch ≤ RC_BATCH_SIZE := by
  have hle : flags.batch ≤ cqEntries := Flags.batch_le h
  exact ⟨hle, Nat.le_trans hle (by decide)⟩

theorem BatchFits.fits (h : BatchFits t) (hle : t.flags.batchSize ≤ 32)
    : Fits t cqEntries RC_BATCH_SIZE := by
  refine ⟨by decide, by decide, ?_⟩
  cases hc : t.consistency <;> simp only [BatchFits, hc] at h ⊢
  . exact ⟨h.1, batch_le_cqEntries h.2⟩
  . exact ⟨h.1, batch_le_cqEntries h.2⟩
  . cases hr : t.rctx2Mr with
    | true =>
      simp only [hr, if_true] at h ⊢
      have hbatch : t.flags.batch ≤ 32 := Flags.batch_le hle
      rcases h with h | h
      . exact .inl (Flags.batch_le h)
      . by_cases hnonneg : 0 ≤ t.flags.batchSize
        . have := (Flags.batch_even hnonneg).mpr h
          simp only [cqEntries, RC_BATCH_SIZE]
          omega
        . have hzero : t.flags.batchSize ≤ 0 := Int32.le_of_lt (Int32.not_le.mp hnonneg)
          exact .inl (Nat.le_trans (Flags.batch_le hzero) (by decide))
    | false =>
      simp only [hr, Bool.false_eq_true, if_false] at h ⊢
      exact ⟨h.1, batch_le_cqEntries h.2⟩

/-- Batches of at most 16 requests for each queue stay within it. -/
theorem batches_within_queues
    : (∀ {U : Type} (t : Tuple) (modification : Modification t U) (nic : Nic),
        t.flags.batchSize ≤ 32 → BatchFits t → WithinQueues W (benchmark t modification nic)) ∧
      (∀ {U : Type} (t : LockedTuple) (modification : TupleCode U) (nic : Nic),
        0 ≤ t.flags.batchSize → t.flags.batchSize ≤ 16 →
          WithinQueues W (pessimistic t modification nic)) := by
  constructor
  . intro U t modification nic hle h
    exact withinQueues_of_spec (batchSpec modification nic (h.fits hle))
  . intro U t modification nic hnonneg h
    obtain ⟨hdepth, hcall⟩ := batch_le_cqEntries h
    apply withinQueues_of_spec
    exact lockedSpec modification nic (by decide) (by decide) hnonneg hdepth hcall

def batchRun (n : Nat) : List (Action Bool Ctx (Iteration Unit)) :=
  .start true (.read false 0) :: cpus true n

def signaledExceeds (n : Nat) (w : W)
    (s : Sys W Ctx Buffer OLRestartException (Option (Word × Word)) (Iteration U)) : Bool :=
  n < ((s.worker w).queue .rctx).countP (·.signaled) + (s.worker w).cq .rctx

def asksTooMuch (w : W)
    (s : Sys W Ctx Buffer OLRestartException (Option (Word × Word)) (Iteration U)) : Bool :=
  match (s.worker w).control with
  | .running _ _ p => (asks p).any (RC_BATCH_SIZE < ·)
  | .idle => false

/-- A batch of 16 fills the completion queue. -/
theorem batches_within_queues_of_sixteen
    : (∃ s : Sys Bool Ctx Buffer OLRestartException (Option (Word × Word)) (Iteration Unit),
        15 < ((s.worker true).queue .rctx).countP (·.signaled) + (s.worker true).cq .rctx ∧
        ((s.worker true).queue .rctx).countP (·.signaled) + (s.worker true).cq .rctx ≤ 16) ∧
      WithinQueues Bool (pessimistic sampleLocked samplePessimistic
        { atomicReadBytes := 0, inOrderWrites := true }) := by
  have hwithin := batches_within_queues (W := Bool)
  refine ⟨?_, hwithin.2 _ _ _ (by decide) (by decide)⟩
  have hrun : ((Sys.initial (fun _ => 0) (fun _ _ => 0)).run
      (benchmark ((sampleTuple .faRM .headerLock 0).withBatchSize 16) (incrementAll _)
        { atomicReadBytes := 0, inOrderWrites := true })
      (batchRun 16)).any (signaledExceeds 15 true) = true := by
    decide +kernel
  obtain ⟨s, hreach, hsignaled⟩ := Sys.exists_reach_of_run hrun
  have hfits : BatchFits ((sampleTuple .faRM .headerLock 0).withBatchSize 16) :=
    ⟨by decide, by decide⟩
  refine ⟨s, by simpa [signaledExceeds] using hsignaled, ?_⟩
  exact (hwithin.1 _ _ _ (by decide) hfits _ s true (Sys.initial_fresh _ _) hreach).1 .rctx

theorem batches_not_within_queues
    : ¬WithinQueues Bool (benchmark ((sampleTuple .broken .footerLock 0).withBatchSize 32) (incrementAll _)
        { atomicReadBytes := 0, inOrderWrites := true }) ∧
      ¬WithinQueues Bool (benchmark ((sampleTuple .broken .footerLock 0).withBatchSize (-1)) (incrementAll _)
        { atomicReadBytes := 0, inOrderWrites := true }) := by
  constructor
  . intro hwithin
    have hrun : ((Sys.initial (fun _ => 0) (fun _ _ => 0)).run
        (benchmark ((sampleTuple .broken .footerLock 0).withBatchSize 32) (incrementAll _)
          { atomicReadBytes := 0, inOrderWrites := true })
        (batchRun 17)).any (signaledExceeds 16 true) = true := by
      decide +kernel
    obtain ⟨s, hreach, hsignaled⟩ := Sys.exists_reach_of_run hrun
    have hle := (hwithin _ s true (Sys.initial_fresh _ _) hreach).1 .rctx
    simp only [signaledExceeds, decide_eq_true_eq] at hsignaled
    simp only [cqEntries] at hle
    omega
  . intro hwithin
    have hrun : ((Sys.initial (fun _ => 0) (fun _ _ => 0)).run
        (benchmark ((sampleTuple .broken .footerLock 0).withBatchSize (-1)) (incrementAll _)
          { atomicReadBytes := 0, inOrderWrites := true })
        (batchRun 0)).any (asksTooMuch true) = true := by
      decide +kernel
    obtain ⟨s, hreach, hasks⟩ := Sys.exists_reach_of_run hrun
    unfold asksTooMuch at hasks
    split at hasks
    . next op since p hcontrol =>
      cases hn : asks p with
      | none => simp [hn] at hasks
      | some n =>
        have hle := (hwithin _ s true (Sys.initial_fresh _ _) hreach).2 op since p n hcontrol hn
        have hlt : RC_BATCH_SIZE < n := by simpa [hn] using hasks
        omega
    . simp at hasks

end Claims

end OptimisticLocks
