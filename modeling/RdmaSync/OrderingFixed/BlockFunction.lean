import RdmaSync.BenchmarkHelper.ReadBlocks
import RdmaSync.Rdma.Soundness
import RdmaSync.Rdma.Rules
import RdmaSync.Rdma.Solo

/-!
This module contains the block function of the benchmark that reads a block with READs of 64 bytes,
one after the other, and where these READs take their words from.
-/

namespace OrderingFixed

open Rdma CommunicationManager BenchmarkHelper.ReadBlocks

def blockSize : Nat := 512

structure Region where
  start : Nat
  sizeBytes : Nat
  start_aligned : start % 8 = 0
  sizeBytes_mod : sizeBytes % blockSize = 0

def blockFunction (numberEntries remoteAddr : Nat) : Code Unit := do
  Prog.forEach (List.range numberEntries) fun e_i =>
    let comp := if e_i = numberEntries - 1 then signaled else unsignaled
    postRead (.buffer, 0) .rctx comp (remoteAddr + e_i * 64) 64 false
  pollCompletions .rctx 1

namespace Region

variable (desc : Region)

def numberBlocks : Nat :=
  desc.sizeBytes / blockSize

def call : Call where
  remoteAddr := desc.start
  blockSize := blockSize
  numberBlocks := desc.numberBlocks
  blockFunction := blockFunction

def base (b_i : Nat) : Nat :=
  desc.call.addr b_i / 8

theorem numberEntries_eq : desc.call.numberEntries = 64 := by
  simp [Call.numberEntries, call, blockSize]

theorem addr_eq (b_i : Nat) : desc.call.addr b_i = desc.start + 512 * b_i := by
  rfl

theorem addr_last (b_i : Nat) : (desc.call.addr b_i + 63 * 64) / 8 = desc.base b_i + 504 := by
  rw [base]
  omega

end Region

/-- The verb touches no remote byte before `lo`, and none from `hi` on. -/
def Within (lo hi : Nat) (v : Verb Buffer) : Prop :=
  ∃ memAddr remoteOffset bytes, v = .read memAddr remoteOffset bytes ∧
    lo ≤ remoteOffset ∧ remoteOffset + bytes ≤ hi

def readVerb (remoteAddr e_i : Nat) : Verb Buffer :=
  .read (.buffer, 0) (remoteAddr + e_i * 64) 64

/-- Only the last READ is signaled. -/
theorem blockFunction_succ (n remoteAddr : Nat)
    : blockFunction (n + 1) remoteAddr
        = ((Prog.forEach (List.range n) fun e_i =>
            .post .rctx false (readVerb remoteAddr e_i) (.ret ())) >>= fun _ =>
          .post .rctx true (readVerb remoteAddr n) (.poll .rctx 1 (.ret ()))) := by
  have hbody : ∀ e_i ∈ List.range n,
      (postRead (.buffer, 0) .rctx (if e_i = n then signaled else unsignaled)
        (remoteAddr + e_i * 64) 64 false : Code Unit)
        = .post .rctx false (readVerb remoteAddr e_i) (.ret ()) := by
    intro e_i he
    have hlt := List.mem_range.mp he
    rw [if_neg (by omega)]
    rfl
  simp only [blockFunction, List.range_succ, Prog.forEach_append, Prog.forEach_cons,
    Nat.add_sub_cancel, ↓reduceIte, Prog.bind_assoc]
  rw [Prog.forEach_congr hbody]
  rfl

section Posts

variable {V : Verb Buffer → Prop}

theorem posts_blockFunction (n remoteAddr : Nat)
    : (blockFunction n remoteAddr).Posts V ↔ ∀ e_i < n, V (readVerb remoteAddr e_i) := by
  have hloop : ∀ (signaled : Nat → Bool) (xs : List Nat),
      ((Prog.forEach xs fun e_i =>
        (.post .rctx (signaled e_i) (readVerb remoteAddr e_i) (.ret ()) : Code Unit)) >>= fun _ =>
          pollCompletions .rctx 1).Posts V ↔ ∀ e_i ∈ xs, V (readVerb remoteAddr e_i) := by
    intro signaled xs
    induction xs with
    | nil => simp [pollCompletions, Prog.Posts]
    | cons x xs ih =>
      simp only [Prog.forEach_cons, Prog.bind_post, Prog.bind_ret, Prog.Posts, ih,
        List.forall_mem_cons]
  have := hloop (fun e_i => if e_i = n - 1 then signaled else unsignaled) (List.range n)
  simp only [List.mem_range] at this
  exact this

end Posts

section Rules

variable {W : Type} {m : Mem} {nic : Nic} {w : W} {op : BlockOp} {l : Local Buffer}
  {s : Shared W Buffer BlockOp} {Q : Except Empty Unit → Assertion W Buffer BlockOp}
  {remoteAddr : Nat}

theorem not_lands_readVerb {b : Buffer} {e_i i : Nat} (hi : 8 ≤ i)
    : ¬(readVerb remoteAddr e_i).lands (b, i) := by
  rintro ⟨_, _, hlt⟩
  simp only at hlt
  omega

theorem wp_reads {xs : List Nat} {next : Code Unit} (hmem : s.mem = m)
    (hnext : ∀ l' s', s'.mem = m → (∀ i, 8 ≤ i → l' .buffer i = l .buffer i) →
      wp (Protocol.readOnly m) nic w op Q next l' s')
    : wp (Protocol.readOnly m) nic w op Q
        ((Prog.forEach xs fun e_i =>
          .post .rctx false (readVerb remoteAddr e_i) (.ret ())) >>= fun _ => next) l s := by
  induction xs generalizing l s with
  | nil => exact hnext l s hmem fun _ _ => rfl
  | cons x xs ih =>
    apply wp_readOnly hmem
    intro l₁ s₁ hmem₁ _ hframe₁
    apply ih hmem₁
    intro l₂ s₂ hmem₂ hframe₂
    apply hnext l₂ s₂ hmem₂
    intro i hi
    rw [hframe₂ i hi, hframe₁ _ _ (not_lands_readVerb hi)]

/-- All READs land on the same words, so that the last one stays. -/
theorem wp_blockFunction {n : Nat} (hmem : s.mem = m)
    (hQ : ∀ l' s', s'.mem = m → (∀ i, i < 8 → l' .buffer i = m ((remoteAddr + n * 64) / 8 + i)) →
      (∀ i, 8 ≤ i → l' .buffer i = l .buffer i) → Q (.ok ()) l' s')
    : wp (Protocol.readOnly m) nic w op Q (blockFunction (n + 1) remoteAddr) l s := by
  rw [blockFunction_succ]
  apply wp_reads hmem
  intro l₁ s₁ hmem₁ hframe₁
  apply wp_readOnly hmem₁
  intro l₂ s₂ _ hwords₂ hframe₂ s₃ _ hmem₃
  apply hQ l₂ s₃ hmem₃
  . intro i hi
    have := hwords₂ i hi
    rwa [Nat.zero_add] at this
  . intro i hi
    rw [hframe₂ _ _ (not_lands_readVerb hi), hframe₁ i hi]

theorem synced_blockFunction (n : Nat)
    : Synced .rctx (fun _ u => u = []) (blockFunction (n + 1) remoteAddr) [] := by
  rw [blockFunction_succ]
  apply Synced.forEach_unsignaled (by simp)
  intro u hu
  exact Synced.read_poll hu rfl

theorem accounts_blockFunction (n : Nat)
    : Accounts 1 1 (fun _ u => u = fun _ => []) (blockFunction (n + 1) remoteAddr)
        (fun _ => []) := by
  rw [blockFunction_succ]
  apply Accounts.forEach_unsignaled (by simp)
  intro q hq
  apply Accounts.post_poll Nat.one_pos Nat.one_pos
  . rwa [Function.update_self]
  . rw [Function.update_idem, Function.update_eq_self]
    rfl

end Rules

section Runs

variable {W : Type} (desc : Region) (nic : Nic)

def accountSpec : AccountSpec 1 1 (desc.call.workload nic) where
  leftover := fun u => u = fun _ => []
  verbs := fun _ _ => True
  ends := fun _ _ u => u = fun _ => []
  leftover_nil := rfl
  leftover_of_ends := id
  verbs_of_leftover := fun _ _ _ _ _ => trivial
  posts := fun _ => .of_forall (fun _ => trivial) _
  accounts := by
    rintro op _ rfl
    cases op with
    | fetch b_i =>
      show Accounts 1 1 _ (blockFunction _ _ >>= fun _ => .ret 0) _
      rw [desc.numberEntries_eq]
      exact (accounts_blockFunction 63).bind (fun _ _ h => h) (fun _ _ h => h)
    | compare b_i =>
      show Accounts 1 1 _ desc.call.compare _
      rw [← Prog.bind_ret_right desc.call.compare]
      exact Accounts.of_local desc.call.compare_local (fun _ h => h.elim) fun _ => rfl

/-- What worker `w` knows of its buffer while everybody only reads the memory `m`. -/
def readSpec (m : Mem) (l₀ : W → Local Buffer)
    : Spec (W := W) (Protocol.readOnly m) (desc.call.workload nic) .rctx where
  ready := fun w _ l _ => ∀ i, 8 ≤ i → l .buffer i = l₀ w .buffer i
  post := fun w op _ _ l _ =>
    match op with
    | .fetch b_i =>
      (∀ i, i < 8 → l .buffer i = m (desc.base b_i + 504 + i)) ∧
      ∀ i, 8 ≤ i → l .buffer i = l₀ w .buffer i
    | .compare _ => True
  leftover := fun u => u = []
  ends := fun _ _ u => u = []
  leftover_of_ends := id
  synced := by
    rintro op _ rfl
    cases op with
    | fetch b_i =>
      show Synced .rctx _ (blockFunction _ _ >>= fun _ => .ret 0) _
      rw [desc.numberEntries_eq]
      exact (synced_blockFunction 63).bind (fun _ _ h => h) (fun _ _ h => h)
    | compare b_i =>
      show Synced .rctx _ desc.call.compare _
      rw [← Prog.bind_ret_right desc.call.compare]
      exact Synced.of_local desc.call.compare_local (fun _ _ => quiet_nil _)
        (fun _ h => h.elim) (fun _ h => h.elim) fun _ => rfl
  wp_program := by
    intro w op since done l s _ hmem _ hready
    cases op with
    | fetch b_i =>
      show wp _ _ w _ _ (blockFunction _ _ >>= fun _ => .ret 0) l s
      rw [desc.numberEntries_eq]
      apply wp.bind (Q := fun _ l _ =>
        (∀ i, i < 8 → l .buffer i = m (desc.base b_i + 504 + i)) ∧
        ∀ i, 8 ≤ i → l .buffer i = l₀ w .buffer i) hmem
      . apply wp_blockFunction hmem
        intro l' s' _ hwords hframe
        rw [desc.addr_last] at hwords
        exact ⟨hwords, fun i hi => (hframe i hi).trans (hready i hi)⟩
      . intro _ l' s' _ hbuffer s'' _ _
        exact ⟨hbuffer, fun _ => hbuffer.2⟩
      . exact fun e => e.elim
    | compare b_i =>
      show wp _ _ w _ _ desc.call.compare l s
      apply wp.exec desc.call.compare_local
      intro s' _ _
      have hframe : ∀ i, (desc.call.compare.exec l).2 .buffer i = l .buffer i :=
        fun i => desc.call.compare_local.exec_frame l id
      have hready' : ∀ i, 8 ≤ i → (desc.call.compare.exec l).2 .buffer i = l₀ w .buffer i :=
        fun i hi => (hframe i).trans (hready i hi)
      refine ⟨trivial, ?_⟩
      split
      . exact fun _ => hready'
      . exact fun _ => hready'

variable {desc nic} [DecidableEq W] {s₀ s : Sys W Ctx Buffer Empty Nat BlockOp} {w : W} {b_i : Nat}

theorem exists_over (hfresh : s₀.Fresh)
    (hreach : Sys.Reach (desc.call.workload nic) Sys.anyStep s₀ s) {op : BlockOp} {since : Nat}
    {p : Code Nat} (hcontrol : (s.worker w).control = .running op since p)
    : ∃ s' a, Sys.Reach (desc.call.workload nic) Sys.anyStep s₀ s' ∧
        (s'.worker w).control = .running op since (.ret a) := by
  have haccounts := (accountSpec desc nic).workerOk_of_reach hfresh hreach
  obtain ⟨s', halone, hover⟩ := Sys.endsAlone_of_accounts haccounts hcontrol
  have hreach' := hreach.trans (halone.mono fun _ _ _ => trivial)
  rcases hover with ⟨a, hret⟩ | ⟨e, _⟩
  . exact ⟨s', a, hreach', hret⟩
  . exact e.elim

theorem exists_fetched (hfresh : s₀.Fresh)
    (hreach : Sys.Reach (desc.call.workload nic) Sys.anyStep s₀ s)
    (hidle : (s.worker w).control = .idle) (hlt : b_i < desc.numberBlocks)
    (hcontinues : Call.continues (s.worker w).done b_i = true)
    : ∃ s' since a, Sys.Reach (desc.call.workload nic) Sys.anyStep s₀ s' ∧
        (s'.worker w).control = .running (.fetch b_i) since (.ret a) := by
  have hstart : s.enabled (desc.call.workload nic) (.start w (.fetch b_i)) = true := by
    simp only [Sys.enabled, hidle]
    show (decide (b_i < desc.numberBlocks) && _) = true
    rw [decide_eq_true hlt, hcontinues]
    rfl
  have hcontrol : ((s.next (desc.call.workload nic) (.start w (.fetch b_i))).worker w).control
      = .running (.fetch b_i) s.shared.hist.length (desc.call.program (.fetch b_i)) := by
    simp only [Sys.next, Sys.setWorker_self]
    rfl
  obtain ⟨s', a, hreach', hret⟩ := exists_over hfresh (.step _ hreach hstart trivial) hcontrol
  exact ⟨s', _, a, hreach', hret⟩

theorem exists_compared (hfresh : s₀.Fresh)
    (hreach : Sys.Reach (desc.call.workload nic) Sys.anyStep s₀ s) {since : Nat} {a : Nat}
    (hret : (s.worker w).control = .running (.fetch b_i) since (.ret a))
    : ∃ s', Sys.Reach (desc.call.workload nic) Sys.anyStep s₀ s' ∧
        (s'.worker w).control = .idle ∧
        Call.continues (s'.worker w).done (b_i + 1) = true := by
  have hfinish : s.enabled (desc.call.workload nic) (.finish w) = true := by
    simp only [Sys.enabled, Worker.finishEnabled, hret]
    rfl
  have hcontrol : ((s.next (desc.call.workload nic) (.finish w)).worker w).control
      = .running (.compare b_i) s.shared.hist.length (desc.call.program (.compare b_i)) := by
    simp only [Sys.next, Sys.setWorker_self, Worker.finish, hret]
    rfl
  obtain ⟨s₁, a₁, hreach₁, hret₁⟩ := exists_over hfresh (.step _ hreach hfinish trivial) hcontrol
  have hfinish₁ : s₁.enabled (desc.call.workload nic) (.finish w) = true := by
    simp only [Sys.enabled, Worker.finishEnabled, hret₁]
    rfl
  refine ⟨_, .step _ hreach₁ hfinish₁ trivial, ?_, ?_⟩
  . simp only [Sys.next, Sys.setWorker_self, Worker.finish, hret₁]
    rfl
  . simp only [Sys.next, Sys.setWorker_self, Worker.finish, hret₁]
    simp [Call.continues]

/--
From `s₀` on nobody writes to the region, and in `s` worker `w` has just run the block function for
block `b_i`.
-/
structure HasRead (desc : Region) (nic : Nic) (w : W) (b_i : Nat)
    (s₀ s : Sys W Ctx Buffer Empty Nat BlockOp) : Prop where
  fresh : s₀.Fresh
  reach : Sys.Reach (desc.call.workload nic) Sys.anyStep s₀ s
  returned : ∃ since a, (s.worker w).control = .running (.fetch b_i) since (.ret a)

theorem exists_hasRead (nic : Nic) (w : W) (hfresh : s₀.Fresh) (hlt : b_i < desc.numberBlocks)
    : ∃ s, HasRead desc nic w b_i s₀ s := by
  induction b_i with
  | zero =>
    have hrefl : Sys.Reach (desc.call.workload nic) Sys.anyStep s₀ s₀ := .refl
    obtain ⟨s, since, a, hreach, hret⟩ := exists_fetched hfresh hrefl (hfresh.control w) hlt rfl
    exact ⟨s, hfresh, hreach, since, a, hret⟩
  | succ b_i ih =>
    obtain ⟨s, _, hreach, since, a, hret⟩ := ih (by omega)
    obtain ⟨s₁, hreach₁, hidle₁, hcontinues₁⟩ := exists_compared hfresh hreach hret
    obtain ⟨s₂, since₂, a₂, hreach₂, hret₂⟩ :=
      exists_fetched hfresh hreach₁ hidle₁ hlt hcontinues₁
    exact ⟨s₂, hfresh, hreach₂, since₂, a₂, hret₂⟩

theorem HasRead.buffer (h : HasRead desc nic w b_i s₀ s)
    : (∀ i, i < 8 → (s.worker w).buf .buffer i = s₀.shared.mem (desc.base b_i + 504 + i)) ∧
      ∀ i, 8 ≤ i → (s.worker w).buf .buffer i = (s₀.worker w).buf .buffer i := by
  let S := readSpec desc nic s₀.shared.mem fun w => (s₀.worker w).buf
  have h₀ : S.SysOk s₀ := S.sysOk_fresh rfl h.fresh rfl fun _ _ _ _ _ _ => rfl
  have hok := S.sysOk_of_reach (fun _ _ _ _ _ _ _ _ => trivial) h₀ h.reach
  obtain ⟨since, a, hret⟩ := h.returned
  exact hok.post_ret S hret fun _ hu => hu

/-- No READ touches a byte outside the block. -/
def StaysInside (desc : Region) (b_i : Nat) : Prop :=
  (desc.call.blockFunction desc.call.numberEntries (desc.call.addr b_i)).Posts
    (Within (desc.call.addr b_i) (desc.call.addr b_i + blockSize))

/-- The buffer holds the block whenever the block function has run, from `s₀` on. -/
def FetchesBlock (desc : Region) (nic : Nic) (w : W) (b_i : Nat)
    (s₀ : Sys W Ctx Buffer Empty Nat BlockOp) : Prop :=
  ∀ s, HasRead desc nic w b_i s₀ s → ∀ e_i, e_i < desc.call.numberEntries →
    (s.worker w).buf .buffer e_i = s₀.shared.mem (desc.base b_i + e_i)

def ReadsBlock (desc : Region) (nic : Nic) (w : W) (b_i : Nat)
    (s₀ : Sys W Ctx Buffer Empty Nat BlockOp) : Prop :=
  StaysInside desc b_i ∧ FetchesBlock desc nic w b_i s₀

theorem within_readVerb {remoteAddr e_i lo hi : Nat}
    : Within lo hi (readVerb remoteAddr e_i)
        ↔ lo ≤ remoteAddr + e_i * 64 ∧ remoteAddr + e_i * 64 + 64 ≤ hi := by
  constructor
  . rintro ⟨memAddr, remoteOffset, bytes, hverb, hlo, hhi⟩
    simp only [readVerb, Verb.read.injEq] at hverb
    omega
  . rintro ⟨hlo, hhi⟩
    exact ⟨_, _, _, rfl, hlo, hhi⟩

theorem not_staysInside (desc : Region) (b_i : Nat) : ¬StaysInside desc b_i := by
  intro h
  have hposts := (posts_blockFunction _ _).mp h 8 (by rw [desc.numberEntries_eq]; omega)
  rw [within_readVerb, blockSize] at hposts
  omega

theorem staysInRegion_iff (desc : Region) (b_i : Nat)
    : (desc.call.blockFunction desc.call.numberEntries (desc.call.addr b_i)).Posts
        (Within desc.start (desc.start + desc.sizeBytes))
        ↔ 512 * b_i + 4096 ≤ desc.sizeBytes := by
  have haddr := desc.addr_eq b_i
  refine (posts_blockFunction _ _).trans ?_
  simp only [within_readVerb, desc.numberEntries_eq]
  constructor
  . intro h
    have := h 63 (by omega)
    omega
  . intro h e_i he
    omega

theorem HasRead.fetches_iff (h : HasRead desc nic w b_i s₀ s)
    : (∀ e_i, e_i < desc.call.numberEntries →
        (s.worker w).buf .buffer e_i = s₀.shared.mem (desc.base b_i + e_i)) ↔
      (∀ e_i, e_i < 8 →
        s₀.shared.mem (desc.base b_i + 504 + e_i) = s₀.shared.mem (desc.base b_i + e_i)) ∧
      ∀ e_i, 8 ≤ e_i → e_i < desc.call.numberEntries →
        (s₀.worker w).buf .buffer e_i = s₀.shared.mem (desc.base b_i + e_i) := by
  obtain ⟨hwords, hrest⟩ := h.buffer
  have hentries := desc.numberEntries_eq
  constructor
  . intro hblock
    refine ⟨fun e_i he => ?_, fun e_i hge hlt => ?_⟩
    . rw [← hwords e_i he, hblock e_i (by omega)]
    . rw [← hrest e_i hge, hblock e_i hlt]
  . rintro ⟨hline, hold⟩ e_i hlt
    by_cases he : e_i < 8
    . rw [hwords e_i he, hline e_i he]
    . rw [hrest e_i (by omega), hold e_i (by omega) hlt]

/-- The memory in which the first word of a block differs from all others. -/
def marked (desc : Region) (b_i j : Nat) : Word :=
  if j = desc.base b_i then 1 else 0

/-- For every block there are contents of the region with which the buffer does not hold it. -/
theorem exists_not_fetchesBlock (nic : Nic) (w : W) (hlt : b_i < desc.numberBlocks)
    : ∃ s₀, ¬FetchesBlock desc nic w b_i s₀ := by
  refine ⟨Sys.initial (marked desc b_i) (fun _ _ => 0), ?_⟩
  intro hfetches
  obtain ⟨s, hread⟩ := exists_hasRead nic w (Sys.initial_fresh (marked desc b_i) _) hlt
  have hline := (hread.fetches_iff.mp (hfetches s hread)).1 0 (by omega)
  simp [Sys.initial, marked] at hline

/--
For no block of no region and no contents does the block function read the block: its READs leave
the block, and there are contents with which the buffer does not hold it either.
-/
theorem readsBlock_never (desc : Region) (nic : Nic) (w : W) (b_i : Fin desc.numberBlocks)
    : (∀ s₀, ¬ReadsBlock desc nic w b_i s₀) ∧ ∃ s₀, ¬FetchesBlock desc nic w b_i s₀ := by
  constructor
  . intro s₀ h
    exact not_staysInside desc b_i h.1
  . exact exists_not_fetchesBlock nic w b_i.isLt

def countingRegion : Region where
  start := 0
  sizeBytes := 8192
  start_aligned := rfl
  sizeBytes_mod := rfl

def countingStart : Sys Unit Ctx Buffer Empty Nat BlockOp :=
  Sys.initial (BitVec.ofNat 64) (fun _ _ => 0)

/-- The words 0 and 8 of the first block should be 0 and 8. -/
theorem not_readsBlock_countingRegion
    : ¬ReadsBlock countingRegion ⟨64, true⟩ () 0 countingStart ∧
      ∃ s, HasRead countingRegion ⟨64, true⟩ () 0 countingStart s ∧
        (s.worker ()).buf .buffer 0 = 504 ∧ (s.worker ()).buf .buffer 8 = 0 := by
  refine ⟨fun h => not_staysInside countingRegion 0 h.1, ?_⟩
  have hlt : 0 < countingRegion.numberBlocks := by decide
  obtain ⟨s, hread⟩ := exists_hasRead ⟨64, true⟩ ()
    (Sys.initial_fresh (BitVec.ofNat 64) (fun _ _ => 0)) hlt
  obtain ⟨hwords, hrest⟩ := hread.buffer
  exact ⟨s, hread, hwords 0 (by omega), hrest 8 (by omega)⟩

end Runs

end OrderingFixed
