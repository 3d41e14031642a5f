import RdmaSync.LockingBenchmark.Attempt
import RdmaSync.LockingBenchmark.Impl
import RdmaSync.Rdma.CounterRules

/-!
This module contains the proof that the locking benchmark is serializable, whatever its flags are.
Every tuple has a protocol of its own, which transactions on other tuples do not take part in.
-/

namespace LockingBenchmark

open Rdma CommunicationManager
open Rdma.Action (cpus touches serves)

namespace Benchmark

variable (b : Benchmark)

theorem words_ge : 2 ≤ b.words := by
  have := b.tupleSize_ge
  unfold words
  omega

theorem tupleSize_eq : b.tupleSize = 8 * b.words := by
  have := b.tupleSize_aligned
  unfold words
  omega

def counter (lockId : Fin b.lockCount) : CounterLock where
  addr := b.lockAddr lockId
  count := b.words - 1
  exclusive := exclusiveLocked
  addr_aligned := by
    have := b.start_aligned
    have hsize : lockId * b.tupleSize % 8 = 0 := by
      rw [Nat.mul_mod, b.tupleSize_aligned, Nat.mul_zero, Nat.zero_mod]
    have hpadding : lockId * b.padding % 8 = 0 := by
      rw [Nat.mul_mod, b.padding_aligned, Nat.mul_zero, Nat.zero_mod]
    unfold lockAddr
    omega
  exclusive_gt := by decide
  exclusive_le := by decide

theorem lockAddr_add_le {i j : Fin b.lockCount} (h : i < j)
    : b.lockAddr i + b.tupleSize ≤ b.lockAddr j := by
  have hlt : (i : Nat) + 1 ≤ j := h
  have hsize := Nat.mul_le_mul_right b.tupleSize hlt
  have hpadding := Nat.mul_le_mul_right b.padding (Nat.le_of_lt h)
  rw [Nat.succ_mul] at hsize
  unfold lockAddr
  have : (i : Nat) * b.padding ≤ j * b.padding := hpadding
  omega

/-- The verbs of a transaction on the tuple at `lockAddr`. -/
def Within (lockAddr : Nat) (v : Verb Buffer) : Prop :=
  match v with
  | .read .. => True
  | .compareSwap _ _ _ remoteOffset | .fetchAdd _ _ remoteOffset => remoteOffset = lockAddr
  | .write _ remoteOffset bytes => remoteOffset = lockAddr + 8 ∧ bytes = b.tupleSize - 8

theorem away_of_within {i j : Fin b.lockCount} (hne : i ≠ j) {v : Verb Buffer}
    (h : b.Within (b.lockAddr i) v) : (b.counter j).Away v := by
  have hlt : b.lockAddr i + b.tupleSize ≤ b.lockAddr j ∨ b.lockAddr j + b.tupleSize ≤ b.lockAddr i := by
    rcases Nat.lt_or_gt_of_ne (fun heq => hne (Fin.ext heq)) with h | h
    . exact .inl (b.lockAddr_add_le h)
    . exact .inr (b.lockAddr_add_le h)
  have hi : b.lockAddr i % 8 = 0 := (b.counter i).addr_aligned
  have hj : b.lockAddr j % 8 = 0 := (b.counter j).addr_aligned
  have hbase : (b.counter j).base = b.lockAddr j / 8 := rfl
  have hcount : (b.counter j).count = b.words - 1 := rfl
  have := b.words_ge
  have := b.tupleSize_eq
  unfold CounterLock.Away Verb.Avoids
  rw [hbase, hcount]
  cases v with
  | read => trivial
  | compareSwap | fetchAdd =>
    simp only [Within] at h
    subst h
    exact ⟨hi, by omega⟩
  | write =>
    obtain ⟨rfl, rfl⟩ := h
    simp only
    omega

section Programs

variable (a : Nat)

theorem exclusiveUnlockToBeAdded_eq : exclusiveUnlockToBeAdded = -exclusiveLocked := by
  decide

abbrev readBehind : Verb Buffer :=
  .read (.old, 1) (a + 8) (b.tupleSize - 8)

abbrev readTuple : Verb Buffer :=
  .read (.old, 0) a b.tupleSize

theorem xLock_eq
    : b.xLock a = lockTuple b.speculativeRead (.compareSwap 0 exclusiveLocked (.old, 0) a)
        (b.readBehind a) (b.readTuple a) 0 (fun x => x ≠ 0) (.ret false) := by
  unfold xLock lockTuple
  split <;> rfl

theorem sLock_eq
    : b.sLock a = lockTuple b.speculativeRead (.fetchAdd 1 (.old, 0) a) (b.readBehind a)
        (b.readTuple a) 0 (fun x => exclusiveLocked ≤ x)
        (.post .rctx true (.fetchAdd (-1) (.old, 0) a) (.poll .rctx 1 (.ret false))) := by
  unfold sLock lockTuple
  split <;> rfl

theorem runRead_eq : b.runRead a = attempt (b.sLock a) (verify 1 b.words) (b.sRelease a) := by
  rfl

theorem runWrite_eq
    : b.runWrite a = attempt (b.xLock a) (incrementWords 1 b.words) (b.writeBack a) := by
  rfl

abbrev writeBehind : Verb Buffer :=
  .write (.old, 1) (a + 8) (b.tupleSize - 8)

theorem sRelease_eq : b.sRelease a = giveBack b.orderRelease (.fetchAdd (-1) (.old, 0) a) := by
  unfold sRelease giveBack
  split <;> rfl

/-- The fetch-and-add of a writer that does not combine is waited for, whatever `orderRelease` is. -/
theorem writeBack_eq
    : b.writeBack a
        = if b.writeCombining then
            .post .rctx false (b.writeBehind a)
              (giveBack b.orderRelease (.fetchAdd (-exclusiveLocked) (.old, 0) a))
          else
            .post .rctx true (b.writeBehind a)
              (.poll .rctx 1 (giveBack false (.fetchAdd (-exclusiveLocked) (.old, 0) a))) := by
  rw [← exclusiveUnlockToBeAdded_eq]
  unfold writeBack giveBack
  split
  . split <;> rfl
  . rfl

theorem posts_runRead : (b.runRead a).Posts (b.Within a) := by
  rw [runRead_eq, sLock_eq]
  apply posts_attempt _ ((verify_local _ _).posts _)
  . rw [sRelease_eq]
    exact posts_giveBack _ rfl
  . exact posts_lockTuple _ rfl trivial trivial ⟨rfl, trivial⟩

theorem posts_runWrite : (b.runWrite a).Posts (b.Within a) := by
  rw [runWrite_eq, xLock_eq]
  apply posts_attempt _ ((incrementWords_local _ _).posts _)
  . rw [writeBack_eq]
    split
    . exact ⟨⟨rfl, rfl⟩, posts_giveBack _ rfl⟩
    . exact ⟨⟨rfl, rfl⟩, posts_giveBack _ rfl⟩
  . exact posts_lockTuple _ rfl trivial trivial trivial

theorem posts_runTransaction (op : Transaction b.lockCount)
    : (b.runTransaction op).Posts (b.Within (b.lockAddr op.lockId)) := by
  cases op with
  | read id => exact b.posts_runRead _
  | write id => exact b.posts_runWrite _

end Programs

section Discipline

variable {b : Benchmark} {a : Nat} {u : List (Verb Buffer × Bool)}

theorem synced_sLock (hu : Unsignaled u)
    : Synced .rctx (fun _ u => u = []) (b.sLock a) u := by
  rw [sLock_eq]
  apply synced_lockTuple _ hu
  . simp [Verb.sends]
  . simp [Verb.sends]
  . simp [Verb.sends]
  . exact Synced.post_poll (by simp) (by simp [Verb.sends]) rfl

theorem synced_xLock (hu : Unsignaled u)
    : Synced .rctx (fun _ u => u = []) (b.xLock a) u := by
  rw [xLock_eq]
  apply synced_lockTuple _ hu
  . simp [Verb.sends]
  . simp [Verb.sends]
  . simp [Verb.sends]
  . rfl

theorem synced_sRelease : Synced .rctx Ends (b.sRelease a) [] := by
  rw [sRelease_eq]
  exact synced_giveBack _ unsignaled_nil (by simp)

theorem synced_writeBack : Synced .rctx Ends (b.writeBack a) [] := by
  rw [writeBack_eq]
  split
  . refine ⟨rfl, fun a _ => quiet_nil a, ?_⟩
    exact synced_giveBack _ (unsignaled_nil.append _) (by simp [Verb.sends])
  . apply Synced.post_poll (by simp) (fun a _ => quiet_nil a)
    exact synced_giveBack _ unsignaled_nil (by simp)

theorem synced_runTransaction (op : Transaction b.lockCount) (hu : Unsignaled u)
    : Synced .rctx Ends (b.runTransaction op) u := by
  cases op with
  | read id => exact synced_attempt (synced_sLock hu) (verify_local _ _) synced_sRelease
  | write id => exact synced_attempt (synced_xLock hu) (incrementWords_local _ _) synced_writeBack

end Discipline

section Protocol

variable [DecidableEq W] [Fintype W] {b : Benchmark} {id : Fin b.lockCount} {init : Nat → Word}
  {hcard : Fintype.card W < (b.counter id).exclusive.toNat} {nic : Nic} {w : W}
  {op : Transaction b.lockCount} {l : Local Buffer} {s : Shared W Buffer (Transaction b.lockCount)}
  {mine cs : List (Commit W (Transaction b.lockCount))}

abbrev lockProtocol (b : Benchmark) (id : Fin b.lockCount) (init : Nat → Word)
    (hcard : Fintype.card W < (b.counter id).exclusive.toNat)
    : Protocol W Buffer (Transaction b.lockCount) :=
  (b.counter id).protocol init (Increments (b.words - 1) id) (fun _ _ => True) hcard

theorem governs_lock (init : Nat → Word) (hcard : Fintype.card W < (b.counter id).exclusive.toNat)
    : (b.counter id).lock.Governs init (Increments (b.words - 1) id)
        (lockProtocol b id init hcard) := by
  exact CounterLock.governs _ hcard

theorem permit_read (s : Shared W Buffer (Transaction b.lockCount))
    (e : Event W Buffer (Transaction b.lockCount)) (h : e.verb.isRead = true)
    : (lockProtocol b id init hcard).permit s e := by
  left
  cases hv : e.verb with
  | read => exact CounterLock.away_read _ _ _ _
  | _ => simp [Verb.isRead, hv] at h

theorem copies_readBehind
    : Copies 1 ((b.counter id).base + 1) (b.words - 1) (b.readBehind (b.lockAddr id)) := by
  have haligned : b.lockAddr id % 8 = 0 := (b.counter id).addr_aligned
  have hbase : (b.counter id).base = b.lockAddr id / 8 := rfl
  have := b.words_ge
  have := b.tupleSize_eq
  exact ⟨1, _, _, rfl, Nat.le_refl 1, by omega, by omega⟩

theorem copies_readTuple
    : Copies 1 ((b.counter id).base + 1) (b.words - 1) (b.readTuple (b.lockAddr id)) := by
  have hbase : (b.counter id).base = b.lockAddr id / 8 := rfl
  have := b.words_ge
  have := b.tupleSize_eq
  exact ⟨0, _, _, rfl, Nat.zero_le 1, by omega, by omega⟩

theorem not_lands_readBehind : ¬(b.readBehind (b.lockAddr id)).lands (.old, 0) := by
  simp [Verb.lands]

theorem wp_xLock (h : (b.counter id).lock.Resting w mine s)
    : wp (lockProtocol b id init hcard) nic w op
        (Locked (b.counter id).lock 1 init
          (fun cs => (b.counter id).lock.Holding w mine cs (snap init cs cs.length)) w mine)
        (b.xLock (b.lockAddr id)) l s := by
  rw [xLock_eq]
  apply wp_lockTuple_write _ (governs_lock init hcard) permit_read copies_readBehind
    copies_readTuple not_lands_readBehind
  intro signaled next Q hnext
  apply CounterLock.wp_acquire h
  rintro s₁ x hinv₁ (⟨rfl, hholds₁⟩ | ⟨hx, hrests₁⟩)
  . exact hnext s₁ 0 hinv₁ (fun h => absurd rfl h) (fun _ => hholds₁)
  . exact hnext s₁ x hinv₁ (fun _ => hrests₁) (fun h => absurd hx h)

theorem wp_sLock (h : (b.counter id).lock.Resting w mine s)
    : wp (lockProtocol b id init hcard) nic w op
        (Locked (b.counter id).lock 1 init
          (fun cs s => (b.counter id).lock.Sharing w mine s ∧ (b.counter id).lock.Settled cs s)
          w mine)
        (b.sLock (b.lockAddr id)) l s := by
  rw [sLock_eq]
  apply wp_lockTuple_read _ (governs_lock init hcard) permit_read copies_readBehind
    copies_readTuple not_lands_readBehind (RwLock.sharing_steady w mine)
  . intro signaled next Q hnext
    apply CounterLock.wp_join h
    intro s₁ x hinv₁ _ hshares₁ hsettled₁
    apply hnext s₁ x hinv₁ (fun _ => hshares₁)
    intro hx
    obtain ⟨cs, hsettled₁⟩ := hsettled₁ (Nat.lt_of_not_le hx)
    exact ⟨cs, hshares₁, hsettled₁⟩
  . intro l₁ s₁ hshares₁
    apply CounterLock.wp_leave hshares₁
    intro s₂ x _ _ hrests₂ s₃ hr _
    exact (RwLock.resting_steady w mine).rely hr hrests₂

theorem wp_sRelease (h : (b.counter id).lock.Sharing w mine s)
    : wp (lockProtocol b id init hcard) nic w op (Released ((b.counter id).lock.Resting w mine))
        (b.sRelease (b.lockAddr id)) l s := by
  rw [sRelease_eq]
  apply wp_giveBack _ (RwLock.resting_steady w mine)
  intro signaled next hnext
  apply CounterLock.wp_leave h
  intro s₁ x hinv₁ _ hrests₁
  exact hnext _ s₁ hinv₁ hrests₁

theorem wp_xRelease (orderRelease : Bool) (hop : op = .write id)
    (hcopied : Copied 1 (b.counter id).count (fun _ => snap init cs cs.length 0 + 1) l)
    (h : (b.counter id).lock.Holding w mine cs (fun i => l .old (1 + i)) s)
    : wp (lockProtocol b id init hcard) nic w op
        (Released fun s => ∃ words, (b.counter id).lock.Resting w (⟨w, op, words⟩ :: mine) s)
        (giveBack orderRelease (.fetchAdd (-exclusiveLocked) (.old, 0) (b.lockAddr id))) l s := by
  apply wp_giveBack _ (committed_steady w op mine)
  intro signaled next hnext
  apply CounterLock.wp_release h
  . intro g hg
    refine ⟨hop, ?_⟩
    intro i hi
    rw [hg i hi, hcopied i hi]
  . intro s₁ x words hinv₁ hrests₁
    exact hnext _ s₁ hinv₁ ⟨words, hrests₁⟩

theorem wp_writeBack {f : Nat → Word} (hop : op = .write id)
    (hinv : (lockProtocol b id init hcard).inv s)
    (hcopied : Copied 1 (b.counter id).count (fun _ => snap init cs cs.length 0 + 1) l)
    (h : (b.counter id).lock.Holding w mine cs f s)
    : wp (lockProtocol b id init hcard) nic w op
        (Released fun s => ∃ words, (b.counter id).lock.Resting w (⟨w, op, words⟩ :: mine) s)
        (b.writeBack (b.lockAddr id)) l s := by
  have hbytes : (b.tupleSize - 8) / 8 = (b.counter id).count := by
    have hcount : (b.counter id).count = b.words - 1 := rfl
    have := b.tupleSize_eq
    omega
  rw [writeBack_eq]
  split
  . apply CounterLock.wp_replace hbytes h hinv
    intro s₁ _ hholds₁
    exact wp_xRelease _ hop hcopied hholds₁
  . apply CounterLock.wp_replace hbytes h hinv
    intro s₁ _ hholds₁
    rw [wp_poll]
    exact wp_xRelease _ hop hcopied hholds₁

theorem wp_own (hinit : ∀ i, i < b.words - 1 → init i = 0) (hop : op.lockId = id)
    (hinv : (lockProtocol b id init hcard).inv s) (h : (b.counter id).lock.Resting w mine s)
    : wp (lockProtocol b id init hcard) nic w op (Finished (b.counter id).lock id w op mine)
        (b.runTransaction op) l s := by
  have hge := b.words_ge
  have hcount : 0 < b.words - 1 := by omega
  have hbound : 1 + (b.words - 1) = b.words := by omega
  subst hop
  cases op with
  | read =>
    exact wp_attempt_read (governs_lock init hcard) rfl hcount hbound hinit hinv (wp_sLock h)
      fun _ _ hshares => wp_sRelease hshares
  | write =>
    exact wp_attempt_write rfl hcount hbound hinv (wp_xLock h)
      fun _ _ _ hinv hholds hcopied => wp_writeBack rfl hinv hcopied hholds

theorem wp_other (hop : op.lockId ≠ id) (hinv : (lockProtocol b id init hcard).inv s)
    (h : (b.counter id).lock.Resting w mine s)
    : wp (lockProtocol b id init hcard) nic w op
        (fun _ _ s => (b.counter id).lock.Resting w mine s) (b.runTransaction op) l s := by
  apply CounterLock.wp_away _ hinv h
  exact (b.posts_runTransaction op).mono fun _ h => b.away_of_within hop h

def lockSpec (b : Benchmark) (nic : Nic) (id : Fin b.lockCount) (init : Nat → Word)
    (hinit : ∀ i, i < b.words - 1 → init i = 0)
    (hcard : Fintype.card W < (b.counter id).exclusive.toNat)
    : Spec (lockProtocol b id init hcard) (b.workload nic) .rctx :=
  attemptSpec (b.counter id).lock id (b.workload nic) (fun op _ => synced_runTransaction op)
    (fun _ _ _ _ _ hinv hop => wp_own hinit hop hinv) (fun _ _ _ _ _ hinv hop => wp_other hop hinv)

end Protocol

section Run

variable [DecidableEq W] [Fintype W]

def committed (b : Benchmark) (id : Fin b.lockCount)
    (s : Sys W Ctx Buffer Terminate Bool (Transaction b.lockCount)) : Nat :=
  ∑ w, writesOn id (s.worker w).done

structure Serializable (b : Benchmark)
    (s : Sys W Ctx Buffer Terminate Bool (Transaction b.lockCount)) : Prop where
  lock_word : ∀ id, (load64 s.shared.mem (b.lockAddr id)).toNat
    = (if ∃ w, (b.counter id).lock.holds w s.shared.hist = true then exclusiveLocked.toNat else 0)
      + ∑ w, (b.counter id).lock.share w s.shared.hist
  holder_unique : ∀ id w w', (b.counter id).lock.holds w s.shared.hist = true →
    (b.counter id).lock.holds w' s.shared.hist = true → w = w'
  never_throws : ∀ w op since e, (s.worker w).control ≠ .running op since (.throw e)
  unlocked : s.Quiescent → ∀ id, load64 s.shared.mem (b.lockAddr id) = 0
  counts : s.Quiescent → ∀ id i, 1 ≤ i → i < b.words →
    load64 s.shared.mem (b.lockAddr id + 8 * i) = BitVec.ofNat 64 (b.committed id s)
  check : s.Quiescent →
    b.checkTuples s.shared.mem = some (BitVec.ofNat 64 (∑ w, updates (s.worker w).done))

def Zeroed (b : Benchmark) (m : Mem) : Prop :=
  ∀ id i, i < b.words → load64 m (b.lockAddr id + 8 * i) = 0

variable {b : Benchmark} {nic : Nic}
  {s₀ s : Sys W Ctx Buffer Terminate Bool (Transaction b.lockCount)}

theorem load64_lockAddr (b : Benchmark) (id : Fin b.lockCount) (m : Mem) (i : Nat)
    : load64 m (b.lockAddr id + 8 * i) = m ((b.counter id).base + i) := by
  have haligned : b.lockAddr id % 8 = 0 := (b.counter id).addr_aligned
  rw [load64_aligned _ (by omega)]
  congr 1
  show _ = b.lockAddr id / 8 + i
  omega

theorem sysOk_of_reach (hcard : Fintype.card W < 2 ^ 60) (hfresh : s₀.Fresh)
    (hzero : b.Zeroed s₀.shared.mem) (hreach : Sys.Reach (b.workload nic) Sys.anyStep s₀ s)
    (id : Fin b.lockCount)
    : ∃ hinit, (b.lockSpec nic id ((b.counter id).words s₀.shared.mem) hinit hcard).SysOk s := by
  have hword (i : Nat) (hi : i < b.words) : s₀.shared.mem ((b.counter id).base + i) = 0 :=
    (b.load64_lockAddr id _ i).symm.trans (hzero id i hi)
  have hinit : ∀ i, i < b.words - 1 → (b.counter id).words s₀.shared.mem i = 0 := by
    intro i hi
    rw [CounterLock.words, Nat.add_assoc]
    exact hword (1 + i) (by omega)
  refine ⟨hinit, ?_⟩
  let S := b.lockSpec (W := W) nic id _ hinit hcard
  apply S.sysOk_of_reach (fun _ _ _ _ _ _ _ _ => trivial) _ hreach
  have := b.words_ge
  apply S.sysOk_fresh (CounterLock.inv_initial hfresh.hist (hword 0 (by omega))) hfresh
    unsignaled_nil
  intro w s' hr _
  exact ⟨[], (RwLock.resting_steady w []).rely hr (RwLock.resting_initial hfresh.hist w), rfl⟩

/-- The locking benchmark is serializable. -/
theorem lockingBenchmark_serializable (hcard : Fintype.card W < 2 ^ 60) (hfresh : s₀.Fresh)
    (hzero : b.Zeroed s₀.shared.mem) (hreach : Sys.Reach (b.workload nic) Sys.anyStep s₀ s)
    : b.Serializable s := by
  have hok := sysOk_of_reach hcard hfresh hzero hreach
  have hresting (hquiescent : s.Quiescent) (id : Fin b.lockCount) (w : W)
      : ∃ mine, (b.counter id).lock.Resting w mine s.shared ∧
          mine.length = writesOn id (s.worker w).done := by
    obtain ⟨hinit, hok⟩ := hok id
    exact hok.ready _ (hquiescent.control w) (hquiescent.queue w _)
  have hcounts (hquiescent : s.Quiescent) (id : Fin b.lockCount) (i : Nat) (hge : 1 ≤ i)
      (hlt : i < b.words)
      : load64 s.shared.mem (b.lockAddr id + 8 * i) = BitVec.ofNat 64 (b.committed id s) := by
    obtain ⟨hinit, hok⟩ := hok id
    have hinv : (b.counter id).Inv _ _ s.shared := hok.inv
    have hlen := RwLock.commits_length_of_resting (hresting hquiescent id)
    have hdata := hinv.data (fun w => (hresting hquiescent id w).choose_spec.1.holds) (i - 1)
      (by show i - 1 < b.words - 1; omega)
    rw [RwLock.latest, snap_increments hinv.chain hinit (by omega), hlen] at hdata
    rw [b.load64_lockAddr, show (b.counter id).base + i = (b.counter id).lock.first + (i - 1) by
      show (b.counter id).base + i = (b.counter id).base + 1 + (i - 1); omega]
    exact hdata
  constructor
  . intro id
    obtain ⟨hinit, hok⟩ := hok id
    show (load64 s.shared.mem (b.counter id).addr).toNat = _
    rw [CounterLock.load_addr]
    exact CounterLock.word_toNat hok.inv hcard
  . intro id
    obtain ⟨hinit, hok⟩ := hok id
    exact fun _ _ => hok.inv.holds_unique
  . intro w op since e hcontrol
    obtain ⟨hinit, hok⟩ := hok op.lockId
    exact hok.post_throw _ hcontrol (fun _ h => h) rfl
  . intro hquiescent id
    obtain ⟨hinit, hok⟩ := hok id
    show load64 s.shared.mem (b.counter id).addr = 0
    rw [CounterLock.load_addr]
    exact CounterLock.word_of_resting hok.inv
      fun w => ⟨_, (hresting hquiescent id w).choose_spec.1⟩
  . exact hcounts
  . intro hquiescent
    have hsum : ∑ id, b.committed id s = ∑ w, updates (s.worker w).done := sum_sum_writesOn _
    rw [checkTuples, consistencyCheck_of_counts (n := fun id => b.committed id s) (Nat.le_refl 1)
      b.words_ge (fun id _ i => hcounts hquiescent id i), ← Fin.sum_univ_def, hsum]
    exact congrArg some (BitVec.zero_add _)

def sample : Benchmark where
  start := 0
  lockCount := 2
  tupleSize := 24
  padding := 8
  speculativeRead := true
  writeCombining := true
  orderRelease := true
  start_aligned := aligned_zero
  tupleSize_ge := by decide
  tupleSize_aligned := rfl
  padding_aligned := aligned_eight

/-- A reader is refused because a writer is there, and granted after it. -/
def refusedRun : List (Action Bool Ctx (Transaction 2)) :=
  List.flatten [
    [.start false (.write firstTuple)], cpus false 2, serves false .rctx [0], serves false .rctx [1],
    [.start true (.read firstTuple)], cpus true 2, serves true .rctx [0], serves true .rctx [1],
    [.cpu true 1], cpus true 2, serves true .rctx [0], [.cpu true 1, .finish true],
    [.cpu false 1], cpus false 7, [.finish false], serves false .rctx [1], serves false .rctx [0],
    cpus true 2, serves true .rctx [0], serves true .rctx [1], [.cpu true 1], cpus true 5,
    [.finish true], serves true .rctx [0]]

theorem lockingBenchmark_serializable_refusedRun
    : ∃ s : Sys Bool Ctx Buffer Terminate Bool (Transaction 2), sample.Serializable s ∧
        sample.checkTuples s.shared.mem = some 1 := by
  have hrun : ((Sys.initial (fun _ => 0) (fun _ _ => 0)).run
      (sample.workload { atomicReadBytes := 0, inOrderWrites := false }) refusedRun).any
      (fun s => sample.checkTuples s.shared.mem == some 1 &&
        (s.worker true).done.length == 2) = true := by
    decide +kernel
  obtain ⟨s, hreach, hcheck⟩ := Sys.exists_reach_of_run hrun
  simp only [Bool.and_eq_true, beq_iff_eq] at hcheck
  exact ⟨s, lockingBenchmark_serializable (by decide) (Sys.initial_fresh _ _)
    (fun id i _ => sample.load64_lockAddr id _ i) hreach, hcheck.1⟩

end Run

end Benchmark
end LockingBenchmark
