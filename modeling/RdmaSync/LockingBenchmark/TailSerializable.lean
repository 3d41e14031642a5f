import RdmaSync.LockingBenchmark.Attempt
import RdmaSync.LockingBenchmark.Tail
import RdmaSync.Rdma.TailRules

/-!
This module contains the proof that the locking benchmark with the lock at the tail is serializable
in runs without ordered releases of readers, and a run with one that is not.
-/

namespace LockingBenchmarkTail

open Rdma CommunicationManager LockingBenchmark
open Rdma.Action (cpus touches serves)

namespace Benchmark

variable (b : Benchmark)

def tail (lockId : Fin b.lockCount) : TailLock where
  addr := b.lockAddr lockId
  count := 7
  addr_aligned := by
    have := b.start_aligned
    have hpadding : lockId * b.padding % 8 = 0 := by
      rw [Nat.mul_mod, b.padding_aligned, Nat.mul_zero, Nat.zero_mod]
    unfold lockAddr tupleSize
    omega

theorem lockAddr_add_le {i j : Fin b.lockCount} (h : i < j)
    : b.lockAddr i + tupleSize ≤ b.lockAddr j := by
  have hlt : (i : Nat) + 1 ≤ j := h
  have hpadding : (i : Nat) * b.padding ≤ j * b.padding :=
    Nat.mul_le_mul_right b.padding (Nat.le_of_lt h)
  unfold lockAddr tupleSize
  omega

/-- What `sOrderRelease` posts. -/
def orderReleaseVerb (lockAddr : Nat) : Verb Buffer :=
  .fetchAdd (-2) (.old, lockOffsetIndex) (lockAddr + lockOffsetIndex)

def Within (lockAddr : Nat) (v : Verb Buffer) : Prop :=
  match v with
  | .read .. => True
  | .compareSwap _ _ _ remoteOffset => remoteOffset = lockAddr + lockOffsetByte
  | .fetchAdd _ _ remoteOffset =>
    remoteOffset = lockAddr + lockOffsetByte ∨ v = orderReleaseVerb lockAddr
  | .write _ remoteOffset bytes => remoteOffset = lockAddr ∧ bytes = tupleSize

theorem away_of_within {i j : Fin b.lockCount} (hne : i ≠ j) {v : Verb Buffer}
    (h : Within (b.lockAddr i) v) (hv : v ≠ orderReleaseVerb (b.lockAddr i))
    : (b.tail j).Away v := by
  have hlt : b.lockAddr i + tupleSize ≤ b.lockAddr j ∨ b.lockAddr j + tupleSize ≤ b.lockAddr i := by
    rcases Nat.lt_or_gt_of_ne (fun heq => hne (Fin.ext heq)) with h | h
    . exact .inl (b.lockAddr_add_le h)
    . exact .inr (b.lockAddr_add_le h)
  have hi : b.lockAddr i % 8 = 0 := (b.tail i).addr_aligned
  have hj : b.lockAddr j % 8 = 0 := (b.tail j).addr_aligned
  have hbase : (b.tail j).base = b.lockAddr j / 8 := rfl
  have hidx : (b.tail j).lockIdx = b.lockAddr j / 8 + 7 := rfl
  have hsize : tupleSize = 64 := rfl
  have hbyte : lockOffsetByte = 56 := rfl
  unfold TailLock.Away Verb.Avoids
  rw [hbase, hidx]
  cases v with
  | read => trivial
  | compareSwap =>
    simp only [Within] at h
    subst h
    exact ⟨by omega, by omega⟩
  | fetchAdd =>
    obtain rfl := h.resolve_right hv
    exact ⟨by omega, by omega⟩
  | write =>
    obtain ⟨rfl, rfl⟩ := h
    simp only
    omega

section Programs

variable (a : Nat)

abbrev readBefore : Verb Buffer :=
  .read (.old, 0) a 56

abbrev readTuple : Verb Buffer :=
  .read (.old, 0) a 64

abbrev releaseVerb : Verb Buffer :=
  if b.orderRelease then
    orderReleaseVerb a
  else
    .fetchAdd (-2) (.old, 7) (a + 56)

theorem xLock_eq
    : b.xLock a = lockTuple b.speculativeRead (.compareSwap 0 1 (.old, 7) (a + 56)) (readBefore a)
        (readTuple a) 7 (fun x => x ≠ 0) (.ret false) := by
  unfold xLock lockTuple
  split <;> rfl

theorem sLock_eq
    : b.sLock a = lockTuple b.speculativeRead (.fetchAdd 2 (.old, 7) (a + 56)) (readBefore a)
        (readBefore a) 7 (fun x => x &&& 1 = 1) (.ret false) := by
  unfold sLock lockTuple
  split <;> rfl

theorem sRelease_eq : b.sRelease a = giveBack b.orderRelease (b.releaseVerb a) := by
  unfold sRelease giveBack releaseVerb
  split <;> rfl

theorem writeBack_eq
    : b.writeBack a = .store (.old, 7) 0 (giveBack b.orderRelease (.write (.old, 0) a 64)) := by
  unfold writeBack giveBack
  split <;> rfl

theorem runRead_eq
    : b.runRead a = attempt (b.sLock a) (verify 0 (lockOffsetByte / 8)) (b.sRelease a) := by
  rfl

theorem runWrite_eq
    : b.runWrite a
        = attempt (b.xLock a) (incrementWords 0 (lockOffsetByte / 8)) (b.writeBack a) := by
  rfl

theorem posts_runRead : (b.runRead a).Posts (Within a) := by
  rw [runRead_eq, sLock_eq, sRelease_eq]
  apply posts_attempt _ ((verify_local _ _).posts _)
  . apply posts_giveBack
    unfold releaseVerb
    split
    . exact .inr rfl
    . exact .inl rfl
  . exact posts_lockTuple _ (.inl rfl) trivial trivial trivial

theorem posts_runWrite : (b.runWrite a).Posts (Within a) := by
  rw [runWrite_eq, xLock_eq, writeBack_eq]
  apply posts_attempt _ ((incrementWords_local _ _).posts _)
  . exact posts_giveBack _ ⟨rfl, rfl⟩
  . exact posts_lockTuple _ rfl trivial trivial trivial

theorem posts_runTransaction (op : Transaction b.lockCount)
    : (b.runTransaction op).Posts (Within (b.lockAddr op.lockId)) := by
  cases op with
  | read id => exact b.posts_runRead _
  | write id => exact b.posts_runWrite _

end Programs

section Discipline

variable {b : Benchmark} {a : Nat} {u : List (Verb Buffer × Bool)}

theorem synced_sLock (hu : Unsignaled u)
    : Synced .rctx (fun _ u => u = []) (b.sLock a) u := by
  rw [sLock_eq]
  apply synced_lockTuple _ hu
  . simp [Verb.sends]
  . simp [Verb.sends]
  . simp [Verb.sends]
  . rfl

theorem synced_xLock (hu : Unsignaled u)
    : Synced .rctx (fun _ u => u = []) (b.xLock a) u := by
  rw [xLock_eq]
  apply synced_lockTuple _ hu
  . simp [Verb.sends]
  . simp [Verb.sends]
  . simp [Verb.sends]
  . rfl

theorem synced_sRelease : Synced .rctx Ends (b.sRelease a) [] := by
  rw [sRelease_eq]
  exact synced_giveBack _ unsignaled_nil (by simp)

theorem synced_writeBack : Synced .rctx Ends (b.writeBack a) [] := by
  rw [writeBack_eq]
  exact ⟨quiet_nil _, synced_giveBack _ unsignaled_nil (by simp)⟩

theorem synced_runTransaction (op : Transaction b.lockCount) (hu : Unsignaled u)
    : Synced .rctx Ends (b.runTransaction op) u := by
  cases op with
  | read id => exact synced_attempt (synced_sLock hu) (verify_local _ _) synced_sRelease
  | write id => exact synced_attempt (synced_xLock hu) (incrementWords_local _ _) synced_writeBack

end Discipline

section Protocol

variable [DecidableEq W] [Fintype W] {b : Benchmark} {id : Fin b.lockCount} {init : Nat → Word}
  {hcard : Fintype.card W < 2 ^ 62} {nic : Nic} {w : W} {op : Transaction b.lockCount}
  {l : Local Buffer} {s : Shared W Buffer (Transaction b.lockCount)}
  {mine cs : List (Commit W (Transaction b.lockCount))}

def NotOrdered (b : Benchmark) (v : Verb Buffer) : Prop :=
  ∀ id, v ≠ orderReleaseVerb (b.lockAddr id)

abbrev lockProtocol (b : Benchmark) (id : Fin b.lockCount) (init : Nat → Word)
    (hcard : Fintype.card W < 2 ^ 62) : Protocol W Buffer (Transaction b.lockCount) :=
  (b.tail id).protocol init (Increments 7 id) (fun _ e => b.NotOrdered e.verb) hcard

theorem governs_lock (id : Fin b.lockCount) (init : Nat → Word) (hcard : Fintype.card W < 2 ^ 62)
    : (b.tail id).lock.Governs init (Increments 7 id) (lockProtocol b id init hcard) := by
  exact TailLock.governs _ hcard

theorem permit_read (s : Shared W Buffer (Transaction b.lockCount))
    (e : Event W Buffer (Transaction b.lockCount)) (h : e.verb.isRead = true)
    : (lockProtocol b id init hcard).permit s e := by
  left
  cases hv : e.verb with
  | read => exact TailLock.away_read _ _ _ _
  | _ => simp [Verb.isRead, hv] at h

theorem copies_readBefore : Copies 0 (b.tail id).base 7 (readBefore (b.lockAddr id)) := by
  exact ⟨0, _, _, rfl, Nat.le_refl 0, rfl, Nat.le_refl 7⟩

theorem copies_readTuple : Copies 0 (b.tail id).base 7 (readTuple (b.lockAddr id)) := by
  exact ⟨0, _, _, rfl, Nat.le_refl 0, rfl, Nat.le_succ 7⟩

theorem not_lands_readBefore : ¬(readBefore (b.lockAddr id)).lands (.old, 7) := by
  simp [Verb.lands]

theorem and_one_eq (x : Word) : x &&& 1 = 1 ↔ isOdd x = true := by
  rw [isOdd, beq_iff_eq]

theorem wp_xLock (h : (b.tail id).lock.Resting w mine s)
    : wp (lockProtocol b id init hcard) nic w op
        (Locked (b.tail id).lock 0 init
          (fun cs => (b.tail id).lock.Holding w mine cs (snap init cs cs.length)) w mine)
        (b.xLock (b.lockAddr id)) l s := by
  rw [xLock_eq]
  apply wp_lockTuple_write _ (governs_lock id init hcard) permit_read copies_readBefore
    copies_readTuple not_lands_readBefore
  intro signaled next Q hnext
  apply TailLock.wp_acquire (c := b.tail id) h
  rintro s₁ x hinv₁ (⟨rfl, hholds₁⟩ | ⟨hx, hrests₁⟩)
  . exact hnext s₁ 0 hinv₁ (fun h => absurd rfl h) (fun _ => hholds₁)
  . exact hnext s₁ x hinv₁ (fun _ => hrests₁) (fun h => absurd hx h)

/-- A reader that was refused rests without having taken its addition back. -/
theorem wp_sLock (h : (b.tail id).lock.Resting w mine s)
    : wp (lockProtocol b id init hcard) nic w op
        (Locked (b.tail id).lock 0 init
          (fun cs s => (b.tail id).lock.Sharing w mine s ∧ (b.tail id).lock.Settled cs s) w mine)
        (b.sLock (b.lockAddr id)) l s := by
  rw [sLock_eq]
  apply wp_lockTuple_read _ (governs_lock id init hcard) permit_read copies_readBefore
    copies_readBefore not_lands_readBefore
    (RwLock.resting_steady (L := (b.tail id).lock) w mine)
  . intro signaled next Q hnext
    apply TailLock.wp_join (c := b.tail id) h
    rintro s₁ x hinv₁ (⟨hx, hshares₁, cs, hsettled₁⟩ | ⟨hx, hrests₁⟩)
    . have hgranted : ¬x &&& 1 = 1 := by
        rw [and_one_eq, hx]
        simp
      exact hnext s₁ x hinv₁ (fun h => absurd h hgranted) fun _ => ⟨cs, hshares₁, hsettled₁⟩
    . have hrefused : x &&& 1 = 1 := (and_one_eq x).mpr hx
      exact hnext s₁ x hinv₁ (fun _ => hrests₁) fun h => absurd hrefused h
  . intro l₁ s₁ hrests₁ s₂ hr _
    exact (RwLock.resting_steady w mine).rely hr hrests₁

/-- The ordered release does not go to the lock word; the condition of the run rules it out. -/
theorem wp_sRelease (h : (b.tail id).lock.Sharing w mine s)
    : wp (lockProtocol b id init hcard) nic w op (Released ((b.tail id).lock.Resting w mine))
        (b.sRelease (b.lockAddr id)) l s := by
  rw [sRelease_eq]
  apply wp_giveBack _ (RwLock.resting_steady w mine)
  intro signaled next hnext
  unfold releaseVerb
  split
  . apply wp_fetchAdd
    rintro s' e _ _ hguard rfl
    exact absurd rfl (hguard id)
  . apply TailLock.wp_leave (c := b.tail id) h
    intro s₁ x hinv₁ hrests₁
    exact hnext _ s₁ hinv₁ hrests₁

theorem wp_writeBack {f : Nat → Word} (horder : nic.inOrderWrites = true) (hop : op = .write id)
    (hinv : (lockProtocol b id init hcard).inv s)
    (hcopied : Copied 0 7 (fun _ => snap init cs cs.length 0 + 1) l)
    (h : (b.tail id).lock.Holding w mine cs f s)
    : wp (lockProtocol b id init hcard) nic w op
        (Released fun s => ∃ words, (b.tail id).lock.Resting w (⟨w, op, words⟩ :: mine) s)
        (b.writeBack (b.lockAddr id)) l s := by
  have hword (i : Nat) (hi : i < 7)
      : l.set (.old, 7) 0 .old (0 + i) = snap init cs cs.length 0 + 1 := by
    rw [Local.set_apply, if_neg (by simp; omega), hcopied i hi]
  rw [writeBack_eq, wp_store]
  apply wp_giveBack _ (committed_steady w op mine)
  intro signaled next hnext
  refine TailLock.wp_replace (c := b.tail id) horder rfl hinv h (Local.set_self _ _ _) ?_ ?_
  . intro g hg
    refine ⟨hop, ?_⟩
    intro i hi
    rw [hg i hi, hword i hi]
  . intro s₁ words hinv₁ hrests₁
    exact hnext _ s₁ hinv₁ ⟨words, hrests₁⟩

theorem wp_own (horder : nic.inOrderWrites = true) (hinit : ∀ i, i < 7 → init i = 0)
    (hop : op.lockId = id) (hinv : (lockProtocol b id init hcard).inv s)
    (h : (b.tail id).lock.Resting w mine s)
    : wp (lockProtocol b id init hcard) nic w op (Finished (b.tail id).lock id w op mine)
        (b.runTransaction op) l s := by
  subst hop
  cases op with
  | read =>
    exact wp_attempt_read (governs_lock _ init hcard) rfl (by decide : 0 < 7) rfl hinit hinv
      (wp_sLock h) fun _ _ hshares => wp_sRelease hshares
  | write =>
    exact wp_attempt_write rfl (by decide : 0 < 7) rfl hinv (wp_xLock h)
      fun _ _ _ hinv hholds hcopied => wp_writeBack horder rfl hinv hcopied hholds

theorem wp_other (hop : op.lockId ≠ id) (hinv : (lockProtocol b id init hcard).inv s)
    (h : (b.tail id).lock.Resting w mine s)
    : wp (lockProtocol b id init hcard) nic w op
        (fun _ _ s => (b.tail id).lock.Resting w mine s) (b.runTransaction op) l s := by
  apply TailLock.wp_away (b.posts_runTransaction op) _ hinv h
  intro s e hguard h
  exact b.away_of_within hop h (hguard op.lockId)

def lockSpec (b : Benchmark) (nic : Nic) (horder : nic.inOrderWrites = true)
    (id : Fin b.lockCount) (init : Nat → Word) (hinit : ∀ i, i < 7 → init i = 0)
    (hcard : Fintype.card W < 2 ^ 62)
    : Spec (lockProtocol b id init hcard) (b.workload nic) .rctx :=
  attemptSpec (b.tail id).lock id (b.workload nic) (fun op _ => synced_runTransaction op)
    (fun _ _ _ _ _ hinv hop => wp_own horder hinit hop hinv)
    (fun _ _ _ _ _ hinv hop => wp_other hop hinv)

end Protocol

section Run

variable [DecidableEq W] [Fintype W]

def committed (b : Benchmark) (id : Fin b.lockCount)
    (s : Sys W Ctx Buffer Terminate Bool (Transaction b.lockCount)) : Nat :=
  ∑ w, writesOn id (s.worker w).done

structure Serializable (b : Benchmark)
    (s : Sys W Ctx Buffer Terminate Bool (Transaction b.lockCount)) : Prop where
  lock_bit : ∀ id, (load64 s.shared.mem (b.lockAddr id + lockOffsetByte)).toNat % 2 = 1 ↔
    ∃ w, (b.tail id).lock.holds w s.shared.hist = true
  holder_unique : ∀ id w w', (b.tail id).lock.holds w s.shared.hist = true →
    (b.tail id).lock.holds w' s.shared.hist = true → w = w'
  readers_excluded : ∀ id w w', (b.tail id).lock.holds w s.shared.hist = true →
    (b.tail id).lock.share w' s.shared.hist = 0
  /-- Without a writer only readers that were granted the lock count. -/
  refused_wiped : ∀ id, (∀ w, (b.tail id).lock.holds w s.shared.hist = false) →
    (load64 s.shared.mem (b.lockAddr id + lockOffsetByte)).toNat
      = 2 * ∑ w, (b.tail id).lock.share w s.shared.hist
  never_throws : ∀ w op since e, (s.worker w).control ≠ .running op since (.throw e)
  unlocked : s.Quiescent → ∀ id, load64 s.shared.mem (b.lockAddr id + lockOffsetByte) = 0
  counts : s.Quiescent → ∀ id i, i < lockOffsetIndex →
    load64 s.shared.mem (b.lockAddr id + 8 * i) = BitVec.ofNat 64 (b.committed id s)
  check : s.Quiescent →
    b.checkTuples s.shared.mem = some (BitVec.ofNat 64 (∑ w, updates (s.worker w).done))

def Zeroed (b : Benchmark) (m : Mem) : Prop :=
  ∀ id i, i < tupleSize / 8 → load64 m (b.lockAddr id + 8 * i) = 0

/-- The step does not let a fetch-and-add that `sOrderRelease` has posted take effect. -/
def noOrderedRelease (b : Benchmark)
    (s : Sys W Ctx Buffer Terminate Bool (Transaction b.lockCount))
    (a : Action W Ctx (Transaction b.lockCount)) : Bool :=
  match a with
  | .touch w c _ =>
    match (s.worker w).queue c with
    | f :: _ => decide (∀ id, f.verb ≠ orderReleaseVerb (b.lockAddr id))
    | [] => true
  | _ => true

variable {b : Benchmark} {nic : Nic}
  {s₀ s : Sys W Ctx Buffer Terminate Bool (Transaction b.lockCount)}

theorem guards_noOrderedRelease {id : Fin b.lockCount} {init : Nat → Word}
    {hcard : Fintype.card W < 2 ^ 62}
    : Spec.Guards (lockProtocol b id init hcard)
        (fun (s : Sys W Ctx Buffer Terminate Bool (Transaction b.lockCount)) a =>
          b.noOrderedRelease s a = true) := by
  intro s w c chunk f fs hcond hq
  simp only [noOrderedRelease, hq, decide_eq_true_eq] at hcond
  exact hcond

theorem load64_lockAddr (b : Benchmark) (id : Fin b.lockCount) (m : Mem) (i : Nat)
    : load64 m (b.lockAddr id + 8 * i) = m ((b.tail id).base + i) := by
  have haligned : b.lockAddr id % 8 = 0 := (b.tail id).addr_aligned
  rw [load64_aligned _ (by omega)]
  congr 1
  show _ = b.lockAddr id / 8 + i
  omega

theorem load64_lockWord (b : Benchmark) (id : Fin b.lockCount) (m : Mem)
    : load64 m (b.lockAddr id + lockOffsetByte) = m (b.tail id).lockIdx := by
  exact b.load64_lockAddr id m 7

theorem sysOk_of_reach (horder : nic.inOrderWrites = true) (hcard : Fintype.card W < 2 ^ 62)
    (hfresh : s₀.Fresh) (hzero : b.Zeroed s₀.shared.mem)
    (hreach : Sys.Reach (b.workload nic) (fun s a => b.noOrderedRelease s a = true) s₀ s)
    (id : Fin b.lockCount)
    : ∃ hinit, (b.lockSpec nic horder id ((b.tail id).words s₀.shared.mem) hinit hcard).SysOk s := by
  have hword (i : Nat) (hi : i < 8) : s₀.shared.mem ((b.tail id).base + i) = 0 :=
    (b.load64_lockAddr id _ i).symm.trans (hzero id i hi)
  have hinit : ∀ i, i < 7 → (b.tail id).words s₀.shared.mem i = 0 := by
    intro i hi
    exact hword i (by omega)
  refine ⟨hinit, ?_⟩
  let S := b.lockSpec (W := W) nic horder id _ hinit hcard
  apply S.sysOk_of_reach guards_noOrderedRelease _ hreach
  apply S.sysOk_fresh (TailLock.inv_initial hfresh.hist (hword 7 (by decide))) hfresh unsignaled_nil
  intro w s' hr _
  exact ⟨[], (RwLock.resting_steady w []).rely hr (RwLock.resting_initial hfresh.hist w), rfl⟩

/-- The benchmark is serializable as long as no ordered release of a reader takes effect. -/
theorem tailLock_serializable (horder : nic.inOrderWrites = true)
    (hcard : Fintype.card W < 2 ^ 62) (hfresh : s₀.Fresh) (hzero : b.Zeroed s₀.shared.mem)
    (hreach : Sys.Reach (b.workload nic) (fun s a => b.noOrderedRelease s a = true) s₀ s)
    : b.Serializable s := by
  have hok := sysOk_of_reach horder hcard hfresh hzero hreach
  have hinv (id : Fin b.lockCount) : (b.tail id).Inv ((b.tail id).words s₀.shared.mem)
      (Increments 7 id) s.shared := by
    obtain ⟨hinit, hok⟩ := hok id
    exact hok.inv
  have hfree_word (id : Fin b.lockCount) (hfree : (b.tail id).lock.Free s.shared.hist)
      : (load64 s.shared.mem (b.lockAddr id + lockOffsetByte)).toNat
          = 2 * ∑ w, (b.tail id).lock.share w s.shared.hist := by
    have hsum := (hinv id).toInv.sum_share_le
    rw [b.load64_lockWord, (hinv id).free_word hfree, BitVec.toNat_ofNat,
      Nat.mod_eq_of_lt (by omega)]
  have hresting (hquiescent : s.Quiescent) (id : Fin b.lockCount) (w : W)
      : ∃ mine, (b.tail id).lock.Resting w mine s.shared ∧
          mine.length = writesOn id (s.worker w).done := by
    obtain ⟨hinit, hok⟩ := hok id
    exact hok.ready _ (hquiescent.control w) (hquiescent.queue w _)
  have hcounts (hquiescent : s.Quiescent) (id : Fin b.lockCount) (i : Nat)
      (hlt : i < lockOffsetIndex)
      : load64 s.shared.mem (b.lockAddr id + 8 * i) = BitVec.ofNat 64 (b.committed id s) := by
    obtain ⟨hinit, _⟩ := hok id
    have hlt' : i < 7 := hlt
    have hlen := RwLock.commits_length_of_resting (hresting hquiescent id)
    have hdata := (hinv id).data (fun w => (hresting hquiescent id w).choose_spec.1.holds) i hlt'
    rw [RwLock.latest, snap_increments (hinv id).chain hinit hlt', hlen] at hdata
    rw [b.load64_lockAddr]
    exact hdata
  constructor
  . intro id
    constructor
    . intro hodd
      by_contra hnone
      have hfree : (b.tail id).lock.Free s.shared.hist := by
        intro w
        rw [← Bool.not_eq_true]
        exact fun hholds => hnone ⟨w, hholds⟩
      rw [hfree_word id hfree] at hodd
      omega
    . rintro ⟨w, hholds⟩
      rw [b.load64_lockWord, ← isOdd_iff]
      exact (hinv id).held_word hholds
  . exact fun id _ _ => (hinv id).holds_unique
  . exact fun id _ w' hholds => (hinv id).held_share hholds w'
  . exact hfree_word
  . intro w op since e hcontrol
    obtain ⟨hinit, hok⟩ := hok op.lockId
    exact hok.post_throw _ hcontrol (fun _ h => h) rfl
  . intro hquiescent id
    rw [b.load64_lockWord]
    exact TailLock.word_of_resting (hinv id) fun w => ⟨_, (hresting hquiescent id w).choose_spec.1⟩
  . exact hcounts
  . intro hquiescent
    have hsum : ∑ id, b.committed id s = ∑ w, updates (s.worker w).done := sum_sum_writesOn _
    have hcheck := consistencyCheck_of_counts (n := fun id => b.committed id s) (Nat.zero_le 1)
      (by decide : 1 < lockOffsetIndex) (fun id (_ : id ∈ List.finRange b.lockCount) i _ =>
        hcounts hquiescent id i) 0
    rw [← Fin.sum_univ_def, hsum] at hcheck
    exact hcheck.trans (congrArg some (BitVec.zero_add _))

def sample (orderRelease : Bool) : Benchmark where
  start := 0
  lockCount := 2
  padding := 8
  speculativeRead := true
  orderRelease := orderRelease
  start_aligned := aligned_zero
  padding_aligned := aligned_eight

def orderedNic : Nic where
  atomicReadBytes := 0
  inOrderWrites := true

/-- A reader is refused because a writer is there, whose WRITE undoes the reader's addition. -/
def wipedRun : List (Action Bool Ctx (Transaction 2)) :=
  List.flatten [
    [.start false (.write secondTuple)], cpus false 2, serves false .rctx [0], serves false .rctx [1],
    [.cpu false 1], cpus false 10,
    [.start true (.read secondTuple)], cpus true 2, serves true .rctx [0], serves true .rctx [1],
    [.cpu true 1], cpus true 1, [.finish true],
    cpus false 2, [.finish false], serves false .rctx [1, 2]]

theorem tailLock_serializable_wipedRun
    : ∃ s : Sys Bool Ctx Buffer Terminate Bool (Transaction 2), (sample true).Serializable s ∧
        (sample true).checkTuples s.shared.mem = some 1 := by
  have hrun : ((Sys.initial (fun _ => 0) (fun _ _ => 0)).runIf ((sample true).workload orderedNic)
      (sample true).noOrderedRelease wipedRun).any
      (fun s => (sample true).checkTuples s.shared.mem == some 1 &&
        (s.worker true).done == [(.read (1 : Fin 2), false)]) = true := by
    decide +kernel
  obtain ⟨s, hreach, hcheck⟩ := Sys.exists_reach_of_runIf hrun
  simp only [Bool.and_eq_true, beq_iff_eq] at hcheck
  exact ⟨s, tailLock_serializable rfl (by decide) (Sys.initial_fresh _ _)
    (fun id i _ => (sample true).load64_lockAddr id _ i) hreach, hcheck.1⟩

/-- A reader subtracts its two from the word whose address is not the one of the lock word. -/
def misplacedRun : List (Action Unit Ctx (Transaction 2)) :=
  List.flatten [
    [.start () (.read firstTuple)], cpus () 2, serves () .rctx [0], serves () .rctx [0], [.cpu () 1],
    cpus () 10, [.finish ()], serves () .rctx [0]]

def rests (s : Sys Unit Ctx Buffer Terminate Bool Op) : Bool :=
  match (s.worker ()).control with
  | .idle => ((s.worker ()).queue .rctx).isEmpty
  | .running .. => false

theorem quiescent_of_rests {s : Sys Unit Ctx Buffer Terminate Bool Op} (h : rests s = true)
    : s.Quiescent := by
  unfold rests at h
  split at h
  . next hcontrol => exact ⟨fun _ => hcontrol, fun _ _ => List.isEmpty_iff.mp h⟩
  . simp at h

/-- An ordered release leaves the lock word as it is. -/
theorem tailLock_not_serializable
    : ∃ s : Sys Unit Ctx Buffer Terminate Bool (Transaction 2),
        Sys.Reach ((sample true).workload orderedNic) Sys.anyStep
          (Sys.initial (fun _ => 0) (fun _ _ => 0)) s ∧
        s.Quiescent ∧ load64 s.shared.mem ((sample true).lockAddr (0 : Fin 2) + lockOffsetByte) = 2 ∧
        ¬(sample true).Serializable s := by
  have hrun : ((Sys.initial (fun _ => 0) (fun _ _ => 0)).run ((sample true).workload orderedNic)
      misplacedRun).any (fun s => rests s &&
        load64 s.shared.mem ((sample true).lockAddr (0 : Fin 2) + lockOffsetByte) == 2) = true := by
    decide +kernel
  obtain ⟨s, hreach, h⟩ := Sys.exists_reach_of_run hrun
  simp only [Bool.and_eq_true, beq_iff_eq] at h
  have hquiescent := quiescent_of_rests h.1
  refine ⟨s, hreach, hquiescent, h.2, ?_⟩
  intro hserializable
  have hzero := hserializable.unlocked hquiescent (0 : Fin 2)
  rw [h.2] at hzero
  exact absurd hzero (by decide)

end Run

end Benchmark
end LockingBenchmarkTail
