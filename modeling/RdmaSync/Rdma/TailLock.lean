import RdmaSync.Rdma.RwLock

/-!
This module contains the reader/writer lock that sits behind the words it protects: a writer swaps
zero for one, and gives the lock back with the last line of the WRITE that replaces all words
including the lock word. Readers add two and subtract it again; those that meet an odd word do not
undo their addition, because that WRITE will.
-/

namespace Rdma

variable {W κ β ε α Op : Type}

structure TailLock where
  addr : Nat
  count : Nat
  addr_aligned : addr % 8 = 0

def isOdd (x : Word) : Bool := x &&& 1 == 1

theorem isOdd_iff (x : Word) : isOdd x = true ↔ x.toNat % 2 = 1 := by
  have hand : (x &&& 1).toNat = x.toNat % 2 := by
    rw [BitVec.toNat_and]
    exact Nat.and_one_is_mod _
  rw [isOdd, beq_iff_eq, ← BitVec.toNat_inj, hand]
  rfl

theorem isOdd_add_two (x : Word) : isOdd (x + 2) = isOdd x := by
  rw [Bool.eq_iff_iff, isOdd_iff, isOdd_iff, BitVec.toNat_add, show (2 : Word).toNat = 2 from rfl]
  omega

namespace TailLock

variable (c : TailLock)

def base : Nat := c.addr / 8

def lockAddr : Nat := c.addr + 8 * c.count

def lockIdx : Nat := c.base + c.count

def words (m : Mem) (i : Nat) : Word := m (c.base + i)

/-- How an event moves the lock. -/
def move (m : Mem) (e : Event W β Op) : LockMove :=
  match e.verb with
  | .compareSwap expected desired _ remoteOffset =>
    if remoteOffset = c.lockAddr ∧ expected = 0 ∧ desired = 1 ∧ load64 m remoteOffset = 0 then
      .acquire
    else
      .idle
  | .fetchAdd toAdd _ remoteOffset =>
    if remoteOffset = c.lockAddr then
      if toAdd = 2 then
        if isOdd (load64 m remoteOffset) then .idle else .join
      else if toAdd = -2 then .leave
      else .idle
    else
      .idle
  | .write _ remoteOffset bytes =>
    if remoteOffset = c.addr ∧ bytes / 8 = c.count + 1 ∧ e.chunk = c.lockIdx / 8 then
      .release
    else
      .idle
  | .read .. => .idle

def lock : RwLock W β Op where
  first := c.base
  count := c.count
  move := c.move
  move_read := by
    intro m e h
    cases hv : e.verb with
    | read => simp only [move, hv]
    | _ => simp [Verb.isRead, hv] at h

@[simp]
theorem lock_move (m : Mem) (e : Event W β Op) : c.lock.move m e = c.move m e := by
  rfl

theorem lockAddr_aligned : c.lockAddr % 8 = 0 := by
  have := c.addr_aligned
  unfold lockAddr
  omega

theorem lockAddr_div : c.lockAddr / 8 = c.lockIdx := by
  have := c.addr_aligned
  unfold lockAddr lockIdx base
  omega

theorem load_lockAddr (m : Mem) : load64 m c.lockAddr = m c.lockIdx := by
  rw [load64_aligned _ c.lockAddr_aligned, lockAddr_div]

theorem store_lockAddr (m : Mem) (v : Word)
    : store64 m c.lockAddr v = Function.update m c.lockIdx v := by
  rw [store64_aligned _ _ c.lockAddr_aligned, lockAddr_div]

def Away (v : Verb β) : Prop :=
  v.Avoids c.base c.lockIdx

theorem away_read (memAddr : β × Nat) (remoteOffset bytes : Nat)
    : c.Away (.read memAddr remoteOffset bytes) := by
  trivial

theorem move_of_away {e : Event W β Op} (h : c.Away e.verb) (m : Mem) : c.move m e = .idle := by
  have hne {off : Nat} (hoff : off / 8 < c.base ∨ c.lockIdx < off / 8) : off ≠ c.lockAddr := by
    rintro rfl
    rw [lockAddr_div] at hoff
    unfold lockIdx at hoff
    omega
  unfold Away at h
  cases hv : e.verb with
  | read => simp only [move, hv]
  | compareSwap expected desired memAddr off =>
    rw [hv] at h
    simp only [move, hv, hne h.2, false_and, ↓reduceIte]
  | fetchAdd toAdd memAddr off =>
    rw [hv] at h
    simp only [move, hv, hne h.2, ↓reduceIte]
  | write memAddr off bytes =>
    rw [hv] at h
    have hnot : ¬(off = c.addr ∧ bytes / 8 = c.count + 1 ∧ e.chunk = c.lockIdx / 8) := by
      rintro ⟨rfl, hbytes, _⟩
      simp only [Verb.Avoids, lockIdx, base] at h
      omega
    simp only [move, hv, hnot, ↓reduceIte]

theorem keepsData_of_update {c : TailLock} {s : Shared W β Op} {e : Event W β Op} {v : Word}
    (hmem : (s.push e).mem = Function.update s.mem c.lockIdx v) : c.lock.KeepsData s e := by
  intro i hi
  have hi' : i < c.count := hi
  show (s.push e).mem (c.base + i) = s.mem (c.base + i)
  rw [hmem, Function.update_of_ne (by unfold lockIdx; omega)]

variable [DecidableEq W] (init : Nat → Word)
  (valid : Op → (Nat → Word) → (Nat → Word) → Prop)

/-- What a worker has to show before it causes an event. -/
def Permit (s : Shared W β Op) (e : Event W β Op) : Prop :=
  c.Away e.verb ∨
    match e.verb with
    | .read .. => False
    | .compareSwap expected desired _ remoteOffset =>
      remoteOffset = c.lockAddr ∧ expected = 0 ∧ desired = 1
    | .fetchAdd toAdd _ remoteOffset =>
      remoteOffset = c.lockAddr ∧
      (toAdd = 2 ∧ c.lock.share e.worker s.hist = 0 ∨
        toAdd = -2 ∧ c.lock.share e.worker s.hist = 1)
    | .write _ remoteOffset bytes =>
      remoteOffset = c.addr ∧ bytes / 8 = c.count + 1 ∧ c.lock.holds e.worker s.hist = true ∧
      (e.chunk = c.lockIdx / 8 → e.payload c.count = 0 ∧
        valid e.op (c.lock.latest init s.hist) (c.words (s.push e).mem))

/-- The invariant of the lock: its word says whether somebody holds it or how many share it. -/
structure Inv [Fintype W] (s : Shared W β Op) : Prop extends c.lock.Inv init valid s where
  free_word : c.lock.Free s.hist →
    s.mem c.lockIdx = BitVec.ofNat 64 (2 * ∑ w, c.lock.share w s.hist)
  held_word : ∀ {w}, c.lock.holds w s.hist = true → isOdd (s.mem c.lockIdx) = true
  held_share : ∀ {w}, c.lock.holds w s.hist = true → ∀ w', c.lock.share w' s.hist = 0

variable {c init valid} {s : Shared W β Op} {e : Event W β Op}

inductive Moves (c : TailLock) (init : Nat → Word)
    (valid : Op → (Nat → Word) → (Nat → Word) → Prop) (s : Shared W β Op) (e : Event W β Op)
    : Prop where
  | idle (hmove : c.move s.mem e = .idle)
    (hword : (s.push e).mem c.lockIdx = s.mem c.lockIdx ∨
      isOdd (s.mem c.lockIdx) = true ∧ (s.push e).mem c.lockIdx = s.mem c.lockIdx + 2)
    (hdata : c.lock.holds e.worker s.hist = false → c.lock.KeepsData s e)
  | acquire (hmove : c.move s.mem e = .acquire) (hzero : s.mem c.lockIdx = 0)
    (hmem : (s.push e).mem = Function.update s.mem c.lockIdx 1)
  | join (hmove : c.move s.mem e = .join) (heven : isOdd (s.mem c.lockIdx) = false)
    (hshare : c.lock.share e.worker s.hist = 0)
    (hmem : (s.push e).mem = Function.update s.mem c.lockIdx (s.mem c.lockIdx + 2))
  | leave (hmove : c.move s.mem e = .leave) (hshare : c.lock.share e.worker s.hist = 1)
    (hmem : (s.push e).mem = Function.update s.mem c.lockIdx (s.mem c.lockIdx + -2))
  | release (hmove : c.move s.mem e = .release) (hholds : c.lock.holds e.worker s.hist = true)
    (hvalid : valid e.op (c.lock.latest init s.hist) (c.words (s.push e).mem))
    (hword : (s.push e).mem c.lockIdx = 0)

theorem neg_two_ne_two : (-2 : Word) ≠ 2 := by
  decide

theorem Permit.moves (h : c.Permit init valid s e) : c.Moves init valid s e := by
  rcases h with h | h
  . apply Moves.idle (c.move_of_away h _)
    . exact .inl (Verb.place_of_avoids h (by unfold lockIdx; omega) (Nat.le_refl _) _ _ _)
    . intro _ i hi
      have hi' : i < c.count := hi
      apply Verb.place_of_avoids h (Nat.le_add_right _ _)
      show c.base + i ≤ c.lockIdx
      unfold lockIdx
      omega
  rcases e with ⟨w, op, v, payload, chunk⟩
  cases v with
  | read => exact h.elim
  | compareSwap expected desired memAddr off =>
    obtain ⟨rfl, rfl, rfl⟩ := h
    by_cases hzero : s.mem c.lockIdx = 0
    . apply Moves.acquire _ hzero
      . simp only [Shared.push_mem, Verb.place, load_lockAddr, hzero, ↓reduceIte, store_lockAddr]
      . simp only [move, load_lockAddr, hzero, and_self, ↓reduceIte]
    . have hmem : (s.push ⟨w, op, .compareSwap 0 1 memAddr c.lockAddr, payload, chunk⟩).mem
          = s.mem := by
        simp only [Shared.push_mem, Verb.place, load_lockAddr, hzero, ↓reduceIte]
      apply Moves.idle
      . simp only [move, load_lockAddr, hzero, and_false, ↓reduceIte]
      . exact .inl (by rw [hmem])
      . intro _ i _
        rw [hmem]
  | fetchAdd toAdd memAddr off =>
    obtain ⟨rfl, ⟨rfl, hshare⟩ | ⟨rfl, hshare⟩⟩ := h
    . have hmem : (s.push ⟨w, op, .fetchAdd 2 memAddr c.lockAddr, payload, chunk⟩).mem
          = Function.update s.mem c.lockIdx (s.mem c.lockIdx + 2) := by
        simp only [Shared.push_mem, Verb.place, load_lockAddr, store_lockAddr]
      cases hodd : isOdd (s.mem c.lockIdx) with
      | true =>
        apply Moves.idle
        . simp only [move, load_lockAddr, hodd, ↓reduceIte]
        . exact .inr ⟨hodd, by rw [hmem, Function.update_self]⟩
        . exact fun _ => keepsData_of_update hmem
      | false =>
        apply Moves.join _ hodd hshare hmem
        simp only [move, load_lockAddr, hodd, Bool.false_eq_true, ↓reduceIte]
    . apply Moves.leave _ hshare
      . simp only [Shared.push_mem, Verb.place, load_lockAddr, store_lockAddr]
      . simp only [move, neg_two_ne_two, ↓reduceIte]
  | write memAddr off bytes =>
    obtain ⟨rfl, hbytes, hholds, hlast⟩ := h
    have hbase : c.addr / 8 = c.base := rfl
    by_cases hchunk : chunk = c.lockIdx / 8
    . obtain ⟨hpayload, hvalid⟩ := hlast hchunk
      apply Moves.release _ hholds hvalid
      . simp only [Shared.push_mem, Verb.place, hbase, hbytes]
        rw [if_pos ⟨by unfold lockIdx; omega, by unfold lockIdx; omega, hchunk.symm⟩]
        rwa [lockIdx, Nat.add_sub_cancel_left]
      . simp only [move, hbytes, hchunk, and_self, ↓reduceIte]
    . apply Moves.idle
      . simp only [move, hchunk, and_false, ↓reduceIte]
      . left
        simp only [Shared.push_mem, Verb.place]
        rw [if_neg (fun h => hchunk h.2.2.symm)]
      . intro hnot
        rw [hholds] at hnot
        simp at hnot

variable [Fintype W]

/-- An even lock word belongs to a lock that nobody holds. -/
theorem free_of_even (hinv : c.Inv init valid s) (h : isOdd (s.mem c.lockIdx) = false)
    : c.lock.Free s.hist := by
  intro w
  rw [← Bool.not_eq_true]
  intro hholds
  rw [hinv.held_word hholds] at h
  simp at h

theorem free_of_zero (hinv : c.Inv init valid s) (hcard : Fintype.card W < 2 ^ 62)
    (h : s.mem c.lockIdx = 0) : c.lock.Free s.hist ∧ ∀ w, c.lock.share w s.hist = 0 := by
  have hfree : c.lock.Free s.hist := free_of_even hinv (by rw [h]; rfl)
  have hsum := hinv.toInv.sum_share_le
  have hzero := congrArg BitVec.toNat (h.symm.trans (hinv.free_word hfree))
  rw [BitVec.toNat_ofNat, Nat.mod_eq_of_lt (by omega), show (0 : Word).toNat = 0 from rfl] at hzero
  refine ⟨hfree, ?_⟩
  intro w
  exact Finset.sum_eq_zero_iff.mp (by omega : ∑ w, c.lock.share w s.hist = 0) w (Finset.mem_univ w)

theorem free_of_share (hinv : c.Inv init valid s) {w : W} (h : c.lock.share w s.hist ≠ 0)
    : c.lock.Free s.hist := by
  intro w'
  rw [← Bool.not_eq_true]
  exact fun hholds => h (hinv.held_share hholds w)

theorem permits_of_permit (hinv : c.Inv init valid s) (hcard : Fintype.card W < 2 ^ 62)
    (h : c.Permit init valid s e) : c.lock.Permits init valid s e := by
  cases h.moves with
  | idle hmove hword hdata => exact .idle hmove hdata
  | acquire hmove hzero hmem =>
    obtain ⟨hfree, hshare⟩ := free_of_zero hinv hcard hzero
    exact .acquire hmove hfree hshare (keepsData_of_update hmem)
  | join hmove _ hshare hmem => exact .join hmove hshare (keepsData_of_update hmem)
  | leave hmove hshare hmem => exact .leave hmove hshare (keepsData_of_update hmem)
  | release hmove hholds hvalid hword => exact .release hmove hholds hvalid

theorem Inv.push (hinv : c.Inv init valid s) (hcard : Fintype.card W < 2 ^ 62)
    (h : c.Permit init valid s e) : c.Inv init valid (s.push e) := by
  have hpush := hinv.toInv.push (permits_of_permit hinv hcard h)
  have hsame (ha : c.move s.mem e ≠ .acquire) (hr : c.move s.mem e ≠ .release) (w : W)
      : c.lock.holds w (s.push e).hist = c.lock.holds w s.hist :=
    RwLock.holds_of_move ha hr
  have hkeep (hj : c.move s.mem e ≠ .join) (hl : c.move s.mem e ≠ .leave) (w : W)
      : c.lock.share w (s.push e).hist = c.lock.share w s.hist :=
    RwLock.share_of_move hj hl
  -- Whoever joins or leaves finds the lock free, and it stays so.
  have hcounted (hfree : c.lock.Free s.hist)
      (ha : c.move s.mem e ≠ .acquire) (hr : c.move s.mem e ≠ .release)
      (hword : (s.push e).mem c.lockIdx
        = BitVec.ofNat 64 (2 * ∑ w, c.lock.share w (s.push e).hist)) : c.Inv init valid (s.push e) := by
    have hnot (w : W) : c.lock.holds w (s.push e).hist ≠ true := by
      rw [hsame ha hr, hfree w]
      simp
    exact ⟨hpush, fun _ => hword, fun hholds => absurd hholds (hnot _),
      fun hholds => absurd hholds (hnot _)⟩
  cases h.moves with
  | idle hmove hword hdata =>
    have ha : c.move s.mem e ≠ .acquire := by simp [hmove]
    have hr : c.move s.mem e ≠ .release := by simp [hmove]
    have hshare := hkeep (by simp [hmove]) (by simp [hmove])
    refine ⟨hpush, ?_, ?_, ?_⟩
    . intro hfree
      have hfree' : c.lock.Free s.hist := fun w => by rw [← hsame ha hr, hfree w]
      have heven : isOdd (s.mem c.lockIdx) = false := by
        rw [hinv.free_word hfree', ← Bool.not_eq_true, isOdd_iff, BitVec.toNat_ofNat]
        omega
      rcases hword with hword | ⟨hodd, _⟩
      . rw [hword, hinv.free_word hfree', Finset.sum_congr rfl fun w _ => hshare w]
      . rw [heven] at hodd
        simp at hodd
    . intro w hholds
      rw [hsame ha hr] at hholds
      rcases hword with hword | ⟨_, hword⟩
      . rw [hword, hinv.held_word hholds]
      . rw [hword, isOdd_add_two, hinv.held_word hholds]
    . intro w hholds w'
      rw [hsame ha hr] at hholds
      rw [hshare, hinv.held_share hholds]
  | acquire hmove hzero hmem =>
    obtain ⟨hfree, hzeros⟩ := free_of_zero hinv hcard hzero
    refine ⟨hpush, ?_, ?_, ?_⟩
    . intro hfree'
      have := hfree' e.worker
      rw [RwLock.holds_acquire hmove, if_pos rfl] at this
      simp at this
    . intro w _
      rw [hmem, Function.update_self]
      rfl
    . intro _ _ w'
      rw [hkeep (by simp [hmove]) (by simp [hmove]), hzeros]
  | join hmove heven hshare hmem =>
    have hfree := free_of_even hinv heven
    apply hcounted hfree (by simp [hmove]) (by simp [hmove])
    rw [hmem, Function.update_self, hinv.free_word hfree, RwLock.sum_share_join hmove, Nat.mul_add,
      BitVec.ofNat_add]
    rfl
  | leave hmove hshare hmem =>
    have hfree := free_of_share hinv (w := e.worker) (by simp [hshare])
    apply hcounted hfree (by simp [hmove]) (by simp [hmove])
    rw [hmem, Function.update_self, hinv.free_word hfree, RwLock.sum_share_leave hmove hshare,
      Nat.mul_add, BitVec.ofNat_add, BitVec.add_assoc,
      show BitVec.ofNat 64 (2 * 1) + -2 = 0#64 from rfl, BitVec.add_zero]
  | release hmove hholds hvalid hword =>
    have hzeros (w : W) : c.lock.share w (s.push e).hist = 0 := by
      rw [hkeep (by simp [hmove]) (by simp [hmove]), hinv.held_share hholds]
    refine ⟨hpush, ?_, ?_, ?_⟩
    . intro _
      rw [hword, Finset.sum_eq_zero fun w _ => hzeros w]
      rfl
    . intro w hholds'
      rw [RwLock.holds_release hmove] at hholds'
      split at hholds'
      . simp at hholds'
      . next hne => exact absurd (hinv.holds_unique hholds hholds') hne
    . exact fun _ => hzeros

def protocol (c : TailLock) (init : Nat → Word)
    (valid : Op → (Nat → Word) → (Nat → Word) → Prop) (guard : Shared W β Op → Event W β Op → Prop)
    (hcard : Fintype.card W < 2 ^ 62) : Protocol W β Op where
  inv := c.Inv init valid
  guard := guard
  permit := c.Permit init valid
  inv_push := fun hinv _ hpermit => hinv.push hcard hpermit

theorem governs (guard : Shared W β Op → Event W β Op → Prop)
    (hcard : Fintype.card W < 2 ^ 62)
    : c.lock.Governs init valid (c.protocol init valid guard hcard) where
  inv := fun hinv => hinv.toInv
  permits := fun hinv _ hpermit => permits_of_permit hinv hcard hpermit

theorem inv_initial (hhist : s.hist = []) (hword : s.mem c.lockIdx = 0)
    : c.Inv (c.words s.mem) valid s := by
  refine ⟨RwLock.inv_initial hhist, ?_, ?_, ?_⟩
  . intro _
    simp [hhist, hword, RwLock.share]
  . intro w h
    simp [hhist, RwLock.holds] at h
  . intro w h
    simp [hhist, RwLock.holds] at h

theorem word_of_resting (hinv : c.Inv init valid s) (h : ∀ w, ∃ mine, c.lock.Resting w mine s)
    : s.mem c.lockIdx = 0 := by
  rw [hinv.free_word (RwLock.free_of_resting h), RwLock.sum_share_of_resting h]
  rfl

end TailLock
end Rdma
