import RdmaSync.Rdma.RwLock

/-!
This module contains the reader/writer lock whose word counts: a writer swaps zero for a large number
and subtracts it again, readers add one and subtract it again. The words behind the lock word are the
ones that it protects. Readers add one blindly, that is even while a writer holds the lock.
-/

namespace Rdma

variable {W κ β ε α Op : Type}

structure CounterLock where
  addr : Nat
  count : Nat
  exclusive : Word
  addr_aligned : addr % 8 = 0
  exclusive_gt : 1 < exclusive.toNat
  exclusive_le : 2 * exclusive.toNat ≤ 2 ^ 64

namespace CounterLock

variable (c : CounterLock)

def base : Nat := c.addr / 8

def words (m : Mem) (i : Nat) : Word := m (c.base + 1 + i)

/-- How an event moves the lock. -/
def move (m : Mem) (e : Event W β Op) : LockMove :=
  match e.verb with
  | .compareSwap expected desired _ remoteOffset =>
    if remoteOffset = c.addr ∧ expected = 0 ∧ desired = c.exclusive ∧ load64 m remoteOffset = 0 then
      .acquire
    else
      .idle
  | .fetchAdd toAdd _ remoteOffset =>
    if remoteOffset = c.addr then
      if toAdd = 1 then .join
      else if toAdd = -1 then .leave
      else if toAdd = -c.exclusive then .release
      else .idle
    else
      .idle
  | .read .. | .write .. => .idle

def lock : RwLock W β Op where
  first := c.base + 1
  count := c.count
  move := c.move
  move_read := by
    intro m e h
    cases hv : e.verb with
    | read => simp only [move, hv]
    | _ => simp [Verb.isRead, hv] at h

@[simp]
theorem lock_move (m : Mem) (e : Event W β Op) : c.lock.move m e = c.move m e := by
  rfl

def Away (v : Verb β) : Prop :=
  v.Avoids c.base (c.base + c.count)

theorem away_read (memAddr : β × Nat) (remoteOffset bytes : Nat)
    : c.Away (.read memAddr remoteOffset bytes) := by
  trivial

theorem move_of_away {e : Event W β Op} (h : c.Away e.verb) (m : Mem) : c.move m e = .idle := by
  have hne {off : Nat} (hoff : off / 8 < c.base ∨ c.base + c.count < off / 8) : off ≠ c.addr := by
    rintro rfl
    unfold base at hoff
    omega
  unfold Away at h
  cases hv : e.verb with
  | read | write => simp only [move, hv]
  | compareSwap expected desired memAddr off =>
    rw [hv] at h
    simp only [move, hv, hne h.2, false_and, ↓reduceIte]
  | fetchAdd toAdd memAddr off =>
    rw [hv] at h
    simp only [move, hv, hne h.2, ↓reduceIte]

theorem keepsData_of_update {c : CounterLock} {s : Shared W β Op} {e : Event W β Op}
    {v : Word} (hmem : (s.push e).mem = Function.update s.mem c.base v)
    : c.lock.KeepsData s e := by
  intro i _
  show (s.push e).mem (c.base + 1 + i) = s.mem (c.base + 1 + i)
  rw [hmem, Function.update_of_ne (by omega)]

theorem neg_one_ne_one : (-1 : Word) ≠ 1 := by
  decide

theorem move_leave {c : CounterLock} {e : Event W β Op} {memAddr : β × Nat}
    (h : e.verb = .fetchAdd (-1) memAddr c.addr) (m : Mem) : c.lock.move m e = .leave := by
  simp only [lock_move, move, h, neg_one_ne_one, ↓reduceIte]

theorem neg_exclusive_toNat : (-c.exclusive).toNat = 2 ^ 64 - c.exclusive.toNat := by
  have := c.exclusive_gt
  have := c.exclusive_le
  rw [BitVec.toNat_neg]
  omega

theorem neg_exclusive_ne_one : -c.exclusive ≠ 1 := by
  have := c.exclusive_gt
  have := c.exclusive_le
  have htoNat := c.neg_exclusive_toNat
  intro h
  rw [h, show (1 : Word).toNat = 1 from rfl] at htoNat
  omega

theorem neg_exclusive_ne_neg_one : -c.exclusive ≠ -1 := by
  have := c.exclusive_gt
  intro h
  rw [BitVec.neg_inj] at h
  rw [h] at this
  simp at this

variable [DecidableEq W] (init : Nat → Word)
  (valid : Op → (Nat → Word) → (Nat → Word) → Prop)

/-- What a worker has to show before it causes an event. -/
def Permit (s : Shared W β Op) (e : Event W β Op) : Prop :=
  c.Away e.verb ∨
    match e.verb with
    | .read .. => False
    | .compareSwap expected desired _ remoteOffset =>
      remoteOffset = c.addr ∧ expected = 0 ∧ desired = c.exclusive
    | .fetchAdd toAdd _ remoteOffset =>
      remoteOffset = c.addr ∧
      (toAdd = 1 ∧ c.lock.share e.worker s.hist = 0 ∨
        toAdd = -1 ∧ c.lock.share e.worker s.hist = 1 ∨
        toAdd = -c.exclusive ∧ c.lock.holds e.worker s.hist = true ∧
          valid e.op (c.lock.latest init s.hist) (c.words s.mem))
    | .write _ remoteOffset _ =>
      c.base < remoteOffset / 8 ∧ c.lock.holds e.worker s.hist = true

/-- The invariant of the lock: its word says who holds and how many share it. -/
structure Inv [Fintype W] (s : Shared W β Op) : Prop extends c.lock.Inv init valid s where
  free_word : c.lock.Free s.hist →
    s.mem c.base = BitVec.ofNat 64 (∑ w, c.lock.share w s.hist)
  held_word : ∀ {w}, c.lock.holds w s.hist = true →
    s.mem c.base = c.exclusive + BitVec.ofNat 64 (∑ w, c.lock.share w s.hist)

variable {c init valid} {s : Shared W β Op} {e : Event W β Op}

inductive Moves (c : CounterLock) (init : Nat → Word)
    (valid : Op → (Nat → Word) → (Nat → Word) → Prop) (s : Shared W β Op) (e : Event W β Op)
    : Prop where
  | idle (hmove : c.move s.mem e = .idle) (hword : (s.push e).mem c.base = s.mem c.base)
    (hdata : c.lock.holds e.worker s.hist = false →
      ∀ i, i < c.count → (s.push e).mem (c.base + 1 + i) = s.mem (c.base + 1 + i))
  | acquire (hmove : c.move s.mem e = .acquire) (hzero : s.mem c.base = 0)
    (hmem : (s.push e).mem = Function.update s.mem c.base c.exclusive)
  | join (hmove : c.move s.mem e = .join) (hshare : c.lock.share e.worker s.hist = 0)
    (hmem : (s.push e).mem = Function.update s.mem c.base (s.mem c.base + 1))
  | leave (hmove : c.move s.mem e = .leave) (hshare : c.lock.share e.worker s.hist = 1)
    (hmem : (s.push e).mem = Function.update s.mem c.base (s.mem c.base + -1))
  | release (hmove : c.move s.mem e = .release) (hholds : c.lock.holds e.worker s.hist = true)
    (hvalid : valid e.op (c.lock.latest init s.hist) (c.words s.mem))
    (hmem : (s.push e).mem = Function.update s.mem c.base (s.mem c.base + -c.exclusive))

theorem load_addr (m : Mem) : load64 m c.addr = m c.base := by
  rw [load64_aligned _ c.addr_aligned, base]

theorem store_addr (m : Mem) (v : Word) : store64 m c.addr v = Function.update m c.base v := by
  rw [store64_aligned _ _ c.addr_aligned, base]

/-- Who leaves the readers neither moves the writers' lock nor changes what it protects. -/
theorem still_of_leave {memAddr : β × Nat} (h : e.verb = .fetchAdd (-1) memAddr c.addr)
    : c.lock.Still s e := by
  have hmove := move_leave h s.mem
  apply RwLock.still_of_move (by rw [hmove]; simp) (by rw [hmove]; simp)
  apply keepsData_of_update (v := s.mem c.base + -1)
  simp only [Shared.push_mem, Verb.place, h, load_addr, store_addr]

theorem moves_of_away (h : c.Away e.verb) : c.Moves init valid s e := by
  apply Moves.idle (c.move_of_away h _)
  . exact Verb.place_of_avoids h (Nat.le_refl _) (Nat.le_add_right _ _) _ _ _
  . intro _ i hi
    exact Verb.place_of_avoids h (by omega) (by omega) _ _ _

theorem Permit.moves (h : c.Permit init valid s e) : c.Moves init valid s e := by
  rcases h with h | h
  . exact moves_of_away h
  rcases e with ⟨w, op, v, payload, chunk⟩
  cases v with
  | read => exact h.elim
  | compareSwap expected desired memAddr off =>
    obtain ⟨rfl, rfl, rfl⟩ := h
    by_cases hzero : s.mem c.base = 0
    . apply Moves.acquire _ hzero
      . simp only [Shared.push_mem, Verb.place, load_addr, hzero, ↓reduceIte, store_addr]
      . simp only [move, load_addr, hzero, and_self, ↓reduceIte]
    . have hmem : (s.push ⟨w, op, .compareSwap 0 c.exclusive memAddr c.addr, payload, chunk⟩).mem
          = s.mem := by
        simp only [Shared.push_mem, Verb.place, load_addr, hzero, ↓reduceIte]
      apply Moves.idle
      . simp only [move, load_addr, hzero, and_false, ↓reduceIte]
      . rw [hmem]
      . intro _ i _
        rw [hmem]
  | fetchAdd toAdd memAddr off =>
    obtain ⟨rfl, h⟩ := h
    rcases h with ⟨rfl, hshare⟩ | ⟨rfl, hshare⟩ | ⟨rfl, hholds, hvalid⟩
    . apply Moves.join _ hshare
      . simp only [Shared.push_mem, Verb.place, load_addr, store_addr]
      . simp only [move, ↓reduceIte]
    . apply Moves.leave _ hshare
      . simp only [Shared.push_mem, Verb.place, load_addr, store_addr]
      . simp only [move, neg_one_ne_one, ↓reduceIte]
    . apply Moves.release _ hholds hvalid
      . simp only [Shared.push_mem, Verb.place, load_addr, store_addr]
      . simp only [move, c.neg_exclusive_ne_one, c.neg_exclusive_ne_neg_one, ↓reduceIte]
  | write memAddr off bytes =>
    obtain ⟨hoff, hholds⟩ := h
    apply Moves.idle
    . rfl
    . simp only [Shared.push_mem, Verb.place]
      rw [if_neg (by omega)]
    . intro hnot
      rw [hholds] at hnot
      simp at hnot

variable [Fintype W]

theorem sum_share_lt (hinv : c.Inv init valid s) (hcard : Fintype.card W < c.exclusive.toNat)
    : ∑ w, c.lock.share w s.hist < c.exclusive.toNat := by
  have := hinv.toInv.sum_share_le
  omega

/-- The lock word is below `exclusive` exactly if nobody holds the lock. -/
theorem free_iff_lt (hinv : c.Inv init valid s) (hcard : Fintype.card W < c.exclusive.toNat)
    : c.lock.Free s.hist ↔ (s.mem c.base).toNat < c.exclusive.toNat := by
  have hsum := sum_share_lt hinv hcard
  have hle := c.exclusive_le
  constructor
  . intro hfree
    rw [hinv.free_word hfree, BitVec.toNat_ofNat, Nat.mod_eq_of_lt (by omega)]
    exact hsum
  . intro hlt w
    rw [← Bool.not_eq_true]
    intro hholds
    rw [hinv.held_word hholds, BitVec.toNat_add, BitVec.toNat_ofNat,
      Nat.mod_eq_of_lt (a := ∑ w, c.lock.share w s.hist) (by omega),
      Nat.mod_eq_of_lt (by omega)] at hlt
    omega

theorem word_toNat (hinv : c.Inv init valid s) (hcard : Fintype.card W < c.exclusive.toNat)
    : (s.mem c.base).toNat = (if ∃ w, c.lock.holds w s.hist = true then c.exclusive.toNat else 0)
        + ∑ w, c.lock.share w s.hist := by
  have hsum := sum_share_lt hinv hcard
  have hle := c.exclusive_le
  split
  . next h =>
    obtain ⟨w, hholds⟩ := h
    rw [hinv.held_word hholds, BitVec.toNat_add, BitVec.toNat_ofNat,
      Nat.mod_eq_of_lt (a := ∑ w, c.lock.share w s.hist) (by omega), Nat.mod_eq_of_lt (by omega)]
  . next h =>
    have hfree : c.lock.Free s.hist := by
      intro w
      rw [← Bool.not_eq_true]
      exact fun hholds => h ⟨w, hholds⟩
    rw [hinv.free_word hfree, BitVec.toNat_ofNat, Nat.mod_eq_of_lt (by omega), Nat.zero_add]

theorem word_of_resting (hinv : c.Inv init valid s) (h : ∀ w, ∃ mine, c.lock.Resting w mine s)
    : s.mem c.base = 0 := by
  rw [hinv.free_word (RwLock.free_of_resting h), RwLock.sum_share_of_resting h]
  rfl

theorem free_of_zero (hinv : c.Inv init valid s) (hcard : Fintype.card W < c.exclusive.toNat)
    (h : s.mem c.base = 0) : c.lock.Free s.hist ∧ ∀ w, c.lock.share w s.hist = 0 := by
  have hgt := c.exclusive_gt
  have hfree : c.lock.Free s.hist := by
    rw [free_iff_lt hinv hcard, h, show (0 : Word).toNat = 0 from rfl]
    omega
  refine ⟨hfree, ?_⟩
  have hsum := sum_share_lt hinv hcard
  have hle := c.exclusive_le
  have hzero := congrArg BitVec.toNat (h.symm.trans (hinv.free_word hfree))
  rw [BitVec.toNat_ofNat, Nat.mod_eq_of_lt (by omega)] at hzero
  intro w
  have := (Finset.sum_eq_zero_iff.mp hzero.symm) w (Finset.mem_univ w)
  exact this

theorem permits_of_permit (hinv : c.Inv init valid s)
    (hcard : Fintype.card W < c.exclusive.toNat) (h : c.Permit init valid s e)
    : c.lock.Permits init valid s e := by
  cases h.moves with
  | idle hmove hword hdata => exact .idle hmove hdata
  | acquire hmove hzero hmem =>
    obtain ⟨hfree, hshare⟩ := free_of_zero hinv hcard hzero
    exact .acquire hmove hfree hshare (keepsData_of_update hmem)
  | join hmove hshare hmem => exact .join hmove hshare (keepsData_of_update hmem)
  | leave hmove hshare hmem => exact .leave hmove hshare (keepsData_of_update hmem)
  | release hmove hholds hvalid hmem =>
    have hwords : c.words (s.push e).mem = c.words s.mem := by
      funext i
      rw [words, hmem, Function.update_of_ne (by omega)]
      rfl
    rw [← hwords] at hvalid
    exact .release hmove hholds hvalid

theorem Inv.push_of_move (hinv : c.Inv init valid s) (hpush : c.lock.Inv init valid (s.push e))
    (ha : c.move s.mem e ≠ .acquire) (hr : c.move s.mem e ≠ .release)
    (hword : ∀ x, s.mem c.base = x + BitVec.ofNat 64 (∑ w, c.lock.share w s.hist) →
      (s.push e).mem c.base = x + BitVec.ofNat 64 (∑ w, c.lock.share w (s.push e).hist))
    : c.Inv init valid (s.push e) := by
  refine ⟨hpush, ?_, ?_⟩
  . intro hfree
    have hfree' : c.lock.Free s.hist := by
      intro w
      rw [← RwLock.holds_of_move ha hr]
      exact hfree w
    have := hword 0#64
    rw [BitVec.zero_add, BitVec.zero_add] at this
    exact this (hinv.free_word hfree')
  . intro w hholds
    rw [RwLock.holds_of_move ha hr] at hholds
    exact hword _ (hinv.held_word hholds)

theorem Inv.push (hinv : c.Inv init valid s) (hcard : Fintype.card W < c.exclusive.toNat)
    (h : c.Permit init valid s e) : c.Inv init valid (s.push e) := by
  have hpush := hinv.toInv.push (permits_of_permit hinv hcard h)
  have hsum (hj : c.move s.mem e ≠ .join) (hl : c.move s.mem e ≠ .leave)
      : ∑ w, c.lock.share w (s.push e).hist = ∑ w, c.lock.share w s.hist :=
    Finset.sum_congr rfl fun w _ => RwLock.share_of_move hj hl
  cases h.moves with
  | idle hmove hword hdata =>
    apply hinv.push_of_move hpush (by simp [hmove]) (by simp [hmove])
    intro x hx
    rw [hword, hx, hsum (by simp [hmove]) (by simp [hmove])]
  | join hmove hshare hmem =>
    apply hinv.push_of_move hpush (by simp [hmove]) (by simp [hmove])
    intro x hx
    rw [hmem, Function.update_self, hx, RwLock.sum_share_join hmove, BitVec.ofNat_add, BitVec.add_assoc]
    rfl
  | leave hmove hshare hmem =>
    apply hinv.push_of_move hpush (by simp [hmove]) (by simp [hmove])
    intro x hx
    rw [hmem, Function.update_self, hx, RwLock.sum_share_leave hmove hshare, BitVec.ofNat_add,
      BitVec.add_assoc, BitVec.add_assoc, show 1#64 + -1 = 0#64 from rfl, BitVec.add_zero]
  | acquire hmove hzero hmem =>
    obtain ⟨hfree, hshare⟩ := free_of_zero hinv hcard hzero
    refine ⟨hpush, ?_, ?_⟩
    . intro hfree'
      have := hfree' e.worker
      rw [RwLock.holds_acquire hmove, if_pos rfl] at this
      simp at this
    . intro w _
      rw [hmem, Function.update_self, hsum (by simp [hmove]) (by simp [hmove]),
        Finset.sum_eq_zero fun w _ => hshare w]
      exact (BitVec.add_zero _).symm
  | release hmove hholds hvalid hmem =>
    refine ⟨hpush, ?_, ?_⟩
    . intro _
      rw [hmem, Function.update_self, hinv.held_word hholds,
        hsum (by simp [hmove]) (by simp [hmove]), BitVec.add_comm c.exclusive, BitVec.add_assoc,
        BitVec.add_neg_eq_sub, BitVec.sub_self, BitVec.add_zero]
    . intro w hholds'
      rw [RwLock.holds_release hmove] at hholds'
      split at hholds'
      . simp at hholds'
      . next hne =>
        exact absurd (hinv.holds_unique hholds hholds') hne

def protocol (c : CounterLock) (init : Nat → Word)
    (valid : Op → (Nat → Word) → (Nat → Word) → Prop) (guard : Shared W β Op → Event W β Op → Prop)
    (hcard : Fintype.card W < c.exclusive.toNat) : Protocol W β Op where
  inv := c.Inv init valid
  guard := guard
  permit := c.Permit init valid
  inv_push := fun hinv _ hpermit => hinv.push hcard hpermit

theorem governs (guard : Shared W β Op → Event W β Op → Prop)
    (hcard : Fintype.card W < c.exclusive.toNat)
    : c.lock.Governs init valid (c.protocol init valid guard hcard) where
  inv := fun hinv => hinv.toInv
  permits := fun hinv _ hpermit => permits_of_permit hinv hcard hpermit

theorem inv_initial (hhist : s.hist = []) (hword : s.mem c.base = 0)
    : c.Inv (c.words s.mem) valid s := by
  refine ⟨RwLock.inv_initial hhist, ?_, ?_⟩
  . intro _
    simp [hhist, hword, RwLock.share]
  . intro w h
    simp [hhist, RwLock.holds] at h

end CounterLock
end Rdma
