import RdmaSync.MPMCQueue.Impl

/-!
This module contains which slot and which turn of it a ticket is for, and the steps of the queue.
-/

namespace MPMCQueue

open Threads Refinement

namespace Config

variable (c : Config)

theorem capacity_pos : 0 < c.capacity.toNat := by
  have h := c.one_le
  have hone : (1 : BitVec 64).toNat = 1 := rfl
  rw [BitVec.lt_def, hone] at h
  omega

theorem exists_two_pow (h : c.powerTwo = true) : ∃ k, k < 64 ∧ c.capacity.toNat = 2 ^ k := by
  obtain ⟨k, hk⟩ := Helper.powerOfTwo_iff.mp (c.isPowerTwo h)
  have hlt := c.capacity.isLt
  rw [hk] at hlt
  exact ⟨k, (Nat.pow_lt_pow_iff_right (by omega)).mp hlt, hk⟩

theorem toNat_bits {k : Nat} (hk : k < 64) (hcap : c.capacity.toNat = 2 ^ k) : c.bits.toNat = k := by
  have hne : c.capacity ≠ 0 := by
    intro h
    have := c.capacity_pos
    rw [h] at this
    exact absurd this (by decide)
  have hle := BitVec.two_pow_sub_clz_le_toNat_of_ne_zero (by omega) hne
  have hlt := BitVec.toNat_lt_two_pow_sub_clz (x := c.capacity)
  have hclz := BitVec.clz_lt_iff_ne_zero.mpr hne
  rw [hcap] at hle hlt
  have hle' := (Nat.pow_le_pow_iff_right (by omega)).mp hle
  have hlt' := (Nat.pow_lt_pow_iff_right (by omega)).mp hlt
  have hclz' : c.capacity.clz.toNat < 64 := hclz
  have hone : (1 : BitVec 64).toNat = 1 := rfl
  have hwidth : (64 : BitVec 64).toNat = 64 := rfl
  rw [bits, BitVec.toNat_sub, BitVec.toNat_sub, hone, hwidth]
  omega

theorem toNat_idx (i : BitVec 64) : (c.idx i).toNat = i.toNat % c.capacity.toNat := by
  unfold idx
  split
  . next h =>
    obtain ⟨k, hk, hcap⟩ := c.exists_two_pow h
    rw [BitVec.toNat_and, Helper.toNat_sub_one c.capacity_pos, hcap,
      Nat.and_two_pow_sub_one_eq_mod]
  . exact BitVec.toNat_umod

theorem toNat_turn (i : BitVec 64) : (c.turn i).toNat = i.toNat / c.capacity.toNat := by
  unfold turn
  split
  . next h =>
    obtain ⟨k, hk, hcap⟩ := c.exists_two_pow h
    rw [BitVec.ushiftRight_eq', BitVec.toNat_ushiftRight, c.toNat_bits hk hcap, hcap,
      Nat.shiftRight_eq_div_pow]
  . exact BitVec.toNat_udiv

theorem idx_lt (i : BitVec 64) : (c.idx i).toNat < c.capacity.toNat := by
  rw [toNat_idx]
  exact Nat.mod_lt _ c.capacity_pos

end Config

def Side.parity (side : Side) : Nat :=
  match side with
  | .push => 0
  | .pop => 1

namespace Config

variable (c : Config) {side side' : Side} {i j : BitVec 64}

/-- The turn of its slot that a ticket is for. -/
def level (side : Side) (i : BitVec 64) : Nat :=
  2 * (c.turn i).toNat + side.parity

def place (side : Side) (i : BitVec 64) : BitVec 64 × Nat :=
  (c.idx i, c.level side i)

/-- No two tickets are for the same turn of a slot. -/
theorem place_inj (h : c.place side i = c.place side' j) : side = side' ∧ i = j := by
  obtain ⟨hidx, hlevel⟩ := Prod.mk.inj h
  have hmod := congrArg BitVec.toNat hidx
  have hi := Nat.div_add_mod i.toNat c.capacity.toNat
  have hj := Nat.div_add_mod j.toNat c.capacity.toNat
  simp only [toNat_idx] at hmod
  simp only [level, toNat_turn] at hlevel
  have hside : side.parity = side'.parity := by
    cases side <;> cases side' <;> simp only [Side.parity] at * <;> omega
  have hdiv : i.toNat / c.capacity.toNat = j.toNat / c.capacity.toNat := by omega
  refine ⟨?_, BitVec.eq_of_toNat_eq ?_⟩
  . cases side <;> cases side' <;> first | rfl | simp [Side.parity] at hside
  . rw [← hi, ← hj, hdiv, hmod]

theorem idx_turn_of_eq {n : Nat} {k : BitVec 64}
    (hk : k.toNat = n / 2 * c.capacity.toNat + i.toNat) (hi : i < c.capacity)
    : c.idx k = i ∧ (c.turn k).toNat = n / 2 := by
  have hlt : i.toNat < c.capacity.toNat := hi
  have hmod : k.toNat % c.capacity.toNat = i.toNat := by
    rw [hk, Nat.add_comm, Nat.add_mul_mod_self_right, Nat.mod_eq_of_lt hlt]
  have hdiv : k.toNat / c.capacity.toNat = n / 2 := by
    rw [hk, Nat.add_comm, Nat.add_mul_div_right _ _ c.capacity_pos, Nat.div_eq_of_lt hlt,
      Nat.zero_add]
  refine ⟨BitVec.eq_of_toNat_eq ?_, ?_⟩
  . rw [toNat_idx, hmod]
  . rw [toNat_turn, hdiv]

theorem place_of_odd {n : Nat} {k : BitVec 64} (hk : k.toNat = n / 2 * c.capacity.toNat + i.toNat)
    (hi : i < c.capacity) (hodd : n % 2 ≠ 0) : c.place .pop k = (i, n) := by
  obtain ⟨hidx, hturn⟩ := c.idx_turn_of_eq hk hi
  refine Prod.ext hidx ?_
  show 2 * (c.turn k).toNat + 1 = n
  omega

theorem place_of_even {n : Nat} {k : BitVec 64} (hk : k.toNat = n / 2 * c.capacity.toNat + i.toNat)
    (hi : i < c.capacity) (heven : n % 2 = 0) : c.place .push k = (i, n) := by
  obtain ⟨hidx, hturn⟩ := c.idx_turn_of_eq hk hi
  refine Prod.ext hidx ?_
  show 2 * (c.turn k).toNat + 0 = n
  omega

theorem idx_of_lt (hi : i < c.capacity) : c.idx i = i := by
  apply BitVec.eq_of_toNat_eq
  rw [toNat_idx, Nat.mod_eq_of_lt hi]

theorem exists_place {n : Nat} (hle : n ≤ c.level side j)
    : ∃ side' k, c.place side' k = (c.idx j, n) ∧ k ≤ j := by
  have hdiv := Nat.div_add_mod j.toNat c.capacity.toNat
  have hlevel : c.level side j = 2 * (j.toNat / c.capacity.toNat) + side.parity := by
    rw [level, toNat_turn]
  have hparity : side.parity ≤ 1 := by cases side <;> decide
  have hround : n / 2 * c.capacity.toNat ≤ c.capacity.toNat * (j.toNat / c.capacity.toNat) := by
    rw [Nat.mul_comm]
    exact Nat.mul_le_mul_left _ (by omega)
  have hk : (BitVec.ofNat 64 (n / 2 * c.capacity.toNat + (c.idx j).toNat)).toNat
      = n / 2 * c.capacity.toNat + (c.idx j).toNat := by
    have hisLt := j.isLt
    rw [BitVec.toNat_ofNat, Nat.mod_eq_of_lt]
    rw [toNat_idx]
    omega
  have hidx := c.toNat_idx j
  by_cases hodd : n % 2 = 0
  . refine ⟨.push, _, c.place_of_even hk (c.idx_lt j) hodd, ?_⟩
    rw [BitVec.le_def, hk]
    omega
  . refine ⟨.pop, _, c.place_of_odd hk (c.idx_lt j) hodd, ?_⟩
    rw [BitVec.le_def, hk]
    omega

/-- A push that comes after a pop from the same slot is at least one round behind it. -/
theorem add_capacity_le (hidx : c.idx i = c.idx j) (hlt : c.level .pop i < c.level .push j)
    : i.toNat + c.capacity.toNat ≤ j.toNat := by
  have hmod := congrArg BitVec.toNat hidx
  rw [toNat_idx, toNat_idx] at hmod
  have hi := Nat.div_add_mod i.toNat c.capacity.toNat
  have hj := Nat.div_add_mod j.toNat c.capacity.toNat
  have hpop : c.level .pop i = 2 * (c.turn i).toNat + 1 := rfl
  have hpush : c.level .push j = 2 * (c.turn j).toNat := rfl
  rw [hpop, hpush, toNat_turn, toNat_turn] at hlt
  have hround := Nat.mul_le_mul_left c.capacity.toNat
    (show i.toNat / c.capacity.toNat + 1 ≤ j.toNat / c.capacity.toNat by omega)
  rw [Nat.mul_succ] at hround
  omega

theorem level_sub (h : c.capacity.toNat ≤ i.toNat)
    : (i - c.capacity).toNat = i.toNat - c.capacity.toNat ∧ c.idx (i - c.capacity) = c.idx i ∧
        c.level .pop (i - c.capacity) + 1 = c.level .push i := by
  have hpos := c.capacity_pos
  have hi := i.isLt
  have hsub : (i - c.capacity).toNat = i.toNat - c.capacity.toNat := by
    rw [BitVec.toNat_sub]
    omega
  refine ⟨hsub, BitVec.eq_of_toNat_eq ?_, ?_⟩
  . rw [toNat_idx, toNat_idx, hsub, ← Nat.mod_eq_sub_mod h]
  . have hdiv := Nat.div_eq_sub_div hpos h
    have hpop : c.level .pop (i - c.capacity) = 2 * (c.turn (i - c.capacity)).toNat + 1 := rfl
    have hpush : c.level .push i = 2 * (c.turn i).toNat := rfl
    rw [hpop, hpush, toNat_turn, toNat_turn, hsub]
    omega

theorem turn_lt (h : i.toNat < 2 ^ 63) : (c.turn i).toNat < 2 ^ 63 := by
  rw [toNat_turn]
  exact Nat.lt_of_le_of_lt (Nat.div_le_self _ _) h

theorem toNat_turn_mul_two (h : i.toNat < 2 ^ 63) : (c.turn i * 2).toNat = c.level .push i := by
  have hlt := c.turn_lt h
  have htwo : (2 : BitVec 64).toNat = 2 := rfl
  rw [BitVec.toNat_mul, htwo, level, Side.parity]
  omega

theorem toNat_turn_add_one (h : i.toNat < 2 ^ 63)
    : (c.turn i * 2 + 1).toNat = c.level .pop i ∧ c.level .pop i = c.level .push i + 1 := by
  have hlt := c.turn_lt h
  have hone : (1 : BitVec 64).toNat = 1 := rfl
  have hlevel : c.level .pop i = c.level .push i + 1 := rfl
  have hpush : c.level .push i = 2 * (c.turn i).toNat := rfl
  rw [BitVec.toNat_add, c.toNat_turn_mul_two h, hone]
  omega

theorem toNat_turn_add_two (h : i.toNat + 1 < 2 ^ 63)
    : (c.turn i * 2 + 2).toNat = c.level .pop i + 1 := by
  have hle : (c.turn i).toNat ≤ i.toNat := by
    rw [toNat_turn]
    exact Nat.div_le_self _ _
  have htwo : (2 : BitVec 64).toNat = 2 := rfl
  have hlevel : c.level .pop i = 2 * (c.turn i).toNat + 1 := rfl
  have hpush : c.level .push i = 2 * (c.turn i).toNat := rfl
  rw [BitVec.toNat_add, c.toNat_turn_mul_two (by omega), htwo]
  omega

theorem ready_eq_iff {α : Type} (r : Request α) (h : i.toNat < 2 ^ 63) {turn : BitVec 64}
    : r.ready c i = turn ↔ turn.toNat = c.level r.side i := by
  rw [← BitVec.toNat_inj]
  cases r with
  | push v =>
    rw [Request.ready, c.toNat_turn_mul_two h]
    exact eq_comm
  | pop =>
    rw [Request.ready, (c.toNat_turn_add_one h).1]
    exact eq_comm

end Config

def Request.elements {α : Type} (r : Request α) : List α :=
  match r with
  | .push v => [v]
  | .pop => []

namespace Pc

variable {α : Type}

def ticket (pc : Pc α) : Option (Side × BitVec 64) :=
  match pc with
  | .spinning r i => some (r.side, i)
  | .constructing _ i | .filling _ i => some (.push, i)
  | .moving i | .destroying _ i | .emptying _ i => some (.pop, i)
  | _ => none

/-- The slot that a thread accesses, which it does when its turn has come. -/
def accesses (c : Config) (pc : Pc α) : Option (BitVec 64) :=
  match pc with
  | .constructing _ i | .filling _ i | .moving i | .destroying _ i | .emptying _ i =>
    some (c.idx i)
  | _ => none

end Pc

namespace Queue

variable {P α : Type} [DecidableEq P] {c : Config}

section Frame

variable (s : Queue P α c) (t : P) (pc : Pc α) (i : BitVec 64) (x : Slot α) (side : Side)

@[simp]
theorem pc_goto_self : (s.goto t pc).pc t = pc := by
  simp [goto]

theorem pc_goto (u : P) : (s.goto t pc).pc u = if u = t then pc else s.pc u := by
  by_cases h : u = t <;> simp [goto, h]

@[simp]
theorem slot_goto : (s.goto t pc).slot = s.slot := by
  rfl

@[simp]
theorem counter_goto : (s.goto t pc).counter side = s.counter side := by
  cases side <;> rfl

omit [DecidableEq P] in
@[simp]
theorem pc_setSlot : (s.setSlot i x).pc = s.pc := by
  rfl

omit [DecidableEq P] in
@[simp]
theorem counter_setSlot : (s.setSlot i x).counter side = s.counter side := by
  cases side <;> rfl

omit [DecidableEq P] in
theorem slot_setSlot (j : BitVec 64) : (s.setSlot i x).slot j = if j = i then x else s.slot j := by
  by_cases h : j = i <;> simp [setSlot, h]

omit [DecidableEq P] in
@[simp]
theorem pc_advance : (s.advance side).pc = s.pc := by
  cases side <;> rfl

omit [DecidableEq P] in
@[simp]
theorem slot_advance : (s.advance side).slot = s.slot := by
  cases side <;> rfl

omit [DecidableEq P] in
theorem counter_advance (side' : Side)
    : (s.advance side).counter side'
        = if side' = side then s.counter side' + 1 else s.counter side' := by
  cases side <;> cases side' <;> rfl

end Frame

/-- The steps of the queue, each with the event that it emits and the elements that get a ticket. -/
inductive Moves (s : Queue P α c) : Option (Event P α) → List α → Queue P α c → Prop where
  | call (t : P) (call : Call α) (hpc : s.pc t = .idle)
    : Moves s (some (.call t call)) [] (s.goto t (.called call))
  | start (t : P) (r : Request α) (hpc : s.pc t = .called ⟨r, true⟩)
    : Moves s none [] (s.goto t (.testing r (s.counter r.side)))
  | take (t : P) (r : Request α) (hpc : s.pc t = .called ⟨r, false⟩)
    : Moves s none r.elements ((s.advance r.side).goto t (.spinning r (s.counter r.side)))
  | wait : Moves s none [] s
  | enter (t : P) (r : Request α) (i : BitVec 64) (hpc : s.pc t = .spinning r i)
    (hready : r.ready c i = (s.slot (c.idx i)).turn) : Moves s none [] (s.goto t (r.access i))
  | found (t : P) (r : Request α) (i : BitVec 64) (hpc : s.pc t = .testing r i)
    (hready : r.ready c i = (s.slot (c.idx i)).turn) : Moves s none [] (s.goto t (.exchanging r i))
  | missed (t : P) (r : Request α) (i : BitVec 64) (hpc : s.pc t = .testing r i)
    (hready : r.ready c i ≠ (s.slot (c.idx i)).turn) : Moves s none [] (s.goto t (.reloading r i))
  | exchange (t : P) (r : Request α) (hpc : s.pc t = .exchanging r (s.counter r.side))
    : Moves s none r.elements ((s.advance r.side).goto t (r.access (s.counter r.side)))
  | raced (t : P) (r : Request α) (i : BitVec 64) (hpc : s.pc t = .exchanging r i)
    (hne : s.counter r.side ≠ i) : Moves s none [] (s.goto t (.testing r (s.counter r.side)))
  | fail (t : P) (r : Request α) (hpc : s.pc t = .reloading r (s.counter r.side))
    : Moves s none [] (s.goto t (.returned .failed))
  | retry (t : P) (r : Request α) (i : BitVec 64) (hpc : s.pc t = .reloading r i)
    (hne : s.counter r.side ≠ i) : Moves s none [] (s.goto t (.testing r (s.counter r.side)))
  | construct (t : P) (v : α) (i : BitVec 64) (hpc : s.pc t = .constructing v i)
    : Moves s none []
        ((s.setSlot (c.idx i) { s.slot (c.idx i) with storage := some v }).goto t (.filling v i))
  | fill (t : P) (v : α) (i : BitVec 64) (hpc : s.pc t = .filling v i)
    : Moves s none []
        ((s.setSlot (c.idx i) { s.slot (c.idx i) with turn := c.turn i * 2 + 1 }).goto t
          (.returned .pushed))
  | move (t : P) (v : α) (i : BitVec 64) (hpc : s.pc t = .moving i)
    (hstorage : (s.slot (c.idx i)).storage = some v)
    : Moves s none [] (s.goto t (.destroying v i))
  | destroy (t : P) (v : α) (i : BitVec 64) (hpc : s.pc t = .destroying v i)
    : Moves s none []
        ((s.setSlot (c.idx i) { s.slot (c.idx i) with storage := none }).goto t (.emptying v i))
  | empty (t : P) (v : α) (i : BitVec 64) (hpc : s.pc t = .emptying v i)
    : Moves s none []
        ((s.setSlot (c.idx i) { s.slot (c.idx i) with turn := c.turn i * 2 + 2 }).goto t
          (.returned (.popped v)))
  | ret (t : P) (res : Result α) (hpc : s.pc t = .returned res)
    : Moves s (some (.ret t res)) [] (s.goto t .idle)
  | undefined (t : P) (i : BitVec 64) (hpc : s.pc t = .moving i ∨ ∃ v, s.pc t = .destroying v i)
    (hstorage : (s.slot (c.idx i)).storage = none) : Moves s none [] (s.goto t .undefined)

theorem moves_of_resume {s s' : Queue P α c} {t : P} (h : s.resume t = some s')
    : ∃ l, s.Moves (s.emit (.step t)) l s' := by
  unfold resume at h
  unfold emit
  cases hpc : s.pc t with
  | idle | undefined => simp [hpc] at h
  | called call =>
    rcases call with ⟨r, tries⟩
    cases tries with
    | true =>
      simp only [hpc, if_true] at h ⊢
      rw [← Option.some.inj h]
      exact ⟨_, .start t r hpc⟩
    | false =>
      simp only [hpc, Bool.false_eq_true, if_false] at h ⊢
      rw [← Option.some.inj h]
      exact ⟨_, .take t r hpc⟩
  | spinning r i =>
    simp only [hpc] at h ⊢
    split at h <;> rw [← Option.some.inj h]
    . next hready => exact ⟨_, .enter t r i hpc hready⟩
    . exact ⟨_, .wait⟩
  | testing r i =>
    simp only [hpc] at h ⊢
    split at h <;> rw [← Option.some.inj h]
    . next hready => exact ⟨_, .found t r i hpc hready⟩
    . next hready => exact ⟨_, .missed t r i hpc hready⟩
  | exchanging r i =>
    simp only [hpc] at h ⊢
    split at h <;> rw [← Option.some.inj h]
    . next heq =>
      subst heq
      exact ⟨_, .exchange t r hpc⟩
    . next hne => exact ⟨_, .raced t r i hpc hne⟩
  | reloading r i =>
    simp only [hpc] at h ⊢
    split at h <;> rw [← Option.some.inj h]
    . next heq =>
      subst heq
      exact ⟨_, .fail t r hpc⟩
    . next hne => exact ⟨_, .retry t r i hpc hne⟩
  | constructing v i =>
    simp only [hpc] at h ⊢
    rw [← Option.some.inj h]
    exact ⟨_, .construct t v i hpc⟩
  | filling v i =>
    simp only [hpc] at h ⊢
    rw [← Option.some.inj h]
    exact ⟨_, .fill t v i hpc⟩
  | moving i =>
    simp only [hpc] at h ⊢
    split at h <;> rw [← Option.some.inj h]
    . next v hstorage => exact ⟨_, .move t v i hpc hstorage⟩
    . next hstorage => exact ⟨_, .undefined t i (.inl hpc) hstorage⟩
  | destroying v i =>
    simp only [hpc] at h ⊢
    split at h <;> rw [← Option.some.inj h]
    . exact ⟨_, .destroy t v i hpc⟩
    . next hstorage => exact ⟨_, .undefined t i (.inr ⟨v, hpc⟩) (by simpa using hstorage)⟩
  | emptying v i =>
    simp only [hpc] at h ⊢
    rw [← Option.some.inj h]
    exact ⟨_, .empty t v i hpc⟩
  | returned res =>
    simp only [hpc] at h ⊢
    rw [← Option.some.inj h]
    exact ⟨_, .ret t res hpc⟩

theorem moves_of_step {s s' : Queue P α c} {a : Action P α} (h : s.step a = some s')
    : ∃ l, s.Moves (s.emit a) l s' := by
  cases a with
  | call t call =>
    simp only [step] at h
    split at h
    . next hpc =>
      rw [← Option.some.inj h]
      exact ⟨_, .call t call hpc⟩
    . simp at h
  | step t => exact moves_of_resume h

end Queue
end MPMCQueue
