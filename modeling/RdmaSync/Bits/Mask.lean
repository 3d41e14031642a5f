import Mathlib.Data.Nat.Bitwise
import Mathlib.Data.Nat.Count
import RdmaSync.Bits.Smear

/-!
This module contains how many numbers have no bit of a mask set, and how many have all of them set.
Both repeat with the period that the highest bit of the mask gives, half a period apart.
-/

namespace Bits

variable {S a b k n : Nat}

/-- How many numbers below `n` have no bit of `S` set. -/
def avoiding (S n : Nat) : Nat :=
  Nat.count (fun w => w &&& S = 0) n

/-- How many of the positive numbers up to `n` have all bits of `S` set. -/
def covering (S n : Nat) : Nat :=
  Nat.count (fun w => (w + 1) &&& S = S) n

def clearBits (S : Nat) : Nat :=
  Nat.count (fun i => S.testBit i = false) S.size

theorem avoiding_succ (S n : Nat)
    : avoiding S (n + 1) = avoiding S n + if n &&& S = 0 then 1 else 0 := by
  exact Nat.count_succ _ n

theorem covering_succ (S n : Nat)
    : covering S (n + 1) = covering S n + if (n + 1) &&& S = S then 1 else 0 := by
  exact Nat.count_succ _ n

theorem avoiding_zero (n : Nat) : avoiding 0 n = n := by
  exact Nat.count_iff_forall.mpr fun _ _ => Nat.and_zero _

theorem avoiding_mono (h : a ≤ b) : avoiding S a ≤ avoiding S b := by
  exact Nat.count_monotone _ h

theorem add_eq_or (h : a &&& b = 0) : a + b = a ||| b := by
  have ha : a < 2 ^ (a + b) := Nat.lt_of_le_of_lt (Nat.le_add_right a b) Nat.lt_two_pow_self
  have hb : b < 2 ^ (a + b) := Nat.lt_of_le_of_lt (Nat.le_add_left b a) Nat.lt_two_pow_self
  have hadd := BitVec.add_eq_or_of_and_eq_zero (BitVec.ofNat (a + b) a) (BitVec.ofNat (a + b) b) (by
    apply BitVec.eq_of_toNat_eq
    rw [BitVec.toNat_and, BitVec.toNat_ofNat, BitVec.toNat_ofNat, Nat.mod_eq_of_lt ha,
      Nat.mod_eq_of_lt hb, h]
    simp)
  have htoNat := congrArg BitVec.toNat hadd
  rw [BitVec.toNat_add, BitVec.toNat_or, BitVec.toNat_ofNat, BitVec.toNat_ofNat,
    Nat.mod_eq_of_lt ha, Nat.mod_eq_of_lt hb, Nat.mod_eq_of_lt Nat.lt_two_pow_self] at htoNat
  exact htoNat

theorem add_and_eq_iff : (S + k) &&& S = S ↔ k &&& S = 0 := by
  constructor
  . intro h
    let v := (S + k) ^^^ S
    have hv : v &&& S = 0 := by
      rw [Nat.and_xor_distrib_right, h, Nat.and_self, Nat.xor_self]
    have hor : S ||| v = S + k := by
      apply Nat.eq_of_testBit_eq
      intro i
      have hi := congrArg (Nat.testBit · i) h
      simp only [Nat.testBit_and] at hi
      rw [Nat.testBit_or, Nat.testBit_xor]
      cases hS : S.testBit i <;> cases hSk : (S + k).testBit i <;> simp_all
    have hadd : S + v = S + k := by
      rw [← hor]
      exact add_eq_or (by rw [Nat.and_comm, hv])
    rwa [Nat.add_left_cancel hadd] at hv
  . intro h
    rw [add_eq_or (by rw [Nat.and_comm, h]), Nat.and_or_distrib_right, Nat.and_self, h, Nat.or_zero]

theorem not_covers_of_lt (h : n < S) : n &&& S ≠ S := by
  intro heq
  have := Nat.and_le_left (n := n) (m := S)
  omega

theorem covering_eq (S n : Nat) : covering S n = avoiding S (n + 1 - max S 1) := by
  by_cases hS : S = 0
  . subst hS
    have hcovering : covering 0 n = n := Nat.count_iff_forall.mpr fun _ _ => Nat.and_zero _
    rw [hcovering, Nat.max_eq_right (Nat.zero_le 1), Nat.add_sub_cancel, avoiding_zero]
  . have hcovering : covering S n = Nat.count (fun w => w &&& S = S) (n + 1) := by
      have hzero : ¬0 &&& S = S := not_covers_of_lt (Nat.pos_of_ne_zero hS)
      rw [Nat.count_succ', if_neg hzero]
      rfl
    have hbelow (m : Nat) (hm : m ≤ S) : Nat.count (fun w => w &&& S = S) m = 0 := by
      rw [Nat.count_iff_forall_not]
      intro w hw
      exact not_covers_of_lt (Nat.lt_of_lt_of_le hw hm)
    rw [hcovering, Nat.max_eq_left (Nat.pos_of_ne_zero hS)]
    by_cases hle : n + 1 ≤ S
    . rw [hbelow _ hle, Nat.sub_eq_zero_of_le hle]
      rfl
    . obtain ⟨m, hm⟩ := Nat.exists_eq_add_of_le (Nat.le_of_not_le hle)
      rw [hm, Nat.count_add, hbelow S (Nat.le_refl S), Nat.zero_add, Nat.add_sub_cancel_left]
      simp only [avoiding, add_and_eq_iff]

theorem and_mod_two_pow (h : S < 2 ^ k) (n : Nat) : n % 2 ^ k &&& S = n &&& S := by
  rw [← Nat.and_two_pow_sub_one_eq_mod, Nat.and_assoc, Nat.and_comm (2 ^ k - 1),
    Nat.and_two_pow_sub_one_of_lt_two_pow h]

theorem avoiding_add_two_pow (h : S < 2 ^ k) (n : Nat)
    : avoiding S (n + 2 ^ k) = avoiding S n + avoiding S (2 ^ k) := by
  induction n with
  | zero => simp [avoiding]
  | succ n ih =>
    have hrepeat : (n + 2 ^ k) &&& S = n &&& S := by
      rw [← and_mod_two_pow h, Nat.add_mod_right, and_mod_two_pow h]
    rw [Nat.add_right_comm, avoiding_succ, ih, hrepeat, avoiding_succ]
    omega

theorem avoiding_two_pow (S k : Nat)
    : avoiding S (2 ^ k) = 2 ^ Nat.count (fun i => S.testBit i = false) k := by
  induction k with
  | zero => simp [avoiding, Nat.count_one]
  | succ k ih =>
    have hsplit (w : Nat) (hw : w < 2 ^ k) : (2 ^ k + w) &&& S = (2 ^ k &&& S) ||| (w &&& S) := by
      have hor := Nat.two_pow_add_eq_or_of_lt hw 1
      rw [Nat.mul_one] at hor
      rw [hor, Nat.and_or_distrib_right]
    have hadd : avoiding S (2 ^ (k + 1))
        = avoiding S (2 ^ k) + Nat.count (fun w => (2 ^ k + w) &&& S = 0) (2 ^ k) := by
      rw [Nat.pow_succ, Nat.mul_two]
      exact Nat.count_add _ _ _
    rw [hadd, Nat.count_succ]
    cases hbit : S.testBit k with
    | false =>
      have hzero : 2 ^ k &&& S = 0 := by rw [Nat.two_pow_and, hbit]; rfl
      have hcount : Nat.count (fun w => (2 ^ k + w) &&& S = 0) (2 ^ k) = avoiding S (2 ^ k) := by
        rw [avoiding, Nat.count_eq_card_filter_range, Nat.count_eq_card_filter_range]
        congr 1
        apply Finset.filter_congr
        intro w hw
        rw [hsplit w (Finset.mem_range.mp hw), hzero, Nat.zero_or]
      rw [hcount, ih, if_pos rfl, Nat.pow_succ, Nat.mul_two]
    | true =>
      have hcount : Nat.count (fun w => (2 ^ k + w) &&& S = 0) (2 ^ k) = 0 := by
        rw [Nat.count_iff_forall_not]
        intro w hw hzero
        rw [hsplit w hw, Nat.or_eq_zero_iff, Nat.two_pow_and, hbit] at hzero
        simp at hzero
      rw [hcount, ih]
      simp

theorem avoiding_two_pow_size (S : Nat) : avoiding S (2 ^ S.size) = 2 ^ clearBits S := by
  exact avoiding_two_pow S S.size

/-- In any window that is not longer than the mask, few numbers have no bit of it. -/
theorem avoiding_le (S n : Nat) : avoiding S n ≤ avoiding S (n - S) + 2 ^ clearBits S := by
  have hlt := Nat.lt_size_self S
  rw [← avoiding_two_pow_size, ← avoiding_add_two_pow hlt]
  exact avoiding_mono (by omega)

theorem avoiding_self (hS : S ≠ 0) : avoiding S S = 2 ^ clearBits S := by
  obtain ⟨k, hk⟩ := Nat.exists_eq_succ_of_ne_zero
    (Nat.pos_iff_ne_zero.mp (Nat.size_pos.mpr (Nat.pos_of_ne_zero hS)))
  obtain ⟨j, hj, hbit⟩ := exists_testBit_of_lt_size (show k < S.size by omega)
  obtain rfl : j = k := by
    have := lt_size_of_testBit hbit
    omega
  have hclear : clearBits S = Nat.count (fun i => S.testBit i = false) j := by
    rw [clearBits, hk, Nat.count_succ, if_neg (by simp [hbit]), Nat.add_zero]
  apply Nat.le_antisymm
  . rw [← avoiding_two_pow_size]
    exact avoiding_mono (Nat.le_of_lt (Nat.lt_size_self S))
  . rw [hclear, ← avoiding_two_pow]
    exact avoiding_mono (Nat.lt_size.mp (by omega))

theorem avoiding_lt (hS : S ≠ 0) (hn : n &&& S = S) : avoiding S (n - S) < avoiding S n := by
  have hle : S ≤ n := by
    rw [← hn]
    exact Nat.and_le_left
  obtain ⟨k, rfl⟩ := Nat.exists_eq_add_of_le hle
  rw [Nat.add_sub_cancel_left]
  exact Nat.count_strict_mono (add_and_eq_iff.mp hn) (by omega)

/-- The numbers that have no bit of the mask are never far ahead of those that have all. -/
theorem avoiding_le_covering (S n : Nat)
    : avoiding S (n + 1) ≤ covering S n + 2 ^ clearBits S := by
  rw [covering_eq]
  by_cases hS : S = 0
  . subst hS
    rw [avoiding_zero, Nat.max_eq_right (Nat.zero_le 1), Nat.add_sub_cancel, avoiding_zero]
    exact Nat.add_le_add_left Nat.one_le_two_pow n
  . rw [Nat.max_eq_left (Nat.pos_of_ne_zero hS)]
    exact avoiding_le S (n + 1)

/-- They are ahead when the next number that has all bits of the mask comes. -/
theorem covering_lt_avoiding (h : (n + 1) &&& S = S) : covering S n < avoiding S (n + 1) := by
  rw [covering_eq]
  by_cases hS : S = 0
  . subst hS
    rw [avoiding_zero, Nat.max_eq_right (Nat.zero_le 1), Nat.add_sub_cancel, avoiding_zero]
    exact Nat.lt_succ_self n
  . rw [Nat.max_eq_left (Nat.pos_of_ne_zero hS)]
    exact avoiding_lt hS h

theorem covering_eq_zero (h : n + 1 = max S 1) : covering S n = 0 := by
  rw [covering_eq, h, Nat.sub_self]
  rfl

theorem avoiding_max (S : Nat) : avoiding S (max S 1) = 2 ^ clearBits S := by
  by_cases hS : S = 0
  . subst hS
    rfl
  . rw [Nat.max_eq_left (Nat.pos_of_ne_zero hS), avoiding_self hS]

end Bits
