import Mathlib.Data.BitVec
import Mathlib.Order.Bounds.Basic
import RdmaSync.Bits.Smear

/-!
This module contains the helpers that round up to powers of two.
-/

namespace Helper

open Bits

/-- The last shift is by half of the 32 positions that the bits are spread to, not by half of 64. -/
def nextPowerTwo (v : BitVec 64) : BitVec 64 :=
  let v := v - 1
  let v := v ||| v >>> 1
  let v := v ||| v >>> 2
  let v := v ||| v >>> 4
  let v := v ||| v >>> 8
  let v := v ||| v >>> 16
  v + 1

def powerOfTwo (n : BitVec 64) : Bool :=
  n ≠ 0 && !(n &&& (n - 1) ≠ 0)

variable {v : BitVec 64}

theorem toNat_sub_one (h : 1 ≤ v.toNat) : (v - 1).toNat = v.toNat - 1 := by
  have hlt := v.isLt
  have hone : (1 : BitVec 64).toNat = 1 := rfl
  rw [BitVec.toNat_sub, hone]
  omega

theorem powerOfTwo_iff : powerOfTwo v = true ↔ v.toNat.isPowerOfTwo := by
  have hne : v ≠ 0 ↔ v.toNat ≠ 0 := not_congr BitVec.toNat_inj.symm
  rw [← Nat.ne_zero_and_sub_one_eq_zero_iff_isPowerOfTwo, ← hne]
  simp only [powerOfTwo, Bool.and_eq_true, Bool.not_eq_true', decide_eq_true_eq,
    decide_eq_false_iff_not, Decidable.not_not]
  apply and_congr_right
  intro hzero
  rw [← toNat_sub_one (Nat.pos_of_ne_zero (hne.mp hzero)), ← BitVec.toNat_and]
  exact BitVec.toNat_inj.symm

/-- What `nextPowerTwo` should return: the least power of two that is not less than `v`. -/
structure RoundsUp (v : BitVec 64) : Prop where
  isLeast : IsLeast {p : Nat | p.isPowerOfTwo ∧ v.toNat ≤ p} (nextPowerTwo v).toNat
  powerOfTwo : powerOfTwo (nextPowerTwo v) = true
  le : v.toNat ≤ (nextPowerTwo v).toNat
  lt : (nextPowerTwo v).toNat < 2 * v.toNat
  fixed : Helper.powerOfTwo v = true → nextPowerTwo v = v

/-- The five shifts spread the bits of `v - 1` to 32 positions. -/
theorem exists_smears (hpos : 1 ≤ v.toNat) (hle : v.toNat ≤ 2 ^ 63)
    : ∃ y, Smears 32 (v.toNat - 1) y ∧ (nextPowerTwo v).toNat = y + 1 := by
  have hsmears := ((((Smears.one (v.toNat - 1)).shift (k := 1) (by omega)).shift (k := 2)
    (by omega)).shift (k := 4) (by omega)).shift (k := 8) (by omega)
  have hsmears := hsmears.shift (k := 16) (by omega)
  refine ⟨_, hsmears, ?_⟩
  have hlt := hsmears.lt_two_pow (k := 63) (by omega)
  have hone : (1 : BitVec 64).toNat = 1 := rfl
  simp only [nextPowerTwo, BitVec.toNat_add, BitVec.toNat_or, BitVec.toNat_ushiftRight,
    toNat_sub_one hpos, hone]
  apply Nat.mod_eq_of_lt
  omega

theorem noGap_of_powerOfTwo (hpos : 1 ≤ v.toNat) (hle : v.toNat ≤ 2 ^ 63)
    (h : powerOfTwo (nextPowerTwo v) = true) : NoGap 32 (v.toNat - 1) := by
  obtain ⟨y, hsmears, hnext⟩ := exists_smears hpos hle
  rw [powerOfTwo_iff, hnext] at h
  obtain ⟨k, hk⟩ := h
  exact hsmears.noGap (by omega) (k := k) (by omega)

theorem two_pow_size_le {x p : Nat} (hp : p.isPowerOfTwo) (hlt : x < p) : 2 ^ x.size ≤ p := by
  obtain ⟨k, rfl⟩ := hp
  exact Nat.pow_le_pow_right (by omega) (Nat.size_le.mpr hlt)

theorem toNat_nextPowerTwo (hpos : 1 ≤ v.toNat) (hle : v.toNat ≤ 2 ^ 63)
    (hgap : NoGap 32 (v.toNat - 1)) : (nextPowerTwo v).toNat = 2 ^ (v.toNat - 1).size := by
  obtain ⟨y, hsmears, hnext⟩ := exists_smears hpos hle
  have := Nat.two_pow_pos (v.toNat - 1).size
  rw [hnext, hsmears.eq_of_noGap hgap]
  omega

theorem roundsUp_of_noGap (hpos : 1 ≤ v.toNat) (hle : v.toNat ≤ 2 ^ 63)
    (hgap : NoGap 32 (v.toNat - 1)) : RoundsUp v := by
  have hnext := toNat_nextPowerTwo hpos hle hgap
  have hpow : (nextPowerTwo v).toNat.isPowerOfTwo := ⟨_, hnext⟩
  have hge : v.toNat ≤ (nextPowerTwo v).toNat := by
    have := Nat.lt_size_self (v.toNat - 1)
    omega
  have hleast {p : Nat} (hp : p.isPowerOfTwo) (hvp : v.toNat ≤ p)
      : (nextPowerTwo v).toNat ≤ p := by
    rw [hnext]
    exact two_pow_size_le hp (by omega)
  refine ⟨⟨⟨hpow, hge⟩, fun p hp => hleast hp.1 hp.2⟩, powerOfTwo_iff.mpr hpow, hge, ?_, ?_⟩
  . rw [hnext]
    -- The power of two before is at most `v - 1`.
    cases hsize : (v.toNat - 1).size with
    | zero => omega
    | succ k =>
      have hk : 2 ^ k ≤ v.toNat - 1 := Nat.lt_size.mp (by omega)
      rw [Nat.pow_succ]
      omega
  . intro hv
    apply BitVec.eq_of_toNat_eq
    exact Nat.le_antisymm (hleast (powerOfTwo_iff.mp hv) (Nat.le_refl _)) hge

theorem roundsUp_iff (hpos : 1 ≤ v.toNat) (hle : v.toNat ≤ 2 ^ 63)
    : RoundsUp v ↔ NoGap 32 (v.toNat - 1) := by
  constructor
  . intro h
    exact noGap_of_powerOfTwo hpos hle h.powerOfTwo
  . exact roundsUp_of_noGap hpos hle

theorem roundsUp_iff_thirtyTwoBits : RoundsUp (2 ^ 32 - 5) := by
  exact (roundsUp_iff (by decide) (by decide)).mpr (noGap_of_lt (by decide))

/-- Bit 33 of the predecessor is spread to bit 2, and bits 0 and 1 stay clear. -/
theorem not_roundsUp_gap
    : nextPowerTwo (2 ^ 33 + 1) = 0x3fffffffd ∧ ¬RoundsUp (2 ^ 33 + 1) := by
  refine ⟨by decide, ?_⟩
  intro h
  exact absurd h.powerOfTwo (by decide)

end Helper
