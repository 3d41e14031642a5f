import Mathlib.Algebra.Group.Nat.Defs
import Mathlib.Data.Nat.Size

/-!
This module contains smearing: numbers whose bits are those of another number, spread to the
positions below. Every shift that is or-ed in spreads them further.
-/

namespace Bits

variable {n x y : Nat}

/-- Bit `i` of `y` is set if one of the `n` bits of `x` from bit `i` on is. -/
def Smears (n x y : Nat) : Prop :=
  ∀ i, y.testBit i = true ↔ ∃ d < n, x.testBit (i + d) = true

/-- There are no `n` zeros in a row below the highest bit that is set. -/
def NoGap (n x : Nat) : Prop :=
  ∀ j, x.testBit j = true → ∀ i ≤ j, ∃ d < n, x.testBit (i + d) = true

theorem Smears.one (x : Nat) : Smears 1 x x := by
  intro i
  constructor
  . intro h
    exact ⟨0, Nat.one_pos, h⟩
  . rintro ⟨d, hd, h⟩
    obtain rfl : d = 0 := by omega
    exact h

theorem Smears.shift (h : Smears n x y) {k : Nat} (hk : k ≤ n)
    : Smears (n + k) x (y ||| y >>> k) := by
  intro i
  rw [Nat.testBit_or, Nat.testBit_shiftRight, Bool.or_eq_true, h i, h (k + i)]
  constructor
  . rintro (⟨d, hd, hbit⟩ | ⟨d, hd, hbit⟩)
    . exact ⟨d, by omega, hbit⟩
    . refine ⟨k + d, by omega, ?_⟩
      rwa [← Nat.add_assoc, Nat.add_comm i k]
  . rintro ⟨d, hd, hbit⟩
    by_cases hlt : d < n
    . exact .inl ⟨d, hlt, hbit⟩
    . right
      refine ⟨d - k, by omega, ?_⟩
      have hadd : k + i + (d - k) = i + d := by omega
      rwa [hadd]

theorem lt_size_of_testBit {i : Nat} (h : x.testBit i = true) : i < x.size := by
  apply Nat.lt_of_not_le
  intro hle
  have hpow : 2 ^ x.size ≤ 2 ^ i := Nat.pow_le_pow_right (by omega) hle
  have hlt : x < 2 ^ i := Nat.lt_of_lt_of_le (Nat.lt_size_self x) hpow
  rw [Nat.testBit_lt_two_pow hlt] at h
  exact Bool.noConfusion h

theorem exists_testBit_of_lt_size {i : Nat} (h : i < x.size)
    : ∃ j, i ≤ j ∧ x.testBit j = true := by
  obtain ⟨j, hij, hbit⟩ := Nat.exists_ge_and_testBit_of_ge_two_pow (Nat.lt_size.mp h)
  exact ⟨j, hij, hbit⟩

theorem Smears.lt_two_pow (h : Smears n x y) {k : Nat} (hx : x < 2 ^ k) : y < 2 ^ k := by
  apply Nat.lt_pow_two_of_testBit
  intro i hi
  rw [← Bool.not_eq_true, h i]
  rintro ⟨d, _, hbit⟩
  have := lt_size_of_testBit hbit
  have := Nat.size_le.mpr hx
  omega

theorem noGap_of_lt (h : x < 2 ^ n) : NoGap n x := by
  intro j hj i hij
  have hlt := lt_size_of_testBit hj
  have hsize := Nat.size_le.mpr h
  refine ⟨j - i, by omega, ?_⟩
  rwa [Nat.add_sub_cancel' hij]

/-- If the bits are spread as far as the gaps are wide, all bits are set up to the highest one. -/
theorem Smears.eq_of_noGap (h : Smears n x y) (hgap : NoGap n x) : y = 2 ^ x.size - 1 := by
  apply Nat.eq_of_testBit_eq
  intro i
  rw [Nat.testBit_two_pow_sub_one, Bool.eq_iff_iff, h i, decide_eq_true_iff]
  constructor
  . rintro ⟨d, _, hbit⟩
    have := lt_size_of_testBit hbit
    omega
  . intro hlt
    obtain ⟨j, hij, hbit⟩ := exists_testBit_of_lt_size hlt
    exact hgap j hbit i hij

theorem Smears.noGap (h : Smears n x y) (hn : 0 < n) {k : Nat} (hy : y = 2 ^ k - 1)
    : NoGap n x := by
  intro j hj i hij
  have hbit {i : Nat} : y.testBit i = true ↔ i < k := by
    rw [hy, Nat.testBit_two_pow_sub_one, decide_eq_true_iff]
  have hlt : j < k := hbit.mp ((h j).mpr ⟨0, hn, hj⟩)
  exact (h i).mp (hbit.mpr (Nat.lt_of_le_of_lt hij hlt))

end Bits
