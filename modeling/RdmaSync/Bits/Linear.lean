import Mathlib.Logic.Function.Iterate

/-!
This module contains maps on words that commute with exclusive or. Such a map is injective if only
zero is mapped to zero, and so are the shift and xor steps that generators are made of.
-/

namespace Bits

variable {w k : Nat}

/-- The map commutes with exclusive or. -/
def Linear (f : BitVec w → BitVec w) : Prop :=
  ∀ x y, f (x ^^^ y) = f x ^^^ f y

/-- Only zero is mapped to zero. -/
def OnlyZero (f : BitVec w → BitVec w) : Prop :=
  ∀ x, f x = 0 → x = 0

def xorShiftRight (k : Nat) (x : BitVec w) : BitVec w :=
  x ^^^ x >>> k

def xorShiftLeft (k : Nat) (x : BitVec w) : BitVec w :=
  x ^^^ x <<< k

def xorMaskRight (k : Nat) (m x : BitVec w) : BitVec w :=
  x ^^^ (x >>> k &&& m)

def xorMaskLeft (k : Nat) (m x : BitVec w) : BitVec w :=
  x ^^^ (x <<< k &&& m)

theorem xor_and (x y m : BitVec w) : (x ^^^ y) &&& m = (x &&& m) ^^^ (y &&& m) := by
  apply BitVec.eq_of_getLsbD_eq
  intro i _
  simp only [BitVec.getLsbD_xor, BitVec.getLsbD_and]
  cases x.getLsbD i <;> cases y.getLsbD i <;> simp

namespace Linear

variable {f g : BitVec w → BitVec w}

theorem comp (hf : Linear f) (hg : Linear g) : Linear (f ∘ g) := by
  intro x y
  simp only [Function.comp, hg x y, hf (g x) (g y)]

theorem map_zero (hf : Linear f) : f 0 = 0 := by
  have h := hf 0 0
  rwa [BitVec.xor_self, BitVec.xor_self] at h

theorem injective (hf : Linear f) (hzero : OnlyZero f) : Function.Injective f := by
  intro x y h
  apply BitVec.xor_eq_zero_iff.mp
  apply hzero
  rw [hf, h, BitVec.xor_self]
  rfl

theorem xorShiftRight (k : Nat) : Linear (xorShiftRight (w := w) k) := by
  intro x y
  simp only [Bits.xorShiftRight, BitVec.ushiftRight_xor_distrib]
  ac_rfl

theorem xorShiftLeft (k : Nat) : Linear (xorShiftLeft (w := w) k) := by
  intro x y
  simp only [Bits.xorShiftLeft, BitVec.shiftLeft_xor_distrib]
  ac_rfl

theorem xorMaskRight (k : Nat) (m : BitVec w) : Linear (xorMaskRight k m) := by
  intro x y
  simp only [Bits.xorMaskRight, BitVec.ushiftRight_xor_distrib, xor_and]
  ac_rfl

theorem xorMaskLeft (k : Nat) (m : BitVec w) : Linear (xorMaskLeft k m) := by
  intro x y
  simp only [Bits.xorMaskLeft, BitVec.shiftLeft_xor_distrib, xor_and]
  ac_rfl

end Linear

namespace OnlyZero

theorem comp {f g : BitVec w → BitVec w} (hf : OnlyZero f) (hg : OnlyZero g)
    : OnlyZero (f ∘ g) := by
  intro x h
  exact hg x (hf (g x) h)

/-- A word that is its own right shift is zero, from the highest bit down. -/
theorem xorShiftRight (hk : 0 < k) : OnlyZero (xorShiftRight (w := w) k) := by
  intro x h
  have hshift := BitVec.xor_eq_zero_iff.mp h
  have hclear : ∀ n i, w ≤ i + n → x.getLsbD i = false := by
    intro n
    induction n with
    | zero =>
      intro i hi
      exact BitVec.getLsbD_of_ge x i hi
    | succ n ih =>
      intro i hi
      rw [hshift, BitVec.getLsbD_ushiftRight]
      exact ih (k + i) (by omega)
  apply BitVec.eq_of_getLsbD_eq
  intro i _
  rw [hclear w i (by omega)]
  exact (BitVec.getLsbD_zero).symm

/-- A word that is its own left shift is zero, from the lowest bit up. -/
theorem xorShiftLeft (hk : 0 < k) : OnlyZero (xorShiftLeft (w := w) k) := by
  intro x h
  have hshift := BitVec.xor_eq_zero_iff.mp h
  have hclear : ∀ n i, i < n → x.getLsbD i = false := by
    intro n
    induction n with
    | zero =>
      intro i hi
      omega
    | succ n ih =>
      intro i hi
      rw [hshift, BitVec.getLsbD_shiftLeft]
      by_cases hik : i < k
      . simp [hik]
      . rw [ih (i - k) (by omega), Bool.and_false]
  apply BitVec.eq_of_getLsbD_eq
  intro i hi
  rw [hclear w i hi]
  exact (BitVec.getLsbD_zero).symm

theorem xorMaskRight (hk : 0 < k) (m : BitVec w) : OnlyZero (xorMaskRight k m) := by
  intro x h
  have hshift := BitVec.xor_eq_zero_iff.mp h
  have hclear : ∀ n i, w ≤ i + n → x.getLsbD i = false := by
    intro n
    induction n with
    | zero =>
      intro i hi
      exact BitVec.getLsbD_of_ge x i hi
    | succ n ih =>
      intro i hi
      rw [hshift, BitVec.getLsbD_and, BitVec.getLsbD_ushiftRight, ih (k + i) (by omega),
        Bool.false_and]
  apply BitVec.eq_of_getLsbD_eq
  intro i _
  rw [hclear w i (by omega)]
  exact (BitVec.getLsbD_zero).symm

theorem xorMaskLeft (hk : 0 < k) (m : BitVec w) : OnlyZero (xorMaskLeft k m) := by
  intro x h
  have hshift := BitVec.xor_eq_zero_iff.mp h
  have hclear : ∀ n i, i < n → x.getLsbD i = false := by
    intro n
    induction n with
    | zero =>
      intro i hi
      omega
    | succ n ih =>
      intro i hi
      rw [hshift, BitVec.getLsbD_and, BitVec.getLsbD_shiftLeft]
      by_cases hik : i < k
      . simp [hik]
      . rw [ih (i - k) (by omega), Bool.and_false, Bool.false_and]
  apply BitVec.eq_of_getLsbD_eq
  intro i hi
  rw [hclear w i hi]
  exact (BitVec.getLsbD_zero).symm

end OnlyZero

end Bits
