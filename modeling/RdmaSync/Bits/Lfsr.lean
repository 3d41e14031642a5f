import Mathlib.Data.BitVec
import RdmaSync.Bits.Linear

/-!
This module contains registers that are shifted right and to which a polynomial is added whenever the
bit that falls out is set, and what is left in them after a sequence of bits.
-/

namespace Bits

variable {w n : Nat}

/-- Shift right, and add the polynomial if the bit that falls out is set. -/
def advance (p x : BitVec w) : BitVec w :=
  if x.getLsbD 0 then x >>> 1 ^^^ p else x >>> 1

def low (k : Nat) (x : BitVec w) : BitVec w :=
  (x.setWidth k).setWidth w

/-- Advance for each bit, after it has been added to the lowest bit. -/
def feed (p x : BitVec w) (bits : List Bool) : BitVec w :=
  bits.foldl (fun x b => advance p (x ^^^ (BitVec.ofBool b).setWidth w)) x

def bitsOf (x : BitVec n) : List Bool :=
  (List.range n).map x.getLsbD

/-- The register after `k * m` bits, from the `m` pieces of `k` bits that it has contained. -/
def slices (p : BitVec w) (k m : Nat) (x : BitVec w) : BitVec w :=
  match m with
  | 0 => x
  | m + 1 => (advance p)^[k * (m + 1)] (low k x) ^^^ slices p k m (x >>> k)

variable {p x y : BitVec w} {k m : Nat} {bits : List Bool}

theorem Linear.advance (p : BitVec w) : Linear (advance p) := by
  intro x y
  unfold Bits.advance
  rw [BitVec.getLsbD_xor, BitVec.ushiftRight_xor_distrib]
  cases x.getLsbD 0 <;> cases y.getLsbD 0 <;>
    simp only [Bool.xor_false, Bool.xor_true, Bool.not_false, Bool.not_true, if_true,
      Bool.false_eq_true, if_false]
  . ac_rfl
  . ac_rfl
  . rw [BitVec.xor_assoc, BitVec.xor_comm p, BitVec.xor_assoc _ p p, BitVec.xor_self,
      BitVec.xor_zero]

theorem Linear.iterate {f : BitVec w → BitVec w} (hf : Linear f) (n : Nat) : Linear f^[n] := by
  induction n with
  | zero =>
    intro x y
    rfl
  | succ n ih => exact ih.comp hf

/-- If the highest coefficient is set, the highest bit tells which bit has fallen out. -/
theorem OnlyZero.advance (hp : p.msb = true) : OnlyZero (advance p) := by
  intro x h
  have hw : 0 < w := by
    cases w with
    | zero => simp [BitVec.eq_nil p] at hp
    | succ w => omega
  unfold Bits.advance at h
  split at h
  . have hmsb : (x >>> 1 ^^^ p).msb = true := by
      rw [BitVec.msb_xor, hp, BitVec.msb_ushiftRight]
      simp
    rw [h] at hmsb
    simp at hmsb
  . next hlow =>
    apply BitVec.eq_of_getLsbD_eq
    intro i hi
    cases i with
    | zero => simpa using hlow
    | succ i =>
      have hshift := congrArg (BitVec.getLsbD · i) h
      rw [Nat.add_comm]
      simpa using hshift

theorem iterate_injective (hp : p.msb = true) (n : Nat) : Function.Injective (advance p)^[n] := by
  exact ((Linear.advance p).injective (.advance hp)).iterate n

theorem getLsbD_low (i : Nat) : (low k x).getLsbD i = (decide (i < k) && x.getLsbD i) := by
  unfold low
  rw [BitVec.getLsbD_setWidth, BitVec.getLsbD_setWidth]
  by_cases hi : i < w
  . simp [hi]
  . simp [hi, BitVec.getLsbD_of_ge x i (Nat.le_of_not_lt hi)]

theorem iterate_of_low_eq_zero (h : low k x = 0) : (advance p)^[k] x = x >>> k := by
  induction k generalizing x with
  | zero => exact (BitVec.ushiftRight_zero x).symm
  | succ k ih =>
    have hclear (i : Nat) (hi : i < k + 1) : x.getLsbD i = false := by
      have hbit := congrArg (BitVec.getLsbD · i) h
      simpa [getLsbD_low, hi] using hbit
    have hadvance : advance p x = x >>> 1 := by
      rw [advance, hclear 0 (by omega), if_neg Bool.false_ne_true]
    rw [Function.iterate_succ_apply, hadvance, ih, ← BitVec.shiftRight_add, Nat.add_comm]
    apply BitVec.eq_of_getLsbD_eq
    intro i hi
    by_cases hik : i < k
    . simpa [getLsbD_low, hik] using hclear (1 + i) (by omega)
    . simp [getLsbD_low, hik]

theorem iterate_eq_low (k : Nat)
    : (advance p)^[k] x = (advance p)^[k] (low k x) ^^^ x >>> k := by
  have hhigh : low k (x ^^^ low k x) = 0 := by
    apply BitVec.eq_of_getLsbD_eq
    intro i _
    by_cases hik : i < k <;> simp [getLsbD_low, hik]
  have hlow : low k x >>> k = 0 := by
    apply BitVec.eq_of_getLsbD_eq
    intro i _
    simp [getLsbD_low]
  have hsplit : x = low k x ^^^ (x ^^^ low k x) := by
    rw [BitVec.xor_comm x, ← BitVec.xor_assoc, BitVec.xor_self, BitVec.zero_xor]
  conv => lhs; rw [hsplit]
  rw [(Linear.advance p).iterate k, iterate_of_low_eq_zero hhigh, BitVec.ushiftRight_xor_distrib,
    hlow]
  congr 1
  exact BitVec.xor_zero

theorem iterate_eq_slices (k m : Nat) (x : BitVec w)
    : (advance p)^[k * m] x = slices p k m x := by
  induction m generalizing x with
  | zero => rfl
  | succ m ih =>
    have hadd : k * (m + 1) = k * m + k := Nat.mul_succ k m
    rw [slices, ← ih, hadd, Function.iterate_add_apply, Function.iterate_add_apply,
      ← (Linear.advance p).iterate, ← iterate_eq_low]

@[simp]
theorem feed_nil : feed p x [] = x := by
  rfl

theorem feed_append (bits' : List Bool) : feed p x (bits ++ bits') = feed p (feed p x bits) bits' := by
  exact List.foldl_append

theorem feed_eq (h : bits.length ≤ w)
    : feed p x bits
        = (advance p)^[bits.length] (x ^^^ (BitVec.ofBoolListLE bits).setWidth w) := by
  induction bits generalizing x with
  | nil => simp [BitVec.ofBoolListLE]
  | cons b bits ih =>
    rw [List.length_cons] at h
    have hcons : (BitVec.ofBoolListLE (b :: bits)).setWidth w
        = (BitVec.ofBool b).setWidth w ^^^ (BitVec.ofBoolListLE bits).setWidth w <<< 1 := by
      apply BitVec.eq_of_getLsbD_eq
      intro i hi
      cases i <;> simp [BitVec.ofBoolListLE, hi]
    have hshift : advance p ((BitVec.ofBoolListLE bits).setWidth w <<< 1)
        = (BitVec.ofBoolListLE bits).setWidth w := by
      have hclear : low 1 ((BitVec.ofBoolListLE bits).setWidth w <<< 1) = 0 := by
        apply BitVec.eq_of_getLsbD_eq
        intro i _
        cases i <;> simp [getLsbD_low]
      have hone := iterate_of_low_eq_zero (p := p) hclear
      rw [Function.iterate_one] at hone
      rw [hone]
      apply BitVec.eq_of_getLsbD_eq
      intro i hi
      by_cases hlast : 1 + i < w
      . simp [hlast, hi]
      . have hnone : bits[i]? = none := List.getElem?_eq_none (by omega)
        simp [hlast, hnone]
    rw [hcons, ← BitVec.xor_assoc]
    show feed p _ bits = (advance p)^[bits.length + 1] _
    rw [Function.iterate_succ_apply, Linear.advance p, hshift]
    exact ih (by omega)

theorem feed_injective (hp : p.msb = true) (bits : List Bool)
    : Function.Injective (feed p · bits) := by
  induction bits with
  | nil => exact fun _ _ h => h
  | cons b bits ih =>
    intro x y h
    have hxor := iterate_injective hp 1 (ih h)
    rwa [BitVec.xor_left_inj] at hxor

theorem ofBoolListLE_setWidth_inj {bits bits' : List Bool} (hlength : bits.length = bits'.length)
    (hle : bits.length ≤ w)
    (h : (BitVec.ofBoolListLE bits).setWidth w = (BitVec.ofBoolListLE bits').setWidth w)
    : bits = bits' := by
  apply List.ext_getElem hlength
  intro i hi hi'
  have hbit := congrArg (BitVec.getLsbD · i) h
  have hiw : i < w := Nat.lt_of_lt_of_le hi hle
  simp only [BitVec.getLsbD_setWidth, hiw, decide_true, Bool.true_and,
    BitVec.getLsbD_ofBoolListLE] at hbit
  simpa [hi, hi'] using hbit

/--
Sequences that differ, but only within as many bits as the register has, leave something different in
the register.
-/
theorem feed_ne (hp : p.msb = true) {bits bits' : List Bool} (hne : bits ≠ bits')
    (hlength : bits.length = bits'.length) {i : Nat} (hpre : bits.take i = bits'.take i)
    (hpost : bits.drop (i + w) = bits'.drop (i + w)) : feed p x bits ≠ feed p x bits' := by
  intro h
  have hsplit (l : List Bool) : l = l.take i ++ ((l.drop i).take w ++ l.drop (i + w)) := by
    rw [← List.drop_drop, List.take_append_drop, List.take_append_drop]
  have hmid : ((bits.drop i).take w).length = ((bits'.drop i).take w).length := by
    simp [hlength]
  have hle : ((bits.drop i).take w).length ≤ w := List.length_take_le w _
  have hwindow : (bits.drop i).take w = (bits'.drop i).take w := by
    rw [hsplit bits, hsplit bits', hpre, hpost, feed_append, feed_append, feed_append,
      feed_append] at h
    have hfeed := feed_injective hp _ h
    simp only [feed_eq hle, feed_eq (hmid ▸ hle), ← hmid] at hfeed
    have hxor := iterate_injective hp _ hfeed
    rw [BitVec.xor_right_inj] at hxor
    exact ofBoolListLE_setWidth_inj hmid hle hxor
  apply hne
  rw [hsplit bits, hsplit bits', hpre, hwindow, hpost]

@[simp]
theorem length_bitsOf (c : BitVec n) : (bitsOf c).length = n := by
  simp [bitsOf]

theorem ofBoolListLE_bitsOf (c : BitVec n) (w : Nat)
    : (BitVec.ofBoolListLE (bitsOf c)).setWidth w = c.setWidth w := by
  apply BitVec.eq_of_getLsbD_eq
  intro i hi
  rw [BitVec.getLsbD_setWidth, BitVec.getLsbD_setWidth, BitVec.getLsbD_ofBoolListLE]
  by_cases hin : i < n
  . simp [bitsOf, hin]
  . simp [bitsOf, hin, BitVec.getLsbD_of_ge c i (Nat.le_of_not_lt hin)]

theorem feed_bitsOf (h : n ≤ w) (c : BitVec n)
    : feed p x (bitsOf c) = (advance p)^[n] (x ^^^ c.setWidth w) := by
  rw [feed_eq (by rwa [length_bitsOf]), ofBoolListLE_bitsOf, length_bitsOf]

theorem bitsOf_injective : Function.Injective (bitsOf (n := n)) := by
  intro c c' h
  have hword := ofBoolListLE_bitsOf c n
  rw [h, ofBoolListLE_bitsOf] at hword
  simpa using hword.symm

section Sequences

variable {l l' : List (BitVec n)}

theorem length_flatMap_bitsOf (l : List (BitVec n)) : (l.flatMap bitsOf).length = n * l.length := by
  simp [List.length_flatMap, Nat.mul_comm]

theorem flatMap_bitsOf_injective (hn : 0 < n) (h : l.flatMap bitsOf = l'.flatMap bitsOf) : l = l' := by
  induction l generalizing l' with
  | nil =>
    have hlength := congrArg List.length h
    rw [length_flatMap_bitsOf, length_flatMap_bitsOf, List.length_nil, Nat.mul_zero] at hlength
    obtain hzero | hzero := Nat.mul_eq_zero.mp hlength.symm
    . omega
    . exact (List.length_eq_zero_iff.mp hzero).symm
  | cons c l ih =>
    cases l' with
    | nil =>
      have hlength := congrArg List.length h
      rw [length_flatMap_bitsOf, length_flatMap_bitsOf, List.length_nil, Nat.mul_zero] at hlength
      obtain hzero | hzero := Nat.mul_eq_zero.mp hlength
      . omega
      . simp at hzero
    | cons c' l' =>
      rw [List.flatMap_cons, List.flatMap_cons] at h
      obtain ⟨hfirst, hrest⟩ := List.append_inj h (by simp)
      rw [bitsOf_injective hfirst, ih hrest]

theorem flatMap_bitsOf_split (l : List (BitVec n)) (hk : k ≤ l.length)
    : (l.flatMap bitsOf).take (n * k) = (l.take k).flatMap bitsOf ∧
        (l.flatMap bitsOf).drop (n * k) = (l.drop k).flatMap bitsOf := by
  have hsplit : l.flatMap bitsOf = (l.take k).flatMap bitsOf ++ (l.drop k).flatMap bitsOf := by
    rw [← List.flatMap_append, List.take_append_drop]
  have hlength : ((l.take k).flatMap bitsOf).length = n * k := by
    rw [length_flatMap_bitsOf, List.length_take, Nat.min_eq_left hk]
  rw [hsplit]
  exact ⟨List.take_left' hlength, List.drop_left' hlength⟩

end Sequences

end Bits
