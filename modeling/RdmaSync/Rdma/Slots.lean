import Mathlib.Algebra.Group.Nat.Defs

/-!
This module contains slots of equal size that follow each other in memory, with the same padding between
any two of them. They are made of whole words.
-/

namespace Rdma

structure Slots where
  start : Nat
  size : Nat
  padding : Nat
  start_aligned : start % 8 = 0
  size_aligned : size % 8 = 0
  size_pos : 0 < size
  padding_aligned : padding % 8 = 0

namespace Slots

variable (x : Slots)

def addr (i : Nat) : Nat := x.start + i * x.size + i * x.padding

def words : Nat := x.size / 8

def base (i : Nat) : Nat := x.addr i / 8

theorem addr_eq (i : Nat) : x.addr i = 8 * x.base i := by
  have hstart := x.start_aligned
  have hsize : i * x.size % 8 = 0 := by
    rw [Nat.mul_mod, x.size_aligned, Nat.mul_zero, Nat.zero_mod]
  have hpadding : i * x.padding % 8 = 0 := by
    rw [Nat.mul_mod, x.padding_aligned, Nat.mul_zero, Nat.zero_mod]
  unfold base addr
  omega

theorem words_pos : 0 < x.words := by
  have := x.size_pos
  have := x.size_aligned
  unfold words
  omega

variable {x} {i j k : Nat}

theorem base_add_le (h : i < j) : x.base i + x.words ≤ x.base j := by
  have hsize := Nat.mul_le_mul_right x.size (Nat.succ_le_of_lt h)
  have hpadding := Nat.mul_le_mul_right x.padding (Nat.le_of_lt h)
  have haligned := x.size_aligned
  have hi := x.addr_eq i
  have hj := x.addr_eq j
  rw [Nat.succ_mul] at hsize
  unfold addr at hi hj
  unfold words
  omega

/-- Only the first word of a slot is the first word of any slot. -/
theorem base_add_eq (hk : k < x.words) (h : x.base i + k = x.base j) : i = j ∧ k = 0 := by
  rcases Nat.lt_trichotomy i j with hlt | rfl | hlt
  . have := x.base_add_le hlt
    omega
  . omega
  . have := x.base_add_le hlt
    omega

theorem base_inj : x.base i = x.base j ↔ i = j := by
  constructor
  . intro h
    exact (base_add_eq x.words_pos h).1
  . rintro rfl
    rfl

end Slots
end Rdma
