import RdmaSync.Bits.Linear

/-!
This module contains the generator of pseudo-random numbers that stays at zero once its state is
zero. The constructor combines three values and does not check the result.
-/

namespace RandomGenerator

open Bits

structure Xorshift64star where
  seed : BitVec 64
  deriving DecidableEq

namespace Xorshift64star

/--
The constructor, with the value of the global `mt_counter` and the value that the random device
returns. The second component is `mt_counter` afterwards.
-/
def create (seed_ mtCounter : BitVec 64) (rd : BitVec 32) : Xorshift64star × BitVec 64 :=
  ({ seed := (seed_ ^^^ mtCounter) ^^^ rd.setWidth 64 }, mtCounter + 1)

def shifted (x : BitVec 64) : BitVec 64 :=
  let x := x ^^^ x >>> 12
  let x := x ^^^ x <<< 25
  let x := x ^^^ x >>> 27
  x

def rnd (g : Xorshift64star) : BitVec 64 × Xorshift64star :=
  let x := shifted g.seed
  (x * 0x2545F4914F6CDD1D, { seed := x })

def calls (n : Nat) (g : Xorshift64star) : Xorshift64star :=
  (fun g => g.rnd.2)^[n] g

theorem shifted_eq : shifted = xorShiftRight 27 ∘ xorShiftLeft 25 ∘ xorShiftRight 12 := by
  rfl

theorem shifted_onlyZero : OnlyZero shifted := by
  rw [shifted_eq]
  exact (OnlyZero.xorShiftRight (by omega)).comp
    ((OnlyZero.xorShiftLeft (by omega)).comp (OnlyZero.xorShiftRight (by omega)))

theorem shifted_linear : Linear shifted := by
  rw [shifted_eq]
  exact (Linear.xorShiftRight 27).comp ((Linear.xorShiftLeft 25).comp (Linear.xorShiftRight 12))

theorem calls_succ (n : Nat) (g : Xorshift64star)
    : (calls (n + 1) g).seed = shifted (calls n g).seed := by
  simp only [calls, Function.iterate_succ_apply', rnd]

theorem calls_seed_eq_zero (n : Nat) (g : Xorshift64star)
    : (calls n g).seed = 0 ↔ g.seed = 0 := by
  induction n with
  | zero => exact Iff.rfl
  | succ n ih =>
    rw [calls_succ, ← ih]
    constructor
    . exact shifted_onlyZero _
    . intro h
      rw [h, shifted_linear.map_zero]

/-- At zero, the generator returns nothing but zeros. -/
theorem rnd_of_seed_eq_zero {g : Xorshift64star} (h : g.seed = 0) (n : Nat)
    : (calls n g).rnd.1 = 0 := by
  rw [rnd, (calls_seed_eq_zero n g).mpr h, shifted_linear.map_zero]
  rfl

def NeverZero (g : Xorshift64star) : Prop :=
  ∀ n, (calls n g).seed ≠ 0

/--
No two states have the same successor, and only zero has zero; so the state is never zero if the
random device does not return what cancels the seed and the counter.
-/
theorem neverZero_iff (seed_ mtCounter : BitVec 64) (rd : BitVec 32)
    : (Function.Injective shifted ∧ ∀ x, shifted x = 0 ↔ x = 0)
      ∧ (NeverZero (create seed_ mtCounter rd).1 ↔ rd.setWidth 64 ≠ seed_ ^^^ mtCounter) := by
  refine ⟨⟨shifted_linear.injective shifted_onlyZero, ?_⟩, ?_⟩
  . intro x
    constructor
    . exact shifted_onlyZero x
    . rintro rfl
      exact shifted_linear.map_zero
  . have hseed : (create seed_ mtCounter rd).1.seed = 0 ↔ rd.setWidth 64 = seed_ ^^^ mtCounter := by
      constructor
      . intro h
        exact (BitVec.xor_eq_zero_iff.mp h).symm
      . intro h
        simp [create, h]
    constructor
    . intro h heq
      exact h 0 (hseed.mpr heq)
    . intro hne n h
      exact hne (hseed.mp ((calls_seed_eq_zero n _).mp h))

/-- The first generator with the default seed, when the random device returns the seed. -/
theorem not_neverZero_defaultSeed
    : (create 19650218 0 19650218).1.seed = 0 ∧ ¬NeverZero (create 19650218 0 19650218).1 := by
  refine ⟨by decide, ?_⟩
  intro h
  exact h 0 (by decide)

end Xorshift64star
end RandomGenerator
