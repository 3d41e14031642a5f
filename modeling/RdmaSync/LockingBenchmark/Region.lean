import Mathlib.Algebra.Group.Nat.Defs

/-!
This module contains the memory region of the benchmarks: the check that the storage node makes on
its size, and the tuples that the workers address in it.
-/

namespace LockingBenchmark

/-- The parameters that the storage node and the workers get, and the size of the region. -/
structure Region where
  lockCount : BitVec 64
  tupleSize : BitVec 64
  padding : BitVec 64
  sizeBytes : BitVec 64
  deriving DecidableEq

namespace Region

variable (r : Region)

/--
What the storage node ensures before it registers the region. The source compares the sum, which
wraps around, with the size as a `double`.
-/
def check : Bool :=
  decide (r.lockCount * r.tupleSize + r.lockCount * r.padding < r.sizeBytes)

def lockAddr (start lockId : BitVec 64) : BitVec 64 :=
  let addr := start + 64
  addr + lockId * r.tupleSize + lockId * r.padding

/-- Where a tuple begins relative to the start of the region. -/
def offset (lockId : Nat) : Nat :=
  64 + lockId * (r.tupleSize.toNat + r.padding.toNat)

structure HoldsTuples : Prop where
  inRegion : ∀ lockId < r.lockCount.toNat, r.offset lockId + r.tupleSize.toNat ≤ r.sizeBytes.toNat
  apart : ∀ lockId < r.lockCount.toNat, ∀ lockId' < r.lockCount.toNat, lockId ≠ lockId' →
    r.offset lockId + r.tupleSize.toNat ≤ r.offset lockId'
      ∨ r.offset lockId' + r.tupleSize.toNat ≤ r.offset lockId
  barrier : ∀ lockId < r.lockCount.toNat, 8 ≤ r.offset lockId

variable {r}

theorem offset_add_le {lockId lockId' : Nat} (h : lockId < lockId')
    : r.offset lockId + r.tupleSize.toNat ≤ r.offset lockId' := by
  have hmul := Nat.mul_le_mul_right (r.tupleSize.toNat + r.padding.toNat) (Nat.succ_le_of_lt h)
  rw [Nat.succ_mul] at hmul
  unfold offset
  omega

theorem holdsTuples_of_last
    (h : 64 + r.lockCount.toNat * (r.tupleSize.toNat + r.padding.toNat)
      ≤ r.sizeBytes.toNat + r.padding.toNat)
    : r.HoldsTuples where
  inRegion := by
    intro lockId hlt
    have hmul := Nat.mul_le_mul_right (r.tupleSize.toNat + r.padding.toNat) (Nat.succ_le_of_lt hlt)
    rw [Nat.succ_mul] at hmul
    unfold offset
    omega
  apart := by
    intro lockId _ lockId' _ hne
    obtain hlt | hlt := Nat.lt_or_gt_of_ne hne
    . exact .inl (offset_add_le hlt)
    . exact .inr (offset_add_le hlt)
  barrier := by
    intro lockId _
    unfold offset
    omega

/-- The check leaves out the words before the first tuple, and may itself wrap. -/
theorem check_iff (hcount : 1 ≤ r.lockCount.toNat)
    : (r.check = true → r.HoldsTuples) ↔
        (r.check = true →
          64 + r.lockCount.toNat * (r.tupleSize.toNat + r.padding.toNat)
            ≤ r.sizeBytes.toNat + r.padding.toNat) := by
  constructor
  . intro hholds hcheck
    have hlast := (hholds hcheck).inRegion (r.lockCount.toNat - 1) (by omega)
    have hmul : r.lockCount.toNat * (r.tupleSize.toNat + r.padding.toNat)
        = (r.lockCount.toNat - 1) * (r.tupleSize.toNat + r.padding.toNat)
          + (r.tupleSize.toNat + r.padding.toNat) := by
      rw [← Nat.succ_mul]
      congr 1
      omega
    unfold offset at hlast
    omega
  . intro h hcheck
    exact holdsTuples_of_last (h hcheck)

theorem HoldsTuples.toNat_lockAddr (h : r.HoldsTuples) {start lockId : BitVec 64}
    (hstart : start.toNat + r.sizeBytes.toNat ≤ 2 ^ 64) (hsize : 0 < r.tupleSize.toNat)
    (hlt : lockId.toNat < r.lockCount.toNat)
    : (r.lockAddr start lockId).toNat = start.toNat + r.offset lockId.toNat := by
  have hin := h.inRegion lockId.toNat hlt
  unfold offset at *
  rw [Nat.mul_add] at *
  have hheader : (64 : BitVec 64).toNat = 64 := rfl
  simp only [lockAddr, BitVec.toNat_add, BitVec.toNat_mul, hheader]
  omega

def sampleRegion : Region where
  lockCount := 16
  tupleSize := 512
  padding := 8
  sizeBytes := 8376

theorem check_iff_sampleRegion : sampleRegion.check = true ∧ sampleRegion.HoldsTuples := by
  exact ⟨by decide, (check_iff (by decide)).mpr (fun _ => by decide) (by decide)⟩

/-- The check passes, and the end of the last tuple is outside of the region. -/
theorem not_holdsTuples_shortRegion
    : { sampleRegion with sizeBytes := 8321 }.check = true
      ∧ ¬{ sampleRegion with sizeBytes := 8321 : Region }.HoldsTuples := by
  refine ⟨by decide, ?_⟩
  intro h
  exact absurd (h.inRegion 15 (by decide)) (by decide)

end Region
end LockingBenchmark
