import Mathlib.Data.Nat.ModEq
import RdmaSync.Refinement.Machine

/-!
This module contains the ring buffer whose counters are never reduced, and the bounded queue that it
implements.
-/

namespace BatchQueue

open Refinement

structure Capacity where
  N : BitVec 64
  ne_zero : N ≠ 0
  and_eq_zero : N &&& (N - 1) = 0

structure RingBuffer (T : Type) (c : Capacity) where
  read : BitVec 64
  write : BitVec 64
  buffer : Vector T c.N.toNat

inductive Op (T : Type) where
  | tryPush (e : T)
  | tryPop (e : T)
  | reset
  deriving DecidableEq

inductive Result (T : Type) where
  | pushed (rc : Bool)
  | popped (rc : Bool) (e : T)
  | reset
  deriving DecidableEq

def Result.failed {T : Type} (res : Result T) : Bool :=
  match res with
  | .pushed rc | .popped rc _ => !rc
  | .reset => false

namespace Capacity

variable (c : Capacity)

def mask (val : BitVec 64) : BitVec 64 :=
  val &&& (c.N - 1)

theorem isPowerOfTwo : c.N.toNat.isPowerOfTwo := by
  have hne : c.N.toNat ≠ 0 := fun h => c.ne_zero (BitVec.eq_of_toNat_eq h)
  have hpred : (c.N - 1).toNat = c.N.toNat - 1 := by
    have hlt := c.N.isLt
    have hone : (1 : BitVec 64).toNat = 1 := rfl
    rw [BitVec.toNat_sub, hone]
    omega
  rw [← Nat.ne_zero_and_sub_one_eq_zero_iff_isPowerOfTwo]
  refine ⟨hne, ?_⟩
  rw [← hpred, ← BitVec.toNat_and, c.and_eq_zero]
  rfl

/-- The counters wrap at a multiple of the capacity. -/
theorem dvd : c.N.toNat ∣ 2 ^ 64 := by
  obtain ⟨k, hk⟩ := c.isPowerOfTwo
  have hlt := c.N.isLt
  rw [hk] at *
  exact Nat.pow_dvd_pow 2 (Nat.le_of_lt ((Nat.pow_lt_pow_iff_right (by omega)).mp hlt))

theorem pos : 0 < c.N.toNat := by
  exact Nat.pos_of_isPowerOfTwo c.isPowerOfTwo

theorem toNat_mask (val : BitVec 64) : (c.mask val).toNat = val.toNat % c.N.toNat := by
  obtain ⟨k, hk⟩ := c.isPowerOfTwo
  have hpos := c.pos
  have hlt := c.N.isLt
  have hpred : (c.N - 1).toNat = 2 ^ k - 1 := by
    have hone : (1 : BitVec 64).toNat = 1 := rfl
    rw [BitVec.toNat_sub, hone]
    omega
  rw [mask, BitVec.toNat_and, hpred, Nat.and_two_pow_sub_one_eq_mod, hk]

theorem mask_lt (val : BitVec 64) : (c.mask val).toNat < c.N.toNat := by
  rw [toNat_mask]
  exact Nat.mod_lt _ c.pos

end Capacity

namespace RingBuffer

variable {T : Type} {c : Capacity}

def getSize (q : RingBuffer T c) : BitVec 64 :=
  q.write - q.read

def empty (q : RingBuffer T c) : Bool :=
  q.read = q.write

def full (q : RingBuffer T c) : Bool :=
  q.getSize = c.N

def tryPush (q : RingBuffer T c) (e : T) : Bool × RingBuffer T c :=
  if q.full then
    (false, q)
  else
    (true,
      { q with
        write := q.write + 1
        buffer := q.buffer.set (c.mask q.write).toNat e (c.mask_lt _) })

def tryPop (q : RingBuffer T c) (e : T) : Bool × T × RingBuffer T c :=
  if q.empty then
    (false, e, q)
  else
    have hlt := c.mask_lt q.read
    (true, q.buffer[(c.mask q.read).toNat], { q with read := q.read + 1 })

def reset (q : RingBuffer T c) : RingBuffer T c :=
  { q with read := 0, write := 0 }

def exec : Machine (Op T) (Result T) (RingBuffer T c) := fun op q =>
  match op with
  | .tryPush e =>
    let (rc, q) := q.tryPush e
    (.pushed rc, q)
  | .tryPop e =>
    let (rc, e, q) := q.tryPop e
    (.popped rc e, q)
  | .reset => (.reset, q.reset)

end RingBuffer

def boundedQueue {T : Type} (n : Nat) : Machine (Op T) (Result T) (List T) := fun op l =>
  match op with
  | .tryPush e =>
    if l.length = n then
      (.pushed false, l)
    else
      (.pushed true, l ++ [e])
  | .tryPop e =>
    match l with
    | [] => (.popped false e, [])
    | x :: l => (.popped true x, l)
  | .reset => (.reset, [])

namespace RingBuffer

variable {T : Type} {c : Capacity} {q : RingBuffer T c} {l : List T}

/-- The elements between the counters, whatever they are. -/
structure Represents (q : RingBuffer T c) (l : List T) : Prop where
  length_le : l.length ≤ c.N.toNat
  write : q.write = q.read + BitVec.ofNat 64 l.length
  slot : ∀ i (_ : i < l.length), q.buffer[((q.read.toNat + i) % c.N.toNat)]? = some l[i]

theorem toNat_add_mod (c : Capacity) (x : BitVec 64) (n : Nat)
    : (x + BitVec.ofNat 64 n).toNat % c.N.toNat = (x.toNat + n) % c.N.toNat := by
  rw [BitVec.toNat_add, BitVec.toNat_ofNat, Nat.add_mod_mod, Nat.mod_mod_of_dvd _ c.dvd]

theorem ofNat_eq_iff (h : l.length ≤ c.N.toNat) {x : BitVec 64}
    : BitVec.ofNat 64 l.length = x ↔ l.length = x.toNat := by
  have hlt : l.length < 2 ^ 64 := Nat.lt_of_le_of_lt h c.N.isLt
  rw [← BitVec.toNat_inj, BitVec.toNat_ofNat, Nat.mod_eq_of_lt hlt]

theorem Represents.full (h : Represents q l) : q.full = decide (l.length = c.N.toNat) := by
  have hiff := ofNat_eq_iff h.length_le (x := c.N)
  rw [RingBuffer.full, getSize, h.write, BitVec.add_comm, BitVec.add_sub_cancel]
  exact decide_eq_decide.mpr hiff

theorem Represents.empty (h : Represents q l) : q.empty = decide (l.length = 0) := by
  have hiff := ofNat_eq_iff h.length_le (x := 0)
  rw [RingBuffer.empty, h.write]
  refine decide_eq_decide.mpr (Iff.trans ?_ hiff)
  rw [eq_comm]
  exact BitVec.add_right_eq_self

theorem represents_nil (h : q.read = q.write) : Represents q [] where
  length_le := Nat.zero_le _
  write := by simp [h]
  slot := by simp

theorem Represents.push (h : Represents q l) (hlt : l.length < c.N.toNat) (e : T)
    : Represents
      { q with
        write := q.write + 1
        buffer := q.buffer.set (c.mask q.write).toNat e (c.mask_lt _) } (l ++ [e]) := by
  have hindex : (c.mask q.write).toNat = (q.read.toNat + l.length) % c.N.toNat := by
    rw [c.toNat_mask, h.write, toNat_add_mod]
  refine ⟨?_, ?_, ?_⟩
  . rw [List.length_append]
    exact hlt
  . simp only [h.write, List.length_append, List.length_singleton, BitVec.ofNat_add]
    rw [BitVec.add_assoc]
    rfl
  . intro i hi
    simp only [hindex]
    rw [List.length_append, List.length_singleton] at hi
    obtain hi | rfl := Nat.lt_succ_iff_lt_or_eq.mp hi
    . -- No two of the positions are equal, since they are less than the capacity apart.
      have hne : (q.read.toNat + l.length) % c.N.toNat ≠ (q.read.toNat + i) % c.N.toNat := by
        intro heq
        have hdvd := (Nat.modEq_iff_dvd' (by omega)).mp heq.symm
        have := Nat.le_of_dvd (by omega) hdvd
        omega
      rw [List.getElem_append_left hi, Vector.getElem?_set_ne _ hne]
      exact h.slot i hi
    . simp [Vector.getElem?_set_self]

theorem Represents.pop {x : T} (h : Represents q (x :: l))
    : q.buffer[(c.mask q.read).toNat]? = some x
      ∧ Represents { q with read := q.read + 1 } l := by
  refine ⟨?_, ?_, ?_, ?_⟩
  . have hslot := h.slot 0 (Nat.zero_lt_succ _)
    rwa [Nat.add_zero, ← c.toNat_mask] at hslot
  . exact Nat.le_of_succ_le h.length_le
  . show q.write = q.read + 1#64 + _
    rw [h.write, List.length_cons, Nat.add_comm, BitVec.ofNat_add, ← BitVec.add_assoc]
  . intro i hi
    have hslot := h.slot (i + 1) (Nat.succ_lt_succ hi)
    have hindex : ((q.read + 1).toNat + i) % c.N.toNat = (q.read.toNat + (i + 1)) % c.N.toNat := by
      have hone : (q.read + 1).toNat % c.N.toNat = (q.read.toNat + 1) % c.N.toNat :=
        toNat_add_mod c q.read 1
      rw [Nat.add_mod, hone, ← Nat.add_mod, Nat.add_assoc, Nat.add_comm 1]
    rw [hindex]
    exact hslot

theorem exec_simulates
    : (exec (T := T) (c := c)).Simulates (boundedQueue c.N.toNat) Represents := by
  intro op q l h
  cases op with
  | tryPush e =>
    by_cases hfull : l.length = c.N.toNat
    . simp [exec, tryPush, h.full, boundedQueue, hfull, h]
    . have hlt := Nat.lt_of_le_of_ne h.length_le hfull
      simp only [exec, tryPush, h.full, boundedQueue, hfull, decide_false, Bool.false_eq_true,
        if_false, true_and]
      exact h.push hlt e
  | tryPop e =>
    cases l with
    | nil => simp [exec, tryPop, h.empty, boundedQueue, h]
    | cons x l =>
      obtain ⟨hslot, hpop⟩ := h.pop
      have hx := (Vector.getElem?_eq_some_iff.mp hslot).2
      simp only [exec, tryPop, h.empty, boundedQueue, List.length_cons, Nat.add_eq_zero_iff,
        Nat.one_ne_zero, and_false, decide_false, Bool.false_eq_true, if_false, hx, true_and]
      exact hpop
  | reset => exact ⟨rfl, represents_nil rfl⟩

theorem exec_of_failed {op : Op T} (h : (exec op q).1.failed = true) : (exec op q).2 = q := by
  cases op with
  | tryPush e =>
    by_cases hfull : q.full = true
    . simp [exec, tryPush, hfull]
    . simp [exec, tryPush, hfull, Result.failed] at h
  | tryPop e =>
    by_cases hempty : q.empty = true
    . simp [exec, tryPop, hempty]
    . simp [exec, tryPop, hempty, Result.failed] at h
  | reset => simp [exec, Result.failed] at h

/-- The ring buffer answers like a bounded queue, also when its counters wrap. -/
theorem ringBuffer_refines_queue (q : RingBuffer T c) (h : q.read = q.write) (ops : List (Op T))
    : (exec.run ops q).1 = ((boundedQueue c.N.toNat).run ops []).1
      ∧ ∀ op, (exec op (exec.run ops q).2).1.failed = true →
        (exec op (exec.run ops q).2).2 = (exec.run ops q).2 := by
  exact ⟨(exec_simulates.run ops (represents_nil h)).1, fun _ => exec_of_failed⟩

def aboutToWrap : RingBuffer Nat { N := 2, ne_zero := by decide, and_eq_zero := by decide } where
  read := -1
  write := -1
  buffer := #v[0, 0]

def wrappingOps : List (Op Nat) :=
  [.tryPush 7, .tryPush 8, .tryPush 9, .tryPop 0, .tryPop 0, .tryPop 0]

theorem ringBuffer_refines_queue_aboutToWrap
    : (exec.run wrappingOps aboutToWrap).1 = ((boundedQueue 2).run wrappingOps []).1
      ∧ ((boundedQueue 2).run wrappingOps []).1
          =
        [.pushed true, .pushed true, .pushed false, .popped true 7, .popped true 8,
          .popped false 0] := by
  exact ⟨(ringBuffer_refines_queue aboutToWrap rfl _).1, by decide⟩

end RingBuffer
end BatchQueue
