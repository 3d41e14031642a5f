import Mathlib.Data.List.OfFn
import RdmaSync.BatchQueue.RingBuffer

/-!
This module contains the stack, and what the batch queue uses of a container: the stack and the ring
buffer are the two that there are.
-/

namespace BatchQueue

open Refinement

/-- A stack; its first assertion is a field. -/
structure Stack (T : Type) (N : BitVec 64) where
  size : BitVec 64
  buffer : Vector T N.toNat
  size_le : size.toNat ≤ N.toNat

namespace Stack

variable {T : Type} {N : BitVec 64}

def empty (st : Stack T N) : Bool :=
  st.size = 0

def full (st : Stack T N) : Bool :=
  st.size = N

def getSize (st : Stack T N) : BitVec 64 :=
  st.size

theorem size_lt {st : Stack T N} (h : ¬st.full = true) : st.size.toNat < N.toNat := by
  refine Nat.lt_of_le_of_ne st.size_le ?_
  intro heq
  exact h (by simp [full, BitVec.eq_of_toNat_eq heq])

theorem toNat_size_add_one {st : Stack T N} (h : ¬st.full = true)
    : (st.size + 1).toNat = st.size.toNat + 1 := by
  have hlt := size_lt h
  have hN := N.isLt
  rw [BitVec.toNat_add]
  exact Nat.mod_eq_of_lt (by show _ + 1 < _; omega)

theorem toNat_size_sub_one {st : Stack T N} (h : ¬st.empty = true)
    : (st.size - 1).toNat + 1 = st.size.toNat := by
  have hne : st.size.toNat ≠ 0 := by
    intro heq
    exact h (by simp [empty, BitVec.eq_of_toNat_eq (y := 0) heq])
  have hone : (1 : BitVec 64).toNat = 1 := rfl
  have hlt := st.size.isLt
  rw [BitVec.toNat_sub, hone]
  omega

def tryPush (st : Stack T N) (e : T) : Bool × Stack T N :=
  if h : st.full then
    (false, st)
  else
    have hlt := size_lt h
    (true,
      { size := st.size + 1
        buffer := st.buffer.set st.size.toNat e hlt
        size_le := by rw [toNat_size_add_one h]; exact hlt })

def tryPop (st : Stack T N) (e : T) : Bool × T × Stack T N :=
  if h : st.empty then
    (false, e, st)
  else
    have hsize := toNat_size_sub_one h
    have hle := st.size_le
    (true, st.buffer[(st.size - 1).toNat],
      { st with size := st.size - 1, size_le := by omega })

def reset (st : Stack T N) : Stack T N :=
  { st with size := 0, size_le := Nat.zero_le _ }

def exec : Machine (Op T) (Result T) (Stack T N) := fun op st =>
  match op with
  | .tryPush e =>
    let (rc, st) := st.tryPush e
    (.pushed rc, st)
  | .tryPop e =>
    let (rc, e, st) := st.tryPop e
    (.popped rc e, st)
  | .reset => (.reset, st.reset)

def contents (st : Stack T N) : List T :=
  st.buffer.toList.take st.size.toNat

theorem length_contents (st : Stack T N) : st.contents.length = st.getSize.toNat := by
  rw [contents, List.length_take, Vector.length_toList, getSize]
  exact Nat.min_eq_left st.size_le

end Stack

def boundedStack {T : Type} (n : Nat) : Machine (Op T) (Result T) (List T) := fun op l =>
  match op with
  | .tryPush e =>
    if l.length = n then
      (.pushed false, l)
    else
      (.pushed true, l ++ [e])
  | .tryPop e =>
    match l.getLast? with
    | none => (.popped false e, l)
    | some x => (.popped true x, l.dropLast)
  | .reset => (.reset, [])

namespace Stack

variable {T : Type} {N : BitVec 64} {st : Stack T N}

theorem full_iff : st.full = true ↔ st.contents.length = N.toNat := by
  rw [length_contents, getSize, full, decide_eq_true_eq, BitVec.toNat_inj]

theorem empty_iff : st.empty = true ↔ st.contents = [] := by
  rw [← List.length_eq_zero_iff, length_contents, getSize, empty, decide_eq_true_eq]
  exact BitVec.toNat_inj.symm

theorem contents_push (h : ¬st.full = true) (e : T)
    : (st.tryPush e).2.contents = st.contents ++ [e] := by
  have hlt := size_lt h
  rw [tryPush, dif_neg h]
  simp only [contents, toNat_size_add_one h]
  rw [Vector.toList_set, List.take_succ_eq_append_getElem (by simpa using hlt),
    List.take_set_of_le (Nat.le_refl _), List.getElem_set_self]

theorem contents_pop (h : ¬st.empty = true)
    : st.contents = (st.tryPop e).2.2.contents ++ [(st.tryPop e).2.1] := by
  have hsize := toNat_size_sub_one h
  have hle := st.size_le
  rw [tryPop, dif_neg h]
  simp only [contents]
  rw [← hsize, List.take_succ_eq_append_getElem (by rw [Vector.length_toList]; omega),
    Vector.getElem_toList]

theorem exec_simulates
    : (exec (T := T) (N := N)).Simulates (boundedStack N.toNat) fun st l => st.contents = l := by
  rintro op st l rfl
  cases op with
  | tryPush e =>
    by_cases hfull : st.full = true
    . simp only [exec, boundedStack, if_pos (full_iff.mp hfull)]
      rw [tryPush, dif_pos hfull]
      exact ⟨rfl, rfl⟩
    . simp only [exec, boundedStack, if_neg (mt full_iff.mpr hfull)]
      refine ⟨?_, contents_push hfull e⟩
      rw [tryPush, dif_neg hfull]
  | tryPop e =>
    by_cases hempty : st.empty = true
    . simp only [exec, boundedStack, empty_iff.mp hempty, List.getLast?_nil]
      rw [tryPop, dif_pos hempty]
      exact ⟨rfl, empty_iff.mp hempty⟩
    . simp only [exec, boundedStack]
      rw [contents_pop (e := e) hempty, List.getLast?_concat, List.dropLast_concat]
      refine ⟨?_, rfl⟩
      rw [tryPop, dif_neg hempty]
  | reset => exact ⟨rfl, rfl⟩

end Stack

class Container (C : Type) (T : outParam Type) where
  batchSize : Nat
  init : C
  exec : Machine (Op T) (Result T) C
  getSize : C → BitVec 64
  contents : C → List T
  length_contents (c : C) : (contents c).length = (getSize c).toNat
  getSize_le (c : C) : (getSize c).toNat ≤ batchSize
  getSize_init : getSize init = 0
  getSize_reset (c : C) : getSize (exec .reset c).2 = 0

instance {T : Type} [Inhabited T] {N : BitVec 64} : Container (Stack T N) T where
  batchSize := N.toNat
  init := { size := 0, buffer := .replicate _ default, size_le := Nat.zero_le _ }
  exec := Stack.exec
  getSize := Stack.getSize
  contents := Stack.contents
  length_contents := Stack.length_contents
  getSize_le st := st.size_le
  getSize_init := rfl
  getSize_reset _ := rfl

namespace RingBuffer

variable {T : Type} {c : Capacity} {q : RingBuffer T c} {l : List T}

def contents (q : RingBuffer T c) : List T :=
  List.ofFn fun i : Fin q.getSize.toNat =>
    have hlt := c.mask_lt (q.read + .ofNat 64 i)
    q.buffer[(c.mask (q.read + .ofNat 64 i)).toNat]

theorem length_contents (q : RingBuffer T c) : q.contents.length = q.getSize.toNat := by
  rw [contents, List.length_ofFn]

theorem represents_contents (h : q.getSize.toNat ≤ c.N.toNat) : Represents q q.contents := by
  constructor
  . rw [length_contents]
    exact h
  . rw [length_contents, BitVec.ofNat_toNat, BitVec.setWidth_eq, getSize]
    rw [BitVec.add_comm, BitVec.sub_add_cancel]
  . intro i hi
    simp only [contents, List.getElem_ofFn]
    rw [← toNat_add_mod, ← c.toNat_mask]
    exact Vector.getElem?_eq_getElem _

theorem Represents.getSize (h : Represents q l) : q.getSize.toNat = l.length := by
  have hlt := Nat.lt_of_le_of_lt h.length_le c.N.isLt
  rw [RingBuffer.getSize, h.write, BitVec.add_comm, BitVec.add_sub_cancel, BitVec.toNat_ofNat,
    Nat.mod_eq_of_lt hlt]

theorem getSize_exec (h : q.getSize.toNat ≤ c.N.toNat) (op : Op T)
    : (exec op q).2.getSize.toNat ≤ c.N.toNat := by
  have hsim := (exec_simulates op q _ (represents_contents h)).2
  rw [hsim.getSize]
  exact hsim.length_le

def created [Inhabited T] : RingBuffer T c where
  read := 0
  write := 0
  buffer := .replicate _ default

theorem getSize_created [Inhabited T] : (created : RingBuffer T c).getSize = 0 := by
  exact BitVec.sub_self 0

theorem getSize_created_le [Inhabited T]
    : (created : RingBuffer T c).getSize.toNat ≤ c.N.toNat := by
  rw [getSize_created]
  exact Nat.zero_le _

theorem getSize_reset (q : RingBuffer T c) : (exec .reset q).2.getSize = 0 := by
  exact BitVec.sub_self 0

end RingBuffer

instance {T : Type} [Inhabited T] {c : Capacity}
    : Container { q : RingBuffer T c // q.getSize.toNat ≤ c.N.toNat } T where
  batchSize := c.N.toNat
  init := ⟨.created, RingBuffer.getSize_created_le⟩
  exec op q := ((RingBuffer.exec op q.val).1, ⟨_, RingBuffer.getSize_exec q.property op⟩)
  getSize q := q.val.getSize
  contents q := q.val.contents
  length_contents q := q.val.length_contents
  getSize_le q := q.property
  getSize_init := RingBuffer.getSize_created
  getSize_reset q := RingBuffer.getSize_reset q.val

end BatchQueue
