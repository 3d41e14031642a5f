import Mathlib.Data.BitVec
import RdmaSync.BatchQueue.Impl

/-!
This module contains what the sections of the batch queue that hold the latch do to its two lists.
-/

namespace BatchQueue

open Refinement

variable {C T : Type} [Container C T] {n : Nat}

structure Represents (q : Queue C n) (full empty : List (Fin n)) : Prop where
  fullLinked : Linked q.next q.full.head full
  emptyLinked : Linked q.next q.empty.head empty
  disjoint : full.Disjoint empty
  fullSize : q.full.size = .ofNat 64 full.length
  emptySize : q.empty.size = .ofNat 64 empty.length
  elements : q.elements = (full.map q.getSize).sum

variable {q : Queue C n} {full empty : List (Fin n)} {b : Fin n} {batch : Option (Fin n)}

theorem bind_of_eq_ok {α β : Type} {x : Except Failure α} {a : α} (h : x = .ok a)
    (f : α → Except Failure β) : x >>= f = f a := by
  rw [h]
  rfl

theorem assert_ok {p : Prop} [Decidable p] (h : p) : assert p = .ok () := by
  rw [assert, if_pos h]

theorem ofNat_length_cons {α : Type} (a : α) (l : List α)
    : BitVec.ofNat 64 (a :: l).length = BitVec.ofNat 64 l.length + 1 := by
  rw [List.length_cons, BitVec.ofNat_add]
  rfl

theorem pushEmptyHead_eq (hsize : q.getSize b = 0)
    : q.pushEmptyHead b = .ok
        { q.setNext b q.empty.head with
          empty := { head := some b, size := q.empty.size + 1 } } := by
  rw [Queue.pushEmptyHead, assert_ok hsize]
  rfl

theorem popEmptyHead_eq (hhead : q.empty.head = some b) (hsize : q.getSize b = 0)
    : q.popEmptyHead = .ok
        { rc := true
          batch := some b
          queue := { q with empty := { head := q.next b, size := q.empty.size - 1 } } } := by
  rw [Queue.popEmptyHead, hhead]
  refine (bind_of_eq_ok (x := deref (some b)) rfl _).trans ?_
  exact bind_of_eq_ok (assert_ok hsize) _

theorem popFullHead_eq (hhead : q.full.head = some b)
    : q.popFullHead = .ok
        { rc := true
          batch := some b
          queue :=
            { q with
              elements := q.elements - q.getSize b
              full := { head := q.next b, size := q.full.size - 1 } } } := by
  rw [Queue.popFullHead, hhead]
  rfl

theorem tryPushEmpty_eq {q' : Queue C n} (h : q.pushEmptyHead b = .ok q')
    : q.tryPushEmpty (some b) = .ok { rc := true, batch := some b, queue := q' } := by
  exact bind_of_eq_ok h _

namespace Represents

theorem full_head (h : Represents q full empty) : q.full.head = none ↔ full = [] := by
  rw [h.fullLinked.head_eq, List.head?_eq_none_iff]

theorem empty_head (h : Represents q full empty) : q.empty.head = none ↔ empty = [] := by
  rw [h.emptyLinked.head_eq, List.head?_eq_none_iff]

theorem pushFullHead (h : Represents q full empty) (hfull : b ∉ full) (hempty : b ∉ empty)
    : Represents (q.pushFullHead b) (b :: full) empty where
  fullLinked := h.fullLinked.push hfull
  emptyLinked := h.emptyLinked.update hempty _
  disjoint := List.disjoint_cons_left.mpr ⟨hempty, h.disjoint⟩
  fullSize := by
    rw [ofNat_length_cons, ← h.fullSize]
    rfl
  emptySize := h.emptySize
  elements := by
    rw [List.map_cons, List.sum_cons, BitVec.add_comm]
    exact congrArg (· + q.getSize b) h.elements

theorem pushEmptyHead (h : Represents q full empty) (hfull : b ∉ full) (hempty : b ∉ empty)
    (hsize : q.getSize b = 0)
    : ∃ q', q.pushEmptyHead b = .ok q' ∧ Represents q' full (b :: empty) ∧
        q'.container = q.container := by
  refine ⟨_, pushEmptyHead_eq hsize, ?_, rfl⟩
  exact
    { fullLinked := h.fullLinked.update hfull _
      emptyLinked := h.emptyLinked.push hempty
      disjoint := List.disjoint_cons_right.mpr ⟨hfull, h.disjoint⟩
      fullSize := h.fullSize
      emptySize := by rw [ofNat_length_cons, ← h.emptySize]
      elements := h.elements }

theorem popEmptyHead (h : Represents q full (b :: empty)) (hsize : q.getSize b = 0)
    : ∃ q', q.popEmptyHead = .ok { rc := true, batch := some b, queue := q' } ∧
        Represents q' full empty ∧ q'.container = q.container := by
  refine ⟨_, popEmptyHead_eq h.emptyLinked.head_eq hsize, ?_, rfl⟩
  exact
    { fullLinked := h.fullLinked
      emptyLinked := h.emptyLinked.tail
      disjoint := (List.disjoint_cons_right.mp h.disjoint).2
      fullSize := h.fullSize
      emptySize := by
        show q.empty.size - 1 = _
        rw [h.emptySize, ofNat_length_cons, BitVec.add_sub_cancel]
      elements := h.elements }

theorem popFullHead (h : Represents q (b :: full) empty)
    : ∃ q', q.popFullHead = .ok { rc := true, batch := some b, queue := q' } ∧
        Represents q' full empty ∧ q'.container = q.container := by
  refine ⟨_, popFullHead_eq h.fullLinked.head_eq, ?_, rfl⟩
  exact
    { fullLinked := h.fullLinked.tail
      emptyLinked := h.emptyLinked
      disjoint := (List.disjoint_cons_left.mp h.disjoint).2
      fullSize := by
        show q.full.size - 1 = _
        rw [h.fullSize, ofNat_length_cons, BitVec.add_sub_cancel]
      emptySize := h.emptySize
      elements := by
        show q.elements - q.getSize b = _
        rw [h.elements, List.map_cons, List.sum_cons, BitVec.add_comm]
        exact BitVec.add_sub_cancel _ _ }

end Represents

section

variable {r : Returned C n}

theorem eq_ok_of_bind {α β : Type} {x : Except Failure α} {f : α → Except Failure β} {y : β}
    (h : x >>= f = .ok y) : ∃ a, x = .ok a ∧ f a = .ok y := by
  cases x with
  | error e => cases h
  | ok a => exact ⟨a, rfl, h⟩

theorem popEmptyHead_rc (h : q.popEmptyHead = .ok r) : r.rc = true := by
  obtain ⟨_, _, h⟩ := eq_ok_of_bind h
  obtain ⟨_, _, h⟩ := eq_ok_of_bind h
  cases h
  rfl

theorem popFullHead_rc (h : q.popFullHead = .ok r) : r.rc = true := by
  obtain ⟨_, _, h⟩ := eq_ok_of_bind h
  cases h
  rfl

def Returned.Keeps (r : Returned C n) (q : Queue C n) (batch : Option (Fin n)) : Prop :=
  r.rc = false → r.queue = q ∧ r.batch = batch

theorem keeps_of_rc (h : r.rc = true) : r.Keeps q batch := by
  intro hfalse
  rw [h] at hfalse
  simp at hfalse

theorem keeps_of_ite {p : Prop} [Decidable p] {x : Except Failure (Returned C n)}
    (hx : ∀ r, x = .ok r → r.rc = true)
    (h : (if p then .ok { rc := false, batch, queue := q } else x) = .ok r) : r.Keeps q batch := by
  split at h
  . cases h
    exact fun _ => ⟨rfl, rfl⟩
  . exact keeps_of_rc (hx r h)

theorem tryPushFull_keeps (h : q.tryPushFull batch = .ok r) : r.Keeps q batch := by
  obtain ⟨_, _, h⟩ := eq_ok_of_bind h
  cases h
  exact keeps_of_rc rfl

theorem tryPushEmpty_keeps (h : q.tryPushEmpty batch = .ok r) : r.Keeps q batch := by
  obtain ⟨_, _, h⟩ := eq_ok_of_bind h
  obtain ⟨_, _, h⟩ := eq_ok_of_bind h
  cases h
  exact keeps_of_rc rfl

theorem tryPopEmpty_keeps (h : q.tryPopEmpty batch = .ok r) : r.Keeps q batch := by
  exact keeps_of_ite (fun _ => popEmptyHead_rc) h

theorem pushFullAndTryPopEmpty_keeps (h : q.pushFullAndTryPopEmpty batch = .ok r)
    : r.Keeps q batch := by
  refine keeps_of_ite ?_ h
  intro r hr
  obtain ⟨_, _, hr⟩ := eq_ok_of_bind hr
  exact popEmptyHead_rc hr

theorem tryPopFull_keeps (h : q.tryPopFull batch = .ok r) : r.Keeps q batch := by
  exact keeps_of_ite (fun _ => popFullHead_rc) h

theorem pushEmptyAndTryPopFull_keeps (h : q.pushEmptyAndTryPopFull batch = .ok r)
    : r.Keeps q batch := by
  refine keeps_of_ite ?_ h
  intro r hr
  obtain ⟨_, _, hr⟩ := eq_ok_of_bind hr
  obtain ⟨_, _, hr⟩ := eq_ok_of_bind hr
  exact popFullHead_rc hr

end

end BatchQueue
