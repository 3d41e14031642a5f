import Mathlib.Algebra.Order.Group.Multiset
import Mathlib.Data.Fintype.Basic
import RdmaSync.BatchQueue.Container
import RdmaSync.Refinement.LinkedList
import RdmaSync.Threads.Transition

/-!
This module contains the batch queue, which keeps its batches on two linked lists, and the threads
that use it.
-/

namespace BatchQueue

open Refinement Threads

inductive Failure where
  | assertion
  | nullPointer
  | cannotPush
  | duplicate
  | unfinished
  deriving DecidableEq

structure Metadata (n : Nat) where
  head : Option (Fin n)
  size : BitVec 64
  deriving DecidableEq

/--
`BatchQueue` without its latch. A pointer to one of the `n` batches is its index, and the batches are
their fields `container` and `next`.
-/
structure Queue (C : Type) (n : Nat) where
  elements : BitVec 64
  container : Fin n → C
  next : Fin n → Option (Fin n)
  full : Metadata n
  empty : Metadata n

structure Returned (C : Type) (n : Nat) where
  rc : Bool
  batch : Option (Fin n)
  queue : Queue C n

def assert (p : Prop) [Decidable p] : Except Failure Unit :=
  if p then .ok () else .error .assertion

def deref {n : Nat} (batch : Option (Fin n)) : Except Failure (Fin n) :=
  match batch with
  | some b => .ok b
  | none => .error .nullPointer

namespace Queue

variable {C T : Type} [Container C T] {n : Nat}

def getSize (q : Queue C n) (b : Fin n) : BitVec 64 :=
  Container.getSize (q.container b)

def exec (q : Queue C n) (b : Fin n) (op : Op T) : Queue C n :=
  { q with container := Function.update q.container b (Container.exec op (q.container b)).2 }

def setNext (q : Queue C n) (b : Fin n) (next : Option (Fin n)) : Queue C n :=
  { q with next := Function.update q.next b next }

def incrementElements (q : Queue C n) (incSize : BitVec 64) : Queue C n :=
  { q with elements := q.elements + incSize }

def decrementElements (q : Queue C n) (decSize : BitVec 64) : Queue C n :=
  { q with elements := q.elements - decSize }

/-- What the operations have in common that push to the full list. -/
def pushFullHead (q : Queue C n) (b : Fin n) : Queue C n :=
  let q := q.setNext b q.full.head
  let q := q.incrementElements (q.getSize b)
  { q with full := { head := some b, size := q.full.size + 1 } }

def pushEmptyHead (q : Queue C n) (b : Fin n) : Except Failure (Queue C n) := do
  assert (q.getSize b = 0)
  let q := q.setNext b q.empty.head
  return { q with empty := { head := some b, size := q.empty.size + 1 } }

def popEmptyHead (q : Queue C n) : Except Failure (Returned C n) := do
  let b ← deref q.empty.head
  let q := { q with empty := { q.empty with head := q.next b } }
  assert (q.getSize b = 0)
  let q := { q with empty := { q.empty with size := q.empty.size - 1 } }
  return { rc := true, batch := some b, queue := q }

def popFullHead (q : Queue C n) : Except Failure (Returned C n) := do
  let b ← deref q.full.head
  let q := { q with full := { q.full with head := q.next b } }
  let q := q.decrementElements (q.getSize b)
  let q := { q with full := { q.full with size := q.full.size - 1 } }
  return { rc := true, batch := some b, queue := q }

def tryPushFull (q : Queue C n) (batch : Option (Fin n)) : Except Failure (Returned C n) := do
  let b ← deref batch
  return { rc := true, batch, queue := q.pushFullHead b }

def tryPushEmpty (q : Queue C n) (batch : Option (Fin n)) : Except Failure (Returned C n) := do
  let b ← deref batch
  let q ← q.pushEmptyHead b
  return { rc := true, batch, queue := q }

def tryPopEmpty (q : Queue C n) (batch : Option (Fin n)) : Except Failure (Returned C n) :=
  if q.empty.head = none then
    return { rc := false, batch, queue := q }
  else
    q.popEmptyHead

def pushFullAndTryPopEmpty (q : Queue C n) (batch : Option (Fin n))
    : Except Failure (Returned C n) :=
  if q.empty.head = none then
    return { rc := false, batch, queue := q }
  else do
    let b ← deref batch
    (q.pushFullHead b).popEmptyHead

def noElements (q : Queue C n) : Bool :=
  q.elements = 0

def pushEmptyAndTryPopFull (q : Queue C n) (batch : Option (Fin n))
    : Except Failure (Returned C n) :=
  if q.full.head = none then
    return { rc := false, batch, queue := q }
  else do
    let b ← deref batch
    let q ← q.pushEmptyHead b
    q.popFullHead

def tryPopFull (q : Queue C n) (batch : Option (Fin n)) : Except Failure (Returned C n) :=
  if q.full.head = none then
    return { rc := false, batch, queue := q }
  else
    q.popFullHead

/-- The loop of `reset`, where `try_pop_full` finds the latch free. -/
def resetLoop (passes : Nat) (q : Queue C n) (fullBatch : Option (Fin n))
    : Except Failure (Queue C n) :=
  match passes with
  | 0 => .error .unfinished
  | passes + 1 => do
    if q.noElements then
      return q
    let popped ← q.tryPopFull fullBatch
    if popped.rc then
      let b ← deref popped.batch
      let pushed ← (popped.queue.exec b .reset).tryPushEmpty (some b)
      if pushed.rc then
        resetLoop passes pushed.queue pushed.batch
      else
        .error .cannotPush
    else
      return popped.queue

def batches (q : Queue C n) (passes : Nat) (list : Metadata n)
    : Except Failure (List (Fin n)) :=
  match walk q.next passes list.head with
  | some l => .ok l
  | none => .error .unfinished

def countEmpty (histogram : Fin n → Nat) (b : Fin n) : Except Failure (Fin n → Nat) :=
  let histogram := Function.update histogram b (histogram b + 1)
  if histogram b > 1 then
    .error .duplicate
  else
    .ok histogram

def assertNoDuplicates (q : Queue C n) (passes : Nat) : Except Failure Unit := do
  let full ← q.batches passes q.full
  let histogram := full.foldl (fun h b => Function.update h b (h b + 1)) fun _ => 0
  let empty ← q.batches passes q.empty
  let _ ← empty.foldlM countEmpty histogram
  return ()

def reset (q : Queue C n) (passes : Nat) : Except Failure (Queue C n) :=
  if q.full.size = 0 then
    return q
  else do
    assert (q.full.head ≠ none)
    let q ← q.resetLoop passes none
    assert (q.full.size = 0)
    q.assertNoDuplicates passes
    return q

/-- The loop is left after the first pass, since `try_push_empty` does not fail. -/
def pushEmpty (q : Queue C n) (b : Fin n) : Except Failure (Queue C n) := do
  assert (q.getSize b = 0)
  let r ← q.tryPushEmpty (some b)
  return r.queue

def created : Except Failure (Queue C n) :=
  (List.finRange n).foldlM pushEmpty
    { elements := 0
      container := fun _ => Container.init
      next := fun _ => none
      full := { head := none, size := 0 }
      empty := { head := none, size := 0 } }

def contents (q : Queue C n) (l : List (Fin n)) : Multiset T :=
  (l.map fun b => (Container.contents (q.container b) : Multiset T)).sum

end Queue

inductive Guarded where
  | tryPopFull
  | pushEmptyAndTryPopFull
  deriving DecidableEq

inductive Pc where
  | idle
  /-- Has found that there are elements, and is going to try the latch. -/
  | tests (call : Guarded)
  deriving DecidableEq

/--
`batch` is the pointer that a thread passes to the operations, `rc` what its last operation returned,
and `holder` says which thread has popped a batch and not pushed it since. `pushed`, `handedOut` and
`discarded` are the elements of the batches that were pushed to the full list, popped from it, and
reset.
-/
structure State (C T : Type) (n : Nat) (Th : Type) where
  queue : Queue C n
  pc : Th → Pc
  batch : Th → Option (Fin n)
  rc : Th → Option Bool
  holder : Fin n → Option Th
  pushed : Multiset T
  handedOut : Multiset T
  discarded : Multiset T
  failed : Bool

inductive Act (T : Type) (n : Nat) (Th : Type) where
  | assign (t : Th) (batch : Option (Fin n))
  | exec (t : Th) (b : Fin n) (op : Op T)
  | tryPushFull (t : Th)
  | tryPushEmpty (t : Th)
  | tryPopEmpty (t : Th)
  | pushFullAndTryPopEmpty (t : Th)
  | guard (t : Th) (call : Guarded)
  | tryLock (t : Th) (locked : Bool)
  | reset (t : Th)

def Act.thread {T Th : Type} {n : Nat} (a : Act T n Th) : Th :=
  match a with
  | .assign t _ | .exec t _ _ | .tryPushFull t | .tryPushEmpty t | .tryPopEmpty t
  | .pushFullAndTryPopEmpty t | .guard t _ | .tryLock t _ | .reset t => t

namespace State

variable {C T Th : Type} [Container C T] {n : Nat}

def init (queue : Queue C n) : State C T n Th where
  queue
  pc _ := .idle
  batch _ := none
  rc _ := none
  holder _ := none
  pushed := 0
  handedOut := 0
  discarded := 0
  failed := false

variable [DecidableEq Th]

/-- The batch that a thread may push: it holds it, and the batch is as full as it has to be. -/
def pushable (s : State C T n Th) (t : Th) (p : BitVec 64 → Bool) : Option (Fin n) :=
  (s.batch t).filter fun b => s.holder b = some t ∧ p (s.queue.getSize b)

def give (s : State C T n Th) (b : Fin n) : State C T n Th :=
  { s with holder := Function.update s.holder b none }

def giveFull (s : State C T n Th) (b : Fin n) : State C T n Th :=
  { s.give b with pushed := s.pushed + s.queue.contents [b] }

def take (s : State C T n Th) (t : Th) (batch : Option (Fin n)) : State C T n Th :=
  match batch with
  | some b => { s with holder := Function.update s.holder b (some t) }
  | none => s

def takeFull (s : State C T n Th) (t : Th) (batch : Option (Fin n)) : State C T n Th :=
  { s.take t batch with handedOut := s.handedOut + s.queue.contents batch.toList }

/-- An operation returns; `ghost` is what it has done if it was successful. -/
def returns (s : State C T n Th) (t : Th) (r : Except Failure (Returned C n))
    (ghost : State C T n Th → Option (Fin n) → State C T n Th) : State C T n Th :=
  match r with
  | .error _ => { s with failed := true }
  | .ok r =>
    let s' :=
      { s with
        queue := r.queue
        pc := Function.update s.pc t .idle
        batch := Function.update s.batch t r.batch
        rc := Function.update s.rc t (some r.rc) }
    if r.rc then ghost s' r.batch else s'

end State

variable {C T Th : Type} [Container C T] [DecidableEq Th] [Fintype Th] {n : Nat}

def step : Step (State C T n Th) (Act T n Th)
  | s, .assign t batch =>
    if s.pc t = .idle then
      some
        { s with
          batch := Function.update s.batch t batch
          rc := Function.update s.rc t none }
    else
      none
  | s, .exec t b op =>
    if s.pc t = .idle ∧ s.holder b = some t then
      some { s with queue := s.queue.exec b op, rc := Function.update s.rc t none }
    else
      none
  | s, .tryPushFull t =>
    match s.pc t, s.pushable t (· ≠ 0) with
    | .idle, some b =>
      some (s.returns t (s.queue.tryPushFull (s.batch t)) fun s _ => s.giveFull b)
    | _, _ => none
  | s, .tryPushEmpty t =>
    match s.pc t, s.pushable t (· = 0) with
    | .idle, some b =>
      some (s.returns t (s.queue.tryPushEmpty (s.batch t)) fun s _ => s.give b)
    | _, _ => none
  | s, .tryPopEmpty t =>
    if s.pc t = .idle then
      some (s.returns t (s.queue.tryPopEmpty (s.batch t)) fun s batch => s.take t batch)
    else
      none
  | s, .pushFullAndTryPopEmpty t =>
    match s.pc t, s.pushable t (· ≠ 0) with
    | .idle, some b =>
      some (s.returns t (s.queue.pushFullAndTryPopEmpty (s.batch t)) fun s batch =>
        (s.giveFull b).take t batch)
    | _, _ => none
  | s, .guard t call =>
    if s.pc t = .idle ∧ (call = .pushEmptyAndTryPopFull → (s.pushable t (· = 0)).isSome) then
      if s.queue.noElements then
        some { s with rc := Function.update s.rc t (some false) }
      else
        some
          { s with
            pc := Function.update s.pc t (.tests call)
            rc := Function.update s.rc t none }
    else
      none
  | s, .tryLock t locked =>
    match s.pc t with
    | .idle => none
    | .tests call =>
      if !locked then
        some
          { s with
            pc := Function.update s.pc t .idle
            rc := Function.update s.rc t (some false) }
      else
        match call, s.pushable t (· = 0) with
        | .tryPopFull, _ =>
          some (s.returns t (s.queue.tryPopFull (s.batch t)) fun s batch => s.takeFull t batch)
        | .pushEmptyAndTryPopFull, some b =>
          some (s.returns t (s.queue.pushEmptyAndTryPopFull (s.batch t)) fun s batch =>
            (s.give b).takeFull t batch)
        | .pushEmptyAndTryPopFull, none => none
  | s, .reset t =>
    if ∀ t, s.pc t = .idle then
      -- no list is longer than there are batches
      match s.queue.reset (n + 1), s.queue.batches (n + 1) s.queue.full with
      | .ok q, .ok full =>
        some
          { s with
            queue := q
            rc := Function.update s.rc t none
            discarded := s.discarded + s.queue.contents full }
      | _, _ => some { s with failed := true }
    else
      none

end BatchQueue
