import Mathlib.Data.BitVec
import RdmaSync.Helper
import RdmaSync.Refinement.Trace
import RdmaSync.Threads.Transition

/-!
This module contains the queue for multiple producers and multiple consumers: slots whose turn counts
how often they have been filled and emptied, and threads that take tickets for the slots.
-/

namespace MPMCQueue

open Threads Refinement

def powerOfTwo (n : BitVec 64) : Bool :=
  n ≠ 0 && !(n &&& (n - 1) ≠ 0)

/-- The template argument `POWER_TWO`, and a capacity that the constructor accepts with it. -/
structure Config where
  powerTwo : Bool
  capacity : BitVec 64
  one_le : ¬capacity < 1
  isPowerTwo : powerTwo = true → powerOfTwo capacity = true

namespace Config

def two : Config where
  powerTwo := true
  capacity := 2
  one_le := by decide
  isPowerTwo := by decide

variable (c : Config)

def bits : BitVec 64 :=
  64 - c.capacity.clz - 1

def idx (i : BitVec 64) : BitVec 64 :=
  if c.powerTwo then
    i &&& (c.capacity - 1)
  else
    i % c.capacity

def turn (i : BitVec 64) : BitVec 64 :=
  if c.powerTwo then
    i >>> c.bits
  else
    i / c.capacity

end Config

inductive Side where
  | push
  | pop
  deriving DecidableEq

inductive Request (α : Type) where
  | push (v : α)
  | pop
  deriving DecidableEq

def Request.side {α : Type} (r : Request α) : Side :=
  match r with
  | .push _ => .push
  | .pop => .pop

/-- A call, which may be one of those that give up. -/
structure Call (α : Type) where
  request : Request α
  tries : Bool
  deriving DecidableEq

def emplace {α : Type} (v : α) : Call α where
  request := .push v
  tries := false

def tryEmplace {α : Type} (v : α) : Call α where
  request := .push v
  tries := true

def pop {α : Type} : Call α where
  request := .pop
  tries := false

def tryPop {α : Type} : Call α where
  request := .pop
  tries := true

inductive Result (α : Type) where
  | pushed
  | popped (v : α)
  | failed
  deriving DecidableEq

inductive Pc (α : Type) where
  | idle
  | called (call : Call α)
  /-- It loads the turn of the slot until the turn has come. -/
  | spinning (r : Request α) (ticket : BitVec 64)
  /-- It loads the turn of the slot once. -/
  | testing (r : Request α) (ticket : BitVec 64)
  | exchanging (r : Request α) (ticket : BitVec 64)
  | reloading (r : Request α) (prevTicket : BitVec 64)
  | constructing (v : α) (ticket : BitVec 64)
  | filling (v : α) (ticket : BitVec 64)
  | moving (ticket : BitVec 64)
  | destroying (v : α) (ticket : BitVec 64)
  | emptying (v : α) (ticket : BitVec 64)
  | returned (res : Result α)
  /-- It has moved from a slot without an object, or destroyed one there. -/
  | undefined
  deriving DecidableEq

/-- A slot, and the object that is alive in its storage. -/
structure Slot (α : Type) where
  turn : BitVec 64
  storage : Option α
  deriving DecidableEq

structure Queue (P α : Type) (c : Config) where
  head : BitVec 64
  tail : BitVec 64
  slot : BitVec 64 → Slot α
  pc : P → Pc α

inductive Action (P α : Type) where
  | call (t : P) (call : Call α)
  | step (t : P)
  deriving DecidableEq

inductive Event (P α : Type) where
  | call (t : P) (call : Call α)
  | ret (t : P) (res : Result α)
  deriving DecidableEq

namespace Request

variable {α : Type}

def ready (c : Config) (r : Request α) (ticket : BitVec 64) : BitVec 64 :=
  match r with
  | .push _ => c.turn ticket * 2
  | .pop => c.turn ticket * 2 + 1

def access (r : Request α) (ticket : BitVec 64) : Pc α :=
  match r with
  | .push v => .constructing v ticket
  | .pop => .moving ticket

end Request

namespace Queue

variable {P α : Type} {c : Config}

def created : Queue P α c where
  head := 0
  tail := 0
  slot := fun _ => { turn := 0, storage := none }
  pc := fun _ => .idle

def counter (s : Queue P α c) (side : Side) : BitVec 64 :=
  match side with
  | .push => s.head
  | .pop => s.tail

def advance (s : Queue P α c) (side : Side) : Queue P α c :=
  match side with
  | .push => { s with head := s.head + 1 }
  | .pop => { s with tail := s.tail + 1 }

def setSlot (s : Queue P α c) (i : BitVec 64) (x : Slot α) : Queue P α c :=
  { s with slot := Function.update s.slot i x }

variable [DecidableEq P]

def goto (s : Queue P α c) (t : P) (pc : Pc α) : Queue P α c :=
  { s with pc := Function.update s.pc t pc }

def resume (s : Queue P α c) (t : P) : Option (Queue P α c) :=
  match s.pc t with
  | .idle | .undefined => none
  | .called call =>
    if call.tries then
      some (s.goto t (.testing call.request (s.counter call.request.side)))
    else
      some ((s.advance call.request.side).goto t
        (.spinning call.request (s.counter call.request.side)))
  | .spinning r ticket =>
    if r.ready c ticket = (s.slot (c.idx ticket)).turn then
      some (s.goto t (r.access ticket))
    else
      some s
  | .testing r ticket =>
    if r.ready c ticket = (s.slot (c.idx ticket)).turn then
      some (s.goto t (.exchanging r ticket))
    else
      some (s.goto t (.reloading r ticket))
  | .exchanging r ticket =>
    if s.counter r.side = ticket then
      some ((s.advance r.side).goto t (r.access ticket))
    else
      some (s.goto t (.testing r (s.counter r.side)))
  | .reloading r prevTicket =>
    if s.counter r.side = prevTicket then
      some (s.goto t (.returned .failed))
    else
      some (s.goto t (.testing r (s.counter r.side)))
  | .constructing v ticket =>
    let slot := s.slot (c.idx ticket)
    some ((s.setSlot (c.idx ticket) { slot with storage := some v }).goto t (.filling v ticket))
  | .filling _ ticket =>
    let slot := s.slot (c.idx ticket)
    some ((s.setSlot (c.idx ticket) { slot with turn := c.turn ticket * 2 + 1 }).goto t
      (.returned .pushed))
  | .moving ticket =>
    match (s.slot (c.idx ticket)).storage with
    | some v => some (s.goto t (.destroying v ticket))
    | none => some (s.goto t .undefined)
  | .destroying v ticket =>
    let slot := s.slot (c.idx ticket)
    if slot.storage.isSome then
      some ((s.setSlot (c.idx ticket) { slot with storage := none }).goto t (.emptying v ticket))
    else
      some (s.goto t .undefined)
  | .emptying v ticket =>
    let slot := s.slot (c.idx ticket)
    some ((s.setSlot (c.idx ticket) { slot with turn := c.turn ticket * 2 + 2 }).goto t
      (.returned (.popped v)))
  | .returned _ => some (s.goto t .idle)

def step : Step (Queue P α c) (Action P α) := fun s a =>
  match a with
  | .call t call =>
    match s.pc t with
    | .idle => some (s.goto t (.called call))
    | _ => none
  | .step t => s.resume t

def emit (s : Queue P α c) (a : Action P α) : Option (Event P α) :=
  match a with
  | .call t call => some (.call t call)
  | .step t =>
    match s.pc t with
    | .returned res => some (.ret t res)
    | _ => none

/-- Neither counter is about to reach half of its range. -/
def Few (s : Queue P α c) : Prop :=
  s.head.toNat + 1 < 2 ^ 63 ∧ s.tail.toNat + 1 < 2 ^ 63

instance (s : Queue P α c) : Decidable s.Few :=
  inferInstanceAs (Decidable (_ ∧ _))

end Queue

/-- The queue as a system that emits the calls and what they return. -/
def system (P α : Type) [DecidableEq P] (c : Config) : Emitting (Event P α) (Queue P α c) :=
  .ofStep Queue.step (fun s _ => s.Few) Queue.emit

end MPMCQueue
