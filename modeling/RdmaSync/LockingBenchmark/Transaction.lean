import Mathlib.Algebra.BigOperators.Fin
import RdmaSync.CommunicationManager
import RdmaSync.Rdma.Block

/-!
This module contains what the locking benchmarks have in common: their transactions, the loops over
the words of a tuple and the consistency check of the storage node.
-/

namespace LockingBenchmark

open Rdma CommunicationManager

inductive Ctx where
  | rctx
  deriving DecidableEq

inductive Buffer where
  | old
  deriving DecidableEq

/-- A `throw` that has nothing to rethrow: it ends the process. -/
inductive Terminate where
  | throw
  deriving DecidableEq

abbrev Code := Prog Ctx Buffer Terminate

inductive Transaction (lockCount : Nat) where
  | read (lockId : Fin lockCount)
  | write (lockId : Fin lockCount)
  deriving DecidableEq

namespace Transaction

variable {lockCount : Nat}

def lockId (op : Transaction lockCount) : Fin lockCount :=
  match op with
  | .read lockId => lockId
  | .write lockId => lockId

def isWrite (op : Transaction lockCount) : Bool :=
  match op with
  | .read _ => false
  | .write _ => true

end Transaction

def firstTuple : Fin 2 := 0

def secondTuple : Fin 2 := 1

def pollCq : Code Unit :=
  pollCompletions .rctx 1

def indices (first bound : Nat) : List Nat :=
  List.range' first (bound - first)

theorem mem_indices {first bound i : Nat} : i ∈ indices first bound ↔ first ≤ i ∧ i < bound := by
  simp only [indices, List.mem_range'_1]
  omega

section Loops

/-- The loop that compares each word of `old` with the one before. -/
def compareWords (prevVersion : Word) (is : List Nat) : Code Unit :=
  match is with
  | [] => pure ()
  | i :: is => do
    let x ← load (.old, i)
    if prevVersion ≠ x then
      Prog.throw .throw
    else
      compareWords x is

def verify (first bound : Nat) : Code Unit := do
  let prevVersion ← load (.old, first)
  compareWords prevVersion (indices first bound)

/-- Increment the first word of `old` and store it to all others. -/
def incrementWords (first bound : Nat) : Code Unit := do
  let x ← load (.old, first)
  let newVersion := x + 1
  store (.old, first) newVersion
  Prog.forEach (indices first bound) fun i => store (.old, i) newVersion

theorem compareWords_local (prevVersion : Word) (is : List Nat)
    : (compareWords prevVersion is).Local (fun _ => True) (fun _ => False) (fun _ => True) := by
  induction is generalizing prevVersion with
  | nil => exact .ret ()
  | cons i is ih =>
    apply Prog.Local.load _ _ trivial
    intro x
    show Prog.Local _ _ _ (if prevVersion ≠ x then .throw .throw else compareWords x is)
    split
    . exact .throw _ trivial
    . exact ih x

theorem verify_local (first bound : Nat)
    : (verify first bound).Local (fun _ => True) (fun _ => False) (fun _ => True) := by
  apply Prog.Local.load _ _ trivial
  intro x
  exact compareWords_local x _

theorem incrementWords_local (first bound : Nat)
    : (incrementWords first bound).Local (fun _ => True) (fun _ => True) (fun _ => False) := by
  apply Prog.Local.load _ _ trivial
  intro x
  apply Prog.Local.store _ _ _ trivial
  apply Prog.Local.forEach
  intro i _
  exact .store _ _ _ trivial (.ret ())

theorem compareWords_exec {l : Local Buffer} {x : Word} {is : List Nat}
    (h : ∀ i ∈ is, l .old i = x) : (compareWords x is).exec l = (.ok (), l) := by
  induction is with
  | nil => rfl
  | cons i is ih =>
    have hi : l .old i = x := h i List.mem_cons_self
    have his := ih fun j hj => h j (List.mem_cons_of_mem _ hj)
    simpa [compareWords, load, hi] using his

theorem verify_exec {l : Local Buffer} {first bound : Nat} {x : Word} (hlt : first < bound)
    (h : ∀ i, first ≤ i → i < bound → l .old i = x) : (verify first bound).exec l = (.ok (), l) := by
  have hfirst := h first (Nat.le_refl _) hlt
  have hwords : ∀ i ∈ indices first bound, l .old i = x := by
    intro i hi
    obtain ⟨hge, hlt⟩ := mem_indices.mp hi
    exact h i hge hlt
  simpa [verify, load, hfirst] using compareWords_exec hwords

theorem forEach_store_exec {l : Local Buffer} {x : Word} (is : List Nat) (i : Nat)
    : ((Prog.forEach is fun i => store (.old, i) x : Code Unit).exec l).2 .old i
        = if i ∈ is then x else l .old i := by
  induction is generalizing l with
  | nil => rfl
  | cons j is ih =>
    simp only [Prog.forEach_cons, store, Prog.bind_store, Prog.bind_ret, Prog.exec_store,
      List.mem_cons]
    have := ih (l := l.set (.old, j) x)
    simp only [store] at this
    rw [this, Local.set_apply]
    by_cases hmem : i ∈ is
    . simp [hmem]
    . simp [hmem]

theorem incrementWords_exec {l : Local Buffer} {first bound i : Nat} (hge : first ≤ i)
    (hlt : i < bound) : ((incrementWords first bound).exec l).2 .old i = l .old first + 1 := by
  have hmem : i ∈ indices first bound := mem_indices.mpr ⟨hge, hlt⟩
  simp only [incrementWords, load, store, Prog.bind_load, Prog.bind_store, Prog.bind_ret,
    Prog.exec_load, Prog.exec_store]
  have := forEach_store_exec (l := l.set (.old, first) (l .old first + 1)) (x := l .old first + 1)
    (indices first bound) i
  simp only [store] at this
  rw [this, if_pos hmem]

end Loops

section Discipline

variable {u : List (Verb Buffer × Bool)}

def Unsignaled (u : List (Verb Buffer × Bool)) : Prop :=
  ∀ p ∈ u, p.2 = false

theorem unsignaled_nil : Unsignaled [] := by
  simp [Unsignaled]

theorem Unsignaled.append (hu : Unsignaled u) (v : Verb Buffer) : Unsignaled (u ++ [(v, false)]) := by
  intro p hp
  rcases List.mem_append.mp hp with hp | hp
  . exact hu p hp
  . rw [List.mem_singleton.mp hp]

def Ends {α : Type} (o : Except Terminate α) (u : List (Verb Buffer × Bool)) : Prop :=
  match o with
  | .ok _ => Unsignaled u
  | .error _ => u = []

end Discipline

section Storage

/-- The loop that compares each word of a tuple with the one before. -/
def isConsistent (m : Mem) (lockAddr : Nat) (prevVersion : Word) (is : List Nat) : Bool :=
  match is with
  | [] => true
  | i :: is =>
    let x := load64 m (lockAddr + 8 * i)
    if prevVersion ≠ x then
      false
    else
      isConsistent m lockAddr x is

/-- The consistency check of the storage node; `count` is what it has added up so far. -/
def consistencyCheck (m : Mem) (first bound : Nat) (lockAddrs : List Nat) (count : Word)
    : Option Word :=
  match lockAddrs with
  | [] => some count
  | lockAddr :: lockAddrs =>
    let count := count + load64 m (lockAddr + 8)
    let prevVersion := load64 m (lockAddr + 8 * first)
    if isConsistent m lockAddr prevVersion (indices first bound) then
      consistencyCheck m first bound lockAddrs count
    else
      none

theorem isConsistent_of_eq {m : Mem} {lockAddr : Nat} {x : Word} {is : List Nat}
    (h : ∀ i ∈ is, load64 m (lockAddr + 8 * i) = x) : isConsistent m lockAddr x is = true := by
  induction is with
  | nil => rfl
  | cons i is ih =>
    have hi := h i List.mem_cons_self
    simpa [isConsistent, hi] using ih fun j hj => h j (List.mem_cons_of_mem _ hj)

theorem consistencyCheck_of_counts {m : Mem} {first bound : Nat} {ids : List ι} {addr : ι → Nat}
    {n : ι → Nat} (hfirst : first ≤ 1) (hbound : 1 < bound)
    (h : ∀ id ∈ ids, ∀ i, first ≤ i → i < bound →
      load64 m (addr id + 8 * i) = BitVec.ofNat 64 (n id)) (count : Word)
    : consistencyCheck m first bound (ids.map addr) count
        = some (count + BitVec.ofNat 64 (ids.map n).sum) := by
  induction ids generalizing count with
  | nil => simp [consistencyCheck]
  | cons id ids ih =>
    have hid := h id List.mem_cons_self
    have hrest := ih (fun id' hid' => h id' (List.mem_cons_of_mem _ hid'))
    have hcount : load64 m (addr id + 8) = BitVec.ofNat 64 (n id) := hid 1 hfirst hbound
    have hprev := hid first (Nat.le_refl _) (by omega)
    have hconsistent : isConsistent m (addr id) (BitVec.ofNat 64 (n id)) (indices first bound)
        = true := by
      apply isConsistent_of_eq
      intro i hi
      obtain ⟨hge, hlt⟩ := mem_indices.mp hi
      exact hid i hge hlt
    simp only [List.map_cons, consistencyCheck, hcount, hprev, hconsistent, ↓reduceIte, hrest,
      List.sum_cons, BitVec.ofNat_add, BitVec.add_assoc]

end Storage

section Counting

variable {lockCount : Nat}

def writesOn (id : Fin lockCount) (done : List (Transaction lockCount × Bool)) : Nat :=
  done.countP fun d => d.1 = .write id ∧ d.2

theorem writesOn_cons (id : Fin lockCount) (d : Transaction lockCount × Bool)
    (done : List (Transaction lockCount × Bool))
    : writesOn id (d :: done) = writesOn id done + writesOn id [d] := by
  simp [writesOn, List.countP_cons]

theorem writesOn_of_ne {id : Fin lockCount} {op : Transaction lockCount} (h : op.lockId ≠ id)
    (locked : Bool) : writesOn id [(op, locked)] = 0 := by
  have hne : op ≠ .write id := by
    rintro rfl
    exact h rfl
  simp [writesOn, hne]

def updates (done : List (Transaction lockCount × Bool)) : Nat :=
  done.countP fun d => d.1.isWrite ∧ d.2

theorem sum_writesOn (done : List (Transaction lockCount × Bool))
    : ∑ id, writesOn id done = updates done := by
  induction done with
  | nil => simp [writesOn, updates]
  | cons d done ih =>
    have hcons (id : Fin lockCount) : writesOn id (d :: done)
        = writesOn id done + if d.1 = .write id ∧ d.2 then 1 else 0 := by
      simp [writesOn, List.countP_cons]
    rw [Finset.sum_congr rfl (fun id _ => hcons id), Finset.sum_add_distrib, ih]
    rcases d with ⟨op, finished⟩
    cases op with
    | read => simp [updates, Transaction.isWrite]
    | write id => cases finished <;> simp [updates, Transaction.isWrite]

theorem sum_sum_writesOn {W : Type} [Fintype W] (done : W → List (Transaction lockCount × Bool))
    : ∑ id, ∑ w, writesOn id (done w) = ∑ w, updates (done w) := by
  rw [Finset.sum_comm]
  exact Finset.sum_congr rfl fun w _ => sum_writesOn _

def Increments (count : Nat) (id : Fin lockCount) (op : Transaction lockCount)
    (prev next : Nat → Word) : Prop :=
  op = .write id ∧ ∀ i, i < count → next i = prev 0 + 1

/-- All words of a tuple that was zero count its commits. -/
theorem snap_increments {W : Type} {count : Nat} {id : Fin lockCount} {init : Nat → Word}
    {cs : List (Commit W (Transaction lockCount))} (h : Chain (Increments count id) init cs)
    (hinit : ∀ i, i < count → init i = 0) {i : Nat} (hi : i < count)
    : snap init cs cs.length i = BitVec.ofNat 64 cs.length := by
  apply h.snap_induction (J := fun k f => ∀ i, i < count → f i = BitVec.ofNat 64 k) hinit _
    (Nat.le_refl _) i hi
  intro k op f g hf hfg i hi
  rw [hfg.2 i hi, hf 0 (by omega), BitVec.ofNat_add]
  rfl

end Counting

end LockingBenchmark
