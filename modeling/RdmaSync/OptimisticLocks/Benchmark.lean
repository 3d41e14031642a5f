import RdmaSync.OptimisticLocks.Impl
import RdmaSync.Rdma.Block

/-!
This module contains the operations that a worker of the optimistic benchmark runs on a tuple, and
the layout of the tuple that they agree on.
-/

namespace OptimisticLocks

open Rdma CommunicationManager

structure Tuple where
  flags : Flags
  consistency : Consistency
  lockType : LockType
  rctx2Mr : Bool
  remoteAddress : Nat
  bytes : Nat
  remoteAddress_aligned : remoteAddress % 8 = 0
  bytes_pos : 0 < bytes
  bytes_aligned : bytes % 64 = 0

namespace Tuple

variable (t : Tuple)

def words : Nat := t.bytes / 8

theorem words_ge : 8 ≤ t.words := by
  have := t.bytes_pos
  have := t.bytes_aligned
  unfold words
  omega

theorem words_mod : t.words % 8 = 0 := by
  have := t.bytes_aligned
  unfold words
  omega

theorem bytes_eq : t.bytes = 8 * t.words := by
  have := t.bytes_aligned
  unfold words
  omega

def lockIdx : Nat :=
  match t.lockType with
  | .headerLock => 1
  | .footerLock => t.words - 1

def versionIdx : Nat :=
  match t.consistency, t.lockType with
  | .v2, .footerLock => t.words - 2
  | _, _ => 0

/-- Whether a word proves the consistency of the others. -/
def isProof (i : Nat) : Bool :=
  match t.consistency, t.lockType with
  | .faRM, _ => i % 8 == 0
  | .crc, .headerLock => i == 2
  | .crc, .footerLock => i == 1
  | _, _ => false

def isData (i : Nat) : Prop :=
  i < t.words ∧ i ≠ t.lockIdx ∧ i ≠ t.versionIdx ∧ t.isProof i = false

instance (i : Nat) : Decidable (t.isData i) :=
  inferInstanceAs (Decidable (_ ∧ _ ∧ _ ∧ _))

theorem lockIdx_lt : t.lockIdx < t.words := by
  have := t.words_ge
  unfold lockIdx
  split <;> omega

theorem versionIdx_lt : t.versionIdx < t.words := by
  have := t.words_ge
  unfold versionIdx
  split <;> omega

theorem versionIdx_ne_lockIdx : t.versionIdx ≠ t.lockIdx := by
  have := t.words_ge
  unfold versionIdx lockIdx
  cases t.consistency <;> cases t.lockType <;> simp only <;> omega

theorem isProof_lockIdx : t.isProof t.lockIdx = false := by
  have := t.words_ge
  have := t.words_mod
  unfold isProof lockIdx
  cases t.consistency <;> cases t.lockType <;> simp only [beq_eq_false_iff_ne] <;> omega

/-- The tuple as a block of remote words that are replaced under a lock. -/
def block : Block where
  addr := t.remoteAddress
  words := t.words
  lock := t.lockIdx
  tail := t.lockType = .footerLock
  addr_aligned := t.remoteAddress_aligned
  lock_lt := t.lockIdx_lt
  lock_tail := by
    have := t.words_ge
    intro h
    simp only [decide_eq_true_eq] at h
    simp only [lockIdx, h]
    omega

def exclusive (b : Bool) : ExclusiveLock where
  flags := t.flags
  consistency := t.consistency
  lockType := t.lockType
  remoteAddress := t.remoteAddress
  lockBuffer := .lockBuffer b
  tupleBuffer := .tupleBuffer b
  bytes := t.bytes

def optimistic (b : Bool) (opnum : Nat) : OptimisticLock where
  flags := t.flags
  consistency := t.consistency
  lockType := t.lockType
  rctx2Mr := t.rctx2Mr
  remoteAddress := t.remoteAddress
  tupleBuffer := .tupleBuffer b
  rcBuffer := .rcBuffer b
  bytes := t.bytes
  opnum := opnum

end Tuple

/--
What a writer does to its copy of the tuple between lock and unlock: any code that stays within the
tuple and changes nothing but the user's words.
-/
structure Modification (t : Tuple) (U : Type) where
  code : U → Buffer → Code Unit
  code_local : ∀ u tupleBuffer, (code u tupleBuffer).Local
    (fun a => a.1 = tupleBuffer ∧ a.2 < t.words)
    (fun a => a.1 = tupleBuffer ∧ t.isData a.2) (fun _ => False)

section RunTest

variable (t : Tuple) {U : Type} (modification : Modification t U)

def runUpdate (b : Bool) (u : U) : Code Unit := do
  (t.exclusive b).lock
  modification.code u (.tupleBuffer b)
  (t.exclusive b).unlock

def runRead (b : Bool) (opnum : Nat) : Code (Word × Word) := do
  let prevVersion ← (t.optimistic b opnum).lock 0
  (t.optimistic b opnum).unlock prevVersion

/-- An iteration of the benchmark loop, with the buffers it uses. -/
inductive Iteration (U : Type) where
  | read (b : Bool) (opnum : Nat)
  | update (b : Bool) (u : U)

/-- One attempt at an iteration. Reads return the pair that `unlock` returns. -/
def runTest (op : Iteration U) : Code (Option (Word × Word)) :=
  match op with
  | .read b opnum => do
    let versions ← runRead t b opnum
    return some versions
  | .update b u => do
    runUpdate t modification b u
    return none

/-- A worker runs any iterations and repeats each of them until it is not restarted any more. -/
def benchmark (nic : Nic)
    : Workload Ctx Buffer OLRestartException (Option (Word × Word)) (Iteration U) where
  nic := nic
  program := runTest t modification
  mayStart := fun _ _ => true
  after := fun op outcome =>
    match outcome with
    | .ok _ => .idle
    | .error _ => .goto op

def writersOnly (nic : Nic) : Workload Ctx Buffer OLRestartException Unit (Bool × U) where
  nic := nic
  program := fun op => runUpdate t modification op.1 op.2
  mayStart := fun _ _ => true
  after := fun op outcome =>
    match outcome with
    | .ok _ => .idle
    | .error _ => .goto op

end RunTest

/-- What a worker may leave in its queue: unsignaled requests that land on a lock buffer at most. -/
def Leftover (u : List (Verb Buffer × Bool)) : Prop :=
  ∀ p ∈ u, p.2 = false ∧ ∀ a, p.1.lands a → ∃ b, a.1 = .lockBuffer b

theorem leftover_nil : Leftover [] := by
  intro p hp
  simp at hp

theorem Leftover.quiet {q : List (Verb Buffer × Bool)} (h : Leftover q) (b : Bool) (i : Nat)
    : Quiet q (.tupleBuffer b, i) := by
  intro p hp hland
  obtain ⟨_, hbuffer⟩ := (h p hp).2 _ hland
  simp at hbuffer

theorem Leftover.unsignaled {q : List (Verb Buffer × Bool)} (h : Leftover q)
    : ∀ p ∈ q, p.2 = false := by
  intro p hp
  exact (h p hp).1

/-- The index that the write branch of `run_test` draws, of words 3 to 5 of a cache line. -/
structure RandomIndex (t : Tuple) where
  cl : Nat
  idx : Nat
  cl_lt : cl < t.bytes / CL
  idx_ge : 3 ≤ idx
  idx_lt : idx < 6

namespace RandomIndex

def index {t : Tuple} (r : RandomIndex t) : Nat :=
  r.cl * (CL / 8) + r.idx

theorem index_lt {t : Tuple} (r : RandomIndex t) : r.index + 2 < t.words := by
  have := r.cl_lt
  have := r.idx_lt
  have := t.bytes_aligned
  unfold index Tuple.words CL at *
  omega

theorem index_mod {t : Tuple} (r : RandomIndex t) : 3 ≤ r.index % 8 := by
  have := r.idx_ge
  have := r.idx_lt
  unfold index CL
  omega

theorem index_isData {t : Tuple} (r : RandomIndex t) : t.isData r.index := by
  have hlt := r.index_lt
  have hmod := r.index_mod
  refine ⟨by omega, ?_, ?_, ?_⟩
  . unfold Tuple.lockIdx
    split <;> omega
  . unfold Tuple.versionIdx
    split <;> omega
  . unfold Tuple.isProof
    split <;> simp only [beq_eq_false_iff_ne] <;> omega

end RandomIndex

/-- `tuple_buffer[index] += 5`. -/
def addFive (t : Tuple) : Modification t (RandomIndex t) where
  code := fun r tupleBuffer => do
    let x ← load (tupleBuffer, r.index)
    store (tupleBuffer, r.index) (x + 5)
  code_local := by
    intro r tupleBuffer
    have := r.index_lt
    refine .load _ _ ⟨rfl, by omega⟩ ?_
    intro x
    exact .store _ _ _ ⟨rfl, r.index_isData⟩ (.ret ())

def checkedWords (t : Tuple) : List Nat :=
  (List.range (t.bytes / CL)).flatMap fun cl => [3, 4, 5].map fun v => cl * 8 + v

theorem checkedWords_isData {t : Tuple} {i : Nat} (h : i ∈ checkedWords t) : t.isData i := by
  simp only [checkedWords, List.mem_flatMap, List.mem_range, List.mem_map, List.mem_cons,
    List.not_mem_nil, or_false] at h
  obtain ⟨cl, hcl, v, hv, rfl⟩ := h
  let r : RandomIndex t := ⟨cl, v, hcl, by omega, by omega⟩
  exact r.index_isData

/-- The write branch of `run_check`, which keeps all the words it increments equal. -/
def incrementAll (t : Tuple) : Modification t Unit where
  code := fun _ tupleBuffer =>
    Prog.forEach (checkedWords t) fun i => increment (tupleBuffer, i)
  code_local := by
    intro _ tupleBuffer
    apply Prog.Local.forEach
    intro i hi
    have hdata := checkedWords_isData hi
    refine .load _ _ ⟨rfl, hdata.1⟩ ?_
    intro x
    exact .store _ _ _ ⟨rfl, hdata⟩ (.ret ())

def lockAddr (start lockId blockSize padding : Nat) : Nat :=
  start + 64 + lockId * blockSize + lockId * padding

theorem lockAddr_mod {start lockId blockSize padding : Nat} (hstart : start % 64 = 0)
    (hblock : blockSize % 64 = 0)
    : lockAddr start lockId blockSize padding % 64 = lockId * padding % 64 := by
  have hmul : lockId * blockSize % 64 = 0 := by
    rw [Nat.mul_mod, hblock]
    simp
  unfold lockAddr
  omega

def sampleTuple (consistency : Consistency) (lockType : LockType) (lockId : Nat) : Tuple where
  flags := { batchSize := 1, memcpy := false, crc64 := fun _ => 0 }
  consistency := consistency
  lockType := lockType
  rctx2Mr := false
  remoteAddress := lockAddr 0 lockId 128 8
  bytes := 128
  remoteAddress_aligned := by unfold lockAddr; omega
  bytes_pos := by decide
  bytes_aligned := rfl

theorem sampleTuple_lines (consistency : Consistency) (lockType : LockType) (lockId : Nat)
    : 0 < (sampleTuple consistency lockType lockId).bytes / CL := by
  simp [sampleTuple, CL]

def sampleIndex (consistency : Consistency) (lockType : LockType)
    : RandomIndex (sampleTuple consistency lockType 0) where
  cl := 0
  idx := 3
  cl_lt := sampleTuple_lines consistency lockType 0
  idx_ge := by decide
  idx_lt := by decide

end OptimisticLocks
