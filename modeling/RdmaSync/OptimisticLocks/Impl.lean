import RdmaSync.CommunicationManager

/-!
This module contains the locks of the optimistic benchmarks: how a tuple is laid out, how writers
lock and unlock it and how readers validate what they have read.
-/

namespace OptimisticLocks

open Rdma CommunicationManager

inductive OLRestartException where
  | restart
  deriving DecidableEq

def CL : Nat := 64

def wLocked : Word := 1

def wUnlocked : Word := 0

def exclusiveLocked : Word := 0x1000000000000000

def exclusiveUnlockToBeAdded : Word := 0xFFFFFFFFFFFFFFFF - exclusiveLocked + 1

def unlocked : Word := 0

inductive Consistency where
  | faRM
  | crc
  | v2
  | broken
  | rc
  deriving DecidableEq

inductive LockType where
  | footerLock
  | headerLock
  deriving DecidableEq

inductive Ctx where
  | rctx
  | rctx2
  deriving DecidableEq

/--
The local buffers of a worker. The benchmark allocates two of each kind and alternates between them;
`userBuffer` is not registered.
-/
inductive Buffer where
  | lockBuffer (b : Bool)
  | tupleBuffer (b : Bool)
  | rcBuffer (b : Bool)
  | userBuffer
  deriving DecidableEq

abbrev Code := Prog Ctx Buffer OLRestartException

def increment (a : Buffer × Nat) : Code Unit := do
  let x ← load a
  store a (x + 1)

/-- The flags and the checksum function, which are global. -/
structure Flags where
  batchSize : Int32
  memcpy : Bool
  crc64 : List Word → Word

/-- How often a loop up to the batch size runs. -/
def Flags.batch (flags : Flags) : Nat := flags.batchSize.toNatClampNeg

/-- An `int` as the `size_t` that `pollCompletion` takes. -/
def sizeT (x : Int32) : Nat := (x.toBitVec.signExtend 64).toNat

section Sizes

variable {flags : Flags}

theorem sizeT_of_nonneg {x : Int32} (h : 0 ≤ x) : sizeT x = x.toNatClampNeg := by
  have hle : 0 ≤ x.toInt := Int32.le_iff_toInt_le.mp h
  have hlt := x.toInt_lt
  have hext : (x.toBitVec.signExtend 64).toInt = x.toInt :=
    BitVec.toInt_signExtend_of_le (by decide)
  have := BitVec.toInt_eq_toNat_cond (x.toBitVec.signExtend 64)
  unfold sizeT Int32.toNatClampNeg
  split at this <;> omega

theorem sizeT_pos {x : Int32} (h : x ≠ 0) : 0 < sizeT x := by
  have hne : x.toInt ≠ 0 := fun hzero => h (Int32.toInt_inj.mp hzero)
  have hext : (x.toBitVec.signExtend 64).toInt = x.toInt :=
    BitVec.toInt_signExtend_of_le (by decide)
  have := BitVec.toInt_eq_toNat_cond (x.toBitVec.signExtend 64)
  unfold sizeT
  split at this <;> omega

theorem Flags.batch_of_neg (h : flags.batchSize < 0) : flags.batch = 0 := by
  have hlt : flags.batchSize.toInt < 0 := Int32.lt_iff_toInt_lt.mp h
  unfold Flags.batch Int32.toNatClampNeg
  omega

theorem Flags.toInt_batchSize (h : 0 ≤ flags.batchSize) : flags.batchSize.toInt = flags.batch := by
  have hle : 0 ≤ flags.batchSize.toInt := Int32.le_iff_toInt_le.mp h
  unfold Flags.batch Int32.toNatClampNeg
  omega

theorem Flags.batch_pos : 0 < flags.batch ↔ 0 < flags.batchSize := by
  exact Int32.toNatClampNeg_pos_iff _

theorem Flags.batch_le {x : Int32} (h : flags.batchSize ≤ x) : flags.batch ≤ x.toNatClampNeg := by
  have hle : flags.batchSize.toInt ≤ x.toInt := Int32.le_iff_toInt_le.mp h
  unfold Flags.batch Int32.toNatClampNeg
  omega

theorem Flags.one_lt_batch : 1 < flags.batch ↔ 1 < flags.batchSize := by
  rw [Int32.lt_iff_toInt_lt, show Int32.toInt 1 = 1 from rfl]
  unfold Flags.batch Int32.toNatClampNeg
  omega

theorem sizeT_batchSize (h : 0 ≤ flags.batchSize) : sizeT flags.batchSize = flags.batch := by
  exact sizeT_of_nonneg h

theorem sizeT_half (h : 0 ≤ flags.batchSize) : sizeT (flags.batchSize / 2) = flags.batch / 2 := by
  have hle : 0 ≤ flags.batchSize.toInt := Int32.le_iff_toInt_le.mp h
  have hhalf : (flags.batchSize / 2).toInt = flags.batchSize.toInt / 2 := by
    rw [Int32.toInt_div_of_ne_right _ _ (by decide), show Int32.toInt 2 = 2 from rfl,
      Int.tdiv_eq_ediv_of_nonneg hle]
  rw [sizeT_of_nonneg]
  . unfold Flags.batch Int32.toNatClampNeg
    omega
  . rw [Int32.le_iff_toInt_le, hhalf]
    show (0 : Int) ≤ _
    omega

theorem Flags.batch_mod_two (h : 0 ≤ flags.batchSize)
    : (flags.batchSize % 2).toInt = flags.batch % 2 := by
  have hle : 0 ≤ flags.batchSize.toInt := Int32.le_iff_toInt_le.mp h
  rw [Int32.toInt_mod, show Int32.toInt 2 = 2 from rfl, Int.tmod_eq_emod_of_nonneg hle,
    toInt_batchSize h]

theorem Flags.batch_even (h : 0 ≤ flags.batchSize)
    : flags.batch % 2 = 0 ↔ flags.batchSize % 2 = 0 := by
  rw [← Int32.toInt_inj, batch_mod_two h, show Int32.toInt 0 = 0 from rfl]
  omega

theorem Flags.batch_odd (h : 0 ≤ flags.batchSize)
    : flags.batch % 2 = 1 ↔ flags.batchSize % 2 = 1 := by
  rw [← Int32.toInt_inj, batch_mod_two h, show Int32.toInt 1 = 1 from rfl]
  omega

end Sizes

namespace FaRM

def generateConsistencyProof (buffer : Buffer × Nat) (bytes : Nat) : Code Unit :=
  -- only start at second cacheline since in the first we have the latch and the version
  Prog.forEach (strided 8 (bytes / 8) (CL / 8)) fun i =>
    increment (buffer.1, buffer.2 + i)

def userIdx (i : Nat) : Nat :=
  let idx : BitVec 32 := if i = 0 then 0 else BitVec.ofNat 32 (i - 1)
  -- `idx` is an `int`, which is sign extended before it is scaled to bytes
  (idx.signExtend 64 * 8).toNat / 8

/-- Copy all bytes of a cache line but the version to the user buffer. -/
def copyLine (buffer : Buffer × Nat) (i : Nat) : Code Unit :=
  Prog.forEach (List.range ((CL - 8) / 8)) fun j => do
    let x ← load (buffer.1, buffer.2 + i + 1 + j)
    store (.userBuffer, userIdx i + j) x

def checkConsistencyProof (flags : Flags) (buffer : Buffer × Nat) (bytes : Nat) : Code Unit := do
  let prev ← load buffer
  Prog.forEach (strided 0 (bytes / 8) (CL / 8)) fun i => do
    let version ← load (buffer.1, buffer.2 + i)
    if prev ≠ version then
      Prog.throw .restart
    else if flags.memcpy then
      copyLine buffer i

end FaRM

namespace CRC

def content (buffer : Buffer × Nat) (bytes : Nat) : List (Buffer × Nat) :=
  let length := bytes - 8
  (List.range (length / 8)).map fun i => (buffer.1, buffer.2 + 1 + i)

def generateConsistencyProof (flags : Flags) (buffer : Buffer × Nat) (bytes : Nat)
    : Code Unit := do
  let words ← Prog.loadAll (content buffer bytes)
  store buffer (flags.crc64 words)

def checkConsistencyProof (flags : Flags) (buffer : Buffer × Nat) (bytes : Nat) : Code Unit := do
  let words ← Prog.loadAll (content buffer bytes)
  let crcV ← load buffer
  if crcV ≠ flags.crc64 words then
    Prog.throw .restart

end CRC

namespace AbstractLock

def lock (lockAddr : Nat) (lockBuffer : Buffer) (tupleAddr : Nat) (tupleBuffer : Buffer)
    (bytes : Nat) : Code Unit := do
  postCompareSwap wUnlocked wLocked (lockBuffer, 0) .rctx unsignaled lockAddr
  -- do not read lock value again since could be f&a
  postRead (tupleBuffer, 0) .rctx signaled tupleAddr bytes false
  pollCompletions .rctx 1
  let xLocked ← load (lockBuffer, 0)
  if xLocked ≠ wUnlocked then
    Prog.throw .restart

end AbstractLock

def FooterLock.unlock (tupleAddr : Nat) (tupleBuffer : Buffer) (bytes : Nat) : Code Unit := do
  let lockIdx := bytes / 8 - 1
  store (tupleBuffer, lockIdx) 0
  postWrite (tupleBuffer, 0) .rctx unsignaled tupleAddr bytes

def HeaderLock.unlock (lockAddr : Nat) (lockBuffer : Buffer) (tupleAddr : Nat)
    (tupleBuffer : Buffer) (bytes : Nat) : Code Unit := do
  postWrite (tupleBuffer, 0) .rctx unsignaled tupleAddr bytes
  postFetchAdd (-1) (lockBuffer, 0) .rctx unsignaled lockAddr true

structure OptimisticLock where
  flags : Flags
  consistency : Consistency
  lockType : LockType
  rctx2Mr : Bool
  remoteAddress : Nat
  tupleBuffer : Buffer
  rcBuffer : Buffer
  bytes : Nat
  opnum : Nat

namespace OptimisticLock

variable (t : OptimisticLock)

def checkLock : Code Unit := do
  let lck :=
    match t.lockType with
    | .headerLock => (t.tupleBuffer, 1)
    | .footerLock => (t.tupleBuffer, t.bytes / 8 - 1)
  let x ← load lck
  if x ≠ wUnlocked then
    Prog.throw .restart

/-- The READ that a batched mode posts over and over. -/
def postBatch (memAddr : Buffer × Nat) (context : Nat → Ctx) (wc : Bool) (bytes : Nat)
    : Code Unit :=
  Prog.forEach (List.range t.flags.batch) fun i =>
    postRead memAddr (context i) wc t.remoteAddress bytes false

def dataCtx (i : Nat) : Ctx :=
  if i % 2 = 0 then .rctx else .rctx2

def versionCtx (i : Nat) : Ctx :=
  if i % 2 = 0 then .rctx2 else .rctx

/-- Takes the value of `prev_version` and returns the new one. -/
def lock (prevVersion : Word) : Code Word :=
  match t.consistency, t.lockType with
  | .v2, .headerLock => do
    postReadFenced (t.tupleBuffer, 0) .rctx signaled t.remoteAddress 16
    pollCompletions .rctx 1
    postRead (t.tupleBuffer, 2) .rctx signaled (t.remoteAddress + 16) (t.bytes - 16) false
    pollCompletions .rctx 1
    let prevVersion ← load (t.tupleBuffer, 0)
    t.checkLock
    return prevVersion
  | .v2, .footerLock => do
    let byteOffset := t.bytes - 16
    let index := byteOffset / 8
    store (t.tupleBuffer, index) 0
    store (t.tupleBuffer, index + 1) 0
    postReadFenced (t.tupleBuffer, index) .rctx signaled (t.remoteAddress + byteOffset) 16
    pollCompletions .rctx 1
    let _ ← load (t.tupleBuffer, index)
    postRead (t.tupleBuffer, 0) .rctx signaled t.remoteAddress (t.bytes - 16) false
    pollCompletions .rctx 1
    let prevVersion ← load (t.tupleBuffer, index)
    t.checkLock
    return prevVersion
  | .broken, _ => do
    t.postBatch (t.tupleBuffer, 0) (fun _ => .rctx) signaled t.bytes
    pollCompletions .rctx (sizeT t.flags.batchSize)
    return prevVersion
  | .rc, _ => do
    if t.rctx2Mr then
      if t.flags.batchSize > 1 then
        t.postBatch (t.tupleBuffer, 0) dataCtx unsignaled t.bytes
      else
        postRead (t.tupleBuffer, 0) (dataCtx t.opnum) unsignaled t.remoteAddress t.bytes false
    else
      t.postBatch (t.tupleBuffer, 0) (fun _ => .rctx) unsignaled t.bytes
    return prevVersion
  | .faRM, _ => do
    t.postBatch (t.tupleBuffer, 0) (fun _ => .rctx) signaled t.bytes
    pollCompletions .rctx (sizeT t.flags.batchSize)
    Prog.forEach (List.range t.flags.batch) fun _ =>
      FaRM.checkConsistencyProof t.flags (t.tupleBuffer, 0) t.bytes
    return prevVersion
  | .crc, _ => do
    postRead (t.tupleBuffer, 0) .rctx signaled t.remoteAddress t.bytes false
    pollCompletions .rctx 1
    let prevVersion ← load (t.tupleBuffer, 0)
    t.checkLock
    match t.lockType with
    | .headerLock => CRC.checkConsistencyProof t.flags (t.tupleBuffer, 2) (t.bytes - 16)
    | .footerLock => CRC.checkConsistencyProof t.flags (t.tupleBuffer, 1) (t.bytes - 16)
    return prevVersion

/-- The loops that take the completions of the RC mode. -/
def pollRC : Code Unit := do
  if t.rctx2Mr then
    if t.flags.batchSize > 1 then
      pollCompletions .rctx (sizeT (t.flags.batchSize / 2))
      pollCompletions .rctx2 (sizeT (t.flags.batchSize / 2))
    else
      pollCompletions (versionCtx t.opnum) 1
  else
    pollCompletions .rctx (sizeT t.flags.batchSize)

def validate (prevVersion : Word) (vVersion : Buffer × Nat) : Code Unit := do
  pollCompletions .rctx 1
  let version ← load vVersion
  if prevVersion ≠ version then
    Prog.throw .restart

/-- Validates and can throw in case of restart. -/
def unlock (prevVersion : Word) : Code (Word × Word) := do
  let byteOffset := t.bytes - 16
  let index := byteOffset / 8
  let vVersion :=
    match t.consistency, t.lockType with
    | .v2, .footerLock => (t.tupleBuffer, index)
    | _, _ => (t.tupleBuffer, 0)
  match t.consistency, t.lockType with
  | .v2, .headerLock => do
    postRead (t.tupleBuffer, 0) .rctx signaled t.remoteAddress 8 false
    validate prevVersion vVersion
  | .v2, .footerLock => do
    postRead (t.tupleBuffer, index) .rctx signaled (t.remoteAddress + byteOffset) 16 false
    validate prevVersion vVersion
  | .rc, _ => do
    if t.rctx2Mr then
      if t.flags.batchSize > 1 then
        t.postBatch (t.rcBuffer, 0) versionCtx signaled 8
      else
        postRead (t.rcBuffer, 0) (versionCtx t.opnum) signaled t.remoteAddress 8 false
    else
      t.postBatch (t.rcBuffer, 0) (fun _ => .rctx) signaled 8
    t.pollRC
  | .faRM, _ =>
    -- nothing to do for FaRM, we already read the version
    pure ()
  | .broken, _ => do
    t.postBatch (t.tupleBuffer, 0) (fun _ => .rctx) signaled 8
    pollCompletions .rctx (sizeT t.flags.batchSize)
  | .crc, _ => do
    postRead (t.tupleBuffer, 0) .rctx signaled t.remoteAddress 8 false
    validate prevVersion vVersion
  t.checkLock
  let version ← load vVersion
  return (prevVersion, version)

end OptimisticLock

structure ExclusiveLock where
  flags : Flags
  consistency : Consistency
  lockType : LockType
  remoteAddress : Nat
  lockBuffer : Buffer
  tupleBuffer : Buffer
  bytes : Nat

namespace ExclusiveLock

variable (t : ExclusiveLock)

/-- The remote address of the latch, which depends on the lock type. -/
def getLockPosition : Nat :=
  match t.lockType with
  | .headerLock => t.remoteAddress + 8
  | .footerLock => t.remoteAddress + (t.bytes - 8)

def lock : Code Unit :=
  AbstractLock.lock t.getLockPosition t.lockBuffer t.remoteAddress t.tupleBuffer t.bytes

def generateConsistencyProof : Code Unit :=
  match t.consistency, t.lockType with
  | .crc, .headerLock => CRC.generateConsistencyProof t.flags (t.tupleBuffer, 2) (t.bytes - 16)
  | .crc, .footerLock => CRC.generateConsistencyProof t.flags (t.tupleBuffer, 1) (t.bytes - 16)
  | .faRM, _ => FaRM.generateConsistencyProof (t.tupleBuffer, 0) t.bytes
  | _, _ => pure ()

def incrementVersion : Code Unit :=
  match t.consistency, t.lockType with
  | .v2, .footerLock =>
    let byteOffset := t.bytes - 16
    let index := byteOffset / 8
    increment (t.tupleBuffer, index)
  | _, _ => increment (t.tupleBuffer, 0)

def unlock : Code Unit := do
  t.generateConsistencyProof
  t.incrementVersion
  match t.lockType with
  | .footerLock => FooterLock.unlock t.remoteAddress t.tupleBuffer t.bytes
  | .headerLock =>
    HeaderLock.unlock t.getLockPosition t.lockBuffer t.remoteAddress t.tupleBuffer t.bytes

end ExclusiveLock

structure ReaderWriterLock where
  flags : Flags
  remoteAddress : Nat
  lockBuffer : Buffer
  tupleBuffer : Buffer
  bytes : Nat

namespace ReaderWriterLock

variable (t : ReaderWriterLock)

def lockExclusive : Code Unit := do
  postCompareSwap unlocked exclusiveLocked (t.lockBuffer, 0) .rctx unsignaled t.remoteAddress
  -- do not read lock value again since could be f&a
  postRead (t.tupleBuffer, 0) .rctx signaled (t.remoteAddress + 8) (t.bytes - 8) false
  pollCompletions .rctx 1
  let xLocked ← load (t.lockBuffer, 0)
  if xLocked ≠ unlocked then
    Prog.throw .restart

def unlockExclusive : Code Unit := do
  postWrite (t.tupleBuffer, 0) .rctx unsignaled (t.remoteAddress + 8) (t.bytes - 8)
  postFetchAdd exclusiveUnlockToBeAdded (t.lockBuffer, 0) .rctx unsignaled t.remoteAddress true

def lockShared : Code Unit := do
  Prog.forEach (List.range t.flags.batch) fun _ => do
    postFetchAdd 1 (t.lockBuffer, 0) .rctx unsignaled t.remoteAddress false
    postRead (t.tupleBuffer, 0) .rctx signaled (t.remoteAddress + 8) (t.bytes - 8) false
    postFetchAdd (-1) (t.lockBuffer, 0) .rctx unsignaled t.remoteAddress true
  pollCompletions .rctx (sizeT t.flags.batchSize)

def unlockShared : Code Unit :=
  -- do nothing for batched version
  pure ()

end ReaderWriterLock
end OptimisticLocks
