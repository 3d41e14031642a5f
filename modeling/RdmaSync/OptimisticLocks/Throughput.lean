import RdmaSync.OptimisticLocks.Impl

/-!
This module contains how the optimistic benchmark counts its operations: the reads and updates that
an iteration counts itself, and the transactions that the worker loop counts after it.
-/

namespace OptimisticBenchmark

open OptimisticLocks

structure Flags where
  footer : Bool := false
  versioning : Bool := false
  crc : Bool := false
  farm : Bool := false
  broken : Bool := false
  rc : Bool := false
  rcopt : Bool := false
  pessimistic : Bool := false
  batchSize : Nat

structure Counters where
  updates : Nat
  reads : Nat
  aborts : Nat
  txP : Nat
  abort : Nat

/-- The number that an iteration has drawn, and how often its operation has been restarted. -/
structure Iteration where
  rand : Nat
  restarts : Nat

namespace Iteration

def isRead (it : Iteration) (readRatio : BitVec 32) : Bool :=
  readRatio.toNat = 100 || it.rand < readRatio.toNat

end Iteration

namespace Counters

def restarted (c : Counters) (restarts : Nat) : Counters :=
  match restarts with
  | 0 => c
  | n + 1 => restarted { c with abort := c.abort + 1, aborts := c.aborts + 1 } n

def countReads (c : Counters) (n : Nat) : Counters :=
  { c with reads := c.reads + n }

def countUpdate (c : Counters) : Counters :=
  { c with updates := c.updates + 1 }

def countTx (c : Counters) (n : Nat) : Counters :=
  { c with txP := c.txP + n }

end Counters

namespace Flags

variable (flags : Flags)

def runTest (consistency : Consistency) (readRatio : BitVec 32) (it : Iteration) (c : Counters)
    : Counters :=
  if it.isRead readRatio then
    let c := c.restarted it.restarts
    let c :=
      if flags.batchSize > 1 ∧ consistency = .broken then c.countReads flags.batchSize else c
    let c :=
      if flags.batchSize > 1 ∧ consistency = .rc then c.countReads flags.batchSize else c
    -- the else belongs to the last condition only
    if flags.batchSize > 1 ∧ consistency = .faRM then
      c.countReads flags.batchSize
    else
      c.countReads 1
  else
    (c.restarted it.restarts).countUpdate

def runPessimistic (readRatio : BitVec 32) (it : Iteration) (c : Counters) : Counters :=
  if it.isRead readRatio then
    (c.restarted it.restarts).countReads flags.batchSize
  else
    (c.restarted it.restarts).countUpdate

/-- The operation of an iteration; none if the option is wrong, which throws. -/
def operation (readRatio : BitVec 32) (it : Iteration) (c : Counters) : Option Counters :=
  if flags.pessimistic then
    some (flags.runPessimistic readRatio it c)
  else if flags.footer then
    if flags.versioning then some (flags.runTest .v2 readRatio it c)
    else if flags.crc then some (flags.runTest .crc readRatio it c)
    else if flags.farm then some (flags.runTest .faRM readRatio it c)
    else if flags.broken then some (flags.runTest .broken readRatio it c)
    else none
  else
    if flags.versioning then some (flags.runTest .v2 readRatio it c)
    else if flags.crc then some (flags.runTest .crc readRatio it c)
    else if flags.farm then some (flags.runTest .faRM readRatio it c)
    else if flags.broken then some (flags.runTest .broken readRatio it c)
    else if flags.rc || flags.rcopt then some (flags.runTest .rc readRatio it c)
    else some c

/-- How many transactions the worker loop counts for an iteration. -/
def transactions : Nat :=
  if flags.batchSize > 1 ∧ flags.broken then flags.batchSize
  else if flags.batchSize > 1 ∧ flags.rc then flags.batchSize
  else if flags.batchSize > 1 ∧ flags.farm then flags.batchSize
  else if flags.batchSize > 1 ∧ flags.rcopt then flags.batchSize
  else if flags.batchSize > 1 ∧ flags.pessimistic then flags.batchSize
  else 1

/-- The loop of a worker. -/
def run (readRatio : BitVec 32) (its : List Iteration) (c : Counters) : Option Counters :=
  match its with
  | [] => some c
  | it :: its =>
    match flags.operation readRatio it c with
    | some c => run readRatio its (c.countTx flags.transactions)
    | none => none

end Flags

inductive Mode where
  | pessimistic
  | versioning
  | crc
  | farm
  | broken
  | rc
  | rcopt
  deriving DecidableEq

namespace Mode

def flags (mode : Mode) (footer : Bool) (batchSize : Nat) : Flags :=
  match mode with
  | .pessimistic => { footer := footer, batchSize := batchSize, pessimistic := true }
  | .versioning => { footer := footer, batchSize := batchSize, versioning := true }
  | .crc => { footer := footer, batchSize := batchSize, crc := true }
  | .farm => { footer := footer, batchSize := batchSize, farm := true }
  | .broken => { footer := footer, batchSize := batchSize, broken := true }
  | .rc => { footer := footer, batchSize := batchSize, rc := true }
  | .rcopt => { footer := footer, batchSize := batchSize, rcopt := true }

def hasFooter (mode : Mode) : Bool :=
  mode ≠ .rc && mode ≠ .rcopt

def tupleReads (mode : Mode) (batchSize : Nat) : Nat :=
  match mode with
  | .versioning | .crc => 1
  | _ => batchSize

def countedReads (mode : Mode) (batchSize : Nat) : Nat :=
  match mode with
  | .pessimistic => batchSize
  | .versioning | .crc => 1
  | .farm => if batchSize > 1 then batchSize else 1
  | .broken | .rc | .rcopt => if batchSize > 1 then batchSize + 1 else 1

end Mode

def readCount (readRatio : BitVec 32) (its : List Iteration) : Nat :=
  its.countP fun it => it.isRead readRatio

def updateCount (readRatio : BitVec 32) (its : List Iteration) : Nat :=
  its.countP fun it => !it.isRead readRatio

/-- The transactions are the tuple reads and the updates that have been done. -/
def CountsOperations (mode : Mode) (footer : Bool) (batchSize : Nat) (readRatio : BitVec 32)
    (its : List Iteration) : Prop :=
  ∀ c, ∃ c', (mode.flags footer batchSize).run readRatio its c = some c'
    ∧ c'.txP - c.txP = (c'.reads - c.reads) + (c'.updates - c.updates)
    ∧ c'.reads = c.reads + mode.tupleReads batchSize * readCount readRatio its
    ∧ c'.updates = c.updates + updateCount readRatio its

section Counters

variable {c : Counters} {n : Nat}

@[simp]
theorem reads_restarted : (c.restarted n).reads = c.reads := by
  induction n generalizing c with
  | zero => rfl
  | succ n ih => simp [Counters.restarted, ih]

@[simp]
theorem updates_restarted : (c.restarted n).updates = c.updates := by
  induction n generalizing c with
  | zero => rfl
  | succ n ih => simp [Counters.restarted, ih]

@[simp]
theorem txP_restarted : (c.restarted n).txP = c.txP := by
  induction n generalizing c with
  | zero => rfl
  | succ n ih => simp [Counters.restarted, ih]

end Counters

variable {mode : Mode} {footer : Bool} {batchSize : Nat} {readRatio : BitVec 32}

theorem transactions_flags
    : (mode.flags footer batchSize).transactions =
        if mode = .versioning ∨ mode = .crc then 1 else if batchSize > 1 then batchSize else 1 := by
  cases mode <;> simp [Mode.flags, Flags.transactions]

theorem operation_flags (hfooter : footer = true → mode.hasFooter = true) (it : Iteration)
    (c : Counters)
    : (mode.flags footer batchSize).operation readRatio it c =
        some (if it.isRead readRatio then
          (c.restarted it.restarts).countReads (mode.countedReads batchSize)
        else
          (c.restarted it.restarts).countUpdate) := by
  cases mode with
  | rc | rcopt =>
    have hheader : footer = false := by
      cases footer with
      | false => rfl
      | true => simp [Mode.hasFooter] at hfooter
    subst hheader
    by_cases hread : it.isRead readRatio = true
    all_goals by_cases hbatch : batchSize > 1
    all_goals simp [Mode.flags, Flags.operation, Flags.runTest, Mode.countedReads, hread, hbatch,
      Counters.countReads, Nat.add_assoc]
  | _ =>
    cases footer
    all_goals by_cases hread : it.isRead readRatio = true
    all_goals by_cases hbatch : batchSize > 1
    all_goals simp [Mode.flags, Flags.operation, Flags.runTest, Flags.runPessimistic,
      Mode.countedReads, hread, hbatch, Counters.countReads, Nat.add_assoc]

theorem readCount_add_updateCount (readRatio : BitVec 32) (its : List Iteration)
    : readCount readRatio its + updateCount readRatio its = its.length := by
  rw [List.length_eq_countP_add_countP fun it : Iteration => it.isRead readRatio]
  simp [readCount, updateCount]

theorem run_flags (hfooter : footer = true → mode.hasFooter = true) (its : List Iteration)
    (c : Counters)
    : ∃ c', (mode.flags footer batchSize).run readRatio its c = some c'
      ∧ c'.reads = c.reads + mode.countedReads batchSize * readCount readRatio its
      ∧ c'.updates = c.updates + updateCount readRatio its
      ∧ c'.txP = c.txP + (mode.flags footer batchSize).transactions * its.length := by
  induction its generalizing c with
  | nil => exact ⟨c, rfl, by simp [readCount], by simp [updateCount], by simp⟩
  | cons it its ih =>
    simp only [Flags.run, operation_flags hfooter]
    obtain ⟨c', hrun, hreads, hupdates, htxP⟩ := ih _
    refine ⟨c', hrun, ?_, ?_, ?_⟩
    . rw [hreads]
      by_cases hread : it.isRead readRatio = true
      . simp [hread, readCount, Counters.countTx, Counters.countReads, Nat.mul_succ]
        omega
      . simp [hread, readCount, Counters.countTx, Counters.countUpdate]
    . rw [hupdates]
      by_cases hread : it.isRead readRatio = true
      . simp [hread, updateCount, Counters.countTx, Counters.countReads]
      . simp [hread, updateCount, Counters.countTx, Counters.countUpdate]
        omega
    . rw [htxP]
      by_cases hread : it.isRead readRatio = true
      . simp [hread, Counters.countTx, Counters.countReads, Nat.mul_succ]
        omega
      . simp [hread, Counters.countTx, Counters.countUpdate, Nat.mul_succ]
        omega

theorem countsOperations_iff_eq (hfooter : footer = true → mode.hasFooter = true)
    (its : List Iteration)
    : CountsOperations mode footer batchSize readRatio its ↔
        mode.countedReads batchSize * readCount readRatio its
            =
          mode.tupleReads batchSize * readCount readRatio its
        ∧ (mode.flags footer batchSize).transactions
              * (readCount readRatio its + updateCount readRatio its)
            =
          mode.countedReads batchSize * readCount readRatio its + updateCount readRatio its := by
  constructor
  . intro hcounts
    obtain ⟨c', hrun, htx, hreads, hupdates⟩ := hcounts ⟨0, 0, 0, 0, 0⟩
    obtain ⟨c'', hrun', hreads', hupdates', htxP'⟩ := run_flags hfooter its ⟨0, 0, 0, 0, 0⟩
    obtain rfl : c' = c'' := Option.some.inj (hrun.symm.trans hrun')
    rw [← readCount_add_updateCount readRatio] at htxP'
    omega
  . rintro ⟨hreads, htx⟩ c
    obtain ⟨c', hrun, hreads', hupdates', htxP'⟩ := run_flags hfooter its c
    rw [← readCount_add_updateCount readRatio] at htxP'
    refine ⟨c', hrun, ?_, ?_, hupdates'⟩
    . omega
    . rw [hreads', hreads]

/--
A batch of transactions is counted for an update too, and reads that are not those of FaRM are
counted once more.
-/
theorem countsOperations_iff (hfooter : footer = true → mode.hasFooter = true)
    (hbatch : 1 ≤ batchSize) (its : List Iteration)
    : CountsOperations mode footer batchSize readRatio its ↔
        batchSize = 1 ∨ mode = .versioning ∨ mode = .crc
          ∨ updateCount readRatio its = 0
            ∧ (mode = .pessimistic ∨ mode = .farm ∨ readCount readRatio its = 0) := by
  rw [countsOperations_iff_eq hfooter, transactions_flags]
  generalize readCount readRatio its = reads
  generalize updateCount readRatio its = updates
  obtain rfl | hlt := Nat.eq_or_lt_of_le hbatch
  . cases mode <;> simp [Mode.countedReads, Mode.tupleReads]
  . have hne : batchSize ≠ 1 := by omega
    -- more than one transaction for an update
    have hupdates : batchSize * updates = updates ↔ updates = 0 := by
      constructor
      . intro h
        by_contra hpos
        have := (Nat.mul_lt_mul_right (Nat.pos_of_ne_zero hpos)).mpr hlt
        omega
      . rintro rfl
        rfl
    cases mode with
    | versioning | crc => simp [Mode.countedReads, Mode.tupleReads]
    | pessimistic | farm =>
      simp [Mode.countedReads, Mode.tupleReads, hlt, hne, Nat.mul_add, hupdates]
    | broken | rc | rcopt =>
      simp only [Mode.countedReads, Mode.tupleReads, hlt, hne, if_true, Nat.succ_mul, Nat.mul_add,
        reduceCtorEq, false_or, or_self, if_false]
      constructor
      . rintro ⟨hreads, htx⟩
        obtain rfl : reads = 0 := by omega
        refine ⟨hupdates.mp (by omega), rfl⟩
      . rintro ⟨rfl, rfl⟩
        simp

theorem countsOperations_iff_single
    : CountsOperations .farm true 1 50 [⟨10, 2⟩, ⟨70, 0⟩, ⟨49, 1⟩] := by
  exact (countsOperations_iff (by decide) (Nat.le_refl 1) _).mpr (.inl rfl)

theorem not_countsOperations_update : ¬CountsOperations .farm false 32 0 [⟨10, 0⟩] := by
  intro hcounts
  obtain ⟨c', hrun, htx, _⟩ := hcounts ⟨0, 0, 0, 0, 0⟩
  have hc' : c' = ⟨1, 0, 0, 32, 0⟩ := (Option.some.inj hrun).symm
  rw [hc'] at htx
  exact absurd htx (by decide)

end OptimisticBenchmark
