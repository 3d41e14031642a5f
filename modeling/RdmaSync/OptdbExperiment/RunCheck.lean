import RdmaSync.OptimisticLocks.Batch
import RdmaSync.Rdma.Nodes

/-!
This module contains the storage database experiment, whose workers check that the tuples they read
are consistent. Updates write a tuple back without waiting for it, and later operations on the same
node reuse the buffer.
-/

namespace OptdbExperiment

open Rdma CommunicationManager OptimisticLocks
open Rdma.Action (cpus touches serves)

variable {W ν : Type}

def TUPLE_SIZE : Nat := 512

structure Experiment (ν : Type) where
  flags : Flags
  consistency : Consistency
  lockType : LockType
  start : ν → Nat
  padding : Nat
  start_aligned : ∀ n, start n % 8 = 0
  padding_aligned : padding % 8 = 0

inductive Check (ν : Type) where
  | read (n : ν) (lockId : Nat)
  | update (n : ν) (lockId : Nat)

def Check.node (op : Check ν) : ν :=
  match op with
  | .read n _ | .update n _ => n

def runCheckRead (t : Tuple) : Code Bool := do
  let _ ← runRead t false 0
  -- after the validation we have a consistent snapshot
  let prev ← load (.tupleBuffer false, 3)
  let words ← Prog.loadAll ((checkedWords t).map fun idx => (.tupleBuffer false, idx))
  return words.any fun word => prev != word

def runCheckUpdate (t : Tuple) : Code Bool := do
  runUpdate t (incrementAll t) false ()
  return false

namespace Experiment

variable (e : Experiment ν)

def tuple (n : ν) (lockId : Nat) : Tuple where
  flags := e.flags
  consistency := e.consistency
  lockType := e.lockType
  rctx2Mr := false
  remoteAddress := lockAddr (e.start n) lockId TUPLE_SIZE e.padding
  bytes := TUPLE_SIZE
  remoteAddress_aligned := by
    have hmul : lockId * e.padding % 8 = 0 := by
      rw [Nat.mul_mod, e.padding_aligned]
      simp
    have := e.start_aligned n
    unfold lockAddr TUPLE_SIZE
    omega
  bytes_pos := by decide
  bytes_aligned := rfl

/-- One attempt at an operation. -/
def runCheck (op : Check ν) : Prog (ν × Ctx) (ν × Buffer) OLRestartException Bool :=
  match op with
  | .read n lockId => (runCheckRead (e.tuple n lockId)).onNode n
  | .update n lockId => (runCheckUpdate (e.tuple n lockId)).onNode n

/-- A worker runs any operations, and dies with an exception if a check fails. -/
def workload (nic : Nic)
    : Workload (ν × Ctx) (ν × Buffer) OLRestartException Bool (Check ν) where
  nic := nic
  program := e.runCheck
  mayStart := fun _ _ => true
  after := fun op outcome =>
    match outcome with
    | .ok corrupt => if corrupt then .stop else .idle
    | .error _ => .goto op

end Experiment

section Keeps

variable {t : Tuple} {u : List (Verb Buffer × Bool)}

def WrittenBack (u : List (Verb Buffer × Bool)) : Prop :=
  ∀ p ∈ u, p.2 = false ∧ (∀ a, p.1.sends a → ∃ b, a.1 = .tupleBuffer b)

theorem writtenBack_nil : WrittenBack [] := by
  intro p hp
  simp at hp

theorem WrittenBack.unsignaled (hu : WrittenBack u) : ∀ p ∈ u, p.2 = false := by
  intro p hp
  exact (hu p hp).1

theorem WrittenBack.acked (hu : WrittenBack u) (n : Nat) : WrittenBack (Rdma.acked u n) := by
  intro p hp
  exact hu p (mem_of_mem_acked hp)

theorem WrittenBack.unsent (hu : WrittenBack u) (i : Nat) : Unsent u (.userBuffer, i) := by
  intro p hp hsends
  obtain ⟨_, hbuffer⟩ := (hu p hp).2 _ hsends
  simp at hbuffer

theorem WrittenBack.batch (hu : WrittenBack u) (flags : Flags) (v : Verb Buffer)
    : WrittenBack
        (Rdma.acked (u ++ List.replicate flags.batch (v, true)) (sizeT flags.batchSize)) := by
  by_cases hpos : 0 < flags.batchSize
  . rw [sizeT_batchSize (Int32.le_of_lt hpos),
      acked_append_replicate hu.unsignaled v (Flags.batch_pos.mpr hpos)]
    exact writtenBack_nil
  . have hzero : flags.batch = 0 := Nat.eq_zero_of_not_pos (mt Flags.batch_pos.mp hpos)
    rw [hzero, List.replicate_zero, List.append_nil]
    exact hu.acked _

/-- The stores of a read that change a footer. -/
def Risky (t : Tuple) : Prop :=
  t.consistency = .v2 ∧ t.lockType = .footerLock

variable {b : Bool} {opnum : Nat}

theorem keeps_runRead_v2 (hc : t.consistency = .v2) (hu : WrittenBack u)
    : KeepsPayloads .rctx (fun _ => True) (fun _ => Risky t) (fun _ => WrittenBack)
        (runRead t b opnum) u := by
  cases hl : t.lockType with
  | headerLock =>
    rw [runRead_v2_header hc hl]
    apply KeepsPayloads.read_poll trivial hu.unsignaled
    apply KeepsPayloads.read_poll trivial (by simp)
    intro prevVersion x
    apply KeepsPayloads.check writtenBack_nil
    apply KeepsPayloads.read_poll trivial (by simp)
    intro version
    apply KeepsPayloads.check writtenBack_nil
    intro x
    exact KeepsPayloads.check writtenBack_nil (fun version => writtenBack_nil)
  | footerLock =>
    rw [runRead_v2_footer hc hl]
    refine ⟨trivial, .inl ⟨hc, hl⟩, trivial, .inl ⟨hc, hl⟩, ?_⟩
    apply KeepsPayloads.read_poll trivial hu.unsignaled
    intro version
    apply KeepsPayloads.read_poll trivial (by simp)
    intro prevVersion x
    apply KeepsPayloads.check writtenBack_nil
    apply KeepsPayloads.read_poll trivial (by simp)
    intro version
    apply KeepsPayloads.check writtenBack_nil
    intro x
    exact KeepsPayloads.check writtenBack_nil (fun version => writtenBack_nil)

theorem keeps_runRead_crc (hc : t.consistency = .crc) (hu : WrittenBack u)
    : KeepsPayloads .rctx (fun _ => True) (fun _ => Risky t) (fun _ => WrittenBack)
        (runRead t b opnum) u := by
  rw [runRead_crc hc]
  apply KeepsPayloads.read_poll trivial hu.unsignaled
  intro prevVersion x
  apply KeepsPayloads.check writtenBack_nil
  refine KeepsPayloads.of_local (crc_check_local t b) ?_ (fun _ _ => writtenBack_nil) ?_
  . intro a _
    exact ⟨trivial, unsent_nil a⟩
  . intro _
    apply KeepsPayloads.read_poll trivial (by simp)
    intro version
    apply KeepsPayloads.check writtenBack_nil
    intro x
    exact KeepsPayloads.check writtenBack_nil (fun version => writtenBack_nil)

theorem keeps_readResult (hu : WrittenBack u)
    : KeepsPayloads .rctx (fun _ => True) (fun _ => Risky t) (fun _ => WrittenBack)
        (readResult t b) u := by
  intro x
  exact KeepsPayloads.check hu (fun version => hu)

theorem keeps_runRead_farm (hc : t.consistency = .faRM) (hu : WrittenBack u)
    : KeepsPayloads .rctx (fun _ => True) (fun _ => Risky t) (fun _ => WrittenBack)
        (runRead t b opnum) u := by
  have hcheck := farm_check_local t b
  have hbatch := hu.batch t.flags (dataVerb t b)
  rw [runRead_farm hc]
  apply KeepsPayloads.forEach_read trivial
  rw [List.length_range]
  refine ⟨rfl, KeepsPayloads.of_local (Prog.Local.forEach fun _ _ => hcheck) ?_ ?_ ?_⟩
  . rintro ⟨buffer, i⟩ rfl
    exact ⟨trivial, hbatch.unsent i⟩
  . intro _ _
    exact hbatch
  . intro _
    exact keeps_readResult hbatch

theorem keeps_runRead_broken (hc : t.consistency = .broken) (hu : WrittenBack u)
    : KeepsPayloads .rctx (fun _ => True) (fun _ => Risky t) (fun _ => WrittenBack)
        (runRead t b opnum) u := by
  have hbatch := hu.batch t.flags (dataVerb t b)
  rw [runRead_broken hc]
  apply KeepsPayloads.forEach_read trivial
  rw [List.length_range]
  refine ⟨rfl, ?_⟩
  apply KeepsPayloads.forEach_read trivial
  rw [List.length_range]
  exact ⟨rfl, keeps_readResult (hbatch.batch t.flags _)⟩

theorem keeps_runRead (hc : t.consistency ≠ .rc) (hu : WrittenBack u)
    : KeepsPayloads .rctx (fun _ => True) (fun _ => Risky t) (fun _ => WrittenBack)
        (runRead t b opnum) u := by
  cases hcases : t.consistency with
  | v2 => exact keeps_runRead_v2 hcases hu
  | crc => exact keeps_runRead_crc hcases hu
  | faRM => exact keeps_runRead_farm hcases hu
  | broken => exact keeps_runRead_broken hcases hu
  | rc => exact absurd hcases hc

theorem keeps_loadAll {risky : Buffer × Nat → Prop} (as : List (Buffer × Nat))
    {f : List Word → Code Bool}
    (hf : ∀ words, KeepsPayloads .rctx (fun _ => True) risky (fun _ => WrittenBack) (f words) u)
    : KeepsPayloads .rctx (fun _ => True) risky (fun _ => WrittenBack)
        (Prog.loadAll as >>= f) u := by
  have hlocal : (Prog.loadAll as : Code (List Word)).Local (fun _ => True) (fun _ => False)
      (fun _ => False) := Prog.Local.loadAll fun _ _ => trivial
  exact KeepsPayloads.of_local hlocal (fun _ h => h.elim) (fun _ h => h.elim) hf

theorem keeps_runCheckRead (hc : t.consistency ≠ .rc) (hu : WrittenBack u)
    : KeepsPayloads .rctx (fun _ => True) (fun _ => Risky t) (fun _ => WrittenBack)
        (runCheckRead t) u := by
  apply (keeps_runRead hc hu).bind
  . intro _ u hu prev
    exact keeps_loadAll _ (fun _ => hu)
  . intro _ _ h
    exact h

theorem keeps_publish {risky : Buffer × Nat → Prop}
    : KeepsPayloads .rctx (fun _ => True) risky (fun _ => WrittenBack)
        (t.exclusive b).publish [] := by
  have hwrite : ∀ a, (Verb.write (Buffer.tupleBuffer b, 0) t.remoteAddress t.bytes).sends a →
      ∃ b, a.1 = .tupleBuffer b := by
    rintro a ⟨ha, _⟩
    exact ⟨b, ha⟩
  unfold ExclusiveLock.publish
  split
  . refine ⟨rfl, fun _ _ => trivial, fun _ _ => quiet_nil _, ?_⟩
    intro p hp
    obtain rfl := List.mem_singleton.mp hp
    exact ⟨rfl, hwrite⟩
  . refine ⟨rfl, fun _ _ => trivial, fun _ _ => quiet_nil _, rfl, fun _ _ => trivial,
      fun _ h => h.elim, ?_⟩
    intro p hp
    simp only [List.nil_append, List.singleton_append, List.mem_cons, List.not_mem_nil,
      or_false] at hp
    rcases hp with rfl | rfl
    . exact ⟨rfl, hwrite⟩
    . exact ⟨rfl, fun _ h => h.elim⟩

theorem keeps_runUpdate {risky : Buffer × Nat → Prop} (hu : WrittenBack u)
    : KeepsPayloads .rctx (fun _ => True) risky (fun _ => WrittenBack)
        (runUpdate t (incrementAll t) b ()) u := by
  rw [runUpdate_eq, lock_eq]
  simp only [Prog.bind_post, Prog.bind_poll, Prog.bind_load, Prog.bind_ite, Prog.bind_throw,
    Prog.bind_ret]
  refine ⟨rfl, fun _ _ => trivial, fun _ h => h.elim, ?_⟩
  apply KeepsPayloads.read_poll trivial
  . simp only [List.forall_mem_append, List.forall_mem_singleton]
    exact ⟨hu.unsignaled, trivial⟩
  . intro x
    apply KeepsPayloads.check writtenBack_nil
    refine KeepsPayloads.of_local (change_local t b (incrementAll t) ()) ?_ (fun _ h => h.elim) ?_
    . intro a _
      exact ⟨trivial, unsent_nil a⟩
    . intro _
      exact keeps_publish

theorem keeps_runCheckUpdate {risky : Buffer × Nat → Prop} (hu : WrittenBack u)
    : KeepsPayloads .rctx (fun _ => True) risky (fun _ => WrittenBack) (runCheckUpdate t) u := by
  apply (keeps_runUpdate hu).bind
  . intro _ _ h
    exact h
  . intro _ _ h
    exact h

end Keeps

section Payloads

variable [DecidableEq W] [DecidableEq ν] {nic : Nic}

def payloadSpec (e : Experiment ν) (hc : e.consistency ≠ .rc) (nic : Nic)
    : PayloadSpec (e.workload nic) where
  queue := fun op => (op.node, .rctx)
  own := fun c b => c.1 = b.1 ∧ c.2 = .rctx
  own_inj := by
    rintro ⟨n, c⟩ ⟨n', c'⟩ b ⟨rfl, rfl⟩ ⟨rfl, rfl⟩
    rfl
  risky := fun op _ =>
    match op with
    | .read _ _ => e.consistency = .v2 ∧ e.lockType = .footerLock
    | .update _ _ => False
  leftover := fun c u => ∃ q, WrittenBack q ∧ u = requestsOn c.1 q
  ends := fun op _ u => ∃ q, WrittenBack q ∧ u = requestsOn op.node q
  leftover_nil := fun _ => ⟨[], writtenBack_nil, rfl⟩
  leftover_of_ends := fun h => h
  keeps := by
    rintro op _ ⟨q, hq, rfl⟩
    cases op with
    | read n lockId =>
      apply (keeps_runCheckRead hc hq).onNode n
      . exact fun _ _ => ⟨rfl, rfl⟩
      . exact fun _ h => h
      . exact fun _ u hu => ⟨u, hu, rfl⟩
    | update n lockId =>
      apply (keeps_runCheckUpdate hq).onNode n
      . exact fun _ _ => ⟨rfl, rfl⟩
      . exact fun _ (h : False) => h.elim
      . exact fun _ u hu => ⟨u, hu, rfl⟩

/--
The step is not one with which a reader of footers zeroes its copy of the footer while an earlier
update still has to be fetched from the same buffer.
-/
def sparesFooter (e : Experiment ν)
    (s : Sys W (ν × Ctx) (ν × Buffer) OLRestartException Bool (Check ν))
    (a : Action W (ν × Ctx) (Check ν)) : Bool :=
  match a with
  | .cpu w _ =>
    match (s.worker w).control with
    | .running (.read n _) _ (.store _ _ _) =>
      !(e.consistency = .v2 && e.lockType = .footerLock) ||
        ((s.worker w).queue (n, .rctx)).all fun f => !f.verb.isWrite
    | _ => true
  | _ => true

omit [DecidableEq W] [DecidableEq ν] in
theorem guards_sparesFooter (e : Experiment ν) (hc : e.consistency ≠ .rc) (nic : Nic)
    : (payloadSpec e hc nic).Guards
        (fun (s : Sys W _ _ _ _ _) a => sparesFooter e s a = true) := by
  intro s w n op since a x next hcond hcontrol hrisky f hf hsends
  cases op with
  | update => exact hrisky.elim
  | read node lockId =>
    simp only [sparesFooter, hcontrol, hrisky.1, hrisky.2, decide_true, Bool.and_self,
      Bool.not_true, Bool.false_or, List.all_eq_true] at hcond
    have := hcond f hf
    rw [Verb.isWrite_of_sends hsends] at this
    simp at this

/-- Whenever the network card fetches the payload of a WRITE, it is what `unlock` posted. -/
theorem writeBack_sends_committed (e : Experiment ν) (hc : e.consistency ≠ .rc)
    {s₀ s : Sys W (ν × Ctx) (ν × Buffer) OLRestartException Bool (Check ν)} (hfresh : s₀.Fresh)
    (hreach : Sys.Reach (e.workload nic) (fun s a => sparesFooter e s a = true) s₀ s) (w : W)
    : (s.worker w).PayloadsKept := by
  exact (payloadSpec e hc nic).payloadsKept_of_reach (guards_sparesFooter e hc nic) hfresh hreach w

def sampleExperiment (consistency : Consistency) (lockType : LockType) : Experiment Unit where
  flags := { batchSize := 32, memcpy := false, crc64 := fun _ => 0 }
  consistency := consistency
  lockType := lockType
  start := fun _ => 0
  padding := 8
  start_aligned := fun _ => rfl
  padding_aligned := aligned_eight

/-- A worker updates a tuple; the WRITE is still in the queue. -/
def updateRun : List (Action Bool (Unit × Ctx) (Check Unit)) :=
  List.flatten [
    [.start true (.update () 0)], cpus true 2, serves true ((), .rctx) [0],
    serves true ((), .rctx) [1, 2, 3, 4, 5, 6, 7, 8], [.cpu true 1], cpus true 53]

def sendsOther (w : W) (s : Sys W (Unit × Ctx) (Unit × Buffer) OLRestartException Bool (Check Unit))
    : Bool :=
  ((s.worker w).queue ((), .rctx)).any fun f =>
    (List.range (TUPLE_SIZE / 8)).any fun i => f.verb.payload (s.worker w).buf i != f.payload i

def hasWrite (w : W) (s : Sys W (Unit × Ctx) (Unit × Buffer) OLRestartException Bool (Check Unit))
    : Bool :=
  ((s.worker w).queue ((), .rctx)).any fun f => f.verb.isWrite

theorem writeBack_sends_committed_updateRun
    : ∃ (s : Sys Bool (Unit × Ctx) (Unit × Buffer) OLRestartException Bool (Check Unit)),
        ∃ f ∈ (s.worker true).queue ((), .rctx), f.verb.isWrite = true ∧
          f.verb.payload (s.worker true).buf = f.payload := by
  have hrun : ((Sys.initial (fun _ => 0) (fun _ _ => 0)).runIf
      ((sampleExperiment .v2 .footerLock).workload { atomicReadBytes := 64, inOrderWrites := true })
      (sparesFooter (sampleExperiment .v2 .footerLock)) updateRun).any (hasWrite true) = true := by
    decide +kernel
  obtain ⟨s, hreach, hwrite⟩ := Sys.exists_reach_of_runIf hrun
  obtain ⟨f, hf, hisWrite⟩ := List.any_eq_true.mp hwrite
  refine ⟨s, f, hf, hisWrite, ?_⟩
  exact writeBack_sends_committed (sampleExperiment .v2 .footerLock) (by decide)
    (Sys.initial_fresh _ _) hreach true _ f hf

/-- The next operation on the node is a read, which zeroes the footer at once. -/
theorem writeBack_sends_other
    : ∃ s : Sys Bool (Unit × Ctx) (Unit × Buffer) OLRestartException Bool (Check Unit),
        Sys.Reach
          ((sampleExperiment .v2 .footerLock).workload
            { atomicReadBytes := 64, inOrderWrites := true })
          Sys.anyStep (Sys.initial (fun _ => 0) (fun _ _ => 0)) s ∧
        ¬(s.worker true).PayloadsKept := by
  have hrun : ((Sys.initial (fun _ => 0) (fun _ _ => 0)).run
      ((sampleExperiment .v2 .footerLock).workload { atomicReadBytes := 64, inOrderWrites := true })
      (updateRun ++ [.finish true, .start true (.read () 0), .cpu true 0])).any
      (sendsOther true) = true := by
    decide +kernel
  obtain ⟨s, hreach, hother⟩ := Sys.exists_reach_of_run hrun
  refine ⟨s, hreach, ?_⟩
  intro hkept
  obtain ⟨f, hf, hdiffers⟩ := List.any_eq_true.mp hother
  simp [hkept _ f hf] at hdiffers

end Payloads

end OptdbExperiment
