import RdmaSync.CommunicationManager
import RdmaSync.Crcspeed.Sound
import RdmaSync.Rdma.Lone

/-!
This module contains the experiment with a single reader that checks the same block over and over, with
each of the techniques that its flags select, and the proof that the block which the storage node
prepares passes all of the checks.
-/

namespace OptimisticSt

open Rdma CommunicationManager
open Rdma.Action (cpus serves)

inductive Ctx where
  | rctx
  deriving DecidableEq

inductive Buffer where
  | old
  deriving DecidableEq

inductive Failure where
  | versionsNotEqual
  | crcNotEqual
  | notPossible
  | noOption
  deriving DecidableEq

abbrev Code := Prog Ctx Buffer Failure

structure Experiment where
  addr : Nat
  blockSize : Nat
  order : Crcspeed.ByteOrder
  buffer : Word
  versioning : Bool
  crc : Bool
  farm : Bool
  pessimistic : Bool
  addr_aligned : addr % 8 = 0
  blockSize_ge : 16 ≤ blockSize
  blockSize_aligned : blockSize % 8 = 0

namespace Experiment

variable (x : Experiment)

def words : Nat := x.blockSize / 8

def bytes (words : List Word) : List Crcspeed.Byte :=
  words.flatMap fun w =>
    match x.order with
    | .little => Crcspeed.bytesOf w
    | .big => (Crcspeed.bytesOf w).reverse

/-- `crc64` of the words after the first two, which begin at address `next`. -/
def checksum (next : Word) (words : List Word) : Word :=
  Crcspeed.crc64 x.order 0x42F0E1EBA9EA3693 next (x.bytes words)

section Storage

/-- What the storage node makes of a region with random contents. -/
def prepare (m : Mem) : Mem :=
  let base := x.addr / 8
  -- set farm versions
  let m := (strided 0 x.words 8).foldl (fun m i => Function.update m (base + i) 99) m
  let data := (List.range (x.words - 2)).map fun i => m (base + 2 + i)
  Function.update m (base + 1) (x.checksum (BitVec.ofNat 64 (x.addr + 16)) data)

end Storage

section Reader

def pollCQ : Code Unit :=
  pollCompletions .rctx 1

def validate : Code Unit := do
  let prev ← load (.old, 0)
  postRead (.old, 0) .rctx signaled x.addr 8 false
  pollCQ
  let version ← load (.old, 0)
  if prev ≠ version then
    Prog.throw .versionsNotEqual
  else
    return ()

def versioningRead : Code Unit := do
  -- read V
  postRead (.old, 0) .rctx unsignaled x.addr 8 false
  -- read data
  postRead (.old, 1) .rctx signaled (x.addr + 8) (x.blockSize - 8) false
  pollCQ
  x.validate

def checkCrc : Code Unit := do
  let data ← Prog.loadAll ((List.range (x.words - 2)).map fun i => (.old, 2 + i))
  let crcV1 := x.checksum (x.buffer + 16) data
  let crc ← load (.old, 1)
  if crcV1 ≠ crc then
    Prog.throw .crcNotEqual
  else
    return ()

def crcRead : Code Unit := do
  postRead (.old, 0) .rctx signaled x.addr x.blockSize false
  pollCQ
  x.checkCrc
  x.validate

def checkVersion (i : Nat) : Code Unit := do
  let version ← load (.old, i)
  if version ≠ 99 then
    Prog.throw .versionsNotEqual
  else
    return ()

def farmRead : Code Unit := do
  -- read D+V
  postRead (.old, 0) .rctx signaled x.addr x.blockSize false
  pollCQ
  Prog.forEach (strided 0 x.words 8) checkVersion
  x.validate

def speculativeReadSLock : Code Unit := do
  postFetchAdd 1 (.old, 0) .rctx unsignaled x.addr false
  postRead (.old, 1) .rctx signaled (x.addr + 8) (x.blockSize - 8) false
  pollCQ

def sOrderRelease : Code Unit :=
  postFetchAdd (-1) (.old, 0) .rctx unsignaled x.addr true

def pessimisticRead : Code Unit := do
  x.speculativeReadSLock
  let old ← load (.old, 0)
  if old < 50 then
    Prog.throw .notPossible
  else
    x.sOrderRelease

def iteration : Code Unit :=
  if x.versioning then
    x.versioningRead
  else if x.crc then
    x.crcRead
  else if x.farm then
    x.farmRead
  else if x.pessimistic then
    x.pessimisticRead
  else
    Prog.throw .noOption

def workload (nic : Nic) : Workload Ctx Buffer Failure Unit Unit :=
  .loop nic x.iteration

end Reader

section Run

variable {x} {m : Mem} {l : Local Buffer} {f : Unit → Code Unit}

theorem words_ge : 2 ≤ x.words := by
  have := x.blockSize_ge
  unfold words
  omega

theorem checksum_congr (next next' : Word) (data : List Word)
    : x.checksum next data = x.checksum next' data := by
  unfold checksum
  rw [Crcspeed.crc64_eq_feed, Crcspeed.crc64_eq_feed]

/-- What the checks of the reader rely on. -/
structure Prepared (x : Experiment) (m : Mem) : Prop where
  versions : ∀ i ∈ strided 0 x.words 8, m (x.addr / 8 + i) = 99
  crc : ∀ next, m (x.addr / 8 + 1)
    = x.checksum next ((List.range (x.words - 2)).map fun i => m (x.addr / 8 + 2 + i))

theorem foldl_update (is : List Nat) (base : Nat) (y : Word) (m : Mem) (j : Nat)
    : is.foldl (fun m i => Function.update m (base + i) y) m j
        = if ∃ i ∈ is, j = base + i then y else m j := by
  induction is generalizing m with
  | nil => simp
  | cons i is ih =>
    rw [List.foldl_cons, ih]
    by_cases hj : j = base + i
    . subst hj
      simp
    . simp [hj]

theorem prepared_prepare (m : Mem) : x.Prepared (x.prepare m) := by
  constructor
  . intro i hi
    have hmod : i % 8 = 0 := by
      obtain ⟨_, _, hmod⟩ := (mem_strided (by decide)).mp hi
      omega
    unfold prepare
    rw [Function.update_of_ne (by omega), foldl_update, if_pos ⟨i, hi, rfl⟩]
  . intro next
    unfold prepare
    rw [Function.update_self, checksum_congr _ next]
    congr 1
    apply List.map_congr_left
    intro i _
    rw [Function.update_of_ne (by omega)]

def fetch (x : Experiment) (l : Local Buffer) (m : Mem) : Local Buffer :=
  ((Verb.read (Buffer.old, 0) x.addr x.blockSize).perform l m).1

theorem fetch_old (l : Local Buffer) (m : Mem) {i : Nat} (hi : i < x.words)
    : x.fetch l m .old i = m (x.addr / 8 + i) := by
  have hread : x.fetch l m .old (0 + i) = m (x.addr / 8 + i) := Verb.perform_read hi l m
  rwa [Nat.zero_add] at hread

theorem validate_run (h : l .old 0 = m (x.addr / 8)) : ∃ l', x.validate.run l m = (.ok (), l', m) := by
  let l' := ((Verb.read (Buffer.old, 0) x.addr 8).perform l m).1
  have hsame : l .old 0 = l' .old 0 := by
    rw [h]
    exact (Verb.perform_read (k := 0) (i := 0) (by decide) l m).symm
  have hrun : x.validate.run l m
      = (if l .old 0 ≠ l' .old 0 then Prog.throw .versionsNotEqual else .ret () : Code Unit).run l' m :=
    rfl
  rw [hrun, if_neg (not_not_intro hsame)]
  exact ⟨l', rfl⟩

theorem versioningRead_run (l : Local Buffer) : ∃ l', x.versioningRead.run l m = (.ok (), l', m) := by
  apply validate_run
  rw [Verb.perform_read_of_lt (by decide)]
  exact Verb.perform_read (i := 0) (by decide) l m

theorem checkCrc_run
    (h : l .old 1 = x.checksum (x.buffer + 16) ((List.range (x.words - 2)).map fun i => l .old (2 + i)))
    : x.checkCrc.run l m = (.ok (), l, m) := by
  have hlocal : (Prog.loadAll ((List.range (x.words - 2)).map fun i => (Buffer.old, 2 + i)) :
      Code (List Word)).Local (fun _ => True) (fun _ => False) (fun _ => False) :=
    .loadAll fun _ _ => trivial
  have hloads : (Prog.loadAll ((List.range (x.words - 2)).map fun i => (Buffer.old, 2 + i)) :
      Code (List Word)).run l m
        = (.ok ((List.range (x.words - 2)).map fun i => l .old (2 + i)), l, m) := by
    rw [Prog.Local.run_eq hlocal, Prog.exec_loadAll, List.map_map]
    rfl
  unfold checkCrc
  rw [Prog.run_bind, hloads]
  show (if x.checksum _ _ ≠ l .old 1 then Prog.throw .crcNotEqual else .ret () : Code Unit).run l m = _
  rw [h, if_neg (not_not_intro rfl)]
  rfl

theorem crcRead_run (h : x.Prepared m) (l : Local Buffer)
    : ∃ l', x.crcRead.run l m = (.ok (), l', m) := by
  have hge := x.words_ge
  have hcheck : x.checkCrc.run (x.fetch l m) m = (.ok (), x.fetch l m, m) := by
    apply checkCrc_run
    rw [fetch_old l m hge, h.crc (x.buffer + 16)]
    congr 1
    apply List.map_congr_left
    intro i hi
    rw [fetch_old l m (by have := List.mem_range.mp hi; omega), Nat.add_assoc]
  show ∃ l', (x.checkCrc >>= fun _ => x.validate).run (x.fetch l m) m = (.ok (), l', m)
  rw [Prog.run_bind, hcheck]
  exact validate_run (fetch_old l m (by omega))

theorem checkVersions_run {is : List Nat} (h : ∀ i ∈ is, l .old i = 99)
    : (Prog.forEach is checkVersion).run l m = (.ok (), l, m) := by
  induction is with
  | nil => rfl
  | cons i is ih =>
    have hcheck : (checkVersion i).run l m = (.ok (), l, m) := by
      simp [checkVersion, load, Prog.run, h i List.mem_cons_self]
    rw [Prog.forEach_cons, Prog.run_bind, hcheck]
    exact ih fun j hj => h j (List.mem_cons_of_mem _ hj)

theorem farmRead_run (h : x.Prepared m) (l : Local Buffer)
    : ∃ l', x.farmRead.run l m = (.ok (), l', m) := by
  have hge := x.words_ge
  have hcheck : (Prog.forEach (strided 0 x.words 8) checkVersion).run (x.fetch l m) m
      = (.ok (), x.fetch l m, m) := by
    apply checkVersions_run
    intro i hi
    rw [fetch_old l m ((mem_strided (by decide)).mp hi).2.1, h.versions i hi]
  show ∃ l', (Prog.forEach (strided 0 x.words 8) checkVersion >>= fun _ => x.validate).run
    (x.fetch l m) m = (.ok (), l', m)
  rw [Prog.run_bind, hcheck]
  exact validate_run (fetch_old l m (by omega))

theorem pessimisticRead_run (h : x.Prepared m) (l : Local Buffer)
    : ∃ l', x.pessimisticRead.run l m = (.ok (), l', m) := by
  have hge := x.words_ge
  have hversion : m (x.addr / 8) = 99 :=
    h.versions 0 ((mem_strided (by decide)).mpr ⟨Nat.le_refl _, by omega, rfl⟩)
  let m' := store64 m x.addr (load64 m x.addr + 1)
  let l' := ((Verb.read (Buffer.old, 1) (x.addr + 8) (x.blockSize - 8)).perform
    (l.set (.old, 0) (load64 m x.addr)) m').1
  have hold : l' .old 0 = 99 := by
    apply (Verb.perform_read_of_lt (by decide) _ m').trans
    rw [Local.set_self l (Buffer.old, 0), load64_aligned m x.addr_aligned, hversion]
  have hrestored : store64 m' x.addr (load64 m' x.addr + (-1)) = m := by
    simp only [m', load64_aligned _ x.addr_aligned, store64_aligned _ _ x.addr_aligned,
      Function.update_self, Function.update_idem, hversion]
    rw [Function.update_eq_self_iff, hversion]
    rfl
  have hrun : x.pessimisticRead.run l m
      = (if l' .old 0 < 50 then Prog.throw .notPossible else x.sOrderRelease : Code Unit).run l' m' :=
    rfl
  rw [hrun, hold, if_neg (by decide)]
  exact ⟨_, Prod.ext rfl (Prod.ext rfl hrestored)⟩

def Selected (x : Experiment) : Prop :=
  x.versioning || x.crc || x.farm || x.pessimistic

theorem iteration_run (hselected : x.Selected) (h : x.Prepared m) (l : Local Buffer)
    : ∃ l', x.iteration.run l m = (.ok (), l', m) := by
  unfold iteration
  split
  . exact versioningRead_run l
  . split
    . exact crcRead_run h l
    . split
      . exact farmRead_run h l
      . split
        . exact pessimisticRead_run h l
        . simp_all [Selected]

end Run

section Discipline

variable {x} {u : List (Verb Buffer × Bool)}

theorem synced_validate : Synced .rctx LoopEnds x.validate [] := by
  refine ⟨quiet_nil _, ?_⟩
  intro prev
  apply Synced.read_poll (by simp)
  refine ⟨quiet_nil _, ?_⟩
  intro version
  exact Synced.check rfl (loopEnds_nil _)

theorem checkCrc_local
    : x.checkCrc.Local (fun _ => True) (fun _ => False) (fun _ => True) := by
  apply Prog.Local.bind (Prog.Local.loadAll fun _ _ => trivial)
  intro data
  apply Prog.Local.load _ _ trivial
  intro crc
  show Prog.Local _ _ _ (if x.checksum _ data ≠ crc then .throw Failure.crcNotEqual else .ret ())
  split
  . exact .throw _ trivial
  . exact .ret ()

theorem checkVersions_local (is : List Nat)
    : (Prog.forEach is checkVersion).Local (fun _ => True) (fun _ => False) (fun _ => True) := by
  apply Prog.Local.forEach
  intro i _
  apply Prog.Local.load _ _ trivial
  intro version
  show Prog.Local _ _ _ (if version ≠ 99 then .throw Failure.versionsNotEqual else .ret ())
  split
  . exact .throw _ trivial
  . exact .ret ()

theorem synced_check {p : Code Unit}
    (hp : p.Local (fun _ => True) (fun _ => False) (fun _ => True))
    : Synced .rctx LoopEnds (p >>= fun _ => x.validate) [] := by
  apply Synced.of_local hp
  . exact fun a _ => quiet_nil a
  . exact fun a _ => quiet_nil a
  . exact fun _ _ => rfl
  . exact fun _ => synced_validate

theorem synced_iteration (hselected : x.Selected) (hu : ∀ p ∈ u, p.2 = false)
    : Synced .rctx LoopEnds x.iteration u := by
  unfold iteration
  split
  . refine ⟨rfl, fun _ h => h.elim, ?_⟩
    exact Synced.read_poll (append_unsignaled hu _) synced_validate
  . split
    . exact Synced.read_poll hu (synced_check checkCrc_local)
    . split
      . exact Synced.read_poll hu (synced_check (checkVersions_local _))
      . split
        . refine ⟨rfl, fun _ h => h.elim, ?_⟩
          apply Synced.read_poll (append_unsignaled hu _)
          refine ⟨quiet_nil _, ?_⟩
          intro old
          apply Synced.check rfl
          refine ⟨rfl, fun _ h => h.elim, ?_⟩
          simp [Synced, LoopEnds, unsignaled]
        . simp_all [Selected]

end Discipline

/-- The block that the storage node prepares passes the checks of every technique. -/
theorem optimisticSt_undisturbed {x : Experiment} {nic : Nic} {m : Mem}
    {s₀ s : Sys Unit Ctx Buffer Failure Unit Unit} (hselected : x.Selected) (hfresh : s₀.Fresh)
    (hprepare : s₀.shared.mem = x.prepare m)
    (hreach : Sys.Reach (x.workload nic) Sys.anyStep s₀ s) : Undisturbed (x.prepare m) s := by
  rw [← hprepare]
  apply undisturbed_of_run (fun _ hu => synced_iteration hselected hu) _ hfresh hreach
  rw [hprepare]
  exact iteration_run hselected (prepared_prepare m)

def sample : Experiment where
  addr := 0
  blockSize := 3 * 8
  order := .little
  buffer := 64
  versioning := false
  crc := true
  farm := false
  pessimistic := false
  addr_aligned := aligned_zero
  blockSize_ge := by decide
  blockSize_aligned := Nat.mul_mod_left 3 8

def crcRun : List (Action Unit Ctx Unit) :=
  List.flatten [
    [.start () ()], cpus () 1, serves () .rctx [0], [.cpu () 1], cpus () 4, serves () .rctx [0],
    [.cpu () 1], cpus () 1, [.finish ()]]

theorem optimisticSt_undisturbed_crcRun
    : ∃ s : Sys Unit Ctx Buffer Failure Unit Unit,
        Undisturbed (sample.prepare fun _ => 7) s ∧ (s.worker ()).done.length = 1 := by
  have hrun : ((Sys.initial (sample.prepare fun _ => 7) (fun _ _ => 0)).run
      (sample.workload { atomicReadBytes := 0, inOrderWrites := false }) crcRun).any
      (fun s => (s.worker ()).done.length == 1) = true := by
    decide +kernel
  obtain ⟨s, hreach, hdone⟩ := Sys.exists_reach_of_run hrun
  rw [beq_iff_eq] at hdone
  exact ⟨s, optimisticSt_undisturbed rfl (Sys.initial_fresh _ _) rfl hreach, hdone⟩

end Experiment
end OptimisticSt
