import RdmaSync.OptimisticLocks.Crc64
import RdmaSync.OptimisticLocks.Reader

/-!
This module contains the readers that validate with a checksum. Nothing relates the lines they read
to each other but the checksum itself.
-/

namespace OptimisticLocks

open Rdma CommunicationManager
open Rdma.Action (cpus touches serves)

variable {W U : Type} [DecidableEq W] {t : Tuple} {modification : Modification t U} {nic : Nic}
  {init : Nat → Word}

/-- The index of the checksum word. -/
def Tuple.crcIdx (t : Tuple) : Nat :=
  match t.lockType with
  | .headerLock => 2
  | .footerLock => 1

def checksum (t : Tuple) (words : Nat → Word) : Word :=
  t.flags.crc64 ((List.range (t.words - 3)).map fun i => words (t.crcIdx + 1 + i))

theorem checksum_congr {f g : Nat → Word}
    (h : ∀ i, t.crcIdx < i → i < t.crcIdx + t.words - 2 → f i = g i)
    : checksum t f = checksum t g := by
  have := t.words_ge
  unfold checksum
  congr 1
  apply List.map_congr_left
  intro i hi
  rw [List.mem_range] at hi
  exact h _ (by omega) (by omega)

section Writer

theorem content_eq (t : Tuple) (b : Bool)
    : CRC.content (.tupleBuffer b, t.crcIdx) (t.bytes - 16) =
        (List.range (t.words - 3)).map fun i => (Buffer.tupleBuffer b, t.crcIdx + 1 + i) := by
  have : (t.bytes - 16 - 8) / 8 = t.words - 3 := by
    have := t.bytes_eq
    omega
  rw [← this]
  rfl

theorem crcIdx_lt (t : Tuple) : t.crcIdx < t.words := by
  have := t.words_ge
  unfold Tuple.crcIdx
  split <;> omega

theorem covered_ne (hc : t.consistency = .crc) {i : Nat} (h : t.crcIdx < i)
    (h' : i < t.crcIdx + t.words - 2) : i < t.words ∧ i ≠ t.lockIdx ∧ i ≠ t.versionIdx := by
  have := t.words_ge
  unfold Tuple.lockIdx Tuple.versionIdx Tuple.crcIdx at *
  cases hl : t.lockType <;> simp only [hc, hl] at * <;> omega

theorem crcIdx_ne (hc : t.consistency = .crc) : t.crcIdx ≠ t.lockIdx ∧ t.crcIdx ≠ t.versionIdx := by
  have := t.words_ge
  unfold Tuple.lockIdx Tuple.versionIdx Tuple.crcIdx
  cases hl : t.lockType <;> simp only [hc] <;> omega

theorem crc_generate_eq (hc : t.consistency = .crc) (b : Bool)
    : (t.exclusive b).generateConsistencyProof =
        CRC.generateConsistencyProof t.flags (.tupleBuffer b, t.crcIdx) (t.bytes - 16) := by
  unfold ExclusiveLock.generateConsistencyProof Tuple.crcIdx
  simp only [Tuple.exclusive, hc]
  cases t.lockType <;> rfl

theorem Replaces.checksum (hc : t.consistency = .crc) {u : U} {prev next : Nat → Word}
    (h : Replaces t modification u prev next) : next t.crcIdx = checksum t next := by
  obtain ⟨b, l, _, rfl⟩ := h
  obtain ⟨hlock, hversion⟩ := crcIdx_ne hc
  have hexec : proven t b modification u l =
      (modified t b modification u l).set (.tupleBuffer b, t.crcIdx)
        (OptimisticLocks.checksum t (modified t b modification u l (.tupleBuffer b))) := by
    rw [proven, crc_generate_eq hc, CRC.generateConsistencyProof, Prog.exec_bind,
      Prog.exec_loadAll, content_eq, List.map_map]
    rfl
  have hcovered : ∀ i, t.crcIdx < i → i < t.crcIdx + t.words - 2 →
      copied t b ((change t modification b u).exec l).2 i =
        modified t b modification u l (.tupleBuffer b) i := by
    intro i hlo hhi
    obtain ⟨hi, hne, hne'⟩ := covered_ne hc hlo hhi
    rw [copied_apply _ _ _ hi, change_of_ne _ _ _ _ _ hne hne', hexec, Local.set_of_ne]
    simp only [ne_eq, Prod.mk.injEq, true_and]
    omega
  rw [checksum_congr hcovered, copied_apply _ _ _ (crcIdx_lt t),
    change_of_ne _ _ _ _ _ hlock hversion, hexec]
  exact Local.set_self _ _ _

theorem snap_checksum (hc : t.consistency = .crc) (hinit : init t.crcIdx = checksum t init)
    {s : Shared W Buffer (Iteration U)} (hinv : TupleInv t modification init s) {k : Nat}
    (hk : k ≤ (t.block.commits s.hist).length)
    : snap init (t.block.commits s.hist) k t.crcIdx
        = checksum t (snap init (t.block.commits s.hist) k) := by
  apply hinv.chain.snap_induction (J := fun _ f => f t.crcIdx = checksum t f) hinit _ hk
  intro _ op _ next _ h
  cases op with
  | read => exact h.elim
  | update => exact Replaces.checksum hc h

end Writer

section Read

theorem runRead_crc (hc : t.consistency = .crc) (b : Bool) (opnum : Nat)
    : runRead t b opnum =
        .post .rctx true (.read (.tupleBuffer b, 0) t.remoteAddress t.bytes) (.poll .rctx 1
          (.load (.tupleBuffer b, 0) fun prevVersion =>
            .load (.tupleBuffer b, t.lockIdx) fun x =>
              if x ≠ 0 then
                .throw .restart
              else
                (CRC.checkConsistencyProof t.flags (.tupleBuffer b, t.crcIdx) (t.bytes - 16)) >>=
                fun _ => .post .rctx true (.read (.tupleBuffer b, 0) t.remoteAddress 8)
                  (.poll .rctx 1 (.load (.tupleBuffer b, 0) fun version =>
                    if prevVersion ≠ version then
                      .throw .restart
                    else
                      .load (.tupleBuffer b, t.lockIdx) fun x =>
                        if x ≠ 0 then
                          .throw .restart
                        else
                          .load (.tupleBuffer b, 0) fun version =>
                            .ret (prevVersion, version))))) := by
  have hcheck := checkLock_eq t b opnum
  have hcrc : t.crcIdx = match t.lockType with | .headerLock => 2 | .footerLock => 1 := rfl
  simp only [Tuple.optimistic, hc] at hcheck
  cases hl : t.lockType <;>
    simp only [hl] at hcheck hcrc <;>
    simp only [runRead, OptimisticLock.lock, OptimisticLock.unlock, OptimisticLock.validate,
      Tuple.optimistic, hc, hl, hcheck, hcrc, postRead, pollCompletions, load, signaled,
      Prog.pure_eq, Prog.bind_ret, Prog.bind_post, Prog.bind_poll, Prog.bind_load, Prog.bind_ite,
      Prog.bind_throw, Prog.bind_assoc]

theorem crc_check_local (t : Tuple) (b : Bool)
    : (CRC.checkConsistencyProof t.flags (.tupleBuffer b, t.crcIdx) (t.bytes - 16)).Local
        (inTuple t b) (fun _ => False) (fun _ => True) := by
  have hge := t.words_ge
  have hle : t.crcIdx ≤ 2 := by
    unfold Tuple.crcIdx
    split <;> omega
  apply Prog.Local.bind
  . rw [content_eq]
    apply Prog.Local.loadAll
    intro a ha
    rw [List.mem_map] at ha
    obtain ⟨i, hi, rfl⟩ := ha
    rw [List.mem_range] at hi
    exact ⟨rfl, by show _ < _; omega⟩
  . intro words
    refine .load _ _ ⟨rfl, crcIdx_lt t⟩ ?_
    intro crcV
    show Prog.Local _ _ _
      (if crcV ≠ t.flags.crc64 words then .throw OLRestartException.restart else .ret ())
    split
    . exact .throw _ trivial
    . exact .ret ()

theorem crc_check_ok {b : Bool} {l : Local Buffer} {a : Unit}
    (h : ((CRC.checkConsistencyProof t.flags (.tupleBuffer b, t.crcIdx) (t.bytes - 16)).exec l).1
      = .ok a) : l (.tupleBuffer b) t.crcIdx = checksum t (l (.tupleBuffer b)) := by
  rw [CRC.checkConsistencyProof, Prog.exec_bind, Prog.exec_loadAll, content_eq, List.map_map] at h
  by_contra hne
  have hne' : l (.tupleBuffer b) t.crcIdx ≠ t.flags.crc64 ((List.range (t.words - 3)).map
      ((fun a => l a.1 a.2) ∘ fun i => (Buffer.tupleBuffer b, t.crcIdx + 1 + i))) := hne
  simp [load, hne'] at h

theorem crc_check_error {b : Bool} {l : Local Buffer} {e : OLRestartException}
    (h : ((CRC.checkConsistencyProof t.flags (.tupleBuffer b, t.crcIdx) (t.bytes - 16)).exec l).1
      = .error e) : l (.tupleBuffer b) t.crcIdx ≠ checksum t (l (.tupleBuffer b)) := by
  intro heq
  have heq' : l (.tupleBuffer b) t.crcIdx = t.flags.crc64 ((List.range (t.words - 3)).map
      ((fun a => l a.1 a.2) ∘ fun i => (Buffer.tupleBuffer b, t.crcIdx + 1 + i))) := heq
  rw [CRC.checkConsistencyProof, Prog.exec_bind, Prog.exec_loadAll, content_eq, List.map_map] at h
  simp [load, ← heq'] at h

/--
The copy stores and has the checksum of a committed state that is no older than the last commit that
had been released at `since`, and that state has the same checksum.
-/
def IsChecked (t : Tuple) (init : Nat → Word) (b : Bool) (since : Nat) (_ : Word × Word)
    : Assertion W Buffer (Iteration U) :=
  fun l s => ∃ k, k ≤ (t.block.commits s.hist).length ∧ since ≤ s.hist.length ∧
    t.block.released (s.hist.drop (s.hist.length - since)) ≤ k ∧
    l (.tupleBuffer b) t.crcIdx = snap init (t.block.commits s.hist) k t.crcIdx ∧
    l (.tupleBuffer b) t.crcIdx = checksum t (l (.tupleBuffer b)) ∧
    snap init (t.block.commits s.hist) k t.crcIdx
      = checksum t (snap init (t.block.commits s.hist) k)

theorem isChecked_stable (w : W) (b : Bool) (since : Nat) (versions : Word × Word)
    (l : Local Buffer)
    : (tupleProtocol t modification init : Protocol W _ _).Stable w
        (IsChecked t init b since versions l) := by
  rintro s e _ _ _ _ ⟨k, hk, hsince, hreleased, hcrc, hchecked, hsnap⟩
  have hsuffix := List.suffix_cons (s.mem, e) s.hist
  have hdrop : (s.push e).hist.drop ((s.push e).hist.length - since)
      = s.hist.drop (s.hist.length - since) := by
    rw [Shared.push_hist, List.length_cons, Nat.succ_sub hsince, List.drop_succ_cons]
  have hcommits := t.block.snap_commits init hsuffix hk
  have hlen := t.block.commits_length hsuffix
  refine ⟨k, Nat.le_trans hk hlen, Nat.le_succ_of_le hsince, by rw [hdrop]; exact hreleased, ?_,
    hchecked, ?_⟩
  . rw [hcrc, Shared.push_hist, hcommits]
  . rw [Shared.push_hist, hcommits, hsnap]

theorem synced_runRead_crc (hc : t.consistency = .crc) {b : Bool} {opnum : Nat}
    {q : List (Verb Buffer × Bool)}
    {ends : Except OLRestartException (Word × Word) → List (Verb Buffer × Bool) → Prop}
    (hq : Leftover q) (hends : ∀ o, ends o []) : Synced .rctx ends (runRead t b opnum) q := by
  rw [runRead_crc hc]
  apply Synced.read_poll hq.unsignaled
  refine ⟨quiet_nil _, fun prevVersion => ⟨quiet_nil _, fun x => ?_⟩⟩
  apply Synced.check (hends _)
  apply Synced.of_local (crc_check_local t b)
  . intro a _
    exact quiet_nil a
  . intro a _
    exact quiet_nil a
  . intro e _
    exact hends _
  . intro _
    apply Synced.read_poll (by simp)
    refine ⟨quiet_nil _, fun version => ?_⟩
    apply Synced.check (hends _)
    refine ⟨quiet_nil _, fun x => ?_⟩
    apply Synced.check (hends _)
    exact ⟨quiet_nil _, fun version => hends _⟩

theorem wp_runRead_crc (hc : t.consistency = .crc) (hinit : init t.crcIdx = checksum t init)
    {w : W} {op : Iteration U} {b : Bool} {opnum : Nat} {l : Local Buffer}
    {mine : List (Commit W (Iteration U))} {s : Shared W Buffer (Iteration U)}
    (hinv : TupleInv t modification init s) (h : t.block.Rests w mine s)
    : wp (tupleProtocol t modification init) nic w op
        (fun o l s' => t.block.Rests w mine s' ∧
          match o with
          | .ok versions => ∀ since, since ≤ s.hist.length → IsChecked t init b since versions l s'
          | .error _ => True)
        (runRead t b opnum) l s := by
  have hge := t.words_ge
  have hcrc := crcIdx_lt t
  have hpos : 0 < t.crcIdx := by
    unfold Tuple.crcIdx
    split <;> omega
  have hrests {s s'} (hr : (tupleProtocol t modification init).Rely w s s')
      (h : t.block.Rests w mine s) : t.block.Rests w mine s' :=
    (Block.rests_steady w mine).rely hr h
  rw [runRead_crc hc]
  apply Block.wp_read_lines (show _ = t.block.addr + 8 * 0 from rfl)
    (show t.bytes = 8 * (t.words - 0) from t.bytes_eq) hinv h
  intro l₁ s₁' hinv₁' hrests₁ _ hread _
  rw [wp_poll, wp_load, wp_load]
  apply wp_check
  . intro s' hr _
    exact ⟨hrests hr hrests₁, trivial⟩
  intro _
  apply wp.exec_bind (crc_check_local t b)
  . intro a hok
    have hpassed := crc_check_ok hok
    have hframe₂ : ∀ i, ((CRC.checkConsistencyProof t.flags (.tupleBuffer b, t.crcIdx)
        (t.bytes - 16)).exec l₁).2 (.tupleBuffer b) i = l₁ (.tupleBuffer b) i := by
      intro i
      exact (crc_check_local t b).exec_frame l₁ id
    apply Block.wp_read_lines (show _ = t.block.addr + 8 * 0 from rfl)
      (show 8 = 8 * (1 - 0) from rfl) hinv₁' hrests₁
    intro l₃ s₃' _ hrests₃ hpast₃ _ hframe₃
    rw [wp_poll, wp_load]
    apply wp_check
    . intro s' hr _
      exact ⟨hrests hr hrests₃, trivial⟩
    intro _
    rw [wp_load]
    apply wp_check
    . intro s' hr _
      exact ⟨hrests hr hrests₃, trivial⟩
    intro _
    rw [wp_load, wp_ret]
    intro s' hr hinv'
    refine ⟨hrests hr hrests₃, ?_⟩
    intro since hsince
    -- Only the version has been read again since the check.
    have hkeep : ∀ i, 0 < i → l₃ (.tupleBuffer b) i = l₁ (.tupleBuffer b) i := by
      intro i hi
      rw [hframe₃ _ _ (by omega), hframe₂]
    obtain ⟨s₁, hinv₁, hpast₀, hpast₁, hwords⟩ := hread t.crcIdx (Nat.zero_le _) hcrc
    have hpast : s₁.Past s' := (hpast₁.trans hpast₃).trans hr.past
    obtain ⟨k, hreleased, hk, hsnap⟩ := hinv₁.line_snap_past hpast (t.block.line t.crcIdx)
    have hlength := (hpast₀.trans hpast).hist.length_le
    refine ⟨k, hk, Nat.le_trans hsince hlength, ?_, ?_, ?_, snap_checksum hc hinit hinv' hk⟩
    . have hsuffix := drop_since (hpast₀.trans hpast).hist hsince
      exact Nat.le_trans (t.block.released_suffix (hsuffix.trans hpast₀.hist)) hreleased
    . rw [hkeep _ hpos, hwords _ (Nat.zero_le _) hcrc rfl]
      exact hsnap _ hcrc (crcIdx_ne hc).1 rfl
    . rw [hkeep _ hpos, hpassed]
      apply checksum_congr
      intro i hlo _
      exact (hkeep i (by omega)).symm
  . intro e s' hr _ _
    exact ⟨hrests hr hrests₁, trivial⟩

/--
Commit `k` explains what a read that began at `since` has returned: it is not outdated, its checksum
is the one in the copy and the one of the copy, and the state that it stores has this checksum, too.
-/
def Explains (t : Tuple) (copy : Nat → Word) (since k : Nat) (init : Nat → Word)
    (s : Shared W Buffer (Iteration U)) : Prop :=
  let state := snap init (t.block.commits s.hist) k
  k ≤ (t.block.commits s.hist).length ∧
  t.block.released (s.hist.drop (s.hist.length - since)) ≤ k ∧
  copy t.crcIdx = state t.crcIdx ∧
  checksum t copy = state t.crcIdx ∧
  checksum t state = checksum t copy

instance (t : Tuple) (copy : Nat → Word) (since k : Nat) (init : Nat → Word)
    (s : Shared W Buffer (Iteration U)) : Decidable (Explains t copy since k init s) :=
  inferInstanceAs (Decidable (_ ∧ _ ∧ _ ∧ _ ∧ _))

/--
A read that validates with a checksum returns a committed state or words with the same checksum, if
the initial state stores its own checksum.
-/
theorem crc_read_is_committed_or_collision (hc : t.consistency = .crc)
    (horder : nic.inOrderWrites = true)
    {s₀ s : Sys W Ctx Buffer OLRestartException (Option (Word × Word)) (Iteration U)}
    (hfresh : s₀.Fresh) (hlock : s₀.shared.mem (t.block.base + t.lockIdx) = wUnlocked)
    (hinit : s₀.shared.mem (t.block.base + t.crcIdx)
      = checksum t (fun i => s₀.shared.mem (t.block.base + i)))
    (hreach : Sys.Reach (benchmark t modification nic) Sys.anyStep s₀ s)
    {w : W} {b : Bool} {opnum since : Nat} {versions : Word × Word}
    (hcontrol : (s.worker w).control = .running (.read b opnum) since (.ret (some versions)))
    : ∃ k, Explains t ((s.worker w).buf (.tupleBuffer b)) since k
        (fun i => s₀.shared.mem (t.block.base + i)) s.shared := by
  have hreading : Reading W t modification nic (fun i => s₀.shared.mem (t.block.base + i))
      (IsChecked t fun i => s₀.shared.mem (t.block.base + i)) :=
    { synced := synced_runRead_crc hc
      stable := isChecked_stable
      wp_runRead := wp_runRead_crc hc hinit }
  obtain ⟨k, hk, _, hreleased, hcrc, hchecked, hsnap⟩ :=
    (hreading.sound horder hfresh rfl hlock hreach hcontrol).2
  refine ⟨k, hk, hreleased, hcrc, ?_, ?_⟩
  . rw [← hchecked, hcrc]
  . rw [← hchecked, ← hsnap, hcrc]

theorem checksum_zeros (ht : t.flags.crc64 = Crc64.crc64) : checksum t (fun _ => 0) = 0 := by
  rw [checksum, ht, List.map_const', List.length_range]
  exact Crc64.crc64_zeros _

def crcTuple : Tuple where
  flags := { batchSize := 1, memcpy := false, crc64 := Crc64.crc64 }
  consistency := .crc
  lockType := .footerLock
  rctx2Mr := false
  remoteAddress := lockAddr 0 1 64 8
  bytes := 64
  remoteAddress_aligned := rfl
  bytes_pos := by decide
  bytes_aligned := rfl

def crcRun : List (Action Bool Ctx (Iteration (RandomIndex crcTuple))) :=
  let index := { cl := 0, idx := 5, cl_lt := by decide, idx_ge := by decide, idx_lt := by decide }
  List.flatten [
    [.start false (.update false index)], cpus false 2, serves false .rctx [0],
    serves false .rctx [2, 3], [.cpu false 1], cpus false 13, serves false .rctx [2, 3],
    [.start true (.read false 0)], cpus true 1, serves true .rctx [3, 2], [.cpu true 1],
    cpus true 9, serves true .rctx [2], [.cpu true 1], cpus true 3]

theorem crc_read_of_crcRun
    : ∃ (s : Sys Bool Ctx Buffer OLRestartException (Option (Word × Word))
          (Iteration (RandomIndex crcTuple)))
        (b : Bool) (since k : Nat),
        Explains crcTuple ((s.worker true).buf (.tupleBuffer b)) since k (fun _ => 0) s.shared := by
  have hrun : ((Sys.initial (fun _ => 0) (fun _ _ => 0)).run
      (benchmark crcTuple (addFive _) { atomicReadBytes := 0, inOrderWrites := true })
      crcRun).any (returnsRead crcTuple true) = true := by
    decide +kernel
  obtain ⟨s, b, _, since, _, hreach, _, hcontrol⟩ := exists_read_of_run hrun
  have hinit : (0 : Word) = checksum crcTuple (fun _ => 0) :=
    (checksum_zeros rfl).symm
  obtain ⟨k, hk⟩ := crc_read_is_committed_or_collision (t := crcTuple) rfl rfl
    (Sys.initial_fresh (fun _ => 0) (fun _ _ => 0)) rfl hinit hreach hcontrol
  exact ⟨s, b, since, k, hk⟩

/-- A checksum function for which only the words of one torn read have the checksum zero. -/
def oddTuple : Tuple :=
  { sampleTuple .crc .headerLock 6 with
    flags := {
      batchSize := 1
      memcpy := false
      crc64 := fun words => if words = [0, 0, 0, 0, 0, 0, 0, 0, 1, 1, 1, 0, 0] then 0 else 1 } }

/-- The reader fetches the line with the checksum before a writer commits, and the others after. -/
def oddRun : List (Action Bool Ctx (Iteration Unit)) :=
  List.flatten [
    [.start true (.read false 0)], cpus true 1, touches true .rctx [14],
    [.start false (.update false ())], cpus false 2, serves false .rctx [0],
    serves false .rctx [13, 14, 15], [.cpu false 1], cpus false 31,
    serves false .rctx [13, 14, 15], serves false .rctx [0],
    serves true .rctx [13, 15], [.cpu true 1], cpus true 17, serves true .rctx [13], [.cpu true 1],
    cpus true 3]

def isUnexplained (t : Tuple) (w : W) (init : Nat → Word)
    (s : Sys W Ctx Buffer OLRestartException (Option (Word × Word)) (Iteration U)) : Bool :=
  match (s.worker w).control with
  | .running (.read b _) since (.ret (some _)) =>
    (List.range ((t.block.commits s.shared.hist).length + 1)).all fun k =>
      !decide (Explains t ((s.worker w).buf (.tupleBuffer b)) since k init s.shared)
  | _ => false

theorem crc_read_unexplained
    : ∃ (s : Sys Bool Ctx Buffer OLRestartException (Option (Word × Word)) (Iteration Unit))
        (b : Bool) (opnum since : Nat) (versions : Word × Word),
        Sys.Reach (benchmark oddTuple (incrementAll _) { atomicReadBytes := 0, inOrderWrites := true })
          Sys.anyStep (Sys.initial (fun _ => 0) (fun _ _ => 0)) s ∧
        (s.worker true).control = .running (.read b opnum) since (.ret (some versions)) ∧
        ¬∃ k, Explains oddTuple ((s.worker true).buf (.tupleBuffer b)) since k (fun _ => 0)
          s.shared := by
  have hrun : ((Sys.initial (fun _ => 0) (fun _ _ => 0)).run
      (benchmark oddTuple (incrementAll _) { atomicReadBytes := 0, inOrderWrites := true })
      oddRun).any (isUnexplained oddTuple true fun _ => 0) = true := by
    decide +kernel
  obtain ⟨s, hreach, hunexplained⟩ := Sys.exists_reach_of_run hrun
  unfold isUnexplained at hunexplained
  split at hunexplained
  . next b opnum since versions hcontrol =>
    refine ⟨s, b, opnum, since, versions, hreach, hcontrol, ?_⟩
    rintro ⟨k, hk⟩
    have hlt : k < (oddTuple.block.commits s.shared.hist).length + 1 := by
      have := hk.1
      omega
    have hnot := List.all_eq_true.mp hunexplained k (List.mem_range.mpr hlt)
    rw [Bool.not_eq_true', decide_eq_false_iff_not] at hnot
    exact hnot hk
  . simp at hunexplained

end Read

end OptimisticLocks
