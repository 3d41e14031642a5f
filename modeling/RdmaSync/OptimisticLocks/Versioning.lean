import RdmaSync.OptimisticLocks.Reader

/-!
This module contains the readers that validate with a version: the version is read before and after
the data.
-/

namespace OptimisticLocks

open Rdma CommunicationManager
open Rdma.Action (cpus touches serves)

variable {W U : Type} [DecidableEq W] {t : Tuple} {modification : Modification t U} {nic : Nic}
  {init : Nat → Word}

theorem runRead_v2_header (hc : t.consistency = .v2) (hl : t.lockType = .headerLock) (b : Bool)
    (opnum : Nat)
    : runRead t b opnum =
        .post .rctx true (.read (.tupleBuffer b, 0) t.remoteAddress 16) (.poll .rctx 1
          (.post .rctx true (.read (.tupleBuffer b, 2) (t.remoteAddress + 16) (t.bytes - 16))
            (.poll .rctx 1 (.load (.tupleBuffer b, 0) fun prevVersion =>
              .load (.tupleBuffer b, 1) fun x =>
                if x ≠ 0 then
                  .throw .restart
                else
                  .post .rctx true (.read (.tupleBuffer b, 0) t.remoteAddress 8) (.poll .rctx 1
                    (.load (.tupleBuffer b, 0) fun version =>
                      if prevVersion ≠ version then
                        .throw .restart
                      else
                        .load (.tupleBuffer b, 1) fun x =>
                          if x ≠ 0 then
                            .throw .restart
                          else
                            .load (.tupleBuffer b, 0) fun version =>
                              .ret (prevVersion, version))))))) := by
  simp only [runRead, OptimisticLock.lock, OptimisticLock.unlock, OptimisticLock.checkLock,
    OptimisticLock.validate, postReadFenced, postRead, pollCompletions, load, Tuple.optimistic, hc,
    hl, signaled, wUnlocked, Prog.pure_eq, Prog.bind_ret, Prog.bind_post, Prog.bind_poll,
    Prog.bind_load, Prog.bind_ite, Prog.bind_throw]

/-- The whole copy is the tuple at one instant between `since` and now, which is not locked. -/
def IsSnapshot (t : Tuple) (b : Bool) (since : Nat) (_ : Word × Word)
    : Assertion W Buffer (Iteration U) :=
  fun l s => (t.block.commits s.hist).length < 2 ^ 64 →
    l (.tupleBuffer b) t.lockIdx = wUnlocked ∧
    ∃ s₁ : Shared W Buffer (Iteration U), s₁.Past s ∧ since ≤ s₁.hist.length ∧
      ∀ i, i < t.words → l (.tupleBuffer b) i = s₁.mem (t.block.base + i)

theorem isSnapshot_stable (w : W) (b : Bool) (since : Nat) (versions : Word × Word)
    (l : Local Buffer)
    : (tupleProtocol t modification init : Protocol W _ _).Stable w
        (IsSnapshot t b since versions l) := by
  intro s e _ _ _ _ h hlen
  have hle := t.block.commits_length (List.suffix_cons (s.mem, e) s.hist)
  rw [Shared.push_hist] at hlen
  obtain ⟨hlock, s₁, hpast, hsince, hwords⟩ := h (by omega)
  exact ⟨hlock, s₁, hpast.push e, hsince, hwords⟩

theorem commits_eq_of_version {s₁ s₃ : Shared W Buffer (Iteration U)}
    (hinv₁ : TupleInv t modification init s₁) (hinv₃ : TupleInv t modification init s₃)
    (h₁₃ : s₁.Past s₃) (hlen : (t.block.commits s₃.hist).length < 2 ^ 64)
    (hversion : t.block.latest init s₁.hist t.versionIdx = t.block.latest init s₃.hist t.versionIdx)
    : (t.block.commits s₃.hist).length = (t.block.commits s₁.hist).length := by
  have hle := t.block.commits_length h₁₃.hist
  unfold Block.latest at hversion
  rw [snap_version hinv₁ (Nat.le_refl _), snap_version hinv₃ (Nat.le_refl _)] at hversion
  exact (version_inj (by omega) hlen hversion).symm

/-- Nothing changes between a free state and a later one with the same version. -/
theorem mem_between {s₁ s₂ s₃ : Shared W Buffer (Iteration U)}
    (hinv₁ : TupleInv t modification init s₁) (hinv₂ : TupleInv t modification init s₂)
    (hinv₃ : TupleInv t modification init s₃) (h₁₂ : s₁.Past s₂) (h₂₃ : s₂.Past s₃)
    (hfree : s₁.mem (t.block.base + t.lockIdx) = wUnlocked)
    (hlen : (t.block.commits s₃.hist).length < 2 ^ 64)
    (hversion : s₁.mem (t.block.base + t.versionIdx)
      = t.block.latest init s₃.hist t.versionIdx) {i : Nat} (hi : i < t.words)
    (hne : i ≠ t.lockIdx)
    : s₂.mem (t.block.base + i) = s₁.mem (t.block.base + i) := by
  have hreleased := hinv₁.released_of_free hfree
  rw [hinv₁.mem_of_released hreleased t.versionIdx_lt t.versionIdx_ne_lockIdx] at hversion
  have hcommits := commits_eq_of_version hinv₁ hinv₃ (h₁₂.trans h₂₃) hlen hversion
  exact hinv₁.mem_frozen hinv₂ h₁₂ h₂₃ hreleased hcommits hi hne

theorem wp_runRead_v2_header (hc : t.consistency = .v2) (hl : t.lockType = .headerLock)
    (hatomic : 16 ≤ nic.atomicReadBytes) {w : W} {op : Iteration U} {b : Bool} {opnum : Nat}
    {l : Local Buffer} {mine : List (Commit W (Iteration U))} {s : Shared W Buffer (Iteration U)}
    (hinv : TupleInv t modification init s) (h : t.block.Rests w mine s)
    : wp (tupleProtocol t modification init) nic w op
        (fun o l s' => t.block.Rests w mine s' ∧
          match o with
          | .ok versions => ∀ since, since ≤ s.hist.length → IsSnapshot t b since versions l s'
          | .error _ => True)
        (runRead t b opnum) l s := by
  have hge := t.words_ge
  have hbytes := t.bytes_eq
  have hlockIdx : t.lockIdx = 1 := by
    unfold Tuple.lockIdx
    rw [hl]
  have hversionIdx : t.versionIdx = 0 := by
    unfold Tuple.versionIdx
    rw [hc, hl]
  have hrests {s s'} (hr : (tupleProtocol t modification init).Rely w s s')
      (h : t.block.Rests w mine s) : t.block.Rests w mine s' :=
    (Block.rests_steady w mine).rely hr h
  rw [runRead_v2_header hc hl]
  -- the version and the lock word
  apply Block.wp_read_atomic hatomic (show _ = t.block.addr + 8 * 0 from rfl)
    (show 16 = 8 * (2 - 0) from rfl) hinv h
  intro l₁ s₁' hinv₁' hrests₁ hpast₁ hread₁ hframe₁
  rw [wp_poll]
  -- the data
  apply Block.wp_read_lines (show _ = t.block.addr + 8 * 2 from rfl)
    (show t.bytes - 16 = 8 * (t.words - 2) by omega) hinv₁' hrests₁
  intro l₂ s₂' hinv₂' hrests₂ hpast₂ hread₂ hframe₂
  rw [wp_poll, wp_load, wp_load]
  apply wp_check
  . intro s' hr _
    exact ⟨hrests hr hrests₂, trivial⟩
  intro hfree
  -- the version again
  apply Block.wp_read_lines (show _ = t.block.addr + 8 * 0 from rfl)
    (show 8 = 8 * (1 - 0) from rfl) hinv₂' hrests₂
  intro l₃ s₃' hinv₃' hrests₃ hpast₃ hread₃ hframe₃
  rw [wp_poll, wp_load]
  apply wp_check
  . intro s' hr _
    exact ⟨hrests hr hrests₃, trivial⟩
  intro hversion
  rw [wp_load]
  apply wp_check
  . intro s' hr _
    exact ⟨hrests hr hrests₃, trivial⟩
  intro _
  rw [wp_load, wp_ret]
  intro s' hr hinv'
  refine ⟨hrests hr hrests₃, ?_⟩
  intro since hsince hlen
  obtain ⟨s₁, hinv₁, hpast₀₁, hpast₁, hwords₁⟩ := hread₁
  obtain ⟨s₃, hinv₃, hpast₂₃, hpast₃, hwords₃⟩ := hread₃ 0 (Nat.le_refl 0) Nat.zero_lt_one
  have hpast₃' : s₃.Past s' := hpast₃.trans hr.past
  have hlen₃ : (t.block.commits s₃.hist).length < 2 ^ 64 := by
    have := t.block.commits_length hpast₃'.hist
    omega
  -- The copies of the version and the lock word are still those of the first READ.
  have hkeep₁ : ∀ i, i < 2 → l₂ (.tupleBuffer b) i = s₁.mem (t.block.base + i) := by
    intro i hi
    rw [hframe₂ _ _ (by omega)]
    exact hwords₁ i (Nat.zero_le i) hi
  have hkeep₂ : ∀ i, 1 ≤ i → l₃ (.tupleBuffer b) i = l₂ (.tupleBuffer b) i := by
    intro i hi
    exact hframe₃ _ _ (by omega)
  have hlock : s₁.mem (t.block.base + t.lockIdx) = wUnlocked := by
    rw [hlockIdx, ← hkeep₁ 1 (by omega)]
    exact Decidable.not_not.mp hfree
  have hsame : l₂ (.tupleBuffer b) 0 = l₃ (.tupleBuffer b) 0 := Decidable.not_not.mp hversion
  have hfirst : s₁.mem (t.block.base + t.versionIdx)
      = t.block.latest init s₃.hist t.versionIdx := by
    rw [hversionIdx, ← hkeep₁ 0 (by omega), hsame, hwords₃ 0 (Nat.le_refl 0) Nat.zero_lt_one rfl]
    exact hinv₃.mem_firstLine (show 0 < t.words by omega) (by simp [Tuple.block, hlockIdx]) rfl
  refine ⟨?_, s₁, ?_, ?_, ?_⟩
  . rw [hlockIdx, hkeep₂ 1 (Nat.le_refl 1), hkeep₁ 1 (by omega), ← hlockIdx, hlock]
  . exact (hpast₁.trans hpast₂).trans ((hpast₂₃.trans hpast₃'))
  . have := hpast₀₁.hist.length_le
    omega
  . intro i hi
    by_cases hi0 : i = 0
    . rw [hi0, ← hsame, hkeep₁ 0 (by omega)]
    rw [hkeep₂ i (by omega)]
    by_cases hi1 : i < 2
    . exact hkeep₁ i hi1
    . obtain ⟨s₂, hinv₂, hpast₁₂, hpast₂', hwords₂⟩ := hread₂ i (by omega) hi
      rw [hwords₂ i (by omega) hi rfl]
      exact mem_between hinv₁ hinv₂ hinv₃ (hpast₁.trans hpast₁₂) (hpast₂'.trans hpast₂₃) hlock hlen₃
        hfirst hi (by omega)

theorem synced_runRead_v2_header (hc : t.consistency = .v2) (hl : t.lockType = .headerLock)
    {b : Bool} {opnum : Nat} {q : List (Verb Buffer × Bool)}
    {ends : Except OLRestartException (Word × Word) → List (Verb Buffer × Bool) → Prop}
    (hq : Leftover q) (hends : ∀ o, ends o []) : Synced .rctx ends (runRead t b opnum) q := by
  rw [runRead_v2_header hc hl]
  apply Synced.read_poll hq.unsignaled
  apply Synced.read_poll (by simp)
  refine ⟨quiet_nil _, fun prevVersion => ⟨quiet_nil _, fun x => ?_⟩⟩
  apply Synced.check (hends _)
  apply Synced.read_poll (by simp)
  refine ⟨quiet_nil _, fun version => ?_⟩
  apply Synced.check (hends _)
  refine ⟨quiet_nil _, fun x => ?_⟩
  apply Synced.check (hends _)
  exact ⟨quiet_nil _, fun version => hends _⟩

/--
A read with version validation and a header lock returns the tuple as it was at one instant, if
READs of 16 bytes are atomic.
-/
theorem v2_headerLock_read_is_snapshot (hc : t.consistency = .v2) (hl : t.lockType = .headerLock)
    (hatomic : nic.atomicReadBytes = 16) (horder : nic.inOrderWrites = true)
    {s₀ s : Sys W Ctx Buffer OLRestartException (Option (Word × Word)) (Iteration U)}
    (hfresh : s₀.Fresh) (hlock : s₀.shared.mem (t.block.base + t.lockIdx) = wUnlocked)
    (hreach : Sys.Reach (benchmark t modification nic) Sys.anyStep s₀ s)
    (hcommits : (t.block.commits s.shared.hist).length < 2 ^ 64)
    {w : W} {b : Bool} {opnum since : Nat} {versions : Word × Word}
    (hcontrol : (s.worker w).control = .running (.read b opnum) since (.ret (some versions)))
    : (s.worker w).buf (.tupleBuffer b) t.lockIdx = wUnlocked ∧
      ∃ m ∈ s.shared.instants since, ∀ i, i < t.words →
        (s.worker w).buf (.tupleBuffer b) i = m (t.block.base + i) := by
  have hreading : Reading W t modification nic (fun i => s₀.shared.mem (t.block.base + i))
      (IsSnapshot t) :=
    { synced := synced_runRead_v2_header hc hl
      stable := isSnapshot_stable
      wp_runRead := wp_runRead_v2_header hc hl (Nat.le_of_eq hatomic.symm) }
  obtain ⟨_, hsnapshot⟩ := hreading.sound horder hfresh rfl hlock hreach hcontrol
  obtain ⟨hfree, s₁, hpast, hsince, hwords⟩ := hsnapshot hcommits
  exact ⟨hfree, s₁.mem, hpast.mem_instants hsince, hwords⟩

def headerRun : List (Action Bool Ctx (Iteration Unit)) :=
  List.flatten [
    [.start false (.update false ())], cpus false 2, serves false .rctx [0],
    serves false .rctx [3, 4, 5], [.cpu false 1], cpus false 17,
    serves false .rctx [3, 4, 5], serves false .rctx [0],
    [.start true (.read false 0)], cpus true 1, serves true .rctx [0], [.cpu true 1],
    cpus true 1, serves true .rctx [5, 4, 3], [.cpu true 1],
    cpus true 3, serves true .rctx [0], [.cpu true 1], cpus true 3]

theorem v2_headerLock_read_of_headerRun
    : ∃ (s : Sys Bool Ctx Buffer OLRestartException (Option (Word × Word)) (Iteration Unit))
        (b : Bool) (since : Nat),
        (s.worker true).buf (.tupleBuffer b) 1 = wUnlocked ∧
        ∃ m ∈ s.shared.instants since, ∀ i, i < 16 →
          (s.worker true).buf (.tupleBuffer b) i = m (25 + i) := by
  have hrun : ((Sys.initial (fun _ => 0) (fun _ _ => 0)).run
      (benchmark (sampleTuple .v2 .headerLock 1) (incrementAll _)
        { atomicReadBytes := 16, inOrderWrites := true })
      headerRun).any (returnsRead (sampleTuple .v2 .headerLock 1) true) = true := by
    decide +kernel
  obtain ⟨s, b, _, since, _, hreach, hcommits, hcontrol⟩ := exists_read_of_run hrun
  exact ⟨s, b, since, v2_headerLock_read_is_snapshot rfl rfl rfl rfl (Sys.initial_fresh _ _) rfl
    hreach hcommits hcontrol⟩

section Footer

theorem runRead_v2_footer (hc : t.consistency = .v2) (hl : t.lockType = .footerLock) (b : Bool)
    (opnum : Nat)
    : runRead t b opnum =
        .store (.tupleBuffer b, (t.bytes - 16) / 8) 0
          (.store (.tupleBuffer b, (t.bytes - 16) / 8 + 1) 0
            (.post .rctx true
              (.read (.tupleBuffer b, (t.bytes - 16) / 8) (t.remoteAddress + (t.bytes - 16)) 16)
              (.poll .rctx 1 (.load (.tupleBuffer b, (t.bytes - 16) / 8) fun _ =>
                .post .rctx true (.read (.tupleBuffer b, 0) t.remoteAddress (t.bytes - 16))
                  (.poll .rctx 1 (.load (.tupleBuffer b, (t.bytes - 16) / 8) fun prevVersion =>
                    .load (.tupleBuffer b, t.bytes / 8 - 1) fun x =>
                      if x ≠ 0 then
                        .throw .restart
                      else
                        .post .rctx true
                          (.read (.tupleBuffer b, (t.bytes - 16) / 8)
                            (t.remoteAddress + (t.bytes - 16)) 16)
                          (.poll .rctx 1 (.load (.tupleBuffer b, (t.bytes - 16) / 8) fun version =>
                            if prevVersion ≠ version then
                              .throw .restart
                            else
                              .load (.tupleBuffer b, t.bytes / 8 - 1) fun x =>
                                if x ≠ 0 then
                                  .throw .restart
                                else
                                  .load (.tupleBuffer b, (t.bytes - 16) / 8) fun version =>
                                    .ret (prevVersion, version))))))))) := by
  simp only [runRead, OptimisticLock.lock, OptimisticLock.unlock, OptimisticLock.checkLock,
    OptimisticLock.validate, postReadFenced, postRead, pollCompletions, load, store,
    Tuple.optimistic, hc, hl, signaled, wUnlocked, Prog.pure_eq, Prog.bind_ret, Prog.bind_post,
    Prog.bind_poll, Prog.bind_load, Prog.bind_store, Prog.bind_ite, Prog.bind_throw]

/-- The footer, that is version and lock word, or all words of the user are in one cache line. -/
def FooterFits (t : Tuple) : Prop :=
  t.bytes = 64 ∨ t.remoteAddress % 64 ≠ 8

theorem line_eq (t : Tuple) (i : Nat) : t.block.line i = (t.remoteAddress / 8 + i) / 8 := by
  rfl

theorem FooterFits.cases (h : FooterFits t)
    : t.words = 8 ∧ (∀ i, i < t.words - 2 → t.block.line i = t.block.line 0) ∨
      t.block.line (t.words - 1) = t.block.line (t.words - 2) := by
  have haligned := t.remoteAddress_aligned
  have hbytes := t.bytes_eq
  have hmod := t.words_mod
  have hge := t.words_ge
  simp only [line_eq]
  by_cases h8 : t.remoteAddress % 64 = 8
  . left
    have hwords : t.words = 8 := by
      rcases h with h | h <;> omega
    refine ⟨hwords, ?_⟩
    intro i hi
    omega
  . right
    omega

theorem wp_runRead_v2_footer (hc : t.consistency = .v2) (hl : t.lockType = .footerLock)
    (hfits : FooterFits t) {w : W} {op : Iteration U} {b : Bool} {opnum : Nat}
    {l : Local Buffer} {mine : List (Commit W (Iteration U))} {s : Shared W Buffer (Iteration U)}
    (hinv : TupleInv t modification init s) (h : t.block.Rests w mine s)
    : wp (tupleProtocol t modification init) nic w op
        (fun o l s' => t.block.Rests w mine s' ∧
          match o with
          | .ok versions => ∀ since, since ≤ s.hist.length → IsCommitted t init b since versions l s'
          | .error _ => True)
        (runRead t b opnum) l s := by
  have hge := t.words_ge
  have hbytes := t.bytes_eq
  have hlockIdx : t.lockIdx = t.words - 1 := by
    unfold Tuple.lockIdx
    rw [hl]
  have hversionIdx : t.versionIdx = t.words - 2 := by
    unfold Tuple.versionIdx
    rw [hc, hl]
  have hidx : (t.bytes - 16) / 8 = t.words - 2 := by omega
  have hidx' : t.bytes / 8 - 1 = t.words - 1 := by omega
  have hrests {s s'} (hr : (tupleProtocol t modification init).Rely w s s')
      (h : t.block.Rests w mine s) : t.block.Rests w mine s' :=
    (Block.rests_steady w mine).rely hr h
  have hfooter : t.remoteAddress + (t.bytes - 16) = t.block.addr + 8 * (t.words - 2) := by
    show t.remoteAddress + _ = t.remoteAddress + _
    omega
  rw [runRead_v2_footer hc hl, hidx, hidx', wp_store, wp_store]
  -- the footer
  apply Block.wp_read_lines hfooter (show 16 = 8 * (t.words - (t.words - 2)) by omega) hinv h
  intro l₁ s₁' hinv₁' hrests₁ hpast₁ hread₁ hframe₁
  rw [wp_poll, wp_load]
  -- the data
  apply Block.wp_read_lines (show _ = t.block.addr + 8 * 0 from rfl)
    (show t.bytes - 16 = 8 * (t.words - 2 - 0) by omega) hinv₁' hrests₁
  intro l₂ s₂' hinv₂' hrests₂ hpast₂ hread₂ hframe₂
  rw [wp_poll, wp_load, wp_load]
  apply wp_check
  . intro s' hr _
    exact ⟨hrests hr hrests₂, trivial⟩
  intro hfree₁
  -- the footer again
  apply Block.wp_read_lines hfooter (show 16 = 8 * (t.words - (t.words - 2)) by omega) hinv₂' hrests₂
  intro l₃ s₃' hinv₃' hrests₃ hpast₃ hread₃ hframe₃
  rw [wp_poll, wp_load]
  apply wp_check
  . intro s' hr _
    exact ⟨hrests hr hrests₃, trivial⟩
  intro hversion
  rw [wp_load]
  apply wp_check
  . intro s' hr _
    exact ⟨hrests hr hrests₃, trivial⟩
  intro hfree₃
  rw [wp_load, wp_ret]
  intro s' hr hinv'
  refine ⟨hrests hr hrests₃, ?_⟩
  intro since _ hlen
  have hdata : ∀ i, t.isData i → i < t.words - 2 := by
    rintro i ⟨hi, hne, hne', _⟩
    omega
  have hkeep : ∀ i, i < t.words - 2 → l₃ (.tupleBuffer b) i = l₂ (.tupleBuffer b) i := by
    intro i hi
    exact hframe₃ _ _ (by omega)
  have hpast₂' : s₂'.Past s' := hpast₃.trans hr.past
  rcases hfits.cases with ⟨_, hline⟩ | hline
  . -- All words of the user are fetched in one step.
    obtain ⟨s₂, hinv₂, _, hpast, hwords⟩ := hread₂ 0 (Nat.le_refl 0) (by omega)
    obtain ⟨k, _, hk, hsnap⟩ :=
      hinv₂.line_snap_past (hpast.trans hpast₂') (t.block.line 0)
    refine ⟨k, hk, ?_⟩
    intro i hi
    have hlt := hdata i hi
    rw [hkeep i hlt, hwords i (Nat.zero_le i) hlt (hline i hlt)]
    exact hsnap i hi.1 hi.2.1 (hline i hlt)
  . obtain ⟨s₁, hinv₁, _, hpast₁, hwords₁⟩ := hread₁ (t.words - 2) (Nat.le_refl _) (by omega)
    obtain ⟨s₃, hinv₃, hpast₂₃, hpast₃', hwords₃⟩ :=
      hread₃ (t.words - 2) (Nat.le_refl _) (by omega)
    have hlen₃ : (t.block.commits s₃.hist).length < 2 ^ 64 := by
      have := t.block.commits_length (hpast₃'.trans hr.past).hist
      omega
    -- Both copies of the footer are those of a state in which the tuple was free.
    have hkeep₂ : ∀ i, t.words - 2 ≤ i → l₂ (.tupleBuffer b) i = l₁ (.tupleBuffer b) i := by
      intro i hi
      exact hframe₂ _ _ (by omega)
    have hlock₁ : s₁.mem (t.block.base + t.lockIdx) = wUnlocked := by
      rw [hlockIdx, ← hwords₁ _ (by omega) (by omega) hline, ← hkeep₂ _ (by omega)]
      exact Decidable.not_not.mp hfree₁
    have hlock₃ : s₃.mem (t.block.base + t.lockIdx) = wUnlocked := by
      rw [hlockIdx, ← hwords₃ _ (by omega) (by omega) hline]
      exact Decidable.not_not.mp hfree₃
    have hsame : s₁.mem (t.block.base + t.versionIdx)
        = t.block.latest init s₃.hist t.versionIdx := by
      have := Decidable.not_not.mp hversion
      simp only at this
      rw [← hinv₃.mem_of_released (hinv₃.released_of_free hlock₃) t.versionIdx_lt
        t.versionIdx_ne_lockIdx]
      show _ = s₃.mem (t.block.base + t.versionIdx)
      rw [hversionIdx, ← hwords₁ _ (Nat.le_refl _) (by omega) rfl,
        ← hwords₃ _ (Nat.le_refl _) (by omega) rfl, ← this, hkeep₂ _ (Nat.le_refl _)]
    have hpast₁₃ : s₁.Past s' := (hpast₁.trans hpast₂).trans hpast₂'
    refine ⟨(t.block.commits s₁.hist).length, t.block.commits_length hpast₁₃.hist, ?_⟩
    intro i hi
    have hlt := hdata i hi
    obtain ⟨s₂, hinv₂, hpast₁₂, hpast₂₂, hwords₂⟩ := hread₂ i (Nat.zero_le i) hlt
    rw [hkeep i hlt, hwords₂ i (Nat.zero_le i) hlt rfl,
      mem_between hinv₁ hinv₂ hinv₃ (hpast₁.trans hpast₁₂) (hpast₂₂.trans hpast₂₃) hlock₁ hlen₃
        hsame hi.1 hi.2.1,
      hinv₁.mem_of_released (hinv₁.released_of_free hlock₁) hi.1 hi.2.1,
      t.block.snap_commits init hpast₁₃.hist (Nat.le_refl _)]
    rfl

theorem synced_runRead_v2_footer (hc : t.consistency = .v2) (hl : t.lockType = .footerLock)
    {b : Bool} {opnum : Nat} {q : List (Verb Buffer × Bool)}
    {ends : Except OLRestartException (Word × Word) → List (Verb Buffer × Bool) → Prop}
    (hq : Leftover q) (hends : ∀ o, ends o []) : Synced .rctx ends (runRead t b opnum) q := by
  rw [runRead_v2_footer hc hl]
  refine ⟨hq.quiet b _, hq.quiet b _, ?_⟩
  apply Synced.read_poll hq.unsignaled
  refine ⟨quiet_nil _, fun _ => ?_⟩
  apply Synced.read_poll (by simp)
  refine ⟨quiet_nil _, fun prevVersion => ⟨quiet_nil _, fun x => ?_⟩⟩
  apply Synced.check (hends _)
  apply Synced.read_poll (by simp)
  refine ⟨quiet_nil _, fun version => ?_⟩
  apply Synced.check (hends _)
  refine ⟨quiet_nil _, fun x => ?_⟩
  apply Synced.check (hends _)
  exact ⟨quiet_nil _, fun version => hends _⟩

/--
A read with version validation and a footer lock is not torn if the tuple has one line only or its
footer does not straddle two cache lines.
-/
theorem v2_footerLock_read_not_torn (hc : t.consistency = .v2) (hl : t.lockType = .footerLock)
    (horder : nic.inOrderWrites = true) {start lockId padding : Nat} (hstart : start % 64 = 0)
    (haddr : t.remoteAddress = lockAddr start lockId t.bytes padding)
    (hfits : t.bytes = 64 ∨ lockId * padding % 64 ≠ 8)
    : NeverTorn W t modification nic (fun words => words t.lockIdx = wUnlocked) := by
  intro s₀ s w b opnum since versions hfresh hlock hreach hcommits hcontrol
  have hfits' : FooterFits t := by
    rw [FooterFits, haddr, lockAddr_mod hstart t.bytes_aligned]
    exact hfits
  have hreading : Reading W t modification nic (fun i => s₀.shared.mem (t.block.base + i))
      (IsCommitted t fun i => s₀.shared.mem (t.block.base + i)) :=
    { synced := synced_runRead_v2_footer hc hl
      stable := isCommitted_stable
      wp_runRead := wp_runRead_v2_footer hc hl hfits' }
  exact (hreading.sound horder hfresh rfl hlock hreach hcontrol).2 hcommits

/--
The reader fetches the footer, then the second data line before and the first one after the writer
has placed the first line, and then the version before and the lock word after the writer is done.
-/
def tornFooterRun : List (Action Bool Ctx (Iteration Unit)) :=
  List.flatten [
    [.start true (.read false 0)], cpus true 3, serves true .rctx [4, 5], [.cpu true 1], cpus true 2,
    [.start false (.update false ())], cpus false 2, serves false .rctx [0],
    serves false .rctx [3, 4, 5], [.cpu false 1], cpus false 17,
    touches true .rctx [4], touches false .rctx [3], serves true .rctx [3], [.cpu true 1],
    cpus true 3, touches true .rctx [4], touches false .rctx [4, 5], serves true .rctx [5],
    [.cpu true 1], cpus true 3]

theorem v2_footerLock_read_torn
    : ¬NeverTorn Bool (sampleTuple .v2 .footerLock 1) (incrementAll _)
        { atomicReadBytes := 0, inOrderWrites := true } (fun words => words 15 = wUnlocked) := by
  apply not_neverTorn (fun _ => 0) (fun _ _ => 0) true tornFooterRun
  . rfl
  . decide +kernel

def footerRun : List (Action Bool Ctx (Iteration Unit)) :=
  List.flatten [
    [.start false (.update false ())], cpus false 2, serves false .rctx [0],
    serves false .rctx [5, 6, 7], [.cpu false 1], cpus false 17, serves false .rctx [5, 6, 7],
    [.start true (.read false 0)], cpus true 3, serves true .rctx [7], [.cpu true 1], cpus true 2,
    serves true .rctx [6, 5], [.cpu true 1], cpus true 3, serves true .rctx [7], [.cpu true 1],
    cpus true 3]

theorem v2_footerLock_read_of_footerRun
    : ∃ (s : Sys Bool Ctx Buffer OLRestartException (Option (Word × Word)) (Iteration Unit))
        (b : Bool) (k : Nat), ∀ i, (sampleTuple .v2 .footerLock 2).isData i →
          (s.worker true).buf (.tupleBuffer b) i =
            snap (fun _ => 0) ((sampleTuple .v2 .footerLock 2).block.commits s.shared.hist) k i := by
  have hrun : ((Sys.initial (fun _ => 0) (fun _ _ => 0)).run
      (benchmark (sampleTuple .v2 .footerLock 2) (incrementAll _)
        { atomicReadBytes := 0, inOrderWrites := true })
      footerRun).any (returnsRead (sampleTuple .v2 .footerLock 2) true) = true := by
    decide +kernel
  obtain ⟨s, b, opnum, since, versions, hreach, hcommits, hcontrol⟩ := exists_read_of_run hrun
  have hnever : NeverTorn Bool (sampleTuple .v2 .footerLock 2) (incrementAll _)
      { atomicReadBytes := 0, inOrderWrites := true } (fun words => words 15 = wUnlocked) :=
    v2_footerLock_read_not_torn rfl rfl rfl (show 0 % 64 = 0 from rfl) rfl (.inr (by decide))
  obtain ⟨k, _, hwords⟩ := hnever _ s true b opnum since versions (Sys.initial_fresh _ _) rfl hreach
    hcommits hcontrol
  exact ⟨s, b, k, hwords⟩

end Footer

end OptimisticLocks
