import RdmaSync.OptimisticLocks.Benchmark
import RdmaSync.Rdma.BlockRules

/-!
This module contains what a writer does to a tuple: the states it commits and the proof that it
follows the protocol of an exclusively locked block.
-/

namespace OptimisticLocks

open Rdma CommunicationManager

variable {W Op U : Type} [DecidableEq W]

namespace ExclusiveLock

variable (t : ExclusiveLock)

/-- What `unlock` does to the local copy. -/
def prepare : Code Unit := do
  t.generateConsistencyProof
  t.incrementVersion
  match t.lockType with
  | .footerLock => store (t.tupleBuffer, t.bytes / 8 - 1) 0
  | .headerLock => pure ()

/-- What `unlock` posts. -/
def publish : Code Unit :=
  match t.lockType with
  | .footerLock => postWrite (t.tupleBuffer, 0) .rctx unsignaled t.remoteAddress t.bytes
  | .headerLock => do
    postWrite (t.tupleBuffer, 0) .rctx unsignaled t.remoteAddress t.bytes
    postFetchAdd (-1) (t.lockBuffer, 0) .rctx unsignaled t.getLockPosition true

theorem unlock_eq : t.unlock = t.prepare >>= fun _ => t.publish := by
  simp only [unlock, prepare, publish, Prog.bind_assoc]
  cases t.lockType <;> rfl

end ExclusiveLock

def change (t : Tuple) (modification : Modification t U) (b : Bool) (u : U) : Code Unit := do
  modification.code u (.tupleBuffer b)
  (t.exclusive b).prepare

theorem runUpdate_eq (t : Tuple) (modification : Modification t U) (b : Bool) (u : U)
    : runUpdate t modification b u
        = (t.exclusive b).lock >>= fun _ =>
            change t modification b u >>= fun _ => (t.exclusive b).publish := by
  simp only [runUpdate, change, ExclusiveLock.unlock_eq, Prog.bind_assoc]

def IsCopy (t : Tuple) (b : Bool) (prev : Nat → Word) (l : Local Buffer) : Prop :=
  ∀ i, i < t.words → l (.tupleBuffer b) i = if i = t.lockIdx then 1 else prev i

/-- The words that the WRITE carries when the buffers are `l`. -/
def copied (t : Tuple) (b : Bool) (l : Local Buffer) : Nat → Word :=
  (Verb.write (Buffer.tupleBuffer b, 0) t.remoteAddress t.bytes).payload l

theorem copied_apply (t : Tuple) (b : Bool) (l : Local Buffer) {i : Nat} (h : i < t.words)
    : copied t b l i = l (.tupleBuffer b) i := by
  have : i < t.bytes / 8 := h
  simp [copied, Verb.payload, this]

/-- A writer that finds the tuple as `prev` may replace it by `next`. -/
def Replaces (t : Tuple) (modification : Modification t U) (u : U) (prev next : Nat → Word)
    : Prop :=
  ∃ b l, IsCopy t b prev l ∧ next = copied t b ((change t modification b u).exec l).2

section Copy

variable (t : Tuple) (b : Bool)

def isProofWord (a : Buffer × Nat) : Prop :=
  a.1 = .tupleBuffer b ∧ a.2 < t.words ∧ t.isProof a.2 = true ∧ a.2 ≠ t.versionIdx

def inTuple (a : Buffer × Nat) : Prop :=
  a.1 = .tupleBuffer b ∧ a.2 < t.words

theorem increment_local {loads stores : Buffer × Nat → Prop} {throws : OLRestartException → Prop}
    {a : Buffer × Nat} (hload : loads a) (hstore : stores a)
    : (increment a).Local loads stores throws := by
  refine .load a _ hload ?_
  intro x
  exact .store a _ _ hstore (.ret ())

theorem exec_increment_bind {α : Type} (a : Buffer × Nat) (q : Code α) (l : Local Buffer)
    : (increment a >>= fun _ => q).exec l = q.exec (l.set a (l a.1 a.2 + 1)) := by
  rfl

theorem farm_generate_local {loads stores : Buffer × Nat → Prop}
    {throws : OLRestartException → Prop} {buffer : Buffer × Nat} {bytes : Nat}
    (hload : ∀ i, 8 ≤ i → i < bytes / 8 → i % 8 = 0 → loads (buffer.1, buffer.2 + i))
    (hstore : ∀ i, 8 ≤ i → i < bytes / 8 → i % 8 = 0 → stores (buffer.1, buffer.2 + i))
    : (FaRM.generateConsistencyProof buffer bytes).Local loads stores throws := by
  apply Prog.Local.forEach
  intro i hi
  simp only [CL, mem_strided (show 0 < 64 / 8 by decide)] at hi
  apply increment_local
  . exact hload i hi.1 hi.2.1 (by omega)
  . exact hstore i hi.1 hi.2.1 (by omega)

theorem crc_generate_local {loads stores : Buffer × Nat → Prop}
    {throws : OLRestartException → Prop} {flags : Flags} {buffer : Buffer × Nat} {bytes : Nat}
    (hload : ∀ i, i < (bytes - 8) / 8 → loads (buffer.1, buffer.2 + 1 + i))
    (hstore : stores buffer)
    : (CRC.generateConsistencyProof flags buffer bytes).Local loads stores throws := by
  apply Prog.Local.bind
  . apply Prog.Local.loadAll
    intro a ha
    simp only [CRC.content, List.mem_map, List.mem_range] at ha
    obtain ⟨i, hi, rfl⟩ := ha
    exact hload i hi
  . intro words
    exact .store _ _ _ hstore (.ret ())

theorem generate_local
    : (t.exclusive b).generateConsistencyProof.Local (inTuple t b) (isProofWord t b)
        (fun _ => False) := by
  have hge := t.words_ge
  have hmod := t.words_mod
  have hbytes := t.bytes_eq
  unfold ExclusiveLock.generateConsistencyProof
  split
  . next hc hl =>
    simp only [Tuple.exclusive] at hc hl ⊢
    apply crc_generate_local
    . intro i hi
      exact ⟨rfl, by show _ < _; omega⟩
    . simp only [isProofWord, Tuple.isProof, Tuple.versionIdx, hc, hl]
      exact ⟨trivial, by omega, by simp, by omega⟩
  . next hc hl =>
    simp only [Tuple.exclusive] at hc hl ⊢
    apply crc_generate_local
    . intro i hi
      exact ⟨rfl, by show _ < _; omega⟩
    . simp only [isProofWord, Tuple.isProof, Tuple.versionIdx, hc, hl]
      exact ⟨trivial, by omega, by simp, by omega⟩
  . next hc =>
    simp only [Tuple.exclusive] at hc ⊢
    apply farm_generate_local
    . intro i _ hi _
      exact ⟨rfl, by show _ < _; omega⟩
    . intro i hge hi hmod
      simp only [isProofWord, Tuple.isProof, Tuple.versionIdx, hc, Nat.zero_add, hmod]
      exact ⟨trivial, by omega, by simp, by omega⟩
  . exact .ret ()

theorem incrementVersion_eq
    : (t.exclusive b).incrementVersion = increment (.tupleBuffer b, t.versionIdx) := by
  have hidx : (t.bytes - 16) / 8 = t.words - 2 := by
    have := t.bytes_eq
    omega
  unfold ExclusiveLock.incrementVersion Tuple.versionIdx
  simp only [Tuple.exclusive]
  cases t.consistency <;> cases t.lockType <;> simp only [hidx]

theorem prepare_eq
    : (t.exclusive b).prepare
        = (t.exclusive b).generateConsistencyProof >>= fun _ =>
            increment (.tupleBuffer b, t.versionIdx) >>= fun _ =>
              if t.lockType = .footerLock then store (.tupleBuffer b, t.lockIdx) 0 else .ret () := by
  unfold ExclusiveLock.prepare
  rw [incrementVersion_eq]
  cases hl : t.lockType with
  | footerLock =>
    have : t.bytes / 8 - 1 = t.lockIdx := by
      unfold Tuple.lockIdx
      rw [hl]
      rfl
    simp [Tuple.exclusive, hl, this]
  | headerLock => simp [Tuple.exclusive, hl]

theorem prepare_local
    : (t.exclusive b).prepare.Local (inTuple t b) (inTuple t b) (fun _ => False) := by
  rw [prepare_eq]
  apply Prog.Local.bind
  . exact (generate_local t b).mono (fun _ h => h) (fun _ h => ⟨h.1, h.2.1⟩)
  . intro _
    apply Prog.Local.bind
    . exact increment_local ⟨rfl, t.versionIdx_lt⟩ ⟨rfl, t.versionIdx_lt⟩
    . intro _
      split
      . exact .store _ _ _ ⟨rfl, t.lockIdx_lt⟩ (.ret ())
      . exact .ret ()

theorem change_local (modification : Modification t U) (u : U)
    : (change t modification b u).Local (inTuple t b) (inTuple t b) (fun _ => False) := by
  apply Prog.Local.bind
  . exact (modification.code_local u _).mono (fun _ h => h) (fun _ h => ⟨h.1, h.2.1⟩)
  . intro _
    exact prepare_local t b

variable (modification : Modification t U) (u : U) (l : Local Buffer)

def modified : Local Buffer :=
  ((modification.code u (.tupleBuffer b)).exec l).2

def proven : Local Buffer :=
  ((t.exclusive b).generateConsistencyProof.exec (modified t b modification u l)).2

theorem change_exec
    : ((change t modification b u).exec l).2 =
        let l := proven t b modification u l
        let l := l.set (.tupleBuffer b, t.versionIdx) (l (.tupleBuffer b) t.versionIdx + 1)
        if t.lockType = .footerLock then l.set (.tupleBuffer b, t.lockIdx) 0 else l := by
  rw [change, (modification.code_local u _).exec_seq, prepare_eq, (generate_local t b).exec_seq]
  rw [exec_increment_bind]
  split <;> rfl

/-- The words that neither the modification nor the proof touch. -/
theorem proven_of_not {i : Nat} (hdata : ¬t.isData i) (hproof : ¬isProofWord t b (.tupleBuffer b, i))
    : proven t b modification u l (.tupleBuffer b) i = l (.tupleBuffer b) i := by
  rw [proven, (generate_local t b).exec_frame _ hproof]
  exact (modification.code_local u _).exec_frame _ (fun h => hdata h.2)

theorem change_lock
    : ((change t modification b u).exec l).2 (.tupleBuffer b) t.lockIdx =
        if t.lockType = .footerLock then 0 else l (.tupleBuffer b) t.lockIdx := by
  have hne : (Buffer.tupleBuffer b, t.lockIdx) ≠ (.tupleBuffer b, t.versionIdx) := by
    have := t.versionIdx_ne_lockIdx
    simp [Ne.symm this]
  rw [change_exec]
  simp only
  split
  . exact Local.set_self _ _ _
  . rw [Local.set_of_ne _ _ _ hne]
    apply proven_of_not
    . exact fun h => h.2.1 rfl
    . intro h
      have := h.2.2.1
      rw [t.isProof_lockIdx] at this
      simp at this

theorem change_version
    : ((change t modification b u).exec l).2 (.tupleBuffer b) t.versionIdx =
        l (.tupleBuffer b) t.versionIdx + 1 := by
  have hne : (Buffer.tupleBuffer b, t.versionIdx) ≠ (.tupleBuffer b, t.lockIdx) := by
    simp [t.versionIdx_ne_lockIdx]
  have hproven := proven_of_not t b modification u l (i := t.versionIdx) (fun h => h.2.2.1 rfl)
    (fun h => h.2.2.2 rfl)
  rw [change_exec]
  simp only
  split
  . rw [Local.set_of_ne _ _ _ hne, ← hproven]
    exact Local.set_self _ _ _
  . rw [← hproven]
    exact Local.set_self _ _ _

theorem change_of_ne {i : Nat} (hlock : i ≠ t.lockIdx) (hversion : i ≠ t.versionIdx)
    : ((change t modification b u).exec l).2 (.tupleBuffer b) i =
        proven t b modification u l (.tupleBuffer b) i := by
  rw [change_exec]
  simp only
  split
  . rw [Local.set_of_ne _ _ _ (by simp [hlock]), Local.set_of_ne _ _ _ (by simp [hversion])]
  . rw [Local.set_of_ne _ _ _ (by simp [hversion])]

theorem change_data {i : Nat} (h : t.isData i)
    : ((change t modification b u).exec l).2 (.tupleBuffer b) i =
        modified t b modification u l (.tupleBuffer b) i := by
  rw [change_of_ne t b modification u l h.2.1 h.2.2.1]
  apply (generate_local t b).exec_frame
  intro hproof
  have := hproof.2.2.1
  rw [h.2.2.2] at this
  simp at this

end Copy

namespace Replaces

variable {t : Tuple} {modification : Modification t U} {u : U} {prev next : Nat → Word}

theorem lock (h : Replaces t modification u prev next)
    : next t.lockIdx = if t.lockType = .footerLock then 0 else 1 := by
  obtain ⟨b, l, hcopy, rfl⟩ := h
  rw [copied_apply _ _ _ t.lockIdx_lt, change_lock, hcopy _ t.lockIdx_lt]
  simp

theorem version (h : Replaces t modification u prev next)
    : next t.versionIdx = prev t.versionIdx + 1 := by
  obtain ⟨b, l, hcopy, rfl⟩ := h
  rw [copied_apply _ _ _ t.versionIdx_lt, change_version, hcopy _ t.versionIdx_lt]
  simp [t.versionIdx_ne_lockIdx]

end Replaces

section Protocol

variable {t : Tuple} {modification : Modification t U} {b : Bool} {u : U} {init : Nat → Word}
  {valid : Op → (Nat → Word) → (Nat → Word) → Prop} {nic : Nic} {w : W} {op : Op}
  {l : Local Buffer} {s : Shared W Buffer Op} {mine : List (Commit W Op)}

theorem getLockPosition_eq (t : Tuple) (b : Bool)
    : (t.exclusive b).getLockPosition = t.block.lockAddr := by
  have := t.words_ge
  have := t.bytes_eq
  unfold ExclusiveLock.getLockPosition Block.lockAddr
  simp only [Tuple.exclusive, Tuple.block, Tuple.lockIdx]
  cases t.lockType with
  | footerLock =>
    simp only
    omega
  | headerLock => rfl

theorem lock_eq (t : Tuple) (b : Bool)
    : (t.exclusive b).lock =
        .post .rctx false (.compareSwap 0 1 (.lockBuffer b, 0) t.block.lockAddr)
          (.post .rctx true (.read (.tupleBuffer b, 0) t.block.addr t.bytes)
            (.poll .rctx 1 (.load (.lockBuffer b, 0) fun x =>
              if x ≠ 0 then .throw .restart else .ret ()))) := by
  unfold ExclusiveLock.lock
  rw [getLockPosition_eq]
  rfl

theorem wp_lock (h : t.block.Rests w mine s)
    : wp (t.block.protocol init valid) nic w op
        (fun o l s =>
          match o with
          | .ok _ => ∃ cs, t.block.Owns w cs s ∧ own w cs = mine ∧
              IsCopy t b (snap init cs cs.length) l
          | .error _ => t.block.Rests w mine s)
        (t.exclusive b).lock l s := by
  have hland : ∀ (x : Nat), ¬(Verb.read (Buffer.tupleBuffer b, 0) t.block.addr t.bytes).lands
      (.lockBuffer b, x) := by
    intro x
    simp [Verb.lands]
  rw [lock_eq]
  apply Block.wp_acquire h
  . intro s₁ hinv₁ howns hown
    apply Block.wp_read_owned rfl hinv₁ howns
    intro l₂ s₂ hinv₂ howns₂ hwords hframe
    have hzero : l₂ (.lockBuffer b) 0 = 0 := by
      rw [hframe _ _ (hland 0)]
      exact Local.set_self l (Buffer.lockBuffer b, 0) 0
    simp only [wp, hzero, ne_eq, not_true_eq_false, ↓reduceIte]
    intro s₃ hr hinv₃
    refine ⟨_, (Block.owns_steady w _).rely hr howns₂, hown, ?_⟩
    intro i hi
    have := hwords i hi
    rwa [Nat.zero_add] at this
  . intro x s₁ hx hinv₁ hrests
    apply Block.wp_read_resting hinv₁ hrests
    intro l₂ s₂ hinv₂ hrests₂ _ _ hframe
    have hfailed : l₂ (.lockBuffer b) 0 = x := by
      rw [hframe _ _ (hland 0)]
      exact Local.set_self l (Buffer.lockBuffer b, 0) x
    simp only [wp, hfailed, ne_eq, hx, not_false_eq_true, ↓reduceIte]
    intro s₃ hr hinv₃
    exact (Block.rests_steady w mine).rely hr hrests₂

theorem wp_publish {cs : List (Commit W Op)} (horder : nic.inOrderWrites = true)
    (hinv : t.block.Inv init valid s) (howns : t.block.Owns w cs s)
    (hlock : copied t b l t.lockIdx = if t.lockType = .footerLock then 0 else 1)
    (hvalid : valid op (snap init cs cs.length) (copied t b l))
    : wp (t.block.protocol init valid) nic w op
        (fun o _ s =>
          match o with
          | .ok _ => t.block.Rests w (⟨w, op, copied t b l⟩ :: own w cs) s
          | .error _ => False)
        (t.exclusive b).publish l s := by
  have htail : (t.block.tail = true) = (t.lockType = .footerLock) := by
    simp [Tuple.block]
  unfold ExclusiveLock.publish
  split
  . next hl =>
    apply Block.wp_replace horder rfl hinv howns rfl
    . simp only [htail]
      exact hlock
    . exact hvalid
    . intro s₁ hinv₁ hplaced s₂ hr hinv₂
      have hplaced₂ := (Block.placed_stable w _ cs).rely hr hplaced
      have hl : t.block.tail = true := by
        rw [htail]
        exact hl
      simp only [Block.Placed, hl, ↓reduceIte] at hplaced₂
      exact hplaced₂
  . next hl =>
    have hnot : t.block.tail = false := by
      have hl' : t.lockType = .headerLock := hl
      simp [Tuple.block, hl']
    rw [getLockPosition_eq]
    apply Block.wp_replace horder rfl hinv howns rfl
    . simp only [htail]
      exact hlock
    . exact hvalid
    . intro s₁ hinv₁ hplaced
      apply Block.wp_release hnot hplaced rfl
      intro x s₂ hinv₂ hrests s₃ hr hinv₃
      exact (Block.rests_steady w _).rely hr hrests

/-- An attempt at an update commits exactly one state, unless it is restarted. -/
theorem wp_runUpdate (horder : nic.inOrderWrites = true)
    (hvalid : ∀ prev next, Replaces t modification u prev next → valid op prev next)
    (hinv : t.block.Inv init valid s) (h : t.block.Rests w mine s)
    : wp (t.block.protocol init valid) nic w op
        (fun o _ s =>
          match o with
          | .ok _ => ∃ words, t.block.Rests w (⟨w, op, words⟩ :: mine) s
          | .error _ => t.block.Rests w mine s)
        (runUpdate t modification b u) l s := by
  rw [runUpdate_eq]
  apply wp.bind hinv (wp_lock h)
  . rintro _ l₁ s₁ hinv₁ ⟨cs, howns, rfl, hcopy⟩
    apply wp.exec_bind (change_local t b modification u)
    . intro _ _
      have hreplaces : Replaces t modification u (snap init cs cs.length)
          (copied t b ((change t modification b u).exec l₁).2) := ⟨b, l₁, hcopy, rfl⟩
      apply wp.mono (wp_publish horder hinv₁ howns hreplaces.lock (hvalid _ _ hreplaces)) hinv₁
      intro o _ _ _ h
      cases o with
      | ok _ => exact ⟨_, h⟩
      | error _ => exact h.elim
    . intro e _ _ _ he
      obtain ⟨_, hok⟩ := (change_local t b modification u).exec_ok l₁
      rw [hok] at he
      simp at he
  . intro _ _ _ _ h
    exact h

theorem rests_fresh (hhist : s.hist = []) (w : W) : t.block.Rests w [] s := by
  constructor <;> rw [hhist] <;> rfl

theorem inv_fresh (valid : Op → (Nat → Word) → (Nat → Word) → Prop) (hhist : s.hist = [])
    (hlock : s.mem (t.block.base + t.block.lock) = 0)
    : t.block.Inv (fun i => s.mem (t.block.base + i)) valid s := by
  constructor <;> simp only [hhist]
  . intro _ _ h
    simp [Block.holds] at h
  . intro _ h
    simp [Block.holds] at h
  . intro _
    exact ⟨hlock, rfl⟩
  . exact t.block.lines_pos
  . exact Nat.le_refl _
  . simp [Block.progress]
  . exact Nat.le_refl _
  . simp [Block.commits]
  . intro i hi _
    have hprogress : t.block.progress ([] : History W Buffer Op) = t.block.lines := rfl
    rw [t.block.content_of_progress hprogress hi]
    rfl
  . trivial

end Protocol

section Discipline

variable {t : Tuple} {modification : Modification t U} {b : Bool} {u : U}

theorem synced_publish {ends : Except OLRestartException Unit → List (Verb Buffer × Bool) → Prop}
    (hends : ∀ q, Leftover q → ends (.ok ()) q)
    : Synced .rctx ends (t.exclusive b).publish [] := by
  unfold ExclusiveLock.publish
  split
  . refine ⟨rfl, by simp, ?_⟩
    apply hends
    intro p hp
    simp only [List.nil_append, List.mem_singleton] at hp
    subst hp
    exact ⟨rfl, fun _ h => h.elim⟩
  . refine ⟨rfl, by simp, rfl, fun _ h => h.elim, ?_⟩
    apply hends
    intro p hp
    simp only [List.nil_append, List.singleton_append, List.mem_cons, List.not_mem_nil,
      or_false] at hp
    rcases hp with rfl | rfl
    . exact ⟨rfl, fun _ h => h.elim⟩
    . exact ⟨rfl, fun a h => ⟨b, by rw [show a = (Buffer.lockBuffer b, 0) from h]⟩⟩

theorem synced_runUpdate {q : List (Verb Buffer × Bool)} (hq : Leftover q)
    {ends : Except OLRestartException Unit → List (Verb Buffer × Bool) → Prop}
    (hok : ∀ q, Leftover q → ends (.ok ()) q) (herror : ∀ e, ends (.error e) [])
    : Synced .rctx ends (runUpdate t modification b u) q := by
  rw [runUpdate_eq, lock_eq]
  simp only [Prog.bind_post, Prog.bind_poll, Prog.bind_load, Prog.bind_ite, Prog.bind_throw,
    Prog.bind_ret]
  refine ⟨rfl, fun _ h => h.elim, rfl, fun _ h => h.elim, rfl, ?_⟩
  rw [acked_append_signaled]
  . refine ⟨quiet_nil _, ?_⟩
    intro x
    dsimp only
    split
    . exact herror _
    . apply Synced.of_local (change_local t b modification u)
      . intro a _
        exact quiet_nil a
      . intro a _
        exact quiet_nil a
      . intro _ h
        exact h.elim
      . intro _
        exact synced_publish hok
  . intro p hp
    rcases List.mem_append.mp hp with hp | hp
    . exact hq.unsignaled p hp
    . rw [List.mem_singleton.mp hp]

end Discipline

end OptimisticLocks
