import RdmaSync.SyncPrimitives.OptimisticLatch

/-!
This module contains the soundness of the optimistic latch as long as it is not marked as obsolete
twice.
-/

namespace SyncPrimitives
namespace OptimisticLatch

open Threads Spec

section Protocol

variable {T : Type}

/-- Every change adds two to the word, and the mark one more. -/
structure Inv (l : OptimisticLatch T) : Prop where
  word : l.typeVersionLockObsolete = BitVec.ofNat 64 (4 + 2 * l.changes + l.obsolete.toNat)
  holders : l.holders.length = l.changes % 2

structure Permit (t : T) (l l' : OptimisticLatch T) : Prop where
  holders : ∀ u ≠ t, l.holders = [u] → l' = l
  changes : l.changes ≤ l'.changes
  obsolete : l.obsolete = true → l'.obsolete = true

structure Holds (t : T) (v : Version) (o : Bool) (l : OptimisticLatch T) : Prop where
  holders : l.holders = [t]
  word : l.typeVersionLockObsolete = v
  obsolete : l.obsolete = o

def Returns (_ : T) (call : Call) (r : Result) (l : OptimisticLatch T) : Prop :=
  match call, r with
  | .optimisticLatchOrRestart, .version (some v) =>
    l.typeVersionLockObsolete = v ∧ isLatched v = false
  | .checkOrRestart v, .answer true => l.typeVersionLockObsolete = v
  | _, _ => True

def spec : Spec T (OptimisticLatch T) Call Result where
  inv := Inv
  permit := Permit
  idle := fun _ _ => True
  result := Returns

variable {l : OptimisticLatch T} {t : T} {v : Version} {o : Bool}

theorem inv_created : Inv (created : OptimisticLatch T) where
  word := rfl
  holders := rfl

theorem Inv.isLatched (h : Inv l)
    : isLatched l.typeVersionLockObsolete = decide (l.changes % 2 = 1) := by
  rw [isLatched_eq, h.word, BitVec.toNat_ofNat]
  have hbit := Bool.toNat_lt l.obsolete
  congr 1
  simp only [eq_iff_iff]
  omega

theorem isObsolete_eq (version : Version)
    : isObsolete version = decide (version.toNat % 2 = 1) := by
  simp [isObsolete, beq_eq_decide, BitVec.toNat_eq]

theorem Inv.isObsolete (h : Inv l) : isObsolete l.typeVersionLockObsolete = l.obsolete := by
  rw [isObsolete_eq, h.word, BitVec.toNat_ofNat]
  cases l.obsolete
  . simp
  . simp
    omega

theorem Inv.holders_eq (h : Inv l) (ht : t ∈ l.holders) : l.holders = [t] := by
  have hlength := h.holders
  have hpos := List.length_pos_of_mem ht
  obtain ⟨u, hu⟩ := List.length_eq_one_iff.mp (by omega : l.holders.length = 1)
  simp_all

theorem Inv.isLatched_of_holds (h : Inv l) (hholds : Holds t v o l)
    : SyncPrimitives.isLatched v = true := by
  have hlength := h.holders
  rw [← hholds.word, h.isLatched]
  simp only [hholds.holders, List.length_singleton] at hlength
  simp [← hlength]

/-- As long as the word has not wrapped around, equal words have equal numbers of changes. -/
theorem Inv.changes_eq {l' : OptimisticLatch T} (h : Inv l) (h' : Inv l')
    (hword : l.typeVersionLockObsolete = l'.typeVersionLockObsolete) (hle : l.changes ≤ l'.changes)
    (hchanges : l'.changes < 2 ^ 60) : l.changes = l'.changes := by
  have heq := congrArg BitVec.toNat (h.word.symm.trans (hword.trans h'.word))
  have hbit := Bool.toNat_lt l.obsolete
  have hbit' := Bool.toNat_lt l'.obsolete
  simp only [BitVec.toNat_ofNat] at heq
  omega

theorem stable_holds : (spec (T := T)).Stable t (Holds t v o) := by
  intro u l l' hu _ _ hpermit hholds
  rw [hpermit.holders t (Ne.symm hu) hholds.holders]
  exact hholds

theorem stable_true : (spec (T := T)).Stable t (fun _ => True) := by
  simp [Stable]

theorem permit_refl : Permit t l l where
  holders := fun _ _ _ => rfl
  changes := le_refl _
  obsolete := id

end Protocol
section Steps

variable {T : Type} {me : T} {l : OptimisticLatch T} {v : Version} {o : Bool}

theorem Inv.holders_nil (h : Inv l) (hlatched : SyncPrimitives.isLatched l.typeVersionLockObsolete = false)
    : l.holders = [] := by
  rw [h.isLatched] at hlatched
  have hholders := h.holders
  simp only [decide_eq_false_iff_not] at hlatched
  exact List.length_eq_zero_iff.mp (by omega)

theorem Inv.acquire (h : Inv l) (hword : l.typeVersionLockObsolete = v) (hholders : l.holders = [])
    : Inv
      { l with
        typeVersionLockObsolete := v + 0b10
        holders := me :: l.holders
        changes := l.changes + 1 } where
  word := by
    rw [← hword, h.word]
    simp only [BitVec.toNat_eq, BitVec.toNat_add, BitVec.toNat_ofNat, BitVec.reduceToNat]
    omega
  holders := by
    have hlength := h.holders
    simp only [hholders, List.length_nil, List.length_singleton] at *
    omega

theorem permit_acquire (hholders : l.holders = [])
    : Permit me l
      { l with
        typeVersionLockObsolete := v + 0b10
        holders := me :: l.holders
        changes := l.changes + 1 } where
  holders := by simp [hholders]
  changes := Nat.le_succ _
  obsolete := id

variable [DecidableEq T]

theorem Inv.release (h : Inv l) (hholds : Holds me v o l) : Inv (release me (v + 0b10) l) where
  word := by
    have hword := hholds.word.symm.trans h.word
    simp only [OptimisticLatch.release, hword, BitVec.toNat_eq, BitVec.toNat_add,
      BitVec.toNat_ofNat, BitVec.reduceToNat]
    omega
  holders := by
    have hlength := h.holders
    simp only [OptimisticLatch.release, hholds.holders, List.erase_cons_head, List.length_nil,
      List.length_singleton] at *
    omega

theorem permit_release (hholds : Holds me v o l) : Permit me l (release me (v + 0b10) l) where
  holders := by
    intro u hu hother
    simp [hholds.holders, Ne.symm hu] at hother
  changes := Nat.le_succ _
  obsolete := id

/-- The carry out of the lock bit clears it, and the obsolete bit is set. -/
theorem Inv.releaseObsolete (h : Inv l) (hholds : Holds me v false l)
    : Inv (releaseObsolete me l) where
  word := by
    rw [OptimisticLatch.releaseObsolete, h.word, hholds.obsolete]
    simp only [BitVec.toNat_eq, BitVec.toNat_add, BitVec.toNat_ofNat, BitVec.reduceToNat,
      Bool.toNat_true, Bool.toNat_false]
    omega
  holders := by
    have hlength := h.holders
    simp only [OptimisticLatch.releaseObsolete, hholds.holders, List.erase_cons_head,
      List.length_nil, List.length_singleton] at *
    omega

/-- If the obsolete bit is set already, the carry sets the lock bit again and clears it. -/
theorem Inv.isLatched_releaseObsolete (h : Inv l) (hholds : Holds me v true l)
    : (OptimisticLatch.releaseObsolete me l).holders = []
      ∧ SyncPrimitives.isLatched (OptimisticLatch.releaseObsolete me l).typeVersionLockObsolete = true
      ∧ OptimisticLatch.isObsolete (OptimisticLatch.releaseObsolete me l).typeVersionLockObsolete
        = false := by
  have hlength := h.holders
  simp only [hholds.holders, List.length_singleton] at hlength
  refine ⟨by simp [OptimisticLatch.releaseObsolete, hholds.holders], ?_, ?_⟩
  . rw [OptimisticLatch.releaseObsolete, isLatched_eq, h.word, hholds.obsolete]
    simp only [BitVec.toNat_add, BitVec.toNat_ofNat, BitVec.reduceToNat, Bool.toNat_true,
      decide_eq_true_eq]
    omega
  . rw [OptimisticLatch.releaseObsolete, isObsolete_eq, h.word, hholds.obsolete]
    simp only [BitVec.toNat_add, BitVec.toNat_ofNat, BitVec.reduceToNat, Bool.toNat_true,
      decide_eq_false_iff_not]
    omega

theorem permit_releaseObsolete (hholds : Holds me v o l) : Permit me l (releaseObsolete me l) where
  holders := by
    intro u hu hother
    simp [hholds.holders, Ne.symm hu] at hother
  changes := Nat.le_succ _
  obsolete := fun _ => rfl

end Steps
section Calls

variable {T : Type} [DecidableEq T] {me : T} {call : Call} {l : OptimisticLatch T} {v : Version}
  {o : Bool} {k : Version → Prog (OptimisticLatch T) Result}
  {k' : Unit → Prog (OptimisticLatch T) Result}
  {k'' : Bool × Version → Prog (OptimisticLatch T) Result}

omit [DecidableEq T] in
theorem arrives_load (hk : ∀ l, Inv l → spec.Arrives me call (k l.typeVersionLockObsolete) l)
    : spec.Arrives me call (load >>= k) l :=
  Arrives.load (fun _ => True) stable_true trivial (fun _ _ _ => permit_refl) fun l hinv _ =>
    hk l hinv

omit [DecidableEq T] in
theorem arrives_load_of_holds (h : Holds me v o l)
    (hk : ∀ l, Inv l → Holds me v o l → spec.Arrives me call (k v) l)
    : spec.Arrives me call (load >>= k) l := by
  refine Arrives.load _ stable_holds h (fun _ _ _ => permit_refl) ?_
  intro l hinv hholds
  rw [hholds.word]
  exact hk l hinv hholds

omit [DecidableEq T] in
theorem arrives_compareExchange (hv : isLatched v = false)
    (hk : ∀ b v' l, spec.Arrives me call (k'' (b, v')) l)
    : spec.Arrives me call (compareExchange me v (v + 0b10) >>= k'') l := by
  refine Arrives.exchange (fun _ => True) stable_true trivial (fun _ _ _ => permit_refl) ?_ ?_
  . intro l _ _ _
    exact hk _ _ l
  . intro l hinv _ heq
    have hword : l.typeVersionLockObsolete = v := by simpa using heq
    have hholders := hinv.holders_nil (hword ▸ hv)
    exact ⟨hinv.acquire hword hholders, permit_acquire hholders, hk _ _ _⟩

omit [DecidableEq T] in
theorem arrives_upgradeToExclusiveLatch (hk : ∀ b v' l, spec.Arrives me call (k'' (b, v')) l)
    : spec.Arrives me call (upgradeToExclusiveLatch me v >>= k'') l := by
  simp only [upgradeToExclusiveLatch, Prog.bind_assoc, Prog.bind_ite]
  split
  . exact hk _ _ l
  . next hv =>
    refine arrives_compareExchange (by simpa using hv) fun b v' l => ?_
    cases b <;> exact hk _ _ l

theorem arrives_unlatchExclusive (h : Holds me v o l) (hk : ∀ l, spec.Arrives me call (k' ()) l)
    : spec.Arrives me call (unlatchExclusive me >>= k') l := by
  simp only [unlatchExclusive, Prog.bind_assoc]
  refine arrives_load_of_holds h fun l hinv h => ?_
  refine Arrives.ensure (hinv.isLatched_of_holds h) ?_
  refine arrives_load_of_holds h fun l hinv h => ?_
  refine Arrives.store _ stable_holds h fun l hinv h => ?_
  exact ⟨hinv.release h, permit_release h, hk _⟩

theorem arrives_writeUnlockObsolete (h : Holds me v false l)
    (hk : ∀ l, spec.Arrives me call (k' ()) l)
    : spec.Arrives me call (writeUnlockObsolete me >>= k') l := by
  refine Arrives.store _ stable_holds h fun l hinv h => ?_
  exact ⟨hinv.releaseObsolete h, permit_releaseObsolete h, hk _⟩

theorem arrives_body (hinv : Inv l) (hmay : mayCall me call l = true)
    (honce : onceObsolete me call l = true) : spec.Arrives me call (body me call) l := by
  have hholds : me ∈ l.holders → Holds me l.typeVersionLockObsolete l.obsolete l :=
    fun hme => ⟨hinv.holders_eq hme, rfl, rfl⟩
  cases call with
  | optimisticLatchOrRestart =>
    simp only [body, optimisticLatchOrRestart, Prog.bind_assoc, Prog.bind_ite]
    refine arrives_load fun l _ => ?_
    split
    . exact Arrives.ret trivial trivial
    . next hlatched => exact Arrives.ret trivial ⟨rfl, by simpa using hlatched⟩
  | tryLatchExclusive =>
    simp only [body, tryLatchExclusive, optimisticLatchOrRestart, Prog.bind_assoc, Prog.bind_ite]
    refine arrives_load fun l _ => ?_
    split
    . exact Arrives.ret trivial trivial
    . simp only [Prog.pure_eq, Prog.bind_ret, Prog.bind_assoc]
      refine arrives_upgradeToExclusiveLatch fun b v' l => ?_
      cases b <;> exact Arrives.ret trivial trivial
  | upgradeToExclusiveLatch version =>
    exact arrives_upgradeToExclusiveLatch fun b v' l => Arrives.ret trivial trivial
  | downgradeToOptimisticLatch =>
    simp only [body, downgradeToOptimisticLatch, Prog.bind_assoc]
    refine arrives_load_of_holds (hholds (by simpa [mayCall] using hmay)) fun l _ h => ?_
    exact arrives_unlatchExclusive h fun l => Arrives.ret trivial trivial
  | unlatchExclusive =>
    exact arrives_unlatchExclusive (hholds (by simpa [mayCall] using hmay))
      fun l => Arrives.ret trivial trivial
  | checkOrRestart startRead =>
    simp only [body, checkOrRestart, optimisticUnlatch, Prog.bind_assoc]
    refine arrives_load fun l _ => Arrives.ret trivial ?_
    cases heq : startRead == l.typeVersionLockObsolete with
    | true => exact (by simpa using heq : startRead = l.typeVersionLockObsolete).symm
    | false => trivial
  | writeUnlockObsolete =>
    have hobsolete : l.obsolete = false := by
      simpa [onceObsolete, hinv.isObsolete] using honce
    exact arrives_writeUnlockObsolete (hobsolete ▸ hholds (by simpa [mayCall] using hmay))
      fun l => Arrives.ret trivial trivial

theorem meets : ((interface (T := T)).restrict onceObsolete).Meets spec where
  idle_stable := fun _ => stable_true
  calls := by
    intro t call l hinv _ hmay
    simp only [Interface.restrict, Bool.and_eq_true] at hmay
    exact arrives_body hinv hmay.1 hmay.2

end Calls

abbrev MarksOnce {T : Type} [DecidableEq T] (s s' : Config T (OptimisticLatch T) Call Result)
    : Prop :=
  Step.Reach interface.step (fun s a => a.meets onceObsolete s.shared = true) s s'

structure Sound {T : Type} [DecidableEq T] (s : Config T (OptimisticLatch T) Call Result)
    : Prop where
  ensures : ∀ t call, s.thread t ≠ .running call .fail
  lockBit : isLatched s.shared.typeVersionLockObsolete = true ↔ ∃ t, s.shared.holders = [t]
  unlocked : isLatched s.shared.typeVersionLockObsolete = false ↔ s.shared.holders = []
  obsoleteBit : s.shared.obsolete = true → isObsolete s.shared.typeVersionLockObsolete = true
  /-- A version that is still valid: nobody has held the latch since it was read. -/
  optimistic : ∀ s₁ s₁' s₂ s₃ me me' v, MarksOnce (Interface.start created) s₁
    → interface.LastStep s₁ me .optimisticLatchOrRestart (.version (some v)) s₁'
    → MarksOnce s₁' s₂ → MarksOnce s₂ s₃
    → interface.LastStep s₃ me' (.checkOrRestart v) (.answer true) s → s₂.shared.holders = []

section Sound

variable {T : Type} [DecidableEq T] {s s' s₁ s₁' s₂ s₃ : Config T (OptimisticLatch T) Call Result}
  {v : Version}

theorem ok_of_reach (h : MarksOnce (Interface.start created) s) : spec.Ok s :=
  Spec.ok_of_reach (Interface.reach_restrict h) meets inv_created (fun _ => trivial)

theorem changes_of_reach (hok : spec.Ok s) (h : MarksOnce s s')
    : s.shared.changes ≤ s'.shared.changes ∧ spec.Ok s' := by
  refine relation_of_reach (fun l l' => l.changes ≤ l'.changes) hok meets
    (Interface.reach_restrict h) (fun _ => le_refl _) (fun h h' => h.trans h') ?_
  intro t l l' _ _ hpermit
  exact hpermit.changes

theorem reach_of_lastStep {t : T} {call : Call} {r : Result} (h : interface.LastStep s t call r s')
    : MarksOnce s s' := by
  obtain ⟨choice, hstep, _⟩ := h
  exact .next _ .refl rfl hstep

theorem sound_optimistic {me me' : T} (h₁ : MarksOnce (Interface.start created) s₁)
    (hlast₁ : interface.LastStep s₁ me .optimisticLatchOrRestart (.version (some v)) s₁')
    (h₂ : MarksOnce s₁' s₂) (h₃ : MarksOnce s₂ s₃)
    (hlast₃ : interface.LastStep s₃ me' (.checkOrRestart v) (.answer true) s)
    (hchanges : s.shared.changes < 2 ^ 60) : s₂.shared.holders = [] := by
  have hok₁ := ok_of_reach h₁
  obtain ⟨hword₁, hlatched⟩ := hok₁.lastStep meets (Interface.lastStep_restrict hlast₁)
  have hok₁' := (changes_of_reach hok₁ (reach_of_lastStep hlast₁)).2
  obtain ⟨hle₂, hok₂⟩ := changes_of_reach hok₁' h₂
  obtain ⟨_, hok₃⟩ := changes_of_reach hok₂ h₃
  obtain ⟨hle, hok⟩ := changes_of_reach hok₂ (h₃.trans (reach_of_lastStep hlast₃))
  have hword := hok₃.lastStep meets (Interface.lastStep_restrict hlast₃)
  -- The word has not wrapped around, so nothing has changed in between.
  have heven : ¬ s₁'.shared.changes % 2 = 1 := by
    rw [← hword₁, Inv.isLatched hok₁'.inv] at hlatched
    simpa using hlatched
  have heq : s₁'.shared.changes = s.shared.changes :=
    Inv.changes_eq hok₁'.inv hok.inv (hword₁.trans hword.symm) (by omega) hchanges
  have hholders := Inv.holders hok₂.inv
  exact List.length_eq_zero_iff.mp (by omega)

/-- In a run in which the latch is marked as obsolete only while it is not, it is sound. -/
theorem optimisticLatch_sound (h : MarksOnce (Interface.start created) s)
    (hchanges : s.shared.changes < 2 ^ 60) : Sound s := by
  have hok := ok_of_reach h
  have hinv : Inv s.shared := hok.inv
  have hholders := hinv.holders
  refine ⟨?_, ?_, ?_, ?_, ?_⟩
  . intro t call hthread
    exact hok.not_fail hthread
  . rw [hinv.isLatched, ← List.length_eq_one_iff, decide_eq_true_eq, hholders]
  . rw [hinv.isLatched, ← List.length_eq_zero_iff, decide_eq_false_iff_not, hholders]
    omega
  . intro hobsolete
    rw [hinv.isObsolete, hobsolete]
  . intro s₁ s₁' s₂ s₃ me me' v h₁ hlast₁ h₂ h₃ hlast₃
    exact sound_optimistic h₁ hlast₁ h₂ h₃ hlast₃ hchanges

def acquireObsolete : List (Action Bool Call) :=
  [.call true .tryLatchExclusive, .step true true, .step true true, .step true true,
    .call true .writeUnlockObsolete, .step true true, .step true true,
    .call false .tryLatchExclusive, .step false true, .step false true]

theorem optimisticLatch_sound_acquireObsolete
    : ∃ s : Config Bool (OptimisticLatch Bool) Call Result,
        s.shared.typeVersionLockObsolete = 0b1011 ∧ s.shared.holders = [false] ∧ Sound s := by
  obtain ⟨s, hreach, hs⟩ := Step.exists_reach_of_runIf
    (show (Step.runIf interface.step (fun s a => a.meets onceObsolete s.shared)
      (Interface.start created) acquireObsolete).any (fun s =>
        s.shared.typeVersionLockObsolete = 0b1011 ∧ s.shared.holders = [false]
          ∧ s.shared.changes = 3) = true by decide +kernel)
  simp only [decide_eq_true_eq] at hs
  exact ⟨s, hs.1, hs.2.1, optimisticLatch_sound hreach (by simp [hs.2.2])⟩

/-- The same, and the other thread marks it as obsolete again. -/
def obsoleteTwice : List (Action Bool Call) :=
  acquireObsolete ++ [.step false true, .call false .writeUnlockObsolete, .step false true]

/-- The lock bit is set, but nobody holds the latch, and the obsolete bit is clear again. -/
theorem not_sound_obsoleteTwice
    : ∃ s : Config Bool (OptimisticLatch Bool) Call Result,
        Step.Reach interface.step Step.any (Interface.start created) s
          ∧ s.shared.changes < 2 ^ 60 ∧ ¬ Sound s
          ∧ isLatched s.shared.typeVersionLockObsolete = true ∧ s.shared.holders = []
          ∧ s.shared.obsolete = true ∧ isObsolete s.shared.typeVersionLockObsolete = false := by
  obtain ⟨s, hreach, hs⟩ := Step.exists_reach_of_run
    (show (Step.run interface.step (Interface.start created) obsoleteTwice).any (fun s =>
      s.shared.changes < 2 ^ 60 ∧ isLatched s.shared.typeVersionLockObsolete = true
        ∧ s.shared.holders = [] ∧ s.shared.obsolete = true
        ∧ isObsolete s.shared.typeVersionLockObsolete = false) = true by decide +kernel)
  simp only [decide_eq_true_eq] at hs
  refine ⟨s, hreach, hs.1, ?_, hs.2⟩
  intro hsound
  have hobsolete := hsound.obsoleteBit hs.2.2.2.1
  simp [hs.2.2.2.2] at hobsolete

end Sound
end OptimisticLatch
end SyncPrimitives
