import RdmaSync.SyncPrimitives.HybridRules

/-!
This module contains the soundness of the hybrid latch: its assertions hold, its version changes only
under the exclusive mutex, and a version that has not changed witnesses that no thread was in its
exclusive section.
-/

namespace SyncPrimitives
namespace HybridLatch

open Threads Spec

variable {T : Type} [DecidableEq T] {me : T} {call : Call} {l : HybridLatch T} {v : Version}

section Calls

theorem arrives_latchExclusive_call (h : Idle me l)
    : spec.Arrives me .latchExclusive (body me .latchExclusive) l := by
  simp only [body, latchExclusive, Prog.bind_assoc]
  refine arrives_lock h fun v l _ h => ?_
  refine arrives_load_of_holds h fun l _ h => ?_
  refine arrives_store h (by decide) fun l _ h => ?_
  refine arrives_ensure_isLatched h fun l _ h => ?_
  exact Arrives.ret (idle_of_holds h) trivial

theorem arrives_tryDowngradeExclusiveToShared (h : Holds me 1 v l)
    : spec.Arrives me .tryDowngradeExclusiveToShared (body me .tryDowngradeExclusiveToShared) l := by
  simp only [body, tryDowngradeExclusiveToShared, Prog.bind_assoc]
  refine arrives_ensure_isLatched h fun l _ h => ?_
  refine arrives_load_of_holds h fun l _ h => ?_
  refine arrives_store h (by decide) fun l _ h => ?_
  refine arrives_ensure_not_isLatched h fun l _ h => ?_
  refine arrives_unlock h fun l hinv hfree hversion hhead => ?_
  have hreleased : Released me (v + 0b10) l := by
    refine ⟨l.acquired.length, ?_, le_refl _, fun _ => hhead⟩
    rw [← hversion, hinv.version, hinv.free hfree]
    congr 1
    omega
  refine arrives_latchShared (Released me (v + 0b10)) stable_released (fun _ h => h) hreleased ?_
  intro v' l _ hreleased hshares
  refine arrives_load_of_shares _ stable_released hreleased hshares fun l hinv hreleased hshares => ?_
  split
  . simp only [Prog.bind_assoc]
    refine arrives_unlatchShared hshares fun l hinv hfree _ => ?_
    exact Arrives.ret (idle_of_free hfree) trivial
  . next hversion =>
    have hfree := hinv.exclusive_of_shares hshares
    refine Arrives.ret (idle_of_free hfree) ?_
    intro hlength
    obtain ⟨n, hv, hn, hhead⟩ := hreleased
    apply hhead
    have hstores := hinv.free hfree
    have heq := hinv.stores_eq hlength (n := 2 * n) (by omega) ?_
    . omega
    . simp only [bne_iff_ne, ne_eq, not_not] at hversion
      rw [hshares.version, ← hversion, hv]
      congr 1
      omega

theorem arrives_optimisticUpgradeToShared (startRead : Version) (h : Idle me l)
    : spec.Arrives me (.optimisticUpgradeToShared startRead)
      (body me (.optimisticUpgradeToShared startRead)) l := by
  simp only [body, optimisticUpgradeToShared, Prog.bind_assoc, Prog.bind_ite]
  refine arrives_load h fun l hinv h => ?_
  split
  . exact Arrives.ret h trivial
  . split
    . exact Arrives.ret h trivial
    . refine arrives_tryLatchShared h (fun l _ h => Arrives.ret h trivial) fun v l _ hshares => ?_
      simp only [Bool.not_true, Bool.false_eq_true, ↓reduceIte]
      refine arrives_load_of_shares (fun _ => True) (by simp [Stable]) trivial hshares ?_
      intro l hinv _ hshares
      have hfree := hinv.exclusive_of_shares hshares
      split
      . next hversion =>
        exact Arrives.ret (idle_of_free hfree) (hshares.version.trans (by simpa using hversion))
      . refine arrives_unlatchShared hshares fun l hinv hfree _ => ?_
        exact Arrives.ret (idle_of_free hfree) trivial

theorem arrives_optimisticUpgradeToExclusive (startRead : Version) (h : Idle me l)
    : spec.Arrives me (.optimisticUpgradeToExclusive startRead)
      (body me (.optimisticUpgradeToExclusive startRead)) l := by
  simp only [body, optimisticUpgradeToExclusive, Prog.bind_assoc, Prog.bind_ite]
  refine arrives_load h fun l hinv h => ?_
  split
  . exact Arrives.ret h trivial
  . refine arrives_tryLatchExclusive h (fun l _ h => Arrives.ret h trivial) fun v l _ h => ?_
    simp only [Bool.not_true, Bool.false_eq_true, ↓reduceIte]
    refine arrives_load_of_holds h fun l _ h => ?_
    split
    . refine arrives_ensure_isLatched h fun l _ h => ?_
      refine arrives_unlatchExclusive h fun l _ hfree _ => ?_
      exact Arrives.ret (idle_of_free hfree) trivial
    . next hversion =>
      refine arrives_ensure_isLatched h fun l _ h => ?_
      simp only [bne_iff_ne, ne_eq, not_not] at hversion
      refine Arrives.ret (idle_of_holds h) ?_
      show Holds me 1 (startRead + 0b10) l
      rwa [hversion]

theorem arrives_body (hidle : Idle me l) (hmay : mayCall me call l = true)
    : spec.Arrives me call (body me call) l := by
  cases call with
  | latchShared =>
    refine arrives_latchShared (fun _ => True) (by simp [Stable]) (fun _ _ => trivial) trivial ?_
    intro v l hinv _ hshares
    exact Arrives.ret (idle_of_free (hinv.exclusive_of_shares hshares)) trivial
  | unlatchShared =>
    have hshares : Shares me l.version l := ⟨by simpa [mayCall] using hmay, rfl⟩
    exact arrives_unlatchShared hshares fun l _ hfree _ => Arrives.ret (idle_of_free hfree) trivial
  | latchExclusive => exact arrives_latchExclusive_call hidle
  | unlatchExclusive =>
    have hholds := holds_of_idle hidle (by simpa [mayCall] using hmay)
    exact arrives_unlatchExclusive hholds fun l _ hfree _ => Arrives.ret (idle_of_free hfree) trivial
  | tryDowngradeExclusiveToShared =>
    exact arrives_tryDowngradeExclusiveToShared (holds_of_idle hidle (by simpa [mayCall] using hmay))
  | tryLatchExclusive =>
    refine arrives_tryLatchExclusive hidle (fun l _ h => Arrives.ret h trivial) ?_
    intro v l _ hholds
    exact Arrives.ret (idle_of_holds hholds) trivial
  | tryLatchShared =>
    refine arrives_tryLatchShared hidle (fun l _ h => Arrives.ret h trivial) ?_
    intro v l hinv hshares
    exact Arrives.ret (idle_of_free (hinv.exclusive_of_shares hshares)) trivial
  | downgradeExclusiveToOptimistic =>
    have hholds := holds_of_idle hidle (by simpa [mayCall] using hmay)
    simp only [body, downgradeExclusiveToOptimistic, Prog.bind_assoc]
    refine arrives_load_of_holds hholds fun l _ h => ?_
    refine arrives_unlatchExclusive h fun l hinv hfree hversion => ?_
    refine Arrives.ret (idle_of_free hfree) ⟨hversion, ?_⟩
    rw [← hversion]
    exact hinv.not_isLatched_of_free hfree
  | downgradeSharedToOptimistic =>
    have hshares : Shares me l.version l := ⟨by simpa [mayCall] using hmay, rfl⟩
    simp only [body, downgradeSharedToOptimistic, Prog.bind_assoc]
    refine arrives_load_of_shares (fun _ => True) (by simp [Stable]) trivial hshares ?_
    intro l _ _ hshares
    refine arrives_unlatchShared hshares fun l hinv hfree hversion => ?_
    refine Arrives.ret (idle_of_free hfree) ⟨hversion, ?_⟩
    rw [← hversion]
    exact hinv.not_isLatched_of_free hfree
  | optimisticUpgradeToShared startRead => exact arrives_optimisticUpgradeToShared startRead hidle
  | optimisticUpgradeToExclusive startRead =>
    exact arrives_optimisticUpgradeToExclusive startRead hidle
  | optimisticLatchOrRestart =>
    simp only [body, optimisticLatchOrRestart, Prog.bind_assoc, Prog.bind_ite]
    refine arrives_load hidle fun l _ h => ?_
    split
    . exact Arrives.ret h trivial
    . next hlatched => exact Arrives.ret h ⟨rfl, by simpa using hlatched⟩
  | optimisticReadUnlatchOrRestart startRead =>
    simp only [body, optimisticReadUnlatchOrRestart, Prog.bind_assoc]
    refine arrives_load hidle fun l _ h => Arrives.ret h ?_
    cases heq : startRead == l.version with
    | true => exact (by simpa using heq : startRead = l.version).symm
    | false => trivial

theorem meets : (interface (T := T)).Meets spec where
  idle_stable := fun _ => stable_idle
  calls := fun _ _ _ _ hidle hmay => arrives_body hidle hmay

end Calls

/-- The calls that return a version to an optimistic reader. -/
def Call.Obtains (call : Call) : Prop :=
  call = .optimisticLatchOrRestart ∨ call = .downgradeExclusiveToOptimistic
    ∨ call = .downgradeSharedToOptimistic

def Call.Validates (call : Call) (v : Version) : Prop :=
  call = .optimisticReadUnlatchOrRestart v ∨ call = .optimisticUpgradeToShared v
    ∨ call = .optimisticUpgradeToExclusive v

def InSection (l : HybridLatch T) (t : T) : Prop :=
  l.exclusive = some t ∧ isLatched l.version = true

structure Sound (s : Config T (HybridLatch T) Call Result) : Prop where
  ensures : ∀ t call, s.thread t ≠ .running call .fail
  unlatched : s.shared.exclusive = none → isLatched s.shared.version = false
  /-- A thread that holds the latch exclusively between two calls is in its exclusive section. -/
  latched : ∀ t, s.thread t = .idle → s.shared.exclusive = some t → InSection s.shared t
  changes : ∀ a s', interface.step s a = some s' → s'.shared.version ≠ s.shared.version
    → s.shared.exclusive = some a.thread
  /-- A version that is still valid: no other thread was in its section since it was obtained. -/
  optimistic : ∀ s₁ s₁' s₂ s₃ me call₁ call₃ v t,
    Step.Reach interface.step Step.any (Interface.start created) s₁
    → interface.LastStep s₁ me call₁ (.version (some v)) s₁' → call₁.Obtains
    → Step.Reach interface.step Step.any s₁' s₂ → Step.Reach interface.step Step.any s₂ s₃
    → interface.LastStep s₃ me call₃ (.answer true) s → call₃.Validates v
    → t ≠ me → ¬ InSection s₂.shared t
  /-- The same since a thread held the latch that it has downgraded and not acquired since. -/
  downgrade : ∀ s₁ s₂ s₃ me t,
    Step.Reach interface.step Step.any (Interface.start created) s₁
    → s₁.shared.exclusive = some me
    → Step.Reach interface.step Step.any s₁ s₂ → Step.Reach interface.step Step.any s₂ s₃
    → interface.LastStep s₃ me .tryDowngradeExclusiveToShared (.answer true) s
    → s.shared.acquired.count me = s₁.shared.acquired.count me
    → t ≠ me → s₂.shared.exclusive ≠ some t

section Sound

variable {s s' s₁ s₁' s₂ s₃ : Config T (HybridLatch T) Call Result} {t : T}

theorem ok_of_reach (h : Step.Reach interface.step Step.any (Interface.start created) s)
    : spec.Ok s :=
  Spec.ok_of_reach h meets inv_created (by simp [spec, Idle, created])

theorem grows_of_reach (hok : spec.Ok s) (h : Step.Reach interface.step Step.any s s')
    : (s.shared.stores ≤ s'.shared.stores ∧ s.shared.acquired <:+ s'.shared.acquired)
      ∧ spec.Ok s' := by
  refine relation_of_reach (fun l l' => l.stores ≤ l'.stores ∧ l.acquired <:+ l'.acquired)
    hok meets h (fun _ => ⟨le_refl _, List.suffix_refl _⟩) ?_ ?_
  . rintro l l' l'' ⟨hle, hsuffix⟩ ⟨hle', hsuffix'⟩
    exact ⟨hle.trans hle', hsuffix.trans hsuffix'⟩
  . intro t l l' _ _ hpermit
    refine ⟨hpermit.stores, ?_⟩
    obtain hacquired | ⟨_, hacquired⟩ := hpermit.acquired
    . exact hacquired ▸ List.suffix_refl _
    . rw [hacquired]
      exact List.suffix_cons _ _

omit [DecidableEq T] in
/-- In an exclusive section the number of stores tells how often the latch was acquired. -/
theorem Inv.inSection (hinv : Inv l) (h : InSection l t)
    : l.stores + 1 = 2 * l.acquired.length ∧ l.acquired.head? = some t := by
  obtain ⟨hexclusive, hlatched⟩ := h
  rw [hinv.isLatched] at hlatched
  obtain ⟨hhead, _, hle, hle'⟩ := hinv.held t hexclusive
  simp only [decide_eq_true_eq] at hlatched
  exact ⟨by omega, hhead⟩

theorem reach_of_lastStep {r : Result} (h : interface.LastStep s t call r s')
    : Step.Reach interface.step Step.any s s' := by
  obtain ⟨choice, hstep, _⟩ := h
  exact .next _ .refl trivial hstep

theorem eq_of_suffix_of_count {xs ys : List T} (hsuffix : xs <:+ ys) (hhead : ys.head? = some t)
    (hcount : ys.count t = xs.count t) : xs = ys := by
  obtain ⟨zs, rfl⟩ := hsuffix
  cases zs with
  | nil => rfl
  | cons z zs =>
    simp only [List.cons_append, List.head?_cons, Option.some.injEq] at hhead
    simp only [hhead, List.cons_append, List.count_cons_self, List.count_append] at hcount
    omega

omit [DecidableEq T] in
theorem version_of_obtains {call : Call} (h : call.Obtains)
    (hreturns : Returns me call (.version (some v)) l) : l.version = v ∧ isLatched v = false := by
  obtain rfl | rfl | rfl := h <;> exact hreturns

omit [DecidableEq T] in
theorem version_of_validates {call : Call} (h : call.Validates v)
    (hreturns : Returns me call (.answer true) l) : l.version = v ∨ Holds me 1 (v + 0b10) l := by
  obtain rfl | rfl | rfl := h
  . exact .inl hreturns
  . exact .inl hreturns
  . exact .inr hreturns

omit [DecidableEq T] in
theorem stores_of_valid {l₁ : HybridLatch T} (hinv₁ : Inv l₁) (hinv : Inv l)
    (hlength : l.acquired.length < 2 ^ 61) (hle : l₁.stores ≤ l.stores)
    (hobtained : l₁.version = v ∧ isLatched v = false)
    (hvalid : l.version = v ∨ Holds me 1 (v + 0b10) l)
    : l₁.stores % 2 = 0 ∧ (l.stores = l₁.stores
      ∨ l.stores = l₁.stores + 1 ∧ l.exclusive = some me) := by
  obtain ⟨rfl, hlatched⟩ := hobtained
  have heven : l₁.stores % 2 = 0 := by
    rw [hinv₁.isLatched] at hlatched
    simp only [decide_eq_false_iff_not] at hlatched
    omega
  refine ⟨heven, ?_⟩
  obtain hversion | hholds := hvalid
  . exact .inl (hinv.stores_eq hlength hle (hversion.trans hinv₁.version))
  . have hstores := hholds.stores
    refine .inr ⟨hinv.stores_eq hlength (by omega) ?_, hholds.exclusive⟩
    have htwo : (0b10 : Version).toNat = 2 := rfl
    simp only [hholds.version, hinv₁.version, BitVec.toNat_eq, BitVec.toNat_add,
      BitVec.toNat_ofNat, htwo]
    omega

theorem sound_optimistic {call₁ call₃ : Call}
    (h₁ : Step.Reach interface.step Step.any (Interface.start created) s₁)
    (hlast₁ : interface.LastStep s₁ me call₁ (.version (some v)) s₁') (hobtains : call₁.Obtains)
    (h₂ : Step.Reach interface.step Step.any s₁' s₂) (h₃ : Step.Reach interface.step Step.any s₂ s₃)
    (hlast₃ : interface.LastStep s₃ me call₃ (.answer true) s) (hvalidates : call₃.Validates v)
    (hlength : s.shared.acquired.length < 2 ^ 61) (ht : t ≠ me) : ¬ InSection s₂.shared t := by
  intro hsection
  have hok₁ := ok_of_reach h₁
  have hobtained := version_of_obtains hobtains (hok₁.lastStep meets hlast₁)
  have hok₁' := (grows_of_reach hok₁ (reach_of_lastStep hlast₁)).2
  obtain ⟨⟨hle₂, _⟩, hok₂⟩ := grows_of_reach hok₁' h₂
  obtain ⟨_, hok₃⟩ := grows_of_reach hok₂ h₃
  obtain ⟨⟨hle, hsuffix⟩, hok⟩ := grows_of_reach hok₂ (h₃.trans (reach_of_lastStep hlast₃))
  have hvalid := version_of_validates hvalidates (hok₃.lastStep meets hlast₃)
  obtain ⟨heven, hstores⟩ :=
    stores_of_valid hok₁'.inv hok.inv hlength (hle₂.trans hle) hobtained hvalid
  obtain ⟨hodd, hhead⟩ := Inv.inSection hok₂.inv hsection
  obtain hstores | ⟨hstores, hexclusive⟩ := hstores
  . omega
  . -- The section is the one that the upgrade has begun.
    obtain ⟨hhead', _, hle', hle''⟩ := Inv.held hok.inv me hexclusive
    have heq := hsuffix.eq_of_length (by omega)
    rw [heq, hhead'] at hhead
    exact ht (Option.some.inj hhead).symm

theorem sound_downgrade (h₁ : Step.Reach interface.step Step.any (Interface.start created) s₁)
    (h₂ : Step.Reach interface.step Step.any s₁ s₂) (h₃ : Step.Reach interface.step Step.any s₂ s₃)
    (hlast : interface.LastStep s₃ me .tryDowngradeExclusiveToShared (.answer true) s)
    (hcount : s.shared.acquired.count me = s₁.shared.acquired.count me)
    (hlength : s.shared.acquired.length < 2 ^ 61) (ht : t ≠ me)
    : s₂.shared.exclusive ≠ some t := by
  intro hother
  have hok₁ := ok_of_reach h₁
  obtain ⟨⟨_, hsuffix₂⟩, hok₂⟩ := grows_of_reach hok₁ h₂
  obtain ⟨_, hok₃⟩ := grows_of_reach hok₂ h₃
  obtain ⟨⟨_, hsuffix⟩, _⟩ := grows_of_reach hok₂ (h₃.trans (reach_of_lastStep hlast))
  have hhead := hok₃.lastStep meets hlast hlength
  have heq := eq_of_suffix_of_count (hsuffix₂.trans hsuffix) hhead hcount
  have hlength₂ := hsuffix₂.length_le
  have hlength := hsuffix.length_le
  have heq₂ := hsuffix.eq_of_length (by rw [← heq] at *; omega)
  have hhead₂ := (Inv.held hok₂.inv t hother).1
  rw [heq₂, hhead] at hhead₂
  exact ht (Option.some.inj hhead₂).symm

theorem hybridLatch_sound (h : Step.Reach interface.step Step.any (Interface.start created) s)
    (hlength : s.shared.acquired.length < 2 ^ 61) : Sound s := by
  have hok := ok_of_reach h
  refine ⟨?_, ?_, ?_, ?_, ?_, ?_⟩
  . intro t call hthread
    exact hok.not_fail hthread
  . intro hfree
    exact Inv.not_isLatched_of_free hok.inv hfree
  . intro t hthread hexclusive
    have hholds := holds_of_idle (hok.idle hthread) hexclusive
    exact ⟨hexclusive, Inv.isLatched_of_holds hok.inv hholds⟩
  . intro a s' hstep hversion
    obtain ⟨_, hshared | hpermit, _⟩ := hok.moves meets (Interface.moves_of_step hstep)
    . simp [hshared] at hversion
    . by_contra hexclusive
      exact hversion (hpermit.version hexclusive).1
  . intro s₁ s₁' s₂ s₃ me call₁ call₃ v t h₁ hlast₁ hobtains h₂ h₃ hlast₃ hvalidates ht
    exact sound_optimistic h₁ hlast₁ hobtains h₂ h₃ hlast₃ hvalidates hlength ht
  . intro s₁ s₂ s₃ me t h₁ _ h₂ h₃ hlast hcount ht
    exact sound_downgrade h₁ h₂ h₃ hlast hcount hlength ht

def readAndLatch : List (Action Bool Call) :=
  [.call true .optimisticLatchOrRestart, .step true true, .call false .latchExclusive] ++
    List.replicate 5 (.step false true) ++ [.call false .unlatchExclusive] ++
    List.replicate 5 (.step false true)

theorem hybridLatch_sound_readAndLatch
    : ∃ s : Config Bool (HybridLatch Bool) Call Result, s.shared.version = 8 ∧ Sound s := by
  obtain ⟨s, hreach, hs⟩ := Step.exists_reach_of_run
    (show (Step.run interface.step (Interface.start created) readAndLatch).any (fun s =>
      s.shared.version = 8 ∧ s.shared.acquired = [false]) = true by decide +kernel)
  simp only [decide_eq_true_eq] at hs
  exact ⟨s, hs.1, hybridLatch_sound hreach (by simp [hs.2])⟩

end Sound
end HybridLatch
end SyncPrimitives
