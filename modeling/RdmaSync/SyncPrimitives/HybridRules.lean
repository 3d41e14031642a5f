import RdmaSync.SyncPrimitives.HybridProtocol

/-!
This module contains the rules for the calls to a hybrid latch: each of them keeps to the protocol.
-/

namespace SyncPrimitives
namespace HybridLatch

open Threads Spec

variable {T : Type} {me : T} {call : Call} {l : HybridLatch T} {p : Nat} {v : Version}

section Steps

theorem permit_refl : Permit me l l where
  version := fun _ => ⟨rfl, rfl⟩
  stores := le_refl _
  exclusive := fun _ _ => Iff.rfl
  acquired := .inl rfl
  shared := fun _ _ h => h

theorem permit_acquire (hfree : l.exclusive = none) : Permit me l (acquire me l) where
  version := fun _ => ⟨rfl, rfl⟩
  stores := le_refl _
  exclusive := by simp [acquire, hfree, eq_comm]
  acquired := .inr ⟨hfree, rfl⟩
  shared := fun _ _ h => h

theorem inv_acquire (hinv : Inv l) (hfree : isFree l = true) : Inv (acquire me l) where
  version := hinv.version
  free := by simp [acquire]
  held := by
    simp only [isFree, Bool.and_eq_true, Option.isNone_iff_eq_none, List.isEmpty_iff] at hfree
    have hstores := hinv.free hfree.1
    intro t ht
    refine ⟨ht, hfree.2, ?_⟩
    simp only [acquire, List.length_cons]
    omega

theorem holds_acquire (hinv : Inv l) (hfree : l.exclusive = none)
    : Holds me 0 l.version (acquire me l) where
  exclusive := rfl
  stores := by simp [acquire, hinv.free hfree]; omega
  version := rfl

theorem inv_store (hinv : Inv l) (hholds : Holds me p v l) (hp : p < 2)
    : Inv { l with version := v + 0b10, stores := l.stores + 1 } where
  version := by
    have hversion := hholds.version.symm.trans hinv.version
    have htwo : (0b10 : Version).toNat = 2 := rfl
    simp only [hversion, BitVec.toNat_eq, BitVec.toNat_add, BitVec.toNat_ofNat, htwo]
    omega
  free := by simp [hholds.exclusive]
  held := by
    intro t ht
    obtain ⟨hhead, hshared, _⟩ := hinv.held t ht
    have hstores := hholds.stores
    refine ⟨hhead, hshared, ?_⟩
    dsimp
    omega

theorem permit_store (hholds : Holds me p v l)
    : Permit me l { l with version := v + 0b10, stores := l.stores + 1 } where
  version := fun hne => absurd hholds.exclusive hne
  stores := Nat.le_succ _
  exclusive := fun _ _ => Iff.rfl
  acquired := .inl rfl
  shared := fun _ _ h => h

theorem inv_unlock (hinv : Inv l) (hholds : Holds me 2 v l) : Inv { l with exclusive := none } where
  version := hinv.version
  free := by
    intro _
    have hstores := hholds.stores
    dsimp
    omega
  held := by simp

theorem permit_unlock (hholds : Holds me p v l) : Permit me l { l with exclusive := none } where
  version := fun _ => ⟨rfl, rfl⟩
  stores := le_refl _
  exclusive := by
    intro u hu
    simp [hholds.exclusive, Ne.symm hu]
  acquired := .inl rfl
  shared := fun _ _ h => h

theorem inv_share (hinv : Inv l) (hfree : l.exclusive = none) : Inv (share me l) where
  version := hinv.version
  free := hinv.free
  held := by simp [share, hfree]

theorem permit_share : Permit me l (share me l) where
  version := fun _ => ⟨rfl, rfl⟩
  stores := le_refl _
  exclusive := fun _ _ => Iff.rfl
  acquired := .inl rfl
  shared := fun _ _ h => List.mem_cons_of_mem _ h

theorem inv_unlockShared [DecidableEq T] (hinv : Inv l) (hfree : l.exclusive = none)
    : Inv { l with shared := l.shared.erase me } where
  version := hinv.version
  free := hinv.free
  held := by simp [hfree]

theorem permit_unlockShared [DecidableEq T]
    : Permit me l { l with shared := l.shared.erase me } where
  version := fun _ => ⟨rfl, rfl⟩
  stores := le_refl _
  exclusive := fun _ _ => Iff.rfl
  acquired := .inl rfl
  shared := by
    intro u hu hshared
    exact (List.mem_erase_of_ne hu).mpr hshared

end Steps
section Rules

variable {k : Version → Prog (HybridLatch T) Result} {k' : Unit → Prog (HybridLatch T) Result}
  {k'' : Bool → Prog (HybridLatch T) Result}

theorem arrives_load_of_holds (h : Holds me p v l)
    (hk : ∀ l, Inv l → Holds me p v l → spec.Arrives me call (k v) l)
    : spec.Arrives me call (loadVersion >>= k) l := by
  refine Arrives.load (Holds me p v) stable_holds h (fun _ _ _ => permit_refl) ?_
  intro l hinv hholds
  rw [hholds.version]
  exact hk l hinv hholds

theorem arrives_load_of_shares (A : HybridLatch T → Prop) (hstable : spec.Stable me A) (hA : A l)
    (h : Shares me v l) (hk : ∀ l, Inv l → A l → Shares me v l → spec.Arrives me call (k v) l)
    : spec.Arrives me call (loadVersion >>= k) l := by
  refine Arrives.load _ (hstable.and stable_shares) ⟨hA, h⟩ (fun _ _ _ => permit_refl) ?_
  rintro l hinv ⟨hA, hshares⟩
  rw [hshares.version]
  exact hk l hinv hA hshares

theorem arrives_load (h : Idle me l)
    (hk : ∀ l, Inv l → Idle me l → spec.Arrives me call (k l.version) l)
    : spec.Arrives me call (loadVersion >>= k) l :=
  Arrives.load (Idle me) stable_idle h (fun _ _ _ => permit_refl) hk

theorem arrives_store (h : Holds me p v l) (hp : p < 2)
    (hk : ∀ l, Inv l → Holds me (p + 1) (v + 0b10) l → spec.Arrives me call (k' ()) l)
    : spec.Arrives me call (storeVersion (v + 0b10) >>= k') l := by
  refine Arrives.store (Holds me p v) stable_holds h ?_
  intro l hinv hholds
  have hinv' := inv_store hinv hholds hp
  have hstores := hholds.stores
  exact ⟨hinv', permit_store hholds, hk _ hinv' ⟨hholds.exclusive, by dsimp; omega, rfl⟩⟩

theorem arrives_unlock (h : Holds me 2 v l)
    (hk : ∀ l, Inv l → l.exclusive = none → l.version = v → l.acquired.head? = some me
      → spec.Arrives me call (k' ()) l)
    : spec.Arrives me call (unlock >>= k') l := by
  refine Arrives.store (Holds me 2 v) stable_holds h ?_
  intro l hinv hholds
  have hinv' := inv_unlock hinv hholds
  exact ⟨hinv', permit_unlock hholds,
    hk _ hinv' rfl hholds.version (hinv.held me hholds.exclusive).1⟩

theorem arrives_lock (h : Idle me l)
    (hk : ∀ v l, Inv l → Holds me 0 v l → spec.Arrives me call (k' ()) l)
    : spec.Arrives me call (lock me >>= k') l := by
  refine Arrives.await (Idle me) stable_idle h ?_
  intro l hinv _ hfree
  have hinv' : Inv (acquire me l) := inv_acquire hinv hfree
  simp only [isFree, Bool.and_eq_true, Option.isNone_iff_eq_none] at hfree
  exact ⟨hinv', permit_acquire hfree.1, hk _ _ hinv' (holds_acquire hinv hfree.1)⟩

theorem arrives_tryLock (h : Idle me l)
    (hfail : ∀ l, Inv l → Idle me l → spec.Arrives me call (k'' false) l)
    (hk : ∀ v l, Inv l → Holds me 0 v l → spec.Arrives me call (k'' true) l)
    : spec.Arrives me call (tryLock me >>= k'') l := by
  refine Arrives.attempt (Idle me) stable_idle h (fun _ _ _ => permit_refl) hfail ?_
  intro l hinv _ hfree
  have hinv' : Inv (acquire me l) := inv_acquire hinv hfree
  simp only [isFree, Bool.and_eq_true, Option.isNone_iff_eq_none] at hfree
  exact ⟨hinv', permit_acquire hfree.1, hk _ _ hinv' (holds_acquire hinv hfree.1)⟩

theorem arrives_lockShared (A : HybridLatch T → Prop) (hstable : spec.Stable me A)
    (hshare : ∀ l, A l → A (share me l)) (hA : A l)
    (hk : ∀ v l, Inv l → A l → Shares me v l → spec.Arrives me call (k' ()) l)
    : spec.Arrives me call (lockShared me >>= k') l := by
  refine Arrives.await A hstable hA ?_
  intro l hinv hA hfree
  have hinv' : Inv (share me l) := inv_share hinv (by simpa using hfree)
  exact ⟨hinv', permit_share, hk _ _ hinv' (hshare l hA) ⟨List.mem_cons_self, rfl⟩⟩

theorem arrives_tryLatchShared (h : Idle me l)
    (hfail : ∀ l, Inv l → Idle me l → spec.Arrives me call (k'' false) l)
    (hk : ∀ v l, Inv l → Shares me v l → spec.Arrives me call (k'' true) l)
    : spec.Arrives me call (tryLatchShared me >>= k'') l := by
  refine Arrives.attempt (Idle me) stable_idle h (fun _ _ _ => permit_refl) hfail ?_
  intro l hinv _ hfree
  have hinv' : Inv (share me l) := inv_share hinv (by simpa using hfree)
  exact ⟨hinv', permit_share, hk _ _ hinv' ⟨List.mem_cons_self, rfl⟩⟩

theorem arrives_unlatchShared [DecidableEq T] (h : Shares me v l)
    (hk : ∀ l, Inv l → l.exclusive = none → l.version = v → spec.Arrives me call (k' ()) l)
    : spec.Arrives me call (unlatchShared me >>= k') l := by
  refine Arrives.store (Shares me v) stable_shares h ?_
  intro l hinv hshares
  have hfree := hinv.exclusive_of_shares hshares
  have hinv' : Inv { l with shared := l.shared.erase me } := inv_unlockShared hinv hfree
  exact ⟨hinv', permit_unlockShared, hk _ hinv' hfree hshares.version⟩

end Rules
section Calls

variable {k : Version → Prog (HybridLatch T) Result} {k' : Unit → Prog (HybridLatch T) Result}
  {k'' : Bool → Prog (HybridLatch T) Result}

theorem idle_of_holds (h : Holds me 1 v l) : Idle me l := by
  intro _
  have hstores := h.stores
  omega

theorem idle_of_free (h : l.exclusive = none) : Idle me l := by
  intro hexclusive
  simp [h] at hexclusive

theorem holds_of_idle (h : Idle me l) (hexclusive : l.exclusive = some me)
    : Holds me 1 l.version l where
  exclusive := hexclusive
  stores := by have hstores := h hexclusive; omega
  version := rfl

theorem arrives_ensure_isLatched (h : Holds me 1 v l)
    (hk : ∀ l, Inv l → Holds me 1 v l → spec.Arrives me call (k' ()) l)
    : spec.Arrives me call (loadVersion >>= fun v => .ensure (isLatched v) >>= k') l := by
  refine arrives_load_of_holds h ?_
  intro l hinv hholds
  exact Arrives.ensure (hinv.isLatched_of_holds hholds) (hk l hinv hholds)

theorem arrives_ensure_not_isLatched (h : Holds me 2 v l)
    (hk : ∀ l, Inv l → Holds me 2 v l → spec.Arrives me call (k' ()) l)
    : spec.Arrives me call (loadVersion >>= fun v => .ensure (!isLatched v) >>= k') l := by
  refine arrives_load_of_holds h ?_
  intro l hinv hholds
  exact Arrives.ensure (by simp [hinv.isLatched_of_holds hholds]) (hk l hinv hholds)

theorem arrives_latchShared (A : HybridLatch T → Prop) (hstable : spec.Stable me A)
    (hshare : ∀ l, A l → A (share me l)) (hA : A l)
    (hk : ∀ v l, Inv l → A l → Shares me v l → spec.Arrives me call (k' ()) l)
    : spec.Arrives me call (latchShared me >>= k') l := by
  simp only [latchShared, Prog.bind_assoc]
  refine arrives_lockShared A hstable hshare hA ?_
  intro v l _ hA hshares
  refine arrives_load_of_shares A hstable hA hshares ?_
  intro l hinv hA hshares
  refine Arrives.ensure ?_ (hk v l hinv hA hshares)
  have hfree := hinv.not_isLatched_of_free (hinv.exclusive_of_shares hshares)
  simpa [hshares.version] using hfree

theorem arrives_unlatchExclusive (h : Holds me 1 v l)
    (hk : ∀ l, Inv l → l.exclusive = none → l.version = v + 0b10 → spec.Arrives me call (k' ()) l)
    : spec.Arrives me call (unlatchExclusive >>= k') l := by
  simp only [unlatchExclusive, Prog.bind_assoc]
  refine arrives_ensure_isLatched h fun l _ h => ?_
  refine arrives_load_of_holds h fun l _ h => ?_
  refine arrives_store h (by decide) fun l _ h => ?_
  refine arrives_ensure_not_isLatched h fun l _ h => ?_
  exact arrives_unlock h fun l hinv hfree hversion _ => hk l hinv hfree hversion

theorem arrives_tryLatchExclusive (h : Idle me l)
    (hfail : ∀ l, Inv l → Idle me l → spec.Arrives me call (k'' false) l)
    (hk : ∀ v l, Inv l → Holds me 1 v l → spec.Arrives me call (k'' true) l)
    : spec.Arrives me call (tryLatchExclusive me >>= k'') l := by
  simp only [tryLatchExclusive, Prog.bind_assoc]
  refine arrives_tryLock h (by simpa using hfail) fun v l _ h => ?_
  simp only [Bool.not_true, Bool.false_eq_true, ↓reduceIte, Prog.bind_assoc]
  refine arrives_load_of_holds h fun l _ h => ?_
  exact arrives_store h (by decide) fun l hinv h => hk _ l hinv h

end Calls
end HybridLatch
end SyncPrimitives
