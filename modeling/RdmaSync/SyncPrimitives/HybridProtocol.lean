import RdmaSync.SyncPrimitives.HybridLatch

/-!
This module contains the protocol that the calls to a hybrid latch keep to.
-/

namespace SyncPrimitives
namespace HybridLatch

open Threads

variable {T : Type}

/-- The version counts the stores. Each time the mutex is held exclusively there are two of them. -/
structure Inv (l : HybridLatch T) : Prop where
  version : l.version = BitVec.ofNat 64 (4 + 2 * l.stores)
  free : l.exclusive = none → l.stores = 2 * l.acquired.length
  held : ∀ t, l.exclusive = some t → l.acquired.head? = some t ∧ l.shared = []
    ∧ 2 * l.acquired.length ≤ l.stores + 2 ∧ l.stores ≤ 2 * l.acquired.length

structure Permit (t : T) (l l' : HybridLatch T) : Prop where
  version : l.exclusive ≠ some t → l'.version = l.version ∧ l'.stores = l.stores
  stores : l.stores ≤ l'.stores
  exclusive : ∀ u ≠ t, l'.exclusive = some u ↔ l.exclusive = some u
  acquired : l'.acquired = l.acquired ∨ l.exclusive = none ∧ l'.acquired = t :: l.acquired
  shared : ∀ u ≠ t, u ∈ l.shared → u ∈ l'.shared

structure Holds (t : T) (p : Nat) (v : Version) (l : HybridLatch T) : Prop where
  exclusive : l.exclusive = some t
  stores : l.stores + 2 = 2 * l.acquired.length + p
  version : l.version = v

structure Shares (t : T) (v : Version) (l : HybridLatch T) : Prop where
  shared : t ∈ l.shared
  version : l.version = v

/-- If thread `t` holds the mutex exclusively, it has stored once. -/
def Idle (t : T) (l : HybridLatch T) : Prop :=
  l.exclusive = some t → l.stores + 1 = 2 * l.acquired.length

/--
Thread `t` has released the latch at version `v`. If nobody has acquired it since, `t` is the latest
to have held it.
-/
def Released (t : T) (v : Version) (l : HybridLatch T) : Prop :=
  ∃ n, v = BitVec.ofNat 64 (4 + 4 * n) ∧ n ≤ l.acquired.length
    ∧ (l.acquired.length = n → l.acquired.head? = some t)

def Returns (t : T) (call : Call) (r : Result) (l : HybridLatch T) : Prop :=
  match call, r with
  | .optimisticLatchOrRestart, .version (some v)
  | .downgradeExclusiveToOptimistic, .version (some v)
  | .downgradeSharedToOptimistic, .version (some v) => l.version = v ∧ isLatched v = false
  | .optimisticReadUnlatchOrRestart v, .answer true
  | .optimisticUpgradeToShared v, .answer true => l.version = v
  | .optimisticUpgradeToExclusive v, .answer true => Holds t 1 (v + 0b10) l
  | .tryDowngradeExclusiveToShared, .answer true =>
    l.acquired.length < 2 ^ 61 → l.acquired.head? = some t
  | _, _ => True

def spec : Spec T (HybridLatch T) Call Result where
  inv := Inv
  permit := Permit
  idle := Idle
  result := Returns

section Inv

variable {l l' : HybridLatch T} {t : T} {p : Nat} {v : Version}

theorem inv_created : Inv (created : HybridLatch T) where
  version := rfl
  free := by simp [created]
  held := by simp [created]

theorem Inv.isLatched (h : Inv l) : isLatched l.version = decide (l.stores % 2 = 1) := by
  rw [isLatched_eq, h.version, BitVec.toNat_ofNat]
  congr 1
  simp only [eq_iff_iff]
  omega

theorem Inv.isLatched_of_holds (h : Inv l) (hholds : Holds t p v l)
    : SyncPrimitives.isLatched v = decide (p % 2 = 1) := by
  rw [← hholds.version, h.isLatched]
  have hstores := hholds.stores
  congr 1
  simp only [eq_iff_iff]
  omega

theorem Inv.exclusive_of_shares (h : Inv l) (hshares : Shares t v l) : l.exclusive = none := by
  cases hexclusive : l.exclusive with
  | none => rfl
  | some u =>
    have hshared := hshares.shared
    simp [(h.held u hexclusive).2.1] at hshared

theorem Inv.not_isLatched_of_free (h : Inv l) (hfree : l.exclusive = none)
    : SyncPrimitives.isLatched l.version = false := by
  rw [h.isLatched, h.free hfree]
  simp

theorem Inv.stores_le (h : Inv l) : l.stores ≤ 2 * l.acquired.length := by
  cases hexclusive : l.exclusive with
  | none => exact (h.free hexclusive).le
  | some u => exact (h.held u hexclusive).2.2.2

/-- As long as the version has not wrapped around, equal versions have equal numbers of stores. -/
theorem Inv.stores_eq (h : Inv l) (hlength : l.acquired.length < 2 ^ 61) {n : Nat} (hn : n ≤ l.stores)
    (hversion : l.version = BitVec.ofNat 64 (4 + 2 * n)) : l.stores = n := by
  have hle := h.stores_le
  have heq := congrArg BitVec.toNat (h.version.symm.trans hversion)
  simp only [BitVec.toNat_ofNat] at heq
  omega

end Inv
section Stable

variable {t : T} {p : Nat} {v : Version}

theorem stable_holds : (spec (T := T)).Stable t (Holds t p v) := by
  rintro u l l' hu hinv - hpermit ⟨hexclusive, hstores, hversion⟩
  have hne : l.exclusive ≠ some u := by simp [hexclusive, Ne.symm hu]
  obtain ⟨hversion', hstores'⟩ := hpermit.version hne
  have hacquired := hpermit.acquired
  simp only [hexclusive, reduceCtorEq, false_and, or_false] at hacquired
  exact ⟨(hpermit.exclusive t (Ne.symm hu)).mpr hexclusive, by rw [hstores', hacquired, hstores],
    hversion'.trans hversion⟩

theorem stable_shares : (spec (T := T)).Stable t (Shares t v) := by
  rintro u l l' hu hinv - hpermit hshares
  have hne : l.exclusive ≠ some u := by simp [Inv.exclusive_of_shares hinv hshares]
  exact ⟨hpermit.shared t (Ne.symm hu) hshares.shared, (hpermit.version hne).1.trans hshares.version⟩

theorem stable_idle : (spec (T := T)).Stable t (Idle t) := by
  intro u l l' hu hinv hinv' hpermit hidle hexclusive
  have hexclusive := (hpermit.exclusive t (Ne.symm hu)).mp hexclusive
  have hstores := hidle hexclusive
  have hholds : Holds t 1 l.version l := ⟨hexclusive, by omega, rfl⟩
  have hstores' := (stable_holds hu hinv hinv' hpermit hholds).stores
  omega

theorem stable_released : (spec (T := T)).Stable t (Released t v) := by
  rintro u l l' hu hinv - hpermit ⟨n, hv, hn, hhead⟩
  refine ⟨n, hv, ?_⟩
  obtain hacquired | ⟨_, hacquired⟩ := hpermit.acquired
  . rw [hacquired]
    exact ⟨hn, hhead⟩
  . rw [hacquired]
    simp only [List.length_cons]
    omega

end Stable
end HybridLatch
end SyncPrimitives
