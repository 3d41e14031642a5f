import Mathlib.Logic.Function.Basic

/-!
This module contains sequences in which each term depends on terms at fixed distances before it, and
the array of the latest terms, which is renewed in place.
-/

namespace Bits

variable {α : Type} {f : α → α → α → α} {n m k : Nat} {x a : Nat → α}

/-- Term `k + n` depends on the terms `k`, `k + 1` and `k + m`. -/
def Lagged (f : α → α → α → α) (n m : Nat) (x : Nat → α) : Prop :=
  ∀ k, x (k + n) = f (x k) (x (k + 1)) (x (k + m))

/-- Replace one entry of an array of `n` entries by the term that follows. -/
def renew (f : α → α → α → α) (n m : Nat) (a : Nat → α) (i : Nat) : Nat → α :=
  Function.update a i (f (a i) (a ((i + 1) % n)) (a ((i + m) % n)))

/-- The array contains the terms from `k` on. -/
def Window (n : Nat) (x a : Nat → α) (k : Nat) : Prop :=
  ∀ i, i < n → a i = x (k + i)

/-- Entries that have been replaced are read as the terms they now are. -/
theorem foldl_renew (hx : Lagged f n m x) (hm : 0 < m) (hmn : m < n) (h : Window n x a k) {j : Nat}
    (hj : j ≤ n) {i : Nat} (hi : i < n)
    : (List.range j).foldl (renew f n m) a i = if i < j then x (k + n + i) else x (k + i) := by
  induction j generalizing i with
  | zero => simpa using h i hi
  | succ j ih =>
    have hterm (l : Nat) (hpos : 0 < l) (hl : l < n)
        : (List.range j).foldl (renew f n m) a ((j + l) % n) = x (k + j + l) := by
      rw [ih (by omega) (Nat.mod_lt _ (by omega))]
      by_cases hlt : j + l < n
      . rw [Nat.mod_eq_of_lt hlt, if_neg (by omega), Nat.add_assoc]
      . -- The entry has been replaced in this round.
        rw [Nat.mod_eq_sub_mod (by omega), Nat.mod_eq_of_lt (by omega), if_pos (by omega)]
        congr 1
        omega
    have hself : (List.range j).foldl (renew f n m) a j = x (k + j) := by
      rw [ih (by omega) (by omega), if_neg (by omega)]
    rw [List.range_succ, List.foldl_append, List.foldl_cons, List.foldl_nil, renew, hself,
      hterm 1 (by omega) (by omega), hterm m hm hmn, ← hx]
    by_cases hij : i = j
    . subst hij
      rw [Function.update_self, if_pos (by omega)]
      congr 1
      omega
    . rw [Function.update_of_ne hij, ih (by omega) hi]
      by_cases hlt : i < j
      . rw [if_pos hlt, if_pos (by omega)]
      . rw [if_neg hlt, if_neg (by omega)]

theorem Window.renew (hx : Lagged f n m x) (hm : 0 < m) (hmn : m < n) (h : Window n x a k)
    : Window n x ((List.range n).foldl (renew f n m) a) (k + n) := by
  intro i hi
  rw [foldl_renew hx hm hmn h (Nat.le_refl n) hi, if_pos hi]

section Backward

variable {β γ : Type} {hi : α → β} {lo : α → γ} {y : Nat → α}

structure Invertible (f : α → α → α → α) (hi : α → β) (lo : α → γ) : Prop where
  parts : ∀ {u v u' v' c}, f u v c = f u' v' c → hi u = hi u' ∧ lo v = lo v'
  join : ∀ {u u'}, hi u = hi u' → lo u = lo u' → u = u'

/-- `n` terms determine those before them, except for the lower part of the very first one. -/
theorem Invertible.parts_eq (hf : Invertible f hi lo) (hx : Lagged f n m x) (hy : Lagged f n m y)
    (hm : 1 < m) (hmn : m < n) (h : ∀ k, n ≤ k → k < 2 * n → x k = y k) {k : Nat} (hk : k < n)
    : hi (x k) = hi (y k) ∧ lo (x (k + 1)) = lo (y (k + 1)) := by
  -- From the last term down to the first one.
  obtain ⟨j, hj⟩ : ∃ j, j = n - k := ⟨_, rfl⟩
  induction j using Nat.strongRecOn generalizing k with
  | ind j ih =>
    have hmid : x (k + m) = y (k + m) := by
      by_cases hkm : n ≤ k + m
      . exact h _ hkm (by omega)
      . obtain ⟨hhi, _⟩ := ih (n - (k + m)) (by omega) (k := k + m) (by omega) rfl
        obtain ⟨_, hlo⟩ := ih (n - (k + m - 1)) (by omega) (k := k + m - 1) (by omega) rfl
        have hpred : k + m - 1 + 1 = k + m := by omega
        rw [hpred] at hlo
        exact hf.join hhi hlo
    have hnext := h (k + n) (by omega) (by omega)
    rw [hx, hy, hmid] at hnext
    exact hf.parts hnext

theorem Invertible.eq (hf : Invertible f hi lo) (hx : Lagged f n m x) (hy : Lagged f n m y)
    (hm : 1 < m) (hmn : m < n) (h : ∀ k, n ≤ k → k < 2 * n → x k = y k) {k : Nat}
    (hk : k + 1 < n) : x (k + 1) = y (k + 1) := by
  exact hf.join (hf.parts_eq hx hy hm hmn h hk).1
    (hf.parts_eq hx hy hm hmn h (Nat.lt_of_succ_lt hk)).2

end Backward

end Bits
