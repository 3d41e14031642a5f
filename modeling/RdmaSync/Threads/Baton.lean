import Mathlib.Logic.Function.Basic

/-!
This module contains cells that threads pass on from turn to turn: turns are handed out in any order,
a thread that holds a turn of a cell waits until it has come, and then passes the cell on.
-/

namespace Threads

/-- The turn of each cell, the turns that threads hold, and the turns that have been handed out. -/
structure Batons (T C : Type) where
  turn : C → Nat
  holds : T → Option (C × Nat)
  issued : C → Nat → Prop

namespace Batons

variable {T C : Type}

/-- A turn that has been handed out is over, or it is held by one thread. -/
structure Ok (b : Batons T C) : Prop where
  unique : ∀ {t u x}, b.holds t = some x → b.holds u = some x → t = u
  issued_of_holds : ∀ {t c n}, b.holds t = some (c, n) → b.issued c n
  turn_le : ∀ {t c n}, b.holds t = some (c, n) → b.turn c ≤ n
  issued_of_lt : ∀ {c n}, n < b.turn c → b.issued c n
  held : ∀ {c n}, b.issued c n → b.turn c ≤ n → ∃ t, b.holds t = some (c, n)

def Owns (b : Batons T C) (t : T) (c : C) : Prop :=
  b.holds t = some (c, b.turn c)

section

variable [DecidableEq T]

def take (b : Batons T C) (t : T) (c : C) (n : Nat) : Batons T C where
  turn := b.turn
  holds := Function.update b.holds t (some (c, n))
  issued := fun c' n' => b.issued c' n' ∨ c' = c ∧ n' = n

def pass [DecidableEq C] (b : Batons T C) (t : T) (c : C) : Batons T C where
  turn := Function.update b.turn c (b.turn c + 1)
  holds := Function.update b.holds t none
  issued := b.issued

end

variable {b : Batons T C} {t u : T} {c : C} {n : Nat}

theorem Ok.owner_unique (h : b.Ok) (ht : b.Owns t c) (hu : b.Owns u c) : t = u := by
  exact h.unique ht hu

/-- Somebody owns a cell whose current turn has been handed out. -/
theorem Ok.exists_owner (h : b.Ok) (hissued : b.issued c (b.turn c)) : ∃ t, b.Owns t c := by
  exact h.held hissued (Nat.le_refl _)

variable [DecidableEq T] {x : C × Nat}

theorem holds_take : (b.take t c n).holds u = some x
    ↔ u = t ∧ x = (c, n) ∨ u ≠ t ∧ b.holds u = some x := by
  by_cases hu : u = t
  . simp [take, hu, eq_comm]
  . simp [take, hu]

theorem Ok.take (h : b.Ok) (hidle : b.holds t = none) (hnew : ¬b.issued c n) : (b.take t c n).Ok where
  unique := by
    intro u v x hu hv
    rw [holds_take] at hu hv
    rcases hu with ⟨rfl, rfl⟩ | ⟨_, hu⟩
    . rcases hv with ⟨rfl, _⟩ | ⟨_, hv⟩
      . rfl
      . exact absurd (h.issued_of_holds hv) hnew
    . rcases hv with ⟨_, rfl⟩ | ⟨_, hv⟩
      . exact absurd (h.issued_of_holds hu) hnew
      . exact h.unique hu hv
  issued_of_holds := by
    intro u c' n' hu
    rw [holds_take] at hu
    rcases hu with ⟨_, heq⟩ | ⟨_, hu⟩
    . exact .inr (Prod.mk.inj heq)
    . exact .inl (h.issued_of_holds hu)
  turn_le := by
    intro u c' n' hu
    rw [holds_take] at hu
    rcases hu with ⟨_, heq⟩ | ⟨_, hu⟩
    . obtain ⟨rfl, rfl⟩ := Prod.mk.inj heq
      exact Nat.le_of_not_lt fun hlt => hnew (h.issued_of_lt hlt)
    . exact h.turn_le hu
  issued_of_lt := by
    intro c' n' hlt
    exact .inl (h.issued_of_lt hlt)
  held := by
    rintro c' n' (hissued | ⟨rfl, rfl⟩) hle
    . obtain ⟨u, hu⟩ := h.held hissued hle
      have hut : u ≠ t := by
        rintro rfl
        rw [hidle] at hu
        simp at hu
      exact ⟨u, holds_take.mpr (.inr ⟨hut, hu⟩)⟩
    . exact ⟨t, holds_take.mpr (.inl ⟨rfl, rfl⟩)⟩

variable [DecidableEq C]

theorem holds_pass : (b.pass t c).holds u = some x ↔ u ≠ t ∧ b.holds u = some x := by
  by_cases hu : u = t
  . simp [pass, hu]
  . simp [pass, hu]

theorem turn_pass (b : Batons T C) (t : T) (c c' : C)
    : (b.pass t c).turn c' = if c' = c then b.turn c' + 1 else b.turn c' := by
  by_cases hc : c' = c
  . simp [pass, hc]
  . simp [pass, hc]

theorem Ok.pass (h : b.Ok) (howns : b.Owns t c) : (b.pass t c).Ok where
  unique := by
    intro u v x hu hv
    exact h.unique (holds_pass.mp hu).2 (holds_pass.mp hv).2
  issued_of_holds := by
    intro u c' n' hu
    exact h.issued_of_holds (holds_pass.mp hu).2
  turn_le := by
    intro u c' n' hu
    obtain ⟨hne, hholds⟩ := holds_pass.mp hu
    have hle := h.turn_le hholds
    rw [turn_pass]
    split
    . next hc =>
      subst hc
      -- Only its owner holds the turn that is over.
      have : b.turn c' ≠ n' := by
        rintro rfl
        exact hne (h.owner_unique hholds howns)
      omega
    . exact hle
  issued_of_lt := by
    intro c' n' hlt
    rw [turn_pass] at hlt
    split at hlt
    . next hc =>
      subst hc
      obtain hlt | rfl := Nat.lt_succ_iff_lt_or_eq.mp hlt
      . exact h.issued_of_lt hlt
      . exact h.issued_of_holds howns
    . exact h.issued_of_lt hlt
  held := by
    intro c' n' hissued hle
    rw [turn_pass] at hle
    obtain ⟨u, hu⟩ := h.held hissued (by split at hle <;> omega)
    refine ⟨u, holds_pass.mpr ⟨?_, hu⟩⟩
    rintro rfl
    rw [howns] at hu
    obtain ⟨rfl, rfl⟩ := Prod.mk.inj (Option.some.inj hu)
    rw [if_pos rfl] at hle
    omega

end Batons
end Threads
