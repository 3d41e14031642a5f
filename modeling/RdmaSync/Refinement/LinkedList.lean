import Mathlib.Data.List.Nodup
import Mathlib.Logic.Function.Basic

/-!
This module contains the lists that are laid out in memory by a link from each element to the next
one, and what a change of one link does to them.
-/

namespace Refinement

variable {α : Type}

/-- The links from `head` on visit the elements of the list in order, and then end. -/
inductive Linked (next : α → Option α) : Option α → List α → Prop where
  | nil : Linked next none []
  | cons {a : α} {l : List α} (h : Linked next (next a) l) : Linked next (some a) (a :: l)

/-- Follow the links, for a number of steps at most. -/
def walk (next : α → Option α) (steps : Nat) (head : Option α) : Option (List α) :=
  match head, steps with
  | none, _ => some []
  | some _, 0 => none
  | some a, steps + 1 => (walk next steps (next a)).map (a :: ·)

namespace Linked

variable {next next' : α → Option α} {head : Option α} {l l' : List α} {a : α}

theorem unique (h : Linked next head l) (h' : Linked next head l') : l = l' := by
  induction h generalizing l' with
  | nil =>
    cases h'
    rfl
  | cons _ ih =>
    cases h' with
    | cons h' => rw [ih h']

theorem head_eq (h : Linked next head l) : head = l.head? := by
  cases h <;> rfl

theorem tail (h : Linked next head (a :: l)) : Linked next (next a) l := by
  cases h with
  | cons h => exact h

theorem after (h : Linked next head (l ++ a :: l')) : Linked next (next a) l' := by
  induction l generalizing head with
  | nil => exact h.tail
  | cons b l ih => exact ih h.tail

/-- Links that end do not visit an element twice. -/
theorem nodup (h : Linked next head l) : l.Nodup := by
  induction h with
  | nil => exact List.nodup_nil
  | cons h ih =>
    refine List.nodup_cons.mpr ⟨?_, ih⟩
    intro hmem
    obtain ⟨l₁, l₂, rfl⟩ := List.append_of_mem hmem
    have hlength := congrArg List.length (h.unique h.after)
    simp at hlength
    omega

theorem congr (h : Linked next head l) (heq : ∀ a ∈ l, next' a = next a)
    : Linked next' head l := by
  induction h with
  | nil => exact .nil
  | cons _ ih =>
    have hlink := heq _ List.mem_cons_self
    refine .cons ?_
    rw [hlink]
    exact ih fun a ha => heq a (List.mem_cons_of_mem _ ha)

theorem walk_eq (h : Linked next head l) {steps : Nat} (hsteps : l.length ≤ steps)
    : walk next steps head = some l := by
  induction h generalizing steps with
  | nil => cases steps <;> rfl
  | cons _ ih =>
    cases steps with
    | zero => simp at hsteps
    | succ steps => rw [walk, ih (Nat.le_of_succ_le_succ hsteps), Option.map_some]

variable [DecidableEq α]

theorem update (h : Linked next head l) (ha : a ∉ l) (link : Option α)
    : Linked (Function.update next a link) head l := by
  apply h.congr
  intro b hb
  rw [Function.update_of_ne]
  rintro rfl
  exact ha hb

theorem push (h : Linked next head l) (ha : a ∉ l)
    : Linked (Function.update next a head) (some a) (a :: l) := by
  refine .cons ?_
  rw [Function.update_self]
  exact h.update ha head

end Linked
end Refinement
