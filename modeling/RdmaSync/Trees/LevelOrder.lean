import Mathlib.Algebra.Order.BigOperators.Group.Finset
import Mathlib.Algebra.Ring.GeomSum
import Mathlib.Data.Fintype.BigOperators

/-!
This module contains trees whose nodes all have `b` children and are numbered level by level, so that
a path from the root determines the number of a node and the other way round.
-/

namespace LevelOrder

variable {b : Nat}

/-- The child number `k` of the node `i`. -/
def child (i : Nat) (k : Fin b) : Nat := b * i + 1 + k

def node (path : List (Fin b)) : Nat := path.foldl child 0

def above (b level : Nat) : Nat := ∑ h ∈ Finset.range level, b ^ h

theorem above_succ (b level : Nat) : above b (level + 1) = b * above b level + 1 := by
  exact geom_sum_succ

theorem above_mono {level level' : Nat} (h : level ≤ level') : above b level ≤ above b level' := by
  exact Finset.sum_le_sum_of_subset (Finset.range_mono h)

theorem child_div (i : Nat) (k : Fin b) : (child i k - 1) / b = i := by
  have hk := k.isLt
  rw [child, Nat.add_right_comm, Nat.add_sub_cancel, Nat.mul_add_div (by omega),
    Nat.div_eq_of_lt hk, Nat.add_zero]

theorem child_inj {i j : Nat} {k k' : Fin b} (h : child i k = child j k') : i = j ∧ k = k' := by
  have hij : i = j := by
    rw [← child_div i k, h, child_div]
  subst hij
  refine ⟨rfl, Fin.ext ?_⟩
  unfold child at h
  omega

@[simp]
theorem node_nil : node ([] : List (Fin b)) = 0 := by
  rfl

@[simp]
theorem node_concat (path : List (Fin b)) (k : Fin b)
    : node (path ++ [k]) = child (node path) k := by
  simp [node]

/-- The length of the path is the level. -/
theorem node_mem_level (path : List (Fin b))
    : above b path.length ≤ node path ∧ node path < above b (path.length + 1) := by
  induction path using List.reverseRecOn with
  | nil => simp [above]
  | append_singleton path k ih =>
    have hk := k.isLt
    have hge := Nat.mul_le_mul_left b ih.1
    have hlt := Nat.mul_le_mul_left b (Nat.succ_le_of_lt ih.2)
    rw [Nat.mul_succ] at hlt
    rw [List.length_append, List.length_singleton, node_concat, above_succ b (path.length + 1),
      above_succ, child]
    rw [above_succ] at hlt
    omega

theorem node_injective : Function.Injective (node (b := b)) := by
  intro path path' h
  induction path using List.reverseRecOn generalizing path' with
  | nil =>
    cases path' using List.reverseRecOn with
    | nil => rfl
    | append_singleton path' k =>
      rw [node_nil, node_concat, child] at h
      omega
  | append_singleton path k ih =>
    cases path' using List.reverseRecOn with
    | nil =>
      rw [node_nil, node_concat, child] at h
      omega
    | append_singleton path' k' =>
      rw [node_concat, node_concat] at h
      obtain ⟨hnode, rfl⟩ := child_inj h
      rw [ih hnode]

end LevelOrder
