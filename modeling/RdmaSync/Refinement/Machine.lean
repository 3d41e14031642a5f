/-!
This module contains machines that answer a sequence of operations, and the simulation of one
machine by another.
-/

namespace Refinement

variable {Op Res S A : Type}

/-- What the machine answers to an operation, and the state that this leaves. -/
abbrev Machine (Op Res S : Type) := Op → S → Res × S

namespace Machine

def run (m : Machine Op Res S) (ops : List Op) (s : S) : List Res × S :=
  match ops with
  | [] => ([], s)
  | op :: ops =>
    let (res, s') := m op s
    let (results, s'') := run m ops s'
    (res :: results, s'')

@[simp]
theorem run_nil (m : Machine Op Res S) (s : S) : m.run [] s = ([], s) := by
  rfl

theorem run_cons (m : Machine Op Res S) (op : Op) (ops : List Op) (s : S)
    : m.run (op :: ops) s = ((m op s).1 :: (m.run ops (m op s).2).1, (m.run ops (m op s).2).2) := by
  rfl

/-- In related states, both machines answer the same and remain related. -/
def Simulates (m : Machine Op Res S) (m' : Machine Op Res A) (rel : S → A → Prop) : Prop :=
  ∀ op s a, rel s a → (m op s).1 = (m' op a).1 ∧ rel (m op s).2 (m' op a).2

variable {m : Machine Op Res S} {m' : Machine Op Res A} {rel : S → A → Prop}

theorem Simulates.run (h : m.Simulates m' rel) (ops : List Op) {s : S} {a : A} (hrel : rel s a)
    : (m.run ops s).1 = (m'.run ops a).1 ∧ rel (m.run ops s).2 (m'.run ops a).2 := by
  induction ops generalizing s a with
  | nil => exact ⟨rfl, hrel⟩
  | cons op ops ih =>
    obtain ⟨hres, hrel'⟩ := h op s a hrel
    obtain ⟨hresults, hrel''⟩ := ih hrel'
    rw [run_cons, run_cons, hres, hresults]
    exact ⟨rfl, hrel''⟩

end Machine
end Refinement
