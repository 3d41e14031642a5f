import RdmaSync.Rdma.Prog

/-!
This module contains the wrappers around the verbs that workers post and poll with. On queue pairs
whose requests take effect in posting order a fence changes nothing.
-/

namespace CommunicationManager

open Rdma

variable {κ β ε : Type}

def signaled : Bool := true

def unsignaled : Bool := false

def postFetchAdd (toAdd : Word) (memAddr : β × Nat) (context : κ) (wc : Bool) (remoteOffset : Nat)
    (_needFence : Bool) : Prog κ β ε Unit :=
  .post context wc (.fetchAdd toAdd memAddr remoteOffset) (.ret ())

def postCompareSwap (expected desired : Word) (memAddr : β × Nat) (context : κ) (wc : Bool)
    (remoteOffset : Nat) : Prog κ β ε Unit :=
  .post context wc (.compareSwap expected desired memAddr remoteOffset) (.ret ())

def postWrite (memAddr : β × Nat) (context : κ) (wc : Bool) (remoteOffset bytes : Nat)
    : Prog κ β ε Unit :=
  .post context wc (.write memAddr remoteOffset bytes) (.ret ())

def postRead (memAddr : β × Nat) (context : κ) (wc : Bool) (remoteOffset bytes : Nat)
    (_needFence : Bool) : Prog κ β ε Unit :=
  .post context wc (.read memAddr remoteOffset bytes) (.ret ())

def postReadFenced (memAddr : β × Nat) (context : κ) (wc : Bool) (remoteOffset bytes : Nat)
    : Prog κ β ε Unit :=
  postRead memAddr context wc remoteOffset bytes true

/--
The loops around `pollCompletion`: ask for the completions that are still missing until `expected`
of them have been returned.
-/
def pollCompletions (context : κ) (expected : Nat) : Prog κ β ε Unit :=
  .poll context expected (.ret ())

def load (a : β × Nat) : Prog κ β ε Word :=
  .load a .ret

def store (a : β × Nat) (v : Word) : Prog κ β ε Unit :=
  .store a v (.ret ())

/-- The values of `i` in `for (i = start; i < bound; i += step)`. -/
def strided (start bound step : Nat) : List Nat :=
  List.range' start ((bound - start + step - 1) / step) step

theorem mem_strided {start bound step i : Nat} (hstep : 0 < step)
    : i ∈ strided start bound step ↔ start ≤ i ∧ i < bound ∧ (i - start) % step = 0 := by
  simp only [strided, List.mem_range']
  constructor
  . rintro ⟨k, hk, rfl⟩
    have hk' : step * k < bound - start := by
      have := (Nat.le_div_iff_mul_le hstep).mp (Nat.succ_le_of_lt hk)
      rw [Nat.succ_mul, Nat.mul_comm] at this
      omega
    refine ⟨by omega, by omega, ?_⟩
    rw [show start + step * k - start = step * k by omega]
    exact Nat.mul_mod_right step k
  . rintro ⟨hstart, hbound, hmod⟩
    refine ⟨(i - start) / step, ?_, ?_⟩
    . rw [Nat.lt_iff_add_one_le, Nat.le_div_iff_mul_le hstep]
      have := Nat.div_mul_cancel (Nat.dvd_of_mod_eq_zero hmod)
      rw [Nat.succ_mul]
      omega
    . rw [Nat.mul_div_cancel' (Nat.dvd_of_mod_eq_zero hmod)]
      omega

theorem strided_nodup {start bound step : Nat} (hstep : 0 < step)
    : (strided start bound step).Nodup := by
  exact List.nodup_range' step hstep

end CommunicationManager
