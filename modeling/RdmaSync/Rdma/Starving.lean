import RdmaSync.Rdma.Accounting
import RdmaSync.Rdma.Soundness

/-!
This module contains the proof that an operation which waits for completions before it has posted
anything never gets on, if the operations before it leave nothing signaled behind.
-/

namespace Rdma

variable {W κ β ε α Op : Type} [DecidableEq W] [DecidableEq κ] [DecidableEq β] {P : Protocol W β Op}
  {wl : Workload κ β ε α Op} {rctx : κ} {op : Op} {wk : Worker κ β ε α Op}

/-- If the worker is at the operation, it waits, and nothing that it has posted is signaled. -/
def Starves (wl : Workload κ β ε α Op) (rctx : κ) (op : Op) (wk : Worker κ β ε α Op) : Prop :=
  ∀ since p, wk.control = .running op since p →
    p = wl.program op ∧ (wk.queue rctx).countP (·.signaled) = 0 ∧ wk.cq rctx = 0

omit [DecidableEq W] in
theorem starves_cpu {n expected : Nat} {next : Prog κ β ε α}
    (hprogram : wl.program op = .poll rctx expected next) (hexpected : 0 < expected)
    (he : wk.cpuEnabled n = true) (h : Starves wl rctx op wk) : Starves wl rctx op (wk.cpu wl n) := by
  intro since p hcontrol
  cases hwk : wk.control with
  | idle => simp [Worker.cpuEnabled, hwk] at he
  | running op' since' p' =>
    obtain ⟨p'', hp''⟩ := Worker.control_cpu wl n hwk
    rw [hp''] at hcontrol
    simp only [Control.running.injEq] at hcontrol
    obtain ⟨rfl, rfl, rfl⟩ := hcontrol
    obtain ⟨rfl, hqueue, hcq⟩ := h _ _ hwk
    rw [hprogram] at hwk
    -- There is nothing to take.
    simp only [Worker.cpuEnabled, hwk, hcq, Bool.and_eq_true, decide_eq_true_eq] at he
    obtain rfl : n = 0 := by omega
    simp only [Worker.cpu, hwk, hcq, Nat.sub_zero, Control.running.injEq, true_and] at hp'' ⊢
    rw [if_neg (Nat.ne_of_lt hexpected)] at hp''
    exact ⟨by rw [hprogram, hp''], hqueue, by rw [Function.update_self]⟩

omit [DecidableEq W] in
theorem starves_touch (c : κ) (chunk : Nat) (m : Mem) (h : Starves wl rctx op wk)
    : Starves wl rctx op (wk.touch wl c chunk m) := by
  unfold Worker.touch
  split
  . next f fs hq =>
    intro since p hcontrol
    obtain ⟨hp, hqueue, hcq⟩ := h since p hcontrol
    refine ⟨hp, ?_, hcq⟩
    by_cases hc : rctx = c
    . subst hc
      rw [hq, List.countP_cons] at hqueue
      simpa only [Function.update_self, List.countP_cons] using hqueue
    . simpa only [Function.update_of_ne hc] using hqueue
  . exact h

omit [DecidableEq W] [DecidableEq β] in
theorem starves_complete (c : κ) (h : Starves wl rctx op wk)
    : Starves wl rctx op (wk.complete c) := by
  unfold Worker.complete
  split
  . next f fs hq =>
    intro since p hcontrol
    obtain ⟨hp, hqueue, hcq⟩ := h since p hcontrol
    refine ⟨hp, ?_⟩
    by_cases hc : rctx = c
    . subst hc
      rw [hq, List.countP_cons] at hqueue
      simp only [Function.update_self]
      omega
    . simpa only [Function.update_of_ne hc] using ⟨hqueue, hcq⟩
  . exact h

omit [DecidableEq W] [DecidableEq κ] [DecidableEq β] in
theorem starves_of_tracks {u : List (Verb β × Bool)} {since : Nat} (hu : ∀ p ∈ u, p.2 = false)
    (htracks : Tracks u (wk.queue rctx) (wk.cq rctx)) {op' : Op}
    (hcontrol : wk.control = .running op' since (wl.program op')) : Starves wl rctx op wk := by
  intro since' p hcontrol'
  rw [hcontrol] at hcontrol'
  simp only [Control.running.injEq] at hcontrol'
  obtain ⟨rfl, _, rfl⟩ := hcontrol'
  have hsignals := htracks.signals_eq
  rw [signals_eq_zero hu] at hsignals
  exact ⟨rfl, by omega, by omega⟩

namespace Spec

variable (S : Spec P wl rctx) {s₀ s : Sys W κ β ε α Op}

theorem starves_next {expected : Nat} {next : Prog κ β ε α}
    (hprogram : wl.program op = .poll rctx expected next) (hexpected : 0 < expected)
    (hleft : ∀ u, S.leftover u → ∀ p ∈ u, p.2 = false) (hok : S.SysOk s)
    (h : ∀ w, Starves wl rctx op (s.worker w)) (a : Action W κ Op) (he : s.enabled wl a = true)
    (w : W) : Starves wl rctx op ((s.next wl a).worker w) := by
  cases a with
  | start w' op' =>
    simp only [Sys.enabled] at he
    split at he
    . next hcontrol =>
      obtain ⟨_, u, htracks, hcontrolOk⟩ := hok.worker w'
      simp only [ControlOk, hcontrol] at hcontrolOk
      refine Sys.forall_setWorker h ?_ w
      apply starves_of_tracks (hleft u hcontrolOk.1) _ rfl
      exact htracks
    . simp at he
  | cpu w' n => exact Sys.forall_setWorker h (starves_cpu hprogram hexpected he (h w')) w
  | finish w' =>
    obtain ⟨_, u, htracks, hcontrolOk⟩ := hok.worker w'
    refine Sys.forall_setWorker h ?_ w
    have hresume (wk : Worker κ β ε α Op) (hqueue : wk.queue = (s.worker w').queue)
        (hcq : wk.cq = (s.worker w').cq) (next : Next Op) (hu : S.leftover u)
        : Starves wl rctx op { wk with control := wl.resume s.shared.hist.length next } := by
      cases next with
      | idle | stop =>
        intro _ _ hidle
        simp [Workload.resume] at hidle
      | goto op' =>
        apply starves_of_tracks (hleft u hu) _ rfl
        simpa only [hqueue, hcq] using htracks
    unfold Worker.finish
    split
    . next op' since a hcontrol =>
      simp only [ControlOk, hcontrol] at hcontrolOk
      exact hresume { s.worker w' with done := (op', a) :: (s.worker w').done } rfl rfl _
        (S.leftover_of_ends hcontrolOk.2.1)
    . next op' since e hcontrol =>
      simp only [ControlOk, hcontrol] at hcontrolOk
      exact hresume (s.worker w') rfl rfl _ (S.leftover_of_ends hcontrolOk.2.1)
    . exact h w'
  | touch w' c chunk =>
    simp only [Sys.next]
    split
    . exact Sys.forall_setWorker h (starves_touch c chunk _ (h w')) w
    . exact h w
  | complete w' c => exact Sys.forall_setWorker h (starves_complete c (h w')) w

/-- Such an operation is still at its beginning in every reachable state. -/
theorem starves_of_reach {expected : Nat} {next : Prog κ β ε α}
    (hprogram : wl.program op = .poll rctx expected next) (hexpected : 0 < expected)
    (hleft : ∀ u, S.leftover u → ∀ p ∈ u, p.2 = false)
    {cond : Sys W κ β ε α Op → Action W κ Op → Prop} (hguards : Guards P cond) (h₀ : S.SysOk s₀)
    (hfresh : s₀.Fresh) (hreach : Sys.Reach wl cond s₀ s) (w : W)
    : Starves wl rctx op (s.worker w) := by
  induction hreach generalizing w with
  | refl =>
    intro since p hcontrol
    simp [hfresh.control w] at hcontrol
  | step a hreach he hcond ih =>
    exact S.starves_next hprogram hexpected hleft (S.sysOk_of_reach hguards h₀ hreach) ih a he w

end Spec
end Rdma
