import RdmaSync.Rdma.System

/-!
This module contains what the operations of one worker have to do with each other: which one it runs
depends on those that it has done.
-/

namespace Rdma

variable {W κ β ε α Op : Type}

def Next.Meets (next : Next Op) (idle : Prop) (runs : Op → Prop) : Prop :=
  match next with
  | .idle => idle
  | .goto op => runs op
  | .stop => True

def Control.Meets (control : Control κ β ε α Op) (idle : Prop) (runs : Op → Prop) : Prop :=
  match control with
  | .idle => idle
  | .running op _ _ => runs op

namespace Control.Meets

variable {control : Control κ β ε α Op} {idle idle' : Prop} {runs runs' : Op → Prop}

theorem mono (h : control.Meets idle runs) (hidle : idle → idle') (hruns : ∀ op, runs op → runs' op)
    : control.Meets idle' runs' := by
  cases control with
  | idle => exact hidle h
  | running op since p => exact hruns op h

theorem elim (h : control.Meets idle fun _ => idle) : idle := by
  cases control with
  | idle => exact h
  | running op since p => exact h

end Control.Meets

/--
A relation between the operations that a worker has done and the one that it runs, or none. Neither the
beginning nor the end of an operation leaves it.
-/
structure Course (wl : Workload κ β ε α Op) where
  idle : List (Op × α) → Prop
  runs : List (Op × α) → Op → Prop
  start : ∀ {done op}, idle done → wl.mayStart done op = true → runs done op
  ok : ∀ {done op a}, runs done op →
    (wl.after op (.ok a)).Meets (idle ((op, a) :: done)) (runs ((op, a) :: done))
  error : ∀ {done op e}, runs done op → (wl.after op (.error e)).Meets (idle done) (runs done)

namespace Course

variable {wl : Workload κ β ε α Op} (C : Course wl)

def Ok (wk : Worker κ β ε α Op) : Prop :=
  wk.control.Meets (C.idle wk.done) (C.runs wk.done)

variable {C} {wk : Worker κ β ε α Op}

theorem Ok.runs (h : C.Ok wk) {op : Op} {since : Nat} {p : Prog κ β ε α}
    (hcontrol : wk.control = .running op since p) : C.runs wk.done op := by
  unfold Ok at h
  rwa [hcontrol] at h

theorem Ok.congr {wk' : Worker κ β ε α Op} (h : C.Ok wk) (hcontrol : wk'.control = wk.control)
    (hdone : wk'.done = wk.done) : C.Ok wk' := by
  unfold Ok
  rwa [hcontrol, hdone]

theorem Ok.start (h : C.Ok wk) (hcontrol : wk.control = .idle) {op : Op}
    (hstart : wl.mayStart wk.done op = true) (since : Nat) (p : Prog κ β ε α)
    : C.Ok { wk with control := .running op since p } := by
  unfold Ok at h
  rw [hcontrol] at h
  exact C.start h hstart

theorem Ok.finish (h : C.Ok wk) (he : wk.finishEnabled wl = true) (now : Nat)
    : C.Ok (wk.finish wl now) := by
  have hresume {next : Next Op} {done : List (Op × α)} {wk' : Worker κ β ε α Op}
      (hgo : next.isStop = false) (hmeets : next.Meets (C.idle done) (C.runs done))
      (hcontrol : wk'.control = wl.resume now next) (hdone : wk'.done = done) : C.Ok wk' := by
    unfold Ok
    rw [hcontrol, hdone]
    cases next with
    | idle => exact hmeets
    | goto => exact hmeets
    | stop => cases hgo
  unfold Worker.finishEnabled at he
  unfold Worker.finish
  split at he
  . next op since a hcontrol =>
    exact hresume (by simpa using he) (C.ok (h.runs hcontrol)) rfl rfl
  . next op since e hcontrol =>
    exact hresume (by simpa using he) (C.error (h.runs hcontrol)) rfl rfl
  . cases he

section Steps

variable [DecidableEq κ] [DecidableEq β]

theorem Ok.cpu (h : C.Ok wk) (n : Nat) : C.Ok (wk.cpu wl n) := by
  cases hcontrol : wk.control with
  | idle =>
    have hsame : wk.cpu wl n = wk := by
      unfold Worker.cpu
      rw [hcontrol]
    rwa [hsame]
  | running op since p =>
    obtain ⟨p', hcontrol'⟩ := Worker.control_cpu wl n hcontrol
    unfold Ok
    rw [hcontrol', Worker.done_cpu]
    exact h.runs hcontrol

theorem Ok.touch (h : C.Ok wk) (rctx : κ) (chunk : Nat) (m : Mem)
    : C.Ok (wk.touch wl rctx chunk m) := by
  apply h.congr _ (Worker.done_touch wl wk rctx chunk m)
  unfold Worker.touch
  split <;> rfl

omit [DecidableEq β] in
theorem Ok.complete (h : C.Ok wk) (rctx : κ) : C.Ok (wk.complete rctx) := by
  exact h.congr (Worker.control_complete rctx) (Worker.done_complete wk rctx)

end Steps

variable [DecidableEq W] [DecidableEq κ] [DecidableEq β] {s s₀ : Sys W κ β ε α Op}

theorem ok_next {a : Action W κ Op} (h : ∀ w, C.Ok (s.worker w)) (he : s.enabled wl a = true)
    : ∀ w, C.Ok ((s.next wl a).worker w) := by
  cases a with
  | start w op =>
    simp only [Sys.enabled] at he
    split at he
    . next hcontrol => exact Sys.forall_setWorker h ((h w).start hcontrol he _ _)
    . cases he
  | cpu w n => exact Sys.forall_setWorker h ((h w).cpu n)
  | finish w => exact Sys.forall_setWorker h ((h w).finish he _)
  | touch w rctx chunk =>
    simp only [Sys.next]
    split
    . exact Sys.forall_setWorker h ((h w).touch rctx chunk _)
    . exact h
  | complete w rctx => exact Sys.forall_setWorker h ((h w).complete rctx)

/-- The relation holds in every reachable state. -/
theorem ok_of_reach {cond : Sys W κ β ε α Op → Action W κ Op → Prop} (hfresh : s₀.Fresh)
    (hnil : C.idle []) (hreach : Sys.Reach wl cond s₀ s) (w : W) : C.Ok (s.worker w) := by
  induction hreach generalizing w with
  | refl =>
    unfold Ok
    rw [hfresh.control w, hfresh.done w]
    exact hnil
  | step a _ he _ ih => exact ok_next ih he w

end Course
end Rdma
