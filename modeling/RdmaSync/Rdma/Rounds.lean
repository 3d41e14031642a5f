import Mathlib.Algebra.GroupWithZero.Nat
import Mathlib.Algebra.Order.Group.Nat
import Mathlib.Data.Nat.Init
import RdmaSync.Rdma.System
import RdmaSync.Threads.Transition

/-!
This module contains workers that are connected to several nodes and take them in turn, one operation
on each. What happens on one node is a run of the system of that node, and jobs spread their
operations evenly.
-/

namespace Rdma

open Threads

variable {n : Nat} {W κ β ε α Op : Type}

def Control.isIdle (control : Control κ β ε α Op) : Bool :=
  match control with
  | .idle => true
  | .running .. => false

def Next.isIdle (next : Next Op) : Bool :=
  match next with
  | .idle => true
  | _ => false

/-- One system for each of `n` nodes, and the workers that are connected to all of them. -/
structure Rounds (n : Nat) (W κ β ε α Op : Type) where
  node : Fin n → Sys W κ β ε α Op
  currentNode : W → Nat
  jobs : W → Nat

inductive Turn (n : Nat) (W κ Op : Type) where
  | job (w : W)
  | start (w : W) (op : Op)
  /-- Any other step on a node. -/
  | on (i : Fin n) (a : Action W κ Op)

def Action.isStart (a : Action W κ Op) : Bool :=
  match a with
  | .start .. => true
  | _ => false

namespace Rounds

def share (n c i : Nat) : Nat :=
  (c + (n - 1 - i)) / n

theorem share_zero {i : Nat} (hi : i < n) : share n 0 i = 0 := by
  unfold share
  exact Nat.div_eq_of_lt (by omega)

theorem share_succ {i : Nat} (c : Nat) (hi : i < n)
    : share n (c + 1) i = share n c i + if c % n = i then 1 else 0 := by
  have hdvd : n ∣ c + (n - 1 - i) + 1 ↔ c % n = i := by
    have hmod := Nat.mod_lt c (Nat.lt_of_le_of_lt (Nat.zero_le i) hi)
    have hdiv := Nat.div_add_mod c n
    have hsplit : c + (n - 1 - i) + 1 = n * (c / n) + (c % n + (n - i)) := by omega
    rw [hsplit, ← Nat.dvd_add_iff_right (Nat.dvd_mul_right n _)]
    constructor
    . rintro ⟨q, hq⟩
      have hone : q = 1 := by
        have hpos : 0 < q := by
          rcases Nat.eq_zero_or_pos q with rfl | hpos
          . omega
          . exact hpos
        have hle : q < 2 := by
          by_contra hge
          have := Nat.mul_le_mul_left n (Nat.le_of_not_lt hge)
          omega
        omega
      subst hone
      omega
    . rintro rfl
      exact ⟨1, by omega⟩
  unfold share
  rw [show c + 1 + (n - 1 - i) = c + (n - 1 - i) + 1 by omega, Nat.succ_div]
  simp only [hdvd]

/-- Nodes that come first are ahead, but by no more than one operation. -/
theorem share_le {i j : Nat} (c : Nat) (hij : i ≤ j) : share n c j ≤ share n c i := by
  exact Nat.div_le_div_right (by omega)

theorem share_le_succ {i j : Nat} (c : Nat) (hj : j < n) : share n c i ≤ share n c j + 1 := by
  unfold share
  rw [← Nat.add_div_right _ (by omega)]
  exact Nat.div_le_div_right (by omega)

section Step

variable [DecidableEq W] [DecidableEq κ] [DecidableEq β] (wl : Fin n → Workload κ β ε α Op)

def isIdle (r : Rounds n W κ β ε α Op) (w : W) : Bool :=
  (List.finRange n).all fun i => ((r.node i).worker w).control.isIdle

def onNode (r : Rounds n W κ β ε α Op) (i : Fin n) (a : Action W κ Op)
    : Rounds n W κ β ε α Op :=
  { r with node := Function.update r.node i ((r.node i).next (wl i) a) }

section OnNode

variable {wl} {r : Rounds n W κ β ε α Op}

@[simp]
theorem onNode_self (i : Fin n) (a : Action W κ Op)
    : (r.onNode wl i a).node i = (r.node i).next (wl i) a := by
  simp [onNode]

theorem onNode_of_ne {i j : Fin n} (h : j ≠ i) (a : Action W κ Op)
    : (r.onNode wl i a).node j = r.node j := by
  simp [onNode, h]

theorem reach_onNode {i : Fin n} {a : Action W κ Op} (he : (r.node i).enabled (wl i) a = true)
    (j : Fin n) : Sys.Reach (wl j) Sys.anyStep (r.node j) ((r.onNode wl i a).node j) := by
  by_cases hj : j = i
  . subst hj
    rw [onNode_self]
    exact .step a .refl he trivial
  . rw [onNode_of_ne hj]
    exact .refl

end OnNode

variable [NeZero n]

/-- The node whose turn it is. -/
def turn (r : Rounds n W κ β ε α Op) (w : W) : Fin n :=
  Fin.ofNat n (r.currentNode w)

def step : Step (Rounds n W κ β ε α Op) (Turn n W κ Op) := fun r t =>
  match t with
  | .job w =>
    if r.isIdle w then
      some { r with
        currentNode := Function.update r.currentNode w 0
        jobs := Function.update r.jobs w (r.jobs w + 1) }
    else
      none
  | .start w op =>
    let i := r.turn w
    if r.isIdle w && (r.node i).enabled (wl i) (.start w op) then
      some { r.onNode wl i (.start w op) with
        currentNode := Function.update r.currentNode w (r.currentNode w + 1) }
    else
      none
  | .on i a =>
    if !a.isStart && (r.node i).enabled (wl i) a then
      some (r.onNode wl i a)
    else
      none

variable {wl} {r₀ r r' : Rounds n W κ β ε α Op}

inductive Moves (wl : Fin n → Workload κ β ε α Op) (r : Rounds n W κ β ε α Op)
    : Rounds n W κ β ε α Op → Prop where
  | job {w : W} (hidle : r.isIdle w = true)
    : Moves wl r { r with
        currentNode := Function.update r.currentNode w 0
        jobs := Function.update r.jobs w (r.jobs w + 1) }
  | start {w : W} {op : Op} (hidle : r.isIdle w = true)
    (he : (r.node (r.turn w)).enabled (wl (r.turn w)) (.start w op) = true)
    : Moves wl r { r.onNode wl (r.turn w) (.start w op) with
        currentNode := Function.update r.currentNode w (r.currentNode w + 1) }
  | on {i : Fin n} {a : Action W κ Op} (ha : a.isStart = false)
    (he : (r.node i).enabled (wl i) a = true) : Moves wl r (r.onNode wl i a)

theorem moves_of_step {t : Turn n W κ Op} (h : step wl r t = some r') : Moves wl r r' := by
  cases t with
  | job w =>
    simp only [step, Option.ite_none_right_eq_some, Option.some.injEq] at h
    obtain ⟨hidle, rfl⟩ := h
    exact .job hidle
  | start w op =>
    simp only [step, Option.ite_none_right_eq_some, Option.some.injEq, Bool.and_eq_true] at h
    obtain ⟨⟨hidle, he⟩, rfl⟩ := h
    exact .start hidle he
  | on i a =>
    simp only [step, Option.ite_none_right_eq_some, Option.some.injEq, Bool.and_eq_true,
      Bool.not_eq_true'] at h
    obtain ⟨⟨ha, he⟩, rfl⟩ := h
    exact .on ha he

/-- What happens on one node is a run of the system of that node. -/
theorem reach_node (h : (step wl).Reach Step.any r₀ r) (i : Fin n)
    : Sys.Reach (wl i) Sys.anyStep (r₀.node i) (r.node i) := by
  apply h.relation (R := fun r r' => Sys.Reach (wl i) Sys.anyStep (r.node i) (r'.node i))
  . exact fun _ => .refl
  . exact fun h h' => h.trans h'
  . intro r t r' _ hstep
    cases moves_of_step hstep with
    | job => exact .refl
    | start _ he => exact reach_onNode he i
    | on _ he => exact reach_onNode he i

end Step

section Begun

variable {wl : Workload κ β ε α Op} {wk wk' : Worker κ β ε α Op} {s : Sys W κ β ε α Op}

/-- How many operations of a worker have ended; attempts that are repeated do not count. -/
def ended (wl : Workload κ β ε α Op) (wk : Worker κ β ε α Op) : Nat :=
  wk.done.countP fun d => (wl.after d.1 (.ok d.2)).isIdle

def begun (wl : Workload κ β ε α Op) (wk : Worker κ β ε α Op) : Nat :=
  ended wl wk + if wk.control.isIdle then 0 else 1

theorem begun_of_isIdle (h : wk.control.isIdle = true) : begun wl wk = ended wl wk := by
  simp [begun, h]

theorem begun_congr (hdone : wk'.done = wk.done) (hidle : wk'.control.isIdle = wk.control.isIdle)
    : begun wl wk' = begun wl wk := by
  simp only [begun, ended, hdone, hidle]

def StopsOnError (wl : Workload κ β ε α Op) : Prop :=
  ∀ op e, (wl.after op (.error e)).isStop = true

theorem begun_finish (hstops : StopsOnError wl) (now : Nat) (he : wk.finishEnabled wl = true)
    : begun wl (wk.finish wl now) = begun wl wk := by
  cases hcontrol : wk.control with
  | idle => simp [Worker.finishEnabled, hcontrol] at he
  | running op since p =>
    cases p with
    | ret a =>
      simp only [Worker.finishEnabled, hcontrol, Bool.not_eq_true'] at he
      cases hafter : wl.after op (.ok a) with
      | stop => simp [hafter, Next.isStop] at he
      | idle =>
        simp [begun, ended, Worker.finish, hcontrol, hafter, Workload.resume, Next.isIdle,
          Control.isIdle]
      | goto op' =>
        simp [begun, ended, Worker.finish, hcontrol, hafter, Workload.resume, Next.isIdle,
          Control.isIdle]
    | throw e => simp [Worker.finishEnabled, hcontrol, hstops op e] at he
    | _ => simp [Worker.finishEnabled, hcontrol] at he

variable [DecidableEq W] [DecidableEq κ] [DecidableEq β]

theorem begun_cpu (n : Nat) : begun wl (wk.cpu wl n) = begun wl wk := by
  apply begun_congr (Worker.done_cpu wl wk n)
  cases hcontrol : wk.control with
  | idle => simp [Worker.cpu, hcontrol]
  | running op since p =>
    obtain ⟨p', hp'⟩ := Worker.control_cpu wl n hcontrol
    rw [hp']
    rfl

omit [DecidableEq κ] [DecidableEq β] in
theorem begun_setWorker {w : W} (h : begun wl wk = begun wl (s.worker w)) (w' : W)
    : begun wl ((s.setWorker w wk).worker w') = begun wl (s.worker w') := by
  by_cases hw : w' = w
  . subst hw
    rwa [Sys.setWorker_self]
  . rw [Sys.setWorker_of_ne hw]

theorem begun_next (hstops : StopsOnError wl) {a : Action W κ Op} (ha : a.isStart = false)
    (he : s.enabled wl a = true) (w : W)
    : begun wl ((s.next wl a).worker w) = begun wl (s.worker w) := by
  cases a with
  | start w' op => simp [Action.isStart] at ha
  | cpu w' n => exact begun_setWorker (begun_cpu n) w
  | finish w' => exact begun_setWorker (begun_finish hstops _ he) w
  | touch w' rctx chunk =>
    simp only [Sys.next]
    split
    . apply begun_setWorker (begun_congr (Worker.done_touch wl _ rctx chunk _) _)
      unfold Worker.touch
      split <;> rfl
    . rfl
  | complete w' rctx =>
    apply begun_setWorker (begun_congr (Worker.done_complete _ rctx) _)
    rw [Worker.control_complete]

theorem begun_start {w : W} {op : Op} (he : s.enabled wl (.start w op) = true) (w' : W)
    : begun wl ((s.next wl (.start w op)).worker w')
        = begun wl (s.worker w') + if w' = w then 1 else 0 := by
  by_cases hw : w' = w
  . subst hw
    cases hcontrol : (s.worker w').control with
    | idle => simp [Sys.next, begun, ended, hcontrol, Control.isIdle]
    | running => simp [Sys.enabled, hcontrol] at he
  . simp [Sys.next, Sys.setWorker_of_ne hw, hw]

end Begun

section Balanced

variable {wl : Fin n → Workload κ β ε α Op} {r₀ r r' : Rounds n W κ β ε α Op}

theorem isIdle_iff {w : W}
    : r.isIdle w = true ↔ ∀ i, ((r.node i).worker w).control.isIdle = true := by
  simp [isIdle]

theorem control_of_isIdle {w : W} (h : r.isIdle w = true) (i : Fin n)
    : ((r.node i).worker w).control = .idle := by
  have hi := isIdle_iff.mp h i
  cases hcontrol : ((r.node i).worker w).control with
  | idle => rfl
  | running => simp [Control.isIdle, hcontrol] at hi

/-- How a worker's operations are spread: those of earlier jobs, and a share of the current one's. -/
structure Spread (wl : Fin n → Workload κ β ε α Op) (r : Rounds n W κ β ε α Op) (w : W)
    (earlier : Fin n → Nat) : Prop where
  begun : ∀ i, begun (wl i) ((r.node i).worker w) = earlier i + share n (r.currentNode w) i
  antitone : ∀ i j, i ≤ j → earlier j ≤ earlier i
  le : ∀ i j, earlier i ≤ earlier j + r.jobs w

theorem Spread.le_begun {w : W} {earlier : Fin n → Nat} (h : r.Spread wl w earlier) (i j : Fin n)
    : Rounds.begun (wl i) ((r.node i).worker w)
        ≤ Rounds.begun (wl j) ((r.node j).worker w) + r.jobs w + 1 := by
  have hle := h.le i j
  have hshare := share_le_succ (i := i) (r.currentNode w) j.isLt
  rw [h.begun, h.begun]
  omega

variable [DecidableEq W]

theorem Spread.job {w : W} {earlier : Fin n → Nat} (h : r.Spread wl w earlier)
    (w' : W)
    : ∃ earlier', Spread wl { r with
        currentNode := Function.update r.currentNode w' 0
        jobs := Function.update r.jobs w' (r.jobs w' + 1) } w earlier' := by
  by_cases hw : w = w'
  . subst hw
    refine ⟨fun i => earlier i + share n (r.currentNode w) i, ?_, ?_, ?_⟩
    . intro i
      simp [h.begun i, share_zero i.isLt]
    . intro i j hij
      exact Nat.add_le_add (h.antitone i j hij) (share_le _ hij)
    . intro i j
      have hle := h.le i j
      have hshare := share_le_succ (i := i) (r.currentNode w) j.isLt
      simp only [Function.update_self]
      omega
  . refine ⟨earlier, ?_, h.antitone, ?_⟩
    . intro i
      simpa [hw] using h.begun i
    . intro i j
      simpa [hw] using h.le i j

variable [DecidableEq κ] [DecidableEq β]

theorem Spread.on {w : W} {earlier : Fin n → Nat} (h : r.Spread wl w earlier)
    (hstops : ∀ i, StopsOnError (wl i)) {i : Fin n} {a : Action W κ Op} (ha : a.isStart = false)
    (he : (r.node i).enabled (wl i) a = true) : (r.onNode wl i a).Spread wl w earlier := by
  refine ⟨?_, h.antitone, h.le⟩
  intro j
  by_cases hj : j = i
  . subst hj
    rw [onNode_self, begun_next (hstops j) ha he]
    exact h.begun j
  . rw [onNode_of_ne hj]
    exact h.begun j

variable [NeZero n]

theorem Spread.start {w : W} {earlier : Fin n → Nat} (h : r.Spread wl w earlier) {w' : W} {op : Op}
    (he : (r.node (r.turn w')).enabled (wl (r.turn w')) (.start w' op) = true)
    : Spread wl { r.onNode wl (r.turn w') (.start w' op) with
        currentNode := Function.update r.currentNode w' (r.currentNode w' + 1) } w earlier := by
  refine ⟨?_, h.antitone, h.le⟩
  intro j
  have hturn : r.currentNode w % n = j ↔ j = r.turn w := by
    rw [Fin.ext_iff]
    exact eq_comm
  have hshare : share n (Function.update r.currentNode w' (r.currentNode w' + 1) w) j
      = share n (r.currentNode w) j + if j = r.turn w ∧ w = w' then 1 else 0 := by
    by_cases hw : w = w'
    . subst hw
      simp [share_succ _ j.isLt, hturn]
    . simp [hw]
  show Rounds.begun (wl j) (((r.onNode wl (r.turn w') (.start w' op)).node j).worker w) = _
  rw [hshare, ← Nat.add_assoc, ← h.begun j]
  by_cases hj : j = r.turn w'
  . subst hj
    rw [onNode_self, begun_start he]
    by_cases hw : w = w'
    . simp [hw]
    . simp [hw]
  . rw [onNode_of_ne hj]
    have hnot : ¬(j = r.turn w ∧ w = w') := by
      rintro ⟨rfl, rfl⟩
      exact hj rfl
    simp [hnot]

theorem spread_of_reach (hstops : ∀ i, StopsOnError (wl i)) (hfresh : ∀ i, (r₀.node i).Fresh)
    (hzero : ∀ w, r₀.currentNode w = 0) (h : (step wl).Reach Step.any r₀ r) (w : W)
    : ∃ earlier, r.Spread wl w earlier := by
  apply h.invariant (I := fun r => ∃ earlier, r.Spread wl w earlier)
  . refine ⟨fun _ => 0, ?_, fun _ _ _ => Nat.le_refl _, fun _ _ => Nat.zero_le _⟩
    intro i
    rw [hzero, share_zero i.isLt]
    simp [begun, ended, (hfresh i).done, (hfresh i).control, Control.isIdle]
  . rintro r t r' ⟨earlier, hspread⟩ _ hstep
    cases moves_of_step hstep with
    | @job w' => exact hspread.job w'
    | start _ he => exact ⟨earlier, hspread.start he⟩
    | on ha he => exact ⟨earlier, hspread.on hstops ha he⟩

/-- An idle worker's operations on two nodes differ by one for each job at most. -/
theorem ended_le_of_reach (hstops : ∀ i, StopsOnError (wl i)) (hfresh : ∀ i, (r₀.node i).Fresh)
    (hzero : ∀ w, r₀.currentNode w = 0) (h : (step wl).Reach Step.any r₀ r) {w : W}
    (hidle : r.isIdle w = true) (i j : Fin n)
    : ended (wl i) ((r.node i).worker w) ≤ ended (wl j) ((r.node j).worker w) + r.jobs w + 1 := by
  obtain ⟨earlier, hspread⟩ := spread_of_reach hstops hfresh hzero h w
  have hle := hspread.le_begun i j
  rwa [begun_of_isIdle (isIdle_iff.mp hidle i), begun_of_isIdle (isIdle_iff.mp hidle j)] at hle

end Balanced

end Rounds
end Rdma
