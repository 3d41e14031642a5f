import Mathlib.Logic.Function.Basic
import RdmaSync.Threads.Transition

/-!
This module contains programs of atomic steps on a shared state, and threads that make calls to a
set of such programs in any interleaving.
-/

namespace Threads

/--
A program that returns an `α`. A step waits until it is `enabled`, and the environment makes a
choice in it.
-/
inductive Prog (S α : Type) where
  | ret (a : α)
  | fail
  | atomic (enabled : S → Bool → Bool) (update : S → Bool → S) (next : S → Bool → Prog S α)

namespace Prog

variable {S α β γ : Type}

def bind (p : Prog S α) (f : α → Prog S β) : Prog S β :=
  match p with
  | .ret a => f a
  | .fail => .fail
  | .atomic enabled update next => .atomic enabled update (fun s b => (next s b).bind f)

instance : Monad (Prog S) where
  pure := .ret
  bind := .bind

@[simp]
theorem pure_eq (a : α) : (pure a : Prog S α) = .ret a := by
  rfl

@[simp]
theorem bind_ret (a : α) (f : α → Prog S β) : (.ret a : Prog S α) >>= f = f a := by
  rfl

@[simp]
theorem bind_fail (f : α → Prog S β) : (.fail : Prog S α) >>= f = .fail := by
  rfl

@[simp]
theorem bind_atomic (enabled : S → Bool → Bool) (update : S → Bool → S)
    (next : S → Bool → Prog S α) (f : α → Prog S β)
    : (.atomic enabled update next) >>= f
        =
      .atomic enabled update (fun s b => next s b >>= f) := by
  rfl

@[simp]
theorem bind_ite (c : Prop) [Decidable c] (p q : Prog S α) (f : α → Prog S β)
    : (if c then p else q) >>= f = if c then p >>= f else q >>= f := by
  split <;> rfl

@[simp]
theorem bind_assoc (p : Prog S α) (f : α → Prog S β) (g : β → Prog S γ)
    : (p >>= f) >>= g = p >>= fun a => f a >>= g := by
  induction p with
  | ret => rfl
  | fail => rfl
  | atomic _ _ _ ih => simp [ih]

def load (f : S → α) : Prog S α :=
  .atomic (fun _ _ => true) (fun s _ => s) (fun s _ => .ret (f s))

def store (f : S → S) : Prog S Unit :=
  .atomic (fun _ _ => true) (fun s _ => f s) (fun _ _ => .ret ())

def await (p : S → Bool) (f : S → S) : Prog S Unit :=
  .atomic (fun s _ => p s) (fun s _ => f s) (fun _ _ => .ret ())

/-- Change the state if it satisfies `p`. The attempt may also fail if it does. -/
def attempt (p : S → Bool) (f : S → S) : Prog S Bool :=
  .atomic (fun _ _ => true) (fun s b => if b && p s then f s else s) (fun s b => .ret (b && p s))

def exchange (p : S → Bool) (f : S → S) (g : S → α) : Prog S (Bool × α) :=
  .atomic (fun _ _ => true) (fun s _ => if p s then f s else s) (fun s _ => .ret (p s, g s))

def ensure (b : Bool) : Prog S Unit :=
  if b then .ret () else .fail

end Prog

variable {T S Call R : Type}

structure Interface (T S Call R : Type) where
  body : T → Call → Prog S R
  mayCall : T → Call → S → Bool

inductive Thread (S Call R : Type) where
  | idle
  | running (call : Call) (prog : Prog S R)

structure Config (T S Call R : Type) where
  shared : S
  thread : T → Thread S Call R

/-- What may happen next: a thread makes a call, or it takes a step in which a choice is made. -/
inductive Action (T Call : Type) where
  | call (t : T) (call : Call)
  | step (t : T) (choice : Bool)
  deriving DecidableEq

def Action.thread (a : Action T Call) : T :=
  match a with
  | .call t _ | .step t _ => t

def Action.meets (cond : T → Call → S → Bool) (s : S) (a : Action T Call) : Bool :=
  match a with
  | .call t c => cond t c s
  | .step _ _ => true

variable [DecidableEq T]

def Config.setThread (s : Config T S Call R) (t : T) (thread : Thread S Call R)
    : Config T S Call R :=
  { s with thread := Function.update s.thread t thread }

namespace Interface

variable (I : Interface T S Call R)

def step : Step (Config T S Call R) (Action T Call) := fun s a =>
  match a with
  | .call t call =>
    match s.thread t with
    | .idle => if I.mayCall t call s.shared then
        some (s.setThread t (.running call (I.body t call)))
      else
        none
    | .running _ _ => none
  | .step t choice =>
    match s.thread t with
    | .idle => none
    | .running call prog =>
      match prog with
      | .ret _ => some (s.setThread t .idle)
      | .fail => none
      | .atomic enabled update next =>
        if enabled s.shared choice then
          some
            { s.setThread t (.running call (next s.shared choice)) with
              shared := update s.shared choice }
        else
          none

def start (s : S) : Config T S Call R where
  shared := s
  thread := fun _ => .idle

/-- The last step of a call of thread `t`, after which it returns `r`. -/
def LastStep (s : Config T S Call R) (t : T) (call : Call) (r : R) (s' : Config T S Call R)
    : Prop :=
  ∃ choice, I.step s (.step t choice) = some s' ∧ s'.thread t = .running call (.ret r)

def restrict (cond : T → Call → S → Bool) : Interface T S Call R :=
  { I with mayCall := fun t call s => I.mayCall t call s && cond t call s }

inductive Moves (s : Config T S Call R) : T → Config T S Call R → Prop where
  | call {t : T} {call : Call} (hthread : s.thread t = .idle)
    (hmay : I.mayCall t call s.shared = true)
    : Moves s t (s.setThread t (.running call (I.body t call)))
  | ret {t : T} {call : Call} {r : R} (hthread : s.thread t = .running call (.ret r))
    : Moves s t (s.setThread t .idle)
  | atomic {t : T} {call : Call} {enabled : S → Bool → Bool} {update : S → Bool → S}
    {next : S → Bool → Prog S R} {choice : Bool}
    (hthread : s.thread t = .running call (.atomic enabled update next))
    (henabled : enabled s.shared choice = true)
    : Moves s t
      { s.setThread t (.running call (next s.shared choice)) with
        shared := update s.shared choice }

variable {I}

theorem moves_of_step {s s' : Config T S Call R} {a : Action T Call} (h : I.step s a = some s')
    : I.Moves s a.thread s' := by
  cases a with
  | call t call =>
    simp only [step] at h
    split at h
    . next hthread =>
      simp only [Option.ite_none_right_eq_some, Option.some.injEq] at h
      obtain ⟨hmay, rfl⟩ := h
      exact .call hthread hmay
    . simp at h
  | step t choice =>
    simp only [step] at h
    split at h
    . simp at h
    . next call prog hthread =>
      cases prog with
      | ret r =>
        obtain rfl := Option.some.inj h
        exact .ret hthread
      | fail => simp at h
      | atomic enabled update next =>
        simp only [Option.ite_none_right_eq_some, Option.some.injEq] at h
        obtain ⟨henabled, rfl⟩ := h
        exact .atomic hthread henabled

theorem step_restrict {cond : T → Call → S → Bool} {s s' : Config T S Call R} {a : Action T Call}
    (hcond : a.meets cond s.shared = true) (h : I.step s a = some s')
    : (I.restrict cond).step s a = some s' := by
  cases a with
  | call t call =>
    have hmay : cond t call s.shared = true := hcond
    simpa [step, restrict, hmay] using h
  | step t choice => exact h

theorem reach_restrict {cond : T → Call → S → Bool} {s s' : Config T S Call R}
    (h : Step.Reach I.step (fun s a => a.meets cond s.shared = true) s s')
    : Step.Reach (I.restrict cond).step Step.any s s' := by
  induction h with
  | refl => exact .refl
  | next a _ hcond hstep ih => exact .next a ih trivial (step_restrict hcond hstep)

theorem lastStep_restrict {cond : T → Call → S → Bool} {s s' : Config T S Call R} {t : T}
    {call : Call} {r : R} (h : I.LastStep s t call r s') : (I.restrict cond).LastStep s t call r s' := by
  obtain ⟨choice, hstep, hthread⟩ := h
  exact ⟨choice, step_restrict rfl hstep, hthread⟩

end Interface
end Threads
