import RdmaSync.Rdma.Prog

/-!
This module contains the operational semantics: workers that run programs on their CPU while the
network cards work off their send queues. The requests of one queue take effect in posting order,
everything else interleaves arbitrarily.
-/

namespace Rdma

variable {W κ β ε α Op : Type}

/-- A posted request. `pending` are its atomic steps that have not taken effect yet. -/
structure Flight (β Op : Type) where
  op : Op
  verb : Verb β
  payload : Nat → Word
  signaled : Bool
  pending : List Nat

def Flight.ofVerb (nic : Nic) (op : Op) (signaled : Bool) (v : Verb β) (l : Local β)
    : Flight β Op where
  op := op
  verb := v
  payload := v.payload l
  signaled := signaled
  pending := v.chunks nic

/-- Whether `chunk` may be the next atomic step of a verb with the given steps left. -/
def Verb.allows (nic : Nic) (v : Verb β) (pending : List Nat) (chunk : Nat) : Bool :=
  pending.contains chunk &&
    match v with
    | .write .. => !nic.inOrderWrites || pending.head? == some chunk
    | _ => true

theorem Verb.mem_of_allows {nic : Nic} {v : Verb β} {pending : List Nat} {chunk : Nat}
    (h : v.allows nic pending chunk = true) : chunk ∈ pending := by
  simp only [allows, Bool.and_eq_true, List.contains_iff_mem] at h
  exact h.1

/-- An atomic step of a verb that took effect on the remote memory. -/
structure Event (W β Op : Type) where
  worker : W
  op : Op
  verb : Verb β
  payload : Nat → Word
  chunk : Nat

/-- All events so far, newest first, each with the memory it acted on. -/
abbrev History (W β Op : Type) := List (Mem × Event W β Op)

/-- The remote memory together with its past, which no program can see. -/
structure Shared (W β Op : Type) where
  mem : Mem
  hist : History W β Op

def Shared.push (s : Shared W β Op) (e : Event W β Op) : Shared W β Op where
  mem := e.verb.place e.payload e.chunk s.mem
  hist := (s.mem, e) :: s.hist

@[simp]
theorem Shared.push_hist (s : Shared W β Op) (e : Event W β Op)
    : (s.push e).hist = (s.mem, e) :: s.hist := by
  rfl

@[simp]
theorem Shared.push_mem (s : Shared W β Op) (e : Event W β Op)
    : (s.push e).mem = e.verb.place e.payload e.chunk s.mem := by
  rfl

/-- The contents of the memory at every instant since the history had `since` entries. -/
def Shared.instants (s : Shared W β Op) (since : Nat) : List Mem :=
  s.mem :: (s.hist.take (s.hist.length - since)).map Prod.fst

theorem Shared.instants_push {s : Shared W β Op} {since : Nat} (hsince : since ≤ s.hist.length)
    (e : Event W β Op) : (s.push e).instants since = (s.push e).mem :: s.instants since := by
  simp only [instants, push_hist, List.length_cons, Nat.succ_sub hsince, List.take_succ_cons,
    List.map_cons]

theorem drop_since {since : Nat} {h h' : History W β Op} (hsuffix : h <:+ h')
    (hsince : since ≤ h.length) : h'.drop (h'.length - since) <:+ h := by
  obtain ⟨es, rfl⟩ := hsuffix
  rw [List.drop_append, List.drop_eq_nil_of_le, List.nil_append]
  . exact List.drop_suffix _ _
  . simp only [List.length_append]
    omega

/-- `s` is the state that `s₁` has become after any number of events. -/
def Shared.Past (s₁ s : Shared W β Op) : Prop :=
  s₁ = s ∨ ∃ e, (s₁.mem, e) :: s₁.hist <:+ s.hist

namespace Shared.Past

variable {s₁ s₂ s : Shared W β Op}

theorem refl (s : Shared W β Op) : s.Past s := by
  exact .inl rfl

theorem push (h : s₁.Past s) (e : Event W β Op) : s₁.Past (s.push e) := by
  rcases h with rfl | ⟨e', h⟩
  . exact .inr ⟨e, List.suffix_refl _⟩
  . exact .inr ⟨e', h.trans (List.suffix_cons _ _)⟩

theorem of_push {e : Event W β Op} (h : s₁.Past (s.push e)) : s₁ = s.push e ∨ s₁.Past s := by
  rcases h with h | ⟨e', h⟩
  . exact .inl h
  . right
    rw [push_hist, List.suffix_cons_iff] at h
    rcases h with h | h
    . left
      simp only [List.cons.injEq, Prod.mk.injEq] at h
      rcases s₁ with ⟨m, hist⟩
      rcases s with ⟨m', hist'⟩
      simp only at h
      rw [h.1.1, h.2]
    . exact .inr ⟨e', h⟩

theorem hist (h : s₁.Past s) : s₁.hist <:+ s.hist := by
  rcases h with rfl | ⟨e, h⟩
  . exact List.suffix_refl _
  . exact (List.suffix_cons _ _).trans h

theorem trans (h : s₁.Past s₂) (h' : s₂.Past s) : s₁.Past s := by
  rcases h' with rfl | ⟨e', h'⟩
  . exact h
  . rcases h with rfl | ⟨e, h⟩
    . exact .inr ⟨e', h'⟩
    . exact .inr ⟨e, h.trans ((List.suffix_cons _ _).trans h')⟩

theorem mem_instants (h : s₁.Past s) {since : Nat} (hsince : since ≤ s₁.hist.length)
    : s₁.mem ∈ s.instants since := by
  rcases h with rfl | ⟨e, es, h⟩
  . exact List.mem_cons_self
  . apply List.mem_cons_of_mem
    rw [List.mem_map]
    refine ⟨(s₁.mem, e), ?_, rfl⟩
    rw [← h]
    -- The event that `s₁` met is among those since `since`.
    have hlen : es.length < (es ++ (s₁.mem, e) :: s₁.hist).length - since := by
      simp only [List.length_append, List.length_cons]
      omega
    rw [List.mem_take_iff_getElem]
    exact ⟨es.length, by simp only [List.length_append, List.length_cons] at *; omega, by simp⟩

end Shared.Past

def pastsOf (h : History W β Op) : List (Shared W β Op) :=
  match h with
  | [] => []
  | (m, _) :: h => ⟨m, h⟩ :: pastsOf h

def Shared.pasts (s : Shared W β Op) : List (Shared W β Op) :=
  s :: pastsOf s.hist

theorem Shared.Past.mem_pasts {s₁ s : Shared W β Op} (h : s₁.Past s) : s₁ ∈ s.pasts := by
  rcases h with rfl | ⟨e, es, h⟩
  . exact List.mem_cons_self
  . apply List.mem_cons_of_mem
    rw [← h]
    clear h
    induction es with
    | nil => exact List.mem_cons_self
    | cons x es ih => exact List.mem_cons_of_mem _ ih

/-- What the CPU of a worker is doing; `since` is the length of the history when `op` began. -/
inductive Control (κ β ε α Op : Type) where
  | idle
  | running (op : Op) (since : Nat) (prog : Prog κ β ε α)

structure Worker (κ β ε α Op : Type) where
  control : Control κ β ε α Op
  buf : Local β
  queue : κ → List (Flight β Op)
  cq : κ → Nat
  done : List (Op × α)

/-- What a worker does when an operation is over; `stop` is the end of the process. -/
inductive Next (Op : Type) where
  | idle
  | goto (op : Op)
  | stop

def Next.isStop (next : Next Op) : Bool :=
  match next with
  | .stop => true
  | _ => false

structure Workload (κ β ε α Op : Type) where
  nic : Nic
  program : Op → Prog κ β ε α
  mayStart : List (Op × α) → Op → Bool
  after : Op → Except ε α → Next Op

/-- How an operation comes to follow the operations `done`. -/
inductive Workload.Follows (wl : Workload κ β ε α Op) : List (Op × α) → Op → Prop where
  | start {done : List (Op × α)} {op : Op} (h : wl.mayStart done op = true) : Follows wl done op
  | goto {done : List (Op × α)} {prev op : Op} {a : α} (h : wl.after prev (.ok a) = .goto op)
    : Follows wl ((prev, a) :: done) op
  | retry {done : List (Op × α)} {prev op : Op} {e : ε} (h : wl.after prev (.error e) = .goto op)
    : Follows wl done op

structure Sys (W κ β ε α Op : Type) where
  shared : Shared W β Op
  worker : W → Worker κ β ε α Op

inductive Action (W κ Op : Type) where
  | start (w : W) (op : Op)
  /-- The CPU executes one instruction; a poll takes `n` completions. -/
  | cpu (w : W) (n : Nat)
  | finish (w : W)
  /-- One atomic step of the oldest request in a queue takes effect. -/
  | touch (w : W) (rctx : κ) (chunk : Nat)
  /-- The oldest request in a queue completes. -/
  | complete (w : W) (rctx : κ)

namespace Action

def cpus (w : W) (n : Nat) : List (Action W κ Op) :=
  List.replicate n (.cpu w 0)

def touches (w : W) (rctx : κ) (chunks : List Nat) : List (Action W κ Op) :=
  chunks.map (.touch w rctx)

def serves (w : W) (rctx : κ) (chunks : List Nat) : List (Action W κ Op) :=
  touches w rctx chunks ++ [.complete w rctx]

end Action

def Flight.event (f : Flight β Op) (w : W) (chunk : Nat) : Event W β Op where
  worker := w
  op := f.op
  verb := f.verb
  payload := f.payload
  chunk := chunk

def Workload.resume (wl : Workload κ β ε α Op) (now : Nat) (next : Next Op)
    : Control κ β ε α Op :=
  match next with
  | .goto op => .running op now (wl.program op)
  | _ => .idle

theorem forall_mem_update [DecidableEq κ] {A : Type} {P : A → Prop} {queue : κ → List A}
    (h : ∀ c, ∀ f ∈ queue c, P f) {c : κ} {fs : List A} (hfs : ∀ f ∈ fs, P f)
    : ∀ c', ∀ f ∈ Function.update queue c fs c', P f := by
  intro c'
  by_cases hc : c' = c
  . subst hc
    rwa [Function.update_self]
  . rw [Function.update_of_ne hc]
    exact h c'

theorem forall_update [DecidableEq κ] {A B C : Type} {P : A → B → C → Prop} {f : κ → A} {g : κ → B}
    {h : κ → C} (hP : ∀ c, P (f c) (g c) (h c)) (c : κ) {x : A} {y : B} {z : C} (hc : P x y z)
    (c' : κ)
    : P (Function.update f c x c') (Function.update g c y c') (Function.update h c z c') := by
  by_cases heq : c' = c
  . subst heq
    simpa only [Function.update_self] using hc
  . simpa only [Function.update_of_ne heq] using hP c'

namespace Worker

variable [DecidableEq κ] [DecidableEq β] (wl : Workload κ β ε α Op)

def cpuEnabled (wk : Worker κ β ε α Op) (n : Nat) : Bool :=
  match wk.control with
  | .running _ _ (.poll rctx expected _) => n ≤ expected && n ≤ wk.cq rctx
  | .running _ _ (.ret _) | .running _ _ (.throw _) | .idle => false
  | _ => true

def cpu (wk : Worker κ β ε α Op) (n : Nat) : Worker κ β ε α Op :=
  match wk.control with
  | .running op since (.post rctx signaled v next) =>
    let f := Flight.ofVerb wl.nic op signaled v wk.buf
    { wk with
      control := .running op since next
      queue := Function.update wk.queue rctx (wk.queue rctx ++ [f]) }
  | .running op since (.poll rctx expected next) =>
    { wk with
      control := .running op since (if n = expected then next else .poll rctx (expected - n) next)
      cq := Function.update wk.cq rctx (wk.cq rctx - n) }
  | .running op since (.load a next) =>
    { wk with control := .running op since (next (wk.buf a.1 a.2)) }
  | .running op since (.store a v next) =>
    { wk with control := .running op since next, buf := wk.buf.set a v }
  | _ => wk

def finishEnabled (wk : Worker κ β ε α Op) : Bool :=
  match wk.control with
  | .running op _ (.ret a) => !(wl.after op (.ok a)).isStop
  | .running op _ (.throw e) => !(wl.after op (.error e)).isStop
  | _ => false

def finish (wk : Worker κ β ε α Op) (now : Nat) : Worker κ β ε α Op :=
  match wk.control with
  | .running op _ (.ret a) =>
    { wk with control := wl.resume now (wl.after op (.ok a)), done := (op, a) :: wk.done }
  | .running op _ (.throw e) => { wk with control := wl.resume now (wl.after op (.error e)) }
  | _ => wk

def touch (wk : Worker κ β ε α Op) (rctx : κ) (chunk : Nat) (m : Mem) : Worker κ β ε α Op :=
  match wk.queue rctx with
  | f :: fs =>
    let f' := { f with pending := f.pending.erase chunk }
    { wk with
      buf := f.verb.deliver wl.nic chunk m wk.buf
      queue := Function.update wk.queue rctx (f' :: fs) }
  | [] => wk

def complete (wk : Worker κ β ε α Op) (rctx : κ) : Worker κ β ε α Op :=
  match wk.queue rctx with
  | f :: fs =>
    { wk with
      queue := Function.update wk.queue rctx fs
      cq := Function.update wk.cq rctx (wk.cq rctx + if f.signaled then 1 else 0) }
  | [] => wk

section Control

variable {wk : Worker κ β ε α Op}

theorem control_cpu {op : Op} {since : Nat} {p : Prog κ β ε α} (n : Nat)
    (h : wk.control = .running op since p)
    : ∃ p', (wk.cpu wl n).control = .running op since p' := by
  unfold cpu
  rw [h]
  cases p with
  | ret | throw => exact ⟨_, h⟩
  | _ => exact ⟨_, rfl⟩

omit [DecidableEq β] in
theorem control_complete (rctx : κ) : (wk.complete rctx).control = wk.control := by
  unfold complete
  split <;> rfl

end Control

section Done

variable (wk : Worker κ β ε α Op)

theorem done_cpu (n : Nat) : (wk.cpu wl n).done = wk.done := by
  unfold cpu
  split <;> rfl

theorem done_touch (rctx : κ) (chunk : Nat) (m : Mem)
    : (wk.touch wl rctx chunk m).done = wk.done := by
  unfold touch
  split <;> rfl

omit [DecidableEq β] in
theorem done_complete (rctx : κ) : (wk.complete rctx).done = wk.done := by
  unfold complete
  split <;> rfl

omit [DecidableEq κ] [DecidableEq β] in
theorem done_finish (now : Nat)
    : (wk.finish wl now).done = wk.done ∨
      ∃ d since, wk.control = .running d.1 since (.ret d.2) ∧
        (wk.finish wl now).done = d :: wk.done := by
  unfold finish
  split
  . next op since a hcontrol => exact .inr ⟨(op, a), since, hcontrol, rfl⟩
  . exact .inl rfl
  . exact .inl rfl

end Done

end Worker

namespace Sys

/-- Nothing has happened yet: no operation, no request, no completion. -/
structure Fresh (s : Sys W κ β ε α Op) : Prop where
  hist : s.shared.hist = []
  control : ∀ w, (s.worker w).control = .idle
  queue : ∀ w rctx, (s.worker w).queue rctx = []
  cq : ∀ w rctx, (s.worker w).cq rctx = 0
  done : ∀ w, (s.worker w).done = []

def initial (m : Mem) (l : Local β) : Sys W κ β ε α Op where
  shared := { mem := m, hist := [] }
  worker := fun _ =>
    { control := .idle, buf := l, queue := fun _ => [], cq := fun _ => 0, done := [] }

theorem initial_fresh (m : Mem) (l : Local β) : (initial m l : Sys W κ β ε α Op).Fresh := by
  constructor <;> intros <;> rfl

structure Quiescent (s : Sys W κ β ε α Op) : Prop where
  control : ∀ w, (s.worker w).control = .idle
  queue : ∀ w rctx, (s.worker w).queue rctx = []

section SetWorker

variable [DecidableEq W]

def setWorker (s : Sys W κ β ε α Op) (w : W) (wk : Worker κ β ε α Op) : Sys W κ β ε α Op :=
  { s with worker := Function.update s.worker w wk }

@[simp]
theorem setWorker_self (s : Sys W κ β ε α Op) (w : W) (wk : Worker κ β ε α Op)
    : (s.setWorker w wk).worker w = wk := by
  simp [setWorker]

theorem setWorker_of_ne {s : Sys W κ β ε α Op} {w w' : W} (h : w' ≠ w) (wk : Worker κ β ε α Op)
    : (s.setWorker w wk).worker w' = s.worker w' := by
  simp [setWorker, h]

theorem forall_setWorker {P : Worker κ β ε α Op → Prop} {s : Sys W κ β ε α Op}
    (h : ∀ w, P (s.worker w)) {w : W} {wk : Worker κ β ε α Op} (hwk : P wk) (w' : W)
    : P ((s.setWorker w wk).worker w') := by
  by_cases hw : w' = w
  . subst hw
    rwa [setWorker_self]
  . rw [setWorker_of_ne hw]
    exact h w'

end SetWorker

variable [DecidableEq W] [DecidableEq κ] [DecidableEq β] (wl : Workload κ β ε α Op)

def enabled (s : Sys W κ β ε α Op) (a : Action W κ Op) : Bool :=
  match a with
  | .start w op =>
    match (s.worker w).control with
    | .idle => wl.mayStart (s.worker w).done op
    | .running .. => false
  | .cpu w n => (s.worker w).cpuEnabled n
  | .finish w => (s.worker w).finishEnabled wl
  | .touch w rctx chunk =>
    match (s.worker w).queue rctx with
    | f :: _ => f.verb.allows wl.nic f.pending chunk
    | [] => false
  | .complete w rctx =>
    match (s.worker w).queue rctx with
    | f :: _ => f.pending.isEmpty
    | [] => false

def next (s : Sys W κ β ε α Op) (a : Action W κ Op) : Sys W κ β ε α Op :=
  match a with
  | .start w op =>
    s.setWorker w
      { s.worker w with control := .running op s.shared.hist.length (wl.program op) }
  | .cpu w n => s.setWorker w ((s.worker w).cpu wl n)
  | .finish w => s.setWorker w ((s.worker w).finish wl s.shared.hist.length)
  | .touch w rctx chunk =>
    match (s.worker w).queue rctx with
    | f :: _ =>
      { (s.setWorker w ((s.worker w).touch wl rctx chunk s.shared.mem)) with
        shared := s.shared.push (f.event w chunk) }
    | [] => s
  | .complete w rctx => s.setWorker w ((s.worker w).complete rctx)

section Next

variable {wl : Workload κ β ε α Op} {s : Sys W κ β ε α Op}

/-- Only a touch has an effect on the shared memory. -/
theorem next_shared {a : Action W κ Op} (ha : ∀ w rctx chunk, a ≠ .touch w rctx chunk)
    : (s.next wl a).shared = s.shared := by
  cases a with
  | touch w rctx chunk => exact absurd rfl (ha w rctx chunk)
  | _ => rfl

theorem hist_suffix_next (a : Action W κ Op) : s.shared.hist <:+ (s.next wl a).shared.hist := by
  cases a with
  | touch w rctx chunk =>
    simp only [next]
    split
    . exact List.suffix_cons _ _
    . exact List.suffix_refl _
  | _ => exact List.suffix_refl _

theorem done_next (a : Action W κ Op) (w : W)
    : ((s.next wl a).worker w).done = (s.worker w).done ∨
      ∃ d since, (s.worker w).control = .running d.1 since (.ret d.2) ∧
        ((s.next wl a).worker w).done = d :: (s.worker w).done := by
  have hset {w' : W} {wk : Worker κ β ε α Op}
      (h : wk.done = (s.worker w').done ∨ ∃ d since,
        (s.worker w').control = .running d.1 since (.ret d.2) ∧ wk.done = d :: (s.worker w').done)
      : ((s.setWorker w' wk).worker w).done = (s.worker w).done ∨
        ∃ d since, (s.worker w).control = .running d.1 since (.ret d.2) ∧
          ((s.setWorker w' wk).worker w).done = d :: (s.worker w).done := by
    by_cases hw : w = w'
    . subst hw
      rwa [setWorker_self]
    . rw [setWorker_of_ne hw]
      exact .inl rfl
  cases a with
  | start w' op => exact hset (.inl rfl)
  | cpu w' n => exact hset (.inl (Worker.done_cpu wl _ n))
  | finish w' => exact hset (Worker.done_finish wl _ _)
  | touch w' rctx chunk =>
    simp only [next]
    split
    . exact hset (.inl (Worker.done_touch wl _ rctx chunk _))
    . exact .inl rfl
  | complete w' rctx => exact hset (.inl (Worker.done_complete _ rctx))

end Next

/-- The states that runs from `s₀` reach, where every step of the run meets the condition `cond`. -/
inductive Reach (cond : Sys W κ β ε α Op → Action W κ Op → Prop) (s₀ : Sys W κ β ε α Op)
    : Sys W κ β ε α Op → Prop where
  | refl : Reach cond s₀ s₀
  | step {s : Sys W κ β ε α Op} (a : Action W κ Op) : Reach cond s₀ s → s.enabled wl a →
    cond s a → Reach cond s₀ (s.next wl a)

abbrev anyStep (_ : Sys W κ β ε α Op) (_ : Action W κ Op) : Prop := True

def runIf (cond : Sys W κ β ε α Op → Action W κ Op → Bool) (s : Sys W κ β ε α Op)
    (as : List (Action W κ Op)) : Option (Sys W κ β ε α Op) :=
  match as with
  | [] => some s
  | a :: as => if s.enabled wl a && cond s a then (s.next wl a).runIf cond as else none

def run (s : Sys W κ β ε α Op) (as : List (Action W κ Op)) : Option (Sys W κ β ε α Op) :=
  s.runIf wl (fun _ _ => true) as

theorem Reach.trans {wl : Workload κ β ε α Op}
    {cond : Sys W κ β ε α Op → Action W κ Op → Prop} {s s' s'' : Sys W κ β ε α Op}
    (h : Reach wl cond s s') (h' : Reach wl cond s' s'') : Reach wl cond s s'' := by
  induction h' with
  | refl => exact h
  | step a _ he hc ih => exact .step a ih he hc

theorem Reach.mono {wl : Workload κ β ε α Op}
    {cond cond' : Sys W κ β ε α Op → Action W κ Op → Prop} {s s' : Sys W κ β ε α Op}
    (hcond : ∀ s a, cond s a → cond' s a) (h : Reach wl cond s s') : Reach wl cond' s s' := by
  induction h with
  | refl => exact .refl
  | step a _ he hc ih => exact .step a ih he (hcond _ a hc)

theorem Reach.forall_hist {wl : Workload κ β ε α Op}
    {cond : Sys W κ β ε α Op → Action W κ Op → Prop} (P : Mem × Event W β Op → Prop)
    (hcond : ∀ s w rctx chunk f fs, cond s (.touch w rctx chunk) →
      (s.worker w).queue rctx = f :: fs → P (s.shared.mem, f.event w chunk))
    {s s' : Sys W κ β ε α Op} (h : Reach wl cond s s') (hs : ∀ x ∈ s.shared.hist, P x)
    : ∀ x ∈ s'.shared.hist, P x := by
  induction h with
  | refl => exact hs
  | step a _ _ hc ih =>
    cases a with
    | touch w rctx chunk =>
      simp only [next]
      split
      . next f fs hq =>
        intro x hx
        rw [Shared.push_hist, List.mem_cons] at hx
        rcases hx with rfl | hx
        . exact hcond _ w rctx chunk f fs hc hq
        . exact ih x hx
      . exact ih
    | _ => exact ih

theorem Reach.forall_done {wl : Workload κ β ε α Op}
    {cond : Sys W κ β ε α Op → Action W κ Op → Prop} {s s' : Sys W κ β ε α Op} (P : Op × α → Prop)
    (hret : ∀ s', Reach wl cond s s' → ∀ w d since,
      (s'.worker w).control = .running d.1 since (.ret d.2) → P d)
    (h : Reach wl cond s s') (hs : ∀ w, ∀ d ∈ (s.worker w).done, P d) (w : W)
    : ∀ d ∈ (s'.worker w).done, P d := by
  induction h with
  | refl => exact hs w
  | @step s' a hreach _ _ ih =>
    have hnext : ((s'.next wl a).worker w).done = (s'.worker w).done ∨ _ := done_next a w
    rcases hnext with hdone | ⟨d, since, hcontrol, hdone⟩
    . rwa [hdone]
    . rw [hdone]
      exact List.forall_mem_cons.mpr ⟨hret _ hreach w d since hcontrol, ih⟩

theorem reach_of_runIf {wl : Workload κ β ε α Op}
    {cond : Sys W κ β ε α Op → Action W κ Op → Bool} {as : List (Action W κ Op)}
    {s s' : Sys W κ β ε α Op} (h : s.runIf wl cond as = some s')
    : Reach wl (fun s a => cond s a = true) s s' := by
  induction as generalizing s with
  | nil =>
    simp only [runIf, Option.some.injEq] at h
    rw [h]
    exact .refl
  | cons a as ih =>
    simp only [runIf] at h
    split at h
    . next he =>
      rw [Bool.and_eq_true] at he
      exact (Reach.step a .refl he.1 he.2).trans (ih h)
    . simp at h

theorem exists_reach_of_runIf {wl : Workload κ β ε α Op}
    {cond : Sys W κ β ε α Op → Action W κ Op → Bool} {as : List (Action W κ Op)}
    {s : Sys W κ β ε α Op} {p : Sys W κ β ε α Op → Bool} (h : (s.runIf wl cond as).any p = true)
    : ∃ s', Reach wl (fun s a => cond s a = true) s s' ∧ p s' = true := by
  cases hrun : s.runIf wl cond as with
  | none => simp [hrun] at h
  | some s' => exact ⟨s', reach_of_runIf hrun, by simpa [hrun] using h⟩

theorem exists_reach_of_run {wl : Workload κ β ε α Op} {as : List (Action W κ Op)}
    {s : Sys W κ β ε α Op} {p : Sys W κ β ε α Op → Bool} (h : (s.run wl as).any p = true)
    : ∃ s', Reach wl anyStep s s' ∧ p s' = true := by
  obtain ⟨s', hreach, hp⟩ := exists_reach_of_runIf h
  exact ⟨s', hreach.mono fun _ _ _ => trivial, hp⟩

end Sys
end Rdma
