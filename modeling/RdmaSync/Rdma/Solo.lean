import RdmaSync.Rdma.Accounting

/-!
This module contains the proof that a worker that runs alone brings its operation to an end, if no
polling loop waits for more completions than its requests generate.
-/

namespace Rdma

variable {W κ β ε α Op : Type}

/-- The action is a step of worker `w` within its operation. -/
def Action.Within (w : W) (a : Action W κ Op) : Prop :=
  match a with
  | .cpu w' _ | .touch w' _ _ | .complete w' _ => w' = w
  | .start .. | .finish _ => False

def Prog.Silent (p : Prog κ β ε α) : Prop :=
  match p with
  | .ret _ | .throw _ => True
  | .post .. | .store .. => False
  | .poll _ _ next => next.Silent
  | .load _ next => ∀ x, (next x).Silent

theorem Prog.silent_ite {c : Prop} [Decidable c] {p q : Prog κ β ε α}
    : (if c then p else q).Silent ↔ if c then p.Silent else q.Silent := by
  split <;> exact Iff.rfl

theorem Worker.cpu_silent [DecidableEq κ] [DecidableEq β] (wl : Workload κ β ε α Op)
    {wk : Worker κ β ε α Op} {op : Op} {since : Nat} {p : Prog κ β ε α} (n : Nat)
    (hcontrol : wk.control = .running op since p) (hp : p.Silent)
    : (wk.cpu wl n).buf = wk.buf ∧ (wk.cpu wl n).queue = wk.queue ∧
        ∃ p', (wk.cpu wl n).control = .running op since p' ∧ p'.Silent := by
  cases p with
  | post | store => exact hp.elim
  | ret | throw =>
    simp only [cpu, hcontrol]
    exact ⟨trivial, trivial, _, rfl, trivial⟩
  | load a next =>
    simp only [cpu, hcontrol]
    exact ⟨trivial, trivial, _, rfl, hp _⟩
  | poll c expected next =>
    simp only [cpu, hcontrol]
    refine ⟨trivial, trivial, _, rfl, ?_⟩
    split <;> exact hp

theorem Verb.allows_head (nic : Nic) (v : Verb β) (chunk : Nat) (pending : List Nat)
    : v.allows nic (chunk :: pending) chunk = true := by
  cases v <;> simp [Verb.allows]

namespace Sys

variable [DecidableEq W] [DecidableEq κ] [DecidableEq β] {wl : Workload κ β ε α Op} {w : W}
  {J : Sys W κ β ε α Op → Prop} {s : Sys W κ β ε α Op}

/-- The steps of worker `w` within its operation keep `J`. -/
def KeptBy (wl : Workload κ β ε α Op) (w : W) (J : Sys W κ β ε α Op → Prop) : Prop :=
  ∀ s a, J s → s.enabled wl a = true → a.Within w → J (s.next wl a)

/-- The states that worker `w` reaches alone, and in which `J` still holds. -/
abbrev Alone (wl : Workload κ β ε α Op) (w : W) (s s' : Sys W κ β ε α Op) : Prop :=
  Reach wl (fun _ a => a.Within w) s s'

theorem KeptBy.reach (hJ : KeptBy wl w J) (hs : J s) {s' : Sys W κ β ε α Op}
    (h : Alone wl w s s') : J s' := by
  induction h with
  | refl => exact hs
  | step a _ he hw ih => exact hJ _ a ih he hw

/-- Worker `w` is at a program without effect, and nothing has changed since `s`. -/
structure AtSilent (w : W) (s s' : Sys W κ β ε α Op) : Prop where
  shared : s'.shared = s.shared
  buf : (s'.worker w).buf = (s.worker w).buf
  queue : ∀ c, (s'.worker w).queue c = []
  silent : ∃ op since p, (s'.worker w).control = .running op since p ∧ p.Silent

theorem keptBy_atSilent (wl : Workload κ β ε α Op) (w : W) (s : Sys W κ β ε α Op)
    : KeptBy wl w (AtSilent w s) := by
  rintro s' a ⟨hshared, hbuf, hqueue, op, since, p, hcontrol, hsilent⟩ he hw
  cases a with
  | start | finish => exact hw.elim
  | touch w' c chunk =>
    obtain rfl : w' = w := hw
    simp [enabled, hqueue] at he
  | complete w' c =>
    obtain rfl : w' = w := hw
    simp [enabled, hqueue] at he
  | cpu w' n =>
    obtain rfl : w' = w := hw
    obtain ⟨hbuf', hqueue', p', hcontrol', hsilent'⟩ := Worker.cpu_silent wl n hcontrol hsilent
    have hworker : (s'.next wl (.cpu w' n)).worker w' = (s'.worker w').cpu wl n := by
      simp [next]
    refine ⟨hshared, ?_, ?_, op, since, p', ?_, hsilent'⟩
    . rw [hworker, hbuf', hbuf]
    . rw [hworker, hqueue']
      exact hqueue
    . rw [hworker, hcontrol']

theorem exists_completed (wl : Workload κ β ε α Op) {c : κ} {f : Flight β Op} {fs : List (Flight β Op)}
    (hq : (s.worker w).queue c = f :: fs)
    : ∃ s', Alone wl w s s' ∧ (s'.worker w).control = (s.worker w).control ∧
        (s'.worker w).queue c = fs ∧
        (s'.worker w).cq c = (s.worker w).cq c + if f.signaled then 1 else 0 := by
  generalize hpending : f.pending = pending
  induction pending generalizing s f with
  | nil =>
    refine ⟨s.next wl (.complete w c), .step (.complete w c) .refl ?_ rfl, ?_, ?_, ?_⟩
    . simp [enabled, hq, hpending]
    all_goals simp [next, Worker.complete, hq]
  | cons chunk pending ih =>
    have hnext : s.next wl (.touch w c chunk)
        = { (s.setWorker w ((s.worker w).touch wl c chunk s.shared.mem)) with
            shared := s.shared.push (f.event w chunk) } := by
      simp only [next, hq]
    have hworker : ((s.next wl (.touch w c chunk)).worker w).control = (s.worker w).control ∧
        ((s.next wl (.touch w c chunk)).worker w).queue c
          = { f with pending := f.pending.erase chunk } :: fs ∧
        ((s.next wl (.touch w c chunk)).worker w).cq c = (s.worker w).cq c := by
      rw [hnext]
      simp [setWorker, Worker.touch, hq]
    obtain ⟨s', hreach, hcontrol, hqueue, hcq⟩ := ih hworker.2.1 (by simp [hpending])
    refine ⟨s', .trans (.step (.touch w c chunk) .refl ?_ rfl) hreach, ?_, hqueue, ?_⟩
    . simp only [enabled, hq, hpending]
      exact Verb.allows_head wl.nic f.verb chunk pending
    . rw [hcontrol, hworker.1]
    . rw [hcq, hworker.2.2]

theorem exists_drained (wl : Workload κ β ε α Op) (w : W) (s : Sys W κ β ε α Op) (c : κ)
    : ∃ s', Alone wl w s s' ∧ (s'.worker w).control = (s.worker w).control ∧
        (s'.worker w).cq c
          = (s.worker w).cq c + ((s.worker w).queue c).countP (·.signaled) := by
  generalize hq : (s.worker w).queue c = queue
  induction queue generalizing s with
  | nil => exact ⟨s, .refl, rfl, by simp⟩
  | cons f fs ih =>
    obtain ⟨s₁, hreach₁, hcontrol₁, hqueue₁, hcq₁⟩ := exists_completed wl hq
    obtain ⟨s₂, hreach₂, hcontrol₂, hcq₂⟩ := ih s₁ hqueue₁
    refine ⟨s₂, hreach₁.trans hreach₂, hcontrol₂.trans hcontrol₁, ?_⟩
    rw [hcq₂, hcq₁, List.countP_cons]
    omega

/-- Worker `w` can bring the operation that began at `since` to an end alone. -/
def EndsAlone (wl : Workload κ β ε α Op) (w : W) (op : Op) (since : Nat)
    (s : Sys W κ β ε α Op) : Prop :=
  ∃ s', Alone wl w s s' ∧
    ((∃ a, (s'.worker w).control = .running op since (.ret a)) ∨
      ∃ e, (s'.worker w).control = .running op since (.throw e))

theorem EndsAlone.of_alone {op : Op} {since : Nat} {s' : Sys W κ β ε α Op}
    (hreach : Alone wl w s s') (h : EndsAlone wl w op since s') : EndsAlone wl w op since s := by
  obtain ⟨s'', hreach', hover⟩ := h
  exact ⟨s'', hreach.trans hreach', hover⟩

/--
A worker that runs alone can bring its operation to an end, if in all states that it reaches a
polling loop asks for no more completions than its requests have generated or will.
-/
theorem endsAlone (hJ : KeptBy wl w J)
    (hawaits : ∀ s op since c n next, J s →
      (s.worker w).control = .running op since (.poll c n next) →
      n ≤ ((s.worker w).queue c).countP (·.signaled) + (s.worker w).cq c)
    {op : Op} {since : Nat} {p : Prog κ β ε α} (hs : J s)
    (hcontrol : (s.worker w).control = .running op since p)
    : EndsAlone wl w op since s := by
  have hcpu (s : Sys W κ β ε α Op) (n : Nat) (he : (s.worker w).cpuEnabled n = true)
      : Alone wl w s (s.next wl (.cpu w n)) :=
    .step (.cpu w n) .refl he rfl
  induction p generalizing s with
  | ret a => exact ⟨s, .refl, .inl ⟨a, hcontrol⟩⟩
  | throw e => exact ⟨s, .refl, .inr ⟨e, hcontrol⟩⟩
  | post c signaled v next ih =>
    have hreach := hcpu s 0 (by simp [Worker.cpuEnabled, hcontrol])
    apply EndsAlone.of_alone hreach
    apply ih (hJ.reach hs hreach)
    simp [Sys.next, Worker.cpu, hcontrol]
  | load a next ih =>
    have hreach := hcpu s 0 (by simp [Worker.cpuEnabled, hcontrol])
    apply EndsAlone.of_alone hreach
    apply ih ((s.worker w).buf a.1 a.2) (hJ.reach hs hreach)
    simp [Sys.next, Worker.cpu, hcontrol]
  | store a x next ih =>
    have hreach := hcpu s 0 (by simp [Worker.cpuEnabled, hcontrol])
    apply EndsAlone.of_alone hreach
    apply ih (hJ.reach hs hreach)
    simp [Sys.next, Worker.cpu, hcontrol]
  | poll c n next ih =>
    -- First the network card completes all requests, then the loop takes what it waits for.
    obtain ⟨s₁, hreach₁, hcontrol₁, hcq₁⟩ := exists_drained wl w s c
    rw [hcontrol] at hcontrol₁
    have hn := hawaits s op since c n next hs hcontrol
    have hreach := hreach₁.trans (hcpu s₁ n (by
      simp only [Worker.cpuEnabled, hcontrol₁, Bool.and_eq_true, decide_eq_true_eq]
      omega))
    apply EndsAlone.of_alone hreach
    apply ih (hJ.reach hs hreach)
    simp [Sys.next, Worker.cpu, hcontrol₁]

theorem endsAlone_of_accounts {depth maxCall : Nat} {S : AccountSpec depth maxCall wl}
    (h : ∀ w, S.WorkerOk (s.worker w)) {op : Op} {since : Nat} {p : Prog κ β ε α}
    (hcontrol : (s.worker w).control = .running op since p)
    : EndsAlone wl w op since s := by
  apply endsAlone (J := fun s => ∀ w, S.WorkerOk (s.worker w)) _ _ h hcontrol
  . intro s a hs he _
    exact AccountSpec.workerOk_next hs a he
  . intro s op since c n next hs hpoll
    exact (hs w).awaits hpoll

end Sys
end Rdma
