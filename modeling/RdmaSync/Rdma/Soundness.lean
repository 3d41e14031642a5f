import RdmaSync.Rdma.Logic

/-!
This module contains the soundness of the weakest preconditions: if every operation of a workload
keeps the discipline and satisfies its weakest precondition, then the protocol invariant holds in
every reachable state, and so does the postcondition of an operation whose requests are all over.
-/

namespace Rdma

variable {W κ β ε α Op : Type} [DecidableEq β] {P : Protocol W β Op}

/--
What is proved about each operation of a workload: the discipline and the weakest precondition.
`ready` is what a worker knows between operations, `post` what it knows about an outcome.
-/
structure Spec (P : Protocol W β Op) (wl : Workload κ β ε α Op) (rctx : κ) where
  ready : W → List (Op × α) → Assertion W β Op
  post : W → Op → Nat → Except ε α → Assertion W β Op
  leftover : List (Verb β × Bool) → Prop
  ends : Op → Except ε α → List (Verb β × Bool) → Prop
  leftover_of_ends : ∀ {op o u}, ends op o u → leftover u
  synced : ∀ op {u}, leftover u → Synced rctx (ends op) (wl.program op) u
  wp_program : ∀ w op since done l s, wl.Follows done op → P.inv s → since ≤ s.hist.length →
    ready w done l s → wp P wl.nic w op
      (fun o l s => post w op since o l s ∧
        match o with
        | .ok a => (wl.after op o).isStop = false → ready w ((op, a) :: done) l s
        | .error _ => (wl.after op o).isStop = false → ready w done l s)
      (wl.program op) l s

namespace Spec

variable {wl : Workload κ β ε α Op} {rctx : κ} (S : Spec P wl rctx)

def outcome (w : W) (op : Op) (since : Nat) (done : List (Op × α)) (o : Except ε α)
    : Assertion W β Op :=
  fun l s => S.post w op since o l s ∧
    match o with
    | .ok a => (wl.after op o).isStop = false → S.ready w ((op, a) :: done) l s
    | .error _ => (wl.after op o).isStop = false → S.ready w done l s

/-- `ready`, now and for as long as the worker does nothing. -/
def settled (w : W) (done : List (Op × α)) : Assertion W β Op :=
  fun l s => ∀ s', P.Rely w s s' → P.inv s' → S.ready w done l s'

theorem settled_closed (w : W) (done : List (Op × α)) : Rely.Closed P w (S.settled w done) := by
  intro l s s' hr h s'' hr'
  exact h s'' (hr.trans hr')

/-- The state of the CPU agrees with the requests `u` that are possibly not over. -/
def ControlOk (w : W) (wk : Worker κ β ε α Op) (u : List (Verb β × Bool)) (s : Shared W β Op)
    : Prop :=
  match wk.control with
  | .idle => S.leftover u ∧ WpQueue P wl.nic w (S.settled w wk.done) (wk.queue rctx) wk.buf s
  | .running op since p =>
    since ≤ s.hist.length ∧ Synced rctx (S.ends op) p u ∧
    WpQueue P wl.nic w (wp P wl.nic w op (S.outcome w op since wk.done) p) (wk.queue rctx)
      wk.buf s

def WorkerOk (w : W) (wk : Worker κ β ε α Op) (s : Shared W β Op) : Prop :=
  (∀ c, c ≠ rctx → wk.queue c = []) ∧
  ∃ u, Tracks u (wk.queue rctx) (wk.cq rctx) ∧ S.ControlOk w wk u s

structure SysOk (s : Sys W κ β ε α Op) : Prop where
  inv : P.inv s.shared
  worker : ∀ w, S.WorkerOk w (s.worker w) s.shared

theorem controlOk_closed {w : W} {wk : Worker κ β ε α Op} {u : List (Verb β × Bool)}
    {s s' : Shared W β Op} (hr : P.Rely w s s') (h : S.ControlOk w wk u s)
    : S.ControlOk w wk u s' := by
  unfold ControlOk at *
  split at h
  . exact ⟨h.1, WpQueue.closed (S.settled_closed w _) hr h.2⟩
  . refine ⟨?_, h.2.1, WpQueue.closed (wp.closed _ _) hr h.2.2⟩
    have := hr.hist_length
    omega

theorem workerOk_closed {w : W} {wk : Worker κ β ε α Op} {s s' : Shared W β Op}
    (hr : P.Rely w s s') (h : S.WorkerOk w wk s) : S.WorkerOk w wk s' := by
  obtain ⟨hother, u, htracks, hcontrol⟩ := h
  exact ⟨hother, u, htracks, S.controlOk_closed hr hcontrol⟩

theorem wp_of_settled {w : W} {op : Op} {done : List (Op × α)} {queue : List (Flight β Op)}
    {l : Local β} {s : Shared W β Op} (hfollows : wl.Follows done op) (hinv : P.inv s)
    (h : WpQueue P wl.nic w (S.settled w done) queue l s)
    : WpQueue P wl.nic w
        (wp P wl.nic w op (S.outcome w op s.hist.length done) (wl.program op)) queue l s := by
  apply WpQueue.mono h hinv
  intro l' s' hinv' hlen _ h'
  exact S.wp_program w op _ done l' s' hfollows hinv' hlen (h' s' (.refl s') hinv')

theorem settled_of_ok {w : W} {op : Op} {since : Nat} {done : List (Op × α)} {a : α}
    {queue : List (Flight β Op)} {l : Local β} {s : Shared W β Op} (hinv : P.inv s)
    (hstop : (wl.after op (.ok a)).isStop = false)
    (h : WpQueue P wl.nic w
      (wp P wl.nic w op (S.outcome w op since done) (.ret a : Prog κ β ε α)) queue l s)
    : WpQueue P wl.nic w (S.settled w ((op, a) :: done)) queue l s := by
  apply WpQueue.mono h hinv
  intro l' s' _ _ _ h' s'' hr hinv''
  exact (h' s'' hr hinv'').2 hstop

theorem settled_of_error {w : W} {op : Op} {since : Nat} {done : List (Op × α)} {e : ε}
    {queue : List (Flight β Op)} {l : Local β} {s : Shared W β Op} (hinv : P.inv s)
    (hstop : (wl.after op (.error e)).isStop = false)
    (h : WpQueue P wl.nic w
      (wp P wl.nic w op (S.outcome w op since done) (.throw e : Prog κ β ε α)) queue l s)
    : WpQueue P wl.nic w (S.settled w done) queue l s := by
  apply WpQueue.mono h hinv
  intro l' s' _ _ _ h' s'' hr hinv''
  exact (h' s'' hr hinv'').2 hstop

section Cpu

variable {w : W} {wk : Worker κ β ε α Op} {s : Shared W β Op}

theorem workerOk_start (op : Op) (hstart : wl.mayStart wk.done op = true) (hinv : P.inv s)
    (hcontrol : wk.control = .idle) (h : S.WorkerOk w wk s)
    : S.WorkerOk w { wk with control := .running op s.hist.length (wl.program op) } s := by
  obtain ⟨hother, u, htracks, hok⟩ := h
  simp only [ControlOk, hcontrol] at hok
  refine ⟨hother, u, htracks, ?_⟩
  exact ⟨Nat.le_refl _, S.synced op hok.1, S.wp_of_settled (.start hstart) hinv hok.2⟩

/-- One instruction of the CPU, split by the instruction. -/
theorem workerOk_cpu [DecidableEq κ] (n : Nat) (hinv : P.inv s) (he : wk.cpuEnabled n = true)
    (h : S.WorkerOk w wk s) : S.WorkerOk w (wk.cpu wl n) s := by
  obtain ⟨hother, u, htracks, hok⟩ := h
  cases hcontrol : wk.control with
  | idle => simp [Worker.cpuEnabled, hcontrol] at he
  | running op since p =>
    simp only [ControlOk, hcontrol] at hok
    obtain ⟨hsince, hsynced, hwp⟩ := hok
    cases p with
    | ret | throw => simp [Worker.cpuEnabled, hcontrol] at he
    | post c signaled v next =>
      obtain ⟨rfl, hsend, hsynced⟩ := hsynced
      simp only [Worker.cpu, hcontrol]
      refine ⟨?_, _, by simpa using htracks.post (Flight.ofVerb wl.nic op signaled v wk.buf), ?_⟩
      . intro c' hc'
        simp only [Function.update_of_ne hc', hother c' hc']
      . refine ⟨hsince, hsynced, ?_⟩
        simp only [Function.update_self]
        apply WpQueue.post hwp hinv
        intro a ha f hf
        exact htracks.not_lands (hsend a ha) hf
    | poll c expected next =>
      obtain ⟨rfl, hsynced⟩ := hsynced
      simp only [Worker.cpuEnabled, hcontrol, Bool.and_eq_true, decide_eq_true_eq] at he
      simp only [Worker.cpu, hcontrol]
      refine ⟨hother, acked u n, by simpa using htracks.poll he.2, hsince, ?_, ?_⟩
      . split
        . next heq => rwa [heq]
        . refine ⟨rfl, ?_⟩
          rwa [acked_acked, show n + (expected - n) = expected by omega]
      . split <;> exact hwp
    | load a next =>
      obtain ⟨hquiet, hsynced⟩ := hsynced
      simp only [Worker.cpu, hcontrol]
      refine ⟨hother, u, htracks, hsince, hsynced _, ?_⟩
      exact WpQueue.load hwp hinv (fun f hf => htracks.not_lands hquiet hf)
    | store a x next =>
      obtain ⟨hquiet, hsynced⟩ := hsynced
      simp only [Worker.cpu, hcontrol]
      refine ⟨hother, u, htracks, hsince, hsynced, ?_⟩
      exact WpQueue.store hwp (fun f hf => htracks.not_lands hquiet hf)

theorem workerOk_resume (wk : Worker κ β ε α Op) {u : List (Verb β × Bool)} (next : Next Op)
    (hfollows : ∀ op, next = .goto op → wl.Follows wk.done op) (hinv : P.inv s)
    (hother : ∀ c, c ≠ rctx → wk.queue c = [])
    (htracks : Tracks u (wk.queue rctx) (wk.cq rctx)) (hleft : S.leftover u)
    (h : WpQueue P wl.nic w (S.settled w wk.done) (wk.queue rctx) wk.buf s)
    : S.WorkerOk w { wk with control := wl.resume s.hist.length next } s := by
  refine ⟨hother, u, htracks, ?_⟩
  cases next with
  | idle | stop => exact ⟨hleft, h⟩
  | goto op => exact ⟨Nat.le_refl _, S.synced op hleft, S.wp_of_settled (hfollows op rfl) hinv h⟩

theorem workerOk_finish (hinv : P.inv s) (he : wk.finishEnabled wl = true)
    (h : S.WorkerOk w wk s) : S.WorkerOk w (wk.finish wl s.hist.length) s := by
  obtain ⟨hother, u, htracks, hok⟩ := h
  cases hcontrol : wk.control with
  | idle => simp [Worker.finishEnabled, hcontrol] at he
  | running op since p =>
    simp only [ControlOk, hcontrol] at hok
    obtain ⟨hsince, hsynced, hwp⟩ := hok
    cases p with
    | ret a =>
      simp only [Worker.finishEnabled, hcontrol, Bool.not_eq_true'] at he
      simp only [Worker.finish, hcontrol]
      apply S.workerOk_resume { wk with done := (op, a) :: wk.done } _ (fun _ => .goto) hinv hother
        htracks
      . exact S.leftover_of_ends hsynced
      . exact S.settled_of_ok hinv he hwp
    | throw e =>
      simp only [Worker.finishEnabled, hcontrol, Bool.not_eq_true'] at he
      simp only [Worker.finish, hcontrol]
      apply S.workerOk_resume wk _ (fun _ => .retry) hinv hother htracks
      . exact S.leftover_of_ends hsynced
      . exact S.settled_of_error hinv he hwp
    | _ => simp [Worker.finishEnabled, hcontrol] at he

end Cpu

section Network

variable {w : W} {wk : Worker κ β ε α Op} {s : Shared W β Op}

theorem WorkerOk.eq_rctx (h : S.WorkerOk w wk s) {c : κ} {f : Flight β Op}
    {fs : List (Flight β Op)} (hq : wk.queue c = f :: fs) : c = rctx := by
  by_contra hc
  rw [h.1 c hc] at hq
  simp at hq

theorem ControlOk.of_queue {wk' : Worker κ β ε α Op} {u : List (Verb β × Bool)}
    {s' : Shared W β Op} (h : S.ControlOk w wk u s) (hcontrol : wk'.control = wk.control)
    (hdone : wk'.done = wk.done) (hlen : s.hist.length ≤ s'.hist.length)
    (hqueue : ∀ Φ, WpQueue P wl.nic w Φ (wk.queue rctx) wk.buf s →
      WpQueue P wl.nic w Φ (wk'.queue rctx) wk'.buf s')
    : S.ControlOk w wk' u s' := by
  unfold ControlOk at *
  rw [hcontrol, hdone]
  split at h
  . exact ⟨h.1, hqueue _ h.2⟩
  . exact ⟨Nat.le_trans h.1 hlen, h.2.1, hqueue _ h.2.2⟩

theorem WpVerb.cases_step {nic : Nic} {op : Op} {v : Verb β} {payload : Nat → Word}
    {Φ : Assertion W β Op} {pending : List Nat} {l : Local β} {s : Shared W β Op} {chunk : Nat}
    (h : WpVerb P nic w op v payload Φ pending l s) (hinv : P.inv s)
    (hallow : v.allows nic pending chunk = true) (hguard : P.guard s ⟨w, op, v, payload, chunk⟩)
    : P.permit s ⟨w, op, v, payload, chunk⟩ ∧
      WpVerb P nic w op v payload Φ (pending.erase chunk) (v.deliver nic chunk s.mem l)
        (s.push ⟨w, op, v, payload, chunk⟩) := by
  cases h with
  | nil => simpa using Verb.mem_of_allows hallow
  | step _ hpermit hnext =>
    exact ⟨hpermit s chunk (.refl s) hinv hallow hguard, hnext s chunk (.refl s) hinv hallow hguard⟩

/-- The assertion behind a queue does not depend on what the first request was. -/
theorem WpQueue.head_permit {Φ : Assertion W β Op} {f : Flight β Op} {fs : List (Flight β Op)}
    {l : Local β} {s : Shared W β Op} {chunk : Nat}
    (h : WpQueue P wl.nic w Φ (f :: fs) l s) (hinv : P.inv s)
    (hallow : f.verb.allows wl.nic f.pending chunk = true) (hguard : P.guard s (f.event w chunk))
    : P.permit s (f.event w chunk) ∧
      WpQueue P wl.nic w Φ ({ f with pending := f.pending.erase chunk } :: fs)
        (f.verb.deliver wl.nic chunk s.mem l) (s.push (f.event w chunk)) := by
  exact WpVerb.cases_step h hinv hallow hguard

theorem WorkerOk.permit (h : S.WorkerOk w wk s) (hinv : P.inv s) {c : κ} {chunk : Nat}
    {f : Flight β Op} {fs : List (Flight β Op)} (hq : wk.queue c = f :: fs)
    (hallow : f.verb.allows wl.nic f.pending chunk = true) (hguard : P.guard s (f.event w chunk))
    : P.permit s (f.event w chunk) := by
  obtain rfl := WorkerOk.eq_rctx S h hq
  obtain ⟨_, u, _, hok⟩ := h
  unfold ControlOk at hok
  split at hok
  . have := hok.2
    rw [hq] at this
    exact (WpQueue.head_permit this hinv hallow hguard).1
  . have := hok.2.2
    rw [hq] at this
    exact (WpQueue.head_permit this hinv hallow hguard).1

theorem workerOk_touch [DecidableEq κ] (h : S.WorkerOk w wk s) (hinv : P.inv s) {c : κ} {chunk : Nat}
    {f : Flight β Op} {fs : List (Flight β Op)} (hq : wk.queue c = f :: fs)
    (hallow : f.verb.allows wl.nic f.pending chunk = true) (hguard : P.guard s (f.event w chunk))
    : S.WorkerOk w (wk.touch wl c chunk s.mem) (s.push (f.event w chunk)) := by
  obtain rfl := WorkerOk.eq_rctx S h hq
  obtain ⟨hother, u, htracks, hok⟩ := h
  simp only [Worker.touch, hq]
  refine ⟨?_, u, ?_, ?_⟩
  . intro c' hc'
    simp only [Function.update_of_ne hc', hother c' hc']
  . rw [hq] at htracks
    simpa using htracks.touch _
  . refine ControlOk.of_queue S hok (by rfl) (by rfl) ?_ ?_
    . simp
    . intro Φ hΦ
      rw [hq] at hΦ
      simpa using (WpQueue.head_permit hΦ hinv hallow hguard).2

theorem workerOk_complete [DecidableEq κ] (h : S.WorkerOk w wk s) {c : κ} {f : Flight β Op}
    {fs : List (Flight β Op)} (hq : wk.queue c = f :: fs) (hpending : f.pending = [])
    : S.WorkerOk w (wk.complete c) s := by
  obtain rfl := WorkerOk.eq_rctx S h hq
  obtain ⟨hother, u, htracks, hok⟩ := h
  simp only [Worker.complete, hq]
  refine ⟨?_, u, ?_, ?_⟩
  . intro c' hc'
    simp only [Function.update_of_ne hc', hother c' hc']
  . rw [hq] at htracks
    simpa using htracks.complete
  . refine ControlOk.of_queue S hok (by rfl) (by rfl) (Nat.le_refl _) ?_
    intro Φ hΦ
    rw [hq] at hΦ
    simp only [WpQueue, hpending] at hΦ
    cases hΦ with
    | nil h => simpa using h
    | step hne => exact absurd rfl hne

end Network

section Run

variable {s₀ s : Sys W κ β ε α Op}
  {cond : Sys W κ β ε α Op → Action W κ Op → Prop}

/-- The run's condition provides what the protocol assumes of each event. -/
def Guards (P : Protocol W β Op) (cond : Sys W κ β ε α Op → Action W κ Op → Prop) : Prop :=
  ∀ s w c chunk f fs, cond s (.touch w c chunk) → (s.worker w).queue c = f :: fs →
    P.guard s.shared (f.event w chunk)

theorem sysOk_setWorker [DecidableEq W] (h : S.SysOk s) {w : W} {wk : Worker κ β ε α Op}
    (hw : S.WorkerOk w wk s.shared) : S.SysOk (s.setWorker w wk) := by
  refine ⟨h.inv, ?_⟩
  intro w'
  by_cases hne : w' = w
  . subst hne
    simpa [Sys.setWorker] using hw
  . simpa [Sys.setWorker, Function.update_of_ne hne] using h.worker w'

theorem sysOk_next [DecidableEq W] [DecidableEq κ] (hguards : Guards P cond) (h : S.SysOk s)
    (a : Action W κ Op) (he : s.enabled wl a = true) (hcond : cond s a)
    : S.SysOk (s.next wl a) := by
  cases a with
  | start w op =>
    simp only [Sys.enabled] at he
    split at he
    . next hcontrol =>
      exact S.sysOk_setWorker h (S.workerOk_start op he h.inv hcontrol (h.worker w))
    . simp at he
  | cpu w n => exact S.sysOk_setWorker h (S.workerOk_cpu n h.inv he (h.worker w))
  | finish w => exact S.sysOk_setWorker h (S.workerOk_finish h.inv he (h.worker w))
  | touch w c chunk =>
    simp only [Sys.enabled] at he
    split at he
    . next f fs hq =>
      have hguard := hguards s w c chunk f fs hcond hq
      have hpermit := WorkerOk.permit S (h.worker w) h.inv hq he hguard
      simp only [Sys.next, hq]
      refine ⟨P.inv_push h.inv hguard hpermit, ?_⟩
      intro w'
      by_cases hne : w' = w
      . subst hne
        simpa [Sys.setWorker] using S.workerOk_touch (h.worker w') h.inv hq he hguard
      . -- For the other workers the event is a step of their environment.
        have hrely : P.Rely w' s.shared (s.shared.push (f.event w chunk)) :=
          .step (.refl _) h.inv hguard hpermit (fun heq => hne heq.symm)
        simpa [Sys.setWorker, Function.update_of_ne hne] using
          S.workerOk_closed hrely (h.worker w')
    . simp at he
  | complete w c =>
    simp only [Sys.enabled] at he
    split at he
    . next f fs hq =>
      apply S.sysOk_setWorker h
      exact S.workerOk_complete (h.worker w) hq (by simpa using he)
    . simp at he

/-- Soundness: the invariant of the run holds in every reachable state. -/
theorem sysOk_of_reach [DecidableEq W] [DecidableEq κ] (hguards : Guards P cond)
    (h₀ : S.SysOk s₀) (h : Sys.Reach wl cond s₀ s) : S.SysOk s := by
  induction h with
  | refl => exact h₀
  | step a _ he hcond ih => exact S.sysOk_next hguards ih a he hcond

theorem sysOk_fresh (hinv : P.inv s₀.shared) (hfresh : s₀.Fresh) (hleft : S.leftover [])
    (hready : ∀ w, S.settled w [] (s₀.worker w).buf s₀.shared) : S.SysOk s₀ := by
  refine ⟨hinv, ?_⟩
  intro w
  refine ⟨fun c _ => hfresh.queue w c, [], ⟨[], by simp [hfresh.queue], by simp [hfresh.cq]⟩, ?_⟩
  unfold ControlOk
  rw [hfresh.control w]
  refine ⟨hleft, ?_⟩
  simpa [hfresh.queue, hfresh.done, WpQueue] using hready w

theorem SysOk.since_le (h : S.SysOk s) {w : W} {op : Op} {since : Nat} {p : Prog κ β ε α}
    (hcontrol : (s.worker w).control = .running op since p)
    : since ≤ s.shared.hist.length := by
  obtain ⟨_, u, _, hok⟩ := h.worker w
  simp only [ControlOk, hcontrol] at hok
  exact hok.1

/-- An outcome's postcondition holds if no request can still be under way there. -/
theorem SysOk.post_ret (h : S.SysOk s) {w : W} {op : Op} {since : Nat} {a : α}
    (hcontrol : (s.worker w).control = .running op since (.ret a))
    (hends : ∀ u, S.ends op (.ok a) u → u = [])
    : S.post w op since (.ok a) (s.worker w).buf s.shared := by
  obtain ⟨_, u, htracks, hok⟩ := h.worker w
  simp only [ControlOk, hcontrol] at hok
  obtain ⟨_, hsynced, hwp⟩ := hok
  obtain rfl := hends u hsynced
  rw [htracks.queue_eq_nil] at hwp
  exact (hwp s.shared (.refl _) h.inv).1

theorem SysOk.post_throw (h : S.SysOk s) {w : W} {op : Op} {since : Nat} {e : ε}
    (hcontrol : (s.worker w).control = .running op since (.throw e))
    (hends : ∀ u, S.ends op (.error e) u → u = [])
    : S.post w op since (.error e) (s.worker w).buf s.shared := by
  obtain ⟨_, u, htracks, hok⟩ := h.worker w
  simp only [ControlOk, hcontrol] at hok
  obtain ⟨_, hsynced, hwp⟩ := hok
  obtain rfl := hends u hsynced
  rw [htracks.queue_eq_nil] at hwp
  exact (hwp s.shared (.refl _) h.inv).1

theorem SysOk.queue_ret (h : S.SysOk s) {w : W} {op : Op} {since : Nat} {a : α}
    (hcontrol : (s.worker w).control = .running op since (.ret a))
    (hends : ∀ u, S.ends op (.ok a) u → u = []) (c : κ) : (s.worker w).queue c = [] := by
  obtain ⟨hother, u, htracks, hok⟩ := h.worker w
  simp only [ControlOk, hcontrol] at hok
  obtain rfl := hends u hok.2.1
  by_cases hc : c = rctx
  . rw [hc]
    exact htracks.queue_eq_nil
  . exact hother c hc

theorem SysOk.queue_idle (h : S.SysOk s) {w : W} (hcontrol : (s.worker w).control = .idle)
    (hleft : ∀ u, S.leftover u → u = []) (c : κ) : (s.worker w).queue c = [] := by
  obtain ⟨hother, u, htracks, hok⟩ := h.worker w
  simp only [ControlOk, hcontrol] at hok
  obtain rfl := hleft u hok.1
  by_cases hc : c = rctx
  . rw [hc]
    exact htracks.queue_eq_nil
  . exact hother c hc

/--
An outcome's postcondition `A` already holds while requests are still under way, if their steps
cannot have made it true.
-/
theorem SysOk.post_ret_of_pull (h : S.SysOk s) {w : W} {op : Op} {since : Nat} {a : α}
    {A : Assertion W β Op}
    (hcontrol : (s.worker w).control = .running op since (.ret a))
    (hpost : ∀ l s, P.inv s → S.post w op since (.ok a) l s → A l s)
    (hpull : ∀ u, S.ends op (.ok a) u → ∀ f : Flight β Op, (f.verb, f.signaled) ∈ u →
      (∀ s chunk, P.guard s (f.event w chunk)) ∧
      ∀ l s chunk, P.inv s → A (f.verb.deliver wl.nic chunk s.mem l) (s.push (f.event w chunk)) →
        A l s)
    : A (s.worker w).buf s.shared := by
  obtain ⟨_, u, htracks, hok⟩ := h.worker w
  simp only [ControlOk, hcontrol] at hok
  obtain ⟨_, hsynced, hwp⟩ := hok
  apply WpQueue.pull _ h.inv
  . intro f hf
    exact hpull u hsynced f (htracks.lands_mem hf)
  . apply hwp.mono h.inv
    intro l' s' hinv' _ _ h'
    exact hpost l' s' hinv' (h' s' (.refl _) hinv').1

theorem SysOk.ready (h : S.SysOk s) {w : W} (hcontrol : (s.worker w).control = .idle)
    (hqueue : (s.worker w).queue rctx = [])
    : S.ready w (s.worker w).done (s.worker w).buf s.shared := by
  obtain ⟨_, u, _, hok⟩ := h.worker w
  simp only [ControlOk, hcontrol, hqueue] at hok
  exact hok.2 s.shared (.refl _) h.inv

end Run

end Spec
end Rdma
