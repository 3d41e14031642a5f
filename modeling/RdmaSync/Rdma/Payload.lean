import RdmaSync.Rdma.Discipline

/-!
This module contains the discipline under which a network card may fetch the payload of a WRITE at any
time until the request takes effect: nothing changes the words that a posted WRITE sends. Each queue
has buffers of its own.
-/

namespace Rdma

variable {W κ β ε α γ Op : Type}

/-- All local words of a verb are in buffers that satisfy `own`. -/
def Verb.Uses (own : β → Prop) (v : Verb β) : Prop :=
  ∀ a, v.lands a ∨ v.sends a → own a.1

def Verb.isWrite (v : Verb β) : Bool :=
  match v with
  | .write .. => true
  | _ => false

theorem Verb.isWrite_of_sends {v : Verb β} {a : β × Nat} (h : v.sends a) : v.isWrite = true := by
  cases v with
  | write => rfl
  | _ => exact h.elim

def Unsent (u : List (Verb β × Bool)) (a : β × Nat) : Prop :=
  ∀ p ∈ u, ¬p.1.sends a

@[simp]
theorem unsent_nil (a : β × Nat) : Unsent [] a := by
  simp [Unsent]

/--
The program only uses the queue `rctx` and its buffers, and keeps the payloads: it stores no word that
a request in `u` sends, other than those that are `risky`, and sends no word that one may write.
-/
def KeepsPayloads (rctx : κ) (own : β → Prop) (risky : β × Nat → Prop)
    (ends : Except ε α → List (Verb β × Bool) → Prop) (p : Prog κ β ε α)
    (u : List (Verb β × Bool)) : Prop :=
  match p with
  | .ret a => ends (.ok a) u
  | .throw e => ends (.error e) u
  | .post c signaled v next =>
    c = rctx ∧ v.Uses own ∧ (∀ a, v.sends a → Quiet u a) ∧
    KeepsPayloads rctx own risky ends next (u ++ [(v, signaled)])
  | .poll c n next => c = rctx ∧ KeepsPayloads rctx own risky ends next (acked u n)
  | .load _ next => ∀ x, KeepsPayloads rctx own risky ends (next x) u
  | .store a _ next =>
    own a.1 ∧ (risky a ∨ Unsent u a) ∧ KeepsPayloads rctx own risky ends next u

namespace KeepsPayloads

variable {rctx : κ} {own : β → Prop} {risky : β × Nat → Prop}
  {ends : Except ε α → List (Verb β × Bool) → Prop} {u : List (Verb β × Bool)}

theorem bind {ends' : Except ε γ → List (Verb β × Bool) → Prop} {p : Prog κ β ε α}
    {f : α → Prog κ β ε γ} (h : KeepsPayloads rctx own risky ends p u)
    (hok : ∀ a u, ends (.ok a) u → KeepsPayloads rctx own risky ends' (f a) u)
    (herror : ∀ e u, ends (.error e) u → ends' (.error e) u)
    : KeepsPayloads rctx own risky ends' (p >>= f) u := by
  induction p generalizing u with
  | ret a => exact hok a u h
  | throw e => exact herror e u h
  | post c signaled v next ih => exact ⟨h.1, h.2.1, h.2.2.1, ih h.2.2.2⟩
  | poll c n next ih => exact ⟨h.1, ih h.2⟩
  | load a next ih => exact fun x => ih x (h x)
  | store a v next ih => exact ⟨h.1, h.2.1, ih h.2.2⟩

theorem read_poll {memAddr : β × Nat} {remoteOffset bytes : Nat} {next : Prog κ β ε α}
    (hown : own memAddr.1) (hu : ∀ p ∈ u, p.2 = false)
    (h : KeepsPayloads rctx own risky ends next [])
    : KeepsPayloads rctx own risky ends
        (.post rctx true (.read memAddr remoteOffset bytes) (.poll rctx 1 next)) u := by
  refine ⟨rfl, ?_, fun _ h => h.elim, rfl, ?_⟩
  . rintro a (ha | ha)
    . rwa [ha.1]
    . exact ha.elim
  . rwa [acked_append_signaled hu]

theorem forEach_read {memAddr : β × Nat} {remoteOffset bytes : Nat} {next : Prog κ β ε α}
    {xs : List γ} (hown : own memAddr.1)
    (h : KeepsPayloads rctx own risky ends next
      (u ++ List.replicate xs.length (.read memAddr remoteOffset bytes, true)))
    : KeepsPayloads rctx own risky ends
        ((Prog.forEach xs fun _ =>
          .post rctx true (.read memAddr remoteOffset bytes) (.ret ())) >>= fun _ => next) u := by
  induction xs generalizing u with
  | nil => simpa using h
  | cons x xs ih =>
    refine ⟨rfl, ?_, fun _ h => h.elim, ?_⟩
    . rintro a (ha | ha)
      . rwa [ha.1]
      . exact ha.elim
    . apply ih
      rwa [List.append_assoc, List.singleton_append, ← List.replicate_succ]

theorem check {c : Prop} [Decidable c] {e : ε} {p : Prog κ β ε α} (hthrow : ends (.error e) u)
    (h : KeepsPayloads rctx own risky ends p u)
    : KeepsPayloads rctx own risky ends (if c then .throw e else p) u := by
  split
  . exact hthrow
  . exact h

theorem poll_some {expected n : Nat} {next : Prog κ β ε α} (hn : n ≤ expected)
    (h : KeepsPayloads rctx own risky ends (.poll rctx expected next) u)
    : KeepsPayloads rctx own risky ends
        (if n = expected then next else .poll rctx (expected - n) next) (acked u n) := by
  split
  . next heq =>
    rw [heq]
    exact h.2
  . refine ⟨rfl, ?_⟩
    rw [acked_acked, show n + (expected - n) = expected by omega]
    exact h.2

theorem of_local {loads stores : β × Nat → Prop} {throws : ε → Prop} {p : Prog κ β ε γ}
    {f : γ → Prog κ β ε α} (hp : p.Local loads stores throws)
    (hstores : ∀ a, stores a → own a.1 ∧ Unsent u a)
    (hthrows : ∀ e, throws e → ends (.error e) u)
    (hf : ∀ a, KeepsPayloads rctx own risky ends (f a) u)
    : KeepsPayloads rctx own risky ends (p >>= f) u := by
  induction hp with
  | ret a => exact hf a
  | throw e h => exact hthrows e h
  | load a next _ _ ih => exact ih
  | store a v next h _ ih => exact ⟨(hstores a h).1, .inr (hstores a h).2, ih⟩

end KeepsPayloads

/-- Whatever is fetched for the requests of a worker is what it posted. -/
def Worker.PayloadsKept (wk : Worker κ β ε α Op) : Prop :=
  ∀ c, ∀ f ∈ wk.queue c, f.verb.payload wk.buf = f.payload

/--
What is proved about each operation of a workload whose queues have buffers of their own. `leftover`
holds of the requests that are possibly not over between operations.
-/
structure PayloadSpec (wl : Workload κ β ε α Op) where
  queue : Op → κ
  own : κ → β → Prop
  own_inj : ∀ {c c' b}, own c b → own c' b → c = c'
  risky : Op → β × Nat → Prop
  leftover : κ → List (Verb β × Bool) → Prop
  ends : Op → Except ε α → List (Verb β × Bool) → Prop
  leftover_nil : ∀ c, leftover c []
  leftover_of_ends : ∀ {op o u}, ends op o u → leftover (queue op) u
  keeps : ∀ op {u}, leftover (queue op) u →
    KeepsPayloads (queue op) (own (queue op)) (risky op) (ends op) (wl.program op) u

namespace PayloadSpec

variable {wl : Workload κ β ε α Op} (S : PayloadSpec wl)

def Guards (cond : Sys W κ β ε α Op → Action W κ Op → Prop) : Prop :=
  ∀ s w n op since a x next, cond s (.cpu w n) →
    (s.worker w).control = .running op since (.store a x next) → S.risky op a →
    ∀ f ∈ (s.worker w).queue (S.queue op), ¬f.verb.sends a

structure QueuesOk (wk : Worker κ β ε α Op) : Prop where
  kept : wk.PayloadsKept
  uses : ∀ c, ∀ f ∈ wk.queue c, f.verb.Uses (S.own c)
  order : ∀ c, (wk.queue c).Pairwise fun f g => ∀ a, g.verb.sends a → ¬f.verb.lands a

def ControlOk (u : κ → List (Verb β × Bool)) (control : Control κ β ε α Op) : Prop :=
  match control with
  | .idle => ∀ c, S.leftover c (u c)
  | .running op _ p =>
    KeepsPayloads (S.queue op) (S.own (S.queue op)) (S.risky op) (S.ends op) p (u (S.queue op)) ∧
    ∀ c, c ≠ S.queue op → S.leftover c (u c)

namespace QueuesOk

variable {S} {wk wk' : Worker κ β ε α Op}

theorem congr (h : S.QueuesOk wk) (hqueue : wk'.queue = wk.queue) (hbuf : wk'.buf = wk.buf)
    : S.QueuesOk wk' := by
  constructor
  . intro c f hf
    rw [hbuf]
    exact h.kept c f (hqueue ▸ hf)
  . intro c f hf
    exact h.uses c f (hqueue ▸ hf)
  . intro c
    rw [hqueue]
    exact h.order c

/-- A word that one request sends belongs to the queue of this request only. -/
theorem queue_eq (h : S.QueuesOk wk) {c c' : κ} {f g : Flight β Op} {a : β × Nat}
    (hf : f ∈ wk.queue c) (hg : g ∈ wk.queue c') (hlands : f.verb.lands a)
    (hsends : g.verb.sends a) : c = c' := by
  exact S.own_inj (h.uses c f hf a (.inl hlands)) (h.uses c' g hg a (.inr hsends))

theorem update [DecidableEq κ] (h : S.QueuesOk wk) {c : κ} {fs : List (Flight β Op)}
    (hkept : ∀ f ∈ fs, f.verb.payload wk.buf = f.payload)
    (huses : ∀ f ∈ fs, f.verb.Uses (S.own c))
    (horder : fs.Pairwise fun f g => ∀ a, g.verb.sends a → ¬f.verb.lands a)
    : S.QueuesOk { wk with queue := Function.update wk.queue c fs } := by
  constructor
  . exact forall_mem_update h.kept hkept
  . exact (Function.forall_update_iff wk.queue fun c fs => ∀ f ∈ fs, f.verb.Uses (S.own c)).mpr
      ⟨huses, fun c' _ => h.uses c'⟩
  . exact (Function.forall_update_iff wk.queue fun _ fs =>
      fs.Pairwise fun f g => ∀ a, g.verb.sends a → ¬f.verb.lands a).mpr
      ⟨horder, fun c' _ => h.order c'⟩

theorem post [DecidableEq κ] (h : S.QueuesOk wk) {c : κ} {op : Op} {signaled : Bool} {v : Verb β}
    (huses : v.Uses (S.own c)) (hquiet : ∀ a, v.sends a → ∀ f ∈ wk.queue c, ¬f.verb.lands a)
    : S.QueuesOk { wk with
        queue := Function.update wk.queue c
          (wk.queue c ++ [Flight.ofVerb wl.nic op signaled v wk.buf]) } := by
  apply h.update
  . simp only [List.forall_mem_append, List.forall_mem_singleton]
    exact ⟨h.kept c, rfl⟩
  . simp only [List.forall_mem_append, List.forall_mem_singleton]
    exact ⟨h.uses c, huses⟩
  . rw [List.pairwise_append]
    refine ⟨h.order c, List.pairwise_singleton _ _, ?_⟩
    intro f hf g hg a hsends
    rw [List.mem_singleton.mp hg] at hsends
    exact hquiet a hsends f hf

theorem store [DecidableEq β] (h : S.QueuesOk wk) {a : β × Nat} {x : Word}
    (hunsent : ∀ c, ∀ f ∈ wk.queue c, ¬f.verb.sends a)
    : S.QueuesOk { wk with buf := wk.buf.set a x } := by
  refine ⟨?_, h.uses, h.order⟩
  intro c f hf
  rw [← h.kept c f hf]
  apply Verb.payload_congr
  intro b i hsends
  apply Local.set_of_ne
  rintro rfl
  exact hunsent c f hf hsends

/-- What the oldest request of a queue writes, no request sends. -/
theorem deliver [DecidableEq β] (h : S.QueuesOk wk) {c : κ} {f : Flight β Op}
    {fs : List (Flight β Op)} (hq : wk.queue c = f :: fs) (nic : Nic) (chunk : Nat) (m : Mem)
    : S.QueuesOk { wk with buf := f.verb.deliver nic chunk m wk.buf } := by
  have hhead : f ∈ wk.queue c := by simp [hq]
  refine ⟨?_, h.uses, h.order⟩
  intro c' g hg
  rw [← h.kept c' g hg]
  apply Verb.payload_congr
  intro b i hsends
  apply Verb.deliver_of_not_lands
  intro hlands
  obtain rfl := h.queue_eq hhead hg hlands hsends
  have horder := h.order c
  rw [hq, List.pairwise_cons] at horder
  rw [hq] at hg
  rcases List.mem_cons.mp hg with rfl | hg
  . exact Verb.not_lands_of_sends hsends hlands
  . exact horder.1 g hg _ hsends hlands

theorem touch [DecidableEq κ] [DecidableEq β] (h : S.QueuesOk wk) (c : κ) (chunk : Nat) (m : Mem)
    : S.QueuesOk (wk.touch wl c chunk m) := by
  unfold Worker.touch
  split
  . next f fs hq =>
    have hdeliver := h.deliver hq wl.nic chunk m
    have hkept := hdeliver.kept c
    have huses := hdeliver.uses c
    have horder := hdeliver.order c
    simp only [hq, List.forall_mem_cons, List.pairwise_cons] at hkept huses horder
    apply hdeliver.update
    . exact List.forall_mem_cons.mpr hkept
    . exact List.forall_mem_cons.mpr huses
    . exact List.pairwise_cons.mpr horder
  . exact h

theorem complete [DecidableEq κ] (h : S.QueuesOk wk) (c : κ) : S.QueuesOk (wk.complete c) := by
  unfold Worker.complete
  split
  . next f fs hq =>
    have hkept := h.kept c
    have huses := h.uses c
    have horder := h.order c
    simp only [hq, List.forall_mem_cons, List.pairwise_cons] at hkept huses horder
    exact (h.update hkept.2 huses.2 horder.2).congr rfl rfl
  . exact h

end QueuesOk

def WorkerOk (wk : Worker κ β ε α Op) : Prop :=
  S.QueuesOk wk ∧ ∃ u, (∀ c, Tracks (u c) (wk.queue c) (wk.cq c)) ∧ S.ControlOk u wk.control

variable {S} {wk : Worker κ β ε α Op}

theorem ControlOk.update [DecidableEq κ] {u : κ → List (Verb β × Bool)} {op : Op} {since : Nat}
    {p q : Prog κ β ε α} {v : List (Verb β × Bool)} (h : S.ControlOk u (.running op since p))
    (hq : KeepsPayloads (S.queue op) (S.own (S.queue op)) (S.risky op) (S.ends op) q v)
    : S.ControlOk (Function.update u (S.queue op) v) (.running op since q) := by
  refine ⟨?_, ?_⟩
  . rwa [Function.update_self]
  . intro c hc
    rw [Function.update_of_ne hc]
    exact h.2 c hc

theorem workerOk_cpu [DecidableEq κ] [DecidableEq β] (n : Nat) (he : wk.cpuEnabled n = true)
    (hguard : ∀ op since a x next, wk.control = .running op since (.store a x next) →
      S.risky op a → ∀ f ∈ wk.queue (S.queue op), ¬f.verb.sends a)
    (h : S.WorkerOk wk) : S.WorkerOk (wk.cpu wl n) := by
  obtain ⟨hqueues, u, htracks, hcontrol⟩ := h
  cases hc : wk.control with
  | idle => simp [Worker.cpuEnabled, hc] at he
  | running op since p =>
    rw [hc] at hcontrol
    have hkeeps := hcontrol.1
    cases p with
    | ret | throw => simp [Worker.cpuEnabled, hc] at he
    | post c signaled v next =>
      obtain ⟨rfl, huses, hquiet, hnext⟩ := hkeeps
      simp only [Worker.cpu, hc]
      refine ⟨(hqueues.post huses ?_).congr rfl rfl, _, ?_, hcontrol.update hnext⟩
      . intro a hsends f hf
        exact (htracks _).not_lands (hquiet a hsends) hf
      . intro c'
        have := forall_update htracks (S.queue op)
          ((htracks (S.queue op)).post (Flight.ofVerb wl.nic op signaled v wk.buf)) c'
        rwa [Function.update_eq_self] at this
    | poll c expected next =>
      simp only [Worker.cpuEnabled, hc, Bool.and_eq_true, decide_eq_true_eq] at he
      obtain rfl := hkeeps.1
      simp only [Worker.cpu, hc]
      refine ⟨hqueues.congr rfl rfl, _, ?_, hcontrol.update (hkeeps.poll_some he.1)⟩
      intro c'
      have := forall_update htracks (S.queue op) ((htracks (S.queue op)).poll he.2) c'
      rwa [Function.update_eq_self] at this
    | load a next =>
      simp only [Worker.cpu, hc]
      exact ⟨hqueues.congr rfl rfl, u, htracks, hkeeps _, hcontrol.2⟩
    | store a x next =>
      obtain ⟨hown, hunsent, hnext⟩ := hkeeps
      simp only [Worker.cpu, hc]
      refine ⟨(hqueues.store ?_).congr rfl rfl, u, htracks, hnext, hcontrol.2⟩
      intro c f hf hsends
      obtain rfl := S.own_inj (hqueues.uses c f hf a (.inr hsends)) hown
      rcases hunsent with hrisky | hunsent
      . exact hguard op since a x next hc hrisky f hf hsends
      . exact hunsent _ ((htracks _).lands_mem hf) hsends

theorem controlOk_resume {u : κ → List (Verb β × Bool)} (h : ∀ c, S.leftover c (u c)) (now : Nat)
    (next : Next Op) : S.ControlOk u (wl.resume now next) := by
  cases next with
  | goto op => exact ⟨S.keeps op (h _), fun c _ => h c⟩
  | _ => exact h

theorem workerOk_finish (now : Nat) (h : S.WorkerOk wk) : S.WorkerOk (wk.finish wl now) := by
  obtain ⟨hqueues, u, htracks, hcontrol⟩ := h
  cases hc : wk.control with
  | idle =>
    simp only [Worker.finish, hc]
    exact ⟨hqueues, u, htracks, hcontrol⟩
  | running op since p =>
    have hleft {o : Except ε α} (hends : S.ends op o (u (S.queue op))) : ∀ c, S.leftover c (u c) := by
      rw [hc] at hcontrol
      intro c
      by_cases hqueue : c = S.queue op
      . subst hqueue
        exact S.leftover_of_ends hends
      . exact hcontrol.2 c hqueue
    have hkeeps := hcontrol
    rw [hc] at hkeeps
    cases p with
    | ret a =>
      simp only [Worker.finish, hc]
      exact ⟨hqueues.congr rfl rfl, u, htracks, controlOk_resume (hleft hkeeps.1) now _⟩
    | throw e =>
      simp only [Worker.finish, hc]
      exact ⟨hqueues.congr rfl rfl, u, htracks, controlOk_resume (hleft hkeeps.1) now _⟩
    | _ =>
      simp only [Worker.finish, hc]
      exact ⟨hqueues, u, htracks, hcontrol⟩

theorem workerOk_touch [DecidableEq κ] [DecidableEq β] (c : κ) (chunk : Nat) (m : Mem)
    (h : S.WorkerOk wk) : S.WorkerOk (wk.touch wl c chunk m) := by
  obtain ⟨hqueues, u, htracks, hcontrol⟩ := h
  refine ⟨hqueues.touch c chunk m, u, ?_, ?_⟩
  . unfold Worker.touch
    split
    . next f fs hq =>
      intro c'
      have hc := htracks c
      rw [hq] at hc
      have := forall_update htracks c (hc.touch (f.pending.erase chunk)) c'
      rwa [Function.update_eq_self, Function.update_eq_self] at this
    . exact htracks
  . unfold Worker.touch
    split <;> exact hcontrol

theorem workerOk_complete [DecidableEq κ] (c : κ) (h : S.WorkerOk wk)
    : S.WorkerOk (wk.complete c) := by
  obtain ⟨hqueues, u, htracks, hcontrol⟩ := h
  refine ⟨hqueues.complete c, u, ?_, ?_⟩
  . unfold Worker.complete
    split
    . next f fs hq =>
      intro c'
      have hc := htracks c
      rw [hq] at hc
      have := forall_update htracks c hc.complete c'
      rwa [Function.update_eq_self] at this
    . exact htracks
  . unfold Worker.complete
    split <;> exact hcontrol

variable [DecidableEq W] [DecidableEq κ] [DecidableEq β] {s₀ s : Sys W κ β ε α Op}
  {cond : Sys W κ β ε α Op → Action W κ Op → Prop}

theorem workerOk_next (hguards : S.Guards cond) (h : ∀ w, S.WorkerOk (s.worker w))
    (a : Action W κ Op) (he : s.enabled wl a = true) (hcond : cond s a) (w : W)
    : S.WorkerOk ((s.next wl a).worker w) := by
  cases a with
  | start w' op =>
    simp only [Sys.enabled] at he
    split at he
    . next hcontrol =>
      obtain ⟨hqueues, u, htracks, hok⟩ := h w'
      rw [hcontrol] at hok
      have hstarted : S.WorkerOk { s.worker w' with
          control := .running op s.shared.hist.length (wl.program op) } :=
        ⟨hqueues.congr rfl rfl, u, htracks, controlOk_resume hok _ (.goto op)⟩
      exact Sys.forall_setWorker h hstarted w
    . simp at he
  | cpu w' n =>
    refine Sys.forall_setWorker h (workerOk_cpu n he ?_ (h w')) w
    intro op since a x next hcontrol
    exact hguards s w' n op since a x next hcond hcontrol
  | finish w' => exact Sys.forall_setWorker h (workerOk_finish _ (h w')) w
  | touch w' c chunk =>
    simp only [Sys.next]
    split
    . exact Sys.forall_setWorker h (workerOk_touch c chunk _ (h w')) w
    . exact h w
  | complete w' c => exact Sys.forall_setWorker h (workerOk_complete c (h w')) w

theorem payloadsKept_of_reach (S : PayloadSpec wl) (hguards : S.Guards cond) (hfresh : s₀.Fresh)
    (h : Sys.Reach wl cond s₀ s) (w : W) : (s.worker w).PayloadsKept := by
  have hok : ∀ w, S.WorkerOk (s.worker w) := by
    induction h with
    | refl =>
      intro w
      refine ⟨?_, fun _ => [], ?_, ?_⟩
      . constructor <;> intro c <;> simp [hfresh.queue]
      . intro c
        exact ⟨[], by simp [hfresh.queue], by simp [hfresh.cq]⟩
      . rw [hfresh.control w]
        exact S.leftover_nil
    | step a _ he hcond ih => exact workerOk_next hguards ih a he hcond
  exact (hok w).1.kept

end PayloadSpec
end Rdma
