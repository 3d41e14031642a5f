import RdmaSync.Rdma.Discipline

/-!
This module contains the accounting of completions: which requests of a worker are possibly not over,
how many completions they still generate, and how many of them a polling loop asks for.
-/

namespace Rdma

variable {W κ β ε α γ Op : Type}

section Signals

variable {u : List (Verb β × Bool)}

theorem signals_acked (u : List (Verb β × Bool)) (n : Nat)
    : signals (acked u n) = signals u - n := by
  induction u generalizing n with
  | nil => simp
  | cons p u ih =>
    rcases p with ⟨v, signaled⟩
    cases n with
    | zero => simp
    | succ n =>
      cases signaled with
      | true =>
        rw [acked_signaled, ih, signals_cons]
        simp only [↓reduceIte]
        omega
      | false => rw [acked_unsignaled, ih, signals_cons]; simp

theorem signals_eq_zero (h : ∀ p ∈ u, p.2 = false) : signals u = 0 := by
  rw [signals, List.countP_eq_zero]
  intro p hp
  simp [h p hp]

theorem signals_replicate (v : Verb β) (signaled : Bool) (n : Nat)
    : signals (List.replicate n (v, signaled)) = if signaled then n else 0 := by
  cases signaled <;> simp [signals, List.countP_replicate]

/-- What has been posted signaled and not been polled is in the send queue or has completed. -/
theorem Tracks.signals_eq {queue : List (Flight β Op)} {cq : Nat} (h : Tracks u queue cq)
    : signals u = queue.countP (·.signaled) + cq := by
  obtain ⟨d, rfl, rfl⟩ := h
  rw [signals_append, Nat.add_comm]
  congr 1
  rw [signals, List.countP_map]
  rfl

theorem Tracks.of_nil {queue : List (Flight β Op)} {cq : Nat} (h : Tracks [] queue cq)
    : queue = [] ∧ cq = 0 := by
  have hsignals := h.signals_eq
  rw [signals_nil] at hsignals
  exact ⟨h.queue_eq_nil, by omega⟩

end Signals

section Accounts

variable [DecidableEq κ]

/--
When the program begins with the requests `u` possibly not over, it never has more than `depth`
signaled requests per queue that it has not polled, no polling loop asks for more than `maxCall`
completions or for more than there will be, and `ends` holds of each outcome and the requests that
are possibly not over then.
-/
def Accounts (depth maxCall : Nat)
    (ends : Except ε α → (κ → List (Verb β × Bool)) → Prop) (p : Prog κ β ε α)
    (u : κ → List (Verb β × Bool)) : Prop :=
  match p with
  | .ret a => ends (.ok a) u
  | .throw e => ends (.error e) u
  | .post c signaled v next =>
    (signaled = true → signals (u c) < depth) ∧
    Accounts depth maxCall ends next (Function.update u c (u c ++ [(v, signaled)]))
  | .poll c n next =>
    n ≤ maxCall ∧ n ≤ signals (u c) ∧
    Accounts depth maxCall ends next (Function.update u c (acked (u c) n))
  | .load _ next => ∀ x, Accounts depth maxCall ends (next x) u
  | .store _ _ next => Accounts depth maxCall ends next u

namespace Accounts

variable {depth maxCall : Nat} {ends : Except ε α → (κ → List (Verb β × Bool)) → Prop}
  {u : κ → List (Verb β × Bool)}

theorem poll_some {c : κ} {expected n : Nat} {next : Prog κ β ε α} (hn : n ≤ expected)
    (h : Accounts depth maxCall ends (.poll c expected next) u)
    : Accounts depth maxCall ends (if n = expected then next else .poll c (expected - n) next)
        (Function.update u c (acked (u c) n)) := by
  obtain ⟨hcall, hsignals, hnext⟩ := h
  split
  . next heq => rwa [heq]
  . refine ⟨by omega, ?_, ?_⟩
    . rw [Function.update_self, signals_acked]
      omega
    rw [Function.update_idem, Function.update_self, acked_acked,
      show n + (expected - n) = expected by omega]
    exact hnext

theorem bind {ends' : Except ε γ → (κ → List (Verb β × Bool)) → Prop} {p : Prog κ β ε α}
    {f : α → Prog κ β ε γ} (h : Accounts depth maxCall ends p u)
    (hok : ∀ a u, ends (.ok a) u → Accounts depth maxCall ends' (f a) u)
    (herror : ∀ e u, ends (.error e) u → ends' (.error e) u)
    : Accounts depth maxCall ends' (p >>= f) u := by
  induction p generalizing u with
  | ret a => exact hok a u h
  | throw e => exact herror e u h
  | post c signaled v next ih => exact ⟨h.1, ih h.2⟩
  | poll c n next ih => exact ⟨h.1, h.2.1, ih h.2.2⟩
  | load a next ih => exact fun x => ih x (h x)
  | store a v next ih => exact ih h

theorem of_local {loads stores : β × Nat → Prop} {throws : ε → Prop} {p : Prog κ β ε γ}
    {f : γ → Prog κ β ε α} (hp : p.Local loads stores throws)
    (hthrows : ∀ e, throws e → ends (.error e) u)
    (hf : ∀ a, Accounts depth maxCall ends (f a) u)
    : Accounts depth maxCall ends (p >>= f) u := by
  induction hp with
  | ret a => exact hf a
  | throw e h => exact hthrows e h
  | load a next _ _ ih => exact ih
  | store a v next _ _ ih => exact ih

theorem check {c : Prop} [Decidable c] {e : ε} {p : Prog κ β ε α} (hthrow : ends (.error e) u)
    (h : Accounts depth maxCall ends p u)
    : Accounts depth maxCall ends (if c then .throw e else p) u := by
  split
  . exact hthrow
  . exact h

theorem post_unsignaled {c : κ} {v : Verb β} {next : Prog κ β ε α}
    (h : Accounts depth maxCall ends next (Function.update u c (u c ++ [(v, false)])))
    : Accounts depth maxCall ends (.post c false v next) u := by
  exact ⟨fun h => absurd h Bool.false_ne_true, h⟩

theorem post_poll {c : κ} {v : Verb β} {next : Prog κ β ε α} (hdepth : 0 < depth)
    (hcall : 0 < maxCall) (hu : ∀ p ∈ u c, p.2 = false)
    (h : Accounts depth maxCall ends next (Function.update u c []))
    : Accounts depth maxCall ends (.post c true v (.poll c 1 next)) u := by
  refine ⟨fun _ => ?_, hcall, by simp, ?_⟩
  . rwa [signals_eq_zero hu]
  . rwa [Function.update_idem, Function.update_self, acked_append_signaled hu, acked_nil]

theorem forEach_unsignaled {c : κ} {v : γ → Verb β} {xs : List γ} {next : Prog κ β ε α}
    (hu : ∀ p ∈ u c, p.2 = false)
    (h : ∀ q, (∀ p ∈ q, p.2 = false) →
      Accounts depth maxCall ends next (Function.update u c q))
    : Accounts depth maxCall ends
        ((Prog.forEach xs fun x => .post c false (v x) (.ret ())) >>= fun _ => next) u := by
  induction xs generalizing u with
  | nil =>
    have := h (u c) hu
    rwa [Function.update_eq_self] at this
  | cons x xs ih =>
    apply post_unsignaled
    apply ih
    . rw [Function.update_self]
      intro p hp
      rcases List.mem_append.mp hp with hp | hp
      . exact hu p hp
      . rw [List.mem_singleton.mp hp]
    . intro q hq
      rw [Function.update_idem]
      exact h q hq

def posted (u : κ → List (Verb β × Bool)) (ctx : γ → κ) (signaled : Bool) (v : Verb β)
    (xs : List γ) (c : κ) : List (Verb β × Bool) :=
  u c ++ List.replicate (xs.countP fun x => decide (ctx x = c)) (v, signaled)

theorem posted_cons (ctx : γ → κ) (signaled : Bool) (v : Verb β) (x : γ) (xs : List γ)
    : posted u ctx signaled v (x :: xs)
        = posted (Function.update u (ctx x) (u (ctx x) ++ [(v, signaled)])) ctx signaled v xs := by
  funext c
  unfold posted
  by_cases hc : ctx x = c
  . subst hc
    rw [Function.update_self, List.append_assoc, List.singleton_append, List.countP_cons]
    simp [← List.replicate_succ]
  . rw [Function.update_of_ne (Ne.symm hc), List.countP_cons]
    simp [hc]

theorem signals_posted (ctx : γ → κ) (signaled : Bool) (v : Verb β) (xs : List γ) (c : κ)
    : signals (posted u ctx signaled v xs c) = signals (u c)
        + if signaled then xs.countP (fun x => decide (ctx x = c)) else 0 := by
  rw [posted, signals_append, signals_replicate]

theorem forEach_post {ctx : γ → κ} {signaled : Bool} {v : Verb β} {xs : List γ}
    {next : Prog κ β ε α}
    (hdepth : signaled = true → ∀ c, signals (posted u ctx signaled v xs c) ≤ depth)
    (h : Accounts depth maxCall ends next (posted u ctx signaled v xs))
    : Accounts depth maxCall ends
        ((Prog.forEach xs fun x => .post (ctx x) signaled v (.ret ())) >>= fun _ => next) u := by
  induction xs generalizing u with
  | nil =>
    have hnil : posted u ctx signaled v [] = u := by
      funext c
      simp [posted]
    rwa [hnil] at h
  | cons x xs ih =>
    rw [posted_cons] at hdepth h
    refine ⟨?_, ih hdepth h⟩
    intro hsignaled
    have hle := hdepth hsignaled (ctx x)
    rw [signals_posted, Function.update_self, signals_append, signals_cons, hsignaled] at hle
    simp only [signals_nil, ↓reduceIte] at hle
    omega

end Accounts

/--
What is proved about each operation of a workload. `leftover` holds of the requests that are possibly
not over between operations, and `verbs` of those while an operation runs.
-/
structure AccountSpec (depth maxCall : Nat) (wl : Workload κ β ε α Op) where
  leftover : (κ → List (Verb β × Bool)) → Prop
  verbs : Op → Verb β → Prop
  ends : Op → Except ε α → (κ → List (Verb β × Bool)) → Prop
  leftover_nil : leftover (fun _ => [])
  leftover_of_ends : ∀ {op o u}, ends op o u → leftover u
  verbs_of_leftover : ∀ {u}, leftover u → ∀ op c, ∀ p ∈ u c, verbs op p.1
  posts : ∀ op, (wl.program op).Posts (verbs op)
  accounts : ∀ op {u}, leftover u → Accounts depth maxCall (ends op) (wl.program op) u

namespace AccountSpec

variable {depth maxCall : Nat} {wl : Workload κ β ε α Op} (S : AccountSpec depth maxCall wl)

def WorkerOk (wk : Worker κ β ε α Op) : Prop :=
  ∃ u, (∀ c, Tracks (u c) (wk.queue c) (wk.cq c)) ∧ (∀ c, signals (u c) ≤ depth) ∧
    match wk.control with
    | .idle => S.leftover u
    | .running op _ p =>
      (∀ c, ∀ q ∈ u c, S.verbs op q.1) ∧ p.Posts (S.verbs op) ∧
      Accounts depth maxCall (S.ends op) p u

variable {S} {wk : Worker κ β ε α Op}

theorem workerOk_cpu [DecidableEq β] (n : Nat) (he : wk.cpuEnabled n = true) (h : S.WorkerOk wk)
    : S.WorkerOk (wk.cpu wl n) := by
  obtain ⟨u, htracks, hdepth, hok⟩ := h
  cases hcontrol : wk.control with
  | idle => simp [Worker.cpuEnabled, hcontrol] at he
  | running op since p =>
    simp only [hcontrol] at hok
    obtain ⟨hverbs, hposts, hok⟩ := hok
    cases p with
    | ret | throw => simp [Worker.cpuEnabled, hcontrol] at he
    | post c signaled v next =>
      simp only [Worker.cpu, hcontrol]
      refine ⟨Function.update u c (u c ++ [(v, signaled)]), ?_, ?_, ?_, hposts.2, hok.2⟩
      . intro c'
        have := forall_update htracks c ((htracks c).post (Flight.ofVerb wl.nic op signaled v wk.buf)) c'
        rwa [Function.update_eq_self] at this
      . intro c'
        by_cases hc : c' = c
        . subst hc
          rw [Function.update_self, signals_append, signals_cons, signals_nil]
          have hle := hdepth c'
          cases signaled with
          | true =>
            have := hok.1 rfl
            simp only [↓reduceIte]
            omega
          | false => simpa using hle
        . rw [Function.update_of_ne hc]
          exact hdepth c'
      . apply forall_mem_update hverbs
        intro q hq
        rcases List.mem_append.mp hq with hq | hq
        . exact hverbs c q hq
        . rw [List.mem_singleton.mp hq]
          exact hposts.1
    | poll c expected next =>
      simp only [Worker.cpuEnabled, hcontrol, Bool.and_eq_true, decide_eq_true_eq] at he
      simp only [Worker.cpu, hcontrol]
      refine ⟨Function.update u c (acked (u c) n), ?_, ?_, ?_, ?_, hok.poll_some he.1⟩
      . intro c'
        have := forall_update htracks c ((htracks c).poll he.2) c'
        rwa [Function.update_eq_self] at this
      . intro c'
        by_cases hc : c' = c
        . subst hc
          rw [Function.update_self]
          rw [signals_acked]
          exact Nat.le_trans (Nat.sub_le _ _) (hdepth c')
        . rw [Function.update_of_ne hc]
          exact hdepth c'
      . exact forall_mem_update hverbs fun q hq => hverbs c q (mem_of_mem_acked hq)
      . split <;> exact hposts
    | load a next =>
      simp only [Worker.cpu, hcontrol]
      exact ⟨u, htracks, hdepth, hverbs, hposts _, hok _⟩
    | store a x next =>
      simp only [Worker.cpu, hcontrol]
      exact ⟨u, htracks, hdepth, hverbs, hposts, hok⟩

theorem workerOk_resume (wk : Worker κ β ε α Op) {u : κ → List (Verb β × Bool)} (now : Nat) (next : Next Op)
    (htracks : ∀ c, Tracks (u c) (wk.queue c) (wk.cq c)) (hdepth : ∀ c, signals (u c) ≤ depth)
    (hleft : S.leftover u) : S.WorkerOk { wk with control := wl.resume now next } := by
  refine ⟨u, htracks, hdepth, ?_⟩
  cases next with
  | idle | stop => exact hleft
  | goto op => exact ⟨S.verbs_of_leftover hleft op, S.posts op, S.accounts op hleft⟩

theorem workerOk_finish (now : Nat) (h : S.WorkerOk wk) : S.WorkerOk (wk.finish wl now) := by
  obtain ⟨u, htracks, hdepth, hok⟩ := h
  cases hcontrol : wk.control with
  | idle =>
    simp only [Worker.finish, hcontrol]
    exact ⟨u, htracks, hdepth, by simpa only [hcontrol] using hok⟩
  | running op since p =>
    simp only [hcontrol] at hok
    cases p with
    | ret a =>
      simp only [Worker.finish, hcontrol]
      exact workerOk_resume { wk with done := (op, a) :: wk.done } now _ htracks hdepth
        (S.leftover_of_ends hok.2.2)
    | throw e =>
      simp only [Worker.finish, hcontrol]
      exact workerOk_resume wk now _ htracks hdepth (S.leftover_of_ends hok.2.2)
    | _ =>
      simp only [Worker.finish, hcontrol]
      exact ⟨u, htracks, hdepth, by simpa only [hcontrol] using hok⟩

theorem workerOk_touch [DecidableEq β] (c : κ) (chunk : Nat) (m : Mem) (h : S.WorkerOk wk)
    : S.WorkerOk (wk.touch wl c chunk m) := by
  obtain ⟨u, htracks, hdepth, hok⟩ := h
  unfold Worker.touch
  split
  . next f fs hq =>
    refine ⟨u, ?_, hdepth, hok⟩
    intro c'
    have hc := htracks c
    rw [hq] at hc
    have := forall_update htracks c (hc.touch (f.pending.erase chunk)) c'
    rwa [Function.update_eq_self, Function.update_eq_self] at this
  . exact ⟨u, htracks, hdepth, hok⟩

theorem workerOk_complete (c : κ) (h : S.WorkerOk wk) : S.WorkerOk (wk.complete c) := by
  obtain ⟨u, htracks, hdepth, hok⟩ := h
  unfold Worker.complete
  split
  . next f fs hq =>
    refine ⟨u, ?_, hdepth, hok⟩
    intro c'
    have hc := htracks c
    rw [hq] at hc
    have := forall_update htracks c hc.complete c'
    rwa [Function.update_eq_self] at this
  . exact ⟨u, htracks, hdepth, hok⟩

theorem WorkerOk.signaled_le (h : S.WorkerOk wk) (c : κ)
    : (wk.queue c).countP (·.signaled) + wk.cq c ≤ depth := by
  obtain ⟨u, htracks, hdepth, _⟩ := h
  rw [← (htracks c).signals_eq]
  exact hdepth c

theorem WorkerOk.call_le (h : S.WorkerOk wk) {op : Op} {since n : Nat} {c : κ}
    {next : Prog κ β ε α} (hcontrol : wk.control = .running op since (.poll c n next))
    : n ≤ maxCall := by
  obtain ⟨_, _, _, hok⟩ := h
  simp only [hcontrol] at hok
  exact hok.2.2.1

/-- A polling loop waits for completions that have arrived or will. -/
theorem WorkerOk.awaits (h : S.WorkerOk wk) {op : Op} {since n : Nat} {c : κ}
    {next : Prog κ β ε α} (hcontrol : wk.control = .running op since (.poll c n next))
    : n ≤ (wk.queue c).countP (·.signaled) + wk.cq c := by
  obtain ⟨u, htracks, _, hok⟩ := h
  simp only [hcontrol] at hok
  rw [← (htracks c).signals_eq]
  exact hok.2.2.2.1

theorem WorkerOk.verb (h : S.WorkerOk wk) {op : Op} {since : Nat} {p : Prog κ β ε α}
    (hcontrol : wk.control = .running op since p) {c : κ} {f : Flight β Op}
    (hf : f ∈ wk.queue c) : S.verbs op f.verb := by
  obtain ⟨u, htracks, _, hok⟩ := h
  simp only [hcontrol] at hok
  exact hok.1 c _ ((htracks c).lands_mem hf)

theorem WorkerOk.ends_ret (h : S.WorkerOk wk) {op : Op} {since : Nat} {a : α}
    (hcontrol : wk.control = .running op since (.ret a))
    : ∃ u, (∀ c, Tracks (u c) (wk.queue c) (wk.cq c)) ∧ S.ends op (.ok a) u := by
  obtain ⟨u, htracks, _, hok⟩ := h
  simp only [hcontrol] at hok
  exact ⟨u, htracks, hok.2.2⟩

theorem WorkerOk.ends_throw (h : S.WorkerOk wk) {op : Op} {since : Nat} {e : ε}
    (hcontrol : wk.control = .running op since (.throw e))
    : ∃ u, (∀ c, Tracks (u c) (wk.queue c) (wk.cq c)) ∧ S.ends op (.error e) u := by
  obtain ⟨u, htracks, _, hok⟩ := h
  simp only [hcontrol] at hok
  exact ⟨u, htracks, hok.2.2⟩

variable [DecidableEq W] [DecidableEq β] {s₀ s : Sys W κ β ε α Op}
  {cond : Sys W κ β ε α Op → Action W κ Op → Prop}

theorem workerOk_next (h : ∀ w, S.WorkerOk (s.worker w)) (a : Action W κ Op)
    (he : s.enabled wl a = true) (w : W) : S.WorkerOk ((s.next wl a).worker w) := by
  cases a with
  | start w' op =>
    simp only [Sys.enabled] at he
    split at he
    . next hcontrol =>
      obtain ⟨u, htracks, hdepth, hok⟩ := h w'
      rw [hcontrol] at hok
      exact Sys.forall_setWorker h (workerOk_resume _ _ (.goto op) htracks hdepth hok) w
    . simp at he
  | cpu w' n => exact Sys.forall_setWorker h (workerOk_cpu n he (h w')) w
  | finish w' => exact Sys.forall_setWorker h (workerOk_finish _ (h w')) w
  | touch w' c chunk =>
    simp only [Sys.next]
    split
    . exact Sys.forall_setWorker h (workerOk_touch c chunk _ (h w')) w
    . exact h w
  | complete w' c => exact Sys.forall_setWorker h (workerOk_complete c (h w')) w

/-- The accounts of every worker are right in every reachable state. -/
theorem workerOk_of_reach (S : AccountSpec depth maxCall wl) (hfresh : s₀.Fresh)
    (h : Sys.Reach wl cond s₀ s) (w : W) : S.WorkerOk (s.worker w) := by
  induction h generalizing w with
  | refl =>
    refine ⟨fun _ => [], ?_, by simp, ?_⟩
    . intro c
      exact ⟨[], by simp [hfresh.queue], by simp [hfresh.cq]⟩
    . rw [hfresh.control w]
      exact S.leftover_nil
  | step a _ he _ ih => exact workerOk_next ih a he w

end AccountSpec

end Accounts
end Rdma
