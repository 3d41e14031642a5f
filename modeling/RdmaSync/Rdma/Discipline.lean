import RdmaSync.Rdma.System

/-!
This module contains the discipline under which the CPU of a worker may touch its buffers: a word
that a posted request may still write is neither loaded, stored nor sent. A request is known to be
over once a later or its own signaled completion has been polled.
-/

namespace Rdma

variable {W κ β ε α Op : Type}

/-- The requests in `u` that are not known to be over after polling `n` more completions. -/
def acked (u : List (Verb β × Bool)) (n : Nat) : List (Verb β × Bool) :=
  match u with
  | [] => []
  | p :: u => if n = 0 then p :: u else acked u (if p.2 then n - 1 else n)

@[simp]
theorem acked_nil (n : Nat) : acked ([] : List (Verb β × Bool)) n = [] := by
  rfl

@[simp]
theorem acked_zero (u : List (Verb β × Bool)) : acked u 0 = u := by
  cases u <;> simp [acked]

@[simp]
theorem acked_signaled (v : Verb β) (u : List (Verb β × Bool)) (n : Nat)
    : acked ((v, true) :: u) (n + 1) = acked u n := by
  simp [acked]

@[simp]
theorem acked_unsignaled (v : Verb β) (u : List (Verb β × Bool)) (n : Nat)
    : acked ((v, false) :: u) (n + 1) = acked u (n + 1) := by
  simp [acked]

theorem acked_acked (u : List (Verb β × Bool)) (n k : Nat)
    : acked (acked u n) k = acked u (n + k) := by
  induction u generalizing n with
  | nil => simp
  | cons p u ih =>
    rcases p with ⟨v, signaled⟩
    cases n with
    | zero => simp
    | succ n =>
      cases signaled with
      | true => rw [acked_signaled, ih, show n + 1 + k = (n + k) + 1 by omega, acked_signaled]
      | false => rw [acked_unsignaled, ih, show n + 1 + k = (n + k) + 1 by omega, acked_unsignaled]

theorem mem_of_mem_acked {u : List (Verb β × Bool)} {n : Nat} {p : Verb β × Bool}
    (h : p ∈ acked u n) : p ∈ u := by
  induction u generalizing n with
  | nil => simp at h
  | cons q u ih =>
    simp only [acked] at h
    split at h
    . exact h
    . exact List.mem_cons_of_mem _ (ih h)

theorem acked_append_signaled {u : List (Verb β × Bool)} (h : ∀ p ∈ u, p.2 = false) (v : Verb β)
    (u' : List (Verb β × Bool)) (n : Nat) : acked (u ++ (v, true) :: u') (n + 1) = acked u' n := by
  induction u with
  | nil => simp
  | cons p u ih =>
    rcases p with ⟨v', signaled⟩
    obtain rfl : signaled = false := h (v', signaled) List.mem_cons_self
    rw [List.cons_append, acked_unsignaled]
    apply ih
    intro p hp
    exact h p (List.mem_cons_of_mem _ hp)

theorem append_unsignaled {u : List (Verb β × Bool)} (h : ∀ p ∈ u, p.2 = false) (v : Verb β)
    : ∀ p ∈ u ++ [(v, false)], p.2 = false := by
  intro p hp
  rcases List.mem_append.mp hp with hp | hp
  . exact h p hp
  . rw [List.mem_singleton.mp hp]

theorem acked_replicate (v : Verb β) (n : Nat)
    : acked (List.replicate n (v, true)) n = [] := by
  induction n with
  | zero => rfl
  | succ n ih => rw [List.replicate_succ, acked_signaled, ih]

theorem acked_append_replicate {u : List (Verb β × Bool)} (h : ∀ p ∈ u, p.2 = false) (v : Verb β)
    {n : Nat} (hn : 0 < n) : acked (u ++ List.replicate n (v, true)) n = [] := by
  obtain ⟨n, rfl⟩ := Nat.exists_eq_succ_of_ne_zero (Nat.ne_of_gt hn)
  rw [List.replicate_succ, acked_append_signaled h, acked_replicate]

theorem acked_of_unsignaled {u : List (Verb β × Bool)} (h : ∀ p ∈ u, p.2 = false) {n : Nat}
    (hn : 0 < n) : acked u n = [] := by
  induction u with
  | nil => rfl
  | cons p u ih =>
    obtain ⟨hp, hu⟩ := List.forall_mem_cons.mp h
    simp only [acked, Nat.ne_of_gt hn, if_false, hp, Bool.false_eq_true]
    exact ih hu

def signals (u : List (Verb β × Bool)) : Nat :=
  u.countP (·.2)

@[simp]
theorem signals_nil : signals ([] : List (Verb β × Bool)) = 0 := by
  rfl

@[simp]
theorem signals_cons (v : Verb β) (signaled : Bool) (u : List (Verb β × Bool))
    : signals ((v, signaled) :: u) = signals u + if signaled then 1 else 0 := by
  simp [signals, List.countP_cons]

@[simp]
theorem signals_append (u u' : List (Verb β × Bool))
    : signals (u ++ u') = signals u + signals u' := by
  simp [signals]

/-- Polling completions that have arrived only acknowledges requests that are over. -/
theorem acked_append (d u : List (Verb β × Bool)) {n : Nat} (h : n ≤ signals d)
    : acked (d ++ u) n = acked d n ++ u ∧ signals (acked d n) = signals d - n := by
  induction d generalizing n with
  | nil =>
    obtain rfl : n = 0 := by simpa using h
    simp
  | cons p d ih =>
    rcases p with ⟨v, signaled⟩
    cases n with
    | zero => simp
    | succ n =>
      cases signaled with
      | true =>
        simp only [signals_cons, ↓reduceIte] at h
        have := ih (show n ≤ signals d by omega)
        simp only [List.cons_append, acked_signaled, signals_cons, ↓reduceIte]
        exact ⟨this.1, by omega⟩
      | false =>
        simp only [signals_cons, Bool.false_eq_true, ↓reduceIte, Nat.add_zero] at h
        have := ih h
        simp only [List.cons_append, acked_unsignaled, signals_cons, Bool.false_eq_true,
          ↓reduceIte, Nat.add_zero]
        exact this

def Quiet (u : List (Verb β × Bool)) (a : β × Nat) : Prop :=
  ∀ p ∈ u, ¬p.1.lands a

theorem Quiet.acked {u : List (Verb β × Bool)} {a : β × Nat} (h : Quiet u a) (n : Nat)
    : Quiet (acked u n) a := by
  intro p hp
  exact h p (mem_of_mem_acked hp)

@[simp]
theorem quiet_nil (a : β × Nat) : Quiet [] a := by
  simp [Quiet]

@[simp]
theorem quiet_cons (p : Verb β × Bool) (u : List (Verb β × Bool)) (a : β × Nat)
    : Quiet (p :: u) a ↔ ¬p.1.lands a ∧ Quiet u a := by
  simp [Quiet]

@[simp]
theorem quiet_append (u u' : List (Verb β × Bool)) (a : β × Nat)
    : Quiet (u ++ u') a ↔ Quiet u a ∧ Quiet u' a := by
  constructor
  . intro h
    exact ⟨fun p hp => h p (by simp [hp]), fun p hp => h p (by simp [hp])⟩
  . rintro ⟨h, h'⟩ p hp
    rcases List.mem_append.mp hp with hp | hp
    . exact h p hp
    . exact h' p hp

/--
The program keeps the discipline on the queue `rctx`, which is the only one it uses, when it begins
with the requests `u` possibly not over. `ends` holds of each outcome and what is left of `u` there.
-/
def Synced (rctx : κ) (ends : Except ε α → List (Verb β × Bool) → Prop) (p : Prog κ β ε α)
    (u : List (Verb β × Bool)) : Prop :=
  match p with
  | .ret a => ends (.ok a) u
  | .throw e => ends (.error e) u
  | .post c signaled v next =>
    c = rctx ∧ (∀ a, v.sends a → Quiet u a) ∧ Synced rctx ends next (u ++ [(v, signaled)])
  | .poll c n next => c = rctx ∧ Synced rctx ends next (acked u n)
  | .load a next => Quiet u a ∧ ∀ x, Synced rctx ends (next x) u
  | .store a _ next => Quiet u a ∧ Synced rctx ends next u

theorem Synced.bind {rctx : κ} {ends : Except ε α → List (Verb β × Bool) → Prop}
    {ends' : Except ε γ → List (Verb β × Bool) → Prop} {p : Prog κ β ε α} {f : α → Prog κ β ε γ}
    {u : List (Verb β × Bool)} (h : Synced rctx ends p u)
    (hok : ∀ a u, ends (.ok a) u → Synced rctx ends' (f a) u)
    (herror : ∀ e u, ends (.error e) u → ends' (.error e) u) : Synced rctx ends' (p >>= f) u := by
  induction p generalizing u with
  | ret a => exact hok a u h
  | throw e => exact herror e u h
  | post c signaled v next ih => exact ⟨h.1, h.2.1, ih h.2.2⟩
  | poll c n next ih => exact ⟨h.1, ih h.2⟩
  | load a next ih => exact ⟨h.1, fun x => ih x (h.2 x)⟩
  | store a v next ih => exact ⟨h.1, ih h.2⟩

theorem Synced.read_poll {rctx : κ} {ends : Except ε α → List (Verb β × Bool) → Prop}
    {memAddr : β × Nat} {remoteOffset bytes : Nat} {next : Prog κ β ε α}
    {u : List (Verb β × Bool)} (hu : ∀ p ∈ u, p.2 = false) (h : Synced rctx ends next [])
    : Synced rctx ends
        (.post rctx true (.read memAddr remoteOffset bytes) (.poll rctx 1 next)) u := by
  refine ⟨rfl, fun _ h => h.elim, rfl, ?_⟩
  rw [acked_append_signaled hu]
  exact h

theorem Synced.post_poll {rctx : κ} {ends : Except ε α → List (Verb β × Bool) → Prop} {v : Verb β}
    {next : Prog κ β ε α} {u : List (Verb β × Bool)} (hu : ∀ p ∈ u, p.2 = false)
    (hquiet : ∀ a, v.sends a → Quiet u a) (h : Synced rctx ends next [])
    : Synced rctx ends (.post rctx true v (.poll rctx 1 next)) u := by
  refine ⟨rfl, hquiet, rfl, ?_⟩
  rw [acked_append_signaled hu]
  exact h

theorem Synced.forEach_read {rctx : κ} {ends : Except ε α → List (Verb β × Bool) → Prop}
    {memAddr : β × Nat} {remoteOffset bytes : Nat} {next : Prog κ β ε α} {xs : List γ}
    {u : List (Verb β × Bool)}
    (h : Synced rctx ends next
      (u ++ List.replicate xs.length (.read memAddr remoteOffset bytes, true)))
    : Synced rctx ends
        ((Prog.forEach xs fun _ =>
          .post rctx true (.read memAddr remoteOffset bytes) (.ret ())) >>= fun _ => next) u := by
  induction xs generalizing u with
  | nil => simpa using h
  | cons x xs ih =>
    refine ⟨rfl, fun _ h => h.elim, ?_⟩
    apply ih
    rwa [List.append_assoc, List.singleton_append, ← List.replicate_succ]

theorem Synced.forEach_unsignaled {rctx : κ} {ends : Except ε α → List (Verb β × Bool) → Prop}
    {memAddr : β × Nat} {remoteOffset : γ → Nat} {bytes : Nat} {next : Prog κ β ε α} {xs : List γ}
    {u : List (Verb β × Bool)} (hu : ∀ p ∈ u, p.2 = false)
    (h : ∀ u, (∀ p ∈ u, p.2 = false) → Synced rctx ends next u)
    : Synced rctx ends
        ((Prog.forEach xs fun x =>
          .post rctx false (.read memAddr (remoteOffset x) bytes) (.ret ())) >>= fun _ => next) u := by
  induction xs generalizing u with
  | nil => exact h u hu
  | cons x xs ih =>
    refine ⟨rfl, fun _ h => h.elim, ?_⟩
    apply ih
    intro p hp
    rcases List.mem_append.mp hp with hp | hp
    . exact hu p hp
    . rw [List.mem_singleton.mp hp]

theorem Synced.check {rctx : κ} {ends : Except ε α → List (Verb β × Bool) → Prop} {c : Prop}
    [Decidable c] {e : ε} {p : Prog κ β ε α} {u : List (Verb β × Bool)}
    (hthrow : ends (.error e) u) (h : Synced rctx ends p u)
    : Synced rctx ends (if c then .throw e else p) u := by
  split
  . exact hthrow
  . exact h

theorem Synced.of_local {rctx : κ} {ends : Except ε γ → List (Verb β × Bool) → Prop}
    {loads stores : β × Nat → Prop} {throws : ε → Prop} {p : Prog κ β ε α}
    {f : α → Prog κ β ε γ} {u : List (Verb β × Bool)} (hp : p.Local loads stores throws)
    (hloads : ∀ a, loads a → Quiet u a) (hstores : ∀ a, stores a → Quiet u a)
    (hthrows : ∀ e, throws e → ends (.error e) u) (hf : ∀ a, Synced rctx ends (f a) u)
    : Synced rctx ends (p >>= f) u := by
  induction hp with
  | ret a => exact hf a
  | throw e h => exact hthrows e h
  | load a next h _ ih => exact ⟨hloads a h, ih⟩
  | store a v next h _ ih => exact ⟨hstores a h, ih⟩

/--
How the requests `u` that a worker posted are spread over its send queue and, for those that are
over, its completion queue.
-/
def Tracks (u : List (Verb β × Bool)) (queue : List (Flight β Op)) (cq : Nat) : Prop :=
  ∃ d, u = d ++ queue.map (fun f => (f.verb, f.signaled)) ∧ signals d = cq

namespace Tracks

variable {u : List (Verb β × Bool)} {queue : List (Flight β Op)} {cq : Nat}

theorem lands_mem (h : Tracks u queue cq) {f : Flight β Op} (hf : f ∈ queue)
    : (f.verb, f.signaled) ∈ u := by
  obtain ⟨d, rfl, _⟩ := h
  simp only [List.mem_append, List.mem_map]
  exact .inr ⟨f, hf, rfl⟩

theorem not_lands (h : Tracks u queue cq) {a : β × Nat} (hq : Quiet u a) {f : Flight β Op}
    (hf : f ∈ queue) : ¬f.verb.lands a := by
  exact hq _ (h.lands_mem hf)

theorem queue_eq_nil (h : Tracks [] queue cq) : queue = [] := by
  obtain ⟨d, hd, _⟩ := h
  simpa using (List.append_eq_nil_iff.mp hd.symm).2

theorem post (h : Tracks u queue cq) (f : Flight β Op)
    : Tracks (u ++ [(f.verb, f.signaled)]) (queue ++ [f]) cq := by
  obtain ⟨d, rfl, hd⟩ := h
  exact ⟨d, by simp, hd⟩

theorem poll (h : Tracks u queue cq) {n : Nat} (hn : n ≤ cq)
    : Tracks (acked u n) queue (cq - n) := by
  obtain ⟨d, rfl, rfl⟩ := h
  obtain ⟨h₁, h₂⟩ := acked_append d (queue.map fun f => (f.verb, f.signaled)) hn
  exact ⟨acked d n, h₁, h₂⟩

theorem touch {f : Flight β Op} (h : Tracks u (f :: queue) cq) (pending : List Nat)
    : Tracks u ({ f with pending := pending } :: queue) cq := by
  exact h

theorem complete {f : Flight β Op} (h : Tracks u (f :: queue) cq)
    : Tracks u queue (cq + if f.signaled then 1 else 0) := by
  obtain ⟨d, rfl, rfl⟩ := h
  exact ⟨d ++ [(f.verb, f.signaled)], by simp, by simp⟩

end Tracks
end Rdma
