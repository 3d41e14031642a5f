import RdmaSync.Rdma.Protocol

/-!
This module contains weakest preconditions for programs whose workers follow a protocol, and the
proof that they are sound for the interleaving semantics.

In a weakest precondition a worker works off its requests where they are posted, as if posting were
synchronous. Programs that keep the discipline of `Synced` cannot tell the difference.
-/

namespace Rdma

variable {W κ β ε α Op : Type} [DecidableEq β]

abbrev Assertion (W β Op : Type) := Local β → Shared W β Op → Prop

/--
`Φ` holds after the steps `pending` of a request have taken effect, in any order that the network
allows, while the other workers follow the protocol.
-/
inductive WpVerb (P : Protocol W β Op) (nic : Nic) (w : W) (op : Op) (v : Verb β)
    (payload : Nat → Word) (Φ : Assertion W β Op) : List Nat → Assertion W β Op where
  | nil {l : Local β} {s : Shared W β Op} (h : Φ l s) : WpVerb P nic w op v payload Φ [] l s
  | step {pending : List Nat} {l : Local β} {s : Shared W β Op} (hne : pending ≠ [])
    (hpermit : ∀ s' chunk, P.Rely w s s' → P.inv s' → v.allows nic pending chunk = true →
      P.guard s' ⟨w, op, v, payload, chunk⟩ → P.permit s' ⟨w, op, v, payload, chunk⟩)
    (hnext : ∀ s' chunk, P.Rely w s s' → P.inv s' → v.allows nic pending chunk = true →
      P.guard s' ⟨w, op, v, payload, chunk⟩ →
      WpVerb P nic w op v payload Φ (pending.erase chunk) (v.deliver nic chunk s'.mem l)
        (s'.push ⟨w, op, v, payload, chunk⟩))
    : WpVerb P nic w op v payload Φ pending l s

/-- The weakest precondition of a program for the postcondition `Q` on its outcome. -/
def wp (P : Protocol W β Op) (nic : Nic) (w : W) (op : Op) (Q : Except ε α → Assertion W β Op)
    (p : Prog κ β ε α) : Assertion W β Op :=
  match p with
  | .ret a => fun l s => ∀ s', P.Rely w s s' → P.inv s' → Q (.ok a) l s'
  | .throw e => fun l s => ∀ s', P.Rely w s s' → P.inv s' → Q (.error e) l s'
  | .post _ _ v next => fun l s =>
    WpVerb P nic w op v (v.payload l) (wp P nic w op Q next) (v.chunks nic) l s
  | .poll _ _ next => wp P nic w op Q next
  | .load a next => fun l s => wp P nic w op Q (next (l a.1 a.2)) l s
  | .store a x next => fun l s => wp P nic w op Q next (l.set a x) s

def WpQueue (P : Protocol W β Op) (nic : Nic) (w : W) (Φ : Assertion W β Op)
    (queue : List (Flight β Op)) : Assertion W β Op :=
  match queue with
  | [] => Φ
  | f :: fs => WpVerb P nic w f.op f.verb f.payload (WpQueue P nic w Φ fs) f.pending

variable {P : Protocol W β Op} {nic : Nic} {w : W} {op : Op}

/-- The assertion survives whatever the other workers do. -/
def Rely.Closed (P : Protocol W β Op) (w : W) (Φ : Assertion W β Op) : Prop :=
  ∀ ⦃l : Local β⦄ ⦃s s' : Shared W β Op⦄, P.Rely w s s' → Φ l s → Φ l s'

section WpVerb

variable {v : Verb β} {payload : Nat → Word} {Φ Ψ : Assertion W β Op} {pending : List Nat}
  {l : Local β} {s s' : Shared W β Op}

theorem WpVerb.closed (hΦ : Rely.Closed P w Φ)
    : Rely.Closed P w (WpVerb P nic w op v payload Φ pending) := by
  intro l s s' hr h
  cases h with
  | nil h => exact .nil (hΦ hr h)
  | step hne hpermit hnext =>
    apply WpVerb.step hne
    . intro s'' chunk hr' hinv
      exact hpermit s'' chunk (hr.trans hr') hinv
    . intro s'' chunk hr' hinv
      exact hnext s'' chunk (hr.trans hr') hinv

/--
Consequence rule. The conclusion may use that the history has grown and that words on which the
request does not land are unchanged.
-/
theorem WpVerb.mono (h : WpVerb P nic w op v payload Φ pending l s) (hinv : P.inv s)
    (hΦ : ∀ l' s', P.inv s' → s.hist.length ≤ s'.hist.length →
      (∀ b i, ¬v.lands (b, i) → l' b i = l b i) → Φ l' s' → Ψ l' s')
    : WpVerb P nic w op v payload Ψ pending l s := by
  induction h with
  | nil h => exact .nil (hΦ _ _ hinv (Nat.le_refl _) (fun _ _ _ => rfl) h)
  | step hne hpermit hnext ih =>
    apply WpVerb.step hne hpermit
    intro s' chunk hr hinv' hallow hguard
    apply ih s' chunk hr hinv' hallow hguard
    . exact P.inv_push hinv' hguard (hpermit s' chunk hr hinv' hallow hguard)
    . intro l' s'' hinv'' hlen hframe hl
      apply hΦ l' s'' hinv'' _ _ hl
      . have := hr.hist_length
        simp only [Shared.push_hist, List.length_cons] at hlen
        omega
      . intro b i hland
        rw [hframe b i hland, Verb.deliver_of_not_lands _ _ _ _ _ hland]

/-- A store to a word on which the request does not land may be done before it takes effect. -/
theorem WpVerb.set (h : WpVerb P nic w op v payload Φ pending l s) (a : β × Nat) (x : Word)
    (hland : ¬v.lands a) (hΦ : ∀ l' s', Φ l' s' → Ψ (l'.set a x) s')
    : WpVerb P nic w op v payload Ψ pending (l.set a x) s := by
  induction h with
  | nil h => exact .nil (hΦ _ _ h)
  | step hne hpermit hnext ih =>
    apply WpVerb.step hne hpermit
    intro s' chunk hr hinv hallow hguard
    rw [Verb.deliver_set _ _ _ _ _ _ _ hland]
    exact ih s' chunk hr hinv hallow hguard

/-- What holds after a request has taken effect held before, if no step can make it true. -/
theorem WpVerb.pull (h : WpVerb P nic w op v payload Φ pending l s) (hinv : P.inv s)
    (hguard : ∀ s chunk, P.guard s ⟨w, op, v, payload, chunk⟩)
    (hpull : ∀ l s chunk, P.inv s →
      Φ (v.deliver nic chunk s.mem l) (s.push ⟨w, op, v, payload, chunk⟩) → Φ l s) : Φ l s := by
  induction h with
  | nil h => exact h
  | @step pending l s hne hpermit hnext ih =>
    obtain ⟨chunk, rest, rfl⟩ := List.exists_cons_of_ne_nil hne
    have hallow : v.allows nic (chunk :: rest) chunk = true := by
      cases v <;> simp [Verb.allows]
    apply hpull l s chunk hinv
    apply ih s chunk (.refl s) hinv hallow (hguard s chunk)
    exact P.inv_push hinv (hguard s chunk) (hpermit s chunk (.refl s) hinv hallow (hguard s chunk))

end WpVerb

theorem wp.closed (Q : Except ε α → Assertion W β Op) (p : Prog κ β ε α)
    : Rely.Closed P w (wp P nic w op Q p) := by
  induction p with
  | ret | throw =>
    intro l s s' hr h s'' hr'
    exact h s'' (hr.trans hr')
  | post _ _ v next ih =>
    intro l s s' hr h
    exact WpVerb.closed ih hr h
  | poll _ _ next ih => exact ih
  | load a next ih =>
    intro l s s' hr h
    exact ih _ hr h
  | store a x next ih =>
    intro l s s' hr h
    exact ih hr h

section WpQueue

variable {Φ Ψ : Assertion W β Op} {queue : List (Flight β Op)} {l : Local β}
  {s s' : Shared W β Op}

theorem WpQueue.closed (hΦ : Rely.Closed P w Φ)
    : Rely.Closed P w (WpQueue P nic w Φ queue) := by
  induction queue with
  | nil => exact hΦ
  | cons f fs ih => exact WpVerb.closed ih

theorem WpQueue.mono (h : WpQueue P nic w Φ queue l s) (hinv : P.inv s)
    (hΦ : ∀ l' s', P.inv s' → s.hist.length ≤ s'.hist.length →
      (∀ b i, (∀ f ∈ queue, ¬f.verb.lands (b, i)) → l' b i = l b i) → Φ l' s' → Ψ l' s')
    : WpQueue P nic w Ψ queue l s := by
  induction queue generalizing l s with
  | nil => exact hΦ l s hinv (Nat.le_refl _) (fun _ _ _ => rfl) h
  | cons f fs ih =>
    apply WpVerb.mono h hinv
    intro l' s' hinv' hlen hframe h'
    apply ih h' hinv'
    intro l'' s'' hinv'' hlen' hframe' h''
    apply hΦ l'' s'' hinv'' (Nat.le_trans hlen hlen') _ h''
    intro b i hland
    rw [hframe' b i (fun g hg => hland g (List.mem_cons_of_mem _ hg)),
      hframe b i (hland f List.mem_cons_self)]

theorem WpQueue.pull (h : WpQueue P nic w Φ queue l s) (hinv : P.inv s)
    (hpull : ∀ f ∈ queue, (∀ s chunk, P.guard s (f.event w chunk)) ∧
      ∀ l s chunk, P.inv s → Φ (f.verb.deliver nic chunk s.mem l) (s.push (f.event w chunk)) →
        Φ l s) : Φ l s := by
  induction queue generalizing l s with
  | nil => exact h
  | cons f fs ih =>
    obtain ⟨hguard, hstep⟩ := hpull f List.mem_cons_self
    have hfs : WpVerb P nic w f.op f.verb f.payload Φ f.pending l s := by
      apply WpVerb.mono h hinv
      intro l' s' hinv' _ _ h'
      exact ih h' hinv' (fun g hg => hpull g (List.mem_cons_of_mem _ hg))
    exact hfs.pull hinv hguard hstep

theorem WpQueue.set (h : WpQueue P nic w Φ queue l s) (a : β × Nat) (x : Word)
    (hland : ∀ f ∈ queue, ¬f.verb.lands a) (hΦ : ∀ l' s', Φ l' s' → Ψ (l'.set a x) s')
    : WpQueue P nic w Ψ queue (l.set a x) s := by
  induction queue generalizing l s with
  | nil => exact hΦ l s h
  | cons f fs ih =>
    apply WpVerb.set h a x (hland f List.mem_cons_self)
    intro l' s' h'
    exact ih h' (fun g hg => hland g (List.mem_cons_of_mem _ hg))

theorem WpQueue.append_singleton (f : Flight β Op)
    : WpQueue P nic w Φ (queue ++ [f])
        = WpQueue P nic w (WpVerb P nic w f.op f.verb f.payload Φ f.pending) queue := by
  induction queue with
  | nil => rfl
  | cons g gs ih => simp only [List.cons_append, WpQueue, ih]

/-- Posting only moves the request from the program to the queue. -/
theorem WpQueue.post {Q : Except ε α → Assertion W β Op} {rctx : κ} {signaled : Bool}
    {v : Verb β} {next : Prog κ β ε α}
    (h : WpQueue P nic w (wp P nic w op Q (.post rctx signaled v next)) queue l s)
    (hinv : P.inv s) (hquiet : ∀ a, v.sends a → ∀ f ∈ queue, ¬f.verb.lands a)
    : WpQueue P nic w (wp P nic w op Q next)
        (queue ++ [Flight.ofVerb nic op signaled v l]) l s := by
  rw [WpQueue.append_singleton]
  apply WpQueue.mono h hinv
  intro l' s' _ _ hframe h'
  -- The payload is the same now and when the queue has been worked off.
  have hpayload : v.payload l' = v.payload l := by
    apply Verb.payload_congr
    intro b i hsend
    exact hframe b i (hquiet (b, i) hsend)
  simp only [wp, hpayload] at h'
  exact h'

theorem WpQueue.load {Q : Except ε α → Assertion W β Op} {a : β × Nat}
    {next : Word → Prog κ β ε α}
    (h : WpQueue P nic w (wp P nic w op Q (.load a next)) queue l s)
    (hinv : P.inv s) (hquiet : ∀ f ∈ queue, ¬f.verb.lands a)
    : WpQueue P nic w (wp P nic w op Q (next (l a.1 a.2))) queue l s := by
  apply WpQueue.mono h hinv
  intro l' s' _ _ hframe h'
  simp only [wp, hframe a.1 a.2 hquiet] at h'
  exact h'

theorem WpQueue.store {Q : Except ε α → Assertion W β Op} {a : β × Nat} {x : Word}
    {next : Prog κ β ε α}
    (h : WpQueue P nic w (wp P nic w op Q (.store a x next)) queue l s)
    (hquiet : ∀ f ∈ queue, ¬f.verb.lands a)
    : WpQueue P nic w (wp P nic w op Q next) queue (l.set a x) s := by
  apply WpQueue.set h a x hquiet
  intro l' s' h'
  exact h'

end WpQueue

end Rdma
