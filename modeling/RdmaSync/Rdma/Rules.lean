import RdmaSync.Rdma.Soundness

/-!
This module contains the proof rules for weakest preconditions: sequencing, local computation and one
rule for each kind of verb.
-/

namespace Rdma

variable {W κ β ε α γ Op : Type}

def Verb.isRead (v : Verb β) : Bool :=
  match v with
  | .read .. => true
  | _ => false

theorem Shared.push_mem_of_isRead {s : Shared W β Op} {e : Event W β Op} (h : e.verb.isRead = true)
    : (s.push e).mem = s.mem := by
  cases hv : e.verb with
  | read => simp [Verb.place, hv]
  | _ => simp [Verb.isRead, hv] at h

def Protocol.readOnly (m : Mem) : Protocol W β Op where
  inv := fun s => s.mem = m
  guard := fun _ _ => True
  permit := fun _ e => e.verb.isRead = true
  inv_push := by
    intro s e hmem _ hread
    rw [Shared.push_mem_of_isRead hread, hmem]

/-- Neither the other workers nor the READs of `w` itself can invalidate the assertion. -/
def Protocol.Steady (P : Protocol W β Op) (w : W) (A : Shared W β Op → Prop) : Prop :=
  ∀ ⦃s : Shared W β Op⦄ ⦃e : Event W β Op⦄,
    P.inv s → P.guard s e → P.permit s e → (e.worker = w → e.verb.isRead = true) → A s →
      A (s.push e)

namespace Protocol.Steady

variable {P : Protocol W β Op} {w : W} {A : Shared W β Op → Prop}

theorem stable (h : P.Steady w A) : P.Stable w A := by
  intro s e hinv hguard hpermit hw
  exact h hinv hguard hpermit (fun heq => absurd heq hw)

theorem rely (h : P.Steady w A) {s s' : Shared W β Op} (hr : P.Rely w s s') (hs : A s) : A s' := by
  exact h.stable.rely hr hs

end Protocol.Steady

variable [DecidableEq β] {P : Protocol W β Op} {nic : Nic} {w : W} {op : Op} {l : Local β}
  {s : Shared W β Op}

section Structural

variable {Q Q' : Except ε α → Assertion W β Op} {R : Except ε γ → Assertion W β Op}

@[simp]
theorem wp_poll (rctx : κ) (n : Nat) (p : Prog κ β ε α)
    : wp P nic w op Q (.poll rctx n p) l s = wp P nic w op Q p l s := by
  rfl

@[simp]
theorem wp_load (a : β × Nat) (p : Word → Prog κ β ε α)
    : wp P nic w op Q (.load a p) l s = wp P nic w op Q (p (l a.1 a.2)) l s := by
  rfl

@[simp]
theorem wp_store (a : β × Nat) (x : Word) (p : Prog κ β ε α)
    : wp P nic w op Q (.store a x p) l s = wp P nic w op Q p (l.set a x) s := by
  rfl

theorem wp_ret (a : α)
    : wp P nic w op Q (.ret a : Prog κ β ε α) l s
        = ∀ s', P.Rely w s s' → P.inv s' → Q (.ok a) l s' := by
  rfl

theorem wp_check {c : Prop} [Decidable c] {e : ε} {p : Prog κ β ε α}
    (hthrow : ∀ s', P.Rely w s s' → P.inv s' → Q (.error e) l s')
    (hpass : ¬c → wp P nic w op Q p l s)
    : wp P nic w op Q (if c then .throw e else p) l s := by
  split
  . exact hthrow
  . next hc => exact hpass hc

theorem wp.mono {p : Prog κ β ε α} (h : wp P nic w op Q p l s) (hinv : P.inv s)
    (hQ : ∀ o l' s', P.inv s' → Q o l' s' → Q' o l' s') : wp P nic w op Q' p l s := by
  induction p generalizing l s with
  | ret a =>
    intro s' hr hinv'
    exact hQ _ _ _ hinv' (h s' hr hinv')
  | throw e =>
    intro s' hr hinv'
    exact hQ _ _ _ hinv' (h s' hr hinv')
  | post _ _ v next ih =>
    apply WpVerb.mono h hinv
    intro l' s' hinv' _ _ h'
    exact ih h' hinv'
  | poll _ _ next ih => exact ih h hinv
  | load a next ih => exact ih _ h hinv
  | store a x next ih => exact ih h hinv

theorem wp.bind {p : Prog κ β ε α} {f : α → Prog κ β ε γ} (hinv : P.inv s)
    (h : wp P nic w op Q p l s)
    (hok : ∀ a l' s', P.inv s' → Q (.ok a) l' s' → wp P nic w op R (f a) l' s')
    (herror : ∀ e l' s', P.inv s' → Q (.error e) l' s' → R (.error e) l' s')
    : wp P nic w op R (p >>= f) l s := by
  induction p generalizing l s with
  | ret a => exact hok a l s hinv (h s (.refl s) hinv)
  | throw e =>
    intro s' hr hinv'
    exact herror e l s' hinv' (h s' hr hinv')
  | post _ _ v next ih =>
    apply WpVerb.mono h hinv
    intro l' s' hinv' _ _ h'
    exact ih hinv' h'
  | poll _ _ next ih => exact ih hinv h
  | load a next ih => exact ih _ hinv h
  | store a x next ih => exact ih hinv h

theorem wp.exec {p : Prog κ β ε α} {loads stores : β × Nat → Prop} {throws : ε → Prop}
    (hp : p.Local loads stores throws)
    (h : ∀ s', P.Rely w s s' → P.inv s' → Q (p.exec l).1 (p.exec l).2 s')
    : wp P nic w op Q p l s := by
  induction hp generalizing l with
  | ret a => exact h
  | throw e => exact h
  | load a next _ _ ih => exact ih _ h
  | store a x next _ _ ih => exact ih h

theorem wp.exec_bind {p : Prog κ β ε γ} {f : γ → Prog κ β ε α} {loads stores : β × Nat → Prop}
    {throws : ε → Prop} (hp : p.Local loads stores throws)
    (hok : ∀ a, (p.exec l).1 = .ok a → wp P nic w op Q (f a) (p.exec l).2 s)
    (herror : ∀ e s', P.Rely w s s' → P.inv s' → (p.exec l).1 = .error e →
      Q (.error e) (p.exec l).2 s')
    : wp P nic w op Q (p >>= f) l s := by
  induction hp generalizing l with
  | ret a => exact hok a rfl
  | throw e =>
    intro s' hr hinv'
    exact herror e s' hr hinv' rfl
  | load a next _ _ ih => exact ih _ hok herror
  | store a x next _ _ ih => exact ih hok herror

end Structural

section Verbs

variable {Q : Except ε α → Assertion W β Op} {rctx : κ} {signaled : Bool}
  {next : Prog κ β ε α}

/-- A request whose assertion `A`, indexed by its steps that are left, is kept by every step. -/
theorem wp_post {v : Verb β} (A : List Nat → Assertion W β Op)
    (hclosed : ∀ pending l, P.Stable w (A pending l)) (hA : A (v.chunks nic) l s)
    (hinv : P.inv s)
    (hstep : ∀ pending l' s' chunk, P.inv s' → A pending l' s' →
      v.allows nic pending chunk = true → P.guard s' ⟨w, op, v, v.payload l, chunk⟩ →
      P.permit s' ⟨w, op, v, v.payload l, chunk⟩ ∧
        A (pending.erase chunk) (v.deliver nic chunk s'.mem l')
          (s'.push ⟨w, op, v, v.payload l, chunk⟩))
    (hnext : ∀ l' s', P.inv s' → A [] l' s' → wp P nic w op Q next l' s')
    : wp P nic w op Q (.post rctx signaled v next) l s := by
  suffices h : ∀ n pending l' s', pending.length = n → P.inv s' → A pending l' s' →
      WpVerb P nic w op v (v.payload l) (wp P nic w op Q next) pending l' s' from
    h _ (v.chunks nic) l s rfl hinv hA
  intro n
  induction n with
  | zero =>
    intro pending l' s' hlen hinv' hA'
    obtain rfl := List.length_eq_zero_iff.mp hlen
    exact .nil (hnext l' s' hinv' hA')
  | succ n ih =>
    intro pending l' s' hlen _ hA'
    have hne : pending ≠ [] := by
      rintro rfl
      simp at hlen
    apply WpVerb.step hne
    . intro s'' chunk hr hinv'' hallow hguard
      exact (hstep pending l' s'' chunk hinv'' ((hclosed _ _).rely hr hA') hallow hguard).1
    . intro s'' chunk hr hinv'' hallow hguard
      obtain ⟨hpermit, hA''⟩ :=
        hstep pending l' s'' chunk hinv'' ((hclosed _ _).rely hr hA') hallow hguard
      apply ih _ _ _ _ (P.inv_push hinv'' hguard hpermit) hA''
      rw [List.length_erase_of_mem (Verb.mem_of_allows hallow)]
      omega

theorem wp_post_atomic {v : Verb β} (hv : v.chunks nic = [0])
    (hstep : ∀ s', P.Rely w s s' → P.inv s' → P.guard s' ⟨w, op, v, v.payload l, 0⟩ →
      P.permit s' ⟨w, op, v, v.payload l, 0⟩ ∧
        wp P nic w op Q next (v.deliver nic 0 s'.mem l) (s'.push ⟨w, op, v, v.payload l, 0⟩))
    : wp P nic w op Q (.post rctx signaled v next) l s := by
  simp only [wp, hv]
  apply WpVerb.step (by simp)
  . intro s' chunk hr hinv hallow hguard
    obtain rfl : chunk = 0 := by simpa using Verb.mem_of_allows hallow
    exact (hstep s' hr hinv hguard).1
  . intro s' chunk hr hinv hallow hguard
    obtain rfl : chunk = 0 := by simpa using Verb.mem_of_allows hallow
    exact .nil (hstep s' hr hinv hguard).2

theorem wp_compareSwap {expected desired : Word} {memAddr : β × Nat} {remoteOffset : Nat}
    (hstep : ∀ s' e, P.Rely w s s' → P.inv s' → P.guard s' e →
      e = ⟨w, op, .compareSwap expected desired memAddr remoteOffset, fun _ => 0, 0⟩ →
      P.permit s' e ∧
        wp P nic w op Q next (l.set memAddr (load64 s'.mem remoteOffset)) (s'.push e))
    : wp P nic w op Q
        (.post rctx signaled (.compareSwap expected desired memAddr remoteOffset) next) l s := by
  apply wp_post_atomic rfl
  intro s' hr hinv hguard
  exact hstep s' _ hr hinv hguard rfl

theorem wp_fetchAdd {toAdd : Word} {memAddr : β × Nat} {remoteOffset : Nat}
    (hstep : ∀ s' e, P.Rely w s s' → P.inv s' → P.guard s' e →
      e = ⟨w, op, .fetchAdd toAdd memAddr remoteOffset, fun _ => 0, 0⟩ →
      P.permit s' e ∧
        wp P nic w op Q next (l.set memAddr (load64 s'.mem remoteOffset)) (s'.push e))
    : wp P nic w op Q (.post rctx signaled (.fetchAdd toAdd memAddr remoteOffset) next) l s := by
  apply wp_post_atomic rfl
  intro s' hr hinv hguard
  exact hstep s' _ hr hinv hguard rfl

/--
The state `s₁` that an atomic step of a READ met: it lies between the state `s₀` in which the READ
was posted and `s`, and satisfies the context `C` and the assumption of the protocol.
-/
structure Fetched (P : Protocol W β Op) (w : W) (op : Op) (v : Verb β) (C : Shared W β Op → Prop)
    (s₀ s₁ s : Shared W β Op) (chunk : Nat) : Prop where
  inv : P.inv s₁
  context : C s₁
  guard : P.guard s₁ ⟨w, op, v, fun _ => 0, chunk⟩
  after : s₀.Past s₁
  before : s₁.Past s

/-- A READ: every atomic step fetches what its words are in one single state. -/
theorem wp_read {memAddr : β × Nat} {remoteOffset bytes : Nat} (C : Shared W β Op → Prop)
    (hinv : P.inv s) (hC : C s) (hsteady : P.Steady w C)
    (hpermit : ∀ s' e, P.inv s' → C s' → e.worker = w → e.op = op →
      e.verb = .read memAddr remoteOffset bytes → P.permit s' e)
    (hnext : ∀ l' s', P.inv s' → C s' → s.Past s' →
      (∀ chunk ∈ (Verb.read memAddr remoteOffset bytes).chunks nic,
        ∃ s₁, Fetched P w op (.read memAddr remoteOffset bytes) C s s₁ s' chunk ∧
          ∀ i, i < bytes / 8 →
            (Verb.read memAddr remoteOffset bytes).chunkOf nic i = chunk →
            l' memAddr.1 (memAddr.2 + i) = s₁.mem (remoteOffset / 8 + i)) →
      (∀ b i, ¬(Verb.read memAddr remoteOffset bytes).lands (b, i) → l' b i = l b i) →
      wp P nic w op Q next l' s')
    : wp P nic w op Q (.post rctx signaled (.read memAddr remoteOffset bytes) next) l s := by
  generalize hv : Verb.read memAddr remoteOffset bytes = v at *
  have hpayload : v.payload l = fun _ => 0 := by rw [← hv]; rfl
  have hread : v.isRead = true := by rw [← hv]; rfl
  -- The words of the steps that are not pending have been fetched.
  apply wp_post (fun pending l' s' => C s' ∧ s.Past s' ∧ pending.Nodup ∧
    (∀ chunk ∈ v.chunks nic, chunk ∉ pending → ∃ s₁, Fetched P w op v C s s₁ s' chunk ∧
      ∀ i, i < bytes / 8 → v.chunkOf nic i = chunk →
        l' memAddr.1 (memAddr.2 + i) = s₁.mem (remoteOffset / 8 + i)) ∧
    (∀ b i, ¬v.lands (b, i) → l' b i = l b i))
  . rintro pending l' s' e hinv' hguard hpermit' hw ⟨hC', hpast, hnodup, hdone, hframe⟩
    refine ⟨hsteady.stable hinv' hguard hpermit' hw hC', hpast.push e, hnodup, ?_, hframe⟩
    intro chunk hmem hnot
    obtain ⟨s₁, hs₁, hwords⟩ := hdone chunk hmem hnot
    exact ⟨s₁, { hs₁ with before := hs₁.before.push e }, hwords⟩
  . refine ⟨hC, .refl s, v.chunks_nodup nic, ?_, fun _ _ _ => rfl⟩
    intro chunk hmem hnot
    exact absurd hmem hnot
  . exact hinv
  . rintro pending l' s' chunk hinv' ⟨hC', hpast, hnodup, hdone, hframe⟩ hallow hguard
    rw [hpayload] at hguard ⊢
    have hpermit' := hpermit s' ⟨w, op, v, fun _ => 0, chunk⟩ hinv' hC' rfl rfl rfl
    refine ⟨hpermit', hsteady hinv' hguard hpermit' (fun _ => hread) hC', hpast.push _,
      hnodup.erase _, ?_, ?_⟩
    . intro c hmem hnot
      by_cases hc : c = chunk
      . subst hc
        refine ⟨s', ⟨hinv', hC', hguard, hpast, (Shared.Past.refl s').push _⟩, ?_⟩
        intro i hi hci
        subst hv
        simp [Verb.deliver, hi, hci]
      . have hnot' : c ∉ pending := by
          intro hp
          exact hnot ((List.mem_erase_of_ne hc).mpr hp)
        obtain ⟨s₁, hs₁, hwords⟩ := hdone c hmem hnot'
        refine ⟨s₁, { hs₁ with before := hs₁.before.push _ }, ?_⟩
        intro i hi hci
        rw [← hwords i hi hci]
        subst hv
        simp [Verb.deliver, hi, hci, hc]
    . intro b i hland
      rw [Verb.deliver_of_not_lands _ _ _ _ _ hland, hframe b i hland]
  . rintro l' s' hinv' ⟨hC', hpast, _, hdone, hframe⟩
    exact hnext l' s' hinv' hC' hpast (fun chunk hmem => hdone chunk hmem (by simp)) hframe

/-- A READ, when it does not matter which words are fetched together. -/
theorem wp_read_each {memAddr : β × Nat} {remoteOffset bytes : Nat} (C : Shared W β Op → Prop)
    (hinv : P.inv s) (hC : C s) (hsteady : P.Steady w C)
    (hpermit : ∀ s' e, P.inv s' → C s' → e.worker = w → e.op = op →
      e.verb = .read memAddr remoteOffset bytes → P.permit s' e)
    (hnext : ∀ l' s', P.inv s' → C s' → s.Past s' →
      (∀ i, i < bytes / 8 → ∃ s₁,
        Fetched P w op (.read memAddr remoteOffset bytes) C s s₁ s'
          ((Verb.read memAddr remoteOffset bytes).chunkOf nic i) ∧
        l' memAddr.1 (memAddr.2 + i) = s₁.mem (remoteOffset / 8 + i)) →
      (∀ b i, ¬(Verb.read memAddr remoteOffset bytes).lands (b, i) → l' b i = l b i) →
      wp P nic w op Q next l' s')
    : wp P nic w op Q (.post rctx signaled (.read memAddr remoteOffset bytes) next) l s := by
  apply wp_read C hinv hC hsteady hpermit
  intro l' s' hinv' hC' hpast hchunks hframe
  apply hnext l' s' hinv' hC' hpast _ hframe
  intro i hi
  obtain ⟨s₁, hs₁, hwords⟩ :=
    hchunks _ (Verb.chunkOf_mem_chunks nic memAddr remoteOffset hi)
  exact ⟨s₁, hs₁, hwords i hi rfl⟩

theorem wp_read_any {v : Verb β} {A : Shared W β Op → Prop} (hread : v.isRead = true)
    (hpermit : ∀ s e, e.verb.isRead = true → P.permit s e) (hsteady : P.Steady w A) (hA : A s)
    (hinv : P.inv s)
    (hnext : ∀ l' s', P.inv s' → A s' → (∀ b i, ¬v.lands (b, i) → l' b i = l b i) →
      wp P nic w op Q next l' s')
    : wp P nic w op Q (.post rctx signaled v next) l s := by
  cases v with
  | read memAddr remoteOffset bytes =>
    apply wp_read_each A hinv hA hsteady
    . intro s' e _ _ _ _ hverb
      apply hpermit
      rw [hverb]
      rfl
    . intro l' s' hinv' hA' _ _ hframe
      exact hnext l' s' hinv' hA' hframe
  | write | compareSwap | fetchAdd => simp [Verb.isRead] at hread

theorem wp_readOnly {m : Mem} {nic : Nic} {memAddr : β × Nat} {remoteOffset bytes : Nat}
    (hmem : s.mem = m)
    (hnext : ∀ l' s', s'.mem = m →
      (∀ i, i < bytes / 8 → l' memAddr.1 (memAddr.2 + i) = m (remoteOffset / 8 + i)) →
      (∀ b i, ¬(Verb.read memAddr remoteOffset bytes).lands (b, i) → l' b i = l b i) →
      wp (Protocol.readOnly m) nic w op Q next l' s')
    : wp (Protocol.readOnly m) nic w op Q
        (.post rctx signaled (.read memAddr remoteOffset bytes) next) l s := by
  apply wp_read_each (fun _ => True) hmem trivial (fun _ _ _ _ _ _ _ => trivial)
  . intro _ e _ _ _ _ hverb
    show e.verb.isRead = true
    rw [hverb]
    rfl
  . intro l' s' hmem' _ _ hwords hframe
    apply hnext l' s' hmem' _ hframe
    intro i hi
    obtain ⟨s₁, hs₁, hword⟩ := hwords i hi
    rw [hword, show s₁.mem = m from hs₁.inv]

theorem wp_of_posts {p : Prog κ β ε α} {V : Verb β → Prop} {A : Shared W β Op → Prop}
    (hp : p.Posts V) (hinv : P.inv s) (hA : A s) (hstable : P.Stable w A)
    (hstep : ∀ s' e, P.inv s' → P.guard s' e → e.worker = w → V e.verb → A s' →
      P.permit s' e ∧ A (s'.push e))
    : wp P nic w op (fun _ _ s => A s) p l s := by
  induction p generalizing l s with
  | ret | throw =>
    intro s' hr _
    exact hstable.rely hr hA
  | post _ _ v next ih =>
    apply wp_post (fun _ _ s => A s) (fun _ _ => hstable) hA hinv
    . intro _ _ s' chunk hinv' hA' _ hguard
      exact hstep s' _ hinv' hguard rfl hp.1 hA'
    . intro _ s' hinv' hA'
      exact ih hp.2 hinv' hA'
  | poll _ _ next ih => exact ih hp hinv hA
  | load a next ih => exact ih _ (hp _) hinv hA
  | store a x next ih => exact ih hp hinv hA

end Verbs
end Rdma
