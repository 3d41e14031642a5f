import RdmaSync.Rdma.Discipline

/-!
This module contains a logic for workers that use several queues at once. Requests in different
queues take effect in any order, so that all one knows about a fetched word is what is known about
every word that may be fetched there.
-/

namespace Rdma

variable {W κ β ε α γ Op : Type}

namespace Verb

def landsAt (nic : Nic) (v : Verb β) (chunk : Nat) (a : β × Nat) : Prop :=
  v.lands a ∧
    match v with
    | .read memAddr .. => v.chunkOf nic (a.2 - memAddr.2) = chunk
    | _ => True

def fetched (v : Verb β) (m : Mem) (a : β × Nat) : Word :=
  match v with
  | .compareSwap _ _ _ remoteOffset | .fetchAdd _ _ remoteOffset => load64 m remoteOffset
  | .read memAddr remoteOffset _ => m (remoteOffset / 8 + (a.2 - memAddr.2))
  | .write .. => 0

theorem exists_landsAt (nic : Nic) {v : Verb β} {a : β × Nat} (h : v.lands a)
    : ∃ chunk ∈ v.chunks nic, v.landsAt nic chunk a := by
  cases v with
  | compareSwap => exact ⟨0, by simp [chunks], h, trivial⟩
  | fetchAdd => exact ⟨0, by simp [chunks], h, trivial⟩
  | write => exact h.elim
  | read memAddr remoteOffset bytes =>
    have hlt : a.2 - memAddr.2 < bytes / 8 := by
      have := h.2
      omega
    exact ⟨_, chunkOf_mem_chunks nic memAddr remoteOffset hlt, h, rfl⟩

theorem readsWord_of_landsAt {nic : Nic} {memAddr : β × Nat} {remoteOffset bytes chunk : Nat}
    {a : β × Nat} (h : (Verb.read memAddr remoteOffset bytes).landsAt nic chunk a)
    : (Verb.read memAddr remoteOffset bytes).readsWord nic chunk
        (remoteOffset / 8 + (a.2 - memAddr.2)) = true := by
  obtain ⟨⟨_, hge, hlt⟩, hchunk⟩ := h
  simp only [readsWord, Bool.and_eq_true, decide_eq_true_eq, beq_iff_eq, Nat.add_sub_cancel_left]
  exact ⟨⟨by omega, by omega⟩, hchunk⟩

variable [DecidableEq β]

theorem deliver_of_landsAt (nic : Nic) {v : Verb β} {chunk : Nat} (m : Mem) (l : Local β)
    {a : β × Nat} (h : v.landsAt nic chunk a)
    : v.deliver nic chunk m l a.1 a.2 = v.fetched m a := by
  cases v with
  | write => exact h.1.elim
  | read memAddr remoteOffset bytes =>
    obtain ⟨⟨hbuf, hge, hlt⟩, hchunk⟩ := h
    simp [deliver, fetched, hbuf, hge, hlt, hchunk]
  | _ =>
    obtain rfl := h.1
    simp [deliver, fetched]

theorem deliver_of_not_landsAt (nic : Nic) {v : Verb β} {chunk : Nat} (m : Mem) (l : Local β)
    {a : β × Nat} (h : ¬v.landsAt nic chunk a)
    : v.deliver nic chunk m l a.1 a.2 = l a.1 a.2 := by
  by_cases hlands : v.lands a
  . cases v with
    | read memAddr remoteOffset bytes =>
      simp only [deliver]
      split
      . next hc => exact absurd ⟨hlands, hc.2.2.2⟩ h
      . rfl
    | _ => exact absurd ⟨hlands, trivial⟩ h
  . exact deliver_of_not_lands nic v chunk m l hlands

end Verb

def AllQuiet (u : κ → List (Verb β × Bool)) (a : β × Nat) : Prop :=
  ∀ c, Quiet (u c) a

@[simp]
theorem allQuiet_nil (a : β × Nat) : AllQuiet (fun _ : κ => []) a := by
  simp [AllQuiet]

/-- Words change from `l` to `l'` while the requests `u` dwindle to `u'`. -/
def Refreshes (good : β × Nat → Word → Prop) (u u' : κ → List (Verb β × Bool)) (l l' : Local β)
    : Prop :=
  ∀ a, (AllQuiet u a → l' a.1 a.2 = l a.1 a.2) ∧
    (¬AllQuiet u a → AllQuiet u' a → good a (l' a.1 a.2))

theorem Refreshes.trans {good : β × Nat → Word → Prop} {u u' u'' : κ → List (Verb β × Bool)}
    {l l' l'' : Local β} (hsub : ∀ a, AllQuiet u a → AllQuiet u' a)
    (h : Refreshes good u u' l l') (h' : Refreshes good u' u'' l' l'')
    : Refreshes good u u'' l l'' := by
  intro a
  constructor
  . intro hquiet
    rw [(h' a).1 (hsub a hquiet), (h a).1 hquiet]
  . intro hnot hquiet
    by_cases hmid : AllQuiet u' a
    . rw [(h' a).1 hmid]
      exact (h a).2 hnot hmid
    . exact (h' a).2 hmid hquiet

variable [DecidableEq κ]

theorem AllQuiet.acked {u : κ → List (Verb β × Bool)} {a : β × Nat} (h : AllQuiet u a) (c : κ)
    (n : Nat) : AllQuiet (Function.update u c (acked (u c) n)) a := by
  intro c'
  by_cases hc : c' = c
  . subst hc
    simpa using (h c').acked n
  . simpa [Function.update_of_ne hc] using h c'

section Fetches

variable [DecidableEq β]

/--
The program only posts verbs in `posts`, and its outcome satisfies `Q` whenever all fetched words are
`good`. The requests `u` are possibly not over, and `l` are the words that none of them may write.
-/
def Fetches (posts : Verb β → Prop) (good : β × Nat → Word → Prop)
    (Q : Except ε α → (κ → List (Verb β × Bool)) → Local β → Prop) (p : Prog κ β ε α)
    (u : κ → List (Verb β × Bool)) (l : Local β) : Prop :=
  match p with
  | .ret a => Q (.ok a) u l
  | .throw e => Q (.error e) u l
  | .post c signaled v next =>
    posts v ∧ Fetches posts good Q next (Function.update u c (u c ++ [(v, signaled)])) l
  | .poll c n next =>
    let u' := Function.update u c (acked (u c) n)
    ∀ l', Refreshes good u u' l l' → Fetches posts good Q next u' l'
  | .load a next => AllQuiet u a ∧ Fetches posts good Q (next (l a.1 a.2)) u l
  | .store a x next => AllQuiet u a ∧ Fetches posts good Q next u (l.set a x)

variable {posts : Verb β → Prop} {good : β × Nat → Word → Prop}
  {Q : Except ε α → (κ → List (Verb β × Bool)) → Local β → Prop}

theorem Fetches.poll_some {c : κ} {expected n : Nat} {next : Prog κ β ε α}
    {u : κ → List (Verb β × Bool)} {l l' : Local β} (hn : n ≤ expected)
    (h : Fetches posts good Q (.poll c expected next) u l)
    (hl : Refreshes good u (Function.update u c (acked (u c) n)) l l')
    : Fetches posts good Q (if n = expected then next else .poll c (expected - n) next)
        (Function.update u c (acked (u c) n)) l' := by
  split
  . next heq =>
    subst heq
    exact h l' hl
  . intro l'' hl''
    have hu : Function.update (Function.update u c (Rdma.acked (u c) n)) c
        (Rdma.acked (Function.update u c (Rdma.acked (u c) n) c) (expected - n))
        = Function.update u c (Rdma.acked (u c) expected) := by
      rw [Function.update_idem, Function.update_self, acked_acked,
        show n + (expected - n) = expected by omega]
    rw [hu] at hl'' ⊢
    exact h l'' (hl.trans (fun a ha => ha.acked c n) hl'')

theorem Fetches.bind {R : Except ε γ → (κ → List (Verb β × Bool)) → Local β → Prop}
    {p : Prog κ β ε α} {f : α → Prog κ β ε γ} {u : κ → List (Verb β × Bool)} {l : Local β}
    (h : Fetches posts good Q p u l) (hok : ∀ a u l, Q (.ok a) u l → Fetches posts good R (f a) u l)
    (herror : ∀ e u l, Q (.error e) u l → R (.error e) u l)
    : Fetches posts good R (p >>= f) u l := by
  induction p generalizing u l with
  | ret a => exact hok a u l h
  | throw e => exact herror e u l h
  | post c signaled v next ih => exact ⟨h.1, ih h.2⟩
  | poll c n next ih =>
    intro l' hl'
    exact ih (h l' hl')
  | load a next ih => exact ⟨h.1, ih _ h.2⟩
  | store a x next ih => exact ⟨h.1, ih h.2⟩

theorem Fetches.forEach_post {ctx : γ → κ} {signaled : Bool} {v : Verb β} {xs : List γ}
    {next : Prog κ β ε α} {u : κ → List (Verb β × Bool)} {l : Local β} (hv : posts v)
    (h : Fetches posts good Q next
      (fun c => u c ++ List.replicate (xs.countP fun x => decide (ctx x = c)) (v, signaled)) l)
    : Fetches posts good Q
        ((Prog.forEach xs fun x => .post (ctx x) signaled v (.ret ())) >>= fun _ => next) u l := by
  induction xs generalizing u with
  | nil => simpa using h
  | cons x xs ih =>
    refine ⟨hv, ?_⟩
    apply ih
    have hu : (fun c => Function.update u (ctx x) (u (ctx x) ++ [(v, signaled)]) c
        ++ List.replicate (xs.countP fun x => decide (ctx x = c)) (v, signaled))
        = fun c => u c
          ++ List.replicate ((x :: xs).countP fun x => decide (ctx x = c)) (v, signaled) := by
      funext c
      by_cases hc : ctx x = c
      . subst hc
        rw [Function.update_self, List.append_assoc, List.singleton_append, List.countP_cons]
        simp [← List.replicate_succ]
      . rw [Function.update_of_ne (Ne.symm hc), List.countP_cons]
        simp [hc]
    rw [hu]
    exact h

theorem Fetches.of_synced {rctx : κ} {ends : Except ε α → List (Verb β × Bool) → Prop}
    {p : Prog κ β ε α} {u : κ → List (Verb β × Bool)} {l : Local β}
    (hother : ∀ c, c ≠ rctx → u c = []) (h : Synced rctx ends p (u rctx))
    : Fetches (fun _ => True) good (fun o u _ => ends o (u rctx) ∧ ∀ c, c ≠ rctx → u c = []) p u l := by
  have hquiet {u : κ → List (Verb β × Bool)} {a} (hother : ∀ c, c ≠ rctx → u c = [])
      (ha : Quiet (u rctx) a) : AllQuiet u a := by
    intro c
    by_cases hc : c = rctx
    . rwa [hc]
    . rw [hother c hc]
      exact quiet_nil a
  induction p generalizing u l with
  | ret a => exact ⟨h, hother⟩
  | throw e => exact ⟨h, hother⟩
  | post c signaled v next ih =>
    obtain ⟨rfl, _, h⟩ := h
    refine ⟨trivial, ?_⟩
    apply ih
    . intro c' hc'
      rw [Function.update_of_ne hc', hother c' hc']
    . rwa [Function.update_self]
  | poll c n next ih =>
    obtain ⟨rfl, h⟩ := h
    intro l' _
    apply ih
    . intro c' hc'
      rw [Function.update_of_ne hc', hother c' hc']
    . rwa [Function.update_self]
  | load a next ih => exact ⟨hquiet hother h.1, ih _ hother (h.2 _)⟩
  | store a x next ih => exact ⟨hquiet hother h.1, ih hother h.2⟩

end Fetches

/-- The request still has to write the local word `a`. -/
def Flight.Pends (nic : Nic) (f : Flight β Op) (a : β × Nat) : Prop :=
  ∃ chunk ∈ f.pending, f.verb.landsAt nic chunk a

variable [DecidableEq β]

/--
What is proved about each operation of a workload: it only posts verbs in `posts`, and if the words
that they fetch are `good`, then `ends` holds for its outcomes.
-/
structure FetchSpec (wl : Workload κ β ε α Op) where
  posts : Op → Verb β → Prop
  good : Op → β × Nat → Word → Prop
  leftover : (κ → List (Verb β × Bool)) → Prop
  ends : Op → Except ε α → (κ → List (Verb β × Bool)) → Local β → Prop
  leftover_nil : leftover (fun _ => [])
  quiet : ∀ {u}, leftover u → ∀ a, AllQuiet u a ∨ ∀ op x, good op a x
  leftover_of_ends : ∀ {op o u l}, ends op o u l → leftover u
  fetches : ∀ op {u} l, leftover u → Fetches (posts op) (good op) (ends op) (wl.program op) u l

namespace FetchSpec

variable {wl : Workload κ β ε α Op} (S : FetchSpec wl)

/-- The local word `a` is `good` for the operation `op`, or some request will still write it. -/
def WordOk (wk : Worker κ β ε α Op) (op : Op) (a : β × Nat) : Prop :=
  S.good op a (wk.buf a.1 a.2) ∨ ∃ c, ∃ f ∈ wk.queue c, f.Pends wl.nic a

/-- All requests that write local words are those of `op`, unless nothing is known of the words. -/
def OwnedBy (wk : Worker κ β ε α Op) (op : Op) : Prop :=
  ∀ c, ∀ f ∈ wk.queue c, ∀ a, f.verb.lands a → f.op = op ∨ ∀ x, S.good op a x

def ControlOk (wk : Worker κ β ε α Op) (u : κ → List (Verb β × Bool)) (l : Local β) : Prop :=
  match wk.control with
  | .idle => S.leftover u
  | .running op _ p =>
    Fetches (S.posts op) (S.good op) (S.ends op) p u l ∧ (∀ a, ¬AllQuiet u a → S.WordOk wk op a) ∧
    S.OwnedBy wk op

def WorkerOk (wk : Worker κ β ε α Op) : Prop :=
  (∀ c, ∀ f ∈ wk.queue c, S.posts f.op f.verb) ∧
  ∃ u l, (∀ c, Tracks (u c) (wk.queue c) (wk.cq c)) ∧
    (∀ a, AllQuiet u a → wk.buf a.1 a.2 = l a.1 a.2) ∧ S.ControlOk wk u l

section Cpu

variable {wk : Worker κ β ε α Op}

/-- An operation begins when no request in the queues may write a word that it relies on. -/
theorem workerOk_begin {u : κ → List (Verb β × Bool)} (op : Op) (since : Nat)
    (hposts : ∀ c, ∀ f ∈ wk.queue c, S.posts f.op f.verb)
    (htracks : ∀ c, Tracks (u c) (wk.queue c) (wk.cq c)) (hleft : S.leftover u)
    : S.WorkerOk { wk with control := .running op since (wl.program op) } := by
  refine ⟨hposts, u, wk.buf, htracks, fun _ _ => rfl, S.fetches op _ hleft, ?_, ?_⟩
  . intro a hnot
    rcases S.quiet hleft a with hquiet | hgood
    . exact absurd hquiet hnot
    . exact .inl (hgood _ _)
  . intro c f hf a ha
    rcases S.quiet hleft a with hquiet | hgood
    . exact absurd ha ((htracks c).not_lands (hquiet c) hf)
    . exact .inr (hgood _)

theorem workerOk_post {op : Op} {since : Nat} {c : κ} {signaled : Bool} {v : Verb β}
    {next : Prog κ β ε α} (hcontrol : wk.control = .running op since (.post c signaled v next))
    (h : S.WorkerOk wk) : S.WorkerOk (wk.cpu wl 0) := by
  obtain ⟨hposts, u, l, htracks, hbuf, hok⟩ := h
  simp only [ControlOk, hcontrol] at hok
  obtain ⟨⟨hv, hfetches⟩, hgood, hops⟩ := hok
  simp only [Worker.cpu, hcontrol]
  generalize hf : Flight.ofVerb wl.nic op signaled v wk.buf = f
  have hverb : f.verb = v := by rw [← hf]; rfl
  have hmem {c' g} (hg : g ∈ wk.queue c')
      : g ∈ Function.update wk.queue c (wk.queue c ++ [f]) c' := by
    by_cases hc : c' = c
    . subst hc
      rw [Function.update_self]
      exact List.mem_append_left _ hg
    . rwa [Function.update_of_ne hc]
  have hop : f.op = op := by rw [← hf]; rfl
  have hcases {c' g} (hg : g ∈ Function.update wk.queue c (wk.queue c ++ [f]) c')
      : g ∈ wk.queue c' ∨ g = f := by
    by_cases hc : c' = c
    . subst hc
      rwa [Function.update_self, List.mem_append, List.mem_singleton] at hg
    . rw [Function.update_of_ne hc] at hg
      exact .inl hg
  refine ⟨?_, _, l, ?_, ?_, hfetches, ?_, ?_⟩
  . intro c' g hg
    rcases hcases hg with hg | rfl
    . exact hposts c' g hg
    . rwa [hverb, hop]
  . intro c'
    by_cases hc : c' = c
    . subst hc
      simp only [Function.update_self]
      rw [← hverb, ← show f.signaled = signaled by rw [← hf]; rfl]
      exact (htracks c').post f
    . simpa only [Function.update_of_ne hc] using htracks c'
  . intro a hquiet
    apply hbuf
    intro c'
    have := hquiet c'
    by_cases hc : c' = c
    . subst hc
      rw [Function.update_self, quiet_append] at this
      exact this.1
    . rwa [Function.update_of_ne hc] at this
  . intro a hnot
    by_cases hquiet : AllQuiet u a
    . -- Only the new request may write this word.
      have hlands : v.lands a := by
        by_contra hv
        apply hnot
        intro c'
        by_cases hc : c' = c
        . subst hc
          rw [Function.update_self, quiet_append]
          exact ⟨hquiet c', by simpa using hv⟩
        . rw [Function.update_of_ne hc]
          exact hquiet c'
      obtain ⟨chunk, hchunk, hat⟩ := Verb.exists_landsAt wl.nic hlands
      refine .inr ⟨c, f, by simp, chunk, ?_, ?_⟩
      . rw [← hf]
        exact hchunk
      . rw [hverb]
        exact hat
    . rcases hgood a hquiet with h | ⟨c', g, hg, hpends⟩
      . exact .inl h
      . exact .inr ⟨c', g, hmem hg, hpends⟩
  . intro c' g hg a hlands
    rcases hcases hg with hg | rfl
    . exact hops c' g hg a hlands
    . exact .inl hop

theorem workerOk_poll {op : Op} {since : Nat} {c : κ} {expected n : Nat}
    {next : Prog κ β ε α} (hcontrol : wk.control = .running op since (.poll c expected next))
    (hn : n ≤ expected) (hcq : n ≤ wk.cq c) (h : S.WorkerOk wk) : S.WorkerOk (wk.cpu wl n) := by
  obtain ⟨hposts, u, l, htracks, hbuf, hok⟩ := h
  simp only [ControlOk, hcontrol] at hok
  obtain ⟨hfetches, hgood, hops⟩ := hok
  simp only [Worker.cpu, hcontrol]
  have htracks' : ∀ c', Tracks (Function.update u c (acked (u c) n) c') (wk.queue c')
      (Function.update wk.cq c (wk.cq c - n) c') := by
    intro c'
    by_cases hc : c' = c
    . subst hc
      simpa only [Function.update_self] using (htracks c').poll hcq
    . simpa only [Function.update_of_ne hc] using htracks c'
  refine ⟨hposts, _, wk.buf, htracks', fun _ _ => rfl, hfetches.poll_some hn ?_, ?_, hops⟩
  . intro a
    refine ⟨hbuf a, fun hnot hquiet => ?_⟩
    rcases hgood a hnot with h | ⟨c', f, hf, _, _, hat⟩
    . exact h
    . -- A word that has become quiet has no request under way.
      exact absurd hat.1 ((htracks' c').not_lands (hquiet c') hf)
  . intro a hnot
    exact hgood a (fun hquiet => hnot (hquiet.acked c n))

theorem workerOk_cpu (n : Nat) (he : wk.cpuEnabled n = true) (h : S.WorkerOk wk)
    : S.WorkerOk (wk.cpu wl n) := by
  cases hcontrol : wk.control with
  | idle => simp [Worker.cpuEnabled, hcontrol] at he
  | running op since p =>
    cases p with
    | ret | throw => simp [Worker.cpuEnabled, hcontrol] at he
    | post c signaled v next =>
      have hcpu : wk.cpu wl n = wk.cpu wl 0 := by
        simp only [Worker.cpu, hcontrol]
      rw [hcpu]
      exact S.workerOk_post hcontrol h
    | poll c expected next =>
      simp only [Worker.cpuEnabled, hcontrol, Bool.and_eq_true, decide_eq_true_eq] at he
      exact S.workerOk_poll hcontrol he.1 he.2 h
    | load a next =>
      obtain ⟨hposts, u, l, htracks, hbuf, hok⟩ := h
      simp only [ControlOk, hcontrol] at hok
      obtain ⟨⟨hquiet, hfetches⟩, hgood, hops⟩ := hok
      simp only [Worker.cpu, hcontrol]
      refine ⟨hposts, u, l, htracks, hbuf, ?_, hgood, hops⟩
      rwa [hbuf a hquiet]
    | store a x next =>
      obtain ⟨hposts, u, l, htracks, hbuf, hok⟩ := h
      simp only [ControlOk, hcontrol] at hok
      obtain ⟨⟨hquiet, hfetches⟩, hgood, hops⟩ := hok
      simp only [Worker.cpu, hcontrol]
      refine ⟨hposts, u, l.set a x, htracks, ?_, hfetches, ?_, hops⟩
      . intro a' ha'
        show wk.buf.set a x a'.1 a'.2 = l.set a x a'.1 a'.2
        rw [Local.set_apply, Local.set_apply, hbuf a' ha']
      . intro a' hnot
        have hne : (a'.1, a'.2) ≠ a := by
          rintro rfl
          exact hnot hquiet
        show S.good op a' (wk.buf.set a x a'.1 a'.2) ∨ _
        rw [Local.set_of_ne _ _ _ hne]
        exact hgood a' hnot

theorem workerOk_finish (now : Nat) (he : wk.finishEnabled wl = true) (h : S.WorkerOk wk)
    : S.WorkerOk (wk.finish wl now) := by
  obtain ⟨hposts, u, l, htracks, hbuf, hok⟩ := h
  have hresume (wk' : Worker κ β ε α Op) (next : Next Op)
      (hposts' : ∀ c, ∀ f ∈ wk'.queue c, S.posts f.op f.verb)
      (htracks' : ∀ c, Tracks (u c) (wk'.queue c) (wk'.cq c)) (hleft : S.leftover u)
      : S.WorkerOk { wk' with control := wl.resume now next } := by
    cases next with
    | idle | stop => exact ⟨hposts', u, wk'.buf, htracks', fun _ _ => rfl, hleft⟩
    | goto op => exact S.workerOk_begin op now hposts' htracks' hleft
  cases hcontrol : wk.control with
  | idle => simp [Worker.finishEnabled, hcontrol] at he
  | running op since p =>
    simp only [ControlOk, hcontrol] at hok
    cases p with
    | ret a =>
      simp only [Worker.finish, hcontrol]
      exact hresume { wk with done := (op, a) :: wk.done } _ hposts htracks
        (S.leftover_of_ends hok.1)
    | throw e =>
      simp only [Worker.finish, hcontrol]
      exact hresume wk _ hposts htracks (S.leftover_of_ends hok.1)
    | _ => simp [Worker.finishEnabled, hcontrol] at he

end Cpu

section Network

variable {wk : Worker κ β ε α Op} {c : κ} {f : Flight β Op} {fs : List (Flight β Op)}

theorem ControlOk.of_queue {wk' : Worker κ β ε α Op} {u : κ → List (Verb β × Bool)} {l : Local β}
    (h : S.ControlOk wk u l) (hcontrol : wk'.control = wk.control)
    (hword : ∀ op a, S.OwnedBy wk op → S.WordOk wk op a → S.WordOk wk' op a)
    (hops : ∀ op, S.OwnedBy wk op → S.OwnedBy wk' op) : S.ControlOk wk' u l := by
  unfold ControlOk at *
  rw [hcontrol]
  split at h
  . exact h
  . obtain ⟨hfetches, hwords, howned⟩ := h
    exact ⟨hfetches, fun a hnot => hword _ a howned (hwords a hnot), hops _ howned⟩

theorem mem_of_mem_touch (hq : wk.queue c = f :: fs) {chunk : Nat} {m : Mem} {c' : κ}
    {g : Flight β Op} (hg : g ∈ (wk.touch wl c chunk m).queue c')
    : ∃ f' ∈ wk.queue c', g.op = f'.op ∧ g.verb = f'.verb := by
  simp only [Worker.touch, hq] at hg
  by_cases hc : c' = c
  . subst hc
    simp only [Function.update_self, List.mem_cons] at hg
    rcases hg with rfl | hg
    . exact ⟨f, by simp [hq], rfl, rfl⟩
    . exact ⟨g, by simp [hq, hg], rfl, rfl⟩
  . simp only [Function.update_of_ne hc] at hg
    exact ⟨g, hg, rfl, rfl⟩

theorem pends_touch (hq : wk.queue c = f :: fs) {chunk : Nat} {m : Mem} {a : β × Nat}
    (hat : ¬f.verb.landsAt wl.nic chunk a) (h : ∃ c, ∃ f ∈ wk.queue c, f.Pends wl.nic a)
    : ∃ c', ∃ g ∈ (wk.touch wl c chunk m).queue c', g.Pends wl.nic a := by
  obtain ⟨c', g, hg, chunk', hchunk', hat'⟩ := h
  simp only [Worker.touch, hq]
  by_cases hc : c' = c
  . subst hc
    rw [hq, List.mem_cons] at hg
    rcases hg with rfl | hg
    . have hne : chunk' ≠ chunk := by
        rintro rfl
        exact hat hat'
      refine ⟨c', { g with pending := g.pending.erase chunk }, by simp, chunk', ?_, hat'⟩
      exact (List.mem_erase_of_ne hne).mpr hchunk'
    . exact ⟨c', g, by simp [hg], chunk', hchunk', hat'⟩
  . exact ⟨c', g, by simpa [Function.update_of_ne hc] using hg, chunk', hchunk', hat'⟩

/-- An atomic step writes words that are `good`, and nothing else. -/
theorem workerOk_touch {chunk : Nat} {m : Mem} (hq : wk.queue c = f :: fs)
    (hgood : S.posts f.op f.verb → ∀ a, f.verb.landsAt wl.nic chunk a →
      S.good f.op a (f.verb.fetched m a))
    (h : S.WorkerOk wk) : S.WorkerOk (wk.touch wl c chunk m) := by
  obtain ⟨hposts, u, l, htracks, hbuf, hok⟩ := h
  have hf : f ∈ wk.queue c := by
    rw [hq]
    exact List.mem_cons_self
  have hbuf' : (wk.touch wl c chunk m).buf = f.verb.deliver wl.nic chunk m wk.buf := by
    simp only [Worker.touch, hq]
  have hcontrol : (wk.touch wl c chunk m).control = wk.control := by
    simp only [Worker.touch, hq]
  refine ⟨?_, u, l, ?_, ?_, ControlOk.of_queue S hok hcontrol ?_ ?_⟩
  . intro c' g hg
    obtain ⟨f', hf', hop, hverb⟩ := mem_of_mem_touch hq hg
    rw [hop, hverb]
    exact hposts c' f' hf'
  . intro c'
    simp only [Worker.touch, hq]
    by_cases hc : c' = c
    . subst hc
      have := htracks c'
      rw [hq] at this
      simpa only [Function.update_self] using this.touch _
    . simpa only [Function.update_of_ne hc] using htracks c'
  . intro a hquiet
    rw [← hbuf a hquiet, hbuf']
    exact Verb.deliver_of_not_lands _ _ _ _ _ ((htracks c).not_lands (hquiet c) hf)
  . intro op a howned hword
    unfold WordOk
    rw [hbuf']
    by_cases hat : f.verb.landsAt wl.nic chunk a
    . left
      rw [Verb.deliver_of_landsAt _ _ _ hat]
      rcases howned c f hf a hat.1 with rfl | hany
      . exact hgood (hposts c f hf) a hat
      . exact hany _
    . rw [Verb.deliver_of_not_landsAt _ _ _ hat]
      exact hword.imp_right (pends_touch hq hat)
  . intro op howned c' g hg
    obtain ⟨f', hf', hop, hverb⟩ := mem_of_mem_touch hq hg
    rw [hop, hverb]
    exact howned c' f' hf'

theorem workerOk_complete (hq : wk.queue c = f :: fs) (hpending : f.pending = [])
    (h : S.WorkerOk wk) : S.WorkerOk (wk.complete c) := by
  obtain ⟨hposts, u, l, htracks, hbuf, hok⟩ := h
  simp only [Worker.complete, hq]
  have hmem {c' g} (hg : g ∈ Function.update wk.queue c fs c') : g ∈ wk.queue c' := by
    by_cases hc : c' = c
    . subst hc
      rw [Function.update_self] at hg
      rw [hq]
      exact List.mem_cons_of_mem _ hg
    . rwa [Function.update_of_ne hc] at hg
  refine ⟨fun c' g hg => hposts c' g (hmem hg), u, l, ?_, hbuf, ControlOk.of_queue S hok rfl ?_ ?_⟩
  . intro c'
    by_cases hc : c' = c
    . subst hc
      have := htracks c'
      rw [hq] at this
      simpa only [Function.update_self] using this.complete
    . simpa only [Function.update_of_ne hc] using htracks c'
  . rintro op a _ (h | ⟨c', g, hg, chunk, hchunk, hat⟩)
    . exact .inl h
    . refine .inr ⟨c', g, ?_, chunk, hchunk, hat⟩
      by_cases hc : c' = c
      . subst hc
        rw [hq, List.mem_cons] at hg
        rcases hg with rfl | hg
        . simp [hpending] at hchunk
        . simpa using hg
      . simpa [Function.update_of_ne hc] using hg
  . intro op howned c' g hg
    exact howned c' g (hmem hg)

end Network

section Run

variable [DecidableEq W] {s₀ s : Sys W κ β ε α Op}
  {cond : Sys W κ β ε α Op → Action W κ Op → Prop}

/-- The run's condition makes all fetched words `good`. -/
def Guards (cond : Sys W κ β ε α Op → Action W κ Op → Prop) : Prop :=
  ∀ s w c chunk f fs, cond s (.touch w c chunk) → (s.worker w).queue c = f :: fs →
    S.posts f.op f.verb → ∀ a, f.verb.landsAt wl.nic chunk a → S.good f.op a (f.verb.fetched s.shared.mem a)

theorem workerOk_next (hguards : S.Guards cond) (h : ∀ w, S.WorkerOk (s.worker w))
    (a : Action W κ Op) (he : s.enabled wl a = true) (hcond : cond s a) (w : W)
    : S.WorkerOk ((s.next wl a).worker w) := by
  have hset (w' : W) {wk : Worker κ β ε α Op} (hwk : S.WorkerOk wk)
      : S.WorkerOk ((s.setWorker w' wk).worker w) := by
    by_cases hw : w = w'
    . subst hw
      simpa [Sys.setWorker] using hwk
    . simpa [Sys.setWorker, Function.update_of_ne hw] using h w
  cases a with
  | start w' op =>
    simp only [Sys.enabled] at he
    split at he
    . next hcontrol =>
      obtain ⟨hposts, u, l, htracks, _, hok⟩ := h w'
      simp only [ControlOk, hcontrol] at hok
      exact hset w' (S.workerOk_begin op _ hposts htracks hok)
    . simp at he
  | cpu w' n => exact hset w' (S.workerOk_cpu n he (h w'))
  | finish w' => exact hset w' (S.workerOk_finish _ he (h w'))
  | touch w' c chunk =>
    simp only [Sys.next]
    split
    . next f fs hq =>
      exact hset w' (S.workerOk_touch hq (hguards s w' c chunk f fs hcond hq) (h w'))
    . exact h w
  | complete w' c =>
    simp only [Sys.enabled] at he
    split at he
    . next f fs hq =>
      exact hset w' (S.workerOk_complete hq (by simpa using he) (h w'))
    . simp at he

/-- Soundness: the invariant of every worker holds in every reachable state. -/
theorem workerOk_of_reach (hguards : S.Guards cond) (hfresh : s₀.Fresh)
    (h : Sys.Reach wl cond s₀ s) (w : W) : S.WorkerOk (s.worker w) := by
  induction h generalizing w with
  | refl =>
    refine ⟨by simp [hfresh.queue], fun _ => [], (s₀.worker w).buf, ?_, fun _ _ => rfl, ?_⟩
    . intro c
      exact ⟨[], by simp [hfresh.queue], by simp [hfresh.cq]⟩
    . unfold ControlOk
      rw [hfresh.control w]
      exact S.leftover_nil
  | step a _ he hcond ih => exact S.workerOk_next hguards ih a he hcond w

theorem WorkerOk.ends_ret {wk : Worker κ β ε α Op} (h : S.WorkerOk wk) {op : Op} {since : Nat}
    {a : α} (hcontrol : wk.control = .running op since (.ret a))
    : ∃ u l, S.ends op (.ok a) u l ∧ ∀ a, AllQuiet u a → wk.buf a.1 a.2 = l a.1 a.2 := by
  obtain ⟨_, u, l, _, hbuf, hok⟩ := h
  simp only [ControlOk, hcontrol] at hok
  exact ⟨u, l, hok.1, hbuf⟩

end Run

end FetchSpec
end Rdma
