import RdmaSync.Rdma.BlockProtocol

/-!
This module contains the proof rules for programs that follow the protocol of an exclusively locked
block: taking the lock, replacing the block, giving the lock back and reading without the lock.
-/

namespace Rdma

variable {W κ β ε α Op : Type}

namespace Block

variable [DecidableEq W] (b : Block) (init : Nat → Word)
  (valid : Op → (Nat → Word) → (Nat → Word) → Prop)

def protocol : Protocol W β Op where
  inv := b.Inv init valid
  guard := fun _ _ => True
  permit := b.Permit init valid
  inv_push := fun hinv _ hpermit => hinv.push hpermit

/-- The worker holds the lock, has not placed anything yet, and `cs` are the commits so far. -/
structure Owns (w : W) (cs : List (Commit W Op)) (s : Shared W β Op) : Prop where
  holds : b.holds w s.hist = true
  released : b.released s.hist = cs.length
  commits : b.commits s.hist = cs

/-- The worker holds the lock and has placed the first `k` lines of the commit `c` after `cs`. -/
structure Placing (w : W) (c : Commit W Op) (cs : List (Commit W Op)) (k : Nat)
    (s : Shared W β Op) : Prop where
  holds : b.holds w s.hist = true
  released : b.released s.hist = cs.length
  commits : b.commits s.hist = if k = 0 then cs else c :: cs
  progress : 0 < k → b.progress s.hist = k

/-- The worker does not hold the lock, and `mine` are its commits so far. -/
structure Rests (w : W) (mine : List (Commit W Op)) (s : Shared W β Op) : Prop where
  holds : b.holds w s.hist = false
  own : own w (b.commits s.hist) = mine

variable {b init valid} {s : Shared W β Op} {e : Event W β Op} {w : W}

theorem still_of_holds (hinv : b.Inv init valid s) (hpermit : b.Permit init valid s e)
    (hw : e.worker = w → e.verb.isRead = true) (hholds : b.holds w s.hist = true)
    : b.holds w (s.push e).hist = true ∧ b.commits (s.push e).hist = b.commits s.hist ∧
      b.progress (s.push e).hist = b.progress s.hist ∧
      b.released (s.push e).hist = b.released s.hist ∧ (s.push e).mem = s.mem := by
  -- A permitted event of the lock holder is one of `w`, which only reads.
  have hread : b.holds e.worker s.hist = true → e.verb.isRead = true := by
    intro h
    exact hw (hinv.holds_unique h hholds)
  cases hpermit.moves with
  | none ha hp hr hm =>
    refine ⟨?_, b.commits_of_not_places hp, b.progress_of_not_places hp, ?_, hm⟩
    . rw [Shared.push_hist, b.holds_of_neither w ha hr, hholds]
    . simp [released_cons, hr]
  | acquire ha hp hr hfree hm =>
    rw [hinv.not_holds hfree w] at hholds
    simp at hholds
  | release ha hp hr h =>
    have := hread h
    cases hv : e.verb <;> simp [releases, Verb.isRead, hv] at hr this
  | place ha hp hr h =>
    have := hread h
    cases hv : e.verb <;> simp [places, Verb.isRead, hv] at hp this

/-- While the lock word is zero, no permitted event but a compare-and-swap changes anything. -/
theorem isRead_of_free (hinv : b.Inv init valid s) (hfree : s.mem (b.base + b.lock) = 0)
    (hpermit : b.Permit init valid s e) (hcas : e.verb.isCompareSwap = false)
    : e.verb.isRead = true := by
  have hnot := hinv.not_holds hfree e.worker
  unfold Permit at hpermit
  cases hv : e.verb with
  | read => rfl
  | compareSwap => simp [hv, Verb.isCompareSwap] at hcas
  | fetchAdd => simp [hv, hnot] at hpermit
  | write => simp [hv, hnot] at hpermit

theorem owns_steady (w : W) (cs : List (Commit W Op))
    : (b.protocol init valid : Protocol W β Op).Steady w (b.Owns w cs) := by
  intro s e hinv _ hpermit hw h
  obtain ⟨h₁, h₂, _, h₃, _⟩ := still_of_holds hinv hpermit hw h.holds
  exact ⟨h₁, by rw [h₃, h.released], by rw [h₂, h.commits]⟩

theorem placing_stable (w : W) (c : Commit W Op) (cs : List (Commit W Op)) (k : Nat)
    : (b.protocol init valid : Protocol W β Op).Stable w (b.Placing w c cs k) := by
  intro s e hinv _ hpermit hw h
  obtain ⟨h₁, h₂, h₃, h₄, _⟩ :=
    still_of_holds hinv hpermit (fun heq => absurd heq hw) h.holds
  exact ⟨h₁, by rw [h₄, h.released], by rw [h₂, h.commits], by rw [h₃]; exact h.progress⟩

theorem rests_steady (w : W) (mine : List (Commit W Op))
    : (b.protocol init valid : Protocol W β Op).Steady w (b.Rests w mine) := by
  intro s e hinv _ hpermit hw h
  by_cases heq : e.worker = w
  . -- A READ of the worker itself.
    have hread := hw heq
    have ha : b.acquires s.mem e = false := by
      cases hv : e.verb <;> simp [acquires, Verb.isRead, hv] at hread ⊢
    have hr : b.releases e = false := by
      cases hv : e.verb <;> simp [releases, Verb.isRead, hv] at hread ⊢
    have hp : b.places e = false := by
      cases hv : e.verb <;> simp [places, Verb.isRead, hv] at hread ⊢
    refine ⟨?_, ?_⟩
    . rw [Shared.push_hist, b.holds_of_neither w ha hr, h.holds]
    . rw [Shared.push_hist, b.commits_of_not_places hp, h.own]
  . refine ⟨?_, ?_⟩
    . rw [Shared.push_hist, b.holds_of_ne heq, h.holds]
    . rw [Shared.push_hist, commits]
      split
      . rw [own_cons_of_ne heq, h.own]
      . exact h.own

/-- The words `lo` to `hi` of the local copy `a` are those of one state between `s₀` and `s`. -/
def ReadAtOnce (b : Block) (init : Nat → Word)
    (valid : Op → (Nat → Word) → (Nat → Word) → Prop) (a : β) (lo hi : Nat) (l : Local β)
    (s₀ s : Shared W β Op) : Prop :=
  ∃ s₁, b.Inv init valid s₁ ∧ s₀.Past s₁ ∧ s₁.Past s ∧
    ∀ i, lo ≤ i → i < hi → l a i = s₁.mem (b.base + i)

/-- The same, but each line may be of a different state. -/
def ReadByLine (b : Block) (init : Nat → Word)
    (valid : Op → (Nat → Word) → (Nat → Word) → Prop) (a : β) (lo hi : Nat) (l : Local β)
    (s₀ s : Shared W β Op) : Prop :=
  ∀ i₀, lo ≤ i₀ → i₀ < hi → ∃ s₁, b.Inv init valid s₁ ∧ s₀.Past s₁ ∧ s₁.Past s ∧
    ∀ i, lo ≤ i → i < hi → b.line i = b.line i₀ → l a i = s₁.mem (b.base + i)

theorem Owns.mem (h : b.Owns w cs s) (hinv : b.Inv init valid s) {i : Nat} (hi : i < b.words)
    : s.mem (b.base + i) = if i = b.lock then 1 else snap init cs cs.length i := by
  split
  . next heq => rw [heq, hinv.lock_held h.holds]
  . next hne =>
    have hreleased : b.released s.hist = (b.commits s.hist).length := by
      rw [h.released, h.commits]
    rw [hinv.content i hi hne, b.content_of_progress (hinv.progress_eq hreleased) hi, latest,
      h.commits]

theorem Placing.push {c : Commit W Op} {cs : List (Commit W Op)} {k : Nat}
    (h : b.Placing w c cs k s) (hp : b.places e = true) (ha : b.acquires s.mem e = false)
    (hr : b.releases e = false) (hw : e.worker = w) (hc : c = ⟨w, e.op, e.payload⟩)
    (hchunk : e.chunk = b.firstLine + k) : b.Placing w c cs (k + 1) (s.push e) := by
  refine ⟨?_, ?_, ?_, ?_⟩
  . rw [Shared.push_hist, b.holds_of_neither w ha hr, h.holds]
  . rw [Shared.push_hist, released_cons, hr, ← h.released]
    rfl
  . have hcommits := h.commits
    cases k with
    | zero =>
      rw [Shared.push_hist, b.commits_of_begins hp hchunk, hcommits, hc, hw]
      simp
    | succ k =>
      rw [Shared.push_hist, b.commits_of_continues (Nat.succ_pos k) hchunk, hcommits]
      simp
  . intro _
    rw [Shared.push_hist, b.progress_of_places hp]
    omega

theorem Placing.push_last {c : Commit W Op} {cs : List (Commit W Op)} {k : Nat}
    (h : b.Placing w c cs k s) (hinv : b.Inv init valid s) (hp : b.places e = true)
    (ha : b.acquires s.mem e = false) (hr : b.releases e = true) (hw : e.worker = w)
    (hc : c = ⟨w, e.op, e.payload⟩) (hchunk : e.chunk = b.firstLine + k)
    : b.Rests w (c :: own w cs) (s.push e) := by
  refine ⟨?_, ?_⟩
  . exact holds_of_releases hinv ha hr (by rw [hw]; exact h.holds) w
  . have hcommits := h.commits
    cases k with
    | zero =>
      simp only [↓reduceIte] at hcommits
      rw [Shared.push_hist, b.commits_of_begins hp hchunk, hcommits, hc, hw, own_cons_self]
    | succ k =>
      simp only [Nat.add_eq_zero_iff, Nat.succ_ne_self, and_false, ↓reduceIte] at hcommits
      rw [Shared.push_hist, b.commits_of_continues (Nat.succ_pos k) hchunk, hcommits, hc,
        own_cons_self]

theorem Placing.permit {op : Op} {memAddr : β × Nat} {bytes k : Nat} {payload : Nat → Word}
    {cs : List (Commit W Op)} (h : b.Placing w ⟨w, op, payload⟩ cs k s)
    (hbytes : bytes / 8 = b.words) (hk : k < b.lines)
    (hlock : payload b.lock = if b.tail then 0 else 1)
    (hvalid : valid op (snap init cs cs.length) payload)
    : b.Permit init valid s
        ⟨w, op, .write memAddr b.addr bytes, payload, b.firstLine + k⟩ := by
  refine ⟨rfl, hbytes, h.holds, hlock, ?_⟩
  have hcommits := h.commits
  by_cases hzero : k = 0
  . subst hzero
    simp only [↓reduceIte] at hcommits
    refine .inl ⟨rfl, by rw [h.released, hcommits], ?_⟩
    rwa [latest, hcommits]
  . have hprogress := h.progress (Nat.pos_of_ne_zero hzero)
    simp only [hzero, ↓reduceIte] at hcommits
    refine .inr ⟨by rw [hprogress], by rw [hprogress]; exact hk, ?_⟩
    rw [latest, hcommits]
    exact (snap_cons_length init ⟨w, op, payload⟩ cs).symm

def Placed (b : Block) (w : W) (c : Commit W Op) (cs : List (Commit W Op)) (s : Shared W β Op)
    : Prop :=
  if b.tail then b.Rests w (c :: own w cs) s else b.Placing w c cs b.lines s

theorem placed_stable (w : W) (c : Commit W Op) (cs : List (Commit W Op))
    : (b.protocol init valid : Protocol W β Op).Stable w (b.Placed w c cs) := by
  intro s e hinv hguard hpermit hw h
  by_cases htail : b.tail = true
  . simp only [Placed, htail, ↓reduceIte] at *
    exact (rests_steady w _).stable hinv hguard hpermit hw h
  . simp only [Placed, htail] at *
    exact placing_stable w c cs _ hinv hguard hpermit hw h

section Rules

variable [DecidableEq β] {nic : Nic} {op : Op} {l : Local β} {Q : Except ε α → Assertion W β Op}
  {rctx : κ} {signaled : Bool} {next : Prog κ β ε α} {mine : List (Commit W Op)}

theorem wp_acquire {memAddr : β × Nat} (h : b.Rests w mine s)
    (hok : ∀ s', b.Inv init valid s' → b.Owns w (b.commits s'.hist) s' →
      own w (b.commits s'.hist) = mine →
      wp (b.protocol init valid) nic w op Q next (l.set memAddr 0) s')
    (hfail : ∀ x s', x ≠ 0 → b.Inv init valid s' → b.Rests w mine s' →
      wp (b.protocol init valid) nic w op Q next (l.set memAddr x) s')
    : wp (b.protocol init valid) nic w op Q
        (.post rctx signaled (.compareSwap 0 1 memAddr b.lockAddr) next) l s := by
  apply wp_compareSwap
  intro s' e hr hinv _ he
  have hpermit : b.Permit init valid s' e := by
    rw [he]
    exact ⟨rfl, rfl, rfl⟩
  have hinv' : b.Inv init valid (s'.push e) := Inv.push hinv hpermit
  have hrests : b.Rests w mine s' := (rests_steady w mine).rely hr h
  have hload : load64 s'.mem b.lockAddr = s'.mem (b.base + b.lock) := by
    rw [load64_aligned _ b.lockAddr_aligned, b.lockAddr_div]
  have hw : e.worker = w := by rw [he]
  have hp : b.places e = false := by rw [he]; rfl
  have hr : b.releases e = false := by rw [he]; rfl
  have hcommits : b.commits (s'.push e).hist = b.commits s'.hist := b.commits_of_not_places hp
  refine ⟨hpermit, ?_⟩
  by_cases hfree : s'.mem (b.base + b.lock) = 0
  . rw [hload, hfree]
    have ha : b.acquires s'.mem e = true := by simp [he, acquires, hload, hfree]
    apply hok _ hinv'
    . refine ⟨?_, ?_, rfl⟩
      . rw [holds_of_acquires hinv ha hfree]
        simp [hw]
      . rw [hcommits, Shared.push_hist, released_cons, hr]
        exact (hinv.lock_free (fun w => hinv.not_holds hfree w)).2
    . rw [hcommits, hrests.own]
  . have ha : b.acquires s'.mem e = false := by
      rw [he]
      simpa only [acquires, hload, beq_self_eq_true, Bool.true_and, beq_eq_false_iff_ne]
    rw [hload]
    apply hfail _ _ hfree hinv'
    refine ⟨?_, by rw [hcommits, hrests.own]⟩
    rw [Shared.push_hist, b.holds_of_neither w ha hr, hrests.holds]

theorem wp_read_resting {memAddr : β × Nat} {remoteOffset bytes : Nat}
    (hinv : b.Inv init valid s) (h : b.Rests w mine s)
    (hnext : ∀ l' s', b.Inv init valid s' → b.Rests w mine s' → s.Past s' →
      (∀ chunk ∈ (Verb.read memAddr remoteOffset bytes).chunks nic,
        ∃ s₁, b.Inv init valid s₁ ∧ s.Past s₁ ∧ s₁.Past s' ∧
          ∀ i, i < bytes / 8 →
            (Verb.read memAddr remoteOffset bytes).chunkOf nic i = chunk →
            l' memAddr.1 (memAddr.2 + i) = s₁.mem (remoteOffset / 8 + i)) →
      (∀ c i, ¬(Verb.read memAddr remoteOffset bytes).lands (c, i) → l' c i = l c i) →
      wp (b.protocol init valid) nic w op Q next l' s')
    : wp (b.protocol init valid) nic w op Q
        (.post rctx signaled (.read memAddr remoteOffset bytes) next) l s := by
  apply wp_read (P := b.protocol init valid) (b.Rests w mine) hinv h (rests_steady w mine)
  . intro s' e _ _ _ _ hv
    show b.Permit init valid s' e
    simp only [Permit, hv]
  . intro l' s' hinv' hrests hpast hfetched hframe
    apply hnext l' s' hinv' hrests hpast _ hframe
    intro chunk hmem
    obtain ⟨s₁, hs₁, hwords⟩ := hfetched chunk hmem
    exact ⟨s₁, hs₁.inv, hs₁.after, hs₁.before, hwords⟩

theorem wp_readsOnly {p : Prog κ β ε α} (hp : p.Posts fun v => v.isRead = true)
    (hinv : b.Inv init valid s) (h : b.Rests w mine s)
    : wp (b.protocol init valid) nic w op (fun _ _ s => b.Rests w mine s) p l s := by
  apply wp_of_posts hp hinv h (rests_steady w mine).stable
  intro s' e hinv' hguard _ hread hrests
  have hpermit : b.Permit init valid s' e := by
    cases hv : e.verb <;> simp [Verb.isRead, hv] at hread
    simp only [Permit, hv]
  exact ⟨hpermit, rests_steady w mine hinv' hguard hpermit (fun _ => hread) hrests⟩

theorem wp_read_lines {a : β} {lo hi remoteOffset bytes : Nat}
    (hoffset : remoteOffset = b.addr + 8 * lo) (hbytes : bytes = 8 * (hi - lo))
    (hinv : b.Inv init valid s) (h : b.Rests w mine s)
    (hnext : ∀ l' s', b.Inv init valid s' → b.Rests w mine s' → s.Past s' →
      b.ReadByLine init valid a lo hi l' s s' →
      (∀ c i, ¬(c = a ∧ lo ≤ i ∧ i < hi) → l' c i = l c i) →
      wp (b.protocol init valid) nic w op Q next l' s')
    : wp (b.protocol init valid) nic w op Q
        (.post rctx signaled (.read (a, lo) remoteOffset bytes) next) l s := by
  have haligned := b.addr_aligned
  have hbase : remoteOffset / 8 = b.base + lo := by
    unfold base
    omega
  apply wp_read_resting hinv h
  intro l' s' hinv' hrests' hpast hfetched hframe
  apply hnext l' s' hinv' hrests' hpast
  . intro i₀ hlo hhi
    have hi₀ : i₀ - lo < bytes / 8 := by omega
    obtain ⟨s₁, hinv₁, hpast₀, hpast₁, hwords⟩ :=
      hfetched _ (Verb.chunkOf_mem_chunks nic (a, lo) remoteOffset hi₀)
    refine ⟨s₁, hinv₁, hpast₀, hpast₁, ?_⟩
    intro i hlo' hhi' hline
    have hword := hwords (i - lo) (by omega) (by
      simp only [Verb.chunkOf, hbase]
      unfold line at hline
      rw [show b.base + lo + (i - lo) = b.base + i by omega,
        show b.base + lo + (i₀ - lo) = b.base + i₀ by omega, hline])
    rw [hbase, show b.base + lo + (i - lo) = b.base + i by omega] at hword
    rw [← hword]
    congr 1
    omega
  . intro c i hnot
    apply hframe
    rintro ⟨hc, hlo, hhi⟩
    exact hnot ⟨hc, hlo, by simp only at hhi; omega⟩

/-- A READ that is short enough is one atomic step. -/
theorem wp_read_atomic {a : β} {lo hi remoteOffset bytes : Nat}
    (hatomic : bytes ≤ nic.atomicReadBytes)
    (hoffset : remoteOffset = b.addr + 8 * lo) (hbytes : bytes = 8 * (hi - lo))
    (hinv : b.Inv init valid s) (h : b.Rests w mine s)
    (hnext : ∀ l' s', b.Inv init valid s' → b.Rests w mine s' → s.Past s' →
      b.ReadAtOnce init valid a lo hi l' s s' →
      (∀ c i, ¬(c = a ∧ lo ≤ i ∧ i < hi) → l' c i = l c i) →
      wp (b.protocol init valid) nic w op Q next l' s')
    : wp (b.protocol init valid) nic w op Q
        (.post rctx signaled (.read (a, lo) remoteOffset bytes) next) l s := by
  have haligned := b.addr_aligned
  have hbase : remoteOffset / 8 = b.base + lo := by
    unfold base
    omega
  apply wp_read_resting hinv h
  intro l' s' hinv' hrests' hpast hfetched hframe
  apply hnext l' s' hinv' hrests' hpast
  . obtain ⟨s₁, hinv₁, hpast₀, hpast₁, hwords⟩ := hfetched 0 (by simp [Verb.chunks, hatomic])
    refine ⟨s₁, hinv₁, hpast₀, hpast₁, ?_⟩
    intro i hlo hhi
    have hword := hwords (i - lo) (by omega) (by simp [Verb.chunkOf, hatomic])
    rw [hbase, show b.base + lo + (i - lo) = b.base + i by omega] at hword
    rw [← hword]
    congr 1
    omega
  . intro c i hnot
    apply hframe
    rintro ⟨hc, hlo, hhi⟩
    exact hnot ⟨hc, hlo, by simp only at hhi; omega⟩

theorem wp_read_owned {memAddr : β × Nat} {bytes : Nat} {cs : List (Commit W Op)}
    (hbytes : bytes / 8 = b.words) (hinv : b.Inv init valid s) (h : b.Owns w cs s)
    (hnext : ∀ l' s', b.Inv init valid s' → b.Owns w cs s' →
      (∀ i, i < b.words → l' memAddr.1 (memAddr.2 + i)
        = if i = b.lock then 1 else snap init cs cs.length i) →
      (∀ c i, ¬(Verb.read memAddr b.addr bytes).lands (c, i) → l' c i = l c i) →
      wp (b.protocol init valid) nic w op Q next l' s')
    : wp (b.protocol init valid) nic w op Q
        (.post rctx signaled (.read memAddr b.addr bytes) next) l s := by
  apply wp_read (P := b.protocol init valid) (b.Owns w cs) hinv h (owns_steady w cs)
  . intro s' e _ _ _ _ hv
    show b.Permit init valid s' e
    simp only [Permit, hv]
  . intro l' s' hinv' howns _ hfetched hframe
    apply hnext l' s' hinv' howns _ hframe
    intro i hi
    have hi' : i < bytes / 8 := by omega
    obtain ⟨s₁, hs₁, hwords⟩ :=
      hfetched _ (Verb.chunkOf_mem_chunks nic memAddr b.addr hi')
    rw [hwords i hi' rfl]
    exact hs₁.context.mem hs₁.inv hi

theorem wp_replace {memAddr : β × Nat} {bytes : Nat} {cs : List (Commit W Op)}
    {payload : Nat → Word} (horder : nic.inOrderWrites = true) (hbytes : bytes / 8 = b.words)
    (hinv : b.Inv init valid s) (h : b.Owns w cs s)
    (hpayload : (Verb.write memAddr b.addr bytes).payload l = payload)
    (hlock : payload b.lock = if b.tail then 0 else 1)
    (hvalid : valid op (snap init cs cs.length) payload)
    (hnext : ∀ s', b.Inv init valid s' → b.Placed w ⟨w, op, payload⟩ cs s' →
      wp (b.protocol init valid) nic w op Q next l s')
    : wp (b.protocol init valid) nic w op Q
        (.post rctx signaled (.write memAddr b.addr bytes) next) l s := by
  have hlines : (Verb.write memAddr b.addr bytes).chunks nic
      = List.range' b.firstLine b.lines := b.linesOf_eq hbytes
  have hlast := b.firstLine_add_lines
  have hpos := b.lines_pos
  -- The pending lines are those from the `k`-th on.
  apply wp_post (P := b.protocol init valid) (fun pending l' s' => l' = l ∧
    ∃ k, pending = List.range' (b.firstLine + k) (b.lines - k) ∧ k ≤ b.lines ∧
      if k = b.lines then b.Placed w ⟨w, op, payload⟩ cs s'
      else b.Placing w ⟨w, op, payload⟩ cs k s')
  . rintro pending l' s' e hinv' hguard hpermit hw ⟨hl, k, hk, hle, h'⟩
    refine ⟨hl, k, hk, hle, ?_⟩
    by_cases hend : k = b.lines
    . simp only [hend, ↓reduceIte] at *
      exact placed_stable w _ cs hinv' hguard hpermit hw h'
    . simp only [hend, ↓reduceIte] at *
      exact placing_stable w _ cs k hinv' hguard hpermit hw h'
  . refine ⟨rfl, 0, by rw [hlines]; rfl, Nat.zero_le _, ?_⟩
    have hne : ¬0 = b.lines := by omega
    simp only [hne, ↓reduceIte]
    exact ⟨h.holds, h.released, h.commits, by omega⟩
  . exact hinv
  . rintro pending l' s' chunk hinv' ⟨rfl, k, rfl, hle, h'⟩ hallow _
    have hlt : k < b.lines := by
      have := Verb.mem_of_allows hallow
      rw [List.mem_range'_1] at this
      omega
    have hne : ¬k = b.lines := by omega
    simp only [hne, ↓reduceIte] at h'
    obtain ⟨n, hn⟩ : ∃ n, b.lines - k = n + 1 := ⟨b.lines - k - 1, by omega⟩
    obtain rfl : chunk = b.firstLine + k := by
      rw [hn, List.range'_succ] at hallow
      simp only [Verb.allows, horder, Bool.and_eq_true, List.head?_cons] at hallow
      have hhead : b.firstLine + k = chunk := by simpa using hallow.2
      exact hhead.symm
    rw [hpayload]
    have hpermit : b.Permit init valid s'
        ⟨w, op, .write memAddr b.addr bytes, payload, b.firstLine + k⟩ :=
      h'.permit hbytes hlt hlock hvalid
    refine ⟨hpermit, rfl, k + 1, ?_, by omega, ?_⟩
    . rw [hn, List.range'_succ, List.erase_cons_head, show b.lines - (k + 1) = n by omega]
      rfl
    . have hp : b.places (⟨w, op, .write memAddr b.addr bytes, payload, b.firstLine + k⟩ :
          Event W β Op) = true := by simp [places]
      by_cases hend : k + 1 = b.lines
      . simp only [hend, ↓reduceIte, Placed]
        have hchunk : b.firstLine + k = b.lastLine := by omega
        split
        . next htail =>
          exact h'.push_last hinv' hp rfl (by simp [releases, htail, hchunk]) rfl rfl rfl
        . next htail =>
          rw [← hend]
          exact h'.push hp rfl (by simp [releases, htail]) rfl rfl rfl
      . simp only [hend, ↓reduceIte]
        have hchunk : ¬b.firstLine + k = b.lastLine := by omega
        exact h'.push hp rfl (by simp [releases, hchunk]) rfl rfl rfl
  . rintro l' s' hinv' ⟨rfl, k, hk, hle, h'⟩
    have hk : k = b.lines := by
      have := congrArg List.length hk
      simp only [List.length_nil, List.length_range'] at this
      omega
    simp only [hk, ↓reduceIte] at h'
    exact hnext s' hinv' h'

theorem wp_release {memAddr : β × Nat} {c : Commit W Op} {cs : List (Commit W Op)}
    (htail : b.tail = false) (h : b.Placed w c cs s) (hc : c.worker = w)
    (hnext : ∀ x s', b.Inv init valid s' → b.Rests w (c :: own w cs) s' →
      wp (b.protocol init valid) nic w op Q next (l.set memAddr x) s')
    : wp (b.protocol init valid) nic w op Q
        (.post rctx signaled (.fetchAdd (-1) memAddr b.lockAddr) next) l s := by
  simp only [Placed, htail, Bool.false_eq_true, ↓reduceIte] at h
  apply wp_fetchAdd
  intro s' e hr hinv _ he
  have hplacing : b.Placing w c cs b.lines s' := (placing_stable w c cs _).rely hr h
  have hne : ¬b.lines = 0 := by
    have := b.lines_pos
    omega
  have hcommits := hplacing.commits
  simp only [hne, ↓reduceIte] at hcommits
  have hpermit : b.Permit init valid s' e := by
    rw [he]
    refine ⟨rfl, rfl, htail, hplacing.holds, hplacing.progress b.lines_pos, ?_⟩
    rw [hcommits, hplacing.released]
    simp
  refine ⟨hpermit, ?_⟩
  apply hnext _ _ (Inv.push hinv hpermit)
  have ha : b.acquires s'.mem e = false := by rw [he]; rfl
  have hrel : b.releases e = true := by simp [he, releases, htail]
  refine ⟨?_, ?_⟩
  . exact holds_of_releases hinv ha hrel (by rw [he]; exact hplacing.holds) w
  . have hp : b.places e = false := by rw [he]; rfl
    rw [Shared.push_hist, b.commits_of_not_places hp, hcommits]
    simp [own, hc]

end Rules
end Block
end Rdma
