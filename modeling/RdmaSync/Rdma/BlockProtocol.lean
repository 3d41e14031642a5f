import RdmaSync.Rdma.Block

/-!
This module contains the protocol of an exclusively locked block: what a worker may do to the block
in which state, and the invariant that results.
-/

namespace Rdma

variable {W β Op : Type}

namespace Block

variable (b : Block) (init : Nat → Word) (valid : Op → (Nat → Word) → (Nat → Word) → Prop)

/-- The WRITE event is the first line of a new state. -/
structure Begins (s : Shared W β Op) (e : Event W β Op) : Prop where
  chunk : e.chunk = b.firstLine
  released : b.released s.hist = (b.commits s.hist).length
  valid : valid e.op (b.latest init s.hist) e.payload

/-- The WRITE event is the next line of the newest state. -/
structure Continues (s : Shared W β Op) (e : Event W β Op) : Prop where
  chunk : e.chunk = b.firstLine + b.progress s.hist
  progress : b.progress s.hist < b.lines
  payload : e.payload = b.latest init s.hist

theorem chunk_le_lastLine {b : Block} {init : Nat → Word}
    {valid : Op → (Nat → Word) → (Nat → Word) → Prop} {s : Shared W β Op} {e : Event W β Op}
    (hchunk : b.Begins init valid s e ∨ b.Continues init s e) : e.chunk ≤ b.lastLine := by
  rcases hchunk with h | h
  . rw [h.chunk]
    exact b.firstLine_le_lastLine
  . have := h.progress
    have := h.chunk
    have := b.firstLine_add_lines
    omega

variable [DecidableEq W]

/-- What a worker has to show before it causes an event. -/
def Permit (s : Shared W β Op) (e : Event W β Op) : Prop :=
  match e.verb with
  | .read .. => True
  | .compareSwap expected desired _ remoteOffset =>
    expected = 0 ∧ desired = 1 ∧ remoteOffset = b.lockAddr
  | .fetchAdd toAdd _ remoteOffset =>
    toAdd = -1 ∧ remoteOffset = b.lockAddr ∧ b.tail = false ∧
    b.holds e.worker s.hist = true ∧ b.progress s.hist = b.lines ∧
    b.released s.hist < (b.commits s.hist).length
  | .write _ remoteOffset bytes =>
    remoteOffset = b.addr ∧ bytes / 8 = b.words ∧
    b.holds e.worker s.hist = true ∧ e.payload b.lock = (if b.tail then 0 else 1) ∧
    (b.Begins init valid s e ∨ b.Continues init s e)

structure Inv (s : Shared W β Op) : Prop where
  holds_unique : ∀ {w w'}, b.holds w s.hist = true → b.holds w' s.hist = true → w = w'
  lock_held : ∀ {w}, b.holds w s.hist = true → s.mem (b.base + b.lock) = 1
  lock_free : (∀ w, b.holds w s.hist = false) →
    s.mem (b.base + b.lock) = 0 ∧ b.released s.hist = (b.commits s.hist).length
  progress_pos : 0 < b.progress s.hist
  progress_le : b.progress s.hist ≤ b.lines
  progress_lt : b.progress s.hist < b.lines → b.released s.hist < (b.commits s.hist).length
  released_le : b.released s.hist ≤ (b.commits s.hist).length
  commits_le : (b.commits s.hist).length ≤ b.released s.hist + 1
  content : ∀ i, i < b.words → i ≠ b.lock → s.mem (b.base + i) = b.content init s.hist i
  chain : Chain valid init (b.commits s.hist)

/-- What a permitted event does to the block. -/
inductive Moves (s : Shared W β Op) (e : Event W β Op) : Prop where
  | none (ha : b.acquires s.mem e = false) (hp : b.places e = false) (hr : b.releases e = false)
    (hm : (s.push e).mem = s.mem)
  | acquire (ha : b.acquires s.mem e = true) (hp : b.places e = false)
    (hr : b.releases e = false) (hfree : s.mem (b.base + b.lock) = 0)
    (hm : (s.push e).mem = Function.update s.mem (b.base + b.lock) 1)
  | release (ha : b.acquires s.mem e = false) (hp : b.places e = false)
    (hr : b.releases e = true) (hholds : b.holds e.worker s.hist = true)
    (hprogress : b.progress s.hist = b.lines)
    (hreleased : b.released s.hist < (b.commits s.hist).length)
    (hm : (s.push e).mem
      = Function.update s.mem (b.base + b.lock) (s.mem (b.base + b.lock) + -1))
  | place (ha : b.acquires s.mem e = false) (hp : b.places e = true)
    (hr : b.releases e = (b.tail && e.chunk == b.lastLine))
    (hholds : b.holds e.worker s.hist = true)
    (hlock : e.payload b.lock = if b.tail then 0 else 1)
    (hchunk : b.Begins init valid s e ∨ b.Continues init s e)
    (hm : ∀ i, i < b.words → (s.push e).mem (b.base + i)
      = if b.line i = e.chunk then e.payload i else s.mem (b.base + i))

variable {b init valid} {s : Shared W β Op} {e : Event W β Op}

theorem Permit.moves (h : b.Permit init valid s e) : b.Moves init valid s e := by
  rcases e with ⟨w, op, v, payload, chunk⟩
  cases v with
  | read => exact .none rfl rfl rfl rfl
  | compareSwap expected desired memAddr remoteOffset =>
    obtain ⟨rfl, rfl, rfl⟩ := h
    have hload : load64 s.mem b.lockAddr = s.mem (b.base + b.lock) := by
      rw [load64_aligned _ b.lockAddr_aligned, b.lockAddr_div]
    by_cases hfree : s.mem (b.base + b.lock) = 0
    . apply Moves.acquire _ rfl rfl hfree
      . simp only [Shared.push_mem, Verb.place, hload, hfree, ↓reduceIte,
          store64_aligned _ _ b.lockAddr_aligned, b.lockAddr_div]
      . simp [acquires, hload, hfree]
    . apply Moves.none _ rfl rfl
      . simp only [Shared.push_mem, Verb.place, hload, hfree, ↓reduceIte]
      . simpa only [acquires, hload, beq_self_eq_true, Bool.true_and, beq_eq_false_iff_ne]
  | fetchAdd toAdd memAddr remoteOffset =>
    obtain ⟨rfl, rfl, htail, hholds, hprogress, hreleased⟩ := h
    apply Moves.release rfl rfl _ hholds hprogress hreleased
    . simp [Verb.place, load64_aligned _ b.lockAddr_aligned,
        store64_aligned _ _ b.lockAddr_aligned, b.lockAddr_div]
    . simp [releases, htail]
  | write memAddr remoteOffset bytes =>
    obtain ⟨rfl, hbytes, hholds, hlock, hchunk⟩ := h
    apply Moves.place rfl _ _ hholds hlock hchunk
    . intro i hi
      simp only [Shared.push_mem, Verb.place, line, base, Nat.add_sub_cancel_left]
      apply if_congr _ rfl rfl
      omega
    . simp [places]
    . simp [releases]

section Preservation

theorem Inv.progress_eq (hinv : b.Inv init valid s)
    (h : b.released s.hist = (b.commits s.hist).length) : b.progress s.hist = b.lines := by
  have := hinv.progress_le
  by_contra hne
  have := hinv.progress_lt (by omega)
  omega

/-- The new state is the newest one as soon as its first line has been placed. -/
theorem latest_of_chunk (hinv : b.Inv init valid s) (hp : b.places e = true)
    (hchunk : b.Begins init valid s e ∨ b.Continues init s e)
    : b.latest init ((s.mem, e) :: s.hist) = e.payload := by
  rcases hchunk with h | h
  . simp [latest, b.commits_of_begins hp h.chunk]
  . rw [h.payload]
    unfold latest
    rw [b.commits_of_continues hinv.progress_pos h.chunk]

theorem content_of_chunk (hinv : b.Inv init valid s) (hp : b.places e = true)
    (hchunk : b.Begins init valid s e ∨ b.Continues init s e) {i : Nat} (hi : i < b.words)
    (hlock : i ≠ b.lock)
    : b.content init ((s.mem, e) :: s.hist) i
        = if b.line i = e.chunk then e.payload i else s.mem (b.base + i) := by
  rw [hinv.content i hi hlock]
  have hfirst := b.firstLine_le i
  have hlatest := latest_of_chunk hinv hp hchunk
  simp only [content, b.progress_of_places hp, hlatest]
  rcases hchunk with h | h
  . -- Before the first line, all lines are those of the newest committed state.
    have hprogress := hinv.progress_eq h.released
    have hline := b.line_le hi
    have hlines := b.firstLine_add_lines
    have hold : b.line i < b.firstLine + b.progress s.hist := by omega
    have hiff : b.line i < b.firstLine + (b.firstLine - b.firstLine + 1) ↔
        b.line i = b.firstLine := by omega
    simp only [h.chunk, hold, hiff, ↓reduceIte, b.commits_of_begins hp h.chunk, List.length_cons,
      Nat.add_sub_cancel]
    split
    . rfl
    . exact congrFun (snap_cons_of_le init _ (Nat.le_refl _)) i
  . have hchunk := h.chunk
    simp only [b.commits_of_continues hinv.progress_pos h.chunk]
    split
    . next hlt =>
      split
      . rfl
      . next hne =>
        have hold : b.line i < b.firstLine + b.progress s.hist := by omega
        simp only [hold, ↓reduceIte, h.payload]
    . next hge =>
      have hold : ¬b.line i < b.firstLine + b.progress s.hist := by omega
      have hne : ¬b.line i = e.chunk := by omega
      simp only [hold, hne, ↓reduceIte]

theorem lock_of_place (hinv : b.Inv init valid s) (hholds : b.holds e.worker s.hist = true)
    (hlock : e.payload b.lock = if b.tail then 0 else 1)
    (hm : ∀ i, i < b.words → (s.push e).mem (b.base + i)
      = if b.line i = e.chunk then e.payload i else s.mem (b.base + i))
    (hr : b.releases e = (b.tail && e.chunk == b.lastLine))
    : (s.push e).mem (b.base + b.lock) = if b.releases e then 0 else 1 := by
  rw [hm b.lock b.lock_lt, hlock, hinv.lock_held hholds, hr]
  cases htail : b.tail with
  | false => simp
  | true =>
    have hlast : b.line b.lock = b.lastLine := by
      have := b.lock_tail htail
      unfold lastLine
      congr
      omega
    rw [hlast]
    by_cases h : e.chunk = b.lastLine
    . simp [h]
    . simp [h, Ne.symm h]

theorem Inv.push_none (hinv : b.Inv init valid s) (ha : b.acquires s.mem e = false)
    (hp : b.places e = false) (hr : b.releases e = false) (hm : (s.push e).mem = s.mem)
    : b.Inv init valid (s.push e) := by
  have hholds : ∀ w, b.holds w (s.push e).hist = b.holds w s.hist := by
    intro w
    exact b.holds_of_neither w ha hr
  have hcommits : b.commits (s.push e).hist = b.commits s.hist := b.commits_of_not_places hp
  have hprogress : b.progress (s.push e).hist = b.progress s.hist := b.progress_of_not_places hp
  have hreleased : b.released (s.push e).hist = b.released s.hist := by
    simp [released_cons, hr]
  have hcontent : b.content init (s.push e).hist = b.content init s.hist :=
    b.content_of_not_places init hp
  constructor <;> simp only [hholds, hcommits, hprogress, hreleased, hcontent, hm]
  . exact hinv.holds_unique
  . exact hinv.lock_held
  . exact hinv.lock_free
  . exact hinv.progress_pos
  . exact hinv.progress_le
  . exact hinv.progress_lt
  . exact hinv.released_le
  . exact hinv.commits_le
  . exact hinv.content
  . exact hinv.chain

theorem Inv.not_holds (hinv : b.Inv init valid s) (hfree : s.mem (b.base + b.lock) = 0) (w : W)
    : b.holds w s.hist = false := by
  by_contra h
  have := hinv.lock_held (by simpa using h)
  rw [hfree] at this
  simp at this

theorem holds_of_acquires (hinv : b.Inv init valid s) (ha : b.acquires s.mem e = true)
    (hfree : s.mem (b.base + b.lock) = 0) (w : W)
    : b.holds w (s.push e).hist = decide (e.worker = w) := by
  rw [Shared.push_hist, holds_cons, ha, hinv.not_holds hfree w]
  by_cases h : e.worker = w <;> simp [h]

theorem holds_of_releases (hinv : b.Inv init valid s) (ha : b.acquires s.mem e = false)
    (hr : b.releases e = true) (hholds : b.holds e.worker s.hist = true) (w : W)
    : b.holds w (s.push e).hist = false := by
  rw [Shared.push_hist, holds_cons, ha, hr]
  split
  . rfl
  . next h =>
    by_contra hw
    exact h (hinv.holds_unique hholds (by simpa using hw))

theorem Inv.push_acquire (hinv : b.Inv init valid s) (ha : b.acquires s.mem e = true)
    (hp : b.places e = false) (hr : b.releases e = false)
    (hfree : s.mem (b.base + b.lock) = 0)
    (hm : (s.push e).mem = Function.update s.mem (b.base + b.lock) 1)
    : b.Inv init valid (s.push e) := by
  have hholds := holds_of_acquires hinv ha hfree
  have hcommits : b.commits (s.push e).hist = b.commits s.hist := b.commits_of_not_places hp
  have hprogress : b.progress (s.push e).hist = b.progress s.hist := b.progress_of_not_places hp
  have hreleased : b.released (s.push e).hist = b.released s.hist := by
    simp [released_cons, hr]
  have hcontent : b.content init (s.push e).hist = b.content init s.hist :=
    b.content_of_not_places init hp
  constructor <;> simp only [hholds, hcommits, hprogress, hreleased, hcontent, hm]
  . intro w w' h h'
    simp only [decide_eq_true_eq] at h h'
    rw [← h, ← h']
  . simp
  . intro h
    simpa using h e.worker
  . exact hinv.progress_pos
  . exact hinv.progress_le
  . exact hinv.progress_lt
  . exact hinv.released_le
  . exact hinv.commits_le
  . intro i hi hne
    rw [Function.update_of_ne (by omega)]
    exact hinv.content i hi hne
  . exact hinv.chain

theorem Inv.push_release (hinv : b.Inv init valid s) (ha : b.acquires s.mem e = false)
    (hp : b.places e = false) (hr : b.releases e = true)
    (hholds : b.holds e.worker s.hist = true) (hlines : b.progress s.hist = b.lines)
    (hlt : b.released s.hist < (b.commits s.hist).length)
    (hm : (s.push e).mem
      = Function.update s.mem (b.base + b.lock) (s.mem (b.base + b.lock) + -1))
    : b.Inv init valid (s.push e) := by
  have hnot := holds_of_releases hinv ha hr hholds
  have hcommits : b.commits (s.push e).hist = b.commits s.hist := b.commits_of_not_places hp
  have hprogress : b.progress (s.push e).hist = b.progress s.hist := b.progress_of_not_places hp
  have hreleased : b.released (s.push e).hist = b.released s.hist + 1 := by
    simp [released_cons, hr]
  have hcontent : b.content init (s.push e).hist = b.content init s.hist :=
    b.content_of_not_places init hp
  have hle := hinv.commits_le
  constructor <;> simp only [hnot, hcommits, hprogress, hreleased, hcontent, hm]
  . simp
  . simp
  . intro _
    refine ⟨?_, by omega⟩
    rw [Function.update_self, hinv.lock_held hholds]
    decide
  . exact hinv.progress_pos
  . exact hinv.progress_le
  . omega
  . omega
  . omega
  . intro i hi hne
    rw [Function.update_of_ne (by omega)]
    exact hinv.content i hi hne
  . exact hinv.chain

theorem counts_of_place (hinv : b.Inv init valid s) (hp : b.places e = true)
    (hchunk : b.Begins init valid s e ∨ b.Continues init s e)
    (hr : b.releases e = (b.tail && e.chunk == b.lastLine))
    : 0 < b.progress (s.push e).hist ∧ b.progress (s.push e).hist ≤ b.lines ∧
      (b.commits (s.push e).hist).length = b.released s.hist + 1 ∧
      b.released (s.push e).hist = b.released s.hist + (if b.releases e then 1 else 0) ∧
      (b.releases e = true → b.progress (s.push e).hist = b.lines) := by
  have hlines := b.firstLine_add_lines
  have hpos := b.lines_pos
  have hle := chunk_le_lastLine hchunk
  have hprogress : b.progress (s.push e).hist = e.chunk - b.firstLine + 1 := b.progress_of_places hp
  have hlength : (b.commits (s.push e).hist).length = b.released s.hist + 1 := by
    rcases hchunk with h | h
    . rw [Shared.push_hist, b.commits_of_begins hp h.chunk, List.length_cons, h.released]
    . have := hinv.progress_lt h.progress
      have := hinv.commits_le
      rw [Shared.push_hist, b.commits_of_continues hinv.progress_pos h.chunk]
      omega
  refine ⟨by omega, by omega, hlength, ?_, ?_⟩
  . rw [Shared.push_hist, released_cons]
    split <;> rfl
  . intro h
    rw [hr] at h
    have : e.chunk = b.lastLine := by simpa using (Bool.and_eq_true_iff.mp h).2
    omega

theorem Inv.push_place (hinv : b.Inv init valid s) (ha : b.acquires s.mem e = false)
    (hp : b.places e = true) (hr : b.releases e = (b.tail && e.chunk == b.lastLine))
    (hholds : b.holds e.worker s.hist = true)
    (hlock : e.payload b.lock = if b.tail then 0 else 1)
    (hchunk : b.Begins init valid s e ∨ b.Continues init s e)
    (hm : ∀ i, i < b.words → (s.push e).mem (b.base + i)
      = if b.line i = e.chunk then e.payload i else s.mem (b.base + i))
    : b.Inv init valid (s.push e) := by
  have hword := lock_of_place hinv hholds hlock hm hr
  obtain ⟨hpos, hle, hcommits, hreleased, hlast⟩ := counts_of_place hinv hp hchunk hr
  have hchain : Chain valid init (b.commits (s.push e).hist) := by
    rcases hchunk with h | h
    . rw [Shared.push_hist, b.commits_of_begins hp h.chunk]
      exact ⟨h.valid, hinv.chain⟩
    . rw [Shared.push_hist, b.commits_of_continues hinv.progress_pos h.chunk]
      exact hinv.chain
  have hcontent : ∀ i, i < b.words → i ≠ b.lock →
      (s.push e).mem (b.base + i) = b.content init (s.push e).hist i := by
    intro i hi hne
    rw [hm i hi, Shared.push_hist, content_of_chunk hinv hp hchunk hi hne]
  cases hrel : b.releases e with
  | true =>
    have hnot := holds_of_releases hinv ha hrel hholds
    simp only [hrel, ↓reduceIte] at hword hreleased
    have hlines := hlast hrel
    exact {
      holds_unique := by simp only [hnot]; simp
      lock_held := by simp only [hnot]; simp
      lock_free := fun _ => ⟨hword, by omega⟩
      progress_pos := hpos
      progress_le := hle
      progress_lt := by omega
      released_le := by omega
      commits_le := by omega
      content := hcontent
      chain := hchain
    }
  | false =>
    have hsame : ∀ w, b.holds w (s.push e).hist = b.holds w s.hist := by
      intro w
      exact b.holds_of_neither w ha hrel
    simp only [hrel, Bool.false_eq_true, ↓reduceIte, Nat.add_zero] at hword hreleased
    exact {
      holds_unique := by simp only [hsame]; exact hinv.holds_unique
      lock_held := fun _ => hword
      lock_free := by
        intro h
        have := h e.worker
        rw [hsame, hholds] at this
        simp at this
      progress_pos := hpos
      progress_le := hle
      progress_lt := by omega
      released_le := by omega
      commits_le := by omega
      content := hcontent
      chain := hchain
    }

theorem Inv.push (hinv : b.Inv init valid s) (h : b.Permit init valid s e)
    : b.Inv init valid (s.push e) := by
  cases h.moves with
  | none ha hp hr hm => exact hinv.push_none ha hp hr hm
  | acquire ha hp hr hfree hm => exact hinv.push_acquire ha hp hr hfree hm
  | release ha hp hr hholds hprogress hreleased hm =>
    exact hinv.push_release ha hp hr hholds hprogress hreleased hm
  | place ha hp hr hholds hlock hchunk hm => exact hinv.push_place ha hp hr hholds hlock hchunk hm

end Preservation

section Contents

/-- The words of a line are always those of one committed state, and of one that is not outdated. -/
theorem Inv.line_snap (hinv : b.Inv init valid s) (c : Nat)
    : ∃ k, b.released s.hist ≤ k ∧ k ≤ (b.commits s.hist).length ∧
        ∀ i, i < b.words → i ≠ b.lock → b.line i = c →
          s.mem (b.base + i) = snap init (b.commits s.hist) k i := by
  by_cases hc : c < b.firstLine + b.progress s.hist
  . refine ⟨(b.commits s.hist).length, hinv.released_le, Nat.le_refl _, ?_⟩
    rintro i hi hne rfl
    rw [hinv.content i hi hne]
    simp only [Block.content, hc, ↓reduceIte, latest]
  . by_cases hall : b.progress s.hist < b.lines
    . have hlt := hinv.progress_lt hall
      refine ⟨(b.commits s.hist).length - 1, by omega, by omega, ?_⟩
      rintro i hi hne rfl
      rw [hinv.content i hi hne]
      simp only [Block.content, hc, ↓reduceIte]
    . -- There is no such line.
      refine ⟨(b.commits s.hist).length, hinv.released_le, Nat.le_refl _, ?_⟩
      rintro i hi _ rfl
      have := b.line_le hi
      have := b.firstLine_add_lines
      omega

theorem Inv.line_snap_past {s₁ : Shared W β Op} (hinv : b.Inv init valid s₁) (hpast : s₁.Past s)
    (c : Nat)
    : ∃ k, b.released s₁.hist ≤ k ∧ k ≤ (b.commits s.hist).length ∧
        ∀ i, i < b.words → i ≠ b.lock → b.line i = c →
          s₁.mem (b.base + i) = snap init (b.commits s.hist) k i := by
  obtain ⟨k, hreleased, hk, hwords⟩ := hinv.line_snap c
  refine ⟨k, hreleased, Nat.le_trans hk (b.commits_length hpast.hist), ?_⟩
  intro i hi hne hline
  rw [hwords i hi hne hline, b.snap_commits init hpast.hist hk]

theorem Inv.mem_of_released (hinv : b.Inv init valid s)
    (h : b.released s.hist = (b.commits s.hist).length) {i : Nat} (hi : i < b.words)
    (hne : i ≠ b.lock) : s.mem (b.base + i) = b.latest init s.hist i := by
  rw [hinv.content i hi hne, b.content_of_progress (hinv.progress_eq h) hi]

/-- While the lock word is zero, all commits have been released. -/
theorem Inv.released_of_free (hinv : b.Inv init valid s)
    (hfree : s.mem (b.base + b.lock) = 0)
    : b.released s.hist = (b.commits s.hist).length := by
  exact (hinv.lock_free (hinv.not_holds hfree)).2

/-- The words of the first line are those of the newest state, released or not. -/
theorem Inv.mem_firstLine (hinv : b.Inv init valid s) {i : Nat} (hi : i < b.words)
    (hne : i ≠ b.lock) (hline : b.line i = b.firstLine)
    : s.mem (b.base + i) = b.latest init s.hist i := by
  have hpos := hinv.progress_pos
  have hlt : b.line i < b.firstLine + b.progress s.hist := by omega
  rw [hinv.content i hi hne]
  simp only [Block.content, hlt, ↓reduceIte]

theorem Inv.mem_frozen {s₁ s₂ s₃ : Shared W β Op} (hinv₁ : b.Inv init valid s₁)
    (hinv₂ : b.Inv init valid s₂) (h₁₂ : s₁.Past s₂) (h₂₃ : s₂.Past s₃)
    (hreleased : b.released s₁.hist = (b.commits s₁.hist).length)
    (hcommits : (b.commits s₃.hist).length = (b.commits s₁.hist).length) {i : Nat}
    (hi : i < b.words) (hne : i ≠ b.lock)
    : s₂.mem (b.base + i) = s₁.mem (b.base + i) := by
  have hle₁ := b.commits_length h₁₂.hist
  have hle₂ := b.commits_length h₂₃.hist
  have hle₃ := b.released_suffix h₁₂.hist
  have hle₄ := hinv₂.released_le
  rw [hinv₁.mem_of_released hreleased hi hne, hinv₂.mem_of_released (by omega) hi hne]
  unfold latest
  rw [show (b.commits s₂.hist).length = (b.commits s₁.hist).length by omega,
    b.snap_commits init h₁₂.hist (Nat.le_refl _)]

end Contents

end Block
end Rdma
