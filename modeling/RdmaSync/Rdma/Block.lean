import Mathlib.Algebra.BigOperators.Group.Finset.Piecewise
import Mathlib.Data.Fintype.Basic
import RdmaSync.Rdma.Rules

/-!
This module contains the abstract model of an exclusively locked block of remote memory. A writer
takes the lock with a compare-and-swap, replaces the whole block by one WRITE whose lines are placed
in increasing address order and gives the lock back, either with the last line of that WRITE or with
a fetch-and-add behind it. The states that writers commit are read off the history.
-/

namespace Rdma

variable {W κ β ε α Op : Type}

/-- A block of remote words one of which, the one at index `lock`, is a lock word. -/
structure Block where
  addr : Nat
  words : Nat
  lock : Nat
  /-- Whether the last line of the WRITE gives the lock back. -/
  tail : Bool
  addr_aligned : addr % 8 = 0
  lock_lt : lock < words
  lock_tail : tail = true → lock + 1 = words

structure Commit (W Op : Type) where
  worker : W
  op : Op
  words : Nat → Word

/-- The committed state number `k`; number zero is the initial one. -/
def snap (init : Nat → Word) (cs : List (Commit W Op)) (k : Nat) : Nat → Word :=
  match cs with
  | [] => init
  | c :: cs => if cs.length < k then c.words else snap init cs k

theorem snap_suffix {init : Nat → Word} {cs cs' : List (Commit W Op)} (h : cs <:+ cs') {k : Nat}
    (hk : k ≤ cs.length) : snap init cs' k = snap init cs k := by
  obtain ⟨ds, rfl⟩ := h
  induction ds with
  | nil => rfl
  | cons d ds ih =>
    have : ¬(ds ++ cs).length < k := by
      simp only [List.length_append]
      omega
    simp only [List.cons_append, snap, this, ↓reduceIte, ih]

@[simp]
theorem snap_cons_length (init : Nat → Word) (c : Commit W Op) (cs : List (Commit W Op))
    : snap init (c :: cs) (cs.length + 1) = c.words := by
  simp [snap]

theorem snap_cons_of_le (init : Nat → Word) (c : Commit W Op) {cs : List (Commit W Op)} {k : Nat}
    (hk : k ≤ cs.length) : snap init (c :: cs) k = snap init cs k := by
  exact snap_suffix (List.suffix_cons c cs) hk

/-- Every committed state follows from the one before by the operation that committed it. -/
def Chain (valid : Op → (Nat → Word) → (Nat → Word) → Prop) (init : Nat → Word)
    (cs : List (Commit W Op)) : Prop :=
  match cs with
  | [] => True
  | c :: cs => valid c.op (snap init cs cs.length) c.words ∧ Chain valid init cs

/-- What holds of the initial state and is preserved by commits holds of all committed states. -/
theorem Chain.snap_induction {valid : Op → (Nat → Word) → (Nat → Word) → Prop} {init : Nat → Word}
    {cs : List (Commit W Op)} (h : Chain valid init cs) {J : Nat → (Nat → Word) → Prop}
    (hinit : J 0 init)
    (hvalid : ∀ k op f g, J k f → valid op f g → J (k + 1) g) {k : Nat} (hk : k ≤ cs.length)
    : J k (snap init cs k) := by
  induction cs generalizing k with
  | nil =>
    obtain rfl : k = 0 := by simpa using hk
    exact hinit
  | cons c cs ih =>
    simp only [snap]
    split
    . next hlt =>
      obtain rfl : k = cs.length + 1 := by
        simp only [List.length_cons] at hk
        omega
      exact hvalid _ _ _ _ (ih h.2 (Nat.le_refl _)) h.1
    . next hlt => exact ih h.2 (by omega)

/-- A word that every commit increments counts the commits. -/
theorem Chain.counter {valid : Op → (Nat → Word) → (Nat → Word) → Prop} {init : Nat → Word}
    {cs : List (Commit W Op)} (h : Chain valid init cs) {i : Nat}
    (hvalid : ∀ op f g, valid op f g → g i = f i + 1) {k : Nat} (hk : k ≤ cs.length)
    : snap init cs k i = init i + BitVec.ofNat 64 k := by
  apply h.snap_induction (J := fun k f => f i = init i + BitVec.ofNat 64 k) _ _ hk
  . simp
  . intro k op f g hf hfg
    rw [hvalid op f g hfg, hf, BitVec.add_assoc, BitVec.ofNat_add]
    rfl

def own [DecidableEq W] (w : W) (cs : List (Commit W Op)) : List (Commit W Op) :=
  cs.filter fun c => c.worker = w

@[simp]
theorem own_nil [DecidableEq W] (w : W) : own w ([] : List (Commit W Op)) = [] := by
  rfl

theorem own_cons_self [DecidableEq W] (w : W) (op : Op) (f : Nat → Word) (cs : List (Commit W Op))
    : own w (⟨w, op, f⟩ :: cs) = ⟨w, op, f⟩ :: own w cs := by
  simp [own]

theorem own_cons_of_ne [DecidableEq W] {w : W} {c : Commit W Op} (h : c.worker ≠ w)
    (cs : List (Commit W Op)) : own w (c :: cs) = own w cs := by
  simp [own, h]

theorem sum_own [DecidableEq W] [Fintype W] (cs : List (Commit W Op)) (p : List Op → Nat)
    (hnil : p [] = 0) (hcons : ∀ op ops, p (op :: ops) = p [op] + p ops)
    : ∑ w, p ((own w cs).map (·.op)) = p (cs.map (·.op)) := by
  induction cs with
  | nil => simp [hnil]
  | cons c cs ih =>
    have hsplit : ∀ w, p ((own w (c :: cs)).map (·.op))
        = (if c.worker = w then p [c.op] else 0) + p ((own w cs).map (·.op)) := by
      intro w
      by_cases hw : c.worker = w
      . subst hw
        rw [own_cons_self c.worker c.op c.words cs, List.map_cons, hcons]
        simp
      . rw [own_cons_of_ne hw]
        simp [hw]
    rw [Finset.sum_congr rfl (fun w _ => hsplit w), Finset.sum_add_distrib, ih, Finset.sum_ite_eq,
      List.map_cons, hcons c.op (cs.map (·.op))]
    simp

namespace Block

variable (b : Block)

def base : Nat := b.addr / 8

def lockAddr : Nat := b.addr + 8 * b.lock

def line (i : Nat) : Nat := (b.base + i) / 8

def firstLine : Nat := b.line 0

def lastLine : Nat := b.line (b.words - 1)

def lines : Nat := b.lastLine - b.firstLine + 1

theorem lockAddr_aligned : b.lockAddr % 8 = 0 := by
  have := b.addr_aligned
  unfold lockAddr
  omega

theorem lockAddr_div : b.lockAddr / 8 = b.base + b.lock := by
  have := b.addr_aligned
  unfold lockAddr base
  omega

theorem line_le {i : Nat} (h : i < b.words) : b.line i ≤ b.lastLine := by
  unfold lastLine line
  omega

theorem firstLine_le (i : Nat) : b.firstLine ≤ b.line i := by
  unfold firstLine line
  omega

theorem firstLine_le_lastLine : b.firstLine ≤ b.lastLine := by
  exact b.firstLine_le _

theorem lines_pos : 0 < b.lines := by
  unfold lines
  omega

theorem firstLine_add_lines : b.firstLine + b.lines = b.lastLine + 1 := by
  have := b.firstLine_le_lastLine
  unfold lines
  omega

theorem linesOf_eq {bytes : Nat} (h : bytes / 8 = b.words)
    : linesOf b.addr bytes = List.range' b.firstLine b.lines := by
  have := b.lock_lt
  unfold linesOf firstLine lines lastLine firstLine line base
  rw [h]
  congr 1 <;> omega

section History

def acquires (m : Mem) (e : Event W β Op) : Bool :=
  match e.verb with
  | .compareSwap expected _ _ remoteOffset =>
    remoteOffset == b.lockAddr && load64 m remoteOffset == expected
  | _ => false

def places (e : Event W β Op) : Bool :=
  match e.verb with
  | .write _ remoteOffset _ => remoteOffset == b.addr
  | _ => false

def releases (e : Event W β Op) : Bool :=
  match e.verb with
  | .fetchAdd _ _ remoteOffset => !b.tail && remoteOffset == b.lockAddr
  | .write _ remoteOffset _ => b.tail && remoteOffset == b.addr && e.chunk == b.lastLine
  | _ => false

def holds [DecidableEq W] (w : W) (h : History W β Op) : Bool :=
  match h with
  | [] => false
  | (m, e) :: h =>
    if e.worker = w then
      b.acquires m e || (!b.releases e && holds w h)
    else
      holds w h

/-- The states that writers have begun to place, newest first. -/
def commits (h : History W β Op) : List (Commit W Op) :=
  match h with
  | [] => []
  | (_, e) :: h =>
    if b.places e && e.chunk == b.firstLine then
      ⟨e.worker, e.op, e.payload⟩ :: commits h
    else
      commits h

/-- How many lines of the newest state have been placed. -/
def progress (h : History W β Op) : Nat :=
  match h with
  | [] => b.lines
  | (_, e) :: h => if b.places e then e.chunk - b.firstLine + 1 else progress h

def released (h : History W β Op) : Nat :=
  match h with
  | [] => 0
  | (_, e) :: h => if b.releases e then released h + 1 else released h

def latest (init : Nat → Word) (h : History W β Op) : Nat → Word :=
  snap init (b.commits h) (b.commits h).length

/-- The contents of the block, a line at a time: the newest state or the one before. -/
def content (init : Nat → Word) (h : History W β Op) (i : Nat) : Word :=
  if b.line i < b.firstLine + b.progress h then
    b.latest init h i
  else
    snap init (b.commits h) ((b.commits h).length - 1) i

theorem commits_length_eq (h : History W β Op)
    : (b.commits h).length
        = (h.map Prod.snd).countP fun e => b.places e && e.chunk == b.firstLine := by
  induction h with
  | nil => rfl
  | cons x h ih =>
    rw [commits, List.map_cons, List.countP_cons, ← ih]
    split <;> simp

section Push

variable {m : Mem} {e : Event W β Op} {h : History W β Op}

theorem holds_cons [DecidableEq W] (w : W)
    : b.holds w ((m, e) :: h)
        = if e.worker = w then b.acquires m e || (!b.releases e && b.holds w h)
          else b.holds w h := by
  rfl

theorem holds_of_ne [DecidableEq W] {w : W} (hw : e.worker ≠ w)
    : b.holds w ((m, e) :: h) = b.holds w h := by
  simp [holds, hw]

theorem holds_of_neither [DecidableEq W] (w : W) (ha : b.acquires m e = false)
    (hr : b.releases e = false) : b.holds w ((m, e) :: h) = b.holds w h := by
  simp [holds, ha, hr]

theorem commits_of_not_places (hp : b.places e = false)
    : b.commits ((m, e) :: h) = b.commits h := by
  simp [commits, hp]

theorem progress_of_not_places (hp : b.places e = false)
    : b.progress ((m, e) :: h) = b.progress h := by
  simp [progress, hp]

theorem released_cons
    : b.released ((m, e) :: h)
        = if b.releases e then b.released h + 1 else b.released h := by
  rfl

theorem commits_suffix {h' : History W β Op} (hsuffix : h <:+ h')
    : b.commits h <:+ b.commits h' := by
  obtain ⟨es, rfl⟩ := hsuffix
  induction es with
  | nil => exact List.suffix_refl _
  | cons e es ih =>
    simp only [List.cons_append, commits]
    split
    . exact ih.trans (List.suffix_cons _ _)
    . exact ih

theorem released_suffix {h' : History W β Op} (hsuffix : h <:+ h')
    : b.released h ≤ b.released h' := by
  obtain ⟨es, rfl⟩ := hsuffix
  induction es with
  | nil => exact Nat.le_refl _
  | cons e es ih =>
    simp only [List.cons_append, released]
    split <;> omega

/-- Commits are only ever added: what is known about a committed state stays known. -/
theorem snap_commits {h' : History W β Op} (init : Nat → Word) (hsuffix : h <:+ h') {k : Nat}
    (hk : k ≤ (b.commits h).length)
    : snap init (b.commits h') k = snap init (b.commits h) k := by
  exact snap_suffix (b.commits_suffix hsuffix) hk

theorem commits_length {h' : History W β Op} (hsuffix : h <:+ h')
    : (b.commits h).length ≤ (b.commits h').length := by
  exact (b.commits_suffix hsuffix).length_le

theorem content_of_not_places (init : Nat → Word) (hp : b.places e = false)
    : b.content init ((m, e) :: h) = b.content init h := by
  funext i
  simp only [content, latest, b.commits_of_not_places hp, b.progress_of_not_places hp]

theorem content_of_progress {init : Nat → Word} (hp : b.progress h = b.lines) {i : Nat}
    (hi : i < b.words) : b.content init h i = b.latest init h i := by
  have hlt : b.line i < b.firstLine + b.progress h := by
    have := b.line_le hi
    rw [hp, firstLine_add_lines]
    omega
  simp [content, hlt]

theorem commits_of_begins (hp : b.places e = true)
    (hchunk : e.chunk = b.firstLine)
    : b.commits ((m, e) :: h) = ⟨e.worker, e.op, e.payload⟩ :: b.commits h := by
  simp [commits, hp, hchunk]

theorem commits_of_continues {p : Nat} (hpos : 0 < p)
    (hchunk : e.chunk = b.firstLine + p) : b.commits ((m, e) :: h) = b.commits h := by
  have hne : ¬(e.chunk = b.firstLine) := by omega
  simp [commits, hne]

theorem progress_of_places (hp : b.places e = true)
    : b.progress ((m, e) :: h) = e.chunk - b.firstLine + 1 := by
  simp [progress, hp]

end Push
end History
end Block
end Rdma
