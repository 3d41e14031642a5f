import Mathlib.Algebra.Order.BigOperators.Group.Finset
import RdmaSync.Rdma.Block

/-!
This module contains the abstract model of a lock that one writer holds or many readers share. How a
lock word encodes it is left to the instances; here an event is only known by how it moves the lock.
-/

namespace Rdma

variable {W κ β ε α Op : Type}

/-- How an event moves the lock, on behalf of the worker that caused it. -/
inductive LockMove where
  | idle
  | acquire
  | release
  | join
  | leave
  deriving DecidableEq

structure RwLock (W β Op : Type) where
  first : Nat
  count : Nat
  move : Mem → Event W β Op → LockMove
  move_read : ∀ m e, e.verb.isRead = true → move m e = .idle

namespace RwLock

section History

variable (L : RwLock W β Op)

def data (m : Mem) (i : Nat) : Word := m (L.first + i)

def holds [DecidableEq W] (w : W) (h : History W β Op) : Bool :=
  match h with
  | [] => false
  | (m, e) :: h =>
    if e.worker = w then
      match L.move m e with
      | .acquire => true
      | .release => false
      | _ => holds w h
    else
      holds w h

def share [DecidableEq W] (w : W) (h : History W β Op) : Nat :=
  match h with
  | [] => 0
  | (m, e) :: h =>
    if e.worker = w then
      match L.move m e with
      | .join => share w h + 1
      | .leave => share w h - 1
      | _ => share w h
    else
      share w h

def commits (h : History W β Op) : List (Commit W Op) :=
  match h with
  | [] => []
  | (m, e) :: h =>
    if L.move m e = .release then
      ⟨e.worker, e.op, L.data (e.verb.place e.payload e.chunk m)⟩ :: commits h
    else
      commits h

def latest (init : Nat → Word) (h : History W β Op) : Nat → Word :=
  snap init (L.commits h) (L.commits h).length

def Free [DecidableEq W] (h : History W β Op) : Prop :=
  ∀ w, L.holds w h = false

instance [DecidableEq W] [Fintype W] (h : History W β Op) : Decidable (L.Free h) :=
  inferInstanceAs (Decidable (∀ w, L.holds w h = false))

end History

variable {L : RwLock W β Op} {s : Shared W β Op} {e : Event W β Op} {w : W}

section Push

theorem commits_of_move (h : L.move s.mem e ≠ .release)
    : L.commits (s.push e).hist = L.commits s.hist := by
  rw [Shared.push_hist, commits, if_neg h]

theorem commits_release (h : L.move s.mem e = .release)
    : L.commits (s.push e).hist = ⟨e.worker, e.op, L.data (s.push e).mem⟩ :: L.commits s.hist := by
  rw [Shared.push_hist, commits, if_pos h]
  rfl

variable [DecidableEq W]

theorem holds_of_ne (h : e.worker ≠ w) : L.holds w (s.push e).hist = L.holds w s.hist := by
  simp [holds, h]

theorem share_of_ne (h : e.worker ≠ w) : L.share w (s.push e).hist = L.share w s.hist := by
  simp [share, h]

theorem holds_of_move (h : L.move s.mem e ≠ .acquire) (h' : L.move s.mem e ≠ .release)
    : L.holds w (s.push e).hist = L.holds w s.hist := by
  rw [Shared.push_hist, holds]
  split
  . split
    . next hm => exact absurd hm h
    . next hm => exact absurd hm h'
    . rfl
  . rfl

theorem share_of_move (h : L.move s.mem e ≠ .join) (h' : L.move s.mem e ≠ .leave)
    : L.share w (s.push e).hist = L.share w s.hist := by
  rw [Shared.push_hist, share]
  split
  . split
    . next hm => exact absurd hm h
    . next hm => exact absurd hm h'
    . rfl
  . rfl

theorem holds_acquire (h : L.move s.mem e = .acquire)
    : L.holds w (s.push e).hist = if e.worker = w then true else L.holds w s.hist := by
  simp only [Shared.push_hist, holds, h]

theorem holds_release (h : L.move s.mem e = .release)
    : L.holds w (s.push e).hist = if e.worker = w then false else L.holds w s.hist := by
  simp only [Shared.push_hist, holds, h]

theorem share_join (h : L.move s.mem e = .join)
    : L.share w (s.push e).hist = L.share w s.hist + if e.worker = w then 1 else 0 := by
  simp only [Shared.push_hist, share, h]
  split <;> rfl

theorem share_leave (h : L.move s.mem e = .leave)
    : L.share w (s.push e).hist = L.share w s.hist - if e.worker = w then 1 else 0 := by
  simp only [Shared.push_hist, share, h]
  split <;> rfl

theorem sum_share_join [Fintype W] (h : L.move s.mem e = .join)
    : ∑ w, L.share w (s.push e).hist = ∑ w, L.share w s.hist + 1 := by
  have hshare : ∀ w, L.share w (s.push e).hist
      = L.share w s.hist + if e.worker = w then 1 else 0 := by
    intro w
    exact share_join h
  rw [Finset.sum_congr rfl (fun w _ => hshare w), Finset.sum_add_distrib, Finset.sum_ite_eq]
  simp

theorem sum_share_leave [Fintype W] (h : L.move s.mem e = .leave) (hshare : L.share e.worker s.hist = 1)
    : ∑ w, L.share w s.hist = ∑ w, L.share w (s.push e).hist + 1 := by
  have hsplit : ∀ w, L.share w s.hist
      = L.share w (s.push e).hist + if e.worker = w then 1 else 0 := by
    intro w
    rw [share_leave h]
    split
    . next heq =>
      rw [← heq, hshare]
    . rfl
  rw [Finset.sum_congr rfl (fun w _ => hsplit w), Finset.sum_add_distrib, Finset.sum_ite_eq]
  simp

end Push

variable [DecidableEq W]

variable (L) (init : Nat → Word) (valid : Op → (Nat → Word) → (Nat → Word) → Prop)

def KeepsData (L : RwLock W β Op) (s : Shared W β Op) (e : Event W β Op) : Prop :=
  ∀ i, i < L.count → (s.push e).mem (L.first + i) = s.mem (L.first + i)

/-- The event keeps the rules of the lock. -/
inductive Permits (s : Shared W β Op) (e : Event W β Op) : Prop where
  | idle (hmove : L.move s.mem e = .idle)
    (hdata : L.holds e.worker s.hist = false → L.KeepsData s e)
  | acquire (hmove : L.move s.mem e = .acquire) (hfree : L.Free s.hist)
    (hshare : ∀ w, L.share w s.hist = 0) (hdata : L.KeepsData s e)
  | join (hmove : L.move s.mem e = .join) (hshare : L.share e.worker s.hist = 0)
    (hdata : L.KeepsData s e)
  | leave (hmove : L.move s.mem e = .leave) (hshare : L.share e.worker s.hist = 1)
    (hdata : L.KeepsData s e)
  | release (hmove : L.move s.mem e = .release) (hholds : L.holds e.worker s.hist = true)
    (hvalid : valid e.op (L.latest init s.hist) (L.data (s.push e).mem))

structure Inv (s : Shared W β Op) : Prop where
  holds_unique : ∀ {w w'}, L.holds w s.hist = true → L.holds w' s.hist = true → w = w'
  share_le : ∀ w, L.share w s.hist ≤ 1
  data : L.Free s.hist → ∀ i, i < L.count → s.mem (L.first + i) = L.latest init s.hist i
  chain : Chain valid init (L.commits s.hist)

variable {L init valid}

theorem Inv.sum_share_le [Fintype W] (hinv : L.Inv init valid s)
    : ∑ w, L.share w s.hist ≤ Fintype.card W := by
  have hle := Finset.sum_le_card_nsmul Finset.univ (fun w => L.share w s.hist) 1
    fun w _ => hinv.share_le w
  rwa [Nat.nsmul_eq_mul, Nat.mul_one] at hle

theorem inv_initial (hhist : s.hist = []) : L.Inv (L.data s.mem) valid s := by
  constructor <;> simp only [hhist]
  . intro w w' h
    simp [holds] at h
  . intro w
    simp [share]
  . intro _ i _
    rfl
  . trivial

theorem Inv.not_holds (hinv : L.Inv init valid s) (h : L.holds w s.hist = true) {w' : W}
    (hne : w' ≠ w) : L.holds w' s.hist = false := by
  rw [← Bool.not_eq_true]
  intro h'
  exact hne (hinv.holds_unique h' h)

theorem Inv.push_of_move (hinv : L.Inv init valid s) (ha : L.move s.mem e ≠ .acquire)
    (hr : L.move s.mem e ≠ .release) (hshare : ∀ w, L.share w (s.push e).hist ≤ 1)
    (hdata : L.holds e.worker s.hist = false → L.KeepsData s e)
    : L.Inv init valid (s.push e) := by
  refine ⟨?_, hshare, ?_, by rw [commits_of_move hr]; exact hinv.chain⟩
  . intro w w' hw hw'
    rw [holds_of_move ha hr] at hw hw'
    exact hinv.holds_unique hw hw'
  . intro hfree i hi
    have hfree' : L.Free s.hist := by
      intro w
      rw [← holds_of_move ha hr]
      exact hfree w
    rw [hdata (hfree' _) i hi, hinv.data hfree' i hi, latest, latest, commits_of_move hr]

theorem Inv.push (hinv : L.Inv init valid s) (hpermits : L.Permits init valid s e)
    : L.Inv init valid (s.push e) := by
  cases hpermits with
  | idle hmove hdata =>
    apply hinv.push_of_move (by simp [hmove]) (by simp [hmove]) _ hdata
    intro w
    rw [share_of_move (by simp [hmove]) (by simp [hmove])]
    exact hinv.share_le w
  | join hmove hshare hdata =>
    apply hinv.push_of_move (by simp [hmove]) (by simp [hmove]) _ (fun _ => hdata)
    intro w
    have := hinv.share_le w
    rw [share_join hmove]
    split
    . next h =>
      rw [← h]
      omega
    . exact this
  | leave hmove hshare hdata =>
    apply hinv.push_of_move (by simp [hmove]) (by simp [hmove]) _ (fun _ => hdata)
    intro w
    have := hinv.share_le w
    rw [share_leave hmove]
    omega
  | acquire hmove hfree hshare hdata =>
    constructor
    . intro w w' hw hw'
      rw [holds_acquire hmove, hfree] at hw hw'
      have hw : e.worker = w := by simpa using hw
      have hw' : e.worker = w' := by simpa using hw'
      rw [← hw, ← hw']
    . intro w
      rw [share_of_move (by simp [hmove]) (by simp [hmove])]
      exact hinv.share_le w
    . intro hfree'
      have := hfree' e.worker
      rw [holds_acquire hmove, if_pos rfl] at this
      simp at this
    . rw [commits_of_move (by simp [hmove])]
      exact hinv.chain
  | release hmove hholds hvalid =>
    constructor
    . intro w w' hw hw'
      rw [holds_release hmove] at hw hw'
      split at hw
      . simp at hw
      . split at hw'
        . simp at hw'
        . exact hinv.holds_unique hw hw'
    . intro w
      rw [share_of_move (by simp [hmove]) (by simp [hmove])]
      exact hinv.share_le w
    . intro _ i _
      rw [latest, commits_release hmove, List.length_cons, snap_cons_length]
      rfl
    . rw [commits_release hmove]
      exact ⟨hvalid, hinv.chain⟩

/-- The event leaves alone who holds the lock and what it protects. -/
structure Still (L : RwLock W β Op) (s : Shared W β Op) (e : Event W β Op) : Prop where
  holds : ∀ w, L.holds w (s.push e).hist = L.holds w s.hist
  commits : L.commits (s.push e).hist = L.commits s.hist
  data : L.KeepsData s e

theorem still_of_move (ha : L.move s.mem e ≠ .acquire) (hr : L.move s.mem e ≠ .release)
    (hdata : L.KeepsData s e) : L.Still s e := by
  exact ⟨fun w => holds_of_move ha hr, commits_of_move hr, hdata⟩

theorem still_of_isRead (h : e.verb.isRead = true) : L.Still s e := by
  have hmove := L.move_read s.mem e h
  apply still_of_move (by simp [hmove]) (by simp [hmove])
  intro i _
  rw [Shared.push_mem_of_isRead h]

/-- While a worker holds the lock, no other worker does anything to what it protects. -/
theorem still_of_holds (hinv : L.Inv init valid s) (hpermits : L.Permits init valid s e)
    (hw : e.worker = w → e.verb.isRead = true) (h : L.holds w s.hist = true) : L.Still s e := by
  by_cases heq : e.worker = w
  . exact still_of_isRead (hw heq)
  . have hnot := hinv.not_holds h heq
    cases hpermits with
    | idle hmove hdata => exact still_of_move (by simp [hmove]) (by simp [hmove]) (hdata hnot)
    | join hmove _ hdata => exact still_of_move (by simp [hmove]) (by simp [hmove]) hdata
    | leave hmove _ hdata => exact still_of_move (by simp [hmove]) (by simp [hmove]) hdata
    | acquire hmove hfree =>
      rw [hfree w] at h
      simp at h
    | release hmove hholds =>
      rw [hnot] at hholds
      simp at hholds

/-- While somebody shares a lock that nobody holds, nobody acquires it. -/
theorem still_of_share (hpermits : L.Permits init valid s e) (hfree : L.Free s.hist)
    (h : L.share w s.hist ≠ 0) : L.Still s e := by
  cases hpermits with
  | idle hmove hdata => exact still_of_move (by simp [hmove]) (by simp [hmove]) (hdata (hfree _))
  | join hmove _ hdata => exact still_of_move (by simp [hmove]) (by simp [hmove]) hdata
  | leave hmove _ hdata => exact still_of_move (by simp [hmove]) (by simp [hmove]) hdata
  | acquire hmove _ hshare => exact absurd (hshare w) h
  | release hmove hholds =>
    rw [hfree _] at hholds
    simp at hholds

section Assertions

/-- A worker that neither holds nor shares the lock; `mine` are its commits. -/
structure Resting (L : RwLock W β Op) (w : W) (mine : List (Commit W Op)) (s : Shared W β Op)
    : Prop where
  holds : L.holds w s.hist = false
  share : L.share w s.hist = 0
  own : own w (L.commits s.hist) = mine

structure Sharing (L : RwLock W β Op) (w : W) (mine : List (Commit W Op)) (s : Shared W β Op)
    : Prop where
  holds : L.holds w s.hist = false
  share : L.share w s.hist = 1
  own : own w (L.commits s.hist) = mine

/-- Nobody holds the lock, and it has been released with `cs`. -/
structure Settled (L : RwLock W β Op) (cs : List (Commit W Op)) (s : Shared W β Op) : Prop where
  free : L.Free s.hist
  commits : L.commits s.hist = cs

structure Holding (L : RwLock W β Op) (w : W) (mine cs : List (Commit W Op)) (f : Nat → Word)
    (s : Shared W β Op) : Prop where
  holds : L.holds w s.hist = true
  share : L.share w s.hist = 0
  own : own w (L.commits s.hist) = mine
  commits : L.commits s.hist = cs
  data : ∀ i, i < L.count → s.mem (L.first + i) = f i

structure Governs (L : RwLock W β Op) (init : Nat → Word)
    (valid : Op → (Nat → Word) → (Nat → Word) → Prop) (P : Protocol W β Op) : Prop where
  inv : ∀ {s}, P.inv s → L.Inv init valid s
  permits : ∀ {s e}, P.inv s → P.guard s e → P.permit s e → L.Permits init valid s e

variable {P : Protocol W β Op} {mine cs : List (Commit W Op)} {f : Nat → Word}

theorem own_of_ne (hne : e.worker ≠ w)
    : own w (L.commits (s.push e).hist) = own w (L.commits s.hist) := by
  by_cases hr : L.move s.mem e = .release
  . rw [commits_release hr, own_cons_of_ne hne]
  . rw [commits_of_move hr]

theorem resting_initial (hhist : s.hist = []) (w : W) : L.Resting w [] s := by
  constructor <;> rw [hhist] <;> rfl

theorem free_of_resting (h : ∀ w, ∃ mine, L.Resting w mine s) : L.Free s.hist := by
  intro w
  obtain ⟨mine, hrests⟩ := h w
  exact hrests.holds

theorem sum_share_of_resting [Fintype W] (h : ∀ w, ∃ mine, L.Resting w mine s)
    : ∑ w, L.share w s.hist = 0 := by
  apply Finset.sum_eq_zero
  intro w _
  obtain ⟨mine, hrests⟩ := h w
  exact hrests.share

theorem commits_length_of_resting [Fintype W] {n : W → Nat}
    (h : ∀ w, ∃ mine, L.Resting w mine s ∧ mine.length = n w)
    : (L.commits s.hist).length = ∑ w, n w := by
  have hsum := sum_own (L.commits s.hist) List.length rfl (by simp [Nat.add_comm])
  simp only [List.length_map] at hsum
  rw [← hsum]
  apply Finset.sum_congr rfl
  intro w _
  obtain ⟨mine, hrests, hlen⟩ := h w
  rw [hrests.own, hlen]

/-- Nothing changes for a worker when another one moves the lock, or when it only reads. -/
theorem same_of_others (hw : e.worker = w → e.verb.isRead = true)
    : L.holds w (s.push e).hist = L.holds w s.hist ∧ L.share w (s.push e).hist = L.share w s.hist ∧
      own w (L.commits (s.push e).hist) = own w (L.commits s.hist) := by
  by_cases heq : e.worker = w
  . have hmove := L.move_read s.mem e (hw heq)
    refine ⟨?_, ?_, ?_⟩
    . exact holds_of_move (by simp [hmove]) (by simp [hmove])
    . exact share_of_move (by simp [hmove]) (by simp [hmove])
    . rw [commits_of_move (by simp [hmove])]
  . exact ⟨holds_of_ne heq, share_of_ne heq, own_of_ne heq⟩

theorem resting_steady (w : W) (mine : List (Commit W Op)) : P.Steady w (L.Resting w mine) := by
  intro s e _ _ _ hw h
  obtain ⟨h₁, h₂, h₃⟩ := same_of_others hw
  exact ⟨by rw [h₁, h.holds], by rw [h₂, h.share], by rw [h₃, h.own]⟩

theorem sharing_steady (w : W) (mine : List (Commit W Op)) : P.Steady w (L.Sharing w mine) := by
  intro s e _ _ _ hw h
  obtain ⟨h₁, h₂, h₃⟩ := same_of_others hw
  exact ⟨by rw [h₁, h.holds], by rw [h₂, h.share], by rw [h₃, h.own]⟩

theorem holding_steady (hL : L.Governs init valid P) (w : W) (mine cs : List (Commit W Op))
    (f : Nat → Word) : P.Steady w (L.Holding w mine cs f) := by
  intro s e hinv hguard hpermit hw h
  obtain ⟨_, h₂, h₃⟩ := same_of_others hw
  have hstill := still_of_holds (hL.inv hinv) (hL.permits hinv hguard hpermit) hw h.holds
  refine ⟨by rw [hstill.holds, h.holds], by rw [h₂, h.share], by rw [h₃, h.own],
    by rw [hstill.commits, h.commits], ?_⟩
  intro i hi
  rw [hstill.data i hi, h.data i hi]

theorem Resting.push_idle (h : L.Resting w mine s) (hmove : L.move s.mem e = .idle)
    : L.Resting w mine (s.push e) := by
  constructor
  . rw [holds_of_move (by simp [hmove]) (by simp [hmove]), h.holds]
  . rw [share_of_move (by simp [hmove]) (by simp [hmove]), h.share]
  . rw [commits_of_move (by simp [hmove]), h.own]

theorem Resting.push_acquire (h : L.Resting w mine s) (hw : e.worker = w)
    (hmove : L.move s.mem e = .acquire) (hfree : L.Free s.hist) (hdata : L.KeepsData s e)
    (hinv : L.Inv init valid s)
    : L.Holding w mine (L.commits s.hist) (L.latest init s.hist) (s.push e) := by
  constructor
  . rw [holds_acquire hmove, if_pos hw]
  . rw [share_of_move (by simp [hmove]) (by simp [hmove]), h.share]
  . rw [commits_of_move (by simp [hmove]), h.own]
  . rw [commits_of_move (by simp [hmove])]
  . intro i hi
    rw [hdata i hi, hinv.data hfree i hi]

theorem Resting.push_join (h : L.Resting w mine s) (hw : e.worker = w)
    (hmove : L.move s.mem e = .join) : L.Sharing w mine (s.push e) := by
  constructor
  . rw [holds_of_move (by simp [hmove]) (by simp [hmove]), h.holds]
  . rw [share_join hmove, if_pos hw, h.share]
  . rw [commits_of_move (by simp [hmove]), h.own]

theorem Settled.push_join (h : L.Settled cs s) (hmove : L.move s.mem e = .join)
    : L.Settled cs (s.push e) := by
  constructor
  . intro w
    rw [holds_of_move (by simp [hmove]) (by simp [hmove]), h.free]
  . rw [commits_of_move (by simp [hmove]), h.commits]

theorem Sharing.push_leave (h : L.Sharing w mine s) (hw : e.worker = w)
    (hmove : L.move s.mem e = .leave) : L.Resting w mine (s.push e) := by
  constructor
  . rw [holds_of_move (by simp [hmove]) (by simp [hmove]), h.holds]
  . rw [share_leave hmove, if_pos hw, h.share]
  . rw [commits_of_move (by simp [hmove]), h.own]

theorem Holding.push_release (h : L.Holding w mine cs f s) (hw : e.worker = w)
    (hmove : L.move s.mem e = .release)
    : L.Resting w (⟨w, e.op, L.data (s.push e).mem⟩ :: mine) (s.push e) := by
  constructor
  . rw [holds_release hmove, if_pos hw]
  . rw [share_of_move (by simp [hmove]) (by simp [hmove]), h.share]
  . rw [commits_release hmove, hw, own_cons_self, h.own]

theorem Holding.push_idle {g : Nat → Word} (h : L.Holding w mine cs f s)
    (hmove : L.move s.mem e = .idle)
    (hdata : ∀ i, i < L.count → (s.push e).mem (L.first + i) = g i)
    : L.Holding w mine cs g (s.push e) := by
  refine ⟨?_, ?_, ?_, ?_, hdata⟩
  . rw [holds_of_move (by simp [hmove]) (by simp [hmove]), h.holds]
  . rw [share_of_move (by simp [hmove]) (by simp [hmove]), h.share]
  . rw [commits_of_move (by simp [hmove]), h.own]
  . rw [commits_of_move (by simp [hmove]), h.commits]

theorem settled_steady (hL : L.Governs init valid P) (w : W) (mine cs : List (Commit W Op))
    : P.Steady w (fun s => L.Sharing w mine s ∧ L.Settled cs s) := by
  rintro s e hinv hguard hpermit hw ⟨h, hfree, hcommits⟩
  have hstill := still_of_share (hL.permits hinv hguard hpermit) hfree (w := w) (by simp [h.share])
  refine ⟨sharing_steady w mine hinv hguard hpermit hw h, ?_, by rw [hstill.commits, hcommits]⟩
  intro w'
  rw [hstill.holds, hfree w']

/--
Since the history had `since` entries: once nobody held the lock, nobody has acquired it and what it
protects has not changed.
-/
def OnceFree (L : RwLock W β Op) (since : Nat) (s : Shared W β Op) : Prop :=
  ∀ s₁ : Shared W β Op, s₁.Past s → since ≤ s₁.hist.length → L.Free s₁.hist →
    L.Free s.hist ∧ ∀ i, i < L.count → s₁.mem (L.first + i) = s.mem (L.first + i)

theorem onceFree_self (L : RwLock W β Op) (s : Shared W β Op) : L.OnceFree s.hist.length s := by
  intro s₁ hpast hlen hfree
  rcases hpast with rfl | ⟨e, h⟩
  . exact ⟨hfree, fun _ _ => rfl⟩
  . have := h.length_le
    simp only [List.length_cons] at this
    omega

/-- While a worker shares the lock, it stays free as soon as it is free once. -/
theorem onceFree_steady (hL : L.Governs init valid P) (w : W) (mine : List (Commit W Op))
    (since : Nat) : P.Steady w (fun s => L.Sharing w mine s ∧ L.OnceFree since s) := by
  rintro s e hinv hguard hpermit hw ⟨h, honce⟩
  refine ⟨sharing_steady w mine hinv hguard hpermit hw h, ?_⟩
  intro s₁ hpast hlen hfree
  rcases hpast.of_push with rfl | hpast
  . exact ⟨hfree, fun _ _ => rfl⟩
  . obtain ⟨hfree', hdata⟩ := honce s₁ hpast hlen hfree
    have hstill := still_of_share (hL.permits hinv hguard hpermit) hfree' (w := w)
      (by simp [h.share])
    refine ⟨fun w' => by rw [hstill.holds, hfree' w'], ?_⟩
    intro i hi
    rw [hdata i hi, hstill.data i hi]

theorem Settled.mem (h : L.Settled cs s) (hinv : L.Inv init valid s) {i : Nat} (hi : i < L.count)
    : s.mem (L.first + i) = snap init cs cs.length i := by
  rw [hinv.data h.free i hi, latest, h.commits]

end Assertions

end RwLock
end Rdma
