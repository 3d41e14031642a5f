import Mathlib.Algebra.BigOperators.Group.Finset.Piecewise
import Mathlib.Algebra.BigOperators.Ring.Finset
import Mathlib.Algebra.Order.BigOperators.Group.Finset
import Mathlib.Data.BitVec
import RdmaSync.Rdma.Rules

/-!
This module contains memory that nobody writes, apart from some words that workers add to. What a worker
has added to a word is its tally there. Words that count readers are an example: a worker adds one to
such a word and subtracts it again.
-/

namespace Rdma

variable {W κ β ε α Op : Type}

structure Tallies where
  init : Mem
  /-- The words that workers may add to. -/
  counts : Nat → Prop
  /-- The tallies that a worker may have. -/
  may : Word → Prop
  may_zero : may 0

namespace Tallies

def added (e : Event W β Op) (j : Nat) : Word :=
  match e.verb with
  | .fetchAdd toAdd _ remoteOffset => if remoteOffset = 8 * j then toAdd else 0
  | _ => 0

/-- What the worker has added to each word. -/
def tally [DecidableEq W] (w : W) (h : History W β Op) (j : Nat) : Word :=
  match h with
  | [] => 0
  | (_, e) :: h => tally w h j + if e.worker = w then added e j else 0

theorem added_of_isRead {e : Event W β Op} (h : e.verb.isRead = true) (j : Nat)
    : added e j = 0 := by
  cases hv : e.verb with
  | read => simp only [added, hv]
  | _ => simp [Verb.isRead, hv] at h

variable [DecidableEq W]

inductive Permit (c : Tallies) (s : Shared W β Op) (e : Event W β Op) : Prop where
  | read (h : e.verb.isRead = true)
  | count {toAdd : Word} {memAddr : β × Nat} {j : Nat} (hverb : e.verb = .fetchAdd toAdd memAddr (8 * j))
    (hj : c.counts j) (hmay : c.may (tally e.worker s.hist j + toAdd))

/-- The words contain the tallies of all workers, and nothing else changes. -/
structure Inv [Fintype W] (c : Tallies) (s : Shared W β Op) : Prop where
  word : ∀ j, s.mem j = c.init j + ∑ w, tally w s.hist j
  may : ∀ w j, c.may (tally w s.hist j)
  away : ∀ w j, ¬c.counts j → tally w s.hist j = 0

variable {c : Tallies} {s : Shared W β Op} {e : Event W β Op} {w : W}

theorem tally_push (w : W) (j : Nat)
    : tally w (s.push e).hist j = tally w s.hist j + if e.worker = w then added e j else 0 := by
  rfl

theorem tally_of_ne (h : e.worker ≠ w) : tally w (s.push e).hist = tally w s.hist := by
  funext j
  rw [tally_push, if_neg h, add_zero]

theorem tally_of_isRead (h : e.verb.isRead = true) (w : W)
    : tally w (s.push e).hist = tally w s.hist := by
  funext j
  rw [tally_push, added_of_isRead h, ite_self, add_zero]

theorem Permit.mem_push (h : c.Permit s e) (j : Nat) : (s.push e).mem j = s.mem j + added e j := by
  cases h with
  | read hread => rw [Shared.push_mem_of_isRead hread, added_of_isRead hread, add_zero]
  | @count toAdd memAddr i hverb _ _ =>
    have haligned : 8 * i % 8 = 0 := Nat.mul_mod_right 8 i
    have hdiv : 8 * i / 8 = i := Nat.mul_div_cancel_left i (by decide)
    simp only [Shared.push_mem, hverb, Verb.place, added]
    rw [store64_aligned _ _ haligned, load64_aligned _ haligned, hdiv]
    by_cases hji : i = j
    . subst hji
      simp
    . rw [Function.update_of_ne (Ne.symm hji), if_neg (by omega), add_zero]

theorem Permit.added_eq_zero (h : c.Permit s e) {j : Nat} (hj : ¬c.counts j) : added e j = 0 := by
  cases h with
  | read hread => exact added_of_isRead hread j
  | @count toAdd memAddr i hverb hi _ =>
    simp only [added, hverb]
    rw [if_neg]
    intro heq
    have hij : i = j := by omega
    exact hj (hij ▸ hi)

theorem Permit.tally_self (h : c.Permit s e) (j : Nat) (hmay : c.may (tally e.worker s.hist j))
    : c.may (tally e.worker s.hist j + added e j) := by
  cases h with
  | read hread => rwa [added_of_isRead hread, add_zero]
  | @count toAdd memAddr i hverb _ hmay' =>
    simp only [added, hverb]
    split
    . next heq =>
      have hij : i = j := by omega
      rwa [← hij]
    . rwa [add_zero]

variable [Fintype W]

theorem Inv.push (hinv : c.Inv s) (h : c.Permit s e) : c.Inv (s.push e) := by
  constructor
  . intro j
    rw [h.mem_push, hinv.word, Finset.sum_congr rfl fun w _ => tally_push w j,
      Finset.sum_add_distrib, Finset.sum_ite_eq, if_pos (Finset.mem_univ _), add_assoc]
  . intro w j
    rw [tally_push]
    split
    . next heq =>
      subst heq
      exact h.tally_self j (hinv.may _ j)
    . rw [add_zero]
      exact hinv.may w j
  . intro w j hj
    rw [tally_push, hinv.away w j hj, h.added_eq_zero hj, ite_self, add_zero]

theorem inv_initial (hhist : s.hist = []) (hinit : s.mem = c.init) : c.Inv s := by
  constructor
  . intro j
    simp [hhist, hinit, tally]
  . intro w j
    rw [hhist]
    exact c.may_zero
  . intro w j _
    simp [hhist, tally]

/-- If tallies are at most one, a word grows by at most one for each worker. -/
theorem Inv.word_le (hinv : c.Inv s) (hone : ∀ x, c.may x → x = 0 ∨ x = 1) (j : Nat)
    : ∃ n ≤ Fintype.card W, s.mem j = c.init j + BitVec.ofNat 64 n := by
  refine ⟨(Finset.univ.filter fun w => tally w s.hist j = 1).card, ?_, ?_⟩
  . exact Finset.card_le_univ _
  . have hite (w : W) : tally w s.hist j = if tally w s.hist j = 1 then 1 else 0 := by
      rcases hone _ (hinv.may w j) with h | h
      . simp [h]
      . simp [h]
    rw [hinv.word, Finset.sum_congr rfl fun w _ => hite w, Finset.sum_boole]
    rfl

theorem Inv.mem_of_away (hinv : c.Inv s) {j : Nat} (hj : ¬c.counts j) : s.mem j = c.init j := by
  rw [hinv.word, Finset.sum_eq_zero fun w _ => hinv.away w j hj]
  exact add_zero _

theorem Inv.mem_of_rest (hinv : c.Inv s) (h : ∀ w, tally w s.hist = 0) : s.mem = c.init := by
  funext j
  rw [hinv.word, Finset.sum_eq_zero fun w _ => congrFun (h w) j]
  exact add_zero _

def protocol (c : Tallies) : Protocol W β Op where
  inv := c.Inv
  guard := fun _ _ => True
  permit := c.Permit
  inv_push := fun hinv _ hpermit => hinv.push hpermit

theorem tally_steady (c : Tallies) (w : W) (f : Nat → Word)
    : (c.protocol : Protocol W β Op).Steady w (fun s => tally w s.hist = f) := by
  intro s e _ _ _ hw h
  by_cases hworker : e.worker = w
  . rw [tally_of_isRead (hw hworker), h]
  . rw [tally_of_ne hworker, h]

section Rules

variable [DecidableEq β] {nic : Nic} {op : Op} {l : Local β} {f : Nat → Word}
  {Q : Except ε α → Assertion W β Op} {rctx : κ} {signaled : Bool} {next : Prog κ β ε α}
  {memAddr : β × Nat}

theorem wp_count {toAdd : Word} {remoteOffset j : Nat} (hoff : remoteOffset = 8 * j) (hj : c.counts j)
    (h : tally w s.hist = f) (hmay : c.may (f j + toAdd))
    (hnext : ∀ s' s₁ : Shared W β Op, c.Inv s' →
      tally w s'.hist = Function.update f j (f j + toAdd) → c.Inv s₁ →
      wp c.protocol nic w op Q next (l.set memAddr (s₁.mem j)) s')
    : wp c.protocol nic w op Q (.post rctx signaled (.fetchAdd toAdd memAddr remoteOffset) next) l s := by
  subst hoff
  apply wp_fetchAdd
  rintro s' e hr hinv _ rfl
  have htally := (c.tally_steady w f).rely hr h
  have hpermit : c.Permit s' ⟨w, op, .fetchAdd toAdd memAddr (8 * j), fun _ => 0, 0⟩ := by
    apply Permit.count rfl hj
    rwa [htally]
  have hadded : tally w (s'.push ⟨w, op, .fetchAdd toAdd memAddr (8 * j), fun _ => 0, 0⟩).hist
      = Function.update f j (f j + toAdd) := by
    funext i
    rw [tally_push, if_pos rfl, htally]
    simp only [added]
    by_cases hij : i = j
    . subst hij
      simp
    . rw [Function.update_of_ne hij, if_neg (by omega), add_zero]
  have hload : load64 s'.mem (8 * j) = s'.mem j := by
    rw [load64_aligned _ (Nat.mul_mod_right 8 j), Nat.mul_div_cancel_left j (by decide)]
  rw [hload]
  exact ⟨hpermit, hnext _ _ (hinv.push hpermit) hadded hinv⟩

theorem wp_words {remoteOffset bytes : Nat} (hinv : c.Inv s) (h : tally w s.hist = f)
    (hnext : ∀ l' s', c.Inv s' → tally w s'.hist = f →
      (∀ i, i < bytes / 8 → ¬c.counts (remoteOffset / 8 + i) →
        l' memAddr.1 (memAddr.2 + i) = c.init (remoteOffset / 8 + i)) →
      (∀ b i, ¬(Verb.read memAddr remoteOffset bytes).lands (b, i) → l' b i = l b i) →
      wp c.protocol nic w op Q next l' s')
    : wp c.protocol nic w op Q (.post rctx signaled (.read memAddr remoteOffset bytes) next) l s := by
  apply wp_read_each (fun s => tally w s.hist = f) hinv h (c.tally_steady w f)
  . intro s' e _ _ _ _ hv
    exact .read (by rw [hv]; rfl)
  . intro l' s' hinv' htally _ hfetched hframe
    apply hnext l' s' hinv' htally _ hframe
    intro i hi haway
    obtain ⟨s₁, hs₁, hword⟩ := hfetched i hi
    have hinv₁ : c.Inv s₁ := hs₁.inv
    rw [hword, hinv₁.mem_of_away haway]

end Rules

end Tallies
end Rdma
