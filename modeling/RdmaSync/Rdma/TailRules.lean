import RdmaSync.Rdma.TailLock

/-!
This module contains the proof rules for programs that use a reader/writer lock behind its words.
-/

namespace Rdma

variable {W κ β ε α Op : Type}

namespace TailLock

variable [DecidableEq W] [Fintype W] [DecidableEq β] {c : TailLock} {init : Nat → Word}
  {valid : Op → (Nat → Word) → (Nat → Word) → Prop} {guard : Shared W β Op → Event W β Op → Prop}
  {hcard : Fintype.card W < 2 ^ 62} {nic : Nic} {w : W} {op : Op} {l : Local β}
  {s : Shared W β Op} {mine cs : List (Commit W Op)} {f : Nat → Word}
  {Q : Except ε α → Assertion W β Op} {rctx : κ} {signaled : Bool} {next : Prog κ β ε α}
  {memAddr : β × Nat}

theorem wp_acquire (h : c.lock.Resting w mine s)
    (hnext : ∀ s' x, c.Inv init valid s' →
      (x = 0 ∧ (∃ cs, c.lock.Holding w mine cs (snap init cs cs.length) s') ∨
        x ≠ 0 ∧ c.lock.Resting w mine s') →
      wp (c.protocol init valid guard hcard) nic w op Q next (l.set memAddr x) s')
    : wp (c.protocol init valid guard hcard) nic w op Q
        (.post rctx signaled (.compareSwap 0 1 memAddr c.lockAddr) next) l s := by
  apply wp_compareSwap
  rintro s' e hr hinv _ rfl
  have hpermit : c.Permit init valid s'
      ⟨w, op, .compareSwap 0 1 memAddr c.lockAddr, fun _ => 0, 0⟩ := by
    exact .inr ⟨rfl, rfl, rfl⟩
  have hrests := (RwLock.resting_steady w mine).rely hr h
  refine ⟨hpermit, hnext _ _ (hinv.push hcard hpermit) ?_⟩
  rw [load_lockAddr]
  by_cases hzero : s'.mem c.lockIdx = 0
  . obtain ⟨hfree, _⟩ := free_of_zero hinv hcard hzero
    refine .inl ⟨hzero, _, hrests.push_acquire rfl ?_ hfree
      (keepsData_of_update (v := 1) ?_) hinv.toInv⟩
    . simp only [lock_move, move, load_lockAddr, hzero, and_self, ↓reduceIte]
    . simp only [Shared.push_mem, Verb.place, load_lockAddr, hzero, ↓reduceIte, store_lockAddr]
  . refine .inr ⟨hzero, hrests.push_idle ?_⟩
    simp only [lock_move, move, load_lockAddr, hzero, and_false, ↓reduceIte]

/-- Try to join the readers. The old word says whether this succeeded. -/
theorem wp_join (h : c.lock.Resting w mine s)
    (hnext : ∀ s' x, c.Inv init valid s' →
      (isOdd x = false ∧ c.lock.Sharing w mine s' ∧ (∃ cs, c.lock.Settled cs s') ∨
        isOdd x = true ∧ c.lock.Resting w mine s') →
      wp (c.protocol init valid guard hcard) nic w op Q next (l.set memAddr x) s')
    : wp (c.protocol init valid guard hcard) nic w op Q
        (.post rctx signaled (.fetchAdd 2 memAddr c.lockAddr) next) l s := by
  apply wp_fetchAdd
  rintro s' e hr hinv _ rfl
  have hrests := (RwLock.resting_steady w mine).rely hr h
  have hpermit : c.Permit init valid s' ⟨w, op, .fetchAdd 2 memAddr c.lockAddr, fun _ => 0, 0⟩ := by
    exact .inr ⟨rfl, .inl ⟨rfl, hrests.share⟩⟩
  refine ⟨hpermit, hnext _ _ (hinv.push hcard hpermit) ?_⟩
  rw [load_lockAddr]
  cases hodd : isOdd (s'.mem c.lockIdx) with
  | false =>
    have hmove : (c.lock : RwLock W β Op).move s'.mem
        ⟨w, op, .fetchAdd 2 memAddr c.lockAddr, fun _ => 0, 0⟩ = .join := by
      simp only [lock_move, move, load_lockAddr, hodd, Bool.false_eq_true, ↓reduceIte]
    exact .inl ⟨rfl, hrests.push_join rfl hmove, _,
      RwLock.Settled.push_join ⟨free_of_even hinv hodd, rfl⟩ hmove⟩
  | true =>
    refine .inr ⟨rfl, hrests.push_idle ?_⟩
    simp only [lock_move, move, load_lockAddr, hodd, ↓reduceIte]

theorem wp_leave (h : c.lock.Sharing w mine s)
    (hnext : ∀ s' x, c.Inv init valid s' → c.lock.Resting w mine s' →
      wp (c.protocol init valid guard hcard) nic w op Q next (l.set memAddr x) s')
    : wp (c.protocol init valid guard hcard) nic w op Q
        (.post rctx signaled (.fetchAdd (-2) memAddr c.lockAddr) next) l s := by
  apply wp_fetchAdd
  rintro s' e hr hinv _ rfl
  have hshares := (RwLock.sharing_steady w mine).rely hr h
  have hpermit : c.Permit init valid s' ⟨w, op, .fetchAdd (-2) memAddr c.lockAddr, fun _ => 0, 0⟩ := by
    exact .inr ⟨rfl, .inr ⟨rfl, hshares.share⟩⟩
  refine ⟨hpermit, hnext _ _ (hinv.push hcard hpermit) (hshares.push_leave rfl ?_)⟩
  simp only [lock_move, move, neg_two_ne_two, ↓reduceIte]

theorem wp_away {p : Prog κ β ε α} {V : Verb β → Prop} (hp : p.Posts V)
    (hV : ∀ s e, guard s e → V e.verb → c.Away e.verb) (hinv : c.Inv init valid s)
    (h : c.lock.Resting w mine s)
    : wp (c.protocol init valid guard hcard) nic w op (fun _ _ s => c.lock.Resting w mine s) p l s := by
  apply wp_of_posts hp hinv h (RwLock.resting_steady w mine).stable
  intro s' e _ hguard _ hverb hrests
  have haway := hV s' e hguard hverb
  exact ⟨.inl haway, hrests.push_idle (c.move_of_away haway _)⟩

/-- The words while the lines before number `k` have been replaced. -/
def replaced (c : TailLock) (memAddr : β × Nat) (l : Local β) (f : Nat → Word) (k i : Nat) : Word :=
  if (c.base + i) / 8 < k then l memAddr.1 (memAddr.2 + i) else f i

theorem linesOf_addr {bytes : Nat} (hbytes : bytes / 8 = c.count + 1)
    : linesOf c.addr bytes
        = List.range' (c.base / 8) (c.lockIdx / 8 + 1 - c.base / 8) := by
  unfold linesOf lockIdx base
  congr 1
  . omega
  . omega

/-- Replace all words together with the lock word, whose line is the last one. -/
theorem wp_replace {bytes : Nat} (horder : nic.inOrderWrites = true)
    (hbytes : bytes / 8 = c.count + 1) (hinv : c.Inv init valid s)
    (h : c.lock.Holding w mine cs f s) (hzero : l memAddr.1 (memAddr.2 + c.count) = 0)
    (hvalid : ∀ g, (∀ i, i < c.count → g i = l memAddr.1 (memAddr.2 + i)) →
      valid op (snap init cs cs.length) g)
    (hnext : ∀ s' g, c.Inv init valid s' → c.lock.Resting w (⟨w, op, g⟩ :: mine) s' →
      wp (c.protocol init valid guard hcard) nic w op Q next l s')
    : wp (c.protocol init valid guard hcard) nic w op Q
        (.post rctx signaled (.write memAddr c.addr bytes) next) l s := by
  have hdiv : c.addr / 8 = c.base := rfl
  have hcount : (c.lock : RwLock W β Op).count = c.count := rfl
  have hsteady (k : Nat) : (c.protocol init valid guard hcard).Steady w
      (c.lock.Holding w mine cs (c.replaced memAddr l f k)) :=
    RwLock.holding_steady (governs guard hcard) w mine cs _
  let v : Verb β := .write memAddr c.addr bytes
  have hpayload {i : Nat} (hi : i ≤ c.count) : v.payload l i = l memAddr.1 (memAddr.2 + i) := by
    simp only [v, Verb.payload, hbytes, Nat.lt_succ_iff, hi, ↓reduceIte]
  -- What one line places.
  have hplace {s' : Shared W β Op} {k i : Nat} (hi : i < c.count)
      (hdata : s'.mem (c.base + i) = c.replaced memAddr l f k i)
      : (s'.push ⟨w, op, v, v.payload l, k⟩).mem (c.base + i)
          = c.replaced memAddr l f (k + 1) i := by
    simp only [Shared.push_mem, v, Verb.place, hdiv, hbytes, Nat.add_sub_cancel_left]
    by_cases hk : (c.base + i) / 8 = k
    . rw [if_pos ⟨by omega, by omega, hk⟩, replaced, if_pos (by omega)]
      exact hpayload (Nat.le_of_lt hi)
    . rw [if_neg (by omega), hdata, replaced, replaced]
      split
      . rw [if_pos (by omega)]
      . rw [if_neg (by omega)]
  -- The lines from number `k` on are pending.
  apply wp_post (fun pending l' s' => l' = l ∧ ∃ k, c.base / 8 ≤ k ∧ k ≤ c.lockIdx / 8 + 1 ∧
    pending = List.range' k (c.lockIdx / 8 + 1 - k) ∧
    (k ≤ c.lockIdx / 8 → c.lock.Holding w mine cs (c.replaced memAddr l f k) s') ∧
    (k = c.lockIdx / 8 + 1 → ∃ g, c.lock.Resting w (⟨w, op, g⟩ :: mine) s'))
  . rintro pending l' s' e hinv' hguard hpermit hw ⟨hl, k, hge, hle, hpending, hholds, hrests⟩
    refine ⟨hl, k, hge, hle, hpending, ?_, ?_⟩
    . exact fun hk => (hsteady k).stable hinv' hguard hpermit hw (hholds hk)
    . intro hk
      obtain ⟨g, hrests⟩ := hrests hk
      exact ⟨g, (RwLock.resting_steady w _).stable hinv' hguard hpermit hw hrests⟩
  . refine ⟨rfl, c.base / 8, Nat.le_refl _, by unfold lockIdx; omega, linesOf_addr hbytes, ?_, ?_⟩
    . intro _
      refine { h with data := ?_ }
      intro i hi
      rw [replaced, if_neg (by omega)]
      exact h.data i hi
    . intro hk
      unfold lockIdx at hk
      omega
  . exact hinv
  . rintro pending l' s' chunk hinv' ⟨hl, k, hge, hle, rfl, hholds, _⟩ hallow _
    simp only [Verb.allows, horder, Bool.not_true, Bool.false_or, Bool.and_eq_true, beq_iff_eq,
      List.contains_iff_mem] at hallow
    have hk : k ≤ c.lockIdx / 8 := by
      have := List.mem_range'_1.mp hallow.1
      omega
    obtain ⟨n, hn⟩ : ∃ n, c.lockIdx / 8 + 1 - k = n + 1 := ⟨c.lockIdx / 8 - k, by omega⟩
    obtain rfl : chunk = k := by
      rw [hn, List.range'_succ, List.head?_cons, Option.some_inj] at hallow
      exact hallow.2.symm
    have hholds' := hholds hk
    have hdata (i : Nat) (hi : i < c.count) := hplace hi (hholds'.data i hi)
    have hrest : (List.range' chunk (c.lockIdx / 8 + 1 - chunk)).erase chunk
        = List.range' (chunk + 1) (c.lockIdx / 8 + 1 - (chunk + 1)) := by
      rw [hn, List.range'_succ, List.erase_cons_head]
      congr 1
      omega
    by_cases hlast : chunk = c.lockIdx / 8
    . have hnew : ∀ i, i < c.count → c.words (s'.push ⟨w, op, v, v.payload l, chunk⟩).mem i
          = l memAddr.1 (memAddr.2 + i) := by
        intro i hi
        rw [words, hdata i hi, replaced, if_pos (by unfold lockIdx at hlast; omega)]
      have hmove : (c.lock : RwLock W β Op).move s'.mem ⟨w, op, v, v.payload l, chunk⟩ = .release := by
        simp only [lock_move, move, v, hbytes, hlast, and_self, ↓reduceIte]
      refine ⟨.inr ⟨rfl, hbytes, hholds'.holds, fun _ => ⟨?_, ?_⟩⟩, hl, chunk + 1, by omega, by omega,
        hrest, fun hle' => by omega, fun _ => ⟨_, hholds'.push_release rfl hmove⟩⟩
      . rw [← hzero]
        exact hpayload (Nat.le_refl _)
      . rw [RwLock.latest, hholds'.commits]
        exact hvalid _ hnew
    . have hmove : (c.lock : RwLock W β Op).move s'.mem ⟨w, op, v, v.payload l, chunk⟩ = .idle := by
        simp only [lock_move, move, v, hlast, and_false, ↓reduceIte]
      exact ⟨.inr ⟨rfl, hbytes, hholds'.holds, fun heq => absurd heq hlast⟩, hl, chunk + 1, by omega,
        by omega, hrest, fun _ => hholds'.push_idle hmove hdata, fun heq => by omega⟩
  . rintro l' s' hinv' ⟨rfl, k, _, hle, hpending, _, hrests⟩
    have hk : k = c.lockIdx / 8 + 1 := by
      have := congrArg List.length hpending
      simp only [List.length_nil, List.length_range'] at this
      omega
    obtain ⟨g, hrests⟩ := hrests hk
    exact hnext s' g hinv' hrests

end TailLock
end Rdma
