import RdmaSync.Rdma.CounterLock

/-!
This module contains the proof rules for programs that use a reader/writer lock whose word counts.
-/

namespace Rdma

variable {W κ β ε α Op : Type}

namespace CounterLock

variable [DecidableEq W] [Fintype W] [DecidableEq β] {c : CounterLock} {init : Nat → Word}
  {valid : Op → (Nat → Word) → (Nat → Word) → Prop} {guard : Shared W β Op → Event W β Op → Prop}
  {hcard : Fintype.card W < c.exclusive.toNat} {nic : Nic} {w : W} {op : Op} {l : Local β}
  {s : Shared W β Op} {mine cs : List (Commit W Op)} {f : Nat → Word}
  {Q : Except ε α → Assertion W β Op} {rctx : κ} {signaled : Bool} {next : Prog κ β ε α}
  {memAddr : β × Nat}

/-- Try to acquire the lock. The old word says whether this succeeded. -/
theorem wp_acquire (h : c.lock.Resting w mine s)
    (hnext : ∀ s' x, c.Inv init valid s' →
      (x = 0 ∧ (∃ cs, c.lock.Holding w mine cs (snap init cs cs.length) s') ∨
        x ≠ 0 ∧ c.lock.Resting w mine s') →
      wp (c.protocol init valid guard hcard) nic w op Q next (l.set memAddr x) s')
    : wp (c.protocol init valid guard hcard) nic w op Q
        (.post rctx signaled (.compareSwap 0 c.exclusive memAddr c.addr) next) l s := by
  apply wp_compareSwap
  rintro s' e hr hinv _ rfl
  have hpermit : c.Permit init valid s'
      ⟨w, op, .compareSwap 0 c.exclusive memAddr c.addr, fun _ => 0, 0⟩ := by
    exact .inr ⟨rfl, rfl, rfl⟩
  have hrests := (RwLock.resting_steady w mine).rely hr h
  refine ⟨hpermit, hnext _ _ (hinv.push hcard hpermit) ?_⟩
  rw [load_addr]
  by_cases hzero : s'.mem c.base = 0
  . obtain ⟨hfree, _⟩ := free_of_zero hinv hcard hzero
    refine .inl ⟨hzero, _, hrests.push_acquire rfl ?_ hfree
      (keepsData_of_update (v := c.exclusive) ?_) hinv.toInv⟩
    . simp only [lock_move, move, load_addr, hzero, and_self, ↓reduceIte]
    . simp only [Shared.push_mem, Verb.place, load_addr, hzero, ↓reduceIte, store_addr]
  . refine .inr ⟨hzero, hrests.push_idle ?_⟩
    simp only [lock_move, move, load_addr, hzero, and_false, ↓reduceIte]

/-- Join the readers. The old word says whether a writer holds the lock. -/
theorem wp_join (h : c.lock.Resting w mine s)
    (hnext : ∀ s' x, c.Inv init valid s' → s.Past s' → c.lock.Sharing w mine s' →
      (x.toNat < c.exclusive.toNat → ∃ cs, c.lock.Settled cs s') →
      wp (c.protocol init valid guard hcard) nic w op Q next (l.set memAddr x) s')
    : wp (c.protocol init valid guard hcard) nic w op Q
        (.post rctx signaled (.fetchAdd 1 memAddr c.addr) next) l s := by
  apply wp_fetchAdd
  rintro s' e hr hinv _ rfl
  have hrests := (RwLock.resting_steady w mine).rely hr h
  have hpermit : c.Permit init valid s' ⟨w, op, .fetchAdd 1 memAddr c.addr, fun _ => 0, 0⟩ := by
    exact .inr ⟨rfl, .inl ⟨rfl, hrests.share⟩⟩
  have hmove : (c.lock : RwLock W β Op).move s'.mem
      ⟨w, op, .fetchAdd 1 memAddr c.addr, fun _ => 0, 0⟩ = .join := by
    simp only [lock_move, move, ↓reduceIte]
  refine ⟨hpermit, hnext _ _ (hinv.push hcard hpermit) (hr.past.push _)
    (hrests.push_join rfl hmove) ?_⟩
  intro hlt
  rw [load_addr] at hlt
  have hfree := (free_iff_lt hinv hcard).mpr hlt
  exact ⟨_, RwLock.Settled.push_join ⟨hfree, rfl⟩ hmove⟩

theorem wp_leave (h : c.lock.Sharing w mine s)
    (hnext : ∀ s' x, c.Inv init valid s' → s.Past s' → c.lock.Resting w mine s' →
      wp (c.protocol init valid guard hcard) nic w op Q next (l.set memAddr x) s')
    : wp (c.protocol init valid guard hcard) nic w op Q
        (.post rctx signaled (.fetchAdd (-1) memAddr c.addr) next) l s := by
  apply wp_fetchAdd
  rintro s' e hr hinv _ rfl
  have hshares := (RwLock.sharing_steady w mine).rely hr h
  have hpermit : c.Permit init valid s' ⟨w, op, .fetchAdd (-1) memAddr c.addr, fun _ => 0, 0⟩ := by
    exact .inr ⟨rfl, .inr (.inl ⟨rfl, hshares.share⟩)⟩
  refine ⟨hpermit, hnext _ _ (hinv.push hcard hpermit) (hr.past.push _)
    (hshares.push_leave rfl (move_leave (by rfl) _))⟩

theorem wp_release (h : c.lock.Holding w mine cs f s)
    (hvalid : ∀ g, (∀ i, i < c.count → g i = f i) → valid op (snap init cs cs.length) g)
    (hnext : ∀ s' x g, c.Inv init valid s' → c.lock.Resting w (⟨w, op, g⟩ :: mine) s' →
      wp (c.protocol init valid guard hcard) nic w op Q next (l.set memAddr x) s')
    : wp (c.protocol init valid guard hcard) nic w op Q
        (.post rctx signaled (.fetchAdd (-c.exclusive) memAddr c.addr) next) l s := by
  apply wp_fetchAdd
  rintro s' e hr hinv _ rfl
  have hholds := (RwLock.holding_steady (governs guard hcard) w mine cs f).rely hr h
  have hpermit : c.Permit init valid s'
      ⟨w, op, .fetchAdd (-c.exclusive) memAddr c.addr, fun _ => 0, 0⟩ := by
    refine .inr ⟨rfl, .inr (.inr ⟨rfl, hholds.holds, ?_⟩)⟩
    rw [RwLock.latest, hholds.commits]
    exact hvalid _ hholds.data
  have hmove : (c.lock : RwLock W β Op).move s'.mem
      ⟨w, op, .fetchAdd (-c.exclusive) memAddr c.addr, fun _ => 0, 0⟩ = .release := by
    simp only [lock_move, move, c.neg_exclusive_ne_one, c.neg_exclusive_ne_neg_one, ↓reduceIte]
  have hrests := hholds.push_release rfl hmove
  exact ⟨hpermit, hnext _ _ _ (hinv.push hcard hpermit) hrests⟩

theorem wp_away {p : Prog κ β ε α} (hp : p.Posts c.Away) (hinv : c.Inv init valid s)
    (h : c.lock.Resting w mine s)
    : wp (c.protocol init valid guard hcard) nic w op (fun _ _ s => c.lock.Resting w mine s) p l s := by
  apply wp_of_posts hp hinv h (RwLock.resting_steady w mine).stable
  intro s' e _ _ _ haway hrests
  exact ⟨.inl haway, hrests.push_idle (c.move_of_away haway _)⟩

theorem wp_replace {bytes : Nat} (hbytes : bytes / 8 = c.count) (h : c.lock.Holding w mine cs f s)
    (hinv : c.Inv init valid s)
    (hnext : ∀ s', c.Inv init valid s' →
      c.lock.Holding w mine cs (fun i => l memAddr.1 (memAddr.2 + i)) s' →
      wp (c.protocol init valid guard hcard) nic w op Q next l s')
    : wp (c.protocol init valid guard hcard) nic w op Q
        (.post rctx signaled (.write memAddr (c.addr + 8) bytes) next) l s := by
  have hdiv : (c.addr + 8) / 8 = c.base + 1 := by
    unfold base
    omega
  let v : Verb β := .write memAddr (c.addr + 8) bytes
  -- The words whose steps are not pending have been replaced.
  let g : List Nat → Nat → Word := fun pending i =>
    if v.chunkOf nic i ∈ pending then f i else l memAddr.1 (memAddr.2 + i)
  apply wp_post (fun pending l' s' => l' = l ∧ pending.Nodup ∧
    c.lock.Holding w mine cs (g pending) s')
  . rintro pending l' s' e hinv' hguard hpermit hw ⟨hl, hnodup, hholds⟩
    exact ⟨hl, hnodup, (RwLock.holding_steady (governs guard hcard) w mine cs _).stable hinv'
      hguard hpermit hw hholds⟩
  . refine ⟨rfl, v.chunks_nodup nic, { h with data := ?_ }⟩
    intro i hi
    have hmem : v.chunkOf nic i ∈ (Verb.write memAddr (c.addr + 8) bytes).chunks nic := by
      show _ ∈ linesOf _ _
      apply mem_linesOf
      rw [hbytes]
      exact hi
    simp only [g, hmem, ↓reduceIte]
    exact h.data i hi
  . exact hinv
  . rintro pending l' s' chunk hinv' ⟨hl, hnodup, hholds⟩ _ _
    refine ⟨.inr ⟨by omega, hholds.holds⟩, hl, hnodup.erase _, hholds.push_idle rfl ?_⟩
    intro i hi
    have hi' : i < c.count := hi
    show (s'.push _).mem (c.base + 1 + i) = _
    have hold : s'.mem (c.base + 1 + i) = g pending i := hholds.data i hi
    simp only [Shared.push_mem, Verb.place, hdiv, Nat.add_sub_cancel_left, hbytes]
    by_cases hchunk : (c.base + 1 + i) / 8 = chunk
    . have hnot : v.chunkOf nic i ∉ pending.erase chunk := by
        show ((c.addr + 8) / 8 + i) / 8 ∉ _
        rw [hdiv, hchunk]
        exact hnodup.not_mem_erase
      rw [if_pos ⟨by omega, by omega, hchunk⟩]
      simp only [g, hnot, ↓reduceIte, Verb.payload, hbytes, hi']
    . have hiff : v.chunkOf nic i ∈ pending.erase chunk ↔ v.chunkOf nic i ∈ pending := by
        apply List.mem_erase_of_ne
        show ((c.addr + 8) / 8 + i) / 8 ≠ _
        rwa [hdiv]
      rw [if_neg (by omega), hold]
      simp only [g, hiff]
  . rintro l' s' hinv' ⟨rfl, _, hholds⟩
    apply hnext s' hinv'
    simpa only [g, List.not_mem_nil, ↓reduceIte] using hholds

end CounterLock
end Rdma
