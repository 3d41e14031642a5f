import Mathlib.Algebra.BigOperators.Group.Finset.Piecewise
import Mathlib.Algebra.Order.BigOperators.Group.Finset
import RdmaSync.Rdma.Rules

/-!
This module contains a counter that workers increment once for each stage that they arrive at, and
read in order to find out whether the others have arrived there as well.
-/

namespace Rdma

variable {W κ β ε α Op : Type}

structure ArrivalCounter (Op : Type) where
  addr : Nat
  addr_aligned : addr % 8 = 0
  stage : Op → Nat

namespace ArrivalCounter

variable (c : ArrivalCounter Op)

def idx : Nat := c.addr / 8

def isArrival (e : Event W β Op) : Bool :=
  match e.verb with
  | .fetchAdd toAdd _ remoteOffset => toAdd == 1 && remoteOffset == c.addr
  | _ => false

def arrivals [DecidableEq W] (w : W) (h : History W β Op) : Nat :=
  h.countP fun x => x.2.worker = w ∧ c.isArrival x.2 = true

def Arrived (w : W) (stage : Nat) (h : History W β Op) : Prop :=
  ∃ x ∈ h, x.2.worker = w ∧ c.isArrival x.2 = true ∧ c.stage x.2.op = stage

theorem load_addr (m : Mem) : load64 m c.addr = m c.idx := by
  rw [load64_aligned _ c.addr_aligned, idx]

theorem isArrival_of_isRead {e : Event W β Op} (h : e.verb.isRead = true)
    : c.isArrival e = false := by
  cases hv : e.verb with
  | read => simp only [isArrival, hv]
  | _ => simp [Verb.isRead, hv] at h

theorem Arrived.mono {w : W} {k : Nat} {h h' : History W β Op} (harrived : c.Arrived w k h)
    (hsuffix : h <:+ h') : c.Arrived w k h' := by
  obtain ⟨x, hx, hrest⟩ := harrived
  exact ⟨x, hsuffix.subset hx, hrest⟩

theorem mem_push_of_isArrival {s : Shared W β Op} {e : Event W β Op} (h : c.isArrival e = true)
    : (s.push e).mem = Function.update s.mem c.idx (s.mem c.idx + 1) := by
  unfold isArrival at h
  split at h
  . next toAdd memAddr off hv =>
    simp only [Bool.and_eq_true, beq_iff_eq] at h
    obtain ⟨rfl, rfl⟩ := h
    simp only [Shared.push_mem, Verb.place, hv]
    rw [store64_aligned _ _ c.addr_aligned, load_addr]
    rfl
  . simp at h

variable [DecidableEq W]

/-- What a worker has to show before it causes an event: it waits for the others at each stage. -/
inductive Permit (s : Shared W β Op) (e : Event W β Op) : Prop where
  | read (h : e.verb.isRead = true)
  | arrive (h : c.isArrival e = true) (hstage : c.stage e.op = c.arrivals e.worker s.hist + 1)
    (hothers : ∀ w, c.arrivals e.worker s.hist ≤ c.arrivals w s.hist)

/-- The invariant of the counter: nobody is more than one stage ahead. -/
structure Inv [Fintype W] (s : Shared W β Op) : Prop where
  word : s.mem c.idx = BitVec.ofNat 64 (∑ w, c.arrivals w s.hist)
  close : ∀ w w', c.arrivals w s.hist ≤ c.arrivals w' s.hist + 1
  arrived : ∀ w k, 1 ≤ k → k ≤ c.arrivals w s.hist → c.Arrived w k s.hist

variable {c} {s s' : Shared W β Op} {e : Event W β Op}

section Arrivals

theorem arrivals_push (w : W)
    : c.arrivals w (s.push e).hist
        = c.arrivals w s.hist + if e.worker = w ∧ c.isArrival e = true then 1 else 0 := by
  simp [arrivals, List.countP_cons]

theorem arrivals_of_isRead (h : e.verb.isRead = true) (w : W)
    : c.arrivals w (s.push e).hist = c.arrivals w s.hist := by
  rw [arrivals_push, c.isArrival_of_isRead h]
  simp

theorem arrivals_of_ne {w : W} (h : e.worker ≠ w)
    : c.arrivals w (s.push e).hist = c.arrivals w s.hist := by
  rw [arrivals_push, if_neg (fun h' => h h'.1), Nat.add_zero]

theorem arrivals_self (h : c.isArrival e = true)
    : c.arrivals e.worker (s.push e).hist = c.arrivals e.worker s.hist + 1 := by
  rw [arrivals_push, if_pos ⟨rfl, h⟩]

theorem arrivals_mono (h : s.hist <:+ s'.hist) (w : W)
    : c.arrivals w s.hist ≤ c.arrivals w s'.hist := by
  exact h.sublist.countP_le

end Arrivals

variable [Fintype W]

theorem sum_arrivals_push (h : c.isArrival e = true)
    : ∑ w, c.arrivals w (s.push e).hist = ∑ w, c.arrivals w s.hist + 1 := by
  have hpush (w : W) : c.arrivals w (s.push e).hist
      = c.arrivals w s.hist + if e.worker = w then 1 else 0 := by
    rw [arrivals_push]
    simp [h]
  rw [Finset.sum_congr rfl fun w _ => hpush w, Finset.sum_add_distrib, Finset.sum_ite_eq,
    if_pos (Finset.mem_univ _)]

theorem Inv.push (hinv : c.Inv s) (h : c.Permit s e) : c.Inv (s.push e) := by
  cases h with
  | read hread =>
    have hsame (w : W) := arrivals_of_isRead (c := c) (s := s) hread w
    constructor
    . rw [Shared.push_mem_of_isRead hread, hinv.word, Finset.sum_congr rfl fun w _ => hsame w]
    . intro w w'
      rw [hsame, hsame]
      exact hinv.close w w'
    . intro w k hge hle
      rw [hsame] at hle
      exact (hinv.arrived w k hge hle).mono c (List.suffix_cons _ _)
  | arrive harrival hstage hothers =>
    have hpush (w : W) : c.arrivals w (s.push e).hist
        = c.arrivals w s.hist + if e.worker = w then 1 else 0 := by
      rw [arrivals_push]
      simp [harrival]
    constructor
    . rw [c.mem_push_of_isArrival harrival, Function.update_self, hinv.word,
        sum_arrivals_push harrival, BitVec.ofNat_add]
      rfl
    . intro w w'
      have hclose := hinv.close w w'
      have hothers := hothers w'
      rw [hpush, hpush]
      by_cases hw : e.worker = w
      . subst hw
        rw [if_pos rfl]
        omega
      . rw [if_neg hw]
        omega
    . intro w k hge hle
      rw [hpush] at hle
      by_cases hw : e.worker = w ∧ k = c.arrivals e.worker s.hist + 1
      . obtain ⟨rfl, rfl⟩ := hw
        exact ⟨_, List.mem_cons_self, rfl, harrival, hstage⟩
      . apply (hinv.arrived w k hge _).mono c (List.suffix_cons _ _)
        split at hle
        . next heq =>
          subst heq
          simp only [true_and] at hw
          omega
        . omega

/-- A worker whose stage is complete according to the counter is not early. -/
theorem Inv.all_arrived (hinv : c.Inv s) (hcard : Fintype.card W < 2 ^ 64) {w : W} {k : Nat}
    (hw : c.arrivals w s.hist = k)
    (hword : s.mem c.idx = BitVec.ofNat 64 (Fintype.card W * k)) (w' : W)
    : k ≤ c.arrivals w' s.hist := by
  by_contra hlt
  -- Then nobody is beyond stage `k`, and the sum is short of less than `2 ^ 64` arrivals.
  have hle : ∀ v ∈ Finset.univ, c.arrivals v s.hist ≤ k := by
    intro v _
    have := hinv.close v w'
    omega
  have hsum_lt : ∑ v, c.arrivals v s.hist < ∑ _v : W, k := by
    exact Finset.sum_lt_sum hle ⟨w', Finset.mem_univ _, by omega⟩
  have hge : ∀ v ∈ Finset.univ, k ≤ c.arrivals v s.hist + 1 := by
    intro v _
    have := hinv.close w v
    omega
  have hsum_ge : ∑ _v : W, k < ∑ v, (c.arrivals v s.hist + 1) := by
    exact Finset.sum_lt_sum hge ⟨w, Finset.mem_univ _, by omega⟩
  simp only [Finset.sum_add_distrib, Finset.sum_const, Finset.card_univ,
    Nat.nsmul_eq_mul, Nat.mul_one] at hsum_lt hsum_ge
  have heq := congrArg BitVec.toNat (hinv.word.symm.trans hword)
  rw [BitVec.toNat_ofNat, BitVec.toNat_ofNat] at heq
  omega

theorem Inv.not_complete (hinv : c.Inv s) (hcard : Fintype.card W < 2 ^ 64) {w : W} {k : Nat}
    (hw : c.arrivals w s.hist = k) (hothers : ∀ w', k ≤ c.arrivals w' s.hist)
    : s.mem c.idx ≠ BitVec.ofNat 64 (Fintype.card W * (k + 1)) := by
  intro hword
  have hle : ∀ v ∈ Finset.univ, c.arrivals v s.hist ≤ k + 1 := by
    intro v _
    have := hinv.close v w
    omega
  have hsum_lt : ∑ v, c.arrivals v s.hist < ∑ _v : W, (k + 1) := by
    exact Finset.sum_lt_sum hle ⟨w, Finset.mem_univ _, by omega⟩
  have hsum_ge : ∑ _v : W, k ≤ ∑ v, c.arrivals v s.hist := by
    exact Finset.sum_le_sum fun v _ => hothers v
  have hpos : 0 < Fintype.card W := Fintype.card_pos_iff.mpr ⟨w⟩
  simp only [Finset.sum_const, Finset.card_univ, Nat.nsmul_eq_mul] at hsum_lt hsum_ge
  have heq := congrArg BitVec.toNat (hinv.word.symm.trans hword)
  rw [BitVec.toNat_ofNat, BitVec.toNat_ofNat, Nat.mul_succ] at heq
  rw [Nat.mul_succ] at hsum_lt
  omega

def protocol (c : ArrivalCounter Op) : Protocol W β Op where
  inv := c.Inv
  guard := fun _ _ => True
  permit := c.Permit
  inv_push := fun hinv _ hpermit => hinv.push hpermit

theorem inv_initial (hhist : s.hist = []) (hword : s.mem c.idx = 0) : c.Inv s := by
  constructor
  . simp [hhist, hword, arrivals]
  . simp [hhist, arrivals]
  . intro w k hge hle
    simp only [hhist, arrivals, List.countP_nil] at hle
    omega

theorem arrivals_steady (c : ArrivalCounter Op) (w : W) (k : Nat)
    : (c.protocol : Protocol W β Op).Steady w (fun s => c.arrivals w s.hist = k) := by
  intro s e _ _ _ hw h
  by_cases hworker : e.worker = w
  . rw [arrivals_of_isRead (hw hworker), h]
  . rw [arrivals_of_ne hworker, h]

theorem arrived_steady (c : ArrivalCounter Op) (w : W) (k : Nat)
    : (c.protocol : Protocol W β Op).Steady w (fun s => ∀ w', k ≤ c.arrivals w' s.hist) := by
  intro s e _ _ _ _ h w'
  exact Nat.le_trans (h w') (arrivals_mono (List.suffix_cons _ _) w')

section Rules

variable [DecidableEq β] {nic : Nic} {w : W} {op : Op} {l : Local β} {k : Nat}
  {Q : Except ε α → Assertion W β Op} {rctx : κ} {signaled : Bool} {next : Prog κ β ε α}
  {memAddr : β × Nat}

theorem wp_arrive (hcard : Fintype.card W < 2 ^ 64) (hstage : c.stage op = k + 1)
    (hw : c.arrivals w s.hist = k) (hothers : ∀ w', k ≤ c.arrivals w' s.hist)
    (hnext : ∀ s' x, c.Inv s' → c.arrivals w s'.hist = k + 1 →
      x ≠ BitVec.ofNat 64 (Fintype.card W * (k + 1)) →
      wp c.protocol nic w op Q next (l.set memAddr x) s')
    : wp c.protocol nic w op Q (.post rctx signaled (.fetchAdd 1 memAddr c.addr) next) l s := by
  apply wp_fetchAdd
  rintro s' e hr hinv _ rfl
  have hw' := (c.arrivals_steady w k).rely hr hw
  have hothers' := (c.arrived_steady w k).rely hr hothers
  have harrival : c.isArrival
      (⟨w, op, .fetchAdd 1 memAddr c.addr, fun _ => 0, 0⟩ : Event W β Op) = true := by
    simp [isArrival]
  have hpermit : c.Permit s' ⟨w, op, .fetchAdd 1 memAddr c.addr, fun _ => 0, 0⟩ := by
    refine .arrive harrival ?_ ?_
    . simp only [hw', hstage]
    . simpa only [hw'] using hothers'
  refine ⟨hpermit, hnext _ _ (hinv.push hpermit) ?_ ?_⟩
  . exact (arrivals_self harrival).trans (by rw [hw'])
  . rw [load_addr]
    exact hinv.not_complete hcard hw' hothers'

theorem wp_readCounter (hcard : Fintype.card W < 2 ^ 64) (hinv : c.Inv s)
    (hw : c.arrivals w s.hist = k)
    (hnext : ∀ l' s', c.Inv s' → c.arrivals w s'.hist = k →
      (l' memAddr.1 memAddr.2 = BitVec.ofNat 64 (Fintype.card W * k) →
        ∀ w', k ≤ c.arrivals w' s'.hist) →
      wp c.protocol nic w op Q next l' s')
    : wp c.protocol nic w op Q (.post rctx signaled (.read memAddr c.addr 8) next) l s := by
  have hdiv : c.addr / 8 = c.idx := rfl
  apply wp_read_each (fun s => c.arrivals w s.hist = k) hinv hw (c.arrivals_steady w k)
  . intro s' e _ _ _ _ hv
    exact .read (by rw [hv]; rfl)
  . intro l' s' hinv' hw' _ hfetched _
    apply hnext l' s' hinv' hw'
    intro hcomplete w'
    obtain ⟨s₁, hs₁, hword⟩ := hfetched 0 (by decide)
    rw [Nat.add_zero, Nat.add_zero, hdiv, hcomplete] at hword
    have hinv₁ : c.Inv s₁ := hs₁.inv
    exact Nat.le_trans (hinv₁.all_arrived hcard hs₁.context hword.symm w')
      (arrivals_mono hs₁.before.hist w')

end Rules

end ArrivalCounter
end Rdma
