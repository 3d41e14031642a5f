import Mathlib.Data.Fintype.Card
import RdmaSync.Threads.Transition

/-!
This module contains the reusable barrier: the steps of the threads that wait at it, and its
correctness.
-/

namespace Concurrency

open Threads

inductive Pc where
  | outside
  | called
  | loaded (prevRound : BitVec 8)
  | last
  | finalizing
  | advancing (r : Bool)
  | spinning (prevRound : BitVec 8)
  | returning (r : Bool)
  deriving DecidableEq

/-- A thread with the number of times that it has arrived, and what its calls have returned. -/
structure Waiter where
  pc : Pc
  arrived : Nat
  results : List Bool

structure Barrier (threadCount : BitVec 64) where
  cntr : BitVec 64
  round : BitVec 8
  waiter : Fin threadCount.toNat → Waiter
  finalized : List (Fin threadCount.toNat × Bool)
  completed : Nat

structure Action (threadCount : BitVec 64) where
  thread : Fin threadCount.toNat
  result : Bool
  deriving DecidableEq

namespace Barrier

variable {threadCount : BitVec 64}

def created : Barrier threadCount where
  cntr := threadCount
  round := 0
  waiter := fun _ => { pc := .outside, arrived := 0, results := [] }
  finalized := []
  completed := 0

variable (s : Barrier threadCount) (t : Fin threadCount.toNat)

def setWaiter (w : Waiter) : Barrier threadCount :=
  { s with waiter := Function.update s.waiter t w }

def goto (pc : Pc) : Barrier threadCount :=
  s.setWaiter t { s.waiter t with pc := pc }

def step : Step (Barrier threadCount) (Action threadCount) := fun s a =>
  let w := s.waiter a.thread
  match w.pc with
  | .outside => some (s.goto a.thread .called)
  | .called => some (s.goto a.thread (.loaded s.round))
  | .loaded prevRound =>
    let pc := if s.cntr = 1 then .last else .spinning prevRound
    some
      { s.setWaiter a.thread { w with pc := pc, arrived := w.arrived + 1 } with
        cntr := s.cntr - 1 }
  | .last => some { s.goto a.thread .finalizing with cntr := threadCount }
  | .finalizing =>
    some
      { s.goto a.thread (.advancing a.result) with
        finalized := s.finalized ++ [(a.thread, a.result)] }
  | .advancing r =>
    some
      { s.goto a.thread (.returning r) with
        round := s.round + 1
        completed := s.completed + 1 }
  | .spinning prevRound =>
    if s.round = prevRound then
      some s
    else
      some (s.goto a.thread (.returning false))
  | .returning r =>
    some (s.setWaiter a.thread { w with pc := .outside, results := w.results ++ [r] })

end Barrier
namespace Pc

def closes (pc : Pc) : Bool :=
  match pc with
  | .last | .finalizing | .advancing _ => true
  | _ => false

end Pc
namespace Barrier

variable {threadCount : BitVec 64}

/-- What call `k` of thread `t` returns: the result of the finalizer if the thread has run it. -/
def resultOf (finalized : List (Fin threadCount.toNat × Bool)) (t : Fin threadCount.toNat)
    (k : Nat) : Option Bool :=
  finalized[k]?.map fun (u, r) => if u = t then r else false

def present (s : Barrier threadCount) : Finset (Fin threadCount.toNat) :=
  Finset.univ.filter fun t => (s.waiter t).arrived = s.completed + 1

@[simp]
theorem mem_present {s : Barrier threadCount} {t : Fin threadCount.toNat}
    : t ∈ s.present ↔ (s.waiter t).arrived = s.completed + 1 := by
  rw [present, Finset.mem_filter]
  exact and_iff_right (Finset.mem_univ t)

/-- What holds for a thread when `completed` rounds are over. -/
def WaiterOk (completed : Nat) (resultOf : Nat → Option Bool) (w : Waiter) : Prop :=
  match w.pc with
  | .outside | .called => w.results.length = w.arrived ∧ w.arrived = completed
  | .loaded prevRound =>
    w.results.length = w.arrived ∧ w.arrived = completed ∧ prevRound = BitVec.ofNat 8 completed
  | .last | .finalizing => w.results.length + 1 = w.arrived ∧ w.arrived = completed + 1
  | .advancing r =>
    w.results.length + 1 = w.arrived ∧ w.arrived = completed + 1 ∧ resultOf completed = some r
  | .spinning prevRound =>
    w.results.length + 1 = w.arrived ∧ (w.arrived = completed ∨ w.arrived = completed + 1)
      ∧ prevRound = BitVec.ofNat 8 w.results.length
      ∧ ∀ r, resultOf w.results.length = some r → r = false
  | .returning r =>
    w.results.length + 1 = w.arrived ∧ w.arrived = completed ∧ resultOf w.results.length = some r

structure Inv (s : Barrier threadCount) : Prop where
  round : s.round = BitVec.ofNat 8 s.completed
  waiter : ∀ t, WaiterOk s.completed (resultOf s.finalized t) (s.waiter t)
  results : ∀ t k r, (s.waiter t).results[k]? = some r → resultOf s.finalized t k = some r
  /-- When a thread completes the round, the others wait for it. -/
  closing : ∀ t, (s.waiter t).pc.closes = true → ∀ u, (s.waiter u).arrived = s.completed + 1
    ∧ (u ≠ t → (s.waiter u).pc.closes = false)
  cntr : (∀ t, (s.waiter t).pc.closes = false) → s.cntr.toNat + s.present.card = threadCount.toNat
    ∧ (0 < threadCount.toNat → s.present.card < threadCount.toNat)
  reset : ∀ t r, (s.waiter t).pc = .finalizing ∨ (s.waiter t).pc = .advancing r
    → s.cntr = threadCount
  finalized : s.finalized.length = s.completed
    ∨ s.finalized.length = s.completed + 1 ∧ ∃ t r, (s.waiter t).pc = .advancing r

section Simp

variable (s : Barrier threadCount) (t : Fin threadCount.toNat) (w : Waiter)

@[simp]
theorem waiter_setWaiter_self : (s.setWaiter t w).waiter t = w := by
  simp [setWaiter]

@[simp]
theorem waiter_setWaiter_of_ne {u : Fin threadCount.toNat} (h : u ≠ t)
    : (s.setWaiter t w).waiter u = s.waiter u := by
  simp [setWaiter, h]

@[simp]
theorem completed_setWaiter : (s.setWaiter t w).completed = s.completed := by
  rfl

@[simp]
theorem finalized_setWaiter : (s.setWaiter t w).finalized = s.finalized := by
  rfl

@[simp]
theorem round_setWaiter : (s.setWaiter t w).round = s.round := by
  rfl

@[simp]
theorem cntr_setWaiter : (s.setWaiter t w).cntr = s.cntr := by
  rfl

end Simp

variable {s s' : Barrier threadCount} {t : Fin threadCount.toNat} {w : Waiter}

theorem inv_created : Inv (created : Barrier threadCount) where
  round := rfl
  waiter := fun _ => ⟨rfl, rfl⟩
  results := by simp [created]
  closing := by simp [created, Pc.closes]
  cntr := by
    have hpresent : (created : Barrier threadCount).present = ∅ := by
      ext t
      simp [created]
    intro _
    rw [hpresent, Finset.card_empty]
    exact ⟨rfl, id⟩
  reset := by simp [created]
  finalized := .inl rfl

theorem Inv.not_closes (h : Inv s) (harrived : (s.waiter t).arrived = s.completed)
    (u : Fin threadCount.toNat) : (s.waiter u).pc.closes = false := by
  by_contra hcloses
  have hall := (h.closing u (by simpa using hcloses) t).1
  omega

theorem Inv.finalized_of_not_advancing (h : Inv s)
    (hpc : ∀ t r, (s.waiter t).pc ≠ .advancing r) : s.finalized.length = s.completed := by
  obtain hlength | ⟨_, t, r, hadvancing⟩ := h.finalized
  . exact hlength
  . exact absurd hadvancing (hpc t r)

theorem Inv.finalized_of_not_closes (h : Inv s) (hnone : ∀ t, (s.waiter t).pc.closes = false)
    : s.finalized.length = s.completed := by
  refine h.finalized_of_not_advancing ?_
  intro t r ht
  have hcloses := hnone t
  simp [ht, Pc.closes] at hcloses

/-- When the counter is down to one, all other threads have arrived. -/
theorem Inv.arrived_of_cntr (h : Inv s) (harrived : (s.waiter t).arrived = s.completed)
    (hcntr : s.cntr = 1) (u : Fin threadCount.toNat) (hu : u ≠ t)
    : (s.waiter u).arrived = s.completed + 1 := by
  obtain ⟨hcount, _⟩ := h.cntr (h.not_closes harrived)
  have ht : t ∉ s.present := by simp [harrived]
  have huniv : insert t s.present = Finset.univ := by
    apply Finset.eq_univ_of_card
    have hone : s.cntr.toNat = 1 := by rw [hcntr]; rfl
    rw [Finset.card_insert_of_notMem ht, Fintype.card_fin]
    omega
  have hmem := Finset.mem_univ u
  rw [← huniv] at hmem
  simpa [hu] using hmem

theorem Inv.setWaiter (h : Inv s) (harrived : (s.waiter t).arrived = s.completed)
    (hw : w.arrived = s.completed) (hok : WaiterOk s.completed (resultOf s.finalized t) w)
    (hresults : ∀ k r, w.results[k]? = some r → resultOf s.finalized t k = some r)
    (hcloses : w.pc.closes = false) : Inv (s.setWaiter t w) := by
  have hnone := h.not_closes harrived
  have hnone' : ∀ u, ((s.setWaiter t w).waiter u).pc.closes = false := by
    intro u
    by_cases hu : u = t
    . subst hu
      simpa using hcloses
    . simpa [hu] using hnone u
  have hpresent : (s.setWaiter t w).present = s.present := by
    ext u
    by_cases hu : u = t
    . subst hu
      simp [hw, harrived, Barrier.setWaiter]
    . simp [hu, Barrier.setWaiter]
  refine ⟨h.round, ?_, ?_, ?_, ?_, ?_, ?_⟩
  . intro u
    by_cases hu : u = t
    . subst hu
      simpa using hok
    . simpa [hu] using h.waiter u
  . intro u
    by_cases hu : u = t
    . subst hu
      simpa using hresults
    . simpa [hu] using h.results u
  . intro u hu
    simp [hnone' u] at hu
  . intro _
    rw [hpresent]
    exact h.cntr hnone
  . intro u r hu
    have hcloses := hnone' u
    obtain hu | hu := hu <;> simp [hu, Pc.closes] at hcloses
  . exact .inl (h.finalized_of_not_closes hnone)

theorem Inv.arrive_spinning {prevRound : BitVec 8} (h : Inv s)
    (hpc : (s.waiter t).pc = .loaded prevRound) (hcntr : s.cntr ≠ 1)
    : Inv
      { s.setWaiter t { s.waiter t with
          pc := .spinning prevRound
          arrived := (s.waiter t).arrived + 1 } with
        cntr := s.cntr - 1 } := by
  have hok := h.waiter t
  simp only [WaiterOk, hpc] at hok
  obtain ⟨hresults, harrived, hprevRound⟩ := hok
  have hnone := h.not_closes harrived
  have hlength := h.finalized_of_not_closes hnone
  obtain ⟨hcount, _⟩ := h.cntr hnone
  have ht : t ∉ s.present := by simp [harrived]
  have hpos : s.cntr.toNat ≠ 1 := fun hone => hcntr (BitVec.eq_of_toNat_eq hone)
  refine ⟨h.round, ?_, ?_, ?_, ?_, ?_, .inl hlength⟩
  . intro u
    by_cases hu : u = t
    . subst hu
      -- The finalizer of this round has not run.
      simp [WaiterOk, hresults, harrived, hprevRound, resultOf, ← hlength]
    . simpa [hu] using h.waiter u
  . intro u
    by_cases hu : u = t
    . subst hu
      simpa using h.results u
    . simpa [hu] using h.results u
  . intro u hcloses
    by_cases hu : u = t
    . subst hu
      simp [Pc.closes] at hcloses
    . simp [hu, hnone u] at hcloses
  . intro _
    have hlt := Finset.card_lt_univ_of_notMem ht
    have hcard := Finset.card_insert_of_notMem ht
    have hmax := s.cntr.isLt
    rw [Fintype.card_fin] at hlt
    have hpresent : present { s.setWaiter t { s.waiter t with
          pc := .spinning prevRound
          arrived := (s.waiter t).arrived + 1 } with
        cntr := s.cntr - 1 } = insert t s.present := by
      ext u
      by_cases hu : u = t
      . subst hu
        simp [harrived]
      . simp [hu]
    have hone : (1 : BitVec 64).toNat = 1 := rfl
    rw [hpresent, BitVec.toNat_sub, hone]
    omega
  . intro u r hadvancing
    by_cases hu : u = t
    . subst hu
      simp at hadvancing
    . have hcloses := hnone u
      simp only [hu, waiter_setWaiter_of_ne, ne_eq, not_false_eq_true] at hadvancing
      obtain hpc | hpc := hadvancing <;> simp [hpc, Pc.closes] at hcloses

theorem Inv.arrive_last {prevRound : BitVec 8} (h : Inv s)
    (hpc : (s.waiter t).pc = .loaded prevRound) (hcntr : s.cntr = 1)
    : Inv
      { s.setWaiter t { s.waiter t with
          pc := .last
          arrived := (s.waiter t).arrived + 1 } with
        cntr := s.cntr - 1 } := by
  have hok := h.waiter t
  simp only [WaiterOk, hpc] at hok
  obtain ⟨hresults, harrived, hprevRound⟩ := hok
  have hnone := h.not_closes harrived
  have hlength := h.finalized_of_not_closes hnone
  have hall := h.arrived_of_cntr harrived hcntr
  refine ⟨h.round, ?_, ?_, ?_, ?_, ?_, .inl hlength⟩
  . intro u
    by_cases hu : u = t
    . subst hu
      simp [WaiterOk, hresults, harrived]
    . simpa [hu] using h.waiter u
  . intro u
    by_cases hu : u = t
    . subst hu
      simpa using h.results u
    . simpa [hu] using h.results u
  . intro u hcloses v
    have hu : u = t := by
      by_contra hu
      simp [hu, hnone u] at hcloses
    subst hu
    by_cases hv : v = u
    . subst hv
      simp [harrived]
    . simpa [hv, hnone v] using hall v hv
  . intro hnone'
    have hcloses := hnone' t
    simp [Pc.closes] at hcloses
  . intro u r hadvancing
    by_cases hu : u = t
    . subst hu
      simp at hadvancing
    . have hcloses := hnone u
      simp only [hu, waiter_setWaiter_of_ne, ne_eq, not_false_eq_true] at hadvancing
      obtain hpc | hpc := hadvancing <;> simp [hpc, Pc.closes] at hcloses

section Closing

theorem Inv.spinning (h : Inv s) (hpc : (s.waiter t).pc.closes = true) {u : Fin threadCount.toNat}
    (hu : u ≠ t) : ∃ prevRound, (s.waiter u).pc = .spinning prevRound := by
  obtain ⟨harrived, hcloses⟩ := h.closing t hpc u
  have hok := h.waiter u
  cases hpc : (s.waiter u).pc with
  | spinning prevRound => exact ⟨prevRound, rfl⟩
  | last | finalizing | advancing => simp [hpc, Pc.closes] at hcloses; omega
  | _ =>
    simp only [WaiterOk, hpc] at hok
    omega

theorem Inv.closing_goto (h : Inv s) (hpc : (s.waiter t).pc.closes = true) (pc : Pc)
    (u : Fin threadCount.toNat) (hu : ((s.goto t pc).waiter u).pc.closes = true)
    (v : Fin threadCount.toNat)
    : ((s.goto t pc).waiter v).arrived = s.completed + 1
      ∧ (v ≠ u → ((s.goto t pc).waiter v).pc.closes = false) := by
  have heq : u = t := by
    by_contra hne
    simp [goto, hne, (h.closing t hpc u).2 hne] at hu
  subst heq
  obtain ⟨harrived, hcloses⟩ := h.closing u hpc v
  by_cases hv : v = u
  . subst hv
    simpa [goto] using harrived
  . simpa [goto, hv] using ⟨harrived, hcloses hv⟩

theorem Inv.finalized_of_closes (h : Inv s) (hpc : (s.waiter t).pc.closes = true)
    (hadvancing : ∀ r, (s.waiter t).pc ≠ .advancing r) : s.finalized.length = s.completed := by
  refine h.finalized_of_not_advancing ?_
  intro u r hu
  by_cases hut : u = t
  . subst hut
    exact hadvancing r hu
  . obtain ⟨prevRound, hspinning⟩ := h.spinning hpc hut
    simp [hspinning] at hu

theorem resultOf_append {finalized : List (Fin threadCount.toNat × Bool)} {k : Nat} {r : Bool}
    (h : resultOf finalized t k = some r) (xs : List (Fin threadCount.toNat × Bool))
    : resultOf (finalized ++ xs) t k = some r := by
  simp only [resultOf, Option.map_eq_some_iff] at *
  obtain ⟨entry, hentry, hr⟩ := h
  have hk := (List.getElem?_eq_some_iff.mp hentry).1
  exact ⟨entry, by rw [List.getElem?_append_left hk, hentry], hr⟩

theorem Inv.reset_cntr (h : Inv s) (hpc : (s.waiter t).pc = .last)
    : Inv { s.goto t .finalizing with cntr := threadCount } := by
  have hcloses : (s.waiter t).pc.closes = true := by simp [hpc, Pc.closes]
  refine ⟨h.round, ?_, ?_, h.closing_goto hcloses .finalizing, ?_, fun _ _ _ => rfl,
    .inl (h.finalized_of_closes hcloses (by simp [hpc]))⟩
  . intro u
    have hok := h.waiter u
    by_cases hu : u = t
    . subst hu
      simpa [goto, WaiterOk, hpc] using hok
    . simpa [goto, hu] using hok
  . intro u
    by_cases hu : u = t
    . subst hu
      simpa [goto] using h.results u
    . simpa [goto, hu] using h.results u
  . intro hnone
    have hcloses := hnone t
    simp [goto, Pc.closes] at hcloses

theorem Inv.finalize (h : Inv s) (hpc : (s.waiter t).pc = .finalizing) (r : Bool)
    : Inv { s.goto t (.advancing r) with finalized := s.finalized ++ [(t, r)] } := by
  have hcloses : (s.waiter t).pc.closes = true := by simp [hpc, Pc.closes]
  have hlength := h.finalized_of_closes hcloses (by simp [hpc])
  refine ⟨h.round, ?_, ?_, h.closing_goto hcloses (.advancing r), ?_, ?_, .inr ⟨?_, t, r, ?_⟩⟩
  . intro u
    have hok := h.waiter u
    by_cases hu : u = t
    . subst hu
      simp only [WaiterOk, hpc] at hok
      simp [goto, WaiterOk, hok, resultOf, ← hlength]
    . obtain ⟨prevRound, hspinning⟩ := h.spinning hcloses hu
      have harrived := (h.closing t hcloses u).1
      simp only [WaiterOk, hspinning] at hok
      have hresults : (s.waiter u).results.length = s.finalized.length := by omega
      simpa [goto, hu, WaiterOk, hspinning, resultOf, hresults, Ne.symm hu] using hok
  . intro u k r' hk
    refine resultOf_append (h.results u k r' ?_) _
    by_cases hu : u = t
    . subst hu
      simpa [goto] using hk
    . simpa [goto, hu] using hk
  . intro hnone
    have hcloses := hnone t
    simp [goto, Pc.closes] at hcloses
  . intro _ _ _
    exact h.reset t r (.inl hpc)
  . simp [hlength, goto]
  . simp [goto]

theorem Inv.advance {r : Bool} (h : Inv s) (hpc : (s.waiter t).pc = .advancing r)
    : Inv { s.goto t (.returning r) with round := s.round + 1, completed := s.completed + 1 } := by
  have hcloses : (s.waiter t).pc.closes = true := by simp [hpc, Pc.closes]
  have hok := h.waiter t
  simp only [WaiterOk, hpc] at hok
  obtain ⟨hresults, harrived, hresult⟩ := hok
  have hnone : ∀ u, ((s.goto t (.returning r)).waiter u).pc.closes = false := by
    intro u
    by_cases hu : u = t
    . subst hu
      simp [goto, Pc.closes]
    . simpa [goto, hu] using (h.closing t hcloses u).2 hu
  have hlength : s.finalized.length = s.completed + 1 := by
    obtain hlength | ⟨hlength, _⟩ := h.finalized
    . simp [resultOf, ← hlength] at hresult
    . exact hlength
  refine ⟨?_, ?_, ?_, ?_, ?_, ?_, .inl hlength⟩
  . simp only [h.round, BitVec.ofNat_add]
    rfl
  . intro u
    by_cases hu : u = t
    . subst hu
      have hlast : (s.waiter u).results.length = s.completed := by omega
      simpa [goto, WaiterOk, hlast, harrived] using hresult
    . obtain ⟨prevRound, hspinning⟩ := h.spinning hcloses hu
      have harrived := (h.closing t hcloses u).1
      have hok := h.waiter u
      simp only [WaiterOk, hspinning] at hok
      simp only [goto, waiter_setWaiter_of_ne _ _ _ hu, WaiterOk, hspinning]
      exact ⟨hok.1, .inl harrived, hok.2.2⟩
  . intro u k r' hk
    refine h.results u k r' ?_
    by_cases hu : u = t
    . subst hu
      simpa [goto] using hk
    . simpa [goto, hu] using hk
  . intro u hu
    simp [hnone u] at hu
  . intro _
    have hpresent : present { s.goto t (.returning r) with
        round := s.round + 1, completed := s.completed + 1 } = ∅ := by
      ext u
      have harrived := (h.closing t hcloses u).1
      by_cases hu : u = t
      . subst hu
        simp [goto, harrived]
      . simp [goto, hu, harrived]
    rw [hpresent, Finset.card_empty]
    exact ⟨congrArg BitVec.toNat (h.reset t r (.inr hpc)), id⟩
  . intro _ _ _
    exact h.reset t r (.inr hpc)

end Closing

theorem inv_step {a : Action threadCount} (h : Inv s) (hstep : step s a = some s') : Inv s' := by
  have hok := h.waiter a.thread
  cases hpc : (s.waiter a.thread).pc with
  | outside =>
    simp only [step, hpc, Option.some.injEq] at hstep
    simp only [WaiterOk, hpc] at hok
    rw [← hstep]
    exact h.setWaiter hok.2 hok.2 hok (h.results a.thread) rfl
  | called =>
    simp only [step, hpc, Option.some.injEq] at hstep
    simp only [WaiterOk, hpc] at hok
    rw [← hstep]
    exact h.setWaiter hok.2 hok.2 ⟨hok.1, hok.2, h.round⟩ (h.results a.thread) rfl
  | loaded prevRound =>
    simp only [step, hpc, Option.some.injEq] at hstep
    rw [← hstep]
    by_cases hcntr : s.cntr = 1
    . rw [if_pos hcntr]
      exact h.arrive_last hpc hcntr
    . rw [if_neg hcntr]
      exact h.arrive_spinning hpc hcntr
  | last =>
    simp only [step, hpc, Option.some.injEq] at hstep
    rw [← hstep]
    exact h.reset_cntr hpc
  | finalizing =>
    simp only [step, hpc, Option.some.injEq] at hstep
    rw [← hstep]
    exact h.finalize hpc a.result
  | advancing r =>
    simp only [step, hpc, Option.some.injEq] at hstep
    rw [← hstep]
    exact h.advance hpc
  | spinning prevRound =>
    simp only [step, hpc] at hstep
    simp only [WaiterOk, hpc] at hok
    split at hstep
    . exact Option.some.inj hstep ▸ h
    . next hround =>
      obtain ⟨hresults, harrived, hprevRound, hfalse⟩ := hok
      have harrived : (s.waiter a.thread).arrived = s.completed := by
        refine harrived.resolve_right ?_
        intro harrived
        have hlength : (s.waiter a.thread).results.length = s.completed := by omega
        rw [hprevRound, h.round, hlength] at hround
        exact hround rfl
      have hlt : (s.waiter a.thread).results.length < s.finalized.length := by
        have hlength := h.finalized_of_not_closes (h.not_closes harrived)
        omega
      rw [← Option.some.inj hstep]
      refine h.setWaiter harrived harrived ⟨hresults, harrived, ?_⟩ (h.results a.thread) rfl
      have hsome : (resultOf s.finalized a.thread (s.waiter a.thread).results.length).isSome := by
        simp [resultOf, hlt]
      obtain ⟨r, hr⟩ := Option.isSome_iff_exists.mp hsome
      rw [hr, hfalse r hr]
  | returning r =>
    simp only [step, hpc, Option.some.injEq] at hstep
    simp only [WaiterOk, hpc] at hok
    rw [← hstep]
    refine h.setWaiter hok.2.1 hok.2.1 ⟨?_, hok.2.1⟩ ?_ rfl
    . simpa using hok.1
    . intro k r' hk
      rw [List.getElem?_append] at hk
      split at hk
      . exact h.results a.thread k r' hk
      . next hle =>
        simp only [List.getElem?_singleton, Option.ite_none_right_eq_some, Option.some.injEq] at hk
        obtain ⟨hzero, rfl⟩ := hk
        have hlast : k = (s.waiter a.thread).results.length := by omega
        rw [hlast]
        exact hok.2.2

theorem inv_of_reach {cond : Barrier threadCount → Action threadCount → Prop}
    (h : Step.Reach step cond created s) : Inv s :=
  h.invariant inv_created fun _ _ _ hinv _ hstep => inv_step hinv hstep

theorem Inv.arrived (h : Inv s) (t : Fin threadCount.toNat)
    : (s.waiter t).arrived = s.completed ∨ (s.waiter t).arrived = s.completed + 1 := by
  have hok := h.waiter t
  cases hpc : (s.waiter t).pc with
  | spinning prevRound =>
    simp only [WaiterOk, hpc] at hok
    exact hok.2.1
  | _ =>
    simp only [WaiterOk, hpc] at hok
    omega

theorem Inv.results_length (h : Inv s) (t : Fin threadCount.toNat)
    : (s.waiter t).results.length ≤ s.completed := by
  have hok := h.waiter t
  cases hpc : (s.waiter t).pc with
  | _ =>
    simp only [WaiterOk, hpc] at hok
    omega

theorem Inv.finalized_length (h : Inv s) (t : Fin threadCount.toNat)
    : s.completed ≤ s.finalized.length ∧ s.finalized.length ≤ (s.waiter t).arrived := by
  obtain hlength | ⟨hlength, u, r, hadvancing⟩ := h.finalized
  . have harrived := h.arrived t
    omega
  . have harrived := (h.closing u (by simp [hadvancing, Pc.closes]) t).1
    omega

theorem Inv.exists_of_results (h : Inv s) {k : Nat} {r : Bool}
    (hk : (s.waiter t).results[k]? = some r)
    : ∃ u r', s.finalized[k]? = some (u, r') ∧ r = if u = t then r' else false := by
  have hresult := h.results t k r hk
  simp only [resultOf, Option.map_eq_some_iff] at hresult
  obtain ⟨⟨u, r'⟩, hentry, hr⟩ := hresult
  exact ⟨u, r', hentry, hr.symm⟩

/-- The round that a thread has loaded is not reused while it spins, although the round wraps. -/
theorem Inv.round_ne (h : Inv s) {prevRound : BitVec 8} (hpc : (s.waiter t).pc = .spinning prevRound)
    (harrived : (s.waiter t).arrived ≤ s.completed) : s.round ≠ prevRound := by
  have hok := h.waiter t
  simp only [WaiterOk, hpc] at hok
  obtain ⟨hresults, _, hprevRound, _⟩ := hok
  intro hround
  rw [h.round, hprevRound] at hround
  have hmod := congrArg BitVec.toNat hround
  simp only [BitVec.toNat_ofNat] at hmod
  omega

theorem Inv.exists_awaited (h : Inv s) (hpc : (s.waiter t).pc = .spinning s.round)
    : ∃ u, (s.waiter u).pc ≠ .spinning s.round
      ∧ ((s.waiter u).pc.closes = true ∨ (s.waiter u).arrived < (s.waiter t).arrived) := by
  have harrived : (s.waiter t).arrived = s.completed + 1 := by
    refine (h.arrived t).resolve_left ?_
    intro harrived
    exact h.round_ne hpc harrived.le rfl
  by_cases hnone : ∀ u, (s.waiter u).pc.closes = false
  . have hlt := (h.cntr hnone).2 t.pos
    obtain ⟨u, hu⟩ : ∃ u, u ∉ s.present := by
      by_contra hall
      have huniv : s.present = Finset.univ := by
        ext u
        simpa using not_exists_not.mp hall u
      rw [huniv, Finset.card_univ, Fintype.card_fin] at hlt
      omega
    have harrived' := (h.arrived u).resolve_right (by simpa using hu)
    exact ⟨u, fun hpc' => h.round_ne hpc' harrived'.le rfl, .inr (by omega)⟩
  . obtain ⟨u, hu⟩ := not_forall.mp hnone
    have hcloses : (s.waiter u).pc.closes = true := by simpa using hu
    refine ⟨u, ?_, .inl hcloses⟩
    intro hpc'
    simp [hpc', Pc.closes] at hcloses

structure Sound (s : Barrier threadCount) : Prop where
  /-- The finalizer of a round runs after all threads have arrived, and before a thread returns. -/
  finalized : ∀ t : Fin threadCount.toNat, (s.waiter t).results.length ≤ s.finalized.length
    ∧ s.finalized.length ≤ (s.waiter t).arrived
  arrived : ∀ t u : Fin threadCount.toNat, (s.waiter t).results.length ≤ (s.waiter u).arrived
  /-- The thread that has run the finalizer returns its result, and the others return false. -/
  results : ∀ (t : Fin threadCount.toNat) (k : Nat) (r : Bool), (s.waiter t).results[k]? = some r
    → ∃ u r', s.finalized[k]? = some (u, r') ∧ r = if u = t then r' else false
  /-- When its round is over, a thread does not go on spinning. -/
  spinning : ∀ (t : Fin threadCount.toNat) (prevRound : BitVec 8),
    (s.waiter t).pc = .spinning prevRound → (s.waiter t).arrived ≤ s.completed → s.round ≠ prevRound
  /-- While a thread spins, one that does not is still to arrive, or completes the round. -/
  awaited : ∀ t : Fin threadCount.toNat, (s.waiter t).pc = .spinning s.round
    → ∃ u, (s.waiter u).pc ≠ .spinning s.round
      ∧ ((s.waiter u).pc.closes = true ∨ (s.waiter u).arrived < (s.waiter t).arrived)

theorem barrier_sound (h : Step.Reach step Step.any (created : Barrier threadCount) s)
    : Sound s where
  finalized := fun t =>
    ⟨((inv_of_reach h).results_length t).trans ((inv_of_reach h).finalized_length t).1,
      ((inv_of_reach h).finalized_length t).2⟩
  arrived := fun t u =>
    ((inv_of_reach h).results_length t).trans
      (((inv_of_reach h).finalized_length u).1.trans ((inv_of_reach h).finalized_length u).2)
  results := fun _ _ _ hk => (inv_of_reach h).exists_of_results hk
  spinning := fun _ _ hpc harrived => (inv_of_reach h).round_ne hpc harrived
  awaited := fun _ hpc => (inv_of_reach h).exists_awaited hpc

section ReentryRun

def stepsOf (t : Fin (2 : BitVec 64).toNat) (results : List Bool) : List (Action 2) :=
  results.map fun r => { thread := t, result := r }

/-- The second thread completes the round and calls `wait` again while the first one still spins. -/
def reentryRun : List (Action 2) :=
  stepsOf ⟨0, by decide⟩ [false, false, false]
    ++ stepsOf ⟨1, by decide⟩ [false, false, false, false, true, false, false, false, false, false]
    ++ stepsOf ⟨0, by decide⟩ [false, false]

def reentered (s : Barrier 2) : Prop :=
  s.finalized = [(⟨1, by decide⟩, true)] ∧ (s.waiter ⟨0, by decide⟩).results = [false]
    ∧ (s.waiter ⟨1, by decide⟩).pc = .spinning s.round

instance : DecidablePred reentered :=
  fun s => inferInstanceAs (Decidable (s.finalized = _ ∧ (s.waiter _).results = _ ∧ (s.waiter _).pc = _))

theorem barrier_sound_reentryRun : ∃ s : Barrier 2, reentered s ∧ Sound s := by
  obtain ⟨s, hreach, hs⟩ := Step.exists_reach_of_run
    (show (Step.run step created reentryRun).any (fun s => reentered s) = true by decide +kernel)
  exact ⟨s, by simpa using hs, barrier_sound hreach⟩

end ReentryRun

end Barrier
end Concurrency
