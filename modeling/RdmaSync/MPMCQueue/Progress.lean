import RdmaSync.MPMCQueue.Linearizable

/-!
This module contains what is left when no thread can go on: nothing between calls but the elements,
and within calls only pops of an empty queue or pushes to a full one.
-/

namespace MPMCQueue

open Threads Refinement

variable {P α : Type} {c : Config}

namespace Queue

structure Contains (s : Queue P α c) (l : List α) : Prop where
  length_le : l.length ≤ c.capacity.toNat
  head : s.head.toNat = s.tail.toNat + l.length
  slot : ∀ k (_ : k < l.length),
    (s.slot (c.idx (s.tail + BitVec.ofNat 64 k))).storage = some l[k]
  only : ∀ i, i < c.capacity → (s.slot i).storage.isSome →
    ∃ k, k < l.length ∧ c.idx (s.tail + BitVec.ofNat 64 k) = i
  /-- The destructor of a slot destroys its object if there is one. -/
  destroys : ∀ i, (s.slot i).turn.getLsbD 0 = (s.slot i).storage.isSome

/-- A thread that has a ticket and would find that its turn has not come. -/
def Blocked (s : Queue P α c) (t : P) : Prop :=
  ∃ r i, s.pc t = .spinning r i ∧ r.ready c i ≠ (s.slot (c.idx i)).turn

variable {s : Queue P α c} {pushed : List α} {t u : P} {i k : BitVec 64} {side : Side}

namespace Inv

theorem le_of_not_owns (h : s.Inv pushed) (side : Side) (hnone : ∀ t i, ¬s.batons.Owns t i)
    (hturn : (s.slot (c.idx k)).turn.toNat = c.level side k) : s.counter side ≤ k := by
  apply Nat.le_of_not_lt
  intro hlt
  obtain ⟨t, howns⟩ := h.batons.exists_owner (c := c.idx k) ⟨side, k, hlt, by
    show c.place side k = (c.idx k, (s.slot (c.idx k)).turn.toNat)
    rw [hturn]
    rfl⟩
  exact hnone t _ howns

theorem storage_of_not_works (h : s.Inv pushed) (hnone : ∀ t i, ¬s.batons.Owns t i)
    (i : BitVec 64) : (s.slot i).storage = c.stored pushed i (s.slot i).turn.toNat := by
  apply h.storage
  intro t hworks
  exact hnone t i (h.owns (Pc.accesses_of_works hworks))

theorem isSome_storage_iff (h : s.Inv pushed) (hnone : ∀ t i, ¬s.batons.Owns t i) (i : BitVec 64)
    : (s.slot i).storage.isSome ↔ (s.slot i).turn.toNat % 2 ≠ 0 := by
  rw [h.storage_of_not_works hnone]
  unfold Config.stored
  split
  . next heven => simp [heven]
  . next hodd => simp [hodd, h.index_lt hodd]

theorem exists_pop_ticket (h : s.Inv pushed) (hnone : ∀ t i, ¬s.batons.Owns t i)
    (hi : i < c.capacity) (hodd : (s.slot i).turn.toNat % 2 ≠ 0)
    : ∃ k, c.idx k = i ∧ s.tail ≤ k ∧ k < s.head := by
  have hindex := h.index_lt hodd
  rw [h.length] at hindex
  have hk : (BitVec.ofNat 64 ((s.slot i).turn.toNat / 2 * c.capacity.toNat + i.toNat)).toNat
      = (s.slot i).turn.toNat / 2 * c.capacity.toNat + i.toNat := by
    rw [BitVec.toNat_ofNat, Nat.mod_eq_of_lt (Nat.lt_trans hindex s.head.isLt)]
  obtain ⟨hidx, hlevel⟩ := Prod.mk.inj (c.place_of_odd hk hi hodd)
  refine ⟨_, hidx, ?_, ?_⟩
  . apply h.le_of_not_owns .pop hnone
    rw [hidx, hlevel]
  . rw [BitVec.lt_def, hk]
    exact hindex

theorem not_owns_of_stuck (h : s.Inv pushed) (hstuck : ∀ t, s.pc t = .idle ∨ s.Blocked t) (t : P)
    (i : BitVec 64) : ¬s.batons.Owns t i := by
  intro howns
  have hticket : (s.pc t).ticket.map _ = some (i, (s.slot i).turn.toNat) := howns
  obtain hpc | ⟨r, k, hpc, hready⟩ := hstuck t
  . rw [hpc] at hticket
    simp [Pc.ticket] at hticket
  . have hlt : k < s.counter r.side := h.ticket_lt (t := t) (by rw [hpc]; rfl)
    have hbound := h.bound r.side
    rw [BitVec.lt_def] at hlt
    rw [hpc] at hticket
    obtain ⟨hidx, hlevel⟩ := Prod.mk.inj (Option.some.inj hticket)
    rw [Ne, c.ready_eq_iff r (by omega), hidx] at hready
    exact hready hlevel.symm

theorem exists_untaken (h : s.Inv pushed) (hnone : ∀ t i, ¬s.batons.Owns t i)
    (hle : (s.slot (c.idx k)).turn.toNat ≤ c.level side k)
    : ∃ side' k', c.idx k' = c.idx k ∧ (s.slot (c.idx k)).turn.toNat = c.level side' k' ∧
        s.counter side' ≤ k' ∧ k' ≤ k := by
  obtain ⟨side', k', hplace, hk⟩ := c.exists_place hle
  obtain ⟨hidx, hlevel⟩ := Prod.mk.inj hplace
  refine ⟨side', k', hidx, hlevel.symm, h.le_of_not_owns side' hnone ?_, hk⟩
  rw [hidx, hlevel]

theorem turn_lt_of_blocked {r : Request α} (h : s.Inv pushed) (hblocked : s.Blocked t)
    (hpc : s.pc t = .spinning r k)
    : k < s.counter r.side ∧ (s.slot (c.idx k)).turn.toNat < c.level r.side k := by
  obtain ⟨r', k', hpc', hready⟩ := hblocked
  rw [hpc] at hpc'
  obtain ⟨rfl, rfl⟩ := Pc.spinning.inj hpc'
  have hlt : k < s.counter r.side := h.ticket_lt (t := t) (by rw [hpc]; rfl)
  have hbound := h.bound r.side
  rw [BitVec.lt_def] at hlt
  rw [Ne, c.ready_eq_iff r (by omega)] at hready
  have hle : (s.slot (c.idx k)).turn.toNat ≤ c.level r.side k := by
    apply h.batons.turn_le (t := t)
    show (s.pc t).ticket.map _ = _
    rw [hpc]
    rfl
  exact ⟨hlt, by omega⟩

/-- A consumer is only blocked if more elements have been asked for than pushed. -/
theorem lt_of_blocked_pop (h : s.Inv pushed) (hnone : ∀ t i, ¬s.batons.Owns t i)
    (hblocked : s.Blocked t) (hpc : s.pc t = .spinning .pop k) : s.head.toNat < s.tail.toNat := by
  obtain ⟨hk, hlt⟩ := h.turn_lt_of_blocked hblocked hpc
  obtain ⟨side, k', _, _, huntaken, hle⟩ := h.exists_untaken hnone (Nat.le_of_lt hlt)
  rw [BitVec.lt_def] at hk
  rw [BitVec.le_def] at huntaken hle
  have htail : (s.counter Side.pop).toNat = s.tail.toNat := rfl
  cases side with
  | push =>
    have hhead : (s.counter Side.push).toNat = s.head.toNat := rfl
    simp only [Request.side] at hk
    omega
  | pop =>
    simp only [Request.side] at hk
    omega

/-- A producer is only blocked if the elements that have not been asked for fill the array. -/
theorem lt_of_blocked_push {v : α} (h : s.Inv pushed) (hnone : ∀ t i, ¬s.batons.Owns t i)
    (hblocked : s.Blocked t) (hpc : s.pc t = .spinning (.push v) k)
    : s.tail.toNat + c.capacity.toNat < s.head.toNat := by
  obtain ⟨hk, hlt⟩ := h.turn_lt_of_blocked hblocked hpc
  obtain ⟨side, k', hidx, hlevel, huntaken, hle⟩ := h.exists_untaken hnone (Nat.le_of_lt hlt)
  rw [BitVec.lt_def] at hk
  rw [BitVec.le_def] at huntaken hle
  rw [hlevel] at hlt
  have hhead : (s.counter Side.push).toNat = s.head.toNat := rfl
  simp only [Request.side] at hk hlt
  cases side with
  | push => omega
  | pop =>
    have htail : (s.counter Side.pop).toNat = s.tail.toNat := rfl
    have hround := c.add_capacity_le hidx hlt
    omega

theorem odd_of_full (h : s.Inv pushed) (hnone : ∀ t i, ¬s.batons.Owns t i)
    (hfull : s.tail.toNat + c.capacity.toNat < s.head.toNat) (hi : i < c.capacity)
    : (s.slot i).turn.toNat % 2 ≠ 0 := by
  intro heven
  have hidx : c.idx i = i := c.idx_of_lt hi
  rw [BitVec.lt_def] at hi
  have hpush (k : BitVec 64) : c.level .push k = 2 * (c.turn k).toNat := rfl
  have hpop (k : BitVec 64) : c.level .pop k = 2 * (c.turn k).toNat + 1 := rfl
  by_cases hzero : (s.slot i).turn.toNat = 0
  . -- It waits for the first push to it.
    have hlevel : c.level .push i = 0 := by
      rw [hpush, c.toNat_turn, Nat.div_eq_of_lt hi]
    have hle : s.counter .push ≤ i := h.le_of_not_owns .push hnone (by rw [hidx, hzero, hlevel])
    rw [BitVec.le_def] at hle
    have hhead : (s.counter Side.push).toNat = s.head.toNat := rfl
    omega
  . -- It waits for the push one round after the pop that has emptied it.
    have hlt : (s.slot i).turn.toNat - 1 < s.batons.turn i := by
      show _ < (s.slot i).turn.toNat
      omega
    obtain ⟨side, k, hk, hplace⟩ := h.batons.issued_of_lt hlt
    obtain ⟨rfl, hlevel⟩ := Prod.mk.inj hplace
    rw [BitVec.lt_def] at hk
    cases side with
    | push =>
      rw [hpush] at hlevel
      omega
    | pop =>
      have htail : (s.counter Side.pop).toNat = s.tail.toNat := rfl
      have hhead : (s.counter Side.push).toNat = s.head.toNat := rfl
      have hisLt := s.head.isLt
      have hadd : (k + c.capacity).toNat = k.toNat + c.capacity.toNat := by
        rw [BitVec.toNat_add]
        omega
      obtain ⟨_, hsub, hnext⟩ := c.level_sub (i := k + c.capacity) (by omega)
      rw [BitVec.add_sub_cancel] at hsub hnext
      have hle : s.counter .push ≤ k + c.capacity := h.le_of_not_owns .push hnone (by
        rw [← hsub, ← hnext]
        omega)
      rw [BitVec.le_def] at hle
      omega

variable (hidle : ∀ t, (s.pc t).ticket = none)

include hidle in
theorem lt_turn (h : s.Inv pushed) (side : Side) (hk : k < s.counter side)
    : c.level side k < (s.slot (c.idx k)).turn.toNat := by
  apply Nat.lt_of_not_le
  intro hle
  obtain ⟨u, hticket⟩ := h.exists_ticket side hk hle
  rw [hidle u] at hticket
  simp at hticket

include hidle in
theorem not_owns (t : P) (i : BitVec 64) : ¬s.batons.Owns t i := by
  intro howns
  have hticket : (s.pc t).ticket.map _ = some (i, (s.slot i).turn.toNat) := howns
  rw [hidle t] at hticket
  simp at hticket

include hidle in
theorem contains (h : s.Inv pushed) : s.Contains (pushed.drop s.tail.toNat) := by
  have hlength := h.length
  have hbound : s.head.toNat < 2 ^ 63 := h.bound .push
  have hle : s.tail ≤ s.head := by
    apply Nat.le_of_not_lt
    intro hlt
    obtain ⟨u, hu⟩ := exists_waiting h hlt
    have := hidle u
    rw [hu] at this
    simp [Pc.ticket] at this
  rw [BitVec.le_def] at hle
  have htoNat {j : Nat} (hj : j < (pushed.drop s.tail.toNat).length)
      : (s.tail + BitVec.ofNat 64 j).toNat = s.tail.toNat + j := by
    rw [List.length_drop] at hj
    rw [BitVec.toNat_add, BitVec.toNat_ofNat]
    omega
  refine ⟨?_, ?_, ?_, ?_, ?_⟩
  . -- The last push has found its slot emptied by the pop one round before.
    rw [List.length_drop]
    apply Nat.le_of_not_lt
    intro hfull
    have hlast : (s.head - 1).toNat = s.head.toNat - 1 := Helper.toNat_sub_one (by omega)
    have hlt := h.lt_turn hidle .push (k := s.head - 1) (by
      show (s.head - 1).toNat < s.head.toNat
      omega)
    obtain ⟨hsub, hidx, hlevel⟩ := c.level_sub (i := s.head - 1) (by omega)
    have hpop := h.turn_le .pop (k := s.head - 1 - c.capacity) (by
      show s.tail.toNat ≤ _
      omega)
    rw [hidx] at hpop
    omega
  . rw [List.length_drop]
    omega
  . intro j hj
    have hk := htoNat hj
    have hindex : (s.tail + BitVec.ofNat 64 j).toNat < pushed.length := by
      rw [List.length_drop] at hj
      omega
    have hlt := h.lt_turn hidle .push (k := s.tail + BitVec.ofNat 64 j) (by
      show _ < s.head.toNat
      omega)
    have hpop := h.turn_le .pop (k := s.tail + BitVec.ofNat 64 j) (by
      show s.tail.toNat ≤ _
      omega)
    have hlevel (k : BitVec 64) : c.level .pop k = c.level .push k + 1 := rfl
    have hturn : s.HasTurn .pop (s.tail + BitVec.ofNat 64 j) := by
      rw [HasTurn, hlevel] at *
      omega
    rw [h.storage_of_not_works (not_owns hidle), hturn, c.stored_pop,
      List.getElem?_eq_getElem hindex, List.getElem_drop]
    simp only [hk]
  . intro i hi hsome
    obtain ⟨k, hidx, htail, hhead⟩ := h.exists_pop_ticket (not_owns hidle) hi
      ((h.isSome_storage_iff (not_owns hidle) i).mp hsome)
    rw [BitVec.le_def] at htail
    rw [BitVec.lt_def] at hhead
    have hlt : k.toNat - s.tail.toNat < (pushed.drop s.tail.toNat).length := by
      rw [List.length_drop]
      omega
    refine ⟨k.toNat - s.tail.toNat, hlt, ?_⟩
    rw [← hidx]
    congr 1
    apply BitVec.eq_of_toNat_eq
    rw [htoNat hlt]
    omega
  . intro i
    rw [Bool.eq_iff_iff, h.isSome_storage_iff (not_owns hidle), BitVec.getLsbD, Nat.testBit_zero,
      decide_eq_true_eq]
    omega

end Inv

variable [DecidableEq P]

/-- Between calls, the queue contains what the atomic queue contains after the same history. -/
theorem contains_of_idle {tr : List (Event P α)} (h : (system P α c).Trace created tr s)
    (hidle : ∀ t, s.pc t = .idle)
    : ∃ a, (FifoStep c.capacity.toNat).Trace Fifo.created tr a ∧ s.Contains a.queue := by
  obtain ⟨a, htrace, pushed, hinv, hmatches⟩ :=
    system_simulates.trace h ⟨[], inv_created, matches_created⟩
  refine ⟨a, htrace, ?_⟩
  rw [hmatches.queue]
  apply hinv.contains
  intro t
  rw [hidle t]
  rfl

/-- Two elements have been pushed, and the first one popped. -/
theorem contains_runOf : ∃ (s : Queue Bool Nat .two) (a : Fifo Bool Nat), s.tail = 1 ∧
    s.Contains a.queue ∧ ∃ tr, (FifoStep 2).Trace Fifo.created tr a := by
  obtain ⟨tr, s, htrace, hs⟩ := exists_trace_of_runIf (s := created)
    (show (Step.runIf step _ (created : Queue Bool Nat .two)
      (runOf [(false, emplace 5, 5), (false, emplace 6, 5), (true, tryPop, 7)])).any
        (fun s => s.tail = 1 ∧ ∀ t, s.pc t = .idle) = true by decide +kernel)
  simp only [decide_eq_true_eq] at hs
  obtain ⟨a, htrace', hcontains⟩ := contains_of_idle htrace hs.2
  exact ⟨s, a, hs.1, hcontains, tr, htrace'⟩

/-- If all threads in calls are blocked, they are all consumers of an empty queue or all producers of
a full one. -/
theorem blocked_of_stuck {tr : List (Event P α)} (h : (system P α c).Trace created tr s)
    (hstuck : ∀ t, s.pc t = .idle ∨ s.Blocked t)
    : (∀ t, s.pc t = .idle) ∨
        ((∀ t, s.Blocked t → ∃ i, s.pc t = .spinning .pop i) ∧
          ∀ i, i < c.capacity → (s.slot i).storage = none) ∨
        ((∀ t, s.Blocked t → ∃ v i, s.pc t = .spinning (.push v) i) ∧
          ∀ i, i < c.capacity → (s.slot i).storage.isSome) := by
  obtain ⟨pushed, hinv⟩ := exists_inv_of_trace h
  have hnone := hinv.not_owns_of_stuck hstuck
  by_cases hpop : ∃ t k, s.Blocked t ∧ s.pc t = .spinning .pop k
  . obtain ⟨t, k, hblocked, hpc⟩ := hpop
    have hlt := hinv.lt_of_blocked_pop hnone hblocked hpc
    refine .inr (.inl ⟨?_, ?_⟩)
    . rintro u ⟨r, j, hu, hready⟩
      cases r with
      | push v =>
        have hfull := hinv.lt_of_blocked_push hnone ⟨_, j, hu, hready⟩ hu
        omega
      | pop => exact ⟨j, hu⟩
    . intro i hi
      rw [← Option.not_isSome_iff_eq_none, hinv.isSome_storage_iff hnone]
      intro hodd
      obtain ⟨j, _, htail, hhead⟩ := hinv.exists_pop_ticket hnone hi hodd
      rw [BitVec.le_def] at htail
      rw [BitVec.lt_def] at hhead
      omega
  by_cases hpush : ∃ t v k, s.Blocked t ∧ s.pc t = .spinning (.push v) k
  . obtain ⟨t, v, k, hblocked, hpc⟩ := hpush
    have hfull := hinv.lt_of_blocked_push hnone hblocked hpc
    refine .inr (.inr ⟨?_, ?_⟩)
    . rintro u ⟨r, j, hu, hready⟩
      cases r with
      | push v => exact ⟨v, j, hu⟩
      | pop => exact absurd ⟨u, j, ⟨_, j, hu, hready⟩, hu⟩ hpop
    . intro i hi
      rw [hinv.isSome_storage_iff hnone]
      exact hinv.odd_of_full hnone hfull hi
  . left
    intro t
    obtain hidle | ⟨r, k, hpc, hready⟩ := hstuck t
    . exact hidle
    . cases r with
      | push v => exact absurd ⟨t, v, k, ⟨_, k, hpc, hready⟩, hpc⟩ hpush
      | pop => exact absurd ⟨t, k, ⟨_, k, hpc, hready⟩, hpc⟩ hpop

theorem blocked_runOf : ∃ s : Queue Bool Nat .two, s.Blocked true ∧
    ∀ i, i < 2 → (s.slot i).storage = none := by
  obtain ⟨tr, s, htrace, hs⟩ := exists_trace_of_runIf (s := created)
    (show (Step.runIf step _ (created : Queue Bool Nat .two) (runOf [(true, pop, 4)])).any
      (fun s => s.pc false = .idle ∧ s.pc true = .spinning .pop 0 ∧ (s.slot 0).turn = 0) = true by
        decide +kernel)
  simp only [decide_eq_true_eq] at hs
  obtain ⟨hfalse, htrue, hturn⟩ := hs
  have hblocked : s.Blocked true := by
    refine ⟨.pop, 0, htrue, ?_⟩
    show _ ≠ (s.slot 0).turn
    rw [hturn]
    decide
  obtain hidle | ⟨_, hempty⟩ | ⟨hpush, _⟩ := blocked_of_stuck htrace fun t => by
    cases t with
    | false => exact .inl hfalse
    | true => exact .inr hblocked
  . simp [hidle true] at htrue
  . exact ⟨s, hblocked, hempty⟩
  . obtain ⟨v, i, hpc⟩ := hpush true hblocked
    simp [hpc] at htrue

end Queue
end MPMCQueue
