import RdmaSync.MPMCQueue.Sound

/-!
This module contains the queue in which every call takes effect at once, and the proof that whatever
can be seen of the slots and their tickets can be seen of this queue.
-/

namespace MPMCQueue

open Threads Refinement

variable {P α : Type} {c : Config}

inductive Status (α : Type) where
  | idle
  /-- The call has not taken effect; it may fail if there was a reason for it at some moment. -/
  | called (call : Call α) (mayFail : Bool)
  /-- The call has taken effect. -/
  | done (res : Result α)

structure Fifo (P α : Type) where
  queue : List α
  status : P → Status α

namespace Fifo

def created : Fifo P α where
  queue := []
  status := fun _ => .idle

/--
Why a call that gives up may fail: for a push that the queue is full or that a pop is still under way,
for a pop that the queue is empty or that a push is still under way.
-/
def Refuses (n : Nat) (a : Fifo P α) (r : Request α) : Prop :=
  match r with
  | .push _ => n ≤ a.queue.length ∨ ∃ u v, a.status u = .done (.popped v)
  | .pop => a.queue = [] ∨ ∃ u, a.status u = .done .pushed

variable [DecidableEq P]

def set (a : Fifo P α) (t : P) (status : Status α) : Fifo P α :=
  { a with status := Function.update a.status t status }

end Fifo

/-- The atomic queue. A push may always take effect: `n` only says when it may give up. -/
inductive FifoStep [DecidableEq P] (n : Nat) : Emitting (Event P α) (Fifo P α) where
  | call {a : Fifo P α} (t : P) (call : Call α) (h : a.status t = .idle)
    : FifoStep n a (some (.call t call)) (a.set t (.called call false))
  | push {a : Fifo P α} (t : P) (v : α) (tries mayFail : Bool)
    (h : a.status t = .called ⟨.push v, tries⟩ mayFail)
    : FifoStep n a none { a.set t (.done .pushed) with queue := a.queue ++ [v] }
  | pop {a : Fifo P α} (t : P) (v : α) (l : List α) (tries mayFail : Bool)
    (h : a.status t = .called ⟨.pop, tries⟩ mayFail) (hqueue : a.queue = v :: l)
    : FifoStep n a none { a.set t (.done (.popped v)) with queue := l }
  | notice {a : Fifo P α} (t : P) (r : Request α) (mayFail : Bool)
    (h : a.status t = .called ⟨r, true⟩ mayFail) (hrefuses : a.Refuses n r)
    : FifoStep n a none (a.set t (.called ⟨r, true⟩ true))
  | fail {a : Fifo P α} (t : P) (r : Request α) (h : a.status t = .called ⟨r, true⟩ true)
    : FifoStep n a none (a.set t (.done .failed))
  | ret {a : Fifo P α} (t : P) (res : Result α) (h : a.status t = .done res)
    : FifoStep n a (some (.ret t res)) (a.set t .idle)

namespace Fifo

variable [DecidableEq P]

@[simp]
theorem status_set (a : Fifo P α) (t u : P) (status : Status α)
    : (a.set t status).status u = if u = t then status else a.status u := by
  by_cases h : u = t <;> simp [set, h]

@[simp]
theorem queue_set (a : Fifo P α) (t : P) (status : Status α)
    : (a.set t status).queue = a.queue := by
  rfl

theorem set_status (a : Fifo P α) (t : P) : a.set t (a.status t) = a := by
  simp [set]

end Fifo

namespace Queue

def StatusOk (s : Queue P α c) (pushed : List α) (pc : Pc α) (status : Status α) : Prop :=
  match pc with
  | .idle => status = .idle
  | .called call => status = .called call false
  | .testing r _ | .exchanging r _ => ∃ mayFail, status = .called ⟨r, true⟩ mayFail
  | .reloading r i =>
    ∃ mayFail, status = .called ⟨r, true⟩ mayFail ∧ (i = s.counter r.side → mayFail = true)
  | .spinning (.push _) _ | .constructing _ _ | .filling _ _ => status = .done .pushed
  | .spinning .pop i =>
    match pushed[i.toNat]? with
    | some v => status = .done (.popped v)
    | none => status = .called ⟨.pop, false⟩ false
  | .moving i => ∃ v, pushed[i.toNat]? = some v ∧ status = .done (.popped v)
  | .destroying v _ | .emptying v _ => status = .done (.popped v)
  | .returned res => status = .done res
  | .undefined => False

/-- The elements that have been pushed and for which there is no pop. -/
structure Matches (s : Queue P α c) (pushed : List α) (a : Fifo P α) : Prop where
  queue : a.queue = pushed.drop s.tail.toNat
  status : ∀ t, s.StatusOk pushed (s.pc t) (a.status t)

variable {s s' : Queue P α c} {pushed : List α} {a : Fifo P α} {t u : P} {pc : Pc α}
  {i : BitVec 64} {side : Side} {st : Status α}

theorem StatusOk.congr (h : s.StatusOk pushed pc st)
    (hcounter : ∀ side, s'.counter side = s.counter side) : s'.StatusOk pushed pc st := by
  cases pc with
  | reloading r i => simpa only [StatusOk, hcounter] using h
  | spinning r i => cases r <;> exact h
  | _ => exact h

theorem StatusOk.advance {l : List α} (h : s.StatusOk pushed pc st) (side : Side)
    (hpc : s.PcOk pushed pc) (hlt : (s.counter side).toNat + 1 < 2 ^ 63)
    (hother : ∀ i, pc = .spinning .pop i → (pushed ++ l)[i.toNat]? = pushed[i.toNat]?)
    : (s.advance side).StatusOk (pushed ++ l) pc st := by
  cases pc with
  | reloading r i =>
    obtain ⟨mayFail, hstatus, hcounter⟩ := h
    refine ⟨mayFail, hstatus, ?_⟩
    rw [counter_advance]
    split
    . next heq =>
      rintro rfl
      have hone : (1 : BitVec 64).toNat = 1 := rfl
      have hle : s.counter r.side + 1 ≤ s.counter r.side := hpc
      rw [BitVec.le_def, BitVec.toNat_add, hone, heq] at hle
      omega
    . exact hcounter
  | spinning r i =>
    cases r with
    | push v => exact h
    | pop => simpa only [StatusOk, hother i rfl] using h
  | moving i =>
    obtain ⟨v, hv, hstatus⟩ := h
    refine ⟨v, ?_, hstatus⟩
    rw [List.getElem?_append_left (List.getElem?_eq_some_iff.mp hv).1, hv]
  | _ => exact h

variable [DecidableEq P]

theorem StatusOk.advance_pop (h : s.StatusOk pushed pc st) (hpc : s.PcOk pushed pc)
    (hlt : s.tail.toNat + 1 < 2 ^ 63) (t : P) (pc' : Pc α)
    : ((s.advance .pop).goto t pc').StatusOk pushed pc st := by
  have hadvance := h.advance .pop hpc hlt (l := []) (by simp)
  rw [List.append_nil] at hadvance
  exact hadvance.congr (by simp)

theorem Matches.update (h : s.Matches pushed a)
    (hcounter : ∀ side, s'.counter side = s.counter side)
    (hpcs : ∀ u, s'.pc u = if u = t then pc else s.pc u) (hstatus : s.StatusOk pushed pc st)
    : s'.Matches pushed (a.set t st) where
  queue := by
    have htail : s'.tail = s.tail := hcounter .pop
    rw [Fifo.queue_set, h.queue, htail]
  status := by
    intro u
    rw [hpcs, Fifo.status_set]
    split
    . exact hstatus.congr hcounter
    . exact (h.status u).congr hcounter

theorem Matches.keep (h : s.Matches pushed a)
    (hcounter : ∀ side, s'.counter side = s.counter side)
    (hpcs : ∀ u, s'.pc u = if u = t then pc else s.pc u)
    (hstatus : s.StatusOk pushed pc (a.status t)) : s'.Matches pushed a := by
  have hupdate := h.update hcounter hpcs hstatus
  rwa [Fifo.set_status] at hupdate

omit [DecidableEq P] in
theorem status_of_push (h : s.StatusOk pushed pc st) (hticket : pc.ticket = some (.push, i))
    : st = .done .pushed := by
  cases pc with
  | spinning r k =>
    cases r with
    | push => exact h
    | pop => simp [Pc.ticket, Request.side] at hticket
  | constructing | filling => exact h
  | _ => simp [Pc.ticket] at hticket

omit [DecidableEq P] in
theorem status_of_pop {v : α} (h : s.StatusOk pushed pc st) (hpc : s.PcOk pushed pc)
    (hticket : pc.ticket = some (.pop, i)) (hv : pushed[i.toNat]? = some v)
    : st = .done (.popped v) := by
  cases pc with
  | spinning r k =>
    cases r with
    | push => simp [Pc.ticket, Request.side] at hticket
    | pop =>
      obtain ⟨_, rfl⟩ := Prod.mk.inj (Option.some.inj hticket)
      simpa only [StatusOk, hv] using h
  | moving k =>
    obtain ⟨_, rfl⟩ := Prod.mk.inj (Option.some.inj hticket)
    obtain ⟨v', hv', hst⟩ := h
    rw [hst, Option.some.inj (hv.symm.trans hv')]
  | destroying v' k | emptying v' k =>
    obtain ⟨_, rfl⟩ := Prod.mk.inj (Option.some.inj hticket)
    have hst : st = .done (.popped v') := h
    rw [hst, Option.some.inj (hv.symm.trans hpc.1)]
  | _ => simp [Pc.ticket] at hticket

omit [DecidableEq P] in
/-- A pop waits for the next element that is pushed, if there are more pops than elements. -/
theorem exists_waiting (h : s.Inv pushed) (hlt : s.head < s.tail)
    : ∃ u, s.pc u = .spinning .pop s.head := by
  have hnext : (s.slot (c.idx s.head)).turn.toNat ≤ c.level .push s.head :=
    h.turn_le .push (BitVec.le_refl _)
  have hlevel : c.level .pop s.head = c.level .push s.head + 1 := rfl
  obtain ⟨u, hticket⟩ := h.exists_ticket .pop (k := s.head) hlt (by omega)
  refine ⟨u, ?_⟩
  -- It has not got its turn, since there is no element yet.
  have hturn (haccesses : (s.pc u).accesses c = some (c.idx s.head)) : False := by
    have hhas : (s.slot (c.idx s.head)).turn.toNat = _ := (h.pc u).hasTurn haccesses hticket
    omega
  cases hpc : s.pc u with
  | spinning r k =>
    rw [hpc] at hticket
    obtain ⟨hside, rfl⟩ := Prod.mk.inj (Option.some.inj hticket)
    cases r with
    | push => exact absurd hside (by simp [Request.side])
    | pop => rfl
  | moving k | destroying _ k | emptying _ k =>
    rw [hpc] at hticket hturn
    obtain ⟨_, rfl⟩ := Prod.mk.inj (Option.some.inj hticket)
    exact (hturn rfl).elim
  | constructing | filling =>
    rw [hpc] at hticket
    simp [Pc.ticket] at hticket
  | _ => simp [hpc, Pc.ticket] at hticket

variable {n : Nat}

theorem Matches.push {v : α} {tries mayFail : Bool} (h : s.Matches pushed a) (hinv : s.Inv pushed)
    (hlt : s.head.toNat + 1 < 2 ^ 63) (hidle : (s.pc t).ticket = none)
    (hcalled : a.status t = .called ⟨.push v, tries⟩ mayFail)
    (hpc : ((s.advance .push).goto t pc).StatusOk (pushed ++ [v]) pc (.done .pushed))
    : ∃ a', (FifoStep n).Trace a [] a' ∧
        ((s.advance .push).goto t pc).Matches (pushed ++ [v]) a' := by
  have hlength := hinv.length
  have htrace := Emitting.Trace.refl.silent (FifoStep.push (n := n) t v tries mayFail hcalled)
  have hgoto (u : P) : ((s.advance .push).goto t pc).pc u = if u = t then pc else s.pc u := by
    rw [pc_goto, pc_advance]
  have hother {w : P} (hadd : ∀ i, s.pc w = .spinning .pop i →
      (pushed ++ [v])[i.toNat]? = pushed[i.toNat]?)
      : ((s.advance .push).goto t pc).StatusOk (pushed ++ [v]) (s.pc w) (a.status w) := by
    apply ((h.status w).advance .push (hinv.pc w) hlt hadd).congr
    intro side
    rw [counter_goto]
  by_cases hwaits : s.head < s.tail
  . obtain ⟨u, hu⟩ := exists_waiting hinv hwaits
    have hne : u ≠ t := by
      rintro rfl
      rw [hu] at hidle
      simp [Pc.ticket] at hidle
    have hnone : pushed[s.head.toNat]? = none := List.getElem?_eq_none (Nat.le_of_eq hlength)
    have hempty : a.queue = [] := by
      rw [h.queue, List.drop_eq_nil_of_le (by rw [hlength]; exact Nat.le_of_lt hwaits)]
    have hstatus : a.status u = .called ⟨.pop, false⟩ false := by
      have hu' := h.status u
      rw [hu] at hu'
      simpa only [StatusOk, hnone] using hu'
    refine ⟨_, htrace.silent (FifoStep.pop u v [] false false ?_ ?_), ?_, ?_⟩
    . simpa [Fifo.set, hne] using hstatus
    . show a.queue ++ [v] = [v]
      rw [hempty, List.nil_append]
    . show [] = (pushed ++ [v]).drop s.tail.toNat
      rw [List.drop_eq_nil_of_le]
      rw [List.length_append, hlength]
      exact hwaits
    . intro w
      rw [hgoto]
      by_cases hwu : w = u
      . subst hwu
        rw [if_neg hne, hu]
        simp [StatusOk, Fifo.set, ← hlength]
      . by_cases hwt : w = t
        . subst hwt
          simpa [Fifo.set, hwu] using hpc
        . rw [if_neg hwt]
          have hw := hother (w := w) fun i hi => by
            have hi' : i.toNat ≠ pushed.length := by
              intro heq
              rw [hlength] at heq
              obtain rfl := BitVec.eq_of_toNat_eq heq
              exact hwu (hinv.ticket_unique (by rw [hi]; rfl) (by rw [hu]; rfl))
            rw [List.getElem?_append]
            split
            . rfl
            . rw [List.getElem?_eq_none (by simp; omega), List.getElem?_eq_none (by omega)]
          simpa [Fifo.set, hwu, hwt] using hw
  . have hle : s.tail.toNat ≤ pushed.length := by
      rw [hlength]
      exact Nat.le_of_not_lt hwaits
    refine ⟨_, htrace, ?_, ?_⟩
    . show a.queue ++ [v] = (pushed ++ [v]).drop s.tail.toNat
      rw [h.queue, List.drop_append_of_le_length hle]
    . intro w
      rw [hgoto]
      by_cases hwt : w = t
      . subst hwt
        simpa [Fifo.set] using hpc
      . rw [if_neg hwt]
        have hw := hother (w := w) fun i hi => by
          have hi' : i < s.counter .pop := hinv.ticket_lt (t := w) (by rw [hi]; rfl)
          rw [List.getElem?_append_left (Nat.lt_of_lt_of_le hi' hle)]
        simpa [Fifo.set, hwt] using hw

theorem Matches.pop {v : α} {tries mayFail : Bool} (h : s.Matches pushed a) (hinv : s.Inv pushed)
    (hlt : s.tail.toNat + 1 < 2 ^ 63) (hv : pushed[s.tail.toNat]? = some v)
    (hcalled : a.status t = .called ⟨.pop, tries⟩ mayFail)
    (hpc : ((s.advance .pop).goto t pc).StatusOk pushed pc (.done (.popped v)))
    : ∃ a', (FifoStep n).Trace a [] a' ∧ ((s.advance .pop).goto t pc).Matches pushed a' := by
  have hone : (1 : BitVec 64).toNat = 1 := rfl
  have hsucc : (s.tail + 1).toNat = s.tail.toNat + 1 := by
    rw [BitVec.toNat_add, hone]
    omega
  obtain ⟨hindex, hget⟩ := List.getElem?_eq_some_iff.mp hv
  have hqueue : a.queue = v :: pushed.drop (s.tail.toNat + 1) := by
    rw [h.queue, List.drop_eq_getElem_cons hindex, hget]
  refine ⟨_, Emitting.Trace.refl.silent (FifoStep.pop t v _ tries mayFail hcalled hqueue), ?_, ?_⟩
  . show pushed.drop (s.tail.toNat + 1) = pushed.drop (s.tail + 1).toNat
    rw [hsucc]
  . intro w
    rw [pc_goto, pc_advance]
    by_cases hwt : w = t
    . subst hwt
      simpa [Fifo.set] using hpc
    . rw [if_neg hwt]
      simpa [Fifo.set, hwt] using (h.status w).advance_pop (hinv.pc w) hlt t pc

/-- The step in which a pop takes a ticket for which there is no element yet. -/
theorem Matches.wait (h : s.Matches pushed a) (hinv : s.Inv pushed)
    (hlt : s.tail.toNat + 1 < 2 ^ 63) (hnone : pushed[s.tail.toNat]? = none)
    (hcalled : a.status t = .called ⟨.pop, false⟩ false)
    : ((s.advance .pop).goto t (.spinning .pop s.tail)).Matches pushed a where
  queue := by
    have hone : (1 : BitVec 64).toNat = 1 := rfl
    have hle := List.getElem?_eq_none_iff.mp hnone
    show a.queue = pushed.drop (s.tail + 1).toNat
    rw [h.queue, BitVec.toNat_add, hone, List.drop_eq_nil_of_le hle,
      List.drop_eq_nil_of_le (by omega)]
  status := by
    intro w
    rw [pc_goto, pc_advance]
    split
    . next hwt =>
      subst hwt
      simpa only [StatusOk, hnone] using hcalled
    . exact (h.status w).advance_pop (hinv.pc w) hlt t _

omit [DecidableEq P] in
theorem Matches.refuses {r : Request α} (h : s.Matches pushed a) (hinv : s.Inv pushed)
    (hturn : ¬s.HasTurn r.side (s.counter r.side)) : a.Refuses c.capacity.toNat r := by
  have hle := hinv.turn_le r.side (BitVec.le_refl _)
  have hne : (s.slot (c.idx (s.counter r.side))).turn.toNat ≠ c.level r.side (s.counter r.side) :=
    hturn
  have hlength := hinv.length
  cases r with
  | push v =>
    -- The pop one round before has not emptied the slot.
    change (s.slot (c.idx s.head)).turn.toNat ≤ c.level .push s.head at hle
    change (s.slot (c.idx s.head)).turn.toNat ≠ c.level .push s.head at hne
    have hround : c.capacity.toNat ≤ s.head.toNat := by
      have hlevel : c.level .push s.head = 2 * (s.head.toNat / c.capacity.toNat) := by
        rw [← c.toNat_turn]
        rfl
      apply Nat.le_of_not_lt
      intro hlt
      rw [hlevel, Nat.div_eq_of_lt hlt] at hle hne
      omega
    obtain ⟨hsub, hidx, hlevel⟩ := c.level_sub hround
    by_cases hfull : s.tail.toNat ≤ s.head.toNat - c.capacity.toNat
    . left
      rw [h.queue, List.length_drop, hlength]
      omega
    . right
      have hlt : s.head - c.capacity < s.tail := by
        rw [BitVec.lt_def, hsub]
        omega
      obtain ⟨u, hticket⟩ := hinv.exists_ticket .pop hlt (by rw [hidx]; omega)
      have hpos := c.capacity_pos
      have hindex : (s.head - c.capacity).toNat < pushed.length := by omega
      have hv := List.getElem?_eq_getElem hindex
      exact ⟨u, _, status_of_pop (h.status u) (hinv.pc u) hticket hv⟩
  | pop =>
    change (s.slot (c.idx s.tail)).turn.toNat ≤ c.level .pop s.tail at hle
    change (s.slot (c.idx s.tail)).turn.toNat ≠ c.level .pop s.tail at hne
    by_cases hempty : s.head.toNat ≤ s.tail.toNat
    . left
      rw [h.queue, List.drop_eq_nil_of_le (by omega)]
    . right
      have hlevel : c.level .pop s.tail = c.level .push s.tail + 1 := rfl
      have hlt : s.tail < s.head := Nat.lt_of_not_le hempty
      obtain ⟨u, hticket⟩ := hinv.exists_ticket .push hlt (by omega)
      exact ⟨u, status_of_push (h.status u) hticket⟩

theorem Matches.moves {e : Option (Event P α)} {l : List α} (h : s.Matches pushed a)
    (hinv : s.Inv pushed) (hfew : s.Few) (hmoves : s.Moves e l s')
    : ∃ a', (FifoStep c.capacity.toNat).Trace a e.toList a' ∧ s'.Matches (pushed ++ l) a' := by
  have hnil {s' : Queue P α c} {a : Fifo P α} (h : s'.Matches pushed a)
      : s'.Matches (pushed ++ []) a := by
    rwa [List.append_nil]
  -- Steps that the atomic queue does not take.
  have hkeep {s' : Queue P α c} {t : P} {pc : Pc α}
      (hcounter : ∀ side, s'.counter side = s.counter side)
      (hpcs : ∀ u, s'.pc u = if u = t then pc else s.pc u)
      (hstatus : s.StatusOk pushed pc (a.status t))
      : ∃ a', (FifoStep c.capacity.toNat).Trace a [] a' ∧ s'.Matches (pushed ++ []) a' :=
    ⟨a, .refl, hnil (h.keep hcounter hpcs hstatus)⟩
  have hgoto (t : P) (pc : Pc α) (u : P)
      : (s.goto t pc).pc u = if u = t then pc else s.pc u := pc_goto s t pc u
  have hsetSlot (t : P) (pc : Pc α) (i : BitVec 64) (x : Slot α) (u : P)
      : ((s.setSlot i x).goto t pc).pc u = if u = t then pc else s.pc u := by
    rw [pc_goto, pc_setSlot]
  have hstatus (t : P) := h.status t
  cases hmoves with
  | call t call hpc =>
    have ht := hstatus t
    rw [hpc] at ht
    exact ⟨_, .one (.call t call ht), hnil (h.update (by simp) (hgoto t _) rfl)⟩
  | start t r hpc =>
    have ht := hstatus t
    rw [hpc] at ht
    exact hkeep (by simp) (hgoto t _) ⟨false, ht⟩
  | take t r hpc =>
    have ht := hstatus t
    rw [hpc] at ht
    cases r with
    | push v => exact h.push hinv hfew.1 (by rw [hpc]; rfl) ht rfl
    | pop =>
      show ∃ a', _ ∧ ((s.advance .pop).goto t _).Matches (pushed ++ []) a'
      rw [List.append_nil]
      by_cases hlt : s.tail.toNat < pushed.length
      . have hv := List.getElem?_eq_getElem hlt
        apply h.pop hinv hfew.2 hv ht
        show match pushed[s.tail.toNat]? with
          | some v => _ = Status.done (.popped v)
          | none => _
        rw [hv]
      . have hnone := List.getElem?_eq_none (Nat.le_of_not_lt hlt)
        exact ⟨a, .refl, h.wait hinv hfew.2 hnone ht⟩
  | wait => exact ⟨a, .refl, hnil h⟩
  | enter t r i hpc hready =>
    have ht := hstatus t
    rw [hpc] at ht
    have hi : i < s.counter r.side := hinv.ticket_lt (t := t) (by rw [hpc]; rfl)
    have hsmall : i.toNat < 2 ^ 63 := Nat.lt_trans hi (hinv.bound r.side)
    have hturn := (c.ready_eq_iff r hsmall).mp hready
    cases r with
    | push v => exact hkeep (by simp) (hgoto t _) ht
    | pop =>
      have hv := List.getElem?_eq_getElem (hinv.lt_of_hasTurn hturn)
      refine hkeep (by simp) (hgoto t _) ⟨_, hv, ?_⟩
      simpa only [StatusOk, hv] using ht
  | found t r i hpc hready =>
    have ht := hstatus t
    rw [hpc] at ht
    exact hkeep (by simp) (hgoto t _) ht
  | missed t r i hpc hready =>
    have ht := hstatus t
    have hknows := hinv.pc t
    rw [hpc] at ht hknows
    obtain ⟨mayFail, ht⟩ := ht
    by_cases hi : i = s.counter r.side
    . subst hi
      have hturn : ¬s.HasTurn r.side (s.counter r.side) := fun hturn =>
        hready ((c.ready_eq_iff r (hinv.bound r.side)).mpr hturn)
      refine ⟨_, Emitting.Trace.one (.notice t r mayFail ht (h.refuses hinv hturn)), ?_⟩
      exact hnil (h.update (by simp) (hgoto t _) ⟨true, rfl, fun _ => rfl⟩)
    . exact hkeep (by simp) (hgoto t _) ⟨mayFail, ht, fun heq => absurd heq hi⟩
  | exchange t r hpc =>
    have ht := hstatus t
    have hknows := hinv.pc t
    rw [hpc] at ht hknows
    obtain ⟨mayFail, ht⟩ := ht
    cases r with
    | push v => exact h.push hinv hfew.1 (by rw [hpc]; rfl) ht rfl
    | pop =>
      show ∃ a', _ ∧ ((s.advance .pop).goto t _).Matches (pushed ++ []) a'
      rw [List.append_nil]
      have hlt : s.tail.toNat < pushed.length := hinv.lt_of_hasTurn (hknows.2 rfl)
      have hv := List.getElem?_eq_getElem hlt
      exact h.pop hinv hfew.2 hv ht ⟨_, hv, rfl⟩
  | raced t r i hpc hne =>
    have ht := hstatus t
    rw [hpc] at ht
    exact hkeep (by simp) (hgoto t _) ht
  | fail t r hpc =>
    have ht := hstatus t
    rw [hpc] at ht
    obtain ⟨mayFail, ht, hmay⟩ := ht
    rw [hmay rfl] at ht
    exact ⟨_, Emitting.Trace.one (.fail t r ht), hnil (h.update (by simp) (hgoto t _) rfl)⟩
  | retry t r i hpc hne =>
    have ht := hstatus t
    rw [hpc] at ht
    obtain ⟨mayFail, ht, _⟩ := ht
    exact hkeep (by simp) (hgoto t _) ⟨mayFail, ht⟩
  | construct t v i hpc | destroy t v i hpc | fill t v i hpc | empty t v i hpc =>
    have ht := hstatus t
    rw [hpc] at ht
    exact hkeep (by simp) (hsetSlot t _ _ _) ht
  | move t v i hpc hstorage =>
    have ht := hstatus t
    have hknows := hinv.pc t
    rw [hpc] at ht hknows
    obtain ⟨v', hv', ht⟩ := ht
    have hstored := hinv.storage_of_pop (t := t) (by rw [hpc]; rfl) (by rw [hpc]; rfl) hknows
    rw [hstorage, hv'] at hstored
    obtain rfl := Option.some.inj hstored
    exact hkeep (by simp) (hgoto t _) ht
  | ret t res hpc =>
    have ht := hstatus t
    rw [hpc] at ht
    exact ⟨_, .one (.ret t res ht), hnil (h.update (by simp) (hgoto t _) rfl)⟩
  | undefined t i hpc hstorage =>
    have halive := hinv.isSome_storage hpc
    rw [hstorage] at halive
    exact absurd halive (by simp)

omit [DecidableEq P] in
theorem matches_created : (created : Queue P α c).Matches [] Fifo.created where
  queue := rfl
  status := fun _ => rfl

theorem system_simulates
    : (system P α c).Simulates (FifoStep c.capacity.toNat)
        fun s a => ∃ pushed, s.Inv pushed ∧ s.Matches pushed a := by
  rintro s e s' a ⟨pushed, hinv, hmatches⟩ ⟨action, hfew, hstep, rfl⟩
  obtain ⟨l, hmoves⟩ := moves_of_step hstep
  obtain ⟨a', htrace, hmatches'⟩ := hmatches.moves hinv hfew hmoves
  exact ⟨a', htrace, pushed ++ l, hinv.moves hfew hmoves, hmatches'⟩

/-- What the queue emits in a run, the atomic queue can emit. -/
theorem linearizable {tr : List (Event P α)} (h : (system P α c).Trace created tr s)
    : ∃ a, (FifoStep c.capacity.toNat).Trace Fifo.created tr a := by
  obtain ⟨a, htrace, _⟩ := system_simulates.trace h ⟨[], inv_created, matches_created⟩
  exact ⟨a, htrace⟩

/-- A consumer that waits for an element until a producer has pushed one. -/
theorem linearizable_runOf : ∃ tr, (∃ s : Queue Bool Nat .two, s.head = 1 ∧ s.tail = 1 ∧
    (system Bool Nat .two).Trace created tr s) ∧ ∃ a, (FifoStep 2).Trace Fifo.created tr a := by
  obtain ⟨tr, s, htrace, hs⟩ := exists_trace_of_runIf (s := created)
    (show (Step.runIf step _ (created : Queue Bool Nat .two)
      (runOf [(true, pop, 2), (false, emplace 5, 5)])).any
        (fun s => s.head = 1 ∧ s.tail = 1) = true by decide +kernel)
  simp only [decide_eq_true_eq] at hs
  exact ⟨tr, ⟨s, hs.1, hs.2, htrace⟩, linearizable htrace⟩

end Queue
end MPMCQueue
