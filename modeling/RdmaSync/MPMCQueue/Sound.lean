import RdmaSync.MPMCQueue.Tickets
import RdmaSync.Threads.Baton

/-!
This module contains the invariant of the queue: at most one thread accesses a slot, and it finds
there what the thread with the turn before has left.
-/

namespace MPMCQueue

open Threads Refinement

variable {P α : Type} {c : Config}

/-- The slot whose storage a thread has changed, but not its turn. -/
def Pc.works (c : Config) (pc : Pc α) : Option (BitVec 64) :=
  match pc with
  | .filling _ i | .emptying _ i => some (c.idx i)
  | _ => none

/-- What a slot stores at turn `n`, if `pushed` are the elements in the order of their tickets. -/
def Config.stored (c : Config) (pushed : List α) (i : BitVec 64) (n : Nat) : Option α :=
  if n % 2 = 0 then none else pushed[n / 2 * c.capacity.toNat + i.toNat]?

namespace Queue

def batons (s : Queue P α c) : Batons P (BitVec 64) where
  turn := fun i => (s.slot i).turn.toNat
  holds := fun t => (s.pc t).ticket.map fun (side, i) => c.place side i
  issued := fun i n => ∃ side k, k < s.counter side ∧ c.place side k = (i, n)

def HasTurn (s : Queue P α c) (side : Side) (i : BitVec 64) : Prop :=
  (s.slot (c.idx i)).turn.toNat = c.level side i

/-- What a thread knows. -/
def PcOk (s : Queue P α c) (pushed : List α) (pc : Pc α) : Prop :=
  match pc with
  | .spinning (.push v) i => pushed[i.toNat]? = some v
  | .testing r i | .reloading r i => i ≤ s.counter r.side
  | .exchanging r i => i ≤ s.counter r.side ∧ (i = s.counter r.side → s.HasTurn r.side i)
  | .constructing v i => pushed[i.toNat]? = some v ∧ s.HasTurn .push i
  | .filling v i =>
    pushed[i.toNat]? = some v ∧ s.HasTurn .push i ∧ (s.slot (c.idx i)).storage = some v
  | .moving i => s.HasTurn .pop i
  | .destroying v i => pushed[i.toNat]? = some v ∧ s.HasTurn .pop i
  | .emptying v i =>
    pushed[i.toNat]? = some v ∧ s.HasTurn .pop i ∧ (s.slot (c.idx i)).storage = none
  | .undefined => False
  | _ => True

/-- The invariant, where `pushed` are the elements in the order of their tickets. -/
structure Inv (s : Queue P α c) (pushed : List α) : Prop where
  length : pushed.length = s.head.toNat
  bound : ∀ side, (s.counter side).toNat < 2 ^ 63
  batons : s.batons.Ok
  pc : ∀ t, s.PcOk pushed (s.pc t)
  storage : ∀ i, (∀ t, (s.pc t).works c ≠ some i) →
    (s.slot i).storage = c.stored pushed i (s.slot i).turn.toNat

end Queue

namespace Config

variable {pushed l : List α} {i k : BitVec 64} {n : Nat}

theorem stored_push (k : BitVec 64) : c.stored pushed i (c.level .push k) = none := by
  have hlevel : c.level .push k = 2 * (c.turn k).toNat := rfl
  rw [stored, hlevel, if_pos (by omega)]

theorem stored_pop (k : BitVec 64)
    : c.stored pushed (c.idx k) (c.level .pop k) = pushed[k.toNat]? := by
  have hlevel : c.level .pop k = 2 * (c.turn k).toNat + 1 := rfl
  have hdiv : (2 * (c.turn k).toNat + 1) / 2 = (c.turn k).toNat := by omega
  rw [stored, hlevel, if_neg (by omega), hdiv, toNat_turn, toNat_idx, Nat.mul_comm,
    Nat.div_add_mod]

theorem stored_pop_succ (k : BitVec 64) : c.stored pushed i (c.level .pop k + 1) = none := by
  have hlevel : c.level .pop k = 2 * (c.turn k).toNat + 1 := rfl
  rw [stored, hlevel, if_pos (by omega)]

end Config

namespace Pc

variable {pc : Pc α} {i : BitVec 64}

theorem accesses_of_works (h : pc.works c = some i) : pc.accesses c = some i := by
  cases pc <;> first | exact h | simp [works] at h

theorem ticket_of_accesses (h : pc.accesses c = some i)
    : ∃ side k, pc.ticket = some (side, k) ∧ c.idx k = i := by
  cases pc with
  | constructing _ k | filling _ k => exact ⟨.push, k, rfl, Option.some.inj h⟩
  | moving k | destroying _ k | emptying _ k => exact ⟨.pop, k, rfl, Option.some.inj h⟩
  | _ => simp [accesses] at h

end Pc

namespace Queue

variable {s : Queue P α c} {pushed : List α} {t u : P} {pc : Pc α} {i k : BitVec 64} {side : Side}
  {x : Slot α}

theorem PcOk.hasTurn (h : s.PcOk pushed pc) (haccesses : pc.accesses c = some i)
    (hticket : pc.ticket = some (side, k)) : s.HasTurn side k := by
  cases pc with
  | constructing =>
    obtain ⟨rfl, rfl⟩ := Prod.mk.inj (Option.some.inj hticket)
    exact h.2
  | filling | emptying =>
    obtain ⟨rfl, rfl⟩ := Prod.mk.inj (Option.some.inj hticket)
    exact h.2.1
  | moving =>
    obtain ⟨rfl, rfl⟩ := Prod.mk.inj (Option.some.inj hticket)
    exact h
  | destroying =>
    obtain ⟨rfl, rfl⟩ := Prod.mk.inj (Option.some.inj hticket)
    exact h.2
  | _ => simp [Pc.accesses] at haccesses

/-- Another slot is of no concern, except for its turn if the thread is about to take a ticket. -/
theorem PcOk.setSlot (h : s.PcOk pushed pc) (hne : pc.accesses c ≠ some i)
    (hturn : ∀ r, pc = .exchanging r (s.counter r.side) → c.idx (s.counter r.side) = i →
      x.turn = (s.slot i).turn)
    : (s.setSlot i x).PcOk pushed pc := by
  have hslot {j : BitVec 64} (hj : some (c.idx j) ≠ some i)
      : (s.setSlot i x).slot (c.idx j) = s.slot (c.idx j) := by
    rw [slot_setSlot, if_neg fun heq => hj (congrArg some heq)]
  cases pc with
  | testing | reloading => simpa only [PcOk, counter_setSlot] using h
  | exchanging r k =>
    simp only [PcOk, counter_setSlot] at h ⊢
    refine ⟨h.1, ?_⟩
    rintro rfl
    have hhas := h.2 rfl
    rw [HasTurn, slot_setSlot]
    split
    . next hi => rwa [hturn r rfl hi, ← hi]
    . exact hhas
  | spinning r _ => cases r <;> exact h
  | constructing | filling | moving | destroying | emptying =>
    simpa only [PcOk, HasTurn, hslot hne] using h
  | _ => exact h

section

variable [DecidableEq P]

theorem PcOk.goto (h : s.PcOk pushed pc) (t : P) (pc' : Pc α) : (s.goto t pc').PcOk pushed pc := by
  cases pc with
  | testing | exchanging | reloading => simpa only [PcOk, HasTurn, counter_goto, slot_goto] using h
  | spinning r _ => cases r <;> exact h
  | _ => exact h

end

theorem PcOk.advance (h : s.PcOk pushed pc) (hlt : (s.counter side).toNat + 1 < 2 ^ 63) (l : List α)
    : (s.advance side).PcOk (pushed ++ l) pc := by
  have happend {j : BitVec 64} {v : α} (hv : pushed[j.toNat]? = some v)
      : (pushed ++ l)[j.toNat]? = some v := by
    rw [List.getElem?_append_left (List.getElem?_eq_some_iff.mp hv).1, hv]
  have hone : (1 : BitVec 64).toNat = 1 := rfl
  have hsucc : (s.counter side + 1).toNat = (s.counter side).toNat + 1 := by
    rw [BitVec.toNat_add, hone]
    omega
  have hle {j : BitVec 64} {side' : Side} (hj : j ≤ s.counter side')
      : j ≤ (s.advance side).counter side' := by
    rw [counter_advance]
    split
    . next heq =>
      subst heq
      rw [BitVec.le_def, hsucc]
      rw [BitVec.le_def] at hj
      omega
    . exact hj
  cases pc with
  | testing | reloading => exact hle h
  | exchanging r j =>
    refine ⟨hle h.1, ?_⟩
    rw [counter_advance]
    split
    . next heq =>
      -- The counter has left the ticket behind.
      rintro rfl
      have hj := h.1
      rw [BitVec.le_def, heq, hsucc] at hj
      omega
    . intro hj
      simpa only [HasTurn, slot_advance] using h.2 hj
  | spinning r _ =>
    cases r with
    | push => exact happend h
    | pop => trivial
  | constructing | filling | destroying | emptying =>
    exact ⟨happend h.1, by simpa only [HasTurn, slot_advance] using h.2⟩
  | moving => simpa only [PcOk, HasTurn, slot_advance] using h
  | _ => exact h

namespace Inv

theorem owns (h : s.Inv pushed) (haccesses : (s.pc t).accesses c = some i)
    : s.batons.Owns t i := by
  obtain ⟨side, k, hticket, rfl⟩ := Pc.ticket_of_accesses haccesses
  have hturn := (h.pc t).hasTurn haccesses hticket
  show (s.pc t).ticket.map _ = some (c.idx k, (s.slot (c.idx k)).turn.toNat)
  rw [hticket, hturn]
  rfl

theorem access_unique (h : s.Inv pushed) (ht : (s.pc t).accesses c = some i)
    (hu : (s.pc u).accesses c = some i) : t = u := by
  exact h.batons.owner_unique (h.owns ht) (h.owns hu)

theorem accesses_ne (h : s.Inv pushed) (ht : (s.pc t).accesses c = some i) (hne : u ≠ t)
    : (s.pc u).accesses c ≠ some i := by
  intro hu
  exact hne (h.access_unique hu ht)

theorem ticket_lt (h : s.Inv pushed) (hticket : (s.pc t).ticket = some (side, k))
    : k < s.counter side := by
  have hholds : s.batons.holds t = some (c.place side k) := by
    show (s.pc t).ticket.map _ = _
    rw [hticket]
    rfl
  obtain ⟨side', k', hlt, hplace⟩ := h.batons.issued_of_holds hholds
  obtain ⟨rfl, rfl⟩ := c.place_inj hplace
  exact hlt

theorem not_owns_next (h : s.Inv pushed) (hturn : s.HasTurn side (s.counter side))
    : ¬s.batons.Owns t (c.idx (s.counter side)) := by
  intro howns
  obtain ⟨side', k, hk, hplace⟩ := h.batons.issued_of_holds howns
  have hnext : c.place side (s.counter side)
      = (c.idx (s.counter side), s.batons.turn (c.idx (s.counter side))) := by
    rw [Config.place, ← hturn]
    rfl
  obtain ⟨rfl, rfl⟩ := c.place_inj (hplace.trans hnext.symm)
  exact BitVec.lt_irrefl _ hk

theorem exists_ticket (h : s.Inv pushed) (side : Side) (hk : k < s.counter side)
    (hle : (s.slot (c.idx k)).turn.toNat ≤ c.level side k)
    : ∃ u, (s.pc u).ticket = some (side, k) := by
  obtain ⟨u, hu⟩ := h.batons.held ⟨side, k, hk, rfl⟩ hle
  cases hticket : (s.pc u).ticket with
  | none => simp [Queue.batons, hticket] at hu
  | some x =>
    rcases x with ⟨side', k'⟩
    simp only [Queue.batons, hticket, Option.map_some, Option.some.injEq] at hu
    obtain ⟨rfl, rfl⟩ := c.place_inj hu
    exact ⟨u, hticket⟩

theorem ticket_unique (h : s.Inv pushed) {x : Side × BitVec 64} (ht : (s.pc t).ticket = some x)
    (hu : (s.pc u).ticket = some x) : t = u := by
  apply h.batons.unique (x := c.place x.1 x.2)
  . show (s.pc t).ticket.map _ = _
    rw [ht]
    rfl
  . show (s.pc u).ticket.map _ = _
    rw [hu]
    rfl

theorem turn_le (h : s.Inv pushed) (side : Side) (hk : s.counter side ≤ k)
    : (s.slot (c.idx k)).turn.toNat ≤ c.level side k := by
  apply Nat.le_of_not_lt
  intro hlt
  obtain ⟨side', k', hk', hplace⟩ := h.batons.issued_of_lt hlt
  obtain ⟨rfl, rfl⟩ := c.place_inj hplace
  exact Nat.not_lt_of_le hk hk'

theorem index_lt (h : s.Inv pushed) (hodd : (s.slot i).turn.toNat % 2 ≠ 0)
    : (s.slot i).turn.toNat / 2 * c.capacity.toNat + i.toNat < pushed.length := by
  have hlt : (s.slot i).turn.toNat - 1 < s.batons.turn i := by
    show _ < (s.slot i).turn.toNat
    omega
  obtain ⟨side, k, hk, hplace⟩ := h.batons.issued_of_lt hlt
  obtain ⟨rfl, hlevel⟩ := Prod.mk.inj hplace
  have hdiv := Nat.div_add_mod k.toNat c.capacity.toNat
  have hturn : (s.slot (c.idx k)).turn.toNat / 2 = k.toNat / c.capacity.toNat := by
    rw [Config.level, c.toNat_turn] at hlevel
    cases side <;> simp only [Side.parity] at hlevel <;> omega
  have hside : side = .push := by
    rw [Config.level] at hlevel
    cases side <;> simp only [Side.parity] at hlevel <;> first | rfl | omega
  subst hside
  rw [hturn, c.toNat_idx, Nat.mul_comm, hdiv, h.length]
  exact hk

theorem stored_append (h : s.Inv pushed) (l : List α) (i : BitVec 64)
    : c.stored (pushed ++ l) i (s.slot i).turn.toNat
        = c.stored pushed i (s.slot i).turn.toNat := by
  unfold Config.stored
  split
  . rfl
  . next hodd => rw [List.getElem?_append_left (h.index_lt hodd)]

/-- An element whose slot has the turn for the pop has been pushed. -/
theorem lt_of_hasTurn (h : s.Inv pushed) (hturn : s.HasTurn .pop i)
    : i.toNat < pushed.length := by
  have hlevel : c.level .pop i = 2 * (c.turn i).toNat + 1 := rfl
  have hdiv := Nat.div_add_mod i.toNat c.capacity.toNat
  have hindex := h.index_lt (i := c.idx i) (by rw [hturn, hlevel]; omega)
  have hhalf : (2 * (c.turn i).toNat + 1) / 2 = (c.turn i).toNat := by omega
  rwa [hturn, hlevel, hhalf, c.toNat_turn, c.toNat_idx, Nat.mul_comm, hdiv] at hindex

theorem storage_of_pop (h : s.Inv pushed) (hworks : (s.pc t).works c = none)
    (haccesses : (s.pc t).accesses c = some (c.idx i)) (hturn : s.HasTurn .pop i)
    : (s.slot (c.idx i)).storage = pushed[i.toNat]? := by
  rw [h.storage, hturn, c.stored_pop]
  intro u hu
  have hut := h.access_unique (Pc.accesses_of_works hu) haccesses
  rw [hut, hworks] at hu
  simp at hu

theorem isSome_storage (h : s.Inv pushed)
    (hpc : s.pc t = .moving i ∨ ∃ v, s.pc t = .destroying v i)
    : (s.slot (c.idx i)).storage.isSome := by
  have hknows := h.pc t
  have hisSome (hturn : s.HasTurn .pop i) (hworks : (s.pc t).works c = none)
      (haccesses : (s.pc t).accesses c = some (c.idx i))
      : (s.slot (c.idx i)).storage.isSome := by
    rw [h.storage_of_pop hworks haccesses hturn, List.getElem?_eq_getElem (h.lt_of_hasTurn hturn)]
    rfl
  rcases hpc with hpc | ⟨v, hpc⟩
  . rw [hpc] at hknows
    exact hisSome hknows (by rw [hpc]; rfl) (by rw [hpc]; rfl)
  . rw [hpc] at hknows
    exact hisSome hknows.2 (by rw [hpc]; rfl) (by rw [hpc]; rfl)

theorem storage_of_push {v : α} (h : s.Inv pushed) (hpc : s.pc t = .constructing v i)
    : (s.slot (c.idx i)).storage = none := by
  have hturn := h.pc t
  rw [hpc] at hturn
  rw [h.storage, hturn.2, c.stored_push]
  intro u hu
  have hut := h.access_unique (Pc.accesses_of_works hu) (t := u) (u := t) (by rw [hpc]; rfl)
  rw [hut, hpc] at hu
  simp [Pc.works] at hu

variable [DecidableEq P]

theorem goto (h : s.Inv pushed) (hticket : pc.ticket = (s.pc t).ticket)
    (hworks : pc.works c = (s.pc t).works c) (hpc : s.PcOk pushed pc)
    : (s.goto t pc).Inv pushed where
  length := h.length
  bound := by
    intro side
    rw [counter_goto]
    exact h.bound side
  batons := by
    have hbatons : (s.goto t pc).batons = s.batons := by
      simp only [Queue.batons, slot_goto, counter_goto, Batons.mk.injEq, true_and, and_true]
      funext u
      rw [pc_goto]
      split
      . next hu => rw [hu, hticket]
      . rfl
    rw [hbatons]
    exact h.batons
  pc := by
    intro u
    rw [pc_goto]
    split
    . exact hpc.goto t pc
    . exact (h.pc u).goto t pc
  storage := by
    intro i hnone
    rw [slot_goto]
    apply h.storage
    intro u
    have hu := hnone u
    rw [pc_goto] at hu
    split at hu
    . next heq =>
      subst heq
      rwa [← hworks]
    . exact hu

theorem take {r : Request α} (h : s.Inv pushed) (hidle : (s.pc t).ticket = none)
    (hlt : (s.counter r.side).toNat + 1 < 2 ^ 63)
    (hticket : pc.ticket = some (r.side, s.counter r.side)) (hworks : (s.pc t).works c = none)
    (hpc : (s.advance r.side).PcOk (pushed ++ r.elements) pc)
    : ((s.advance r.side).goto t pc).Inv (pushed ++ r.elements) := by
  have hone : (1 : BitVec 64).toNat = 1 := rfl
  have hsucc : (s.counter r.side + 1).toNat = (s.counter r.side).toNat + 1 := by
    rw [BitVec.toNat_add, hone]
    omega
  constructor
  . have hlength := h.length
    cases r with
    | push v =>
      show (pushed ++ [v]).length = (s.head + 1).toNat
      rw [List.length_append, hlength]
      exact hsucc.symm
    | pop =>
      show (pushed ++ []).length = s.head.toNat
      rwa [List.append_nil]
  . intro side
    rw [counter_goto, counter_advance]
    split
    . next heq =>
      subst heq
      rwa [hsucc]
    . exact h.bound side
  . have hbatons : ((s.advance r.side).goto t pc).batons
        = s.batons.take t (c.idx (s.counter r.side)) (c.level r.side (s.counter r.side)) := by
      simp only [Queue.batons, slot_goto, slot_advance, counter_goto, Batons.take,
        Batons.mk.injEq, true_and]
      constructor
      . funext u
        rw [pc_goto, pc_advance, Function.update_apply]
        split
        . rw [hticket]
          rfl
        . rfl
      . funext i n
        apply propext
        constructor
        . rintro ⟨side, k, hk, hplace⟩
          rw [counter_advance] at hk
          split at hk
          . next heq =>
            subst heq
            rw [BitVec.lt_def, hsucc] at hk
            obtain hk | hk := Nat.lt_succ_iff_lt_or_eq.mp hk
            . exact .inl ⟨_, k, hk, hplace⟩
            . obtain rfl := BitVec.eq_of_toNat_eq hk
              obtain ⟨hi, hn⟩ := Prod.mk.inj hplace
              exact .inr ⟨hi.symm, hn.symm⟩
          . exact .inl ⟨side, k, hk, hplace⟩
        . rintro (⟨side, k, hk, hplace⟩ | ⟨rfl, rfl⟩)
          . refine ⟨side, k, ?_, hplace⟩
            rw [counter_advance]
            split
            . next heq =>
              subst heq
              rw [BitVec.lt_def, hsucc]
              exact Nat.lt_succ_of_lt hk
            . exact hk
          . refine ⟨r.side, s.counter r.side, ?_, rfl⟩
            rw [counter_advance, if_pos rfl, BitVec.lt_def, hsucc]
            exact Nat.lt_succ_self _
    rw [hbatons]
    apply h.batons.take
    . show (s.pc t).ticket.map _ = none
      rw [hidle]
      rfl
    . rintro ⟨side, k, hk, hplace⟩
      obtain ⟨rfl, rfl⟩ := c.place_inj hplace
      exact BitVec.lt_irrefl _ hk
  . intro u
    rw [pc_goto, pc_advance]
    split
    . exact hpc.goto t pc
    . exact ((h.pc u).advance hlt _).goto t pc
  . intro i hnone
    rw [slot_goto, slot_advance, h.stored_append]
    apply h.storage
    intro u
    have hu := hnone u
    rw [pc_goto, pc_advance] at hu
    split at hu
    . next heq =>
      rw [heq, hworks]
      simp
    . exact hu

theorem write (h : s.Inv pushed) (haccesses : (s.pc t).accesses c = some i)
    (hturn : x.turn = (s.slot i).turn) (hticket : pc.ticket = (s.pc t).ticket)
    (hworks : pc.works c = some i) (hpc : (s.setSlot i x).PcOk pushed pc)
    : ((s.setSlot i x).goto t pc).Inv pushed where
  length := h.length
  bound := by
    intro side
    rw [counter_goto, counter_setSlot]
    exact h.bound side
  batons := by
    have hbatons : ((s.setSlot i x).goto t pc).batons = s.batons := by
      simp only [Queue.batons, slot_goto, counter_goto, counter_setSlot, Batons.mk.injEq, and_true]
      constructor
      . funext j
        rw [slot_setSlot]
        split
        . next hj => rw [hj, hturn]
        . rfl
      . funext u
        rw [pc_goto, pc_setSlot]
        split
        . next hu => rw [hu, hticket]
        . rfl
    rw [hbatons]
    exact h.batons
  pc := by
    intro u
    rw [pc_goto, pc_setSlot]
    split
    . exact hpc.goto t pc
    . next hu =>
      exact ((h.pc u).setSlot (h.accesses_ne haccesses hu) fun _ _ _ => hturn).goto t pc
  storage := by
    intro j hnone
    have hj : j ≠ i := by
      rintro rfl
      have ht := hnone t
      rw [pc_goto_self] at ht
      exact ht hworks
    rw [slot_goto, slot_setSlot, if_neg hj]
    apply h.storage
    intro u hu
    by_cases hut : u = t
    . subst hut
      have heq := (Pc.accesses_of_works hu).symm.trans haccesses
      exact hj (Option.some.inj heq)
    . refine hnone u ?_
      rw [pc_goto, if_neg hut, pc_setSlot]
      exact hu

theorem pass (h : s.Inv pushed) (hworks : (s.pc t).works c = some i)
    (hturn : x.turn.toNat = (s.slot i).turn.toNat + 1)
    (hstorage : x.storage = c.stored pushed i x.turn.toNat) (res : Result α)
    : ((s.setSlot i x).goto t (.returned res)).Inv pushed := by
  have haccesses := Pc.accesses_of_works hworks
  constructor
  . exact h.length
  . intro side
    rw [counter_goto, counter_setSlot]
    exact h.bound side
  . have hbatons : ((s.setSlot i x).goto t (.returned res)).batons = s.batons.pass t i := by
      simp only [Queue.batons, slot_goto, counter_goto, counter_setSlot, Batons.pass,
        Batons.mk.injEq, and_true]
      constructor
      . funext j
        rw [slot_setSlot, Function.update_apply]
        split
        . exact hturn
        . rfl
      . funext u
        rw [pc_goto, pc_setSlot, Function.update_apply]
        split <;> rfl
    rw [hbatons]
    exact h.batons.pass (h.owns haccesses)
  . intro u
    rw [pc_goto, pc_setSlot]
    split
    . trivial
    . next hu =>
      refine ((h.pc u).setSlot (h.accesses_ne haccesses hu) ?_).goto t _
      intro r hr hi
      -- The slot cannot be passed on at a turn that nobody has a ticket for.
      have hknows := h.pc u
      rw [hr] at hknows
      exact absurd (hi ▸ h.owns haccesses) (h.not_owns_next (hknows.2 rfl))
  . intro j hnone
    rw [slot_goto, slot_setSlot]
    split
    . next hj =>
      subst hj
      exact hstorage
    . next hj =>
      apply h.storage
      intro u hu
      by_cases hut : u = t
      . subst hut
        exact hj (Option.some.inj (hu.symm.trans hworks))
      . refine hnone u ?_
        rw [pc_goto, if_neg hut, pc_setSlot]
        exact hu

theorem moves {e : Option (Event P α)} {l : List α} {s' : Queue P α c} (h : s.Inv pushed)
    (hfew : s.Few) (hmoves : s.Moves e l s') : s'.Inv (pushed ++ l) := by
  have hlt (side : Side) : (s.counter side).toNat + 1 < 2 ^ 63 := by
    cases side with
    | push => exact hfew.1
    | pop => exact hfew.2
  have hsmall {t : P} {side : Side} {i : BitVec 64} (hticket : (s.pc t).ticket = some (side, i))
      : i.toNat + 1 < 2 ^ 63 := by
    have hi := h.ticket_lt hticket
    have hbound := h.bound side
    rw [BitVec.lt_def] at hi
    omega
  -- Where a step takes no ticket, `pushed` stays as it is.
  have hnil {s' : Queue P α c} (h : s'.Inv pushed) : s'.Inv (pushed ++ []) := by
    rwa [List.append_nil]
  cases hmoves with
  | call t call hpc => exact hnil (h.goto (by rw [hpc]; rfl) (by rw [hpc]; rfl) trivial)
  | start t r hpc =>
    exact hnil (h.goto (by rw [hpc]; rfl) (by rw [hpc]; rfl) (BitVec.le_refl _))
  | take t r hpc =>
    apply h.take (by rw [hpc]; rfl) (hlt _) rfl (by rw [hpc]; rfl)
    cases r with
    | push v =>
      show (pushed ++ [v])[s.head.toNat]? = some v
      rw [← h.length, List.getElem?_concat_length]
    | pop => trivial
  | wait => exact hnil h
  | enter t r i hpc hready =>
    have hknows := h.pc t
    have hticket : (s.pc t).ticket = some (r.side, i) := by rw [hpc]; rfl
    have hturn := (c.ready_eq_iff r (by have := hsmall hticket; omega)).mp hready
    rw [hpc] at hknows
    cases r with
    | push v =>
      exact hnil (h.goto (by rw [hpc]; rfl) (by rw [hpc]; rfl) ⟨hknows, hturn⟩)
    | pop => exact hnil (h.goto (by rw [hpc]; rfl) (by rw [hpc]; rfl) hturn)
  | found t r i hpc hready =>
    have hknows := h.pc t
    rw [hpc] at hknows
    have hle : i.toNat < 2 ^ 63 := Nat.lt_of_le_of_lt hknows (h.bound _)
    have hturn := (c.ready_eq_iff r hle).mp hready
    exact hnil (h.goto (by rw [hpc]; rfl) (by rw [hpc]; rfl) ⟨hknows, fun _ => hturn⟩)
  | missed t r i hpc hready =>
    have hknows := h.pc t
    rw [hpc] at hknows
    exact hnil (h.goto (by rw [hpc]; rfl) (by rw [hpc]; rfl) hknows)
  | exchange t r hpc =>
    have hknows := h.pc t
    rw [hpc] at hknows
    have hturn : s.HasTurn r.side (s.counter r.side) := hknows.2 rfl
    cases r with
    | push v =>
      apply h.take (r := .push v) (by rw [hpc]; rfl) (hlt _) rfl (by rw [hpc]; rfl)
      refine ⟨?_, hturn⟩
      show (pushed ++ [v])[s.head.toNat]? = some v
      rw [← h.length, List.getElem?_concat_length]
    | pop =>
      exact h.take (r := .pop) (by rw [hpc]; rfl) (hlt _) rfl (by rw [hpc]; rfl) hturn
  | raced t r i hpc hne | fail t r hpc | retry t r i hpc hne =>
    refine hnil (h.goto (by rw [hpc]; rfl) (by rw [hpc]; rfl) ?_)
    first | exact BitVec.le_refl _ | trivial
  | construct t v i hpc =>
    have hknows := h.pc t
    rw [hpc] at hknows
    refine hnil (h.write (by rw [hpc]; rfl) rfl (by rw [hpc]; rfl) rfl ⟨hknows.1, ?_, ?_⟩)
    . rw [HasTurn, slot_setSlot, if_pos rfl]
      exact hknows.2
    . rw [slot_setSlot, if_pos rfl]
  | fill t v i hpc =>
    have hknows := h.pc t
    rw [hpc] at hknows
    obtain ⟨hv, hturn, hstorage⟩ := hknows
    have hi := hsmall (t := t) (by rw [hpc]; rfl)
    obtain ⟨htoNat, hlevel⟩ := c.toNat_turn_add_one (i := i) (by omega)
    refine hnil (h.pass (by rw [hpc]; rfl) ?_ ?_ _)
    . show (c.turn i * 2 + 1).toNat = _
      rw [htoNat, hlevel, hturn]
    . show (s.slot (c.idx i)).storage = c.stored pushed (c.idx i) (c.turn i * 2 + 1).toNat
      rw [htoNat, c.stored_pop, hv, hstorage]
  | move t v i hpc hstorage =>
    have hknows := h.pc t
    rw [hpc] at hknows
    have hstored := h.storage_of_pop (t := t) (by rw [hpc]; rfl) (by rw [hpc]; rfl) hknows
    refine hnil (h.goto (by rw [hpc]; rfl) (by rw [hpc]; rfl) ⟨?_, hknows⟩)
    rw [← hstored, hstorage]
  | destroy t v i hpc =>
    have hknows := h.pc t
    rw [hpc] at hknows
    refine hnil (h.write (by rw [hpc]; rfl) rfl (by rw [hpc]; rfl) rfl ⟨hknows.1, ?_, ?_⟩)
    . rw [HasTurn, slot_setSlot, if_pos rfl]
      exact hknows.2
    . rw [slot_setSlot, if_pos rfl]
  | empty t v i hpc =>
    have hknows := h.pc t
    rw [hpc] at hknows
    obtain ⟨hv, hturn, hstorage⟩ := hknows
    have htoNat := c.toNat_turn_add_two (hsmall (t := t) (i := i) (by rw [hpc]; rfl))
    refine hnil (h.pass (by rw [hpc]; rfl) ?_ ?_ _)
    . show (c.turn i * 2 + 2).toNat = _
      rw [htoNat, hturn]
    . show (s.slot (c.idx i)).storage = c.stored pushed (c.idx i) (c.turn i * 2 + 2).toNat
      rw [htoNat, c.stored_pop_succ, hstorage]
  | ret t res hpc => exact hnil (h.goto (by rw [hpc]; rfl) (by rw [hpc]; rfl) trivial)
  | undefined t i hpc hstorage =>
    have halive := h.isSome_storage hpc
    rw [hstorage] at halive
    exact absurd halive (by simp)

end Inv

theorem inv_created : (created : Queue P α c).Inv [] where
  length := rfl
  bound := by
    intro side
    have hzero : (created : Queue P α c).counter side = 0 := by cases side <;> rfl
    rw [hzero]
    decide
  batons := by
    constructor
    . intro t u x ht
      simp [Queue.batons, created, Pc.ticket] at ht
    . intro t i n ht
      simp [Queue.batons, created, Pc.ticket] at ht
    . intro t i n ht
      simp [Queue.batons, created, Pc.ticket] at ht
    . intro i n hlt
      exact absurd hlt (Nat.not_lt_zero n)
    . rintro i n ⟨side, k, hk, _⟩
      cases side <;> exact absurd hk (BitVec.not_lt_zero)
  pc := fun _ => trivial
  storage := by
    intro i _
    rfl

variable [DecidableEq P]

/-- In every state that is reached, the invariant holds for some elements. -/
theorem exists_inv_of_trace {tr : List (Event P α)} {s : Queue P α c}
    (h : (system P α c).Trace created tr s) : ∃ pushed, s.Inv pushed := by
  refine h.invariant (I := fun s => ∃ pushed, s.Inv pushed) ⟨[], inv_created⟩ ?_
  rintro s e s' ⟨pushed, hinv⟩ ⟨a, hfew, hstep, rfl⟩
  obtain ⟨l, hmoves⟩ := moves_of_step hstep
  exact ⟨pushed ++ l, hinv.moves hfew hmoves⟩

structure SlotsSafe (s : Queue P α c) : Prop where
  in_range : ∀ {t i}, (s.pc t).accesses c = some i → i < c.capacity
  exclusive : ∀ {t u i}, (s.pc t).accesses c = some i → (s.pc u).accesses c = some i → t = u
  constructs : ∀ {t v i}, s.pc t = .constructing v i → (s.slot (c.idx i)).storage = none
  alive : ∀ {t i}, (s.pc t = .moving i ∨ ∃ v, s.pc t = .destroying v i) →
    (s.slot (c.idx i)).storage.isSome
  defined : ∀ t, s.pc t ≠ .undefined

theorem slotsSafe_of_trace {tr : List (Event P α)} {s : Queue P α c}
    (h : (system P α c).Trace created tr s) : s.SlotsSafe := by
  obtain ⟨pushed, hinv⟩ := exists_inv_of_trace h
  refine ⟨?_, hinv.access_unique, hinv.storage_of_push, ?_, ?_⟩
  . intro t i haccesses
    obtain ⟨side, k, _, rfl⟩ := Pc.ticket_of_accesses haccesses
    exact c.idx_lt k
  . intro t i hpc
    exact hinv.isSome_storage hpc
  . intro t hpc
    have hknows := hinv.pc t
    rwa [hpc] at hknows

def runOf (as : List (Bool × Call Nat × Nat)) : List (Action Bool Nat) :=
  as.flatMap fun (t, call, n) => .call t call :: List.replicate n (.step t)

theorem exists_trace_of_runIf {s : Queue P α c} {as : List (Action P α)} {p : Queue P α c → Bool}
    (h : (Step.runIf step (fun s _ => decide s.Few) s as).any p = true)
    : ∃ tr s', (system P α c).Trace s tr s' ∧ p s' = true := by
  obtain ⟨s', hreach, hp⟩ := Step.exists_reach_of_runIf h
  obtain ⟨tr, htrace⟩ := Emitting.exists_trace_of_reach
    (hreach.mono fun _ _ hfew => of_decide_eq_true hfew)
  exact ⟨tr, s', htrace, hp⟩

/-- A producer in the middle of its call, and a consumer about to move the element before. -/
theorem slotsSafe_runOf : ∃ s : Queue Bool Nat .two, s.SlotsSafe ∧
    s.pc false = .filling 6 1 ∧ s.pc true = .moving 0 := by
  obtain ⟨tr, s, htrace, hs⟩ := exists_trace_of_runIf (s := created)
    (show (Step.runIf step _ (created : Queue Bool Nat .two)
      (runOf [(false, emplace 5, 5), (false, tryEmplace 6, 4), (true, pop, 2)])).any
        (fun s => s.pc false = .filling 6 1 ∧ s.pc true = .moving 0) = true by decide +kernel)
  exact ⟨s, slotsSafe_of_trace htrace, by simpa using hs⟩

end Queue
end MPMCQueue
