import RdmaSync.BatchQueue.Latched

/-!
This module contains the proof that each batch is always in one place, and that the elements that are
pushed are handed out once.
-/

namespace BatchQueue

open Refinement Threads

variable {C T Th : Type} {n : Nat}

section

variable {s s' : State C T n Th} {t : Th}

/-- A step of a thread does not touch what the other threads have. -/
structure Frame (t : Th) (s s' : State C T n Th) : Prop where
  pc : ∀ t' ≠ t, s'.pc t' = s.pc t'
  batch : ∀ t' ≠ t, s'.batch t' = s.batch t'
  holder : ∀ t' ≠ t, ∀ b, s.holder b = some t' → s'.holder b = some t'
  container : ∀ t' ≠ t, ∀ b, s.holder b = some t' → s'.queue.container b = s.queue.container b

theorem holder_update {holder : Fin n → Option Th} {o : Option Th} {t t' : Th} {b b' : Fin n}
    (hb : holder b = none ∨ holder b = some t) (hne : t' ≠ t) (hb' : holder b' = some t')
    : Function.update holder b o b' = some t' := by
  rw [Function.update_of_ne, hb']
  rintro rfl
  rw [hb'] at hb
  simp [hne] at hb

variable [DecidableEq Th]

theorem frame_of_container {pc : Pc} {batch : Option (Fin n)}
    (hpc : s'.pc = Function.update s.pc t pc) (hbatch : s'.batch = Function.update s.batch t batch)
    (hcontainer : s'.queue.container = s.queue.container)
    (hholder : ∀ t' ≠ t, ∀ b, s.holder b = some t' → s'.holder b = some t') : Frame t s s' where
  pc t' hne := by rw [hpc, Function.update_of_ne hne]
  batch t' hne := by rw [hbatch, Function.update_of_ne hne]
  holder := hholder
  container _ _ _ _ := by rw [hcontainer]

variable {r : Except Failure (Returned C n)} {batch : Option (Fin n)} {q : Queue C n}
  {ghost : State C T n Th → Option (Fin n) → State C T n Th}

theorem State.returns_of_true (h : r = .ok { rc := true, batch := batch, queue := q })
    : s.returns t r ghost = ghost
        { s with
          queue := q
          pc := Function.update s.pc t .idle
          batch := Function.update s.batch t batch
          rc := Function.update s.rc t (some true) }
        batch := by
  rw [h]
  rfl

theorem State.returns_of_false (h : r = .ok { rc := false, batch := batch, queue := q })
    : s.returns t r ghost =
        { s with
          queue := q
          pc := Function.update s.pc t .idle
          batch := Function.update s.batch t batch
          rc := Function.update s.rc t (some false) } := by
  rw [h]
  rfl

theorem State.returns_keeps (hr : ∀ r', r = .ok r' → r'.Keeps s.queue (s.batch t))
    (hghost : ∀ s batch, (ghost s batch).rc = s.rc) (h : (s.returns t r ghost).rc t = some false)
    : (s.returns t r ghost).queue = s.queue ∧ (s.returns t r ghost).batch = s.batch := by
  cases r with
  | error e => exact ⟨rfl, rfl⟩
  | ok r =>
    obtain ⟨rc, batch, q⟩ := r
    cases rc with
    | true =>
      rw [State.returns_of_true rfl, hghost] at h
      simp at h
    | false =>
      obtain ⟨hqueue, rfl⟩ := hr _ rfl rfl
      rw [State.returns_of_false rfl]
      exact ⟨hqueue, Function.update_eq_self t s.batch⟩

end

variable [Container C T]

namespace Queue

variable {q q' : Queue C n} {b : Fin n} {l : List (Fin n)}

@[simp]
theorem contents_nil : q.contents [] = 0 := by
  rfl

theorem contents_cons : q.contents (b :: l) = q.contents [b] + q.contents l := by
  simp [contents]

theorem contents_congr (h : ∀ b ∈ l, q'.container b = q.container b)
    : q'.contents l = q.contents l := by
  unfold contents
  congr 1
  apply List.map_congr_left
  intro b hb
  rw [h b hb]

theorem exec_getSize_of_ne {b' : Fin n} (h : b' ≠ b) (op : Op T)
    : (q.exec b op).getSize b' = q.getSize b' := by
  simp only [getSize, exec, Function.update_of_ne h]

theorem getSize_congr (h : q'.container = q.container) : q'.getSize = q.getSize := by
  funext b
  rw [getSize, h, getSize]

end Queue

/-- Batches are on the two lists or held, and elements that were pushed are gone or on a list. -/
structure Placed (q : Queue C n) (holder : Fin n → Option Th) (pushed gone : Multiset T)
    (full empty : List (Fin n)) : Prop where
  represents : Represents q full empty
  nonempty : ∀ b ∈ full, q.getSize b ≠ 0
  isEmpty : ∀ b ∈ empty, q.getSize b = 0
  free : ∀ b, holder b = none ↔ b ∈ full ∨ b ∈ empty
  ledger : pushed = gone + q.contents full

section

variable {q : Queue C n} {holder : Fin n → Option Th} {pushed gone : Multiset T}
  {full empty : List (Fin n)} {b : Fin n} {t : Th}

namespace Placed

theorem notMem (h : Placed q holder pushed gone full empty) (hb : holder b = some t)
    : b ∉ full ∧ b ∉ empty := by
  have hfree := h.free b
  rw [hb] at hfree
  simpa using hfree

theorem pushFullHead (h : Placed q holder pushed gone full empty) (hb : holder b = some t)
    (hsize : q.getSize b ≠ 0)
    : Placed (q.pushFullHead b) (Function.update holder b none) (pushed + q.contents [b]) gone
        (b :: full) empty := by
  obtain ⟨hfull, hempty⟩ := h.notMem hb
  refine ⟨h.represents.pushFullHead hfull hempty, ?_, h.isEmpty, ?_, ?_⟩
  . intro b' hb'
    rcases List.mem_cons.mp hb' with rfl | hb'
    . exact hsize
    . exact h.nonempty b' hb'
  . intro b'
    rw [Function.update_apply, List.mem_cons]
    split
    . next heq => simp [heq]
    . next hne => simp [hne, h.free]
  . show _ = gone + q.contents (b :: full)
    rw [h.ledger, Queue.contents_cons (l := full), add_assoc, add_comm (q.contents full)]

theorem pushEmptyHead (h : Placed q holder pushed gone full empty) (hb : holder b = some t)
    (hsize : q.getSize b = 0)
    : ∃ q', q.pushEmptyHead b = .ok q' ∧
        Placed q' (Function.update holder b none) pushed gone full (b :: empty) ∧
        q'.container = q.container := by
  obtain ⟨hfull, hempty⟩ := h.notMem hb
  obtain ⟨q', hpush, hrep, hcontainer⟩ := h.represents.pushEmptyHead hfull hempty hsize
  have hgetSize := Queue.getSize_congr hcontainer
  refine ⟨q', hpush, ⟨hrep, ?_, ?_, ?_, ?_⟩, hcontainer⟩
  . rw [hgetSize]
    exact h.nonempty
  . rw [hgetSize]
    intro b' hb'
    rcases List.mem_cons.mp hb' with rfl | hb'
    . exact hsize
    . exact h.isEmpty b' hb'
  . intro b'
    rw [Function.update_apply, List.mem_cons]
    split
    . next heq => simp [heq]
    . next hne => simp [hne, h.free]
  . rw [Queue.contents_congr fun b _ => congrFun hcontainer b]
    exact h.ledger

theorem popEmptyHead (h : Placed q holder pushed gone full (b :: empty)) (t : Th)
    : ∃ q', q.popEmptyHead = .ok { rc := true, batch := some b, queue := q' } ∧
        Placed q' (Function.update holder b (some t)) pushed gone full empty ∧
        q'.container = q.container := by
  have hsize := h.isEmpty b List.mem_cons_self
  obtain ⟨q', hpop, hrep, hcontainer⟩ := h.represents.popEmptyHead hsize
  have hgetSize := Queue.getSize_congr hcontainer
  have hfull := (List.disjoint_cons_right.mp h.represents.disjoint).1
  have hempty := (List.nodup_cons.mp h.represents.emptyLinked.nodup).1
  refine ⟨q', hpop, ⟨hrep, ?_, ?_, ?_, ?_⟩, hcontainer⟩
  . rw [hgetSize]
    exact h.nonempty
  . rw [hgetSize]
    exact fun b' hb' => h.isEmpty b' (List.mem_cons_of_mem _ hb')
  . intro b'
    rw [Function.update_apply]
    split
    . next heq => simp [heq, hfull, hempty]
    . next hne => simp [h.free, hne]
  . rw [Queue.contents_congr fun b _ => congrFun hcontainer b]
    exact h.ledger

theorem popFullHead (h : Placed q holder pushed gone (b :: full) empty) (t : Th)
    : ∃ q', q.popFullHead = .ok { rc := true, batch := some b, queue := q' } ∧
        Placed q' (Function.update holder b (some t)) pushed (gone + q.contents [b]) full empty ∧
        q'.container = q.container := by
  obtain ⟨q', hpop, hrep, hcontainer⟩ := h.represents.popFullHead
  have hgetSize := Queue.getSize_congr hcontainer
  have hempty := (List.disjoint_cons_left.mp h.represents.disjoint).1
  have hfull := (List.nodup_cons.mp h.represents.fullLinked.nodup).1
  refine ⟨q', hpop, ⟨hrep, ?_, ?_, ?_, ?_⟩, hcontainer⟩
  . rw [hgetSize]
    exact fun b' hb' => h.nonempty b' (List.mem_cons_of_mem _ hb')
  . rw [hgetSize]
    exact h.isEmpty
  . intro b'
    rw [Function.update_apply]
    split
    . next heq => simp [heq, hfull, hempty]
    . next hne => simp [h.free, hne]
  . rw [Queue.contents_congr fun b _ => congrFun hcontainer b, h.ledger, Queue.contents_cons,
      add_assoc]

theorem exec (h : Placed q holder pushed gone full empty) (hb : holder b = some t) (op : Op T)
    : Placed (q.exec b op) holder pushed gone full empty := by
  obtain ⟨hfull, hempty⟩ := h.notMem hb
  have hne : ∀ b' ∈ full, b' ≠ b := fun b' hb' heq => hfull (heq ▸ hb')
  have hne' : ∀ b' ∈ empty, b' ≠ b := fun b' hb' heq => hempty (heq ▸ hb')
  refine ⟨⟨h.represents.fullLinked, h.represents.emptyLinked, h.represents.disjoint,
    h.represents.fullSize, h.represents.emptySize, ?_⟩, ?_, ?_, h.free, ?_⟩
  . show q.elements = _
    rw [h.represents.elements]
    congr 1
    exact List.map_congr_left fun b' hb' => (Queue.exec_getSize_of_ne (hne b' hb') op).symm
  . intro b' hb'
    rw [Queue.exec_getSize_of_ne (hne b' hb')]
    exact h.nonempty b' hb'
  . intro b' hb'
    rw [Queue.exec_getSize_of_ne (hne' b' hb')]
    exact h.isEmpty b' hb'
  . rw [Queue.contents_congr fun b' hb' => Function.update_of_ne (hne b' hb') _ _]
    exact h.ledger

end Placed

end

namespace State

variable [DecidableEq Th] {s : State C T n Th} {t : Th} {b : Fin n}

theorem pushable_eq_some {p : BitVec 64 → Bool}
    : s.pushable t p = some b ↔
        s.batch t = some b ∧ s.holder b = some t ∧ p (s.queue.getSize b) = true := by
  simp [pushable, Option.filter_eq_some_iff]

end State

section

variable {s s' : State C T n Th} {t : Th} {b : Fin n}

/--
Every batch has its place, no assertion has failed, and a thread that is going to push its batch and
pop another one still holds it.
-/
structure Inv [DecidableEq Th] (s : State C T n Th) : Prop where
  placed : ∃ full empty,
    Placed s.queue s.holder s.pushed (s.handedOut + s.discarded) full empty
  tests : ∀ t, s.pc t = .tests .pushEmptyAndTryPopFull → ∃ b, s.pushable t (· = 0) = some b
  succeeded : s.failed = false

structure After (t : Th) (s s' : State C T n Th) : Prop where
  placed : ∃ full empty,
    Placed s'.queue s'.holder s'.pushed (s'.handedOut + s'.discarded) full empty
  idle : s'.pc t = .idle
  succeeded : s'.failed = false
  frame : Frame t s s'

variable [DecidableEq Th]

theorem Frame.pushable (h : Frame t s s') {t' : Th} (hne : t' ≠ t) {p : BitVec 64 → Bool}
    (hb : s.pushable t' p = some b) : s'.pushable t' p = some b := by
  obtain ⟨hbatch, hholder, hsize⟩ := State.pushable_eq_some.mp hb
  rw [State.pushable_eq_some, h.batch t' hne, Queue.getSize, h.container t' hne b hholder]
  exact ⟨hbatch, h.holder t' hne b hholder, hsize⟩

theorem After.inv (h : After t s s') (hinv : Inv s) : Inv s' := by
  refine ⟨h.placed, ?_, h.succeeded⟩
  intro t' ht'
  have hne : t' ≠ t := by
    rintro rfl
    rw [h.idle] at ht'
    simp at ht'
  rw [h.frame.pc t' hne] at ht'
  obtain ⟨b, hb⟩ := hinv.tests t' ht'
  exact ⟨b, h.frame.pushable hne hb⟩

theorem After.of_returns {batch : Option (Fin n)} (hinv : Inv s)
    (hplaced : ∃ full empty,
      Placed s'.queue s'.holder s'.pushed (s'.handedOut + s'.discarded) full empty)
    (hpc : s'.pc = Function.update s.pc t .idle) (hbatch : s'.batch = Function.update s.batch t batch)
    (hfailed : s'.failed = s.failed) (hcontainer : s'.queue.container = s.queue.container)
    (hholder : ∀ t' ≠ t, ∀ b, s.holder b = some t' → s'.holder b = some t') : After t s s' where
  placed := hplaced
  idle := by rw [hpc, Function.update_self]
  succeeded := hfailed.trans hinv.succeeded
  frame := frame_of_container hpc hbatch hcontainer hholder

theorem After.of_false {r : Except Failure (Returned C n)}
    {ghost : State C T n Th → Option (Fin n) → State C T n Th} (hinv : Inv s)
    (hr : r = .ok { rc := false, batch := s.batch t, queue := s.queue })
    : After t s (s.returns t r ghost) := by
  rw [State.returns_of_false hr]
  exact .of_returns hinv hinv.placed rfl rfl rfl rfl fun _ _ _ hb => hb

theorem After.tryPushFull (hinv : Inv s) (hb : s.pushable t (· ≠ 0) = some b)
    : After t s (s.returns t (s.queue.tryPushFull (s.batch t)) fun s _ => s.giveFull b) := by
  obtain ⟨hbatch, hholder, hsize⟩ := State.pushable_eq_some.mp hb
  obtain ⟨full, empty, hplaced⟩ := hinv.placed
  have hpush := hplaced.pushFullHead hholder (by simpa using hsize)
  have hop : s.queue.tryPushFull (some b) =
      .ok { rc := true, batch := some b, queue := s.queue.pushFullHead b } := by
    rfl
  rw [hbatch, State.returns_of_true hop]
  exact .of_returns hinv ⟨_, _, hpush⟩ rfl rfl rfl rfl fun _ hne _ => holder_update (.inr hholder) hne

theorem After.tryPushEmpty (hinv : Inv s) (hb : s.pushable t (· = 0) = some b)
    : After t s (s.returns t (s.queue.tryPushEmpty (s.batch t)) fun s _ => s.give b) := by
  obtain ⟨hbatch, hholder, hsize⟩ := State.pushable_eq_some.mp hb
  obtain ⟨full, empty, hplaced⟩ := hinv.placed
  obtain ⟨q, hq, hpush, hcontainer⟩ := hplaced.pushEmptyHead hholder (by simpa using hsize)
  rw [hbatch, State.returns_of_true (tryPushEmpty_eq hq)]
  exact .of_returns hinv ⟨_, _, hpush⟩ rfl rfl rfl hcontainer fun _ hne _ =>
    holder_update (.inr hholder) hne

theorem After.tryPopEmpty (hinv : Inv s)
    : After t s (s.returns t (s.queue.tryPopEmpty (s.batch t)) fun s batch => s.take t batch) := by
  obtain ⟨full, empty, hplaced⟩ := hinv.placed
  cases empty with
  | nil =>
    apply After.of_false hinv
    rw [Queue.tryPopEmpty, if_pos (hplaced.represents.empty_head.mpr rfl)]
    rfl
  | cons b empty =>
    obtain ⟨q, hq, hpop, hcontainer⟩ := hplaced.popEmptyHead t
    have hfree := (hplaced.free b).mpr (.inr List.mem_cons_self)
    have hop : s.queue.tryPopEmpty (s.batch t) =
        .ok { rc := true, batch := some b, queue := q } := by
      rw [Queue.tryPopEmpty, if_neg (by simp [hplaced.represents.empty_head]), hq]
    rw [State.returns_of_true hop]
    exact .of_returns hinv ⟨_, _, hpop⟩ rfl rfl rfl hcontainer fun _ hne _ =>
      holder_update (.inl hfree) hne

theorem After.pushFullAndTryPopEmpty (hinv : Inv s) (hb : s.pushable t (· ≠ 0) = some b)
    : After t s (s.returns t (s.queue.pushFullAndTryPopEmpty (s.batch t)) fun s batch =>
        (s.giveFull b).take t batch) := by
  obtain ⟨hbatch, hholder, hsize⟩ := State.pushable_eq_some.mp hb
  obtain ⟨full, empty, hplaced⟩ := hinv.placed
  cases empty with
  | nil =>
    apply After.of_false hinv
    rw [Queue.pushFullAndTryPopEmpty, if_pos (hplaced.represents.empty_head.mpr rfl)]
    rfl
  | cons b' empty =>
    have hpush := hplaced.pushFullHead hholder (by simpa using hsize)
    have hfree := (hpush.free b').mpr (.inr List.mem_cons_self)
    obtain ⟨q, hq, hpop, hcontainer⟩ := hpush.popEmptyHead t
    have hop : s.queue.pushFullAndTryPopEmpty (some b) =
        .ok { rc := true, batch := some b', queue := q } := by
      rw [Queue.pushFullAndTryPopEmpty, if_neg (by simp [hplaced.represents.empty_head])]
      exact hq
    rw [hbatch, State.returns_of_true hop]
    have hcontents : q.contents [b] = s.queue.contents [b] :=
      Queue.contents_congr fun b _ => congrFun hcontainer b
    refine .of_returns hinv ⟨b :: full, empty, ?_⟩ rfl rfl rfl hcontainer fun _ hne _ hb' =>
      holder_update (.inl hfree) hne (holder_update (.inr hholder) hne hb')
    show Placed q _ (s.pushed + q.contents [b]) _ _ _
    rw [hcontents]
    exact hpop

theorem After.tryPopFull (hinv : Inv s)
    : After t s
        (s.returns t (s.queue.tryPopFull (s.batch t)) fun s batch => s.takeFull t batch) := by
  obtain ⟨full, empty, hplaced⟩ := hinv.placed
  cases full with
  | nil =>
    apply After.of_false hinv
    rw [Queue.tryPopFull, if_pos (hplaced.represents.full_head.mpr rfl)]
    rfl
  | cons b full =>
    obtain ⟨q, hq, hpop, hcontainer⟩ := hplaced.popFullHead t
    have hfree := (hplaced.free b).mpr (.inl List.mem_cons_self)
    have hop : s.queue.tryPopFull (s.batch t) =
        .ok { rc := true, batch := some b, queue := q } := by
      rw [Queue.tryPopFull, if_neg (by simp [hplaced.represents.full_head]), hq]
    rw [State.returns_of_true hop]
    have hcontents : q.contents [b] = s.queue.contents [b] :=
      Queue.contents_congr fun b _ => congrFun hcontainer b
    refine .of_returns hinv ⟨full, empty, ?_⟩ rfl rfl rfl hcontainer fun _ hne _ =>
      holder_update (.inl hfree) hne
    show Placed q _ s.pushed (s.handedOut + q.contents [b] + s.discarded) _ _
    rw [hcontents, add_right_comm]
    exact hpop

theorem After.pushEmptyAndTryPopFull (hinv : Inv s) (hb : s.pushable t (· = 0) = some b)
    : After t s (s.returns t (s.queue.pushEmptyAndTryPopFull (s.batch t)) fun s batch =>
        (s.give b).takeFull t batch) := by
  obtain ⟨hbatch, hholder, hsize⟩ := State.pushable_eq_some.mp hb
  obtain ⟨full, empty, hplaced⟩ := hinv.placed
  cases full with
  | nil =>
    apply After.of_false hinv
    rw [Queue.pushEmptyAndTryPopFull, if_pos (hplaced.represents.full_head.mpr rfl)]
    rfl
  | cons b' full =>
    obtain ⟨q₁, hq₁, hpush, hcontainer₁⟩ := hplaced.pushEmptyHead hholder (by simpa using hsize)
    have hfree := (hpush.free b').mpr (.inl List.mem_cons_self)
    obtain ⟨q, hq, hpop, hcontainer⟩ := hpush.popFullHead t
    have hop : s.queue.pushEmptyAndTryPopFull (some b) =
        .ok { rc := true, batch := some b', queue := q } := by
      rw [Queue.pushEmptyAndTryPopFull, if_neg (by simp [hplaced.represents.full_head])]
      exact (bind_of_eq_ok hq₁ _).trans hq
    rw [hbatch, State.returns_of_true hop]
    have hcontents : q.contents [b'] = q₁.contents [b'] :=
      Queue.contents_congr fun b _ => congrFun hcontainer b
    refine .of_returns hinv ⟨full, b :: empty, ?_⟩ rfl rfl rfl (hcontainer.trans hcontainer₁)
      fun _ hne _ hb' => holder_update (.inl hfree) hne (holder_update (.inr hholder) hne hb')
    show Placed q _ s.pushed (s.handedOut + q.contents [b'] + s.discarded) _ _
    rw [hcontents, add_right_comm]
    exact hpop

theorem After.exec (hinv : Inv s) (hidle : s.pc t = .idle) (hholder : s.holder b = some t)
    (op : Op T)
    : After t s { s with queue := s.queue.exec b op, rc := Function.update s.rc t none } := by
  obtain ⟨full, empty, hplaced⟩ := hinv.placed
  refine ⟨⟨full, empty, hplaced.exec hholder op⟩, hidle, hinv.succeeded, ?_⟩
  refine ⟨fun _ _ => rfl, fun _ _ => rfl, fun _ _ _ hb => hb, ?_⟩
  intro t' hne b' hb'
  apply Function.update_of_ne
  rintro rfl
  exact hne (Option.some.inj (hb'.symm.trans hholder))

end

end BatchQueue
