import Mathlib.Algebra.Order.BigOperators.Group.List
import Mathlib.Algebra.Order.Ring.Nat
import Mathlib.Data.Fintype.Card
import RdmaSync.BatchQueue.Places

/-!
This module contains the soundness of the batch queue in any interleaving of its operations: what its
lists and its counters look like, what an operation that fails leaves alone, and what a reset leaves.
-/

namespace BatchQueue

open Refinement Threads

variable {C T Th : Type} [Container C T] {n : Nat}

/--
What the constructor has when the allocation of the batches succeeds: they are in one address space,
and each of them has room for its elements.
-/
structure Allocation (C : Type) {T : Type} [Container C T] (n : Nat) where
  sizeofBatch : Nat
  alignas_le : 64 ≤ sizeofBatch
  batchSize_le : Container.batchSize C ≤ sizeofBatch
  allocated : n * sizeofBatch < 2 ^ 64

theorem Allocation.size_lt (x : Allocation C n) : n < 2 ^ 64 := by
  have hle := Nat.mul_le_mul_left n x.alignas_le
  have hlt := x.allocated
  omega

theorem Allocation.elements_lt (x : Allocation C n) : n * Container.batchSize C < 2 ^ 64 := by
  exact Nat.lt_of_le_of_lt (Nat.mul_le_mul_left n x.batchSize_le) x.allocated

theorem toNat_sum {l : List (BitVec 64)} (h : (l.map BitVec.toNat).sum < 2 ^ 64)
    : l.sum.toNat = (l.map BitVec.toNat).sum := by
  induction l with
  | nil => rfl
  | cons a l ih =>
    simp only [List.map_cons, List.sum_cons] at h ⊢
    have hrest := ih (by omega)
    rw [BitVec.toNat_add, hrest, Nat.mod_eq_of_lt h]

section

variable {q : Queue C n} {full empty : List (Fin n)}

def Queue.sizes (q : Queue C n) (l : List (Fin n)) : Nat :=
  (l.map fun b => (q.getSize b).toNat).sum

theorem Queue.sizes_lt (x : Allocation C n) {l : List (Fin n)} (h : l.Nodup)
    : q.sizes l < 2 ^ 64 := by
  have hle : q.sizes l ≤ l.length * Container.batchSize C := by
    have hsum := List.sum_le_card_nsmul (l.map fun b => (q.getSize b).toNat)
      (Container.batchSize C) (by simp [Queue.getSize, Container.getSize_le])
    simpa [Queue.sizes] using hsum
  have hlength : l.length ≤ n := by simpa using h.length_le_card
  exact Nat.lt_of_le_of_lt (hle.trans (Nat.mul_le_mul_right _ hlength)) x.elements_lt

theorem Represents.toNat_elements (x : Allocation C n) (h : Represents q full empty)
    : q.elements.toNat = q.sizes full := by
  have hlt := Queue.sizes_lt (q := q) x h.fullLinked.nodup
  rw [h.elements, toNat_sum]
  . rw [List.map_map]
    rfl
  . rw [List.map_map]
    exact hlt

theorem Represents.noElements (x : Allocation C n) (h : Represents q full empty)
    (hsize : ∀ b ∈ full, q.getSize b ≠ 0) : q.noElements = true ↔ full = [] := by
  rw [Queue.noElements, decide_eq_true_eq]
  constructor
  . intro hzero
    have helements := h.toNat_elements x
    rw [hzero] at helements
    cases full with
    | nil => rfl
    | cons b full =>
      have hb := hsize b List.mem_cons_self
      simp only [Queue.sizes, List.map_cons, List.sum_cons] at helements
      have hne : (q.getSize b).toNat ≠ 0 := fun heq => hb (BitVec.eq_of_toNat_eq heq)
      simp at helements
      omega
  . rintro rfl
    exact h.elements

theorem Represents.toNat_size (x : Allocation C n) {l : List (Fin n)} (h : l.Nodup)
    : (BitVec.ofNat 64 l.length).toNat = l.length := by
  have hlength : l.length ≤ n := by simpa using h.length_le_card
  rw [BitVec.toNat_ofNat, Nat.mod_eq_of_lt (Nat.lt_of_le_of_lt hlength x.size_lt)]

theorem foldl_histogram {l : List (Fin n)} {h : Fin n → Nat} {b : Fin n} (hb : b ∉ l)
    : l.foldl (fun h b => Function.update h b (h b + 1)) h b = h b := by
  induction l generalizing h with
  | nil => rfl
  | cons a l ih =>
    rw [List.mem_cons, not_or] at hb
    rw [List.foldl_cons, ih hb.2, Function.update_of_ne hb.1]

theorem foldlM_countEmpty {l : List (Fin n)} {h : Fin n → Nat} (hnodup : l.Nodup)
    (hzero : ∀ b ∈ l, h b = 0) : ∃ h', l.foldlM Queue.countEmpty h = .ok h' := by
  induction l generalizing h with
  | nil => exact ⟨h, rfl⟩
  | cons b l ih =>
    rw [List.nodup_cons] at hnodup
    have hb := hzero b List.mem_cons_self
    have hcount : Queue.countEmpty h b = .ok (Function.update h b 1) := by
      simp [Queue.countEmpty, hb]
    obtain ⟨h', hfold⟩ := ih (h := Function.update h b 1) hnodup.2 (by
      intro b' hb'
      rw [Function.update_of_ne, hzero b' (List.mem_cons_of_mem _ hb')]
      rintro rfl
      exact hnodup.1 hb')
    refine ⟨h', ?_⟩
    rw [List.foldlM_cons]
    exact (bind_of_eq_ok hcount _).trans hfold

theorem Represents.assertNoDuplicates (h : Represents q full empty) {passes : Nat}
    (hpasses : n ≤ passes) : q.assertNoDuplicates passes = .ok () := by
  have hfull : q.batches passes q.full = .ok full := by
    have hlength : full.length ≤ n := by simpa using h.fullLinked.nodup.length_le_card
    rw [Queue.batches, h.fullLinked.walk_eq (hlength.trans hpasses)]
  have hempty : q.batches passes q.empty = .ok empty := by
    have hlength : empty.length ≤ n := by simpa using h.emptyLinked.nodup.length_le_card
    rw [Queue.batches, h.emptyLinked.walk_eq (hlength.trans hpasses)]
  obtain ⟨_, hfold⟩ := foldlM_countEmpty h.emptyLinked.nodup
    (h := full.foldl (fun h b => Function.update h b (h b + 1)) fun _ => 0)
    fun b hb => foldl_histogram fun hb' => h.disjoint hb' hb
  refine (bind_of_eq_ok hfull _).trans ?_
  refine (bind_of_eq_ok hempty _).trans ?_
  exact bind_of_eq_ok hfold _

end

section

variable {q : Queue C n} {holder : Fin n → Option Th} {pushed gone : Multiset T}
  {full empty : List (Fin n)} {t : Th}

/--
The loop moves all batches of the full list to the empty one, by induction on the full list: in each
pass, the thread holds the batch that it resets.
-/
theorem Placed.resetLoop (x : Allocation C n) (t : Th)
    (h : Placed q holder pushed gone full empty) {passes : Nat} (hpasses : full.length < passes)
    (fullBatch : Option (Fin n))
    : ∃ q', q.resetLoop passes fullBatch = .ok q' ∧
        Placed q' holder pushed (gone + q.contents full) [] (full.reverse ++ empty) ∧
        ∀ b, holder b ≠ none → q'.container b = q.container b := by
  induction full generalizing q gone empty passes fullBatch with
  | nil =>
    obtain ⟨passes, rfl⟩ : ∃ k, passes = k + 1 := ⟨passes - 1, by simp at hpasses; omega⟩
    have hguard := (h.represents.noElements x h.nonempty).mpr rfl
    refine ⟨q, by rw [Queue.resetLoop, if_pos hguard]; rfl, ?_, fun _ _ => rfl⟩
    rw [Queue.contents_nil, add_zero]
    exact h
  | cons b full ih =>
    obtain ⟨passes, rfl⟩ : ∃ k, passes = k + 1 := ⟨passes - 1, by simp at hpasses; omega⟩
    have hguard : ¬q.noElements = true := by simp [h.represents.noElements x h.nonempty]
    have hfree := (h.free b).mpr (.inl List.mem_cons_self)
    obtain ⟨hnotMem, -⟩ := List.nodup_cons.mp h.represents.fullLinked.nodup
    obtain ⟨q₁, hq₁, hpop, hcontainer₁⟩ := h.popFullHead t
    have hheld : Function.update holder b (some t) b = some t := Function.update_self b _ _
    have hsize : (q₁.exec b .reset).getSize b = 0 := by
      simp only [Queue.getSize, Queue.exec, Function.update_self]
      exact Container.getSize_reset _
    obtain ⟨q₂, hq₂, hpush, hcontainer₂⟩ := (hpop.exec hheld .reset).pushEmptyHead hheld hsize
    have hrest : ∀ b' ≠ b, q₂.container b' = q.container b' := by
      intro b' hne
      rw [hcontainer₂, ← hcontainer₁]
      exact Function.update_of_ne hne _ _
    have hholder : Function.update (Function.update holder b (some t)) b none = holder := by
      rw [Function.update_idem, ← hfree, Function.update_eq_self]
    rw [hholder] at hpush
    obtain ⟨q', hq', hplaced, hcontainer⟩ :=
      ih hpush (Nat.lt_of_succ_lt_succ hpasses) (some b)
    refine ⟨q', ?_, ?_, ?_⟩
    . have hpopped : q.tryPopFull fullBatch = .ok { rc := true, batch := some b, queue := q₁ } := by
        rw [Queue.tryPopFull, if_neg (by simp [h.represents.full_head]), hq₁]
      rw [Queue.resetLoop, if_neg hguard]
      refine (bind_of_eq_ok hpopped _).trans ?_
      exact (bind_of_eq_ok (tryPushEmpty_eq hq₂) _).trans hq'
    . have hcontents : q₂.contents full = q.contents full :=
        Queue.contents_congr fun b' hb' => hrest b' fun heq => hnotMem (heq ▸ hb')
      rw [hcontents, add_assoc, ← Queue.contents_cons] at hplaced
      rw [List.reverse_cons, List.append_assoc]
      exact hplaced
    . intro b' hb'
      rw [hcontainer b' hb']
      apply hrest
      rintro rfl
      exact hb' hfree

theorem Placed.reset (x : Allocation C n) (t : Th) (h : Placed q holder pushed gone full empty)
    : ∃ q', q.reset (n + 1) = .ok q' ∧
        Placed q' holder pushed (gone + q.contents full) [] (full.reverse ++ empty) ∧
        ∀ b, holder b ≠ none → q'.container b = q.container b := by
  have hlength : full.length ≤ n := by simpa using h.represents.fullLinked.nodup.length_le_card
  by_cases hsize : q.full.size = 0
  . have hnil : full = [] := by
      have htoNat := Represents.toNat_size x h.represents.fullLinked.nodup
      rw [← h.represents.fullSize, hsize] at htoNat
      exact List.length_eq_zero_iff.mp htoNat.symm
    subst hnil
    refine ⟨q, by rw [Queue.reset, if_pos hsize]; rfl, ?_, fun _ _ => rfl⟩
    rw [Queue.contents_nil, add_zero]
    exact h
  . have hhead : q.full.head ≠ none := by
      intro hnone
      rw [h.represents.full_head.mp hnone] at h
      exact hsize h.represents.fullSize
    obtain ⟨q', hloop, hplaced, hcontainer⟩ := h.resetLoop x t (Nat.lt_succ_of_le hlength) none
    refine ⟨q', ?_, hplaced, hcontainer⟩
    rw [Queue.reset, if_neg hsize]
    refine (bind_of_eq_ok (assert_ok hhead) _).trans ?_
    refine (bind_of_eq_ok hloop _).trans ?_
    refine (bind_of_eq_ok (assert_ok hplaced.represents.fullSize) _).trans ?_
    exact bind_of_eq_ok (hplaced.represents.assertNoDuplicates (Nat.le_succ n)) _

end

theorem foldlM_pushEmpty {q : Queue C n} {l empty : List (Fin n)} (h : Represents q [] empty)
    (hnodup : l.Nodup) (hdisjoint : l.Disjoint empty) (hsize : ∀ b ∈ l, q.getSize b = 0)
    : ∃ q', l.foldlM Queue.pushEmpty q = .ok q' ∧ Represents q' [] (l.reverse ++ empty) ∧
        q'.container = q.container := by
  induction l generalizing q empty with
  | nil => exact ⟨q, rfl, h, rfl⟩
  | cons b l ih =>
    rw [List.nodup_cons] at hnodup
    rw [List.disjoint_cons_left] at hdisjoint
    have hb := hsize b List.mem_cons_self
    obtain ⟨q₁, hq₁, hrep, hcontainer₁⟩ := h.pushEmptyHead List.not_mem_nil hdisjoint.1 hb
    have hpush : q.pushEmpty b = .ok q₁ := by
      refine (bind_of_eq_ok (assert_ok hb) _).trans ?_
      exact bind_of_eq_ok (tryPushEmpty_eq hq₁) _
    obtain ⟨q', hq', hrep', hcontainer⟩ :=
      ih hrep hnodup.2 (List.disjoint_cons_right.mpr ⟨hnodup.1, hdisjoint.2⟩) (by
        rw [Queue.getSize_congr hcontainer₁]
        exact fun b' hb' => hsize b' (List.mem_cons_of_mem _ hb'))
    refine ⟨q', ?_, ?_, hcontainer.trans hcontainer₁⟩
    . rw [List.foldlM_cons]
      exact (bind_of_eq_ok hpush _).trans hq'
    . rw [List.reverse_cons, List.append_assoc]
      exact hrep'

theorem exists_created
    : ∃ q : Queue C n, Queue.created = .ok q ∧ Represents q [] (List.finRange n).reverse ∧
        ∀ b, q.getSize b = 0 := by
  have hblank : Represents
      ({ elements := 0
         container := fun _ => Container.init
         next := fun _ => none
         full := { head := none, size := 0 }
         empty := { head := none, size := 0 } } : Queue C n) [] [] := by
    exact ⟨.nil, .nil, List.disjoint_nil_left _, rfl, rfl, rfl⟩
  obtain ⟨q, hq, hrep, hcontainer⟩ := foldlM_pushEmpty hblank (List.nodup_finRange n)
    (List.disjoint_nil_right _) fun _ _ => Container.getSize_init
  refine ⟨q, hq, by simpa using hrep, ?_⟩
  intro b
  rw [Queue.getSize, hcontainer]
  exact Container.getSize_init

section

variable {s : State C T n Th}

def OnePlace (s : State C T n Th) (full empty : List (Fin n)) (b : Fin n) : Prop :=
  b ∈ full ∧ b ∉ empty ∧ s.holder b = none ∨
    b ∉ full ∧ b ∈ empty ∧ s.holder b = none ∨
    b ∉ full ∧ b ∉ empty ∧ ∃ t, s.holder b = some t

/-- The two lists of a queue, and what its counters and its history say about them. -/
structure Consistent (s : State C T n Th) (full empty : List (Fin n)) : Prop where
  fullLinked : Linked s.queue.next s.queue.full.head full
  emptyLinked : Linked s.queue.next s.queue.empty.head empty
  fullNodup : full.Nodup
  emptyNodup : empty.Nodup
  fullSize : s.queue.full.size.toNat = full.length
  emptySize : s.queue.empty.size.toNat = empty.length
  elements : s.queue.elements.toNat = (full.map fun b => (s.queue.getSize b).toNat).sum
  places : ∀ b, OnePlace s full empty b
  ledger : s.pushed = s.handedOut + s.discarded + s.queue.contents full
  succeeded : s.failed = false

theorem Placed.consistent (x : Allocation C n) {full empty : List (Fin n)}
    (h : Placed s.queue s.holder s.pushed (s.handedOut + s.discarded) full empty)
    (hsucceeded : s.failed = false) : Consistent s full empty where
  fullLinked := h.represents.fullLinked
  emptyLinked := h.represents.emptyLinked
  fullNodup := h.represents.fullLinked.nodup
  emptyNodup := h.represents.emptyLinked.nodup
  fullSize := by
    rw [h.represents.fullSize, Represents.toNat_size x h.represents.fullLinked.nodup]
  emptySize := by
    rw [h.represents.emptySize, Represents.toNat_size x h.represents.emptyLinked.nodup]
  elements := h.represents.toNat_elements x
  places b := by
    have hfree := h.free b
    by_cases hfull : b ∈ full
    . exact .inl ⟨hfull, h.represents.disjoint hfull, hfree.mpr (.inl hfull)⟩
    . by_cases hempty : b ∈ empty
      . exact .inr (.inl ⟨hfull, hempty, hfree.mpr (.inr hempty)⟩)
      . refine .inr (.inr ⟨hfull, hempty, ?_⟩)
        apply Option.ne_none_iff_exists'.mp
        simp [hfree, hfull, hempty]
  ledger := h.ledger
  succeeded := hsucceeded

end

section

variable [DecidableEq Th] {q : Queue C n} {s s' : State C T n Th} {a : Act T n Th} {t : Th}

theorem inv_init (hq : Queue.created = .ok q) : Inv (.init q : State C T n Th) := by
  obtain ⟨q', hq', hrep, hsize⟩ := exists_created (C := C) (n := n)
  obtain rfl : q = q' := Except.ok.inj (hq.symm.trans hq')
  refine ⟨⟨[], _, hrep, by simp, fun b _ => hsize b, ?_, rfl⟩, by simp [State.init], rfl⟩
  intro b
  simp [State.init]

variable [Fintype Th]

theorem step_reset (x : Allocation C n) {full empty : List (Fin n)}
    (h : Placed s.queue s.holder s.pushed (s.handedOut + s.discarded) full empty)
    (hidle : ∀ t, s.pc t = .idle) (t : Th)
    : ∃ q', step s (.reset t) = some
          { s with
            queue := q'
            rc := Function.update s.rc t none
            discarded := s.discarded + s.queue.contents full } ∧
        Placed q' s.holder s.pushed (s.handedOut + (s.discarded + s.queue.contents full)) []
          (full.reverse ++ empty) ∧
        ∀ b, s.holder b ≠ none → q'.container b = s.queue.container b := by
  obtain ⟨q', hq', hplaced, hcontainer⟩ := h.reset x t
  have hlength : full.length ≤ n := by simpa using h.represents.fullLinked.nodup.length_le_card
  have hfull : s.queue.batches (n + 1) s.queue.full = .ok full := by
    rw [Queue.batches, h.represents.fullLinked.walk_eq (Nat.le_succ_of_le hlength)]
  refine ⟨q', ?_, ?_, hcontainer⟩
  . simp only [step, if_pos hidle, hq', hfull]
  . rw [← add_assoc]
    exact hplaced

theorem inv_step (x : Allocation C n) (h : Inv s) (hstep : step s a = some s') : Inv s' := by
  cases a with
  | assign t batch =>
    simp only [step] at hstep
    split at hstep
    . next hidle =>
      cases hstep
      refine After.inv (t := t) ⟨h.placed, hidle, h.succeeded, ?_⟩ h
      exact ⟨fun _ _ => rfl, fun _ hne => Function.update_of_ne hne _ _, fun _ _ _ hb => hb,
        fun _ _ _ _ => rfl⟩
    . simp at hstep
  | exec t b op =>
    simp only [step] at hstep
    split at hstep
    . next hguard =>
      cases hstep
      exact (After.exec h hguard.1 hguard.2 op).inv h
    . simp at hstep
  | tryPushFull t =>
    simp only [step] at hstep
    split at hstep
    . next b _ hb =>
      cases hstep
      exact (After.tryPushFull h hb).inv h
    . simp at hstep
  | tryPushEmpty t =>
    simp only [step] at hstep
    split at hstep
    . next b _ hb =>
      cases hstep
      exact (After.tryPushEmpty h hb).inv h
    . simp at hstep
  | tryPopEmpty t =>
    simp only [step] at hstep
    split at hstep
    . cases hstep
      exact (After.tryPopEmpty h).inv h
    . simp at hstep
  | pushFullAndTryPopEmpty t =>
    simp only [step] at hstep
    split at hstep
    . next b _ hb =>
      cases hstep
      exact (After.pushFullAndTryPopEmpty h hb).inv h
    . simp at hstep
  | guard t call =>
    simp only [step] at hstep
    split at hstep
    . next hguard =>
      split at hstep
      . cases hstep
        exact ⟨h.placed, h.tests, h.succeeded⟩
      . cases hstep
        refine ⟨h.placed, ?_, h.succeeded⟩
        intro t' ht'
        simp only [Function.update_apply] at ht'
        split at ht'
        . next heq =>
          subst heq
          exact Option.isSome_iff_exists.mp (hguard.2 (by simpa using ht'))
        . exact h.tests t' ht'
    . simp at hstep
  | tryLock t locked =>
    simp only [step] at hstep
    split at hstep
    . simp at hstep
    . next call htests =>
      split at hstep
      . cases hstep
        refine After.inv (t := t) ⟨h.placed, Function.update_self _ _ _, h.succeeded, ?_⟩ h
        exact ⟨fun _ hne => Function.update_of_ne hne _ _, fun _ _ => rfl, fun _ _ _ hb => hb,
          fun _ _ _ _ => rfl⟩
      . split at hstep
        . cases hstep
          exact (After.tryPopFull h).inv h
        . next b hb =>
          cases hstep
          exact (After.pushEmptyAndTryPopFull h hb).inv h
        . simp at hstep
  | reset t =>
    have hguard := hstep
    simp only [step] at hguard
    split at hguard
    . next hidle =>
      obtain ⟨full, empty, hplaced⟩ := h.placed
      obtain ⟨q, hreset, hplaced', hcontainer⟩ := step_reset x hplaced hidle t
      obtain rfl := Option.some.inj (hreset.symm.trans hstep)
      refine After.inv (t := t) ⟨⟨_, _, hplaced'⟩, hidle t, h.succeeded, ?_⟩ h
      exact ⟨fun _ _ => rfl, fun _ _ => rfl, fun _ _ _ hb => hb,
        fun _ _ b hb => hcontainer b (by simp [hb])⟩
    . simp at hguard

theorem inv_of_reach (x : Allocation C n) (hq : Queue.created = .ok q)
    (h : Step.Reach step Step.any (.init q : State C T n Th) s) : Inv s := by
  refine h.invariant (inv_init hq) ?_
  intro s a s' hinv _ hstep
  exact inv_step x hinv hstep

theorem step_keeps (hstep : step s a = some s') (hrc : s'.rc a.thread = some false)
    : s'.queue = s.queue ∧ s'.batch = s.batch := by
  have htake : ∀ (s : State C T n Th) (t : Th) batch, (s.take t batch).rc = s.rc := by
    intro s t batch
    cases batch <;> rfl
  cases a with
  | assign t batch =>
    simp only [step] at hstep
    split at hstep
    . cases hstep
      simp [Act.thread] at hrc
    . simp at hstep
  | exec t b op =>
    simp only [step] at hstep
    split at hstep
    . cases hstep
      simp [Act.thread] at hrc
    . simp at hstep
  | tryPushFull t =>
    simp only [step] at hstep
    split at hstep
    . cases hstep
      exact State.returns_keeps (fun _ => tryPushFull_keeps) (fun _ _ => rfl) hrc
    . simp at hstep
  | tryPushEmpty t =>
    simp only [step] at hstep
    split at hstep
    . cases hstep
      exact State.returns_keeps (fun _ => tryPushEmpty_keeps) (fun _ _ => rfl) hrc
    . simp at hstep
  | tryPopEmpty t =>
    simp only [step] at hstep
    split at hstep
    . cases hstep
      exact State.returns_keeps (fun _ => tryPopEmpty_keeps) (fun s => htake s t) hrc
    . simp at hstep
  | pushFullAndTryPopEmpty t =>
    simp only [step] at hstep
    split at hstep
    . cases hstep
      exact State.returns_keeps (fun _ => pushFullAndTryPopEmpty_keeps) (fun _ => htake _ t) hrc
    . simp at hstep
  | guard t call =>
    simp only [step] at hstep
    split at hstep
    . split at hstep
      . cases hstep
        exact ⟨rfl, rfl⟩
      . cases hstep
        exact ⟨rfl, rfl⟩
    . simp at hstep
  | tryLock t locked =>
    simp only [step] at hstep
    split at hstep
    . simp at hstep
    . split at hstep
      . cases hstep
        exact ⟨rfl, rfl⟩
      . split at hstep
        . cases hstep
          exact State.returns_keeps (fun _ => tryPopFull_keeps) (fun s => htake s t) hrc
        . cases hstep
          exact State.returns_keeps (fun _ => pushEmptyAndTryPopFull_keeps) (fun _ => htake _ t) hrc
        . simp at hstep
  | reset t =>
    simp only [step] at hstep
    split at hstep
    . split at hstep
      . cases hstep
        simp [Act.thread] at hrc
      . cases hstep
        exact ⟨rfl, rfl⟩
    . simp at hstep

theorem batchQueue_sound (x : Allocation C n) (hq : Queue.created = .ok q)
    (h : Step.Reach step Step.any (.init q : State C T n Th) s)
    : (∃ full empty, Consistent s full empty ∧
        ((∀ t, s.pc t = .idle) → ∀ t, ∃ s' empty',
          step s (.reset t) = some s' ∧ Consistent s' [] empty' ∧ s'.queue.elements = 0 ∧
            ∀ b ∈ full, b ∈ empty' ∧ s'.queue.getSize b = 0)) ∧
      ∀ a s', step s a = some s' → s'.rc a.thread = some false →
        s'.queue = s.queue ∧ s'.batch = s.batch := by
  have hinv := inv_of_reach x hq h
  obtain ⟨full, empty, hplaced⟩ := hinv.placed
  refine ⟨⟨full, empty, hplaced.consistent x hinv.succeeded, ?_⟩, fun _ _ => step_keeps⟩
  intro hidle t
  obtain ⟨q', hstep, hplaced', -⟩ := step_reset x hplaced hidle t
  refine ⟨_, _, hstep, hplaced'.consistent x hinv.succeeded, hplaced'.represents.elements, ?_⟩
  intro b hb
  have hmem : b ∈ full.reverse ++ empty := by simp [hb]
  exact ⟨hmem, hplaced'.isEmpty b hmem⟩

end

section Runs

def pairAllocation : Allocation (Stack (BitVec 64) 2) 2 where
  sizeofBatch := 64
  alignas_le := Nat.le_refl 64
  batchSize_le := by decide
  allocated := by decide

def exchangeRun : List (Act (BitVec 64) 2 Bool) :=
  [.tryPopEmpty true, .exec true (.last 1) (.tryPush 7), .exec true (.last 1) (.tryPush 8),
    .guard false .tryPopFull, .pushFullAndTryPopEmpty true, .guard false .tryPopFull, .tryLock false false,
    .guard false .tryPopFull, .tryPushEmpty true, .tryLock false true]

theorem batchQueue_sound_exchangeRun
    : ∃ (q : Queue (Stack (BitVec 64) 2) 2) (s : State _ (BitVec 64) 2 Bool),
        Step.Reach step Step.any (.init q) s ∧ s.handedOut = {7, 8} ∧ s.rc false = some true ∧
          ∃ full empty, Consistent s full empty := by
  have hrun : (match Queue.created (C := Stack (BitVec 64) 2) (n := 2) with
      | .ok q => (Step.run step (.init q) exchangeRun).any fun s =>
          s.handedOut = {7, 8} ∧ s.rc false = some true
      | .error _ => false) = true := by
    decide +kernel
  split at hrun
  . next q hq =>
    obtain ⟨s, hreach, hs⟩ := Step.exists_reach_of_run hrun
    simp only [decide_eq_true_eq] at hs
    obtain ⟨⟨full, empty, hconsistent, -⟩, -⟩ := batchQueue_sound pairAllocation hq hreach
    exact ⟨q, s, hreach, hs.1, hs.2, full, empty, hconsistent⟩
  . simp at hrun

end Runs

end BatchQueue
