import RdmaSync.BenchmarkHelper.ReadBlocks
import RdmaSync.Threads.Transition
import Mathlib.Data.List.Range

/-!
This module contains the reader and the local writer of the ordering benchmarks, word by word, and
what the detector counts while the words of a block are fetched in a given order.
-/

namespace BenchmarkHelper
namespace Ordering

open Rdma ReadBlocks Threads

structure Region where
  sizeBytes : Nat
  blockSize : Nat
  blockSize_aligned : blockSize % 8 = 0

namespace Region

variable (r : Region)

def words : Nat :=
  r.sizeBytes / 8

def numberBlocks : Nat :=
  r.sizeBytes / r.blockSize

def numberEntries : Nat :=
  r.blockSize / 8

def word (b_i e_i : Nat) : Nat :=
  r.numberEntries * b_i + e_i

end Region

inductive Control where
  | loop (b_i : Nat)
  | fetching (b_i fetched : Nat)
  deriving DecidableEq

structure State where
  mem : Mem
  version : Word
  e_i : Nat
  control : Control
  buffer : Nat → Word
  blocksRead : Nat
  inconsistencies : Nat

inductive Action where
  | sweep
  | store
  | read
  | again
  | fetch
  | compare
  deriving DecidableEq

namespace State

/-- The writer waits before its first sweep, and the region is zeroed. -/
def init (r : Region) (buffer : Nat → Word) : State where
  mem := fun _ => 0
  version := 1
  e_i := r.words
  control := .loop 0
  buffer := buffer
  blocksRead := 0
  inconsistencies := 0

def sweep (s : State) : State :=
  { s with version := s.version + 1, e_i := 0 }

def store (s : State) : State :=
  { s with mem := Function.update s.mem s.e_i s.version, e_i := s.e_i + 1 }

def read (s : State) (b_i : Nat) : State :=
  { s with control := .fetching b_i 0, blocksRead := s.blocksRead + 1 }

def again (s : State) : State :=
  { s with control := .loop 0 }

def fetch (s : State) (r : Region) (b_i fetched e_i : Nat) : State :=
  { s with
    control := .fetching b_i (fetched + 1)
    buffer := Function.update s.buffer e_i (s.mem (r.word b_i e_i)) }

def found (s : State) (r : Region) : Nat :=
  countAscents (s.buffer 0) ((List.range r.numberEntries).map s.buffer)

def compare (s : State) (r : Region) (b_i : Nat) : State :=
  { s with
    control := .loop (b_i + 1)
    inconsistencies := s.inconsistencies + s.found r }

end State

/-- `order` says which entry of a block is fetched after how many others. -/
def step (r : Region) (order : Nat → Nat) : Step State Action := fun s a =>
  match a with
  | .sweep => if s.e_i = r.words then some s.sweep else none
  | .store => if s.e_i < r.words then some s.store else none
  | .read =>
    match s.control with
    | .loop b_i => if b_i < r.numberBlocks then some (s.read b_i) else none
    | .fetching .. => none
  | .again =>
    match s.control with
    | .loop _ => some s.again
    | .fetching .. => none
  | .fetch =>
    match s.control with
    | .fetching b_i k => if k < r.numberEntries then some (s.fetch r b_i k (order k)) else none
    | .loop _ => none
  | .compare =>
    match s.control with
    | .fetching b_i k => if k = r.numberEntries then some (s.compare r b_i) else none
    | .loop _ => none

def increasing (k : Nat) : Nat := k

def decreasing (r : Region) (k : Nat) : Nat :=
  r.numberEntries - 1 - k

inductive Moves (r : Region) (order : Nat → Nat) (s : State) : Action → State → Prop where
  | sweep (h : s.e_i = r.words) : Moves r order s .sweep s.sweep
  | store (h : s.e_i < r.words) : Moves r order s .store s.store
  | read (b_i : Nat) (hcontrol : s.control = .loop b_i) : Moves r order s .read (s.read b_i)
  | again (b_i : Nat) (hcontrol : s.control = .loop b_i) : Moves r order s .again s.again
  | fetch (b_i k : Nat) (hcontrol : s.control = .fetching b_i k) (h : k < r.numberEntries)
    : Moves r order s .fetch (s.fetch r b_i k (order k))
  | compare (b_i : Nat) (hcontrol : s.control = .fetching b_i r.numberEntries)
    : Moves r order s .compare (s.compare r b_i)

variable {r : Region} {order : Nat → Nat} {s s' : State} {a : Action}

theorem moves_of_step (h : step r order s a = some s') : Moves r order s a s' := by
  cases a with
  | sweep =>
    simp only [step] at h
    split at h
    . next hend => cases h; exact .sweep hend
    . cases h
  | store =>
    simp only [step] at h
    split at h
    . next hlt => cases h; exact .store hlt
    . cases h
  | read =>
    simp only [step] at h
    split at h
    . next b_i hcontrol =>
      split at h
      . cases h; exact .read b_i hcontrol
      . cases h
    . cases h
  | again =>
    simp only [step] at h
    split at h
    . next b_i hcontrol => cases h; exact .again b_i hcontrol
    . cases h
  | fetch =>
    simp only [step] at h
    split at h
    . next b_i k hcontrol =>
      split at h
      . next hlt => cases h; exact .fetch b_i k hcontrol hlt
      . cases h
    . cases h
  | compare =>
    simp only [step] at h
    split at h
    . next b_i k hcontrol =>
      split at h
      . next hend =>
        cases h
        rw [hend] at hcontrol
        exact .compare b_i hcontrol
      . cases h
    . cases h

def increases (s : State) (a : Action) : Bool :=
  a != .sweep || decide (s.version < s.version + 1)

/--
What the writer keeps: a prefix of the region has the version of this sweep, and no word is newer.
-/
structure Sweeping (r : Region) (s : State) : Prop where
  sorted : ∀ j, s.mem (j + 1) ≤ s.mem j
  stored : s.e_i < r.words → ∀ j, j < s.e_i → s.mem j = s.version
  le_version : ∀ j, s.mem j ≤ s.version

/-- What has been fetched of the block is not newer than the region. -/
def NotNewer (r : Region) (order : Nat → Nat) (s : State) : Prop :=
  ∀ b_i k, s.control = .fetching b_i k → ∀ i, i < k →
    s.buffer (order i) ≤ s.mem (r.word b_i (order i))

namespace Sweeping

theorem init (r : Region) (buffer : Nat → Word) : Sweeping r (.init r buffer) where
  sorted := fun _ => BitVec.le_refl _
  stored := fun h => absurd h (Nat.lt_irrefl _)
  le_version := fun _ => by simp [State.init]

theorem le_store (h : Sweeping r s) (j : Nat) : s.mem j ≤ s.store.mem j := by
  by_cases hj : j = s.e_i
  . subst hj
    simp only [State.store, Function.update_self]
    exact h.le_version _
  . simp only [State.store, Function.update_of_ne hj]
    exact BitVec.le_refl _

theorem sweep (h : Sweeping r s) (hversion : s.version < s.version + 1) : Sweeping r s.sweep where
  sorted := h.sorted
  stored := fun _ j hj => absurd hj (Nat.not_lt_zero j)
  le_version := fun j => BitVec.le_trans (h.le_version j) (BitVec.le_of_lt hversion)

theorem store (h : Sweeping r s) (hlt : s.e_i < r.words) : Sweeping r s.store where
  sorted := by
    intro j
    by_cases hj : j + 1 = s.e_i
    . -- the word before has this version already
      have hbefore := h.stored hlt j (by omega)
      simp only [State.store, ← hj, Function.update_self]
      rw [Function.update_of_ne (by omega), hbefore]
      exact BitVec.le_refl _
    . refine BitVec.le_trans ?_ (h.le_store j)
      simp only [State.store, Function.update_of_ne hj]
      exact h.sorted j
  stored := by
    intro _ j hj
    by_cases heq : j = s.e_i
    . simp only [State.store, heq, Function.update_self]
    . simp only [State.store, Function.update_of_ne heq] at hj ⊢
      exact h.stored hlt j (by omega)
  le_version := by
    intro j
    by_cases hj : j = s.e_i
    . simp only [State.store, hj, Function.update_self]
      exact BitVec.le_refl _
    . simp only [State.store, Function.update_of_ne hj]
      exact h.le_version j

theorem step (h : Sweeping r s) (hversion : increases s a = true) (hmoves : Moves r order s a s')
    : Sweeping r s' := by
  cases hmoves with
  | sweep => exact h.sweep (by simpa [increases] using hversion)
  | store hlt => exact h.store hlt
  | read | again | fetch | compare => exact ⟨h.sorted, h.stored, h.le_version⟩

end Sweeping

theorem NotNewer.step (h : NotNewer r order s) (hsweeping : Sweeping r s)
    (hmoves : Moves r order s a s') : NotNewer r order s' := by
  intro b_i k hcontrol i hi
  cases hmoves with
  | sweep => exact h b_i k hcontrol i hi
  | store => exact BitVec.le_trans (h b_i k hcontrol i hi) (hsweeping.le_store _)
  | read => cases hcontrol; exact absurd hi (Nat.not_lt_zero i)
  | again => cases hcontrol
  | compare => cases hcontrol
  | fetch b_i k hcontrol' hlt =>
    cases hcontrol
    by_cases heq : order i = order k
    . simp only [State.fetch, heq, Function.update_self]
      exact BitVec.le_refl _
    . simp only [State.fetch, Function.update_of_ne heq]
      apply h b_i k hcontrol'
      have : i ≠ k := fun hik => heq (by rw [hik])
      omega

theorem sound_of_reach {cond : State → Action → Prop} {buffer : Nat → Word}
    (hcond : ∀ s a, cond s a → increases s a = true)
    (h : Step.Reach (step r order) cond (.init r buffer) s)
    : Sweeping r s ∧ NotNewer r order s := by
  apply h.invariant (I := fun s => Sweeping r s ∧ NotNewer r order s)
  . refine ⟨.init r buffer, ?_⟩
    intro b_i k hcontrol
    cases hcontrol
  . rintro s a s' ⟨hsweeping, hnewer⟩ hc hstep
    have hmoves := moves_of_step hstep
    exact ⟨hsweeping.step (hcond s a hc) hmoves, hnewer.step hsweeping hmoves⟩

theorem found_eq_zero (s : State) (r : Region)
    : s.found r = 0 ↔ ∀ i, i + 1 < r.numberEntries → s.buffer (i + 1) ≤ s.buffer i := by
  rw [State.found, countAscents_eq_zero, ← List.map_cons, List.isChain_map]
  cases r.numberEntries with
  | zero => simp
  | succ n =>
    rw [List.isChain_cons_range_succ]
    constructor
    . intro h i hi
      exact h.2 i (by omega)
    . intro h
      exact ⟨BitVec.le_refl _, fun i hi => h i (by omega)⟩

theorem inconsistencies_step (hmoves : Moves r order s a s')
    (hfound : ∀ b_i, s.control = .fetching b_i r.numberEntries → s.found r = 0)
    : s'.inconsistencies = s.inconsistencies := by
  cases hmoves with
  | compare b_i hcontrol =>
    show s.inconsistencies + s.found r = _
    rw [hfound b_i hcontrol, Nat.add_zero]
  | _ => rfl

theorem inconsistencies_eq_zero {cond : State → Action → Prop} {I : State → Prop}
    {buffer : Nat → Word} (hincreases : ∀ s a, cond s a → increases s a = true)
    (hinit : I (.init r buffer))
    (hfound : ∀ s b_i, I s → s.control = .fetching b_i r.numberEntries → s.found r = 0)
    (hkeep : ∀ s a s', I s → Sweeping r s → NotNewer r order s → cond s a →
      Moves r order s a s' → I s')
    (h : Step.Reach (step r order) cond (.init r buffer) s) : s.inconsistencies = 0 := by
  have hinv : I s ∧ s.inconsistencies = 0 := by
    induction h with
    | refl => exact ⟨hinit, rfl⟩
    | next a hreach hc hstep ih =>
      have hmoves := moves_of_step hstep
      obtain ⟨hsweeping, hnewer⟩ := sound_of_reach hincreases hreach
      refine ⟨hkeep _ a _ ih.1 hsweeping hnewer hc hmoves, ?_⟩
      rw [inconsistencies_step hmoves fun b_i hcontrol => hfound _ b_i ih.1 hcontrol, ih.2]
  exact hinv.2

section Increasing

/--
Whether the writer is about to overtake the reader inside a block: it stores the entry that is
fetched next, and it has stored the one before it again since that was fetched.
-/
def overtakes (r : Region) (s : State) : Bool :=
  match s.control with
  | .fetching b_i (k + 1) =>
    decide (k + 1 < r.numberEntries) && s.e_i == r.word b_i (k + 1) &&
      s.mem (r.word b_i k) != s.buffer k
  | .fetching _ 0 | .loop _ => false

def neverOvertakes (r : Region) (s : State) (a : Action) : Bool :=
  increases s a && !(a == .store && overtakes r s)

def InOrder (r : Region) (s : State) : Prop :=
  ∀ b_i k, s.control = .fetching b_i k →
    (∀ i, i + 1 < k → s.buffer (i + 1) ≤ s.buffer i) ∧
    ∀ i, i + 1 = k → k < r.numberEntries → s.mem (r.word b_i k) ≤ s.buffer i

theorem InOrder.found (h : InOrder r s) {b_i : Nat}
    (hcontrol : s.control = .fetching b_i r.numberEntries) : s.found r = 0 := by
  exact (found_eq_zero s r).mpr (h b_i _ hcontrol).1

theorem InOrder.store (h : InOrder r s) (hsweeping : Sweeping r s) (hlt : s.e_i < r.words)
    (hbehind : overtakes r s = false) : InOrder r s.store := by
  intro b_i k hcontrol
  obtain ⟨hdescends, hnext⟩ := h b_i k hcontrol
  refine ⟨hdescends, ?_⟩
  rintro i rfl hk
  by_cases hword : r.word b_i (i + 1) = s.e_i
  . -- the writer is here, but has not stored the entry before again
    have hcontrol' : s.control = .fetching b_i (i + 1) := hcontrol
    have hsame : s.mem (r.word b_i i) = s.buffer i := by
      simpa [overtakes, hcontrol', hk, ← hword] using hbehind
    have hstored : s.mem (r.word b_i i) = s.version := by
      apply hsweeping.stored hlt
      rw [← hword]
      exact Nat.lt_succ_self _
    simp only [State.store, ← hword, Function.update_self]
    rw [← hsame, hstored]
    exact BitVec.le_refl _
  . simp only [State.store, Function.update_of_ne hword]
    exact hnext i rfl hk

theorem InOrder.fetch (h : InOrder r s) (hsweeping : Sweeping r s) {b_i k : Nat}
    (hcontrol : s.control = .fetching b_i k) (hlt : k < r.numberEntries)
    : InOrder r (s.fetch r b_i k k) := by
  obtain ⟨hdescends, hnext⟩ := h b_i k hcontrol
  intro b_i' k' hcontrol'
  cases hcontrol'
  constructor
  . intro i hi
    by_cases hik : i + 1 = k
    . simp only [State.fetch, hik, Function.update_self]
      rw [Function.update_of_ne (by omega)]
      exact hnext i hik hlt
    . simp only [State.fetch, Function.update_of_ne hik]
      rw [Function.update_of_ne (by omega)]
      exact hdescends i (by omega)
  . intro i hi _
    obtain rfl : i = k := by omega
    simp only [State.fetch, Function.update_self]
    exact hsweeping.sorted _

theorem InOrder.step (h : InOrder r s) (hsweeping : Sweeping r s)
    (hbehind : neverOvertakes r s a = true) (hmoves : Moves r increasing s a s') : InOrder r s' := by
  cases hmoves with
  | sweep => exact h
  | store hlt =>
    apply h.store hsweeping hlt
    simpa [neverOvertakes, increases] using hbehind
  | read b_i' hcontrol' =>
    intro b_i k hcontrol
    cases hcontrol
    exact ⟨fun i hi => absurd hi (Nat.not_lt_zero _), fun i hi => absurd hi (Nat.succ_ne_zero i)⟩
  | again | compare =>
    intro b_i k hcontrol
    cases hcontrol
  | fetch b_i k hcontrol hlt => exact h.fetch hsweeping hcontrol hlt

/--
As long as the writer does not overtake the reader inside a block, the detector counts nothing in
blocks that are fetched in increasing address order.
-/
theorem inconsistencies_of_increasing {buffer : Nat → Word}
    (h : Step.Reach (step r increasing) (fun s a => neverOvertakes r s a = true)
      (.init r buffer) s)
    : s.inconsistencies = 0 := by
  apply inconsistencies_eq_zero (I := InOrder r) _ _ _ _ h
  . intro s a hc
    exact (Bool.and_eq_true_iff.mp hc).1
  . intro _ _ hcontrol
    cases hcontrol
  . exact fun s b_i hinv hcontrol => hinv.found hcontrol
  . exact fun s a s' hinv hsweeping _ hc hmoves => hinv.step hsweeping hc hmoves

def benchmarkRegion : Region where
  sizeBytes := 1024 * 1024 * 1024
  blockSize := 512
  blockSize_aligned := rfl

def behindRun : List Action :=
  [.read, .fetch, .sweep, .store] ++ List.replicate 63 .fetch ++ [.store, .compare]

theorem inconsistencies_of_increasing_behindRun
    : ∃ s, Step.Reach (step benchmarkRegion increasing)
        (fun s a => neverOvertakes benchmarkRegion s a = true)
        (.init benchmarkRegion fun _ => 0) s ∧
        s.blocksRead = 1 ∧ s.mem 1 = 2 ∧ s.inconsistencies = 0 := by
  have hrun : (Step.runIf (step benchmarkRegion increasing) (neverOvertakes benchmarkRegion)
      (.init benchmarkRegion fun _ => 0) behindRun).any
      (fun s => s.blocksRead == 1 && s.mem 1 == 2) = true := by
    decide +kernel
  obtain ⟨s, hreach, hs⟩ := Step.exists_reach_of_runIf hrun
  simp only [Bool.and_eq_true, beq_iff_eq] at hs
  exact ⟨s, hreach, hs.1, hs.2, inconsistencies_of_increasing hreach⟩

/-- The writer stores the first two entries between the READs of the first and the second. -/
def overtakingRun : List Action :=
  [.read, .fetch, .sweep, .store, .store] ++ List.replicate 63 .fetch ++ [.compare]

theorem not_inconsistencies_of_increasing_overtakingRun
    : ¬∀ (r : Region) (buffer : Nat → Word) (s : State),
        Step.Reach (step r increasing) (fun s a => increases s a = true) (.init r buffer) s →
        s.inconsistencies = (State.init r buffer).inconsistencies := by
  have hrun : (Step.runIf (step benchmarkRegion increasing) increases
      (.init benchmarkRegion fun _ => 0) overtakingRun).any
      (fun s => s.inconsistencies == 1) = true := by
    decide +kernel
  obtain ⟨s, hreach, hs⟩ := Step.exists_reach_of_runIf hrun
  intro h
  have hzero := h benchmarkRegion _ s hreach
  rw [beq_iff_eq.mp hs] at hzero
  cases hzero

/-- Entry `i` of block `b_i` has been fetched, and the entry behind it is or will be newer. -/
def Overtaken (r : Region) (b_i i : Nat) (s : State) : Prop :=
  ∃ k, s.control = .fetching b_i k ∧ i < k ∧ i + 1 < r.numberEntries ∧
    if k = i + 1 then s.buffer i < s.mem (r.word b_i (i + 1)) else s.buffer i < s.buffer (i + 1)

theorem overtaken_store (hsweeping : Sweeping r s) (hnewer : NotNewer r increasing s)
    (hlt : s.e_i < r.words) (hovertakes : overtakes r s = true)
    : ∃ b_i i, Overtaken r b_i i s.store := by
  unfold overtakes at hovertakes
  split at hovertakes
  . next b_i k hcontrol =>
    simp only [Bool.and_eq_true, decide_eq_true_eq, beq_iff_eq, bne_iff_ne] at hovertakes
    obtain ⟨⟨hk, hword⟩, hne⟩ := hovertakes
    refine ⟨b_i, k, k + 1, hcontrol, Nat.lt_succ_self k, hk, ?_⟩
    have hold : s.buffer k ≤ s.mem (r.word b_i k) := hnewer b_i _ hcontrol k (Nat.lt_succ_self k)
    have hstored : s.mem (r.word b_i k) = s.version := by
      apply hsweeping.stored hlt
      rw [hword]
      exact Nat.lt_succ_self _
    rw [if_pos rfl]
    simp only [State.store, ← hword, Function.update_self]
    rw [← hstored]
    exact BitVec.lt_of_le_ne hold (Ne.symm hne)
  . cases hovertakes
  . cases hovertakes

theorem Overtaken.step {b_i i : Nat} (h : Overtaken r b_i i s) (hsweeping : Sweeping r s)
    (hmoves : Moves r increasing s a s') (ha : a ≠ .compare) : Overtaken r b_i i s' := by
  obtain ⟨k, hcontrol, hik, hi, hnewer⟩ := h
  cases hmoves with
  | sweep => exact ⟨k, hcontrol, hik, hi, hnewer⟩
  | store =>
    refine ⟨k, hcontrol, hik, hi, ?_⟩
    split at hnewer
    . next hk =>
      rw [if_pos hk]
      exact Nat.lt_of_lt_of_le hnewer (hsweeping.le_store _)
    . next hk =>
      rw [if_neg hk]
      exact hnewer
  | read _ hcontrol' | again _ hcontrol' =>
    rw [hcontrol] at hcontrol'
    cases hcontrol'
  | compare => exact absurd rfl ha
  | fetch _ _ hcontrol' hlt =>
    rw [hcontrol] at hcontrol'
    cases hcontrol'
    refine ⟨k + 1, rfl, by omega, hi, ?_⟩
    have hbefore : (s.fetch r b_i k k).buffer i = s.buffer i :=
      Function.update_of_ne (by omega) _ _
    rw [if_neg (by omega)]
    show (s.fetch r b_i k k).buffer i < (s.fetch r b_i k k).buffer (i + 1)
    rw [hbefore]
    split at hnewer
    . next hk =>
      subst hk
      simpa only [State.fetch, Function.update_self] using hnewer
    . next hk =>
      simpa only [State.fetch, Function.update_of_ne (Ne.symm hk)] using hnewer

theorem Overtaken.compare {b_i i : Nat} (h : Overtaken r b_i i s)
    (hmoves : Moves r order s .compare s') : s.inconsistencies < s'.inconsistencies := by
  obtain ⟨k, hcontrol, hik, hi, hnewer⟩ := h
  cases hmoves with
  | compare _ hcontrol' =>
    rw [hcontrol] at hcontrol'
    cases hcontrol'
    rw [if_neg (by omega)] at hnewer
    have hfound : s.found r ≠ 0 := by
      intro hzero
      exact BitVec.not_lt.mpr ((found_eq_zero s r).mp hzero i hi) hnewer
    show s.inconsistencies < s.inconsistencies + s.found r
    omega

theorem overtaken_counted {buffer : Nat → Word} {s₁ s₂ s₃ : State}
    (hreach : Step.Reach (step r increasing) (fun s a => increases s a = true) (.init r buffer) s)
    (hovertakes : overtakes r s = true) (hstore : step r increasing s .store = some s₁)
    (hreach₁ : Step.Reach (step r increasing) (fun s a => increases s a = true ∧ a ≠ .compare)
      s₁ s₂)
    (hcompare : step r increasing s₂ .compare = some s₃)
    : s₂.inconsistencies < s₃.inconsistencies := by
  obtain ⟨hsweeping, hnewer⟩ := sound_of_reach (fun _ _ h => h) hreach
  have hstored : ∃ b_i i, Overtaken r b_i i s₁ := by
    cases moves_of_step hstore with
    | store hlt => exact overtaken_store hsweeping hnewer hlt hovertakes
  obtain ⟨b_i, i, hovertaken⟩ := hstored
  have hinv : Sweeping r s₂ ∧ Overtaken r b_i i s₂ := by
    apply hreach₁.invariant (I := fun s => Sweeping r s ∧ Overtaken r b_i i s)
    . exact ⟨hsweeping.step rfl (moves_of_step hstore), hovertaken⟩
    . rintro s a s' ⟨hsweeping, hovertaken⟩ ⟨hversion, ha⟩ hstep
      have hmoves := moves_of_step hstep
      exact ⟨hsweeping.step hversion hmoves, hovertaken.step hsweeping hmoves ha⟩
  exact hinv.2.compare (moves_of_step hcompare)

end Increasing

section Decreasing

def Descends (r : Region) (s : State) : Prop :=
  ∀ b_i k, s.control = .fetching b_i k →
    ∀ i, r.numberEntries - k ≤ i → i + 1 < r.numberEntries → s.buffer (i + 1) ≤ s.buffer i

theorem Descends.fetch (h : Descends r s) (hsweeping : Sweeping r s)
    (hnewer : NotNewer r (decreasing r) s) {b_i k : Nat} (hcontrol : s.control = .fetching b_i k)
    (hlt : k < r.numberEntries) : Descends r (s.fetch r b_i k (decreasing r k)) := by
  intro b_i' k' hcontrol' i hlo hhi
  cases hcontrol'
  have hhead : ∀ e_i, e_i ≠ decreasing r k →
      (s.fetch r b_i k (decreasing r k)).buffer e_i = s.buffer e_i :=
    fun e_i he => Function.update_of_ne he _ _
  by_cases hi : i = decreasing r k
  . -- the entry behind was fetched before this one, when it was not newer
    subst hi
    have hbefore := hnewer b_i k hcontrol (k - 1) (by simp only [decreasing] at hhi; omega)
    have hnext : decreasing r (k - 1) = decreasing r k + 1 := by
      simp only [decreasing] at hhi ⊢
      omega
    rw [hnext] at hbefore
    rw [hhead _ (by omega)]
    simp only [State.fetch, Function.update_self]
    exact BitVec.le_trans hbefore (hsweeping.sorted _)
  . rw [hhead i hi, hhead (i + 1) (by simp only [decreasing] at hi ⊢; omega)]
    apply h b_i k hcontrol i _ hhi
    simp only [decreasing] at hi
    omega

theorem Descends.step (h : Descends r s) (hsweeping : Sweeping r s)
    (hnewer : NotNewer r (decreasing r) s) (hmoves : Moves r (decreasing r) s a s')
    : Descends r s' := by
  cases hmoves with
  | sweep | store => exact h
  | read =>
    intro b_i k hcontrol i hlo hhi
    cases hcontrol
    omega
  | again | compare =>
    intro b_i k hcontrol
    cases hcontrol
  | fetch b_i k hcontrol hlt => exact h.fetch hsweeping hnewer hcontrol hlt

/--
The detector counts nothing in blocks that are fetched in decreasing address order, wherever the
writer is.
-/
theorem inconsistencies_of_decreasing {buffer : Nat → Word}
    (h : Step.Reach (step r (decreasing r)) (fun s a => increases s a = true) (.init r buffer) s)
    : s.inconsistencies = 0 := by
  apply inconsistencies_eq_zero (I := Descends r) (fun _ _ h => h) _ _ _ h
  . intro _ _ hcontrol
    cases hcontrol
  . intro s b_i hinv hcontrol
    rw [found_eq_zero]
    intro i hi
    exact hinv b_i _ hcontrol i (by omega) hi
  . exact fun s a s' hinv hsweeping hnewer _ hmoves => hinv.step hsweeping hnewer hmoves

end Decreasing

end Ordering
end BenchmarkHelper
