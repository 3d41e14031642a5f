import RdmaSync.Threads.Transition

/-!
This module contains the monotonic buffer from which registered memory is allocated, and what its
blocks and its failures look like after any sequence of requests.
-/

namespace MemoryManagement

open Threads

/-- The bytes from `ptr` to the first address that is a multiple of `alignment`. -/
def padding (alignment ptr : Nat) : Nat :=
  (alignment - ptr % alignment) % alignment

/-- `std::align`: the new `ptr` and `space`, or none if the bytes do not fit. -/
def align (alignment size ptr space : Nat) : Option (Nat × Nat) :=
  let used := padding alignment ptr
  if used + size ≤ space then
    some (ptr + used, space - used)
  else
    none

inductive AllocError where
  | badAlloc
  | alignmentFailed
  deriving DecidableEq

structure MonotonicBufferResource where
  bufferPosition : Nat
  bufferSize : Nat
  sizeLeft : Nat
  buffer : Nat
  deriving DecidableEq

structure Request where
  bytes : Nat
  alignment : Nat
  deriving DecidableEq

namespace MonotonicBufferResource

def created (buffer bufferSize : Nat) : MonotonicBufferResource where
  bufferPosition := buffer
  bufferSize := bufferSize
  sizeLeft := bufferSize
  buffer := buffer

def doAllocate (m : MonotonicBufferResource) (bytes alignment : Nat)
    : Except AllocError Nat × MonotonicBufferResource :=
  if m.sizeLeft < bytes then
    (.error .badAlloc, m)
  else
    match align alignment bytes m.bufferPosition m.sizeLeft with
    | some (result, space) =>
      let m := { m with bufferPosition := result + bytes, sizeLeft := space - bytes }
      if result % alignment ≠ 0 then
        (.error .alignmentFailed, m)
      else
        (.ok result, m)
    | none => (.error .badAlloc, m)

end MonotonicBufferResource

structure Block where
  result : Nat
  request : Request
  deriving DecidableEq

def Block.Disjoint (b b' : Block) : Prop :=
  ∀ a, ¬(b.result ≤ a ∧ a < b.result + b.request.bytes
    ∧ b'.result ≤ a ∧ a < b'.result + b'.request.bytes)

/-- The resource behind its mutex, and the blocks that it has handed out. -/
structure SynchronizedMonotonicBufferRessource where
  parent : MonotonicBufferResource
  blocks : List Block
  deriving DecidableEq

namespace SynchronizedMonotonicBufferRessource

def created (buffer bufferSize : Nat) : SynchronizedMonotonicBufferRessource where
  parent := .created buffer bufferSize
  blocks := []

def step : Step SynchronizedMonotonicBufferRessource Request := fun s r =>
  match s.parent.doAllocate r.bytes r.alignment with
  | (.ok result, parent) =>
    some { parent := parent, blocks := { result := result, request := r } :: s.blocks }
  | (.error _, parent) => some { s with parent := parent }

end SynchronizedMonotonicBufferRessource

section Align

variable {alignment ptr : Nat}

theorem padding_lt (h : 0 < alignment) : padding alignment ptr < alignment :=
  Nat.mod_lt _ h

theorem add_padding_mod (h : 0 < alignment) : (ptr + padding alignment ptr) % alignment = 0 := by
  have hlt := Nat.mod_lt ptr h
  have hdiv := Nat.div_add_mod ptr alignment
  have hsum : ptr + (alignment - ptr % alignment) = alignment * (ptr / alignment) + alignment := by
    omega
  rw [padding, Nat.add_mod_mod, hsum, Nat.add_mod_right, Nat.mul_mod_right]

theorem padding_le (h : 0 < alignment) {a : Nat} (hle : ptr ≤ a) (ha : a % alignment = 0)
    : ptr + padding alignment ptr ≤ a := by
  apply Nat.le_of_not_lt
  intro hlt
  have hpadding : padding alignment ptr < alignment := padding_lt h
  have hdvd : alignment ∣ ptr + padding alignment ptr - a :=
    Nat.dvd_sub (Nat.dvd_of_mod_eq_zero (add_padding_mod h)) (Nat.dvd_of_mod_eq_zero ha)
  have := Nat.le_of_dvd (by omega) hdvd
  omega

end Align

namespace MonotonicBufferResource

variable {m : MonotonicBufferResource} {bytes alignment : Nat}

theorem doAllocate_of_fits (h : 0 < alignment)
    (hfits : padding alignment m.bufferPosition + bytes ≤ m.sizeLeft)
    : m.doAllocate bytes alignment =
      (.ok (m.bufferPosition + padding alignment m.bufferPosition),
        { m with
          bufferPosition := m.bufferPosition + padding alignment m.bufferPosition + bytes
          sizeLeft := m.sizeLeft - padding alignment m.bufferPosition - bytes }) := by
  have hsize : ¬m.sizeLeft < bytes := by omega
  simp [doAllocate, hsize, align, hfits, add_padding_mod h]

theorem doAllocate_of_not_fits
    (hfits : m.sizeLeft < padding alignment m.bufferPosition + bytes)
    : m.doAllocate bytes alignment = (.error .badAlloc, m) := by
  unfold doAllocate
  split
  . rfl
  . simp [align, Nat.not_le_of_lt hfits]

end MonotonicBufferResource

namespace SynchronizedMonotonicBufferRessource

structure Inv (buffer bufferSize : Nat) (s : SynchronizedMonotonicBufferRessource) : Prop where
  position : s.parent.bufferPosition + s.parent.sizeLeft = buffer + bufferSize
  start : buffer ≤ s.parent.bufferPosition
  aligned : ∀ b ∈ s.blocks, b.result % b.request.alignment = 0
  lower : ∀ b ∈ s.blocks, buffer ≤ b.result
  /-- All blocks are behind the position, and each one is behind those after it. -/
  upper : ∀ b ∈ s.blocks, b.result + b.request.bytes ≤ s.parent.bufferPosition
  behind : s.blocks.Pairwise fun b b' => b'.result + b'.request.bytes ≤ b.result

variable {buffer bufferSize : Nat} {s s' : SynchronizedMonotonicBufferRessource} {r : Request}

theorem inv_created : Inv buffer bufferSize (created buffer bufferSize) where
  position := rfl
  start := Nat.le_refl buffer
  aligned := by simp [created]
  lower := by simp [created]
  upper := by simp [created]
  behind := by simp [created]

theorem inv_step (h : Inv buffer bufferSize s) (hr : 0 < r.alignment) (hstep : step s r = some s')
    : Inv buffer bufferSize s' := by
  have hposition := h.position
  by_cases hfits : padding r.alignment s.parent.bufferPosition + r.bytes ≤ s.parent.sizeLeft
  . rw [step, MonotonicBufferResource.doAllocate_of_fits hr hfits] at hstep
    obtain rfl := Option.some.inj hstep
    have hstart := h.start
    refine ⟨?_, ?_, ?_, ?_, ?_, ?_⟩
    . show _ + _ = _
      simp only
      omega
    . show _ ≤ _
      simp only
      omega
    . rw [List.forall_mem_cons]
      exact ⟨add_padding_mod hr, h.aligned⟩
    . rw [List.forall_mem_cons]
      exact ⟨by simp only; omega, h.lower⟩
    . rw [List.forall_mem_cons]
      refine ⟨Nat.le_refl _, ?_⟩
      intro b hb
      have := h.upper b hb
      simp only
      omega
    . rw [List.pairwise_cons]
      refine ⟨?_, h.behind⟩
      intro b hb
      have := h.upper b hb
      simp only
      omega
  . rw [step, MonotonicBufferResource.doAllocate_of_not_fits (Nat.lt_of_not_le hfits)] at hstep
    obtain rfl := Option.some.inj hstep
    exact h

structure Sound (buffer bufferSize : Nat) (s : SynchronizedMonotonicBufferRessource) : Prop where
  position : s.parent.bufferPosition + s.parent.sizeLeft = buffer + bufferSize
  aligned : ∀ b ∈ s.blocks, b.result % b.request.alignment = 0
  inRange : ∀ b ∈ s.blocks, buffer ≤ b.result
    ∧ b.result + b.request.bytes ≤ buffer + bufferSize
  disjoint : s.blocks.Pairwise Block.Disjoint
  /-- A request fails exactly when it does not fit behind the padding. -/
  badAlloc : ∀ bytes alignment, alignment.isPowerOfTwo →
    ((s.parent.doAllocate bytes alignment).1 = .error .badAlloc ↔
      s.parent.sizeLeft < padding alignment s.parent.bufferPosition + bytes)
  alignmentFailed : ∀ bytes alignment, alignment.isPowerOfTwo →
    (s.parent.doAllocate bytes alignment).1 ≠ .error .alignmentFailed
  unchanged : ∀ bytes alignment, alignment.isPowerOfTwo →
    (s.parent.doAllocate bytes alignment).1 = .error .badAlloc →
    (s.parent.doAllocate bytes alignment).2 = s.parent

theorem monotonicBuffer_sound
    (h : Step.Reach step (fun _ r => r.alignment.isPowerOfTwo) (created buffer bufferSize) s)
    : Sound buffer bufferSize s := by
  have hinv : Inv buffer bufferSize s := by
    refine h.invariant inv_created ?_
    intro s r s' hinv hr hstep
    exact inv_step hinv (Nat.pos_of_isPowerOfTwo hr) hstep
  refine ⟨hinv.position, hinv.aligned, ?_, ?_, ?_, ?_, ?_⟩
  . intro b hb
    have hupper := hinv.upper b hb
    have hposition := hinv.position
    exact ⟨hinv.lower b hb, by omega⟩
  . refine hinv.behind.imp ?_
    intro b b' hle a ha
    omega
  . intro bytes alignment halignment
    by_cases hfits : padding alignment s.parent.bufferPosition + bytes ≤ s.parent.sizeLeft
    . simp [MonotonicBufferResource.doAllocate_of_fits (Nat.pos_of_isPowerOfTwo halignment) hfits,
        Nat.not_lt_of_le hfits]
    . have hlt := Nat.lt_of_not_le hfits
      simp [MonotonicBufferResource.doAllocate_of_not_fits hlt, hlt]
  . intro bytes alignment halignment
    by_cases hfits : padding alignment s.parent.bufferPosition + bytes ≤ s.parent.sizeLeft
    . simp [MonotonicBufferResource.doAllocate_of_fits (Nat.pos_of_isPowerOfTwo halignment) hfits]
    . simp [MonotonicBufferResource.doAllocate_of_not_fits (Nat.lt_of_not_le hfits)]
  . intro bytes alignment halignment hfails
    by_cases hfits : padding alignment s.parent.bufferPosition + bytes ≤ s.parent.sizeLeft
    . simp [MonotonicBufferResource.doAllocate_of_fits (Nat.pos_of_isPowerOfTwo halignment) hfits] at hfails
    . rw [MonotonicBufferResource.doAllocate_of_not_fits (Nat.lt_of_not_le hfits)]

/-- A large request fails between two that fit; the last one takes the last byte. -/
def failingRun : List Request :=
  [{ bytes := 10, alignment := 8 }, { bytes := 64, alignment := 64 }, { bytes := 4, alignment := 16 }]

theorem monotonicBuffer_sound_failingRun
    : ∃ s, s.blocks.map (fun b => b.result) = [1024, 1000] ∧ s.parent.sizeLeft = 0
      ∧ Sound 1000 28 s := by
  obtain ⟨s, hreach, hs⟩ := Step.exists_reach_of_runIf
    (show (Step.runIf step (fun _ r => r.alignment.isPowerOfTwo) (created 1000 28) failingRun).any
      (fun s => s.blocks.map (fun b => b.result) = [1024, 1000] && s.parent.sizeLeft = 0) = true by
        decide +kernel)
  simp only [Bool.and_eq_true, decide_eq_true_eq] at hs hreach
  exact ⟨s, hs.1, hs.2, monotonicBuffer_sound hreach⟩

end SynchronizedMonotonicBufferRessource
end MemoryManagement
