import RdmaSync.Crcspeed.Sound
import RdmaSync.OptimisticLocks.Checksum

/-!
This module contains which changes of a buffer the checksum detects for certain, and what that means
for the readers that validate with it.
-/

namespace Crcspeed

open Rdma Bits

variable {buf buf' : List Byte} {words words' : List Word}

/--
The checksums of two buffers of the same length differ if the buffers differ, but not before bit `i`
and not from bit `i + 64` on.
-/
theorem crc64_ne_of_burst (order : ByteOrder) (crc next next' : Word) (hne : buf ≠ buf')
    (hlength : buf.length = buf'.length) {i : Nat} (hpre : (bits buf).take i = (bits buf').take i)
    (hpost : (bits buf).drop (i + 64) = (bits buf').drop (i + 64))
    : crc64 order crc next buf ≠ crc64 order crc next' buf' := by
  rw [crc64_eq_feed, crc64_eq_feed]
  refine feed_ne msb_reflected ?_ ?_ hpre hpost
  . intro h
    exact hne (flatMap_bitsOf_injective (by omega) h)
  . rw [bits, bits, length_flatMap_bitsOf, length_flatMap_bitsOf, hlength]

theorem crc64_ne_of_burst_twoBytes
    : crc64 .little 0 0 [0x00, 0x00, 0x00] ≠ crc64 .little 0 5 [0x80, 0xff, 0x00] := by
  exact crc64_ne_of_burst .little 0 0 5 (i := 7) (by decide) rfl (by decide) (by decide)

theorem crc64_ne_of_word {j : Nat} (hj : j < words.length) (hlength : words.length = words'.length)
    (hne : words ≠ words') (hothers : ∀ i, i ≠ j → words[i]? = words'[i]?)
    : Crc64.crc64 words ≠ Crc64.crc64 words' := by
  obtain ⟨htake, _⟩ := flatMap_bitsOf_split words (Nat.le_of_lt hj)
  obtain ⟨_, hdrop⟩ := flatMap_bitsOf_split words hj
  obtain ⟨htake', _⟩ := flatMap_bitsOf_split words' (Nat.le_of_lt (hlength ▸ hj))
  obtain ⟨_, hdrop'⟩ := flatMap_bitsOf_split words' (hlength ▸ hj)
  rw [Crc64.crc64, Crc64.crc64, foldl_update, foldl_update]
  apply feed_ne msb_reflected (i := 64 * j)
  . intro h
    exact hne (flatMap_bitsOf_injective (by omega) h)
  . rw [length_flatMap_bitsOf, length_flatMap_bitsOf, hlength]
  . rw [htake, htake']
    congr 1
    apply List.ext_getElem?
    intro i
    rw [List.getElem?_take, List.getElem?_take]
    split
    . exact hothers i (by omega)
    . rfl
  . rw [← Nat.mul_succ, hdrop, hdrop']
    congr 1
    apply List.ext_getElem?
    intro i
    rw [List.getElem?_drop, List.getElem?_drop]
    exact hothers _ (by omega)

end Crcspeed

namespace OptimisticLocks

open Rdma CommunicationManager
open Rdma.Action (cpus serves)

variable {W U : Type} [DecidableEq W] {t : Tuple} {modification : Modification t U} {nic : Nic}

/-- The copy has all words that the checksum is about from `state`, except for one. -/
def DiffersInOneWord (t : Tuple) (copy state : Nat → Word) : Prop :=
  ∃ j, j < t.words - 3 ∧ copy (t.crcIdx + 1 + j) ≠ state (t.crcIdx + 1 + j) ∧
    ∀ i, i < t.words - 3 → i ≠ j → copy (t.crcIdx + 1 + i) = state (t.crcIdx + 1 + i)

theorem checksum_ne_of_differsInOneWord {copy state : Nat → Word}
    (ht : t.flags.crc64 = Crc64.crc64) (h : DiffersInOneWord t copy state)
    : checksum t copy ≠ checksum t state := by
  obtain ⟨j, hj, hne, hothers⟩ := h
  unfold checksum
  rw [ht]
  apply Crcspeed.crc64_ne_of_word (j := j)
  . simpa using hj
  . simp
  . intro heq
    have hword := congrArg (·[j]?) heq
    simp only [List.getElem?_map, List.getElem?_range hj, Option.map_some,
      Option.some.injEq] at hword
    exact hne hword
  . intro i hij
    by_cases hi : i < t.words - 3
    . simp only [List.getElem?_map, List.getElem?_range hi, Option.map_some, hothers i hi hij]
    . rw [List.getElem?_eq_none (by simpa using hi), List.getElem?_eq_none (by simpa using hi)]

/--
The copy of a read that began at `since` has the checksum of a committed state that is not outdated,
and it does not differ in a single word from any committed state with this checksum.
-/
structure NotOneWord (t : Tuple) (copy : Nat → Word) (since : Nat) (init : Nat → Word)
    (s : Shared W Buffer (Iteration U)) : Prop where
  exists_state : ∃ k, k ≤ (t.block.commits s.hist).length ∧
    t.block.released (s.hist.drop (s.hist.length - since)) ≤ k ∧
    copy t.crcIdx = snap init (t.block.commits s.hist) k t.crcIdx
  not_differs : ∀ k, k ≤ (t.block.commits s.hist).length →
    copy t.crcIdx = snap init (t.block.commits s.hist) k t.crcIdx →
    ¬DiffersInOneWord t copy (snap init (t.block.commits s.hist) k)

/-- A reader that validates with the checksum never accepts a copy with a single foreign word. -/
theorem crc_read_not_one_word (hc : t.consistency = .crc) (ht : t.flags.crc64 = Crc64.crc64)
    (horder : nic.inOrderWrites = true)
    {s₀ s : Sys W Ctx Buffer OLRestartException (Option (Word × Word)) (Iteration U)}
    (hfresh : s₀.Fresh) (hlock : s₀.shared.mem (t.block.base + t.lockIdx) = wUnlocked)
    (hinit : s₀.shared.mem (t.block.base + t.crcIdx)
      = checksum t (fun i => s₀.shared.mem (t.block.base + i)))
    (hreach : Sys.Reach (benchmark t modification nic) Sys.anyStep s₀ s)
    {w : W} {b : Bool} {opnum since : Nat} {versions : Word × Word}
    (hcontrol : (s.worker w).control = .running (.read b opnum) since (.ret (some versions)))
    : NotOneWord t ((s.worker w).buf (.tupleBuffer b)) since
        (fun i => s₀.shared.mem (t.block.base + i)) s.shared := by
  have hreading : Reading W t modification nic (fun i => s₀.shared.mem (t.block.base + i))
      (IsChecked t fun i => s₀.shared.mem (t.block.base + i)) :=
    { synced := synced_runRead_crc hc
      stable := isChecked_stable
      wp_runRead := wp_runRead_crc hc hinit }
  obtain ⟨hinv, k, hk, _, hreleased, hcrc, hchecked, _⟩ :=
    hreading.sound horder hfresh rfl hlock hreach hcontrol
  refine ⟨⟨k, hk, hreleased, hcrc⟩, ?_⟩
  intro k' hk' hcrc' hdiffers
  apply checksum_ne_of_differsInOneWord ht hdiffers
  rw [← hchecked, hcrc', snap_checksum hc hinit hinv hk']

def crcReadRun : List (Action Bool Ctx (Iteration (RandomIndex crcTuple))) :=
  List.flatten [
    [.start true (.read false 0)], cpus true 1, serves true .rctx [3, 2], [.cpu true 1],
    cpus true 9, serves true .rctx [2], [.cpu true 1], cpus true 3]

theorem crc_read_not_one_word_crcReadRun
    : ∃ (s : Sys Bool Ctx Buffer OLRestartException (Option (Word × Word))
          (Iteration (RandomIndex crcTuple)))
        (b : Bool) (since : Nat),
        NotOneWord crcTuple ((s.worker true).buf (.tupleBuffer b)) since (fun _ => 0) s.shared := by
  have hrun : ((Sys.initial (fun _ => 0) (fun _ _ => 0)).run
      (benchmark crcTuple (addFive _) { atomicReadBytes := 0, inOrderWrites := true })
      crcReadRun).any (returnsRead crcTuple true) = true := by
    decide +kernel
  obtain ⟨s, b, _, since, _, hreach, _, hcontrol⟩ := exists_read_of_run hrun
  have hinit : (0 : Word) = checksum crcTuple (fun _ => 0) :=
    (checksum_zeros rfl).symm
  exact ⟨s, b, since, crc_read_not_one_word (t := crcTuple) rfl rfl rfl
    (Sys.initial_fresh (fun _ => 0) (fun _ _ => 0)) rfl hinit hreach hcontrol⟩

end OptimisticLocks
