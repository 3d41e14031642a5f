import RdmaSync.Bits.Lfsr
import RdmaSync.Bits.Recurrence

/-!
This module contains the generator that renews 312 words at a time in place: what it returns are the
tempered words of one sequence, and the words of a round tell the seed.
-/

namespace RandomGenerator

open Bits

structure MersenneTwister where
  mt : Nat → BitVec 64
  mti : Nat

namespace MersenneTwister

def NN : Nat := 312

def MM : Nat := 156

def MATRIX_A : BitVec 64 := 0xB5026F5AA96619E9

def UM : BitVec 64 := 0xFFFFFFFF80000000

def LM : BitVec 64 := 0x7FFFFFFF

def mag01 (i : BitVec 64) : BitVec 64 :=
  if i = 0 then 0 else MATRIX_A

/-- The word that follows a word that has been followed by `next`, `MM` words after it. -/
def twist (word next mid : BitVec 64) : BitVec 64 :=
  let x := (word &&& UM) ||| (next &&& LM)
  mid ^^^ (x >>> 1) ^^^ mag01 (x &&& 1)

def spread (word : BitVec 64) (mti : Nat) : BitVec 64 :=
  (6364136223846793005 : BitVec 64) * (word ^^^ (word >>> 62)) + BitVec.ofNat 64 mti

def init (mt : Nat → BitVec 64) (seed : BitVec 64) : MersenneTwister where
  mt := (List.range' 1 (NN - 1)).foldl (fun mt mti =>
    Function.update mt mti (spread (mt (mti - 1)) mti)) (Function.update mt 0 seed)
  mti := NN

/--
The constructor, with the value of the global `mt_counter`, the value that the random device returns
and what the array happens to contain. The second component is `mt_counter` afterwards.
-/
def create (seed mtCounter : BitVec 64) (rd : BitVec 32) (mt : Nat → BitVec 64)
    : MersenneTwister × BitVec 64 :=
  (init mt ((seed ^^^ mtCounter) ^^^ rd.setWidth 64), mtCounter + 1)

/-- Generate `NN` words at one time. -/
def generate (mt : Nat → BitVec 64) : Nat → BitVec 64 :=
  let mt := (List.range (NN - MM)).foldl (fun mt i =>
    Function.update mt i (twist (mt i) (mt (i + 1)) (mt (i + MM)))) mt
  let mt := (List.range' (NN - MM) (MM - 1)).foldl (fun mt i =>
    Function.update mt i (twist (mt i) (mt (i + 1)) (mt (i - (NN - MM))))) mt
  Function.update mt (NN - 1) (twist (mt (NN - 1)) (mt 0) (mt (MM - 1)))

def temper (x : BitVec 64) : BitVec 64 :=
  let x := x ^^^ ((x >>> 29) &&& 0x5555555555555555)
  let x := x ^^^ ((x <<< 17) &&& 0x71D67FFFEDA60000)
  let x := x ^^^ ((x <<< 37) &&& 0xFFF7EEE000000000)
  x ^^^ (x >>> 43)

def rnd (g : MersenneTwister) : BitVec 64 × MersenneTwister :=
  let g := if g.mti ≥ NN then { mt := generate g.mt, mti := 0 } else g
  (temper (g.mt g.mti), { g with mti := g.mti + 1 })

def calls (n : Nat) (g : MersenneTwister) : MersenneTwister :=
  (fun g => g.rnd.2)^[n] g

/-- `RandomGenerator::getRandU64(min, max)`, unless `ensure` fails or a zero divides. -/
def getRandU64 (g : MersenneTwister) (min max : BitVec 64) : Option (BitVec 64) :=
  if max - min = 0 then
    none
  else
    let rand := min + g.rnd.1 % (max - min)
    if rand < max ∧ rand ≥ min then some rand else none

section Sequence

/-- The words that `init` stores. -/
def initial (seed : BitVec 64) (k : Nat) : BitVec 64 :=
  match k with
  | 0 => seed
  | k + 1 => spread (initial seed k) (k + 1)

def word (seed : BitVec 64) (k : Nat) : BitVec 64 :=
  if k < 312 then
    initial seed k
  else
    twist (word seed (k - 312)) (word seed (k - 311)) (word seed (k - 156))

theorem word_of_lt (seed : BitVec 64) {k : Nat} (hk : k < NN) : word seed k = initial seed k := by
  unfold word
  exact if_pos hk

theorem lagged_word (seed : BitVec 64) : Lagged twist NN MM (word seed) := by
  intro k
  have hword : word seed (k + 312) = if k + 312 < 312 then initial seed (k + 312) else
      twist (word seed (k + 312 - 312)) (word seed (k + 312 - 311)) (word seed (k + 312 - 156)) := by
    rw [word]
  have hnext : k + 312 - 311 = k + 1 := by omega
  have hmid : k + 312 - 156 = k + 156 := by omega
  rw [if_neg (by omega), Nat.add_sub_cancel, hnext, hmid] at hword
  exact hword

theorem window_init (mt : Nat → BitVec 64) (seed : BitVec 64)
    : Window NN (word seed) (init mt seed).mt 0 := by
  have hloop (j : Nat) (i : Nat) (hi : i < j + 1)
      : (List.range' 1 j).foldl (fun mt mti =>
          Function.update mt mti (spread (mt (mti - 1)) mti)) (Function.update mt 0 seed) i
        = initial seed i := by
    induction j generalizing i with
    | zero =>
      obtain rfl : i = 0 := by omega
      rfl
    | succ j ih =>
      rw [List.range'_1_concat, List.foldl_append, List.foldl_cons, List.foldl_nil,
        Nat.add_sub_cancel_left, ih j (by omega)]
      by_cases hij : i = 1 + j
      . subst hij
        rw [Function.update_self, Nat.add_comm]
        rfl
      . rw [Function.update_of_ne hij, ih i (by omega)]
  intro i hi
  have hlast : NN - 1 + 1 = NN := Nat.sub_add_cancel (by decide)
  rw [Nat.zero_add, word_of_lt seed hi]
  simp only [init]
  rw [hloop (NN - 1) i (by rwa [hlast])]

theorem generate_eq (mt : Nat → BitVec 64)
    : generate mt = (List.range NN).foldl (renew twist NN MM) mt := by
  have hrange : List.range NN
      = List.range (NN - MM) ++ (List.range' (NN - MM) (MM - 1) ++ [NN - 1]) := by
    have hlast : List.range NN = List.range (NN - MM + (MM - 1)) ++ [NN - 1] := List.range_succ
    rw [hlast, List.range_add, List.append_assoc, List.range'_eq_map_range]
  have hfirst : (List.range (NN - MM)).foldl (fun mt i =>
      Function.update mt i (twist (mt i) (mt (i + 1)) (mt (i + MM)))) mt
        = (List.range (NN - MM)).foldl (renew twist NN MM) mt := by
    refine List.foldl_ext _ _ _ ?_
    intro mt i hi
    rw [List.mem_range] at hi
    have hi : i < 156 := hi
    have hnext : (i + 1) % 312 = i + 1 := Nat.mod_eq_of_lt (by omega)
    have hmid : (i + 156) % 312 = i + 156 := Nat.mod_eq_of_lt (by omega)
    rw [renew, NN, MM, hnext, hmid]
  have hsecond (mt : Nat → BitVec 64) : (List.range' (NN - MM) (MM - 1)).foldl (fun mt i =>
      Function.update mt i (twist (mt i) (mt (i + 1)) (mt (i - (NN - MM))))) mt
        = (List.range' (NN - MM) (MM - 1)).foldl (renew twist NN MM) mt := by
    refine List.foldl_ext _ _ _ ?_
    intro mt i hi
    rw [List.mem_range'_1] at hi
    have hi : 156 ≤ i ∧ i < 156 + 155 := hi
    have hnext : (i + 1) % 312 = i + 1 := Nat.mod_eq_of_lt (by omega)
    have hmid : (i + 156) % 312 = i - 156 := by
      rw [Nat.mod_eq_sub_mod (by omega), Nat.mod_eq_of_lt (by omega)]
      omega
    rw [renew, NN, MM, hnext, hmid]
  have hnext : (NN - 1 + 1) % NN = 0 := Nat.mod_self NN
  have hmid : (NN - 1 + MM) % NN = MM - 1 := by decide
  simp only [generate, hfirst, hsecond]
  rw [hrange, List.foldl_append, List.foldl_append, List.foldl_cons, List.foldl_nil, renew, hnext,
    hmid]

/-- The next word that the generator returns is number `k` of the sequence. -/
def At (seed : BitVec 64) (g : MersenneTwister) (k : Nat) : Prop :=
  ∃ b, Window NN (word seed) g.mt b ∧ g.mti ≤ NN ∧ b + g.mti = k

theorem At.rnd {seed : BitVec 64} {g : MersenneTwister} {k : Nat} (h : At seed g k)
    : g.rnd.1 = temper (word seed k) ∧ At seed g.rnd.2 (k + 1) := by
  obtain ⟨b, hwindow, hmti, rfl⟩ := h
  unfold MersenneTwister.rnd
  split
  . next hge =>
    have hnext := hwindow.renew (lagged_word seed) (by decide) (by decide)
    rw [← generate_eq] at hnext
    have heq : g.mti = NN := Nat.le_antisymm hmti hge
    have hfirst := hnext 0 (by decide)
    rw [heq]
    refine ⟨?_, b + NN, hnext, Nat.succ_le_of_lt (Nat.succ_pos 311), rfl⟩
    simp only [hfirst, Nat.add_zero]
  . next hlt =>
    have hlt : g.mti < NN := Nat.lt_of_not_le hlt
    refine ⟨?_, b, hwindow, hlt, rfl⟩
    simp only [hwindow g.mti hlt]

/--
Call number `n` returns the tempered word number `NN + n`, whatever the array contained before: words
that are replaced in place are read as the recurrence says.
-/
theorem rnd_calls (mt : Nat → BitVec 64) (seed : BitVec 64) (n : Nat)
    : (calls n (init mt seed)).rnd.1 = temper (word seed (NN + n)) := by
  have hat : At seed (calls n (init mt seed)) (NN + n) := by
    induction n with
    | zero =>
      have hmti : (init mt seed).mti = NN := rfl
      rw [calls, Function.iterate_zero_apply]
      refine ⟨0, window_init mt seed, ?_, ?_⟩
      . rw [hmti]
      . rw [hmti, Nat.zero_add, Nat.add_zero]
    | succ n ih =>
      rw [calls, Function.iterate_succ_apply']
      exact ih.rnd.2
  exact hat.rnd.1

end Sequence

section Seed

theorem twist_eq (u v c : BitVec 64)
    : twist u v c = c ^^^ advance MATRIX_A ((u &&& UM) ||| (v &&& LM)) := by
  have hmag (x : BitVec 64) : mag01 (x &&& 1) = if x.getLsbD 0 then MATRIX_A else 0 := by
    have hand : x &&& 1 = (BitVec.ofBool (x.getLsbD 0)).setWidth 64 :=
      BitVec.and_one_eq_setWidth_ofBool_getLsbD
    rw [mag01, hand]
    cases x.getLsbD 0 <;> rfl
  unfold twist advance
  simp only [hmag]
  split
  . rw [BitVec.xor_assoc]
  . exact BitVec.xor_zero

theorem and_or (x y m : BitVec 64) : (x ||| y) &&& m = (x &&& m) ||| (y &&& m) := by
  apply BitVec.eq_of_getLsbD_eq
  intro i _
  simp only [BitVec.getLsbD_or, BitVec.getLsbD_and]
  cases x.getLsbD i <;> cases y.getLsbD i <;> simp

theorem invertible_twist : Invertible twist (· &&& UM) (· &&& LM) where
  parts := by
    intro u v u' v' c h
    rw [twist_eq, twist_eq, BitVec.xor_right_inj] at h
    have hparts := iterate_injective (p := MATRIX_A) (by decide) 1 h
    have hupper : UM &&& UM = UM ∧ LM &&& UM = 0 := by decide
    have hlower : UM &&& LM = 0 ∧ LM &&& LM = LM := by decide
    have hor (x : BitVec 64) : x ||| 0 = x := BitVec.or_zero
    have hor' (x : BitVec 64) : 0 ||| x = x := BitVec.zero_or
    have hand (x : BitVec 64) : x &&& 0 = 0 := BitVec.and_zero
    have hhi := congrArg (· &&& UM) hparts
    have hlo := congrArg (· &&& LM) hparts
    simp only [and_or, BitVec.and_assoc, hupper, hand, hor] at hhi
    simp only [and_or, BitVec.and_assoc, hlower, hand, hor'] at hlo
    exact ⟨hhi, hlo⟩
  join := by
    intro u u' hhi hlo
    have hall : UM ||| LM = BitVec.allOnes 64 := by decide
    have hsplit (x : BitVec 64) : x = (x &&& UM) ||| (x &&& LM) := by
      rw [BitVec.and_comm x UM, BitVec.and_comm x LM, ← and_or, hall, BitVec.allOnes_and]
    rw [hsplit u, hsplit u']
    exact congr (congrArg _ hhi) hlo

theorem spread_injective (mti : Nat) : Function.Injective (spread · mti) := by
  intro x y h
  have hinv : (13877824140714322085 : BitVec 64) * 6364136223846793005 = 1 := by decide
  have hmul := (BitVec.add_left_inj _).mp h
  have hxor := congrArg (13877824140714322085 * ·) hmul
  simp only [← BitVec.mul_assoc, hinv] at hxor
  have hone (x : BitVec 64) : 1 * x = x := BitVec.one_mul x
  rw [hone, hone] at hxor
  exact (Linear.xorShiftRight 62).injective (.xorShiftRight (by omega)) hxor

theorem temper_injective : Function.Injective temper := by
  have heq : temper = xorShiftRight 43 ∘ xorMaskLeft 37 0xFFF7EEE000000000 ∘
      xorMaskLeft 17 0x71D67FFFEDA60000 ∘ xorMaskRight 29 0x5555555555555555 := rfl
  rw [heq]
  apply Linear.injective
  . exact (Linear.xorShiftRight 43).comp ((Linear.xorMaskLeft 37 _).comp
      ((Linear.xorMaskLeft 17 _).comp (Linear.xorMaskRight 29 _)))
  . exact (OnlyZero.xorShiftRight (by omega)).comp ((OnlyZero.xorMaskLeft (by omega) _).comp
      ((OnlyZero.xorMaskLeft (by omega) _).comp (OnlyZero.xorMaskRight (by omega) _)))

theorem init_rnd_eq_iff (mt mt' : Nat → BitVec 64) (seed seed' : BitVec 64)
    : (∀ n, n < NN → (calls n (init mt seed)).rnd.1 = (calls n (init mt' seed')).rnd.1)
        ↔ seed = seed' := by
  constructor
  . intro h
    have hwords (k : Nat) (hle : NN ≤ k) (hlt : k < 2 * NN) : word seed k = word seed' k := by
      have hn := h (k - NN) (by omega)
      rw [rnd_calls, rnd_calls, Nat.add_sub_cancel' hle] at hn
      exact temper_injective hn
    have hfirst := invertible_twist.eq (lagged_word seed) (lagged_word seed') (by decide)
      (by decide) hwords (k := 0) (by decide)
    rw [word_of_lt seed (by decide), word_of_lt seed' (by decide)] at hfirst
    exact spread_injective 1 hfirst
  . rintro rfl n _
    rw [rnd_calls, rnd_calls]

/--
Two generators return the same words in their first round if and only if what their constructors
combine is the same, whatever the arrays contained before.
-/
theorem rnd_eq_iff (seed seed' mtCounter mtCounter' : BitVec 64) (rd rd' : BitVec 32)
    (mt mt' : Nat → BitVec 64)
    : (∀ n, n < NN → (calls n (create seed mtCounter rd mt).1).rnd.1
          = (calls n (create seed' mtCounter' rd' mt').1).rnd.1)
        ↔ (seed ^^^ mtCounter) ^^^ rd.setWidth 64 = (seed' ^^^ mtCounter') ^^^ rd'.setWidth 64 := by
  exact init_rnd_eq_iff mt mt' _ _

end Seed

theorem getRandU64_mem (g : MersenneTwister) {min max : BitVec 64} (h : min < max)
    : ∃ rand, getRandU64 g min max = some rand ∧ min ≤ rand ∧ rand < max := by
  have hlt : min.toNat < max.toNat := h
  have hmax := max.isLt
  have hsub : (max - min).toNat = max.toNat - min.toNat := BitVec.toNat_sub_of_le (Nat.le_of_lt hlt)
  have hne : max - min ≠ 0 := by
    intro heq
    rw [heq] at hsub
    have hzero : (0 : BitVec 64).toNat = 0 := rfl
    omega
  have hmod : (g.rnd.1 % (max - min)).toNat < max.toNat - min.toNat := by
    rw [BitVec.toNat_umod, hsub]
    exact Nat.mod_lt _ (by omega)
  have hadd : (min + g.rnd.1 % (max - min)).toNat = min.toNat + (g.rnd.1 % (max - min)).toNat := by
    rw [BitVec.toNat_add]
    omega
  have hmem : min + g.rnd.1 % (max - min) < max ∧ min + g.rnd.1 % (max - min) ≥ min := by
    rw [ge_iff_le, BitVec.lt_def, BitVec.le_def, hadd]
    omega
  refine ⟨_, ?_, hmem.2, hmem.1⟩
  rw [getRandU64, if_neg hne, if_pos hmem]

end MersenneTwister
end RandomGenerator
