import Mathlib.Tactic.IntervalCases
import Mathlib.Data.List.Nodup
import RdmaSync.Bits.Lfsr
import RdmaSync.Crcspeed.Impl

/-!
This module contains the proof that all forms of the checksum compute what is left in a register after
the bits of the buffer.
-/

namespace Crcspeed

open Rdma Bits

/-- The polynomial for a register that is shifted right. -/
def reflected : Word :=
  Crc64.poly.reverse

def bits (data : List Byte) : List Bool :=
  data.flatMap bitsOf

variable {x y crc : Word} {b c : Byte} {data : List Byte} {i j k n : Nat}

theorem msb_reflected : reflected.msb = true := by
  decide +kernel

section Bitwise

theorem reverse_step (c crc : Word) (i : Nat)
    : (Crc64.step c crc i).reverse
        = advance reflected (crc.reverse ^^^ (BitVec.ofBool (c.getLsbD i)).setWidth 64) := by
  have hlow : crc.reverse.getLsbD 0 = crc.msb := by
    rw [BitVec.getLsbD_reverse]
    rfl
  have hshift : (crc <<< 1).reverse = crc.reverse >>> 1 := by
    apply BitVec.eq_of_getLsbD_eq
    intro j hj
    rw [BitVec.getLsbD_reverse, BitVec.getLsbD_ushiftRight, BitVec.getLsbD_reverse,
      BitVec.getMsbD_shiftLeft, Nat.add_comm]
  have hxor (a b : Word) : (a ^^^ b).reverse = a.reverse ^^^ b.reverse := by
    apply BitVec.eq_of_getLsbD_eq
    intro j _
    rw [BitVec.getLsbD_reverse, BitVec.getMsbD_xor, BitVec.getLsbD_xor, BitVec.getLsbD_reverse,
      BitVec.getLsbD_reverse]
  have hbit (d : Bool) : (BitVec.ofBool d).setWidth 64 >>> 1 = 0#64 := by
    cases d <;> decide
  have hfirst (d : Bool) : ((BitVec.ofBool d).setWidth 64).getLsbD 0 = d := by
    cases d <;> decide
  unfold Crc64.step advance
  rw [BitVec.getLsbD_xor, hlow, hfirst, BitVec.ushiftRight_xor_distrib, hbit, BitVec.xor_zero]
  cases c.getLsbD i <;> cases crc.msb <;> simp [hshift, hxor, reflected]

theorem feedBit_eq (c : Byte) (crc : Word) (hi : i < 8)
    : feedBit c crc (BitVec.twoPow 8 i) = Crc64.step (c.setWidth 64) crc i := by
  have hpow : ¬BitVec.twoPow 8 i = 0#8 := by
    intro h
    have hbit := congrArg (BitVec.getLsbD · i) h
    simp [hi] at hbit
  have hc : c &&& BitVec.twoPow 8 i
      = if (c.setWidth 64).getLsbD i then BitVec.twoPow 8 i else 0 := by
    rw [BitVec.getLsbD_setWidth, decide_eq_true (by omega), Bool.true_and]
    exact BitVec.and_twoPow c i
  have hmsb : crc &&& 0x8000000000000000 = if crc.msb then 0x8000000000000000 else 0 := by
    exact BitVec.and_twoPow crc 63
  unfold feedBit Crc64.step
  rw [hc, hmsb]
  cases (c.setWidth 64).getLsbD i <;> cases crc.msb <;> simp [hpow]

theorem reverse_foldl_step (b : Byte) (crc : Word)
    : ((List.range 8).foldl (Crc64.step (b.setWidth 64)) crc).reverse
        = feed reflected crc.reverse (bitsOf b) := by
  have hloop (is : List Nat) (his : ∀ i ∈ is, i < 8) (crc : Word)
      : (is.foldl (Crc64.step (b.setWidth 64)) crc).reverse
          = feed reflected crc.reverse (is.map b.getLsbD) := by
    induction is generalizing crc with
    | nil => rfl
    | cons i is ih =>
      have hi := his i (by simp)
      rw [List.foldl_cons, ih fun j hj => his j (by simp [hj]), reverse_step,
        BitVec.getLsbD_setWidth, decide_eq_true (by omega)]
      rfl
  exact hloop _ (by simp) crc

theorem reverse_feedByte (crc : Word) (c : Byte)
    : (feedByte crc c).reverse = feed reflected crc.reverse (bitsOf c) := by
  have hbits : ([0x01, 0x02, 0x04, 0x08, 0x10, 0x20, 0x40, 0x80] : List Byte)
      = (List.range 8).map (BitVec.twoPow 8) := rfl
  have hmask (x : Word) : x &&& 0xffffffffffffffff = x := BitVec.and_allOnes
  rw [feedByte, hbits, hmask, List.foldl_map, ← reverse_foldl_step]
  congr 1
  apply List.foldl_ext
  intro crc i hi
  exact feedBit_eq c crc (List.mem_range.mp hi)

theorem crcReflect_eq (x : Word) : crcReflect x 64 = x.reverse := by
  have hbit (j : Nat) : x.reverse.getLsbD j = (decide (j < 64) && x.getLsbD (63 - j)) := by
    rw [BitVec.getLsbD_reverse, BitVec.getMsbD_eq_getLsbD]
  have hloop (m : Nat) (hm : m < 64)
      : reflectBit^[m] (x, x &&& 1) = (x >>> m, x.reverse >>> (63 - m)) := by
    induction m with
    | zero =>
      refine Prod.ext (BitVec.ushiftRight_zero x).symm ?_
      apply BitVec.eq_of_getLsbD_eq
      intro j _
      show (x &&& 1).getLsbD j = (x.reverse >>> 63).getLsbD j
      rw [BitVec.getLsbD_and, BitVec.getLsbD_ushiftRight, hbit]
      cases j with
      | zero => simp
      | succ j => simp [show ¬63 + (j + 1) < 64 by omega]
    | succ m ih =>
      rw [Function.iterate_succ_apply', ih (by omega)]
      refine Prod.ext (BitVec.shiftRight_add x m 1).symm ?_
      apply BitVec.eq_of_getLsbD_eq
      intro j hj
      show ((x.reverse >>> (63 - m)) <<< 1 ||| (x >>> m >>> 1 &&& 1)).getLsbD j = _
      simp only [BitVec.getLsbD_or, BitVec.getLsbD_and, BitVec.getLsbD_shiftLeft,
        BitVec.getLsbD_ushiftRight, hbit]
      cases j with
      | zero =>
        have hlast : 63 - (62 - m) = m + 1 := by omega
        simp [hlast, show 62 - m < 64 by omega]
      | succ j =>
        have hindex : 63 - m + (j + 1 - 1) = 63 - (m + 1) + (j + 1) := by omega
        rw [hindex]
        simp [hj]
  rw [crcReflect, hloop 63 (by omega)]
  exact BitVec.ushiftRight_zero _

/-- The checksum bit by bit is what is left in the register. -/
theorem _crc64_eq (crc : Word) (data : List Byte)
    : _crc64 crc data = feed reflected crc.reverse (bits data) := by
  have hmask (x : Word) : x &&& 0xffffffffffffffff = x := BitVec.and_allOnes
  have hloop : (data.foldl feedByte crc).reverse = feed reflected crc.reverse (bits data) := by
    induction data generalizing crc with
    | nil => rfl
    | cons c data ih =>
      rw [List.foldl_cons, ih, reverse_feedByte]
      exact (feed_append _).symm
  rw [_crc64, hmask, crcReflect_eq, hloop]
  exact BitVec.xor_zero

end Bitwise

section Bytes

theorem getLsbD_byteAt (x : Word) (j i : Nat)
    : (byteAt x j).getLsbD i = (decide (i < 8) && x.getLsbD (8 * j + i)) := by
  rw [byteAt, BitVec.getLsbD_extractLsb']

theorem byteAt_xor (x y : Word) (j : Nat) : byteAt (x ^^^ y) j = byteAt x j ^^^ byteAt y j := by
  exact BitVec.extractLsb'_xor

theorem byteAt_shiftRight (x : Word) (k j : Nat) : byteAt (x >>> (8 * k)) j = byteAt x (k + j) := by
  apply BitVec.eq_of_getLsbD_eq
  intro i hi
  rw [getLsbD_byteAt, getLsbD_byteAt, BitVec.getLsbD_ushiftRight]
  congr 2
  omega

theorem byteAt_of_ge (x : Word) (hj : 8 ≤ j) : byteAt x j = 0 := by
  apply BitVec.eq_of_getLsbD_eq
  intro i _
  rw [getLsbD_byteAt, BitVec.getLsbD_of_ge x _ (by omega), Bool.and_false]
  exact BitVec.getLsbD_zero.symm

theorem eq_of_byteAt (h : ∀ j, j < 8 → byteAt x j = byteAt y j) : x = y := by
  apply BitVec.eq_of_getLsbD_eq
  intro i hi
  have hbit := congrArg (BitVec.getLsbD · (i % 8)) (h (i / 8) (by omega))
  simp only [getLsbD_byteAt, Nat.div_add_mod] at hbit
  simpa [Nat.mod_lt i (show 0 < 8 by omega)] using hbit

theorem low_eq (x : Word) (j : Nat) : low 8 (x >>> (8 * j)) = (byteAt x j).setWidth 64 := by
  apply BitVec.eq_of_getLsbD_eq
  intro i hi
  rw [getLsbD_low, BitVec.getLsbD_setWidth, getLsbD_byteAt, BitVec.getLsbD_ushiftRight]
  simp [hi]

theorem and_eq (x : Word) (j : Nat)
    : (x >>> (8 * j)) &&& 0xff = (byteAt x j).setWidth 64 := by
  rw [← low_eq]
  apply BitVec.eq_of_getLsbD_eq
  intro i hi
  have hmask : (0xff : Word).getLsbD i = decide (i < 8) := by
    show (2 ^ 8 - 1).testBit i = _
    exact Nat.testBit_two_pow_sub_one 8 i
  rw [BitVec.getLsbD_and, hmask, getLsbD_low, Bool.and_comm]

theorem shiftRight_eq (x : Word) : x >>> 56 = (byteAt x 7).setWidth 64 := by
  rw [← low_eq]
  apply BitVec.eq_of_getLsbD_eq
  intro i hi
  rw [getLsbD_low, BitVec.getLsbD_ushiftRight]
  by_cases hi8 : i < 8
  . simp [hi8]
  . simp [BitVec.getLsbD_of_ge x (56 + i) (by omega)]

theorem byteAt_shiftLeft_zero (x : Word) : byteAt (x <<< 8) 0 = 0 := by
  apply BitVec.eq_of_getLsbD_eq
  intro i hi
  rw [getLsbD_byteAt, BitVec.getLsbD_shiftLeft]
  simp [hi]

theorem byteAt_shiftLeft_succ (x : Word) (hj : j + 1 < 8)
    : byteAt (x <<< 8) (j + 1) = byteAt x j := by
  apply BitVec.eq_of_getLsbD_eq
  intro i hi
  have hindex : 8 * (j + 1) + i - 8 = 8 * j + i := by omega
  rw [getLsbD_byteAt, getLsbD_byteAt, BitVec.getLsbD_shiftLeft, hindex]
  simp [show 8 * (j + 1) + i < 64 by omega, show ¬8 * (j + 1) + i < 8 by omega]

theorem byteAt_setWidth_zero (b : Byte) : byteAt (b.setWidth 64) 0 = b := by
  apply BitVec.eq_of_getLsbD_eq
  intro i hi
  rw [getLsbD_byteAt, BitVec.getLsbD_setWidth]
  simp [hi, show i < 64 by omega]

theorem byteAt_setWidth_succ (b : Byte) (j : Nat) : byteAt (b.setWidth 64) (j + 1) = 0 := by
  apply BitVec.eq_of_getLsbD_eq
  intro i _
  rw [getLsbD_byteAt, BitVec.getLsbD_setWidth, BitVec.getLsbD_of_ge b _ (by omega)]
  simp

theorem byteAt_or (x y : Word) (j : Nat) : byteAt (x ||| y) j = byteAt x j ||| byteAt y j := by
  exact BitVec.extractLsb'_or

theorem byteAt_ofBytes (data : List Byte) (hj : j < 8)
    : byteAt (ofBytes data.reverse) j = data.getD j 0 := by
  induction data generalizing j with
  | nil =>
    apply BitVec.eq_of_getLsbD_eq
    intro i _
    rw [getLsbD_byteAt]
    simp [ofBytes]
  | cons b data ih =>
    have hcons : ofBytes (b :: data).reverse = ofBytes data.reverse <<< 8 ||| b.setWidth 64 := by
      simp [ofBytes]
    rw [hcons, byteAt_or]
    cases j with
    | zero =>
      rw [byteAt_shiftLeft_zero, byteAt_setWidth_zero]
      exact BitVec.zero_or
    | succ j =>
      rw [byteAt_shiftLeft_succ _ hj, byteAt_setWidth_succ, ih (by omega)]
      exact BitVec.or_zero

theorem byteAt_rev8 (x : Word) (hj : j < 8) : byteAt (rev8 x) j = byteAt x (7 - j) := by
  have hrev : rev8 x = ofBytes ((List.range 8).map fun j => byteAt x (7 - j)).reverse := rfl
  rw [hrev, byteAt_ofBytes _ hj]
  simp [hj]

theorem rev8_rev8 (x : Word) : rev8 (rev8 x) = x := by
  apply eq_of_byteAt
  intro j hj
  rw [byteAt_rev8 _ hj, byteAt_rev8 _ (by omega)]
  congr 1
  omega

theorem rev8_xor (x y : Word) : rev8 (x ^^^ y) = rev8 x ^^^ rev8 y := by
  apply eq_of_byteAt
  intro j hj
  rw [byteAt_rev8 _ hj, byteAt_xor, byteAt_xor, byteAt_rev8 _ hj, byteAt_rev8 _ hj]

theorem rev8_shiftRight (x : Word) : rev8 (x >>> 8) = rev8 x <<< 8 := by
  apply eq_of_byteAt
  intro j hj
  rw [byteAt_rev8 _ hj, byteAt_shiftRight x 1]
  cases j with
  | zero => rw [byteAt_shiftLeft_zero, byteAt_of_ge x (by omega)]
  | succ j =>
    rw [byteAt_shiftLeft_succ _ hj, byteAt_rev8 _ (by omega)]
    congr 1
    omega

theorem load64_big (h : data.length = 8) : load64 .big data = rev8 (load64 .little data) := by
  apply eq_of_byteAt
  intro j hj
  have hrev : load64 .big data = ofBytes data.reverse.reverse := by
    rw [List.reverse_reverse]
    rfl
  rw [byteAt_rev8 _ hj, hrev, byteAt_ofBytes _ hj, load64, byteAt_ofBytes _ (by omega)]
  simp [h, hj, show 7 - j < 8 by omega]

theorem map_byteAt_load64 (h : data.length = 8)
    : (List.range 8).map (byteAt (load64 .little data)) = data := by
  apply List.ext_getElem (by simp [h])
  intro j hj hj'
  rw [List.getElem_map, List.getElem_range, load64, byteAt_ofBytes _ (by omega)]
  simp [hj']

theorem bitsOf_eq (x : Word) : bitsOf x = bits ((List.range 8).map (byteAt x)) := by
  have hloop (m : Nat) (hm : m ≤ 8)
      : (List.range (8 * m)).map x.getLsbD = bits ((List.range m).map (byteAt x)) := by
    induction m with
    | zero => rfl
    | succ m ih =>
      rw [Nat.mul_succ, List.range_add, List.map_append, ih (by omega),
        List.range_succ (n := m), List.map_append, bits, bits, List.flatMap_append, List.map_map]
      congr 1
      simp only [List.map_cons, List.map_nil, List.flatMap_cons, List.flatMap_nil, List.append_nil,
        bitsOf]
      apply List.map_congr_left
      intro i hi
      rw [List.mem_range] at hi
      simp only [Function.comp, getLsbD_byteAt, hi, decide_true, Bool.true_and]
  exact hloop 8 (Nat.le_refl 8)

end Bytes

section Tables

/-- The entry of a byte in table `k` is what is left of it after `k` more bytes. -/
def Table.Entry (table : Table) (k : Nat) (b : Byte) : Prop :=
  table k (b.setWidth 64) = (advance reflected)^[8 * (k + 1)] (b.setWidth 64)

def Table.Ok (table : Table) : Prop :=
  ∀ k b, k < 8 → table.Entry k b

variable {table : Table}

theorem mem_indices (b : Byte) : b.setWidth 64 ∈ indices := by
  refine List.mem_map.mpr ⟨b.toNat, List.mem_range.mpr b.isLt, ?_⟩
  exact BitVec.eq_of_toNat_eq (by simp)

theorem exists_of_mem_indices (h : x ∈ indices) : ∃ b : Byte, x = b.setWidth 64 := by
  obtain ⟨m, hm, rfl⟩ := List.mem_map.mp h
  rw [List.mem_range] at hm
  refine ⟨BitVec.ofNat 8 m, BitVec.eq_of_toNat_eq ?_⟩
  simp
  omega

theorem indices_nodup : indices.Nodup := by
  refine List.nodup_range.map_on ?_
  intro m hm m' hm' h
  rw [List.mem_range] at hm hm'
  have hnat := congrArg BitVec.toNat h
  rwa [BitVec.toNat_ofNat, BitVec.toNat_ofNat, Nat.mod_eq_of_lt (by omega),
    Nat.mod_eq_of_lt (by omega)] at hnat

theorem set_self (table : Table) (k : Nat) (x crc : Word) : table.set k x crc k x = crc := by
  simp [Table.set]

theorem set_of_ne (table : Table) (crc : Word) (h : ¬(i = k ∧ y = x))
    : table.set k x crc i y = table i y := by
  simp [Table.set, h]

theorem foldl_set (f : Word → Word → Word) (k : Nat) {ns : List Word} (hns : ns.Nodup)
    (table : Table) (i : Nat) (y : Word)
    : ns.foldl (fun table n => table.set k n (f n (table k n))) table i y
        = if i = k ∧ y ∈ ns then f y (table k y) else table i y := by
  induction ns generalizing table with
  | nil => simp
  | cons n ns ih =>
    obtain ⟨hn, hns⟩ := List.nodup_cons.mp hns
    rw [List.foldl_cons, ih hns]
    by_cases hi : i = k
    . subst hi
      by_cases hy : y = n
      . subst hy
        simp [hn, set_self]
      . simp [hy, set_of_ne]
    . simp [hi, set_of_ne]

theorem _crc64_byte (b : Byte)
    : _crc64 0 [(b.setWidth 64).setWidth 8] = (advance reflected)^[8] (b.setWidth 64) := by
  have hzero : (0 : Word).reverse = 0 := by decide +kernel
  have hwidth : (b.setWidth 64).setWidth 8 = b := by simp
  have hbits : bits [b] = bitsOf b := by simp [bits]
  rw [_crc64_eq, hwidth, hbits, hzero, feed_bitsOf (by omega)]
  congr 1
  exact BitVec.zero_xor

/-- Look up the byte that falls out. -/
theorem Table.Entry.advance (h : ∀ b, table.Entry 0 b) (x : Word)
    : table 0 (x &&& 0xff) ^^^ x >>> 8 = (Bits.advance reflected)^[8] x := by
  have hand := and_eq x 0
  rw [Nat.mul_zero, BitVec.ushiftRight_zero] at hand
  have hlow := low_eq x 0
  rw [Nat.mul_zero, BitVec.ushiftRight_zero] at hlow
  rw [iterate_eq_low, hand, h, hlow]

theorem nest_spec (h : ∀ b, table.Entry 0 b) (b : Byte)
    : (∀ k, k < 8 → (nest table (b.setWidth 64)).Entry k b) ∧
        ∀ i y, i = 0 ∨ y ≠ b.setWidth 64 → nest table (b.setWidth 64) i y = table i y := by
  have hloop (m : Nat)
      : ∃ t : Table, (List.range' 1 m).foldl (fun (state : Table × Word) k =>
            let crc := state.1 0 (state.2 &&& 0xff) ^^^ (state.2 >>> 8)
            (Table.set state.1 k (b.setWidth 64) crc, crc)) (table, table 0 (b.setWidth 64))
          = (t, (Bits.advance reflected)^[8 * (m + 1)] (b.setWidth 64)) ∧
        (∀ k, k < m + 1 → t.Entry k b) ∧
        ∀ i y, i = 0 ∨ y ≠ b.setWidth 64 → t i y = table i y := by
    induction m with
    | zero =>
      refine ⟨table, Prod.ext rfl (h b), ?_, fun _ _ _ => rfl⟩
      intro k hk
      obtain rfl : k = 0 := by omega
      exact h b
    | succ m ih =>
      obtain ⟨t, hfoldl, hentry, hrest⟩ := ih
      have hfirst (b : Byte) : t.Entry 0 b := by
        rw [Table.Entry, hrest 0 _ (.inl rfl)]
        exact h b
      refine ⟨t.set (1 + m) (b.setWidth 64)
        ((Bits.advance reflected)^[8 * (m + 2)] (b.setWidth 64)), ?_, ?_, ?_⟩
      . have hadd : 8 * (m + 2) = 8 + 8 * (m + 1) := by omega
        rw [List.range'_1_concat, List.foldl_append, hfoldl, hadd, Function.iterate_add_apply,
          ← Table.Entry.advance hfirst]
        rfl
      . intro k hk
        by_cases hkm : k = 1 + m
        . subst hkm
          rw [Table.Entry, set_self]
          congr 2
          omega
        . rw [Table.Entry, set_of_ne _ _ (by simp [hkm])]
          exact hentry k (by omega)
      . intro i y hiy
        rw [set_of_ne, hrest i y hiy]
        rintro ⟨rfl, rfl⟩
        obtain hi | hy := hiy
        . omega
        . exact hy rfl
  obtain ⟨t, hfoldl, hentry, hrest⟩ := hloop 7
  have hnest : nest table (b.setWidth 64) = t := congrArg Prod.fst hfoldl
  rw [hnest]
  exact ⟨hentry, hrest⟩

theorem littleInit_ok (table : Table) : (crcspeed64littleInit _crc64 table).Ok := by
  have hloop (ns : List Word) (hns : ∀ n ∈ ns, ∃ b : Byte, n = b.setWidth 64) (table : Table)
      (h : ∀ b, table.Entry 0 b)
      : ∀ k b, k < 8 → b.setWidth 64 ∈ ns ∨ table.Entry k b → (ns.foldl nest table).Entry k b := by
    induction ns generalizing table with
    | nil =>
      intro k b _ hb
      simpa using hb
    | cons n ns ih =>
      obtain ⟨b₀, rfl⟩ := hns n (by simp)
      obtain ⟨hentry, hrest⟩ := nest_spec h b₀
      intro k b hk hb
      apply ih (fun n hn => hns n (by simp [hn])) _ ?_ k b hk
      . by_cases heq : b.setWidth 64 = b₀.setWidth 64
        . right
          rw [Table.Entry, heq]
          exact hentry k hk
        . obtain hmem | hold := hb
          . exact .inl (by simpa [heq] using hmem)
          . right
            rw [Table.Entry, hrest k _ (.inr heq)]
            exact hold
      . intro b
        rw [Table.Entry, hrest 0 _ (.inl rfl)]
        exact h b
  intro k b hk
  unfold crcspeed64littleInit
  apply hloop indices (fun n hn => exists_of_mem_indices hn) _ ?_ k b hk (.inl (mem_indices b))
  intro b
  rw [Table.Entry, foldl_set (fun n _ => _crc64 0 [n.setWidth 8]) 0 indices_nodup,
    if_pos ⟨rfl, mem_indices b⟩]
  exact _crc64_byte b

theorem bigInit_eq (table : Table) (b : Byte) (hk : k < 8)
    : crcspeed64bigInit _crc64 table k (b.setWidth 64)
        = rev8 (crcspeed64littleInit _crc64 table k (b.setWidth 64)) := by
  have hloop (ks : List Nat) (hks : ks.Nodup) (table : Table)
      : ks.foldl (fun bigTable k => indices.foldl (fun bigTable n =>
            bigTable.set k n (rev8 (bigTable k n))) bigTable) table k (b.setWidth 64)
          = if k ∈ ks then rev8 (table k (b.setWidth 64)) else table k (b.setWidth 64) := by
    induction ks generalizing table with
    | nil => simp
    | cons m ks ih =>
      obtain ⟨hm, hks⟩ := List.nodup_cons.mp hks
      rw [List.foldl_cons, ih hks, foldl_set (fun _ => rev8) m indices_nodup]
      by_cases hkm : k = m
      . subst hkm
        simp [hm, mem_indices]
      . simp [hkm]
  rw [crcspeed64bigInit, hloop _ List.nodup_range, if_pos (List.mem_range.mpr hk)]

theorem slices_succ (x : Word) (m j : Nat)
    : slices reflected 8 (m + 1) (x >>> (8 * j))
        = (advance reflected)^[8 * (m + 1)] ((byteAt x j).setWidth 64) ^^^
          slices reflected 8 m (x >>> (8 * (j + 1))) := by
  rw [slices, low_eq, ← BitVec.shiftRight_add]
  rfl

end Tables

section Steps

variable {table : Table}

theorem littleSteps_byte (h : table.Ok) (crc : Word) (b : Byte)
    : (littleSteps table).byte crc b = feed reflected crc (bitsOf b) := by
  have hshift : (crc ^^^ b.setWidth 64) >>> 8 = crc >>> 8 := by
    have hzero : b.setWidth 64 >>> 8 = (0 : Word) := by
      apply BitVec.eq_of_getLsbD_eq
      intro i _
      rw [BitVec.getLsbD_ushiftRight, BitVec.getLsbD_setWidth, BitVec.getLsbD_of_ge b _ (by omega)]
      simp
    rw [BitVec.ushiftRight_xor_distrib, hzero]
    exact BitVec.xor_zero
  have hadvance := Table.Entry.advance (fun b => h 0 b (by omega)) (crc ^^^ b.setWidth 64)
  rw [hshift] at hadvance
  rw [feed_bitsOf (by omega), ← hadvance]
  rfl

theorem and_zero_eq (x : Word) : x &&& 0xff = (byteAt x 0).setWidth 64 := by
  rw [← and_eq]
  rfl

theorem littleSteps_word_eq (table : Table) (crc word : Word)
    : (littleSteps table).word crc word =
        table 7 ((byteAt (crc ^^^ word) 0).setWidth 64) ^^^
        table 6 ((byteAt (crc ^^^ word) 1).setWidth 64) ^^^
        table 5 ((byteAt (crc ^^^ word) 2).setWidth 64) ^^^
        table 4 ((byteAt (crc ^^^ word) 3).setWidth 64) ^^^
        table 3 ((byteAt (crc ^^^ word) 4).setWidth 64) ^^^
        table 2 ((byteAt (crc ^^^ word) 5).setWidth 64) ^^^
        table 1 ((byteAt (crc ^^^ word) 6).setWidth 64) ^^^
        table 0 ((byteAt (crc ^^^ word) 7).setWidth 64) := by
  rw [← and_zero_eq, ← and_eq, ← and_eq, ← and_eq, ← and_eq, ← and_eq, ← and_eq, ← shiftRight_eq]
  rfl

theorem bigSteps_word_eq (table : Table) (crc word : Word)
    : (bigSteps table).word crc word =
        table 0 ((byteAt (crc ^^^ word) 0).setWidth 64) ^^^
        table 1 ((byteAt (crc ^^^ word) 1).setWidth 64) ^^^
        table 2 ((byteAt (crc ^^^ word) 2).setWidth 64) ^^^
        table 3 ((byteAt (crc ^^^ word) 3).setWidth 64) ^^^
        table 4 ((byteAt (crc ^^^ word) 4).setWidth 64) ^^^
        table 5 ((byteAt (crc ^^^ word) 5).setWidth 64) ^^^
        table 6 ((byteAt (crc ^^^ word) 6).setWidth 64) ^^^
        table 7 ((byteAt (crc ^^^ word) 7).setWidth 64) := by
  rw [← and_zero_eq, ← and_eq, ← and_eq, ← and_eq, ← and_eq, ← and_eq, ← and_eq, ← shiftRight_eq]
  rfl

theorem littleSteps_word (h : table.Ok) (crc word : Word)
    : (littleSteps table).word crc word = (advance reflected)^[8 * 8] (crc ^^^ word) := by
  have hlast : (crc ^^^ word) >>> (8 * 8) = 0 := BitVec.ushiftRight_eq_zero (by omega)
  have hstart := slices_succ (crc ^^^ word) 7 0
  rw [Nat.mul_zero, BitVec.ushiftRight_zero] at hstart
  have hzero (x : Word) : x ^^^ 0 = x := BitVec.xor_zero
  rw [iterate_eq_slices, hstart, slices_succ _ 6 1, slices_succ _ 5 2, slices_succ _ 4 3,
    slices_succ _ 3 4, slices_succ _ 2 5, slices_succ _ 1 6, slices_succ _ 0 7, slices, hlast,
    hzero, littleSteps_word_eq]
  rw [h 7 _ (by omega), h 6 _ (by omega), h 5 _ (by omega), h 4 _ (by omega), h 3 _ (by omega),
    h 2 _ (by omega), h 1 _ (by omega), h 0 _ (by omega)]
  simp only [BitVec.xor_assoc]

theorem feed_load64 (hdata : data.length = 8) (crc : Word)
    : feed reflected crc (bits data)
        = (advance reflected)^[8 * 8] (crc ^^^ load64 .little data) := by
  have hbits : bits data = bitsOf (load64 .little data) := by
    rw [bitsOf_eq, map_byteAt_load64 hdata]
  have hwidth : (load64 .little data).setWidth 64 = load64 .little data := BitVec.setWidth_eq _
  rw [hbits, feed_bitsOf (by omega), hwidth]

/-- The steps that feed a byte and eight bytes to a register that is stored in the form `f`. -/
structure Steps.Feed (steps : Steps) (order : ByteOrder) (f : Word → Word) : Prop where
  byte : ∀ crc b, steps.byte (f crc) b = f (feed reflected crc (bitsOf b))
  word : ∀ crc data, data.length = 8 →
    steps.word (f crc) (load64 order data) = f (feed reflected crc (bits data))

theorem littleSteps_feed (h : table.Ok) : (littleSteps table).Feed .little id where
  byte := littleSteps_byte h
  word := by
    intro crc data hdata
    rw [id, id, littleSteps_word h, feed_load64 hdata]

theorem bigSteps_feed (h : table.Ok) {bigTable : Table}
    (hbig : ∀ k (b : Byte), k < 8 → bigTable k (b.setWidth 64) = rev8 (table k (b.setWidth 64)))
    : (bigSteps bigTable).Feed .big rev8 where
  byte := by
    intro crc b
    have hindex : (rev8 crc >>> 56) ^^^ b.setWidth 64
        = (byteAt (crc ^^^ b.setWidth 64) 0).setWidth 64 := by
      rw [shiftRight_eq, byteAt_rev8 _ (by omega), byteAt_xor, byteAt_setWidth_zero,
        BitVec.setWidth_xor]
    have hlittle := littleSteps_byte h crc b
    rw [← hlittle]
    show bigTable 0 ((rev8 crc >>> 56) ^^^ b.setWidth 64) ^^^ (rev8 crc <<< 8)
      = rev8 (table 0 ((crc ^^^ b.setWidth 64) &&& 0xff) ^^^ (crc >>> 8))
    rw [hindex, hbig _ _ (by omega), rev8_xor, rev8_shiftRight, and_zero_eq]
  word := by
    intro crc data hdata
    have hlittle := littleSteps_word h crc (load64 .little data)
    rw [feed_load64 hdata, ← hlittle, load64_big hdata, bigSteps_word_eq, littleSteps_word_eq,
      ← rev8_xor]
    rw [hbig 0 _ (by omega), hbig 1 _ (by omega), hbig 2 _ (by omega), hbig 3 _ (by omega),
      hbig 4 _ (by omega), hbig 5 _ (by omega), hbig 6 _ (by omega), hbig 7 _ (by omega)]
    rw [byteAt_rev8 _ (by omega : 0 < 8), byteAt_rev8 _ (by omega : 1 < 8),
      byteAt_rev8 _ (by omega : 2 < 8), byteAt_rev8 _ (by omega : 3 < 8),
      byteAt_rev8 _ (by omega : 4 < 8), byteAt_rev8 _ (by omega : 5 < 8),
      byteAt_rev8 _ (by omega : 6 < 8), byteAt_rev8 _ (by omega : 7 < 8)]
    simp only [← rev8_xor]
    congr 1
    ac_rfl

variable {steps : Steps} {order : ByteOrder} {f : Word → Word}

theorem Steps.Feed.align (h : steps.Feed order f) (crc next : Word) (buf : List Byte)
    : ∃ pre rest, buf = pre ++ rest ∧
        steps.align (f crc) next buf = (f (feed reflected crc (bits pre)), rest) := by
  induction buf generalizing crc next with
  | nil => exact ⟨[], [], rfl, rfl⟩
  | cons b buf ih =>
    unfold Steps.align
    split
    . obtain ⟨pre, rest, rfl, heq⟩ := ih (feed reflected crc (bitsOf b)) (next + 1)
      refine ⟨b :: pre, rest, rfl, ?_⟩
      rw [h.byte, heq, ← feed_append]
      rfl
    . exact ⟨[], b :: buf, rfl, rfl⟩

theorem Steps.Feed.middle (h : steps.Feed order f) (crc : Word) {x : Word} (hx : x = f crc)
    (buf : List Byte)
    : ∃ pre rest, buf = pre ++ rest ∧
        steps.middle order x buf = (f (feed reflected crc (bits pre)), rest) := by
  fun_induction Steps.middle steps order x buf generalizing crc with
  | case1 x b₀ b₁ b₂ b₃ b₄ b₅ b₆ b₇ buf ih =>
    subst hx
    obtain ⟨pre, rest, rfl, heq⟩ := ih _ (h.word crc [b₀, b₁, b₂, b₃, b₄, b₅, b₆, b₇] rfl)
    refine ⟨[b₀, b₁, b₂, b₃, b₄, b₅, b₆, b₇] ++ pre, rest, rfl, ?_⟩
    rw [heq, ← feed_append, bits, bits, bits, ← List.flatMap_append]
  | case2 x buf _ => exact ⟨[], buf, rfl, by rw [hx]; rfl⟩

theorem Steps.Feed.bytes (h : steps.Feed order f) (crc : Word) (buf : List Byte)
    : buf.foldl steps.byte (f crc) = f (feed reflected crc (bits buf)) := by
  induction buf generalizing crc with
  | nil => rfl
  | cons b buf ih =>
    rw [List.foldl_cons, h.byte, ih, ← feed_append]
    rfl

/-- The three loops feed the bits of the buffer, wherever it is. -/
theorem Steps.Feed.run (h : steps.Feed order f) (crc next : Word) (buf : List Byte)
    : steps.run order (f crc) next buf = f (feed reflected crc (bits buf)) := by
  obtain ⟨pre, rest, rfl, halign⟩ := h.align crc next buf
  obtain ⟨mid, post, rfl, hmiddle⟩ := h.middle (feed reflected crc (bits pre)) rfl rest
  have happend (l l' : List Byte) : bits (l ++ l') = bits l ++ bits l' := List.flatMap_append
  rw [Steps.run, halign]
  simp only [hmiddle, h.bytes, happend, feed_append]

end Steps

section Words

def bytesOf (x : Word) : List Byte :=
  (List.range 8).map (byteAt x)

theorem crcfn_eq (b : Byte)
    : Crc64.crcfn (b.setWidth 64) = (advance reflected)^[8] (b.setWidth 64) := by
  have hzero : (0 : Word).reverse = 0 := by decide +kernel
  rw [Crc64.crcfn, reverse_foldl_step, hzero, feed_bitsOf (by omega)]
  congr 1
  exact BitVec.zero_xor

theorem table_ok : Table.Ok Crc64.table := by
  have hfirst (b : Byte) : Table.Entry Crc64.table 0 b := crcfn_eq b
  intro k b _
  induction k with
  | zero => exact hfirst b
  | succ k ih =>
    have hstep := Table.Entry.advance hfirst (Crc64.table k (b.setWidth 64))
    have hadd : 8 * (k + 1 + 1) = 8 + 8 * (k + 1) := by omega
    rw [Table.Entry, hadd, Function.iterate_add_apply, ← ih (by omega), ← hstep]
    rfl

theorem foldl_update (words : List Word) (crc : Word)
    : words.foldl Crc64.update crc = feed reflected crc (words.flatMap bitsOf) := by
  induction words generalizing crc with
  | nil => rfl
  | cons word words ih =>
    have hstep : Crc64.update crc word = (littleSteps Crc64.table).word crc word := rfl
    have hwidth : word.setWidth 64 = word := BitVec.setWidth_eq _
    rw [List.foldl_cons, ih, hstep, littleSteps_word table_ok, List.flatMap_cons, feed_append,
      feed_bitsOf (by omega), hwidth]

end Words

theorem crc64_eq_feed (order : ByteOrder) (crc next : Word) (buf : List Byte)
    : crc64 order crc next buf = feed reflected crc (bits buf) := by
  have hlittle := littleInit_ok (fun _ _ => 0)
  cases order with
  | little => exact (littleSteps_feed hlittle).run crc next buf
  | big =>
    have htable : crc64Table .big = crcspeed64bigInit _crc64 (fun _ _ => 0) := rfl
    have hrun := (bigSteps_feed hlittle fun k b hk => bigInit_eq _ b hk).run crc next buf
    simp only [crc64, crcspeed64native, crcspeed64big, htable, hrun, rev8_rev8]

/--
The table-driven checksum is the checksum bit by bit, with the initial value reflected, for any byte
order of the machine, any address and any buffer.
-/
theorem crc64_eq_bitwise (order : ByteOrder) (crc next : Word) (buf : List Byte)
    : crc64 order crc next buf = _crc64 (crcReflect crc 64) buf := by
  rw [crc64_eq_feed, _crc64_eq, crcReflect_eq, BitVec.reverse_reverse_eq]

example : _crc64 0 [0x31, 0x32, 0x33, 0x34, 0x35, 0x36, 0x37, 0x38, 0x39] = 0xe9c6d914c4b8d9ca := by
  decide +kernel

/-- A buffer can be processed in pieces, wherever they are. -/
theorem crc64_append (order : ByteOrder) (crc next next₁ next₂ : Word) (buf₁ buf₂ : List Byte)
    : crc64 order crc next (buf₁ ++ buf₂)
        = crc64 order (crc64 order crc next₁ buf₁) next₂ buf₂ := by
  rw [crc64_eq_feed, crc64_eq_feed, crc64_eq_feed, bits, List.flatMap_append, feed_append]
  rfl

end Crcspeed
