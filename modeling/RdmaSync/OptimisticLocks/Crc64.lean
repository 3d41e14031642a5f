import RdmaSync.Rdma.Verb

/-!
This module contains the checksum function, in the slice-by-8 form in which it is run over buffers of
8-byte words.
-/

namespace Crc64

open Rdma

def poly : Word := 0xad93d23594c935a9

/-- Feed bit `i` of the byte `c` to the checksum. -/
def step (c crc : Word) (i : Nat) : Word :=
  let bit := if c.getLsbD i then !crc.msb else crc.msb
  let crc := crc <<< 1
  if bit then crc ^^^ poly else crc

/-- `_crc64` of a single byte. -/
def crcfn (c : Word) : Word :=
  ((List.range 8).foldl (step c) 0).reverse

def table (k : Nat) (n : Word) : Word :=
  match k with
  | 0 => crcfn n
  | k + 1 =>
    let crc := table k n
    crcfn (crc &&& 0xff) ^^^ (crc >>> 8)

def update (crc word : Word) : Word :=
  let crc := crc ^^^ word
  table 7 (crc &&& 0xff) ^^^
  table 6 ((crc >>> 8) &&& 0xff) ^^^
  table 5 ((crc >>> 16) &&& 0xff) ^^^
  table 4 ((crc >>> 24) &&& 0xff) ^^^
  table 3 ((crc >>> 32) &&& 0xff) ^^^
  table 2 ((crc >>> 40) &&& 0xff) ^^^
  table 1 ((crc >>> 48) &&& 0xff) ^^^
  table 0 (crc >>> 56)

/-- `crc64(0, words)`. -/
def crc64 (words : List Word) : Word :=
  words.foldl update 0

theorem crcfn_zero : crcfn 0#64 = 0#64 := by
  decide +kernel

theorem table_zero (k : Nat) : table k 0#64 = 0#64 := by
  induction k with
  | zero => exact crcfn_zero
  | succ k ih =>
    have hstep : table (k + 1) 0#64 = crcfn (table k 0#64 &&& 0xff) ^^^ (table k 0#64 >>> 8) := rfl
    rw [hstep, ih, BitVec.zero_and, crcfn_zero, BitVec.zero_ushiftRight]
    rfl

theorem update_zero : update 0#64 0#64 = 0#64 := by
  simp only [update, BitVec.xor_self, BitVec.zero_ushiftRight, BitVec.zero_and, table_zero]

theorem crc64_zeros (n : Nat) : crc64 (List.replicate n 0) = 0 := by
  induction n with
  | zero => rfl
  | succ n ih =>
    have hzero : update 0 0 = 0 := update_zero
    rw [crc64, List.replicate_succ, List.foldl_cons, hzero]
    exact ih

end Crc64
