import Mathlib.Logic.Function.Iterate
import RdmaSync.OptimisticLocks.Crc64

/-!
This module contains the checksum function over bytes: bit by bit, and with lookup tables that process
eight bytes at a time once the address is aligned, on a little- or a big-endian machine.
-/

namespace Crcspeed

open Rdma

abbrev Byte := BitVec 8

abbrev Table := Nat → Word → Word

abbrev Crcfn64 := Word → List Byte → Word

inductive ByteOrder where
  | little
  | big
  deriving DecidableEq

def reflectBit (s : Word × Word) : Word × Word :=
  let (data, ret) := s
  let data := data >>> 1
  (data, (ret <<< 1) ||| (data &&& 0x01))

def crcReflect (data : Word) (dataLen : Nat) : Word :=
  let ret := data &&& 0x01
  (reflectBit^[dataLen - 1] (data, ret)).2

def feedBit (c : Byte) (crc : Word) (i : Byte) : Word :=
  let bit := crc &&& 0x8000000000000000
  let bit := if c &&& i ≠ 0 then (if bit = 0 then 1 else 0) else bit
  let crc := crc <<< 1
  if bit ≠ 0 then crc ^^^ Crc64.poly else crc

def feedByte (crc : Word) (c : Byte) : Word :=
  let crc := ([0x01, 0x02, 0x04, 0x08, 0x10, 0x20, 0x40, 0x80] : List Byte).foldl (feedBit c) crc
  crc &&& 0xffffffffffffffff

/-- The checksum bit by bit. It takes the bits of `crc` in the reverse order. -/
def _crc64 : Crcfn64 := fun crc data =>
  let crc := data.foldl feedByte crc
  let crc := crc &&& 0xffffffffffffffff
  crcReflect crc 64 ^^^ 0x0000000000000000

def Table.set (table : Table) (k : Nat) (n crc : Word) : Table := fun k' n' =>
  if k' = k ∧ n' = n then crc else table k' n'

/-- Fill the entries of `n`, from the first table. -/
def nest (table : Table) (n : Word) : Table :=
  ((List.range' 1 7).foldl (fun (table, crc) k =>
    let crc := table 0 (crc &&& 0xff) ^^^ (crc >>> 8)
    (table.set k n crc, crc)) (table, table 0 n)).1

def indices : List Word :=
  (List.range 256).map (BitVec.ofNat 64)

def crcspeed64littleInit (crcfn : Crcfn64) (table : Table) : Table :=
  let table := indices.foldl (fun table n =>
    let v := n.setWidth 8
    table.set 0 n (crcfn 0 [v])) table
  indices.foldl nest table

def ofBytes (bytes : List Byte) : Word :=
  bytes.foldl (fun x b => x <<< 8 ||| b.setWidth 64) 0

def byteAt (x : Word) (j : Nat) : Byte :=
  x.extractLsb' (8 * j) 8

def rev8 (a : Word) : Word :=
  ofBytes ((List.range 8).map (byteAt a))

def crcspeed64bigInit (fn : Crcfn64) (bigTable : Table) : Table :=
  let bigTable := crcspeed64littleInit fn bigTable
  (List.range 8).foldl (fun bigTable k =>
    indices.foldl (fun bigTable n => bigTable.set k n (rev8 (bigTable k n))) bigTable) bigTable

def load64 (order : ByteOrder) (bytes : List Byte) : Word :=
  match order with
  | .little => ofBytes bytes.reverse
  | .big => ofBytes bytes

/-- What is done for a single byte, and for the eight bytes at an aligned address. -/
structure Steps where
  byte : Word → Byte → Word
  word : Word → Word → Word

def littleSteps (littleTable : Table) : Steps where
  byte := fun crc b => littleTable 0 ((crc ^^^ b.setWidth 64) &&& 0xff) ^^^ (crc >>> 8)
  word := fun crc word =>
    let crc := crc ^^^ word
    littleTable 7 (crc &&& 0xff) ^^^
    littleTable 6 ((crc >>> 8) &&& 0xff) ^^^
    littleTable 5 ((crc >>> 16) &&& 0xff) ^^^
    littleTable 4 ((crc >>> 24) &&& 0xff) ^^^
    littleTable 3 ((crc >>> 32) &&& 0xff) ^^^
    littleTable 2 ((crc >>> 40) &&& 0xff) ^^^
    littleTable 1 ((crc >>> 48) &&& 0xff) ^^^
    littleTable 0 (crc >>> 56)

def bigSteps (bigTable : Table) : Steps where
  byte := fun crc b => bigTable 0 ((crc >>> 56) ^^^ b.setWidth 64) ^^^ (crc <<< 8)
  word := fun crc word =>
    let crc := crc ^^^ word
    bigTable 0 (crc &&& 0xff) ^^^
    bigTable 1 ((crc >>> 8) &&& 0xff) ^^^
    bigTable 2 ((crc >>> 16) &&& 0xff) ^^^
    bigTable 3 ((crc >>> 24) &&& 0xff) ^^^
    bigTable 4 ((crc >>> 32) &&& 0xff) ^^^
    bigTable 5 ((crc >>> 40) &&& 0xff) ^^^
    bigTable 6 ((crc >>> 48) &&& 0xff) ^^^
    bigTable 7 (crc >>> 56)

namespace Steps

variable (steps : Steps)

/-- Process individual bytes until the pointer is aligned. -/
def align (crc next : Word) (buf : List Byte) : Word × List Byte :=
  match buf with
  | [] => (crc, [])
  | b :: buf =>
    if next &&& 7 ≠ 0 then
      align (steps.byte crc b) (next + 1) buf
    else
      (crc, b :: buf)

def middle (order : ByteOrder) (crc : Word) (buf : List Byte) : Word × List Byte :=
  match buf with
  | b₀ :: b₁ :: b₂ :: b₃ :: b₄ :: b₅ :: b₆ :: b₇ :: buf =>
    middle order (steps.word crc (load64 order [b₀, b₁, b₂, b₃, b₄, b₅, b₆, b₇])) buf
  | buf => (crc, buf)

def run (order : ByteOrder) (crc next : Word) (buf : List Byte) : Word :=
  let (crc, buf) := steps.align crc next buf
  let (crc, buf) := steps.middle order crc buf
  buf.foldl steps.byte crc

end Steps

def crcspeed64little (order : ByteOrder) (littleTable : Table) (crc next : Word) (buf : List Byte)
    : Word :=
  (littleSteps littleTable).run order crc next buf

def crcspeed64big (order : ByteOrder) (bigTable : Table) (crc next : Word) (buf : List Byte)
    : Word :=
  let crc := rev8 crc
  rev8 ((bigSteps bigTable).run order crc next buf)

def crcspeed64native (order : ByteOrder) (table : Table) (crc next : Word) (buf : List Byte)
    : Word :=
  match order with
  | .little => crcspeed64little order table crc next buf
  | .big => crcspeed64big order table crc next buf

def crcspeed64nativeInit (order : ByteOrder) (fn : Crcfn64) (table : Table) : Table :=
  match order with
  | .little => crcspeed64littleInit fn table
  | .big => crcspeed64bigInit fn table

/-- `crc64_table` after `crc64_init`. -/
def crc64Table (order : ByteOrder) : Table :=
  crcspeed64nativeInit order _crc64 (fun _ _ => 0)

def crc64 (order : ByteOrder) (crc next : Word) (buf : List Byte) : Word :=
  crcspeed64native order (crc64Table order) crc next buf

end Crcspeed
