import Mathlib.Algebra.Order.Ring.Nat
import Mathlib.Data.Nat.Bitwise
import Mathlib.Tactic.IntervalCases
import TateFirmware.Support.Parity

/-!
# The error correcting code of NAND pages

`nand_calculate_ecc` and `nand_correct_data` of `drivers/nand/nand_ecc_256.c`
(`Ecc256`) and of `drivers/nand/nand_ecc_512.c` (`Ecc512`), one of which is linked.
The bits of the code are inverted parities of the bytes of a block: a pair for each
bit of the offset, over the bytes whose offset has it clear and set, and a pair for
each bit of the place in a byte.  The words that `nand_ecc_512.c` reads are
little endian, and its argument `mult` is `eccsize_mult`.
-/

namespace TateFirmware.Nand

open Support

/-- The three bytes of a code. -/
@[ext] structure EccCode where
  c0 : BitVec 8
  c1 : BitVec 8
  c2 : BitVec 8
deriving DecidableEq

/-- The difference of two codes. -/
def EccCode.xor (x y : EccCode) : EccCode := ⟨x.c0 ^^^ y.c0, x.c1 ^^^ y.c1, x.c2 ^^^ y.c2⟩

/-- An entry of a table of 256. -/
def entryAt (table : List ℕ) (x : BitVec 8) : ℕ := table.getD x.toNat 0

/-! ## Blocks of 256 bytes -/

namespace Ecc256

/-- `nand_ecc_precalc_table`. -/
def nandEccPrecalcTable : List ℕ :=
  [0x00, 0x55, 0x56, 0x03, 0x59, 0x0c, 0x0f, 0x5a, 0x5a, 0x0f, 0x0c, 0x59, 0x03, 0x56, 0x55, 0x00,
    0x65, 0x30, 0x33, 0x66, 0x3c, 0x69, 0x6a, 0x3f, 0x3f, 0x6a, 0x69, 0x3c, 0x66, 0x33, 0x30, 0x65,
    0x66, 0x33, 0x30, 0x65, 0x3f, 0x6a, 0x69, 0x3c, 0x3c, 0x69, 0x6a, 0x3f, 0x65, 0x30, 0x33, 0x66,
    0x03, 0x56, 0x55, 0x00, 0x5a, 0x0f, 0x0c, 0x59, 0x59, 0x0c, 0x0f, 0x5a, 0x00, 0x55, 0x56, 0x03,
    0x69, 0x3c, 0x3f, 0x6a, 0x30, 0x65, 0x66, 0x33, 0x33, 0x66, 0x65, 0x30, 0x6a, 0x3f, 0x3c, 0x69,
    0x0c, 0x59, 0x5a, 0x0f, 0x55, 0x00, 0x03, 0x56, 0x56, 0x03, 0x00, 0x55, 0x0f, 0x5a, 0x59, 0x0c,
    0x0f, 0x5a, 0x59, 0x0c, 0x56, 0x03, 0x00, 0x55, 0x55, 0x00, 0x03, 0x56, 0x0c, 0x59, 0x5a, 0x0f,
    0x6a, 0x3f, 0x3c, 0x69, 0x33, 0x66, 0x65, 0x30, 0x30, 0x65, 0x66, 0x33, 0x69, 0x3c, 0x3f, 0x6a,
    0x6a, 0x3f, 0x3c, 0x69, 0x33, 0x66, 0x65, 0x30, 0x30, 0x65, 0x66, 0x33, 0x69, 0x3c, 0x3f, 0x6a,
    0x0f, 0x5a, 0x59, 0x0c, 0x56, 0x03, 0x00, 0x55, 0x55, 0x00, 0x03, 0x56, 0x0c, 0x59, 0x5a, 0x0f,
    0x0c, 0x59, 0x5a, 0x0f, 0x55, 0x00, 0x03, 0x56, 0x56, 0x03, 0x00, 0x55, 0x0f, 0x5a, 0x59, 0x0c,
    0x69, 0x3c, 0x3f, 0x6a, 0x30, 0x65, 0x66, 0x33, 0x33, 0x66, 0x65, 0x30, 0x6a, 0x3f, 0x3c, 0x69,
    0x03, 0x56, 0x55, 0x00, 0x5a, 0x0f, 0x0c, 0x59, 0x59, 0x0c, 0x0f, 0x5a, 0x00, 0x55, 0x56, 0x03,
    0x66, 0x33, 0x30, 0x65, 0x3f, 0x6a, 0x69, 0x3c, 0x3c, 0x69, 0x6a, 0x3f, 0x65, 0x30, 0x33, 0x66,
    0x65, 0x30, 0x33, 0x66, 0x3c, 0x69, 0x6a, 0x3f, 0x3f, 0x6a, 0x69, 0x3c, 0x66, 0x33, 0x30, 0x65,
    0x00, 0x55, 0x56, 0x03, 0x59, 0x0c, 0x0f, 0x5a, 0x5a, 0x0f, 0x0c, 0x59, 0x03, 0x56, 0x55, 0x00]

/-- The registers of `nand_calculate_ecc`. -/
structure Regs where
  reg1 : BitVec 8
  reg2 : BitVec 8
  reg3 : BitVec 8

/-- A pass of the loop. -/
def columnPass (dat : Memory (BitVec 8)) (r : Regs) (i : ℕ) : Regs :=
  let idx := BitVec.ofNat 8 (entryAt nandEccPrecalcTable (dat i))
  let reg1 := r.reg1 ^^^ (idx &&& 0x3f)
  if idx &&& 0x40 ≠ 0 then
    ⟨reg1, r.reg2 ^^^ ~~~BitVec.ofNat 8 i, r.reg3 ^^^ BitVec.ofNat 8 i⟩
  else ⟨reg1, r.reg2, r.reg3⟩

/-- The registers after the first `n` bytes. -/
def regs (dat : Memory (BitVec 8)) (n : ℕ) : Regs :=
  (List.range n).foldl (columnPass dat) ⟨0, 0, 0⟩

/-- `nand_calculate_ecc`. -/
def nandCalculateEcc (dat : Memory (BitVec 8)) : EccCode :=
  let r := regs dat 256
  let tmp1 := (r.reg3 &&& 0x80) >>> 0 ||| (r.reg2 &&& 0x80) >>> 1 |||
    (r.reg3 &&& 0x40) >>> 1 ||| (r.reg2 &&& 0x40) >>> 2 |||
    (r.reg3 &&& 0x20) >>> 2 ||| (r.reg2 &&& 0x20) >>> 3 |||
    (r.reg3 &&& 0x10) >>> 3 ||| (r.reg2 &&& 0x10) >>> 4
  let tmp2 := (r.reg3 &&& 0x08) <<< 4 ||| (r.reg2 &&& 0x08) <<< 3 |||
    (r.reg3 &&& 0x04) <<< 3 ||| (r.reg2 &&& 0x04) <<< 2 |||
    (r.reg3 &&& 0x02) <<< 2 ||| (r.reg2 &&& 0x02) <<< 1 |||
    (r.reg3 &&& 0x01) <<< 1 ||| (r.reg2 &&& 0x01) <<< 0
  ⟨~~~tmp1, ~~~tmp2, (~~~r.reg1) <<< 2 ||| 0x03⟩

/-- The loop of `countbits`; a word of 32 bits is zero after as many shifts. -/
def countbitsLoop : ℕ → ℕ → ℕ
  | 0, _ => 0
  | rounds + 1, byte =>
      if byte = 0 then 0 else byte % 2 + countbitsLoop rounds (byte / 2)

/-- `countbits`. -/
def countbits (byte : ℕ) : ℕ := countbitsLoop 32 byte

/-- `nand_correct_data`: what it returns and the block it leaves. -/
def nandCorrectData (dat : Memory (BitVec 8)) (readEcc calcEcc : EccCode) :
    ℤ × Memory (BitVec 8) :=
  let s0 := calcEcc.c0 ^^^ readEcc.c0
  let s1 := calcEcc.c1 ^^^ readEcc.c1
  let s2 := calcEcc.c2 ^^^ readEcc.c2
  if s0 ||| s1 ||| s2 = 0 then (0, dat)
  else if (s0 ^^^ s0 >>> 1) &&& 0x55 = 0x55 ∧ (s1 ^^^ s1 >>> 1) &&& 0x55 = 0x55 ∧
      (s2 ^^^ s2 >>> 1) &&& 0x54 = 0x54 then
    let byteoffs := (s1 <<< 0) &&& 0x80 ||| (s1 <<< 1) &&& 0x40 |||
      (s1 <<< 2) &&& 0x20 ||| (s1 <<< 3) &&& 0x10 |||
      (s0 >>> 4) &&& 0x08 ||| (s0 >>> 3) &&& 0x04 |||
      (s0 >>> 2) &&& 0x02 ||| (s0 >>> 1) &&& 0x01
    let bitnum := (s2 >>> 5) &&& 0x04 ||| (s2 >>> 4) &&& 0x02 ||| (s2 >>> 3) &&& 0x01
    (1, dat.store byteoffs.toNat (dat byteoffs.toNat ^^^ BitVec.twoPow 8 bitnum.toNat))
  else if countbits (s0.toNat ||| s1.toNat <<< 8 ||| s2.toNat <<< 16) = 1 then (1, dat)
  else (-1, dat)

end Ecc256

/-! ## Blocks of 256 or 512 bytes -/

namespace Ecc512

/-- `invparity`. -/
def invparity : List ℕ :=
  [1, 0, 0, 1, 0, 1, 1, 0, 0, 1, 1, 0, 1, 0, 0, 1,
    0, 1, 1, 0, 1, 0, 0, 1, 1, 0, 0, 1, 0, 1, 1, 0,
    0, 1, 1, 0, 1, 0, 0, 1, 1, 0, 0, 1, 0, 1, 1, 0,
    1, 0, 0, 1, 0, 1, 1, 0, 0, 1, 1, 0, 1, 0, 0, 1,
    0, 1, 1, 0, 1, 0, 0, 1, 1, 0, 0, 1, 0, 1, 1, 0,
    1, 0, 0, 1, 0, 1, 1, 0, 0, 1, 1, 0, 1, 0, 0, 1,
    1, 0, 0, 1, 0, 1, 1, 0, 0, 1, 1, 0, 1, 0, 0, 1,
    0, 1, 1, 0, 1, 0, 0, 1, 1, 0, 0, 1, 0, 1, 1, 0,
    0, 1, 1, 0, 1, 0, 0, 1, 1, 0, 0, 1, 0, 1, 1, 0,
    1, 0, 0, 1, 0, 1, 1, 0, 0, 1, 1, 0, 1, 0, 0, 1,
    1, 0, 0, 1, 0, 1, 1, 0, 0, 1, 1, 0, 1, 0, 0, 1,
    0, 1, 1, 0, 1, 0, 0, 1, 1, 0, 0, 1, 0, 1, 1, 0,
    1, 0, 0, 1, 0, 1, 1, 0, 0, 1, 1, 0, 1, 0, 0, 1,
    0, 1, 1, 0, 1, 0, 0, 1, 1, 0, 0, 1, 0, 1, 1, 0,
    0, 1, 1, 0, 1, 0, 0, 1, 1, 0, 0, 1, 0, 1, 1, 0,
    1, 0, 0, 1, 0, 1, 1, 0, 0, 1, 1, 0, 1, 0, 0, 1]

/-- `bitsperbyte`. -/
def bitsperbyte : List ℕ :=
  [0, 1, 1, 2, 1, 2, 2, 3, 1, 2, 2, 3, 2, 3, 3, 4,
    1, 2, 2, 3, 2, 3, 3, 4, 2, 3, 3, 4, 3, 4, 4, 5,
    1, 2, 2, 3, 2, 3, 3, 4, 2, 3, 3, 4, 3, 4, 4, 5,
    2, 3, 3, 4, 3, 4, 4, 5, 3, 4, 4, 5, 4, 5, 5, 6,
    1, 2, 2, 3, 2, 3, 3, 4, 2, 3, 3, 4, 3, 4, 4, 5,
    2, 3, 3, 4, 3, 4, 4, 5, 3, 4, 4, 5, 4, 5, 5, 6,
    2, 3, 3, 4, 3, 4, 4, 5, 3, 4, 4, 5, 4, 5, 5, 6,
    3, 4, 4, 5, 4, 5, 5, 6, 4, 5, 5, 6, 5, 6, 6, 7,
    1, 2, 2, 3, 2, 3, 3, 4, 2, 3, 3, 4, 3, 4, 4, 5,
    2, 3, 3, 4, 3, 4, 4, 5, 3, 4, 4, 5, 4, 5, 5, 6,
    2, 3, 3, 4, 3, 4, 4, 5, 3, 4, 4, 5, 4, 5, 5, 6,
    3, 4, 4, 5, 4, 5, 5, 6, 4, 5, 5, 6, 5, 6, 6, 7,
    2, 3, 3, 4, 3, 4, 4, 5, 3, 4, 4, 5, 4, 5, 5, 6,
    3, 4, 4, 5, 4, 5, 5, 6, 4, 5, 5, 6, 5, 6, 6, 7,
    3, 4, 4, 5, 4, 5, 5, 6, 4, 5, 5, 6, 5, 6, 6, 7,
    4, 5, 5, 6, 5, 6, 6, 7, 5, 6, 6, 7, 6, 7, 7, 8]

/-- `addressbits`. -/
def addressbits : List ℕ :=
  [0x00, 0x00, 0x01, 0x01, 0x00, 0x00, 0x01, 0x01, 0x02, 0x02, 0x03, 0x03, 0x02, 0x02, 0x03, 0x03,
    0x00, 0x00, 0x01, 0x01, 0x00, 0x00, 0x01, 0x01, 0x02, 0x02, 0x03, 0x03, 0x02, 0x02, 0x03, 0x03,
    0x04, 0x04, 0x05, 0x05, 0x04, 0x04, 0x05, 0x05, 0x06, 0x06, 0x07, 0x07, 0x06, 0x06, 0x07, 0x07,
    0x04, 0x04, 0x05, 0x05, 0x04, 0x04, 0x05, 0x05, 0x06, 0x06, 0x07, 0x07, 0x06, 0x06, 0x07, 0x07,
    0x00, 0x00, 0x01, 0x01, 0x00, 0x00, 0x01, 0x01, 0x02, 0x02, 0x03, 0x03, 0x02, 0x02, 0x03, 0x03,
    0x00, 0x00, 0x01, 0x01, 0x00, 0x00, 0x01, 0x01, 0x02, 0x02, 0x03, 0x03, 0x02, 0x02, 0x03, 0x03,
    0x04, 0x04, 0x05, 0x05, 0x04, 0x04, 0x05, 0x05, 0x06, 0x06, 0x07, 0x07, 0x06, 0x06, 0x07, 0x07,
    0x04, 0x04, 0x05, 0x05, 0x04, 0x04, 0x05, 0x05, 0x06, 0x06, 0x07, 0x07, 0x06, 0x06, 0x07, 0x07,
    0x08, 0x08, 0x09, 0x09, 0x08, 0x08, 0x09, 0x09, 0x0a, 0x0a, 0x0b, 0x0b, 0x0a, 0x0a, 0x0b, 0x0b,
    0x08, 0x08, 0x09, 0x09, 0x08, 0x08, 0x09, 0x09, 0x0a, 0x0a, 0x0b, 0x0b, 0x0a, 0x0a, 0x0b, 0x0b,
    0x0c, 0x0c, 0x0d, 0x0d, 0x0c, 0x0c, 0x0d, 0x0d, 0x0e, 0x0e, 0x0f, 0x0f, 0x0e, 0x0e, 0x0f, 0x0f,
    0x0c, 0x0c, 0x0d, 0x0d, 0x0c, 0x0c, 0x0d, 0x0d, 0x0e, 0x0e, 0x0f, 0x0f, 0x0e, 0x0e, 0x0f, 0x0f,
    0x08, 0x08, 0x09, 0x09, 0x08, 0x08, 0x09, 0x09, 0x0a, 0x0a, 0x0b, 0x0b, 0x0a, 0x0a, 0x0b, 0x0b,
    0x08, 0x08, 0x09, 0x09, 0x08, 0x08, 0x09, 0x09, 0x0a, 0x0a, 0x0b, 0x0b, 0x0a, 0x0a, 0x0b, 0x0b,
    0x0c, 0x0c, 0x0d, 0x0d, 0x0c, 0x0c, 0x0d, 0x0d, 0x0e, 0x0e, 0x0f, 0x0f, 0x0e, 0x0e, 0x0f, 0x0f,
    0x0c, 0x0c, 0x0d, 0x0d, 0x0c, 0x0c, 0x0d, 0x0d, 0x0e, 0x0e, 0x0f, 0x0f, 0x0e, 0x0e, 0x0f, 0x0f]

/-- `((uint32_t *)buf)[j]`. -/
def word (buf : Memory (BitVec 8)) (j : ℕ) : BitVec 32 :=
  (buf (4 * j)).setWidth 32 ||| (buf (4 * j + 1)).setWidth 32 <<< 8 |||
    (buf (4 * j + 2)).setWidth 32 <<< 16 ||| (buf (4 * j + 3)).setWidth 32 <<< 24

/-- The parities that the loop of `nand_calculate_ecc` gathers. -/
structure Sums where
  par : BitVec 32
  rp4 : BitVec 32
  rp6 : BitVec 32
  rp8 : BitVec 32
  rp10 : BitVec 32
  rp12 : BitVec 32
  rp14 : BitVec 32
  rp16 : BitVec 32

/-- A pass of the loop over sixteen words. -/
def sumsPass (mult : ℕ) (bp : Memory (BitVec 32)) (s : Sums) (i : ℕ) : Sums :=
  let cur := fun j => bp (16 * i + j)
  let tmppar := cur 0
  let rp4 := s.rp4 ^^^ cur 0
  let tmppar := tmppar ^^^ cur 1
  let rp6 := s.rp6 ^^^ tmppar
  let tmppar := tmppar ^^^ cur 2
  let rp4 := rp4 ^^^ cur 2
  let tmppar := tmppar ^^^ cur 3
  let rp8 := s.rp8 ^^^ tmppar
  let tmppar := tmppar ^^^ cur 4
  let rp4 := rp4 ^^^ cur 4
  let rp6 := rp6 ^^^ cur 4
  let tmppar := tmppar ^^^ cur 5
  let rp6 := rp6 ^^^ cur 5
  let tmppar := tmppar ^^^ cur 6
  let rp4 := rp4 ^^^ cur 6
  let tmppar := tmppar ^^^ cur 7
  let rp10 := s.rp10 ^^^ tmppar
  let tmppar := tmppar ^^^ cur 8
  let rp4 := rp4 ^^^ cur 8
  let rp6 := rp6 ^^^ cur 8
  let rp8 := rp8 ^^^ cur 8
  let tmppar := tmppar ^^^ cur 9
  let rp6 := rp6 ^^^ cur 9
  let rp8 := rp8 ^^^ cur 9
  let tmppar := tmppar ^^^ cur 10
  let rp4 := rp4 ^^^ cur 10
  let rp8 := rp8 ^^^ cur 10
  let tmppar := tmppar ^^^ cur 11
  let rp8 := rp8 ^^^ cur 11
  let tmppar := tmppar ^^^ cur 12
  let rp4 := rp4 ^^^ cur 12
  let rp6 := rp6 ^^^ cur 12
  let tmppar := tmppar ^^^ cur 13
  let rp6 := rp6 ^^^ cur 13
  let tmppar := tmppar ^^^ cur 14
  let rp4 := rp4 ^^^ cur 14
  let tmppar := tmppar ^^^ cur 15
  { par := s.par ^^^ tmppar
    rp4 := rp4
    rp6 := rp6
    rp8 := rp8
    rp10 := rp10
    rp12 := if i &&& 1 = 0 then s.rp12 ^^^ tmppar else s.rp12
    rp14 := if i &&& 2 = 0 then s.rp14 ^^^ tmppar else s.rp14
    rp16 := if mult = 2 ∧ i &&& 4 = 0 then s.rp16 ^^^ tmppar else s.rp16 }

/-- The parities after `n` passes. -/
def sums (mult : ℕ) (bp : Memory (BitVec 32)) (n : ℕ) : Sums :=
  (List.range n).foldl (sumsPass mult bp) ⟨0, 0, 0, 0, 0, 0, 0, 0⟩

/-- The upper half of a word added to the lower, and then the upper byte. -/
def fold (rp : BitVec 32) : BitVec 8 :=
  let rp := rp ^^^ rp >>> 16
  let rp := rp ^^^ rp >>> 8
  (rp &&& 0xff).setWidth 8

/-- `invparity[rp] << k`. -/
def invBit (rp : BitVec 8) (k : ℕ) : BitVec 8 := BitVec.ofNat 8 (entryAt invparity rp) <<< k

/-- `nand_calculate_ecc`. -/
def nandCalculateEcc (mult : ℕ) (buf : Memory (BitVec 8)) : EccCode :=
  let s := sums mult (word buf) (mult <<< 2)
  let rp4 := fold s.rp4
  let rp6 := fold s.rp6
  let rp8 := fold s.rp8
  let rp10 := fold s.rp10
  let rp12 := fold s.rp12
  let rp14 := fold s.rp14
  let rp16 := fold s.rp16
  let rp3 := s.par >>> 16
  let rp3 := ((rp3 ^^^ rp3 >>> 8) &&& 0xff).setWidth 8
  let rp2 := s.par &&& 0xffff
  let rp2 := ((rp2 ^^^ rp2 >>> 8) &&& 0xff).setWidth 8
  let par := s.par ^^^ s.par >>> 16
  let rp1 := ((par >>> 8) &&& 0xff).setWidth 8
  let rp0 := (par &&& 0xff).setWidth 8
  let par := ((par ^^^ par >>> 8) &&& 0xff).setWidth 8
  let rp5 := par ^^^ rp4
  let rp7 := par ^^^ rp6
  let rp9 := par ^^^ rp8
  let rp11 := par ^^^ rp10
  let rp13 := par ^^^ rp12
  let rp15 := par ^^^ rp14
  let rp17 := par ^^^ rp16
  let code1 := invBit rp7 7 ||| invBit rp6 6 ||| invBit rp5 5 ||| invBit rp4 4 |||
    invBit rp3 3 ||| invBit rp2 2 ||| invBit rp1 1 ||| invBit rp0 0
  let code0 := invBit rp15 7 ||| invBit rp14 6 ||| invBit rp13 5 ||| invBit rp12 4 |||
    invBit rp11 3 ||| invBit rp10 2 ||| invBit rp9 1 ||| invBit rp8 0
  let columns := invBit (par &&& 0xf0) 7 ||| invBit (par &&& 0x0f) 6 |||
    invBit (par &&& 0xcc) 5 ||| invBit (par &&& 0x33) 4 |||
    invBit (par &&& 0xaa) 3 ||| invBit (par &&& 0x55) 2
  let code2 := if mult = 1 then columns ||| 3
    else columns ||| invBit rp17 1 ||| invBit rp16 0
  ⟨code0, code1, code2⟩

/-- `nand_correct_data`: what it returns and the block it leaves. -/
def nandCorrectData (mult : ℕ) (buf : Memory (BitVec 8)) (readEcc calcEcc : EccCode) :
    ℤ × Memory (BitVec 8) :=
  let b0 := readEcc.c1 ^^^ calcEcc.c1
  let b1 := readEcc.c0 ^^^ calcEcc.c0
  let b2 := readEcc.c2 ^^^ calcEcc.c2
  if b0 ||| b1 ||| b2 = 0 then (0, buf)
  else if (b0 ^^^ b0 >>> 1) &&& 0x55 = 0x55 ∧ (b1 ^^^ b1 >>> 1) &&& 0x55 = 0x55 ∧
      (mult = 1 ∧ (b2 ^^^ b2 >>> 1) &&& 0x54 = 0x54 ∨
        mult = 2 ∧ (b2 ^^^ b2 >>> 1) &&& 0x55 = 0x55) then
    let byteAddr := if mult = 1 then entryAt addressbits b1 <<< 4 + entryAt addressbits b0
      else entryAt addressbits (b2 &&& 0x3) <<< 8 + entryAt addressbits b1 <<< 4 +
        entryAt addressbits b0
    let bitAddr := entryAt addressbits (b2 >>> 2)
    (1, buf.store byteAddr (buf byteAddr ^^^ BitVec.twoPow 8 bitAddr))
  else if entryAt bitsperbyte b0 + entryAt bitsperbyte b1 + entryAt bitsperbyte b2 = 1 then
    (1, buf)
  else (-1, buf)

end Ecc512

/-! ## The parities of a block -/

section Parities

variable (dat : Memory (BitVec 8)) (n : ℕ)

/-- The parity of the bytes whose offset has bit `j` as `v` says. -/
def lineParity (j : ℕ) (v : Bool) : Bool :=
  bitParity (xorWhere (fun i => i.testBit j == v) dat n)

/-- The parity of the bits of a mask in all bytes. -/
def columnParity (mask : BitVec 8) : Bool :=
  bitParity (xorWhere (fun _ => true) dat n &&& mask)

/-- The bits of a byte whose place has bit `(i - 2) / 2` clear or set. -/
def columnMask : ℕ → BitVec 8
  | 2 => 0x55
  | 3 => 0xaa
  | 4 => 0x33
  | 5 => 0xcc
  | 6 => 0x0f
  | _ => 0xf0

theorem lineParity_succ (j : ℕ) (v : Bool) :
    lineParity dat (n + 1) j v =
      (lineParity dat n j v ^^ ((n.testBit j == v) && bitParity (dat n))) := by
  rw [lineParity, xorWhere_succ, bitParity_xor]
  cases n.testBit j == v with
  | true => simp [lineParity]
  | false => simp [lineParity]

theorem xor_and (x y mask : BitVec 8) :
    (x ^^^ y) &&& mask = (x &&& mask) ^^^ (y &&& mask) := by
  apply BitVec.eq_of_getLsbD_eq
  intro i _
  simp only [BitVec.getLsbD_and, BitVec.getLsbD_xor, Bool.and_xor_distrib_right]

theorem columnParity_succ (mask : BitVec 8) :
    columnParity dat (n + 1) mask = (columnParity dat n mask ^^ bitParity (dat n &&& mask)) := by
  rw [columnParity, xorWhere_succ, if_pos rfl, xor_and, bitParity_xor]
  rfl

/-- The code of a block of `mult` times 256 bytes. -/
def blockCode (mult : ℕ) : EccCode where
  c0 := byteOf fun i => !lineParity dat (256 * mult) (4 + i / 2) (i % 2 == 1)
  c1 := byteOf fun i => !lineParity dat (256 * mult) (i / 2) (i % 2 == 1)
  c2 := byteOf fun i =>
    if i < 2 then mult == 1 || !lineParity dat (256 * mult) 8 (i == 1)
    else !columnParity dat (256 * mult) (columnMask i)

end Parities

/-! ## The code of `nand_ecc_256.c` -/

namespace Ecc256

variable {dat : Memory (BitVec 8)}

theorem precalc_eq (x : BitVec 8) :
    BitVec.ofNat 8 (entryAt nandEccPrecalcTable x) = byteOf fun i =>
      if i < 6 then bitParity (x &&& columnMask (i + 2)) else i == 6 && bitParity x := by
  have hall : ∀ m < 256, BitVec.ofNat 8 (entryAt nandEccPrecalcTable (BitVec.ofNat 8 m)) =
      byteOf fun i => if i < 6 then bitParity (BitVec.ofNat 8 m &&& columnMask (i + 2))
        else i == 6 && bitParity (BitVec.ofNat 8 m) := by
    decide +kernel
  simpa using hall x.toNat x.isLt

theorem columnPass_eq (r : Regs) (i : ℕ) :
    columnPass dat r i =
      ⟨r.reg1 ^^^ byteOf fun c => c < 6 && bitParity (dat i &&& columnMask (c + 2)),
        r.reg2 ^^^ if bitParity (dat i) then ~~~BitVec.ofNat 8 i else 0,
        r.reg3 ^^^ if bitParity (dat i) then BitVec.ofNat 8 i else 0⟩ := by
  have hlow : (byteOf fun c =>
      if c < 6 then bitParity (dat i &&& columnMask (c + 2)) else c == 6 && bitParity (dat i)) &&&
        0x3f = byteOf fun c => c < 6 && bitParity (dat i &&& columnMask (c + 2)) := by
    apply eq_byteOf
    intro c hc
    rw [BitVec.getLsbD_and, getLsbD_byteOf hc]
    interval_cases c <;> simp
  have hhigh : (byteOf fun c =>
      if c < 6 then bitParity (dat i &&& columnMask (c + 2)) else c == 6 && bitParity (dat i)) &&&
        0x40 ≠ 0 ↔ bitParity (dat i) = true := by
    have hbit : (byteOf fun c => if c < 6 then bitParity (dat i &&& columnMask (c + 2))
        else c == 6 && bitParity (dat i)) &&& 0x40 =
          byteOf fun c => c == 6 && bitParity (dat i) := by
      apply eq_byteOf
      intro c hc
      rw [BitVec.getLsbD_and, getLsbD_byteOf hc]
      interval_cases c <;> simp
    rw [hbit]
    cases bitParity (dat i) with
    | false => decide
    | true => decide
  simp only [columnPass, precalc_eq, hlow]
  rw [if_congr hhigh rfl rfl]
  split_ifs with hodd
  · rfl
  · simp

theorem regs_succ (n : ℕ) : regs dat (n + 1) = columnPass dat (regs dat n) n := by
  rw [regs, List.range_succ, List.foldl_concat]
  rfl

theorem regs_reg1 (n : ℕ) :
    (regs dat n).reg1 = byteOf fun c => c < 6 && columnParity dat n (columnMask (c + 2)) := by
  induction n with
  | zero =>
      apply eq_byteOf
      intro c _
      simp [regs, columnParity, xorWhere]
  | succ n ih =>
      rw [regs_succ, columnPass_eq, ih, byteOf_xor]
      apply byteOf_congr
      intro c _
      rw [columnParity_succ, Bool.and_xor_distrib_left]

theorem getLsbD_offset {j : ℕ} (hj : j < 8) (i : ℕ) :
    (BitVec.ofNat 8 i).getLsbD j = i.testBit j := by
  rw [BitVec.getLsbD_ofNat, decide_eq_true hj, Bool.true_and]

theorem regs_reg3 (n : ℕ) :
    (regs dat n).reg3 = byteOf fun j => lineParity dat n j true := by
  induction n with
  | zero =>
      apply eq_byteOf
      intro c _
      simp [regs, lineParity, xorWhere]
  | succ n ih =>
      rw [regs_succ, columnPass_eq, ih]
      apply eq_byteOf
      intro j hj
      rw [BitVec.getLsbD_xor, getLsbD_byteOf hj, lineParity_succ]
      cases bitParity (dat n) with
      | true =>
          rw [if_pos rfl, getLsbD_offset hj]
          simp
      | false => simp

theorem regs_reg2 (n : ℕ) :
    (regs dat n).reg2 = byteOf fun j => lineParity dat n j false := by
  induction n with
  | zero =>
      apply eq_byteOf
      intro c _
      simp [regs, lineParity, xorWhere]
  | succ n ih =>
      rw [regs_succ, columnPass_eq, ih]
      apply eq_byteOf
      intro j hj
      rw [BitVec.getLsbD_xor, getLsbD_byteOf hj, lineParity_succ]
      cases bitParity (dat n) with
      | true =>
          rw [if_pos rfl, BitVec.getLsbD_not, getLsbD_offset hj]
          simp [hj]
      | false => simp

theorem nandCalculateEcc_eq : nandCalculateEcc dat = blockCode dat 1 := by
  rw [nandCalculateEcc, regs_reg1, regs_reg2, regs_reg3]
  ext1
  · apply eq_byteOf
    intro i hi
    interval_cases i <;> simp
  · apply eq_byteOf
    intro i hi
    interval_cases i <;> simp
  · apply eq_byteOf
    intro i hi
    interval_cases i <;> simp

end Ecc256

/-! ## The code of `nand_ecc_512.c` -/

namespace Ecc512

variable {buf : Memory (BitVec 8)} {bp : Memory (BitVec 32)} {mult : ℕ}

/-- The sum of the words whose index has bit `b` clear. -/
abbrev clearSum (bp : Memory (BitVec 32)) (b n : ℕ) : BitVec 32 :=
  xorWhere (fun j => !j.testBit b) bp n

theorem sumsPass_eq (s : Sums) (i : ℕ) :
    sumsPass mult bp s i =
      let group := bp.shift (16 * i)
      let all := xorWhere (fun _ => true) group 16
      { par := s.par ^^^ all
        rp4 := s.rp4 ^^^ clearSum group 0 16
        rp6 := s.rp6 ^^^ clearSum group 1 16
        rp8 := s.rp8 ^^^ clearSum group 2 16
        rp10 := s.rp10 ^^^ clearSum group 3 16
        rp12 := if i &&& 1 = 0 then s.rp12 ^^^ all else s.rp12
        rp14 := if i &&& 2 = 0 then s.rp14 ^^^ all else s.rp14
        rp16 := if mult = 2 ∧ i &&& 4 = 0 then s.rp16 ^^^ all else s.rp16 } := by
  simp [sumsPass, xorWhere, BitVec.xor_assoc, Nat.testBit]

theorem testBit_group {j : ℕ} (hj : j < 16) (i b : ℕ) :
    (16 * i + j).testBit b = if b < 4 then j.testBit b else i.testBit (b - 4) :=
  Nat.testBit_two_pow_mul_add i (i := 4) hj b

/-- The words of the next group, by a bit of their place in it. -/
theorem clearSum_low {b : ℕ} (hb : b < 4) (i : ℕ) :
    clearSum bp b (16 * (i + 1)) =
      clearSum bp b (16 * i) ^^^ clearSum (bp.shift (16 * i)) b 16 := by
  rw [Nat.mul_succ, clearSum, xorWhere_add]
  congr 1
  apply xorWhere_congr
  intro j hj
  rw [testBit_group hj, if_pos hb]

/-- The words of the next group, by a bit of its number. -/
theorem clearSum_high (b i : ℕ) :
    clearSum bp (4 + b) (16 * (i + 1)) =
      if i &&& 2 ^ b = 0 then
        clearSum bp (4 + b) (16 * i) ^^^ xorWhere (fun _ => true) (bp.shift (16 * i)) 16
      else clearSum bp (4 + b) (16 * i) := by
  have hgroup : xorWhere (fun j => !(16 * i + j).testBit (4 + b)) (bp.shift (16 * i)) 16 =
      xorWhere (fun _ => !i.testBit b) (bp.shift (16 * i)) 16 := by
    apply xorWhere_congr
    intro j hj
    rw [testBit_group hj, if_neg (Nat.not_lt.mpr (Nat.le_add_right 4 b)), Nat.add_sub_cancel_left]
  rw [Nat.mul_succ, clearSum, xorWhere_add, hgroup, Nat.and_two_pow]
  cases i.testBit b with
  | true => simp [xorWhere_false, clearSum]
  | false => simp [clearSum]

theorem sums_succ (n : ℕ) : sums mult bp (n + 1) = sumsPass mult bp (sums mult bp n) n := by
  rw [sums, List.range_succ, List.foldl_concat]
  rfl

theorem sums_eq (n : ℕ) :
    sums mult bp n =
      { par := xorWhere (fun _ => true) bp (16 * n)
        rp4 := clearSum bp 0 (16 * n)
        rp6 := clearSum bp 1 (16 * n)
        rp8 := clearSum bp 2 (16 * n)
        rp10 := clearSum bp 3 (16 * n)
        rp12 := clearSum bp 4 (16 * n)
        rp14 := clearSum bp 5 (16 * n)
        rp16 := if mult = 2 then clearSum bp 6 (16 * n) else 0 } := by
  induction n with
  | zero => simp [sums, xorWhere]
  | succ n ih =>
      rw [sums_succ, ih, sumsPass_eq, clearSum_low (by decide), clearSum_low (by decide),
        clearSum_low (by decide), clearSum_low (by decide), clearSum_high 0, clearSum_high 1,
        clearSum_high 2, Nat.mul_succ, xorWhere_add]
      split_ifs <;> simp_all

/-! ### From words to bytes -/

/-- A byte of a word. -/
abbrev byteAt (k : ℕ) (w : BitVec 32) : BitVec 8 := w.extractLsb' (8 * k) 8

theorem byteAt_word {k : ℕ} (hk : k < 4) (j : ℕ) : byteAt k (word buf j) = buf (4 * j + k) := by
  apply BitVec.eq_of_getLsbD_eq
  intro i hi
  interval_cases k <;> interval_cases i <;> simp [word]

theorem byteAt_sum {k : ℕ} (hk : k < 4) (p : ℕ → Bool) (m : ℕ) :
    byteAt k (xorWhere p (word buf) m) = xorWhere p (fun j => buf (4 * j + k)) m := by
  rw [map_xorWhere (f := byteAt k) BitVec.extractLsb'_zero fun x y => BitVec.extractLsb'_xor]
  congr 1
  funext j
  exact byteAt_word hk j

theorem fold_eq (w : BitVec 32) :
    fold w = byteAt 0 w ^^^ byteAt 2 w ^^^ (byteAt 1 w ^^^ byteAt 3 w) := by
  apply BitVec.eq_of_getLsbD_eq
  intro i hi
  interval_cases i <;> simp [fold]

/-- The sum of the bytes of the words that satisfy a condition. -/
theorem fold_sum (p : ℕ → Bool) (m : ℕ) :
    fold (xorWhere p (word buf) m) = xorWhere (fun i => p (i / 4)) buf (4 * m) := by
  rw [fold_eq, byteAt_sum (by decide), byteAt_sum (by decide), byteAt_sum (by decide),
    byteAt_sum (by decide), xorWhere_four]
  have hdiv : ∀ k < 4, (fun j => p ((4 * j + k) / 4)) = p := by
    intro k hk
    funext j
    rw [Nat.mul_add_div (by decide), Nat.div_eq_of_lt hk, Nat.add_zero]
  rw [hdiv 1 (by decide), hdiv 2 (by decide), hdiv 3 (by decide)]
  simp only [Nat.mul_div_right _ (show 0 < 4 by decide), Nat.add_zero]
  ac_rfl

/-- The bytes whose place in their word has a bit set. -/
theorem sum_places (q : ℕ → Bool) (m : ℕ) :
    xorWhere (fun i => q (i % 4)) buf (4 * m) =
      (if q 0 then byteAt 0 (xorWhere (fun _ => true) (word buf) m) else 0) ^^^
      (if q 1 then byteAt 1 (xorWhere (fun _ => true) (word buf) m) else 0) ^^^
      (if q 2 then byteAt 2 (xorWhere (fun _ => true) (word buf) m) else 0) ^^^
      (if q 3 then byteAt 3 (xorWhere (fun _ => true) (word buf) m) else 0) := by
  have hplace : ∀ k < 4, xorWhere (fun j => q ((4 * j + k) % 4)) (fun j => buf (4 * j + k)) m =
      if q k then byteAt k (xorWhere (fun _ => true) (word buf) m) else 0 := by
    intro k hk
    rw [byteAt_sum hk]
    simp only [Nat.mul_add_mod, Nat.mod_eq_of_lt hk]
    cases q k with
    | true => rfl
    | false => exact xorWhere_false m
  rw [xorWhere_four, ← hplace 0 (by decide), ← hplace 1 (by decide), ← hplace 2 (by decide),
    ← hplace 3 (by decide)]
  rfl

/-! ### The parities of the lines -/

theorem fold_clearSum (b m : ℕ) :
    fold (clearSum (word buf) b m) = xorWhere (fun i => i.testBit (b + 2) == false) buf (4 * m) := by
  rw [fold_sum]
  apply xorWhere_congr
  intro i _
  rw [show 4 = 2 ^ 2 from rfl, Nat.testBit_div_two_pow]
  cases i.testBit (b + 2) <;> rfl

theorem sum_xor_clear (j n : ℕ) :
    xorWhere (fun _ => true) buf n ^^^ xorWhere (fun i => i.testBit j == false) buf n =
      xorWhere (fun i => i.testBit j == true) buf n := by
  rw [← xorWhere_not]
  apply xorWhere_congr
  intro i _
  cases i.testBit j <;> rfl

theorem sum_line {b : ℕ} (hb : b < 2) (v : Bool) (m : ℕ) :
    xorWhere (fun i => i.testBit b == v) buf (4 * m) =
      xorWhere (fun i => (i % 4).testBit b == v) buf (4 * m) := by
  apply xorWhere_congr
  intro i _
  rw [show 4 = 2 ^ 2 from rfl, Nat.testBit_mod_two_pow, decide_eq_true hb, Bool.true_and]

theorem rp3_eq (m : ℕ) (w : BitVec 32) (hw : w = xorWhere (fun _ => true) (word buf) m) :
    ((w >>> 16 ^^^ w >>> 16 >>> 8) &&& 0xff).setWidth 8 =
      xorWhere (fun i => i.testBit 1 == true) buf (4 * m) := by
  rw [sum_line (by decide), sum_places fun k => k.testBit 1 == true, ← hw]
  apply BitVec.eq_of_getLsbD_eq
  intro i hi
  interval_cases i <;> simp [Nat.testBit]

theorem rp2_eq (m : ℕ) (w : BitVec 32) (hw : w = xorWhere (fun _ => true) (word buf) m) :
    (((w &&& (0xffff : BitVec 32)) ^^^ (w &&& (0xffff : BitVec 32)) >>> 8) &&& 0xff).setWidth 8 =
      xorWhere (fun i => i.testBit 1 == false) buf (4 * m) := by
  rw [sum_line (by decide), sum_places fun k => k.testBit 1 == false, ← hw]
  apply BitVec.eq_of_getLsbD_eq
  intro i hi
  interval_cases i <;> simp [Nat.testBit]

theorem rp1_eq (m : ℕ) (w : BitVec 32) (hw : w = xorWhere (fun _ => true) (word buf) m) :
    (((w ^^^ w >>> 16) >>> 8) &&& 0xff).setWidth 8 =
      xorWhere (fun i => i.testBit 0 == true) buf (4 * m) := by
  rw [sum_line (by decide), sum_places fun k => k.testBit 0 == true, ← hw]
  apply BitVec.eq_of_getLsbD_eq
  intro i hi
  interval_cases i <;> simp [Nat.testBit]

theorem rp0_eq (m : ℕ) (w : BitVec 32) (hw : w = xorWhere (fun _ => true) (word buf) m) :
    ((w ^^^ w >>> 16) &&& 0xff).setWidth 8 =
      xorWhere (fun i => i.testBit 0 == false) buf (4 * m) := by
  rw [sum_line (by decide), sum_places fun k => k.testBit 0 == false, ← hw]
  apply BitVec.eq_of_getLsbD_eq
  intro i hi
  interval_cases i <;> simp [Nat.testBit]

theorem invBit_eq (x : BitVec 8) {k : ℕ} (hk : k < 8) :
    invBit x k = byteOf fun i => i == k && !bitParity x := by
  have hall : ∀ m < 256, entryAt invparity (BitVec.ofNat 8 m) =
      (!bitParity (BitVec.ofNat 8 m)).toNat := by
    decide +kernel
  have hentry : entryAt invparity x = (!bitParity x).toNat := by simpa using hall x.toNat x.isLt
  rw [invBit, hentry]
  cases bitParity x <;> interval_cases k <;> decide

theorem nandCalculateEcc_eq (hmult : mult = 1 ∨ mult = 2) :
    nandCalculateEcc mult buf = blockCode buf mult := by
  have hwords : 16 * (mult <<< 2) = 64 * mult := by
    rw [Nat.shiftLeft_eq]
    omega
  have hbytes : 256 * mult = 4 * (64 * mult) := by omega
  have hpar : fold (xorWhere (fun _ => true) (word buf) (64 * mult)) =
      xorWhere (fun _ => true) buf (4 * (64 * mult)) := fold_sum _ _
  simp only [fold] at hpar
  simp only [nandCalculateEcc, sums_eq, hwords, fold_clearSum, blockCode, hbytes, hpar,
    rp3_eq _ _ rfl, rp2_eq _ _ rfl, rp1_eq _ _ rfl, rp0_eq _ _ rfl, sum_xor_clear]
  ext1
  · apply eq_byteOf
    intro i hi
    interval_cases i <;> simp [invBit_eq, lineParity]
  · apply eq_byteOf
    intro i hi
    interval_cases i <;> simp [invBit_eq, lineParity]
  · rcases hmult with rfl | rfl
    · apply eq_byteOf
      intro i hi
      interval_cases i <;> simp [invBit_eq, columnParity, columnMask]
    · have hset : bitParity (xorWhere (fun i => i.testBit 8) buf 512) =
          (bitParity (xorWhere (fun _ => true) buf 512) ^^
            bitParity (xorWhere (fun i => !i.testBit 8) buf 512)) := by
        have hsum : xorWhere (fun _ => true) buf 512 ^^^
            xorWhere (fun i => i.testBit 8 == false) buf 512 =
              xorWhere (fun i => i.testBit 8 == true) buf 512 := sum_xor_clear 8 512
        rw [← bitParity_xor]
        simpa using congrArg bitParity hsum.symm
      apply eq_byteOf
      intro i hi
      interval_cases i <;>
        simp [invBit_eq, lineParity, columnParity, columnMask, fold_clearSum, hset]

end Ecc512

/-- The two files compute one code of a block of 256 bytes. -/
theorem nandCalculateEcc_agree (dat : Memory (BitVec 8)) :
    Ecc512.nandCalculateEcc 1 dat = Ecc256.nandCalculateEcc dat := by
  rw [Ecc512.nandCalculateEcc_eq (.inl rfl), Ecc256.nandCalculateEcc_eq]

end TateFirmware.Nand
