import TateFirmware.Support.Records

/-!
# Entries of the FAT

`get_fatent` reads entries of the file allocation table through a buffer of six
blocks, numbered by `fatbufnum`.  An entry has 12, 16 or 32 bits; a buffer holds a
whole number of them, and 12-bit entries are cut out of 16-bit words in four ways.

Sectors count from the start of the partition.
-/

namespace TateFirmware.Fat

open TateFirmware.Support

/-! ## The source -/

/-- `FS_BLOCK_SIZE` and `SECTOR_SIZE`. -/
def fsBlockSize : ℕ := 512

/-- `FATBUFBLOCKS`. -/
def fatbufBlocks : ℕ := 6

/-- `FATBUFSIZE`. -/
def fatbufSize : ℕ := fsBlockSize * fatbufBlocks

/-- `FAT12BUFSIZE`. -/
def fat12BufSize : ℕ := fatbufSize * 2 / 3

/-- `FAT16BUFSIZE`. -/
def fat16BufSize : ℕ := fatbufSize / 2

/-- `FAT32BUFSIZE`. -/
def fat32BufSize : ℕ := fatbufSize / 4

/-- `fatsize`: 12, 16 and 32 bits, and the sizes that are not supported. -/
inductive FatSize where
  | fat12
  | fat16
  | fat32
  | unsupported
deriving DecidableEq, Repr

/-- The fields of `fsdata` that `get_fatent` uses.  The buffer number starts at `-1`
and is compared as an unsigned number. -/
structure Fsdata where
  fatsize : FatSize
  fatlength : UInt16
  fatSect : UInt16
  fatbuf : Memory UInt8
  fatbufnum : ℕ

/-- `fatbufnum` before the first block is read. -/
def noFatbuf : ℕ := 2 ^ 32 - 1

/-- What a `block_read` does: the value returned and the bytes it has stored. -/
structure ReadOutcome where
  result : ℤ
  written : List UInt8
deriving DecidableEq

/-- `disk_read` of so many blocks from a block on. -/
abbrev DiskRead := ℕ → ℕ → ReadOutcome

/-- How many entries a buffer holds. -/
def fatBufEntries : FatSize → Option ℕ
  | .fat32 => some fat32BufSize
  | .fat16 => some fat16BufSize
  | .fat12 => some fat12BufSize
  | .unsupported => none

/-- The entry at an offset in the buffer. -/
def decodeEntry (fatbuf : Memory UInt8) (fatsize : FatSize) (offset : ℕ) : ℕ :=
  match fatsize with
  | .unsupported => 0
  | .fat32 => fatbuf.leWord (4 * offset)
  | .fat16 => fatbuf.leHalf (2 * offset)
  | .fat12 =>
      let off16 := offset * 3 / 4
      let val1 := fatbuf.leHalf (2 * off16)
      let val2 := fatbuf.leHalf (2 * (off16 + 1))
      match offset &&& 0x3 with
      | 0 => val1 &&& 0xfff
      | 1 => (val2 &&& 0x00ff) <<< 4 ||| (val1 &&& 0xf000) >>> 12
      | 2 => (val2 &&& 0x000f) <<< 8 ||| (val1 &&& 0xff00) >>> 8
      | _ => (val1 &&& 0xfff0) >>> 4

/-- `getsize` of `get_fatent`. -/
def fatGetsize (fatlength : UInt16) : ℕ :=
  let getsize := fatbufSize / fsBlockSize
  if getsize > fatlength.toNat * fsBlockSize then fatlength.toNat * fsBlockSize
  else getsize

/-- `startblock` of `get_fatent`. -/
def fatStartblock (fatSect : UInt16) (bufnum : ℕ) : ℕ :=
  (bufnum * fatbufBlocks + fatSect.toNat) % 2 ^ 32

/-- `get_fatent`. -/
def getFatent (diskRead : DiskRead) (mydata : Fsdata) (entry : UInt32) :
    Fsdata × ℕ :=
  match fatBufEntries mydata.fatsize with
  | none => (mydata, 0)
  | some entries =>
      let bufnum := entry.toNat / entries
      let offset := entry.toNat - bufnum * entries
      if bufnum ≠ mydata.fatbufnum then
        let outcome := diskRead (fatStartblock mydata.fatSect bufnum)
          (fatGetsize mydata.fatlength)
        let fatbuf := mydata.fatbuf.copyIn 0 outcome.written
        if outcome.result < 0 then ({ mydata with fatbuf }, 0)
        else
          ({ mydata with fatbuf, fatbufnum := bufnum },
            decodeEntry fatbuf mydata.fatsize offset)
      else (mydata, decodeEntry mydata.fatbuf mydata.fatsize offset)

/-! ## The table -/

/-- The entry of a table that starts at a byte of the disk: 12 bits packed in
little-endian order, 16 bits, or the lower 28 of 32 bits. -/
def tableEntry (disk : Memory UInt8) (fatsize : FatSize) (start entry : ℕ) : ℕ :=
  match fatsize with
  | .unsupported => 0
  | .fat32 => disk.leWord (start + 4 * entry) % 2 ^ 28
  | .fat16 => disk.leHalf (start + 2 * entry)
  | .fat12 =>
      let word := disk.leHalf (start + (entry + entry / 2))
      if entry % 2 = 0 then word % 2 ^ 12 else word / 2 ^ 4

/-! ## Cutting out 12 bits -/

theorem shiftLeft_or {v w k : ℕ} (hw : w < 2 ^ k) :
    v <<< k ||| w = v * 2 ^ k + w := by
  rw [← Nat.shiftLeft_add_eq_or_of_lt hw, Nat.shiftLeft_eq]

/-- Masking out the bits that are shifted out changes nothing. -/
theorem mask_shiftRight {v j k : ℕ} (hv : v < 2 ^ (k + j)) {n : ℕ}
    (hn : n >>> k = 2 ^ j - 1) : (v &&& n) >>> k = v / 2 ^ k := by
  rw [Nat.shiftRight_and_distrib, hn, Nat.and_two_pow_sub_one_eq_mod,
    Nat.shiftRight_eq_div_pow]
  refine Nat.mod_eq_of_lt (Nat.div_lt_of_lt_mul ?_)
  rwa [← Nat.pow_add]

/-- The four ways in which a 12-bit entry lies in 16-bit words. -/
theorem decodeEntry_fat12 (fatbuf : Memory UInt8) (offset : ℕ) :
    decodeEntry fatbuf .fat12 offset = tableEntry fatbuf .fat12 0 offset := by
  have hphase : offset &&& 0x3 = offset % 4 := Nat.and_two_pow_sub_one_eq_mod offset 2
  have hbyte := fun i => (fatbuf i).toNat_lt
  obtain ⟨k, r, hr, rfl⟩ : ∃ k r, r < 4 ∧ offset = 4 * k + r :=
    ⟨offset / 4, offset % 4, Nat.mod_lt _ (by decide), (Nat.div_add_mod offset 4).symm⟩
  rw [Nat.mul_add_mod, Nat.mod_eq_of_lt hr] at hphase
  obtain rfl | rfl | rfl | rfl : r = 0 ∨ r = 1 ∨ r = 2 ∨ r = 3 := by omega
  · have hword : 2 * ((4 * k + 0) * 3 / 4) = 6 * k := by omega
    have hplace : 0 + (4 * k + 0 + (4 * k + 0) / 2) = 6 * k := by omega
    simp only [decodeEntry, tableEntry, hphase, hword, hplace]
    rw [if_pos (by omega)]
    exact Nat.and_two_pow_sub_one_eq_mod _ 12
  · have hword : 2 * ((4 * k + 1) * 3 / 4) = 6 * k := by omega
    have hnext : 2 * ((4 * k + 1) * 3 / 4 + 1) = 6 * k + 2 := by omega
    have hplace : 0 + (4 * k + 1 + (4 * k + 1) / 2) = 6 * k + 1 := by omega
    have hmask := Nat.and_two_pow_sub_one_eq_mod (fatbuf.leHalf (6 * k + 2)) 8
    simp only [decodeEntry, tableEntry, hphase, hword, hnext, hplace]
    rw [if_neg (by omega), mask_shiftRight (j := 4) (fatbuf.leHalf_lt _) rfl, hmask,
      shiftLeft_or (by have := fatbuf.leHalf_lt (6 * k); omega)]
    have h0 := hbyte (6 * k)
    have h1 := hbyte (6 * k + 1)
    have h2 := hbyte (6 * k + 2)
    simp only [Memory.leHalf, Nat.add_assoc, Nat.reduceAdd]
    omega
  · have hword : 2 * ((4 * k + 2) * 3 / 4) = 6 * k + 2 := by omega
    have hnext : 2 * ((4 * k + 2) * 3 / 4 + 1) = 6 * k + 4 := by omega
    have hplace : 0 + (4 * k + 2 + (4 * k + 2) / 2) = 6 * k + 3 := by omega
    have hmask := Nat.and_two_pow_sub_one_eq_mod (fatbuf.leHalf (6 * k + 4)) 4
    simp only [decodeEntry, tableEntry, hphase, hword, hnext, hplace]
    rw [if_pos (by omega), mask_shiftRight (j := 8) (fatbuf.leHalf_lt _) rfl, hmask,
      shiftLeft_or (by have := fatbuf.leHalf_lt (6 * k + 2); omega)]
    have h2 := hbyte (6 * k + 2)
    have h3 := hbyte (6 * k + 3)
    have h4 := hbyte (6 * k + 4)
    simp only [Memory.leHalf, Nat.add_assoc, Nat.reduceAdd]
    omega
  · have hword : 2 * ((4 * k + 3) * 3 / 4) = 6 * k + 4 := by omega
    have hplace : 0 + (4 * k + 3 + (4 * k + 3) / 2) = 6 * k + 4 := by omega
    simp only [decodeEntry, tableEntry, hphase, hword, hplace]
    rw [if_neg (by omega), mask_shiftRight (j := 12) (fatbuf.leHalf_lt _) rfl]

theorem decodeEntry_eq {fatsize : FatSize} {fatbuf : Memory UInt8} {offset : ℕ}
    (hlow : fatsize = .fat32 → fatbuf.leWord (4 * offset) < 2 ^ 28) :
    decodeEntry fatbuf fatsize offset = tableEntry fatbuf fatsize 0 offset := by
  cases fatsize with
  | fat12 => exact decodeEntry_fat12 fatbuf offset
  | fat16 => rw [decodeEntry, tableEntry, Nat.zero_add]
  | fat32 => rw [decodeEntry, tableEntry, Nat.zero_add, Nat.mod_eq_of_lt (hlow rfl)]
  | unsupported => rfl

/-- A 32-bit entry in a block of the table. -/
theorem leWord_of_block {fatbuf disk : Memory UInt8} {start bufnum offset : ℕ}
    (hoffset : offset < fat32BufSize)
    (hbuf : ∀ i < fatbufSize, fatbuf i = disk (start + bufnum * fatbufSize + i)) :
    fatbuf.leWord (4 * offset) =
      disk.leWord (start + 4 * (bufnum * fat32BufSize + offset)) := by
  have hsize : fatbufSize = 3072 := rfl
  have hentries : fat32BufSize = 768 := rfl
  rw [hsize] at hbuf
  rw [hentries] at hoffset ⊢
  refine Memory.leWord_congr fun k hk => ?_
  refine (hbuf _ ?_).trans (congrArg disk ?_) <;> omega

/-- The entries of a block are those of the table it was read from: a block holds a
whole number of entries. -/
theorem tableEntry_of_block {fatsize : FatSize} {entries : ℕ}
    (h : fatBufEntries fatsize = some entries) {fatbuf disk : Memory UInt8}
    {start bufnum offset : ℕ} (hoffset : offset < entries)
    (hbuf : ∀ i < fatbufSize, fatbuf i = disk (start + bufnum * fatbufSize + i)) :
    tableEntry fatbuf fatsize 0 offset =
      tableEntry disk fatsize start (bufnum * entries + offset) := by
  have hsize : fatbufSize = 3072 := rfl
  cases fatsize with
  | fat12 =>
      obtain rfl : 2048 = entries := Option.some.inj h
      rw [hsize] at hbuf
      have hparity : (bufnum * 2048 + offset) % 2 = offset % 2 := by omega
      have hword : fatbuf.leHalf (0 + (offset + offset / 2)) = disk.leHalf
          (start + (bufnum * 2048 + offset + (bufnum * 2048 + offset) / 2)) := by
        refine Memory.leHalf_congr fun k hk => ?_
        refine (hbuf _ ?_).trans (congrArg disk ?_) <;> omega
      simp only [tableEntry, hparity, hword]
  | fat16 =>
      obtain rfl : 1536 = entries := Option.some.inj h
      rw [hsize] at hbuf
      refine Memory.leHalf_congr fun k hk => ?_
      refine (hbuf _ ?_).trans (congrArg disk ?_) <;> omega
  | fat32 =>
      obtain rfl : fat32BufSize = entries := Option.some.inj h
      have hword := leWord_of_block hoffset hbuf
      simp only [tableEntry, Nat.zero_add, hword]
  | unsupported => cases h

end TateFirmware.Fat
