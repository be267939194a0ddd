import Mathlib.Data.FinEnum
import TateFirmware.Fat.FatCache
import TateFirmware.LibGeneric.CString

/-!
# Volumes and clusters

A volume is mounted by `do_fat_read` from its boot sector; its geometry is kept in
fields of 16 bits.  A registered device delivers every block that it is asked for; a
negative result stands for a device that is not there, since no `block_read` reports a
failed transfer by one.  On such a device `get_fatent` returns the same number for an
entry whatever its buffer holds, so that the chains of a volume are chains of the
function `fatent`.
-/

namespace TateFirmware.Fat

open LibGeneric Support

/-! ## The device -/

/-- The blocks of a partition, and whether `cur_dev` is set. -/
structure Device where
  contents : Memory UInt8
  registered : Bool

/-- The bytes of so many blocks; without a device there are none. -/
def Device.read (dev : Device) (startblock getsize : ℕ) : Option (List UInt8) :=
  if dev.registered then
    some (dev.contents.read (fsBlockSize * startblock) (fsBlockSize * getsize))
  else none

/-- `disk_read` of the device. -/
def Device.diskRead (dev : Device) : DiskRead := fun startblock getsize =>
  match dev.read startblock getsize with
  | some bytes => ⟨getsize, bytes⟩
  | none => ⟨-1, []⟩

/-! ## The source -/

/-- `fsdata`; the first five fields are those of `get_fatent`. -/
structure Volume extends Fsdata where
  rootdirSect : UInt16
  clustSize : ℕ
  dataBegin : ℤ
  /-- `rootdir_size`, on FAT12 and FAT16. -/
  rootdirSize : ℕ

/-- `compare_sign` with a signature of eight bytes at an offset. -/
def compareSign (sign : List UInt8) (block : Memory UInt8) (p : ℕ) : Bool :=
  block.read p 8 = sign

/-- `fatsize` of a boot sector, as `read_bootsectandvi` finds it. -/
def readBootsect (block : Memory UInt8) : Option FatSize :=
  if block.leHalf 22 = 0 then
    if compareSign (text "FAT32   ") block 82 then some .fat32 else none
  else if compareSign (text "FAT12   ") block 54 then some .fat12
  else if compareSign (text "FAT16   ") block 54 then some .fat16
  else none

/-- The volume that `do_fat_read` mounts, with its `root_cluster`; `fatbuf` is what is
in the buffer of `get_fatent` at first. -/
def mount (dev : Device) (fatbuf : Memory UInt8) : Option (Volume × UInt32) :=
  match dev.read 0 1 with
  | none => none
  | some bytes =>
      let block := Memory.ofList 0 bytes
      match readBootsect block with
      | none => none
      | some fatsize =>
          let fatlength := UInt16.ofNat
            (if fatsize = .fat32 then block.leWord 36 else block.leHalf 22)
          let fatSect := UInt16.ofNat (block.leHalf 14)
          let rootdirSect := UInt16.ofNat
            (fatSect.toNat + fatlength.toNat * (block 16).toNat)
          let clustSize := (block 13).toNat
          let rootdirSize := if fatsize = .fat32 then 0
            else ((block 18).toNat * 256 + (block 17).toNat) * 32 / fsBlockSize
          let dataBegin := Int.bmod (rootdirSect.toNat + rootdirSize - clustSize * 2)
            (2 ^ 16)
          some (⟨⟨fatsize, fatlength, fatSect, fatbuf, noFatbuf⟩, rootdirSect,
            clustSize, dataBegin, rootdirSize⟩, UInt32.ofNat (block.leWord 44))

/-- `CHECK_CLUST`. -/
def checkClust (fatsize : FatSize) (x : UInt32) : Bool :=
  x ≤ 1 || (if fatsize ≠ .fat32 then 0xfff0 else 0xffffff0) ≤ x

namespace Volume

variable (v : Volume) (dev : Device)

/-- `bytesperclust`. -/
def clustBytes : ℕ := v.clustSize * fsBlockSize

/-- `startsect` of `get_cluster`. -/
def startsect (clustnum : UInt32) : UInt32 :=
  if 0 < clustnum then UInt32.ofInt (v.dataBegin + clustnum.toNat * v.clustSize)
  else UInt32.ofNat v.rootdirSect.toNat

/-- `get_cluster` to offset `p` of a buffer, with what is in the buffer afterwards and
whether it succeeds. -/
def getCluster (clustnum : UInt32) (buffer : Memory UInt8) (p size : ℕ) :
    Memory UInt8 × Bool :=
  let startsect := v.startsect clustnum
  let idx := size / fsBlockSize
  match dev.read startsect.toNat idx with
  | none => (buffer, false)
  | some bytes =>
      let buffer := buffer.copyIn p bytes
      if size % fsBlockSize = 0 then (buffer, true)
      else
        match dev.read (startsect + UInt32.ofNat idx).toNat 1 with
        | none => (buffer, false)
        | some tmpbuf =>
            (buffer.copyIn (p + idx * fsBlockSize) (tmpbuf.take (size % fsBlockSize)),
              true)

/-- The number that `get_fatent` returns for an entry. -/
def fatent (entry : UInt32) : UInt32 :=
  match fatBufEntries v.fatsize,
      dev.read (fatStartblock v.fatSect (bufnumOf v.fatsize entry))
        (fatGetsize v.fatlength) with
  | some entries, some bytes =>
      UInt32.ofNat (decodeEntry (v.fatbuf.copyIn 0 bytes) v.fatsize
        (offsetOf v.fatsize entries entry))
  | _, _ => 0

/-! ## The buffer of `get_fatent` -/

/-- The buffer of a mounted volume in the course of its use: nothing has been read
into it, or the block of its number. -/
structure Buffered (mydata : Fsdata) : Prop where
  fatsize : mydata.fatsize = v.fatsize
  fatlength : mydata.fatlength = v.fatlength
  fatSect : mydata.fatSect = v.fatSect
  fatbuf : (mydata.fatbufnum = noFatbuf ∧ mydata.fatbuf = v.fatbuf) ∨
    ∃ bytes, dev.read (fatStartblock v.fatSect mydata.fatbufnum)
        (fatGetsize v.fatlength) = some bytes ∧
      mydata.fatbuf = v.fatbuf.copyIn 0 bytes

end Volume

theorem decodeEntry_lt (fatbuf : Memory UInt8) (fatsize : FatSize) (offset : ℕ) :
    decodeEntry fatbuf fatsize offset < 2 ^ 32 := by
  cases fatsize with
  | unsupported => exact Nat.two_pow_pos 32
  | fat32 =>
      have hbyte := fun i => (fatbuf i).toNat_lt
      have h0 := hbyte (4 * offset)
      have h1 := hbyte (4 * offset + 1)
      have h2 := hbyte (4 * offset + 2)
      have h3 := hbyte (4 * offset + 3)
      simp only [decodeEntry, Memory.leWord]
      omega
  | fat16 => exact (fatbuf.leHalf_lt _).trans (by decide)
  | fat12 =>
      rw [decodeEntry_fat12, tableEntry]
      have hword := fatbuf.leHalf_lt (0 + (offset + offset / 2))
      split_ifs <;> omega

variable {v : Volume} {dev : Device}

theorem Device.length_of_read {startblock getsize : ℕ} {bytes : List UInt8}
    (h : dev.read startblock getsize = some bytes) :
    bytes.length = fsBlockSize * getsize := by
  unfold Device.read at h
  split at h
  · rw [← Option.some.inj h, Memory.read_length]
  · cases h

/-- A block that is read hides what was in the buffer. -/
theorem Volume.Buffered.copyIn {mydata : Fsdata} (h : v.Buffered dev mydata)
    {startblock : ℕ} {bytes : List UInt8}
    (hread : dev.read startblock (fatGetsize v.fatlength) = some bytes) :
    mydata.fatbuf.copyIn 0 bytes = v.fatbuf.copyIn 0 bytes := by
  rcases h.fatbuf with ⟨_, heq⟩ | ⟨old, hold, heq⟩
  · rw [heq]
  · rw [heq, Memory.copyIn_hides]
    exact ((Device.length_of_read hold).trans (Device.length_of_read hread).symm).le

/-- What `get_fatent` returns does not depend on its buffer. -/
theorem getFatent_eq_fatent {mydata : Fsdata} (h : v.Buffered dev mydata)
    (entry : UInt32) :
    (getFatent dev.diskRead mydata entry).2 = (v.fatent dev entry).toNat ∧
      v.Buffered dev (getFatent dev.diskRead mydata entry).1 := by
  let call : FatCall := ⟨entry, dev.diskRead⟩
  cases hentries : fatBufEntries v.fatsize with
  | none => simp [getFatent, Volume.fatent, h.fatsize, hentries, h]
  | some entries =>
  have hentries' : fatBufEntries mydata.fatsize = some entries := by
    rw [h.fatsize, hentries]
  have hdecode := fun m => Nat.mod_eq_of_lt
    (decodeEntry_lt m v.fatsize (offsetOf v.fatsize entries entry))
  have houtcome : outcomeOf mydata call =
      dev.diskRead (fatStartblock v.fatSect (bufnumOf v.fatsize entry))
        (fatGetsize v.fatlength) := by
    rw [outcomeOf, h.fatsize, h.fatSect, h.fatlength]
  change (getFatent call.diskRead mydata call.entry).2 = _ ∧
    v.Buffered dev (getFatent call.diskRead mydata call.entry).1
  rw [Volume.fatent, hentries]
  by_cases hneeds : NeedsRead mydata call
  · cases hread : dev.read (fatStartblock v.fatSect (bufnumOf v.fatsize entry))
        (fatGetsize v.fatlength) with
    | none =>
        rw [Device.diskRead, hread] at houtcome
        rw [getFatent_of_failed hentries' hneeds
          (by rw [houtcome]; exact Int.negSucc_lt_zero 0), houtcome,
          Memory.copyIn_nil]
        exact ⟨rfl, h⟩
    | some bytes =>
        rw [Device.diskRead, hread] at houtcome
        rw [getFatent_of_read hentries' hneeds
          (by rw [houtcome]; exact Int.natCast_nonneg _), houtcome, h.copyIn hread,
          h.fatsize]
        exact ⟨(hdecode _).symm, rfl, h.fatlength, h.fatSect, Or.inr ⟨bytes, hread, rfl⟩⟩
  · have hheld : bufnumOf v.fatsize entry = mydata.fatbufnum := by
      rw [← h.fatsize]
      exact not_not.mp hneeds
    rcases h.fatbuf with ⟨hnone, _⟩ | ⟨bytes, hread, hbuf⟩
    · exact absurd (hheld.trans hnone) (bufnumOf_ne _ _)
    · rw [hheld, hread, getFatent_of_cached hentries' hneeds, h.fatsize, hbuf]
      exact ⟨(hdecode _).symm, h⟩

theorem registered_of_mount {fatbuf : Memory UInt8} {rootCluster : UInt32}
    (h : mount dev fatbuf = some (v, rootCluster)) : dev.registered = true := by
  unfold mount Device.read at h
  by_contra hunset
  rw [if_neg hunset] at h
  cases h

/-- The number of sectors of a cluster is a byte. -/
theorem clustSize_lt {fatbuf : Memory UInt8} {rootCluster : UInt32}
    (h : mount dev fatbuf = some (v, rootCluster)) : v.clustSize < 2 ^ 8 := by
  unfold mount at h
  split at h
  · cases h
  dsimp only at h
  split at h
  · cases h
  obtain rfl := congrArg Prod.fst (Option.some.inj h)
  exact UInt8.toNat_lt _

/-- A volume that has just been mounted. -/
theorem buffered_mount {fatbuf : Memory UInt8} {rootCluster : UInt32}
    (h : mount dev fatbuf = some (v, rootCluster)) : v.Buffered dev v.toFsdata := by
  unfold mount at h
  split at h
  · cases h
  dsimp only at h
  split at h
  · cases h
  obtain rfl := congrArg Prod.fst (Option.some.inj h)
  exact ⟨rfl, rfl, rfl, Or.inl ⟨rfl, rfl⟩⟩

/-- In every run of calls on a mounted volume each call returns the number that the
entry has without the buffer. -/
theorem mount_fatents (dev : Device) (fatbuf : Memory UInt8) (v : Volume)
    (rootCluster : UInt32) (hmount : mount dev fatbuf = some (v, rootCluster))
    (entries : List UInt32) :
    (run fatStep v.toFsdata (entries.map fun entry => ⟨entry, dev.diskRead⟩)).2 =
      entries.map fun entry => (v.fatent dev entry).toNat := by
  have hbuffered := buffered_mount hmount
  generalize v.toFsdata = mydata at hbuffered
  induction entries generalizing mydata with
  | nil => rfl
  | cons entry entries ih =>
      obtain ⟨hreturned, hnext⟩ := getFatent_eq_fatent hbuffered entry
      simp only [List.map_cons, run_cons, fatStep, hreturned]
      rw [← ih _ hnext]
      rfl

/-- A device that starts with the boot sector of a FAT16 volume. -/
def bootDevice : Device where
  contents i :=
    if i < fsBlockSize then
      Memory.copyIn (fun _ => 0) 13
        ([1, 1, 0, 1, 16, 0, 0, 0, 0, 1, 0] ++ List.replicate 30 0 ++ text "FAT16   ") i
    else 7
  registered := true

/-- Two entries of one block of the FAT, and the first one again. -/
theorem mount_fatents_bootDevice :
    ∃ v rootCluster, mount bootDevice (fun _ => 0) = some (v, rootCluster) ∧
      (run fatStep v.toFsdata
        ([2, 3, 2].map fun entry => ⟨entry, bootDevice.diskRead⟩)).2 =
          [2, 3, 2].map fun entry => (v.fatent bootDevice entry).toNat := by
  have hmounts : (mount bootDevice fun _ => 0).isSome = true := by decide +kernel
  obtain ⟨⟨v, rootCluster⟩, hmount⟩ := Option.isSome_iff_exists.mp hmounts
  exact ⟨v, rootCluster, hmount,
    mount_fatents bootDevice (fun _ => 0) v rootCluster hmount [2, 3, 2]⟩

/-! ## A small volume -/

/-- A volume with clusters of one sector. -/
def smallVolume : Volume := ⟨⟨.fat16, 1, 1, fun _ => 0, noFatbuf⟩, 1, 1, 0, 0⟩

/-- A device with the same byte everywhere. -/
def smallDevice : Device := ⟨fun _ => 7, true⟩

end TateFirmware.Fat
