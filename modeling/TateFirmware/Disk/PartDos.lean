import TateFirmware.LibGeneric.CString
import TateFirmware.Support.Fuel
import TateFirmware.Support.Records

/-!
# DOS partition tables

`disk/part_dos.c` lists the partitions of a device and looks one up by its number.
Both functions walk along a chain of tables: the extended entry of a table leads to
the next one.  A chain may lead back to one of its tables, so the walks are given
fuel, `none` where it runs out.  Sectors and sizes are of the 32-bit types `int` and
`unsigned long`; what is printed is their value as an `int`.
-/

namespace TateFirmware.Disk

open LibGeneric Support

/-! ## Tables -/

/-- The value of a 32-bit word as an `int`. -/
def asInt (w : UInt32) : ℤ :=
  if w.toNat < 2 ^ 31 then w.toNat else w.toNat - 2 ^ 32

/-- `le32_to_int`. -/
def le32ToInt (le32 : Memory UInt8) : UInt32 := UInt32.ofNat (le32.leWord 0)

/-- The fields of `dos_partition_t` that are read. -/
structure DosPartition where
  sysInd : UInt8
  start4 : Memory UInt8
  size4 : Memory UInt8

/-- `DOS_PART_TBL_OFFSET`. -/
def dosPartTblOffset : ℕ := 0x1be

/-- `DOS_PART_MAGIC_OFFSET`. -/
def dosPartMagicOffset : ℕ := 0x1fe

/-- `DOS_PBR_FSTYPE_OFFSET`. -/
def dosPbrFstypeOffset : ℕ := 0x36

/-- `DOS_PBR_MEDIA_TYPE_OFFSET`. -/
def dosPbrMediaTypeOffset : ℕ := 0x15

/-- The four entries of the table in a sector. -/
def entries (buffer : Memory UInt8) : List DosPartition :=
  (List.range 4).map fun i =>
    let pt := dosPartTblOffset + 16 * i
    ⟨buffer (pt + 4), buffer.shift (pt + 8), buffer.shift (pt + 12)⟩

/-- `is_extended`. -/
def IsExtended (partType : UInt8) : Prop :=
  partType = 0x5 ∨ partType = 0xf ∨ partType = 0x85

instance (partType : UInt8) : Decidable (IsExtended partType) :=
  inferInstanceAs (Decidable (_ ∨ _ ∨ _))

/-- The sector ends in the signature of a table. -/
def Signed (buffer : Memory UInt8) : Prop :=
  buffer dosPartMagicOffset = 0x55 ∧ buffer (dosPartMagicOffset + 1) = 0xaa

instance (buffer : Memory UInt8) : Decidable (Signed buffer) :=
  inferInstanceAs (Decidable (_ ∧ _))

/-- What `test_block_type` returns. -/
inductive BlockType where
  /-- `-1`. -/
  | noSignature
  /-- `DOS_PBR`. -/
  | pbr
  /-- `DOS_MBR`. -/
  | mbr
deriving DecidableEq, Repr

/-- The test for a boot record of a partition. -/
def IsPbr (buffer : Memory UInt8) : Prop :=
  strncmp (buffer.read dosPbrFstypeOffset 3) (text "FAT") 3 = 0

instance (buffer : Memory UInt8) : Decidable (IsPbr buffer) :=
  inferInstanceAs (Decidable (_ = _))

/-- `test_block_type`. -/
def testBlockType (buffer : Memory UInt8) : BlockType :=
  if ¬ Signed buffer then .noSignature
  else if IsPbr buffer then .pbr
  else .mbr

/-! ## Devices -/

/-- `if_type`. -/
inductive IfType where
  | ide
  | atapi
  | scsi
  | usb
  | doc
  | other
deriving DecidableEq, Repr

/-- The fields of `block_dev_desc_t` that are read; `blockRead` of one sector is
`none` if it does not return `1`. -/
structure BlockDevDesc where
  ifType : IfType
  dev : ℕ
  lba : UInt32
  blockRead : UInt32 → Option (Memory UInt8)

/-- `disk_partition_t`. -/
structure DiskPartition where
  start : ℕ
  size : ℕ
  blksz : ℕ
  name : List UInt8
  type : List UInt8
deriving DecidableEq

/-- The name of a partition. -/
def partName (devDesc : BlockDevDesc) (partNum : ℕ) : List UInt8 :=
  let kind := match devDesc.ifType with
    | .ide => text "hd"
    | .atapi => text "hd"
    | .scsi => text "sd"
    | .usb => text "usbd"
    | .doc => text "docd"
    | .other => text "xx"
  kind ++ [ch 'a' + UInt8.ofNat devDesc.dev] ++ formatInt partNum ++ text "\n"

/-! ## The listing -/

/-- A line of the listing: its last column says whether the entry is extended. -/
structure Row where
  partNum : ℕ
  lbaStart : ℤ
  lbaSize : ℤ
  sysInd : UInt8
  extd : Bool
deriving DecidableEq

/-- `print_one_part`. -/
def printOnePart (p : DosPartition) (extPartSector : UInt32) (partNum : ℕ) : Row where
  partNum := partNum
  lbaStart := asInt (extPartSector + le32ToInt p.start4)
  lbaSize := asInt (le32ToInt p.size4)
  sysInd := p.sysInd
  extd := decide (IsExtended p.sysInd)

/-- The partition number behind an entry. -/
def nextNum (extPartSector : UInt32) (pt : DosPartition) (partNum : ℕ) : ℕ :=
  if extPartSector = 0 ∨ pt.sysInd ≠ 0 ∧ ¬ IsExtended pt.sysInd then partNum + 1
  else partNum

/-- The first loop of `print_partition_extended`: the lines and the partition number
behind it. -/
def printLoop (extPartSector : UInt32) : List DosPartition → ℕ → List Row × ℕ
  | [], partNum => ([], partNum)
  | pt :: pts, partNum =>
      let (rows, last) := printLoop extPartSector pts (nextNum extPartSector pt partNum)
      if pt.sysInd ≠ 0 ∧ (extPartSector = 0 ∨ ¬ IsExtended pt.sysInd) then
        (printOnePart pt extPartSector partNum :: rows, last)
      else (rows, last)

attribute [grind =] printLoop

/-- The extended entries of a table. -/
def extendedEntries (buffer : Memory UInt8) : List DosPartition :=
  (entries buffer).filter fun pt => IsExtended pt.sysInd

/-- The sector of the next table. -/
def nextSector (pt : DosPartition) (relative : UInt32) : UInt32 :=
  le32ToInt pt.start4 + relative

/-- The sector that the next table is relative to. -/
def nextRelative (pt : DosPartition) (extPartSector relative : UInt32) : UInt32 :=
  if extPartSector = 0 then nextSector pt relative else relative

/-- `print_partition_extended`: the lines it prints, error messages apart. -/
def printPartitionExtended (devDesc : BlockDevDesc) :
    ℕ → UInt32 → UInt32 → ℕ → Option (List Row)
  | 0, _, _, _ => none
  | fuel + 1, extPartSector, relative, partNum =>
      match devDesc.blockRead extPartSector with
      | none => some []
      | some buffer =>
          match testBlockType buffer with
          | .noSignature => some []
          | .pbr =>
              some [⟨1, 0, asInt devDesc.lba, buffer dosPbrMediaTypeOffset, false⟩]
          | .mbr =>
              let (rows, last) := printLoop extPartSector (entries buffer) partNum
              let rest := (extendedEntries buffer).map fun pt =>
                printPartitionExtended devDesc fuel (nextSector pt relative)
                  (nextRelative pt extPartSector relative) last
              rest.foldl (fun rows more => rows.bind fun rows => more.map (rows ++ ·))
                (some rows)

attribute [grind =] printPartitionExtended

/-- `print_part_dos`. -/
def printPartDos (devDesc : BlockDevDesc) (fuel : ℕ) : Option (List Row) :=
  printPartitionExtended devDesc fuel 0 0 1

/-! ## The lookup -/

/-- What is stored into `info`. -/
def partInfo (devDesc : BlockDevDesc) (pt : DosPartition) (extPartSector : UInt32)
    (partNum : ℕ) : DiskPartition where
  start := (extPartSector + le32ToInt pt.start4).toNat
  size := (le32ToInt pt.size4).toNat
  blksz := 512
  name := partName devDesc partNum
  type := text "U-Boot"

/-- The first loop of `get_partition_info_extended`: the partition, or the partition
number behind the loop. -/
def getLoop (devDesc : BlockDevDesc) (extPartSector : UInt32) (whichPart : ℕ) :
    List DosPartition → ℕ → DiskPartition ⊕ ℕ
  | [], partNum => .inr partNum
  | pt :: pts, partNum =>
      if pt.sysInd ≠ 0 ∧ partNum = whichPart ∧ ¬ IsExtended pt.sysInd then
        .inl (partInfo devDesc pt extPartSector partNum)
      else getLoop devDesc extPartSector whichPart pts (nextNum extPartSector pt partNum)

attribute [grind =] getLoop

/-- `get_partition_info_extended`: the value is `none` where it returns `-1`. -/
def getPartitionInfoExtended (devDesc : BlockDevDesc) (whichPart : ℕ) :
    ℕ → UInt32 → UInt32 → ℕ → Option (Option DiskPartition)
  | 0, _, _, _ => none
  | fuel + 1, extPartSector, relative, partNum =>
      match devDesc.blockRead extPartSector with
      | none => some none
      | some buffer =>
          if ¬ Signed buffer then some none
          else
            match getLoop devDesc extPartSector whichPart (entries buffer) partNum with
            | .inl info => some (some info)
            | .inr last =>
                match (extendedEntries buffer).head? with
                | none => some none
                | some pt =>
                    getPartitionInfoExtended devDesc whichPart fuel
                      (nextSector pt relative) (nextRelative pt extPartSector relative)
                      last

attribute [grind =] getPartitionInfoExtended

/-- `get_partition_info_dos`. -/
def getPartitionInfoDos (devDesc : BlockDevDesc) (part : ℕ) (fuel : ℕ) :
    Option (Option DiskPartition) :=
  getPartitionInfoExtended devDesc part fuel 0 0 1

end TateFirmware.Disk
