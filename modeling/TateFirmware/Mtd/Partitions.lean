import TateFirmware.LibGeneric.CString

/-!
# MTD partitions

The partition and device records of `include/jffs2/load_kernel.h` and the
functions of `common/cmd_jffs2.c` that read, check and order partitions.  A
record carries the address `malloc` gave it, which is what a pointer to it is
compared by.  Sizes and offsets have 32 bits.
-/

namespace TateFirmware.Mtd

open LibGeneric

/-! ## Records -/

inductive DevType where
  | nor
  | nand
deriving DecidableEq

/-- `MTD_DEV_TYPE(type)`. -/
def DevType.name : DevType → List UInt8
  | .nor => text "nor"
  | .nand => text "nand"

/-- `struct mtdids`. -/
structure MtdIds where
  type : DevType
  num : ℕ
  size : ℕ
  size_lt : size < 2 ^ 32
  mtdId : List UInt8
deriving DecidableEq

/-- A device of one megabyte has a size. -/
theorem mebibyte_lt : 2 ^ 20 < 2 ^ 32 := by decide

/-- `struct part_info`. -/
structure PartInfo where
  addr : ℕ
  name : List UInt8
  autoName : Bool
  size : ℕ
  offset : ℕ
  maskFlags : ℕ
deriving DecidableEq

/-- `struct mtd_device`. -/
structure MtdDevice where
  addr : ℕ
  id : MtdIds
  numParts : ℕ
  parts : List PartInfo
deriving DecidableEq

/-- The flash chips: `flash_info` with the sector starts counted from the first
one, and the `erasesize` of `nand_info`. -/
structure Flash where
  norSectors : ℕ → List ℕ
  norSize : ℕ → ℕ
  eraseSize : ℕ → ℕ

/-- `SIZE_REMAINING`. -/
def sizeRemaining : ℕ := 0xFFFFFFFF

/-- `OFFSET_NOT_SPECIFIED`. -/
def offsetNotSpecified : ℕ := 0xFFFFFFFF

/-- `MIN_PART_SIZE`. -/
def minPartSize : ℕ := 4096

/-- `MTD_WRITEABLE_CMD`. -/
def mtdWriteableCmd : ℕ := 1

/-! ## Sizes in text -/

/-- `memsize_parse`. -/
def memsizeParse (ptr : List UInt8) : ℕ × List UInt8 :=
  match simpleStrtoul ptr 0 with
  | (ret, p) =>
      if peek p = ch 'G' ∨ peek p = ch 'g' then (ret * 2 ^ 30 % 2 ^ 32, p.tail)
      else if peek p = ch 'M' ∨ peek p = ch 'm' then
        (ret * 2 ^ 20 % 2 ^ 32, p.tail)
      else if peek p = ch 'K' ∨ peek p = ch 'k' then
        (ret * 2 ^ 10 % 2 ^ 32, p.tail)
      else (ret, p)

/-- `memsize_format`. -/
def memsizeFormat (size : ℕ) : List UInt8 :=
  if size % 2 ^ 30 = 0 then formatUnsigned (size / 2 ^ 30) ++ text "g"
  else if size % 2 ^ 20 = 0 then formatUnsigned (size / 2 ^ 20) ++ text "m"
  else if size % 2 ^ 10 = 0 then formatUnsigned (size / 2 ^ 10) ++ text "k"
  else formatUnsigned size

/-! ## Validating -/

/-- `part_validate_nor`. -/
def partValidateNor (flash : Flash) (id : MtdIds) (part : PartInfo) : Bool :=
  part.offset ∈ flash.norSectors id.num ∧
    ((part.offset + part.size) % 2 ^ 32 ∈ flash.norSectors id.num ∨
      flash.norSize id.num = (part.offset + part.size) % 2 ^ 32)

/-- `part_validate_nand`. -/
def partValidateNand (flash : Flash) (id : MtdIds) (part : PartInfo) : Bool :=
  part.offset % flash.eraseSize id.num = 0 ∧
    part.size % flash.eraseSize id.num = 0

/-- A fill-up partition takes what remains of the device. -/
def fillUp (id : MtdIds) (part : PartInfo) : PartInfo :=
  if part.size = sizeRemaining then
    { part with size := (id.size + 2 ^ 32 - part.offset) % 2 ^ 32 }
  else part

/-- The checks of `part_validate`. -/
def partFits (flash : Flash) (id : MtdIds) (part : PartInfo) : Bool :=
  if id.size < part.offset then false
  else if (part.offset + part.size) % 2 ^ 32 ≤ part.offset then false
  else if id.size < (part.offset + part.size) % 2 ^ 32 then false
  else
    match id.type with
    | .nand => partValidateNand flash id part
    | .nor => partValidateNor flash id part

/-- `part_validate`: the partition with its size filled in, if it is valid. -/
def partValidate (flash : Flash) (id : MtdIds) (part : PartInfo) :
    Option PartInfo :=
  if partFits flash id (fillUp id part) then some (fillUp id part) else none

/-! ## Reading a definition -/

/-- The size of a partition definition. -/
def partSize (p : List UInt8) : Option (ℕ × List UInt8) :=
  if peek p = ch '-' then some (sizeRemaining, p.tail)
  else if (memsizeParse p).1 < minPartSize then none
  else some (memsizeParse p)

/-- Its offset. -/
def partOffset (p : List UInt8) : ℕ × List UInt8 :=
  if peek p = ch '@' then memsizeParse p.tail else (offsetNotSpecified, p)

/-- Its name, `none` inside where it has none. -/
def partName (p : List UInt8) : Option (Option (List UInt8) × List UInt8) :=
  if peek p = ch '(' then
    match p.tail.dropWhile (· ≠ ch ')') with
    | [] => none
    | _ :: rest =>
        if p.tail.takeWhile (· ≠ ch ')') = [] then none
        else some (some (p.tail.takeWhile (· ≠ ch ')')), rest)
  else some (none, p)

/-- Its options. -/
def partOptions (p : List UInt8) : ℕ × List UInt8 :=
  if startsWith p "ro" then (mtdWriteableCmd, p.drop 2) else (0, p)

/-- Its end: where the next definition starts. -/
def partEnd (size : ℕ) (p : List UInt8) : Option (List UInt8) :=
  if peek p = ch ',' then
    if size = sizeRemaining then none else some p.tail
  else if peek p = ch ';' ∨ peek p = 0 then some p
  else none

/-- The record of a partition, with the name given or one generated from the
size and the offset. -/
def newPart (addr size offset : ℕ) (name : Option (List UInt8))
    (maskFlags : ℕ) : PartInfo where
  addr := addr
  name := name.getD
    (text "0x" ++ formatHex08 size ++ text "@0x" ++ formatHex08 offset)
  autoName := name.isNone
  size := size
  offset := offset
  maskFlags := maskFlags

/-- `part_parse`: the partition and where the next definition starts. -/
def partParse (partdef : List UInt8) (addr : ℕ) :
    Option (PartInfo × List UInt8) :=
  match partSize partdef with
  | none => none
  | some (size, p) =>
      match partName (partOffset p).2 with
      | none => none
      | some (name, p') =>
          match partEnd size (partOptions p').2 with
          | none => none
          | some ret =>
              some (newPart addr size (partOffset p).1 name (partOptions p').1,
                ret)

/-! ## Ordering -/

/-- The loop of `part_sort_add`: the partitions with the new one inserted, and
whether `current_partnum` goes up; `none` for a second partition at offset
zero. -/
def sortInsert (currPi : Option PartInfo) (new : PartInfo) :
    List PartInfo → Option (List PartInfo × Bool)
  | [] => some ([new], false)
  | pi :: ps =>
      if new.offset = pi.offset ∧ pi.offset = 0 then none
      else if new.offset ≤ pi.offset then
        some (new :: pi :: ps,
          currPi.any fun curr => pi.offset ≤ curr.offset)
      else (sortInsert currPi new ps).map fun r => (pi :: r.1, r.2)

attribute [grind =] sortInsert

/-- `part_sort_add`; the number of partitions has 16 bits. -/
def partSortAdd (currPi : Option PartInfo) (dev : MtdDevice)
    (part : PartInfo) : Option (MtdDevice × Bool) :=
  (sortInsert currPi part dev.parts).map fun r =>
    ({ dev with numParts := (dev.numParts + 1) % 2 ^ 16, parts := r.1 }, r.2)

/-- `jffs2_part_info`. -/
def jffs2PartInfo (dev : MtdDevice) (partNum : ℕ) : Option PartInfo :=
  if partNum < dev.numParts then dev.parts[partNum]? else none

end TateFirmware.Mtd
