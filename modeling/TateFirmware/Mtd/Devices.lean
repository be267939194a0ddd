import TateFirmware.Mtd.Partitions
import TateFirmware.Support.Run

/-!
# MTD devices

The device list of `common/cmd_jffs2.c` with its current device and partition:
reading a device definition, adding and removing devices and partitions, and
reading the whole `mtdparts` string.  `step` is one operation of the commands
on the list.
-/

namespace TateFirmware.Mtd

open LibGeneric Support

/-! ## State -/

/-- The environment variables that mirror the current partition. -/
structure PartitionVars where
  partition : Option (List UInt8)
  mtddevnum : Option (List UInt8)
  mtddevname : Option (List UInt8)
deriving DecidableEq

/-- `devices`, `current_dev` and `current_partnum`; `brk` is an address above
all records. -/
structure MtdState where
  devices : List MtdDevice
  currentDev : Option ℕ
  currentPartnum : ℕ
  vars : PartitionVars
  brk : ℕ
deriving DecidableEq

/-- No devices. -/
def MtdState.start (brk : ℕ) : MtdState := ⟨[], none, 0, ⟨none, none, none⟩, brk⟩

/-- `*current_dev`. -/
def MtdState.currentDevice (m : MtdState) : Option MtdDevice :=
  m.currentDev.bind fun a => m.devices.find? fun d => d.addr = a

/-- `jffs2_part_info(current_dev, current_partnum)`. -/
def MtdState.currentPart (m : MtdState) : Option PartInfo :=
  m.currentDevice.bind fun d => jffs2PartInfo d m.currentPartnum

/-- `mtddevnum` as `index_partitions` counts it, in 16 bits. -/
def devNum (m : MtdState) : List MtdDevice → ℕ → ℕ
  | [], n => n
  | d :: ds, n =>
      if m.currentDev = some d.addr then (n + m.currentPartnum) % 2 ^ 16
      else devNum m ds ((n + d.numParts) % 2 ^ 16)

/-- `index_partitions`. -/
def indexPartitions (m : MtdState) : MtdState :=
  { m with vars :=
      { m.vars with
        mtddevnum := m.currentDev.map fun _ => formatInt (devNum m m.devices 0)
        mtddevname := m.currentPart.map PartInfo.name } }

/-- `current_save`. -/
def currentSave (m : MtdState) : MtdState :=
  indexPartitions
    { m with vars :=
        { m.vars with
          partition := m.currentDevice.map fun d =>
            d.id.type.name ++ formatInt d.id.num ++ text "," ++
              formatInt m.currentPartnum } }

/-- Write a device back to the list. -/
def MtdState.putDevice (m : MtdState) (dev : MtdDevice) : MtdState :=
  { m with devices := m.devices.map fun d =>
      if d.addr = dev.addr then dev else d }

/-! ## Devices -/

/-- `device_find`. -/
def deviceFind (devices : List MtdDevice) (type : DevType) (num : ℕ) :
    Option MtdDevice :=
  devices.find? fun d => d.id.type = type ∧ d.id.num = num

/-- `id_find_by_mtd_id`. -/
def idFindByMtdId (mtdids : List MtdIds) (mtdId : List UInt8) :
    Option MtdIds :=
  mtdids.find? fun id => id.mtdId = mtdId

/-- `device_del`. -/
def deviceDel (m : MtdState) (dev : MtdDevice) : MtdState :=
  if m.currentDev = some dev.addr then
    match m.devices.filter fun d => d.addr ≠ dev.addr with
    | [] => currentSave { m with devices := [], currentDev := none }
    | d :: ds =>
        currentSave
          { m with
            devices := d :: ds
            currentDev := some d.addr
            currentPartnum := 0 }
  else
    indexPartitions
      { m with devices := m.devices.filter fun d => d.addr ≠ dev.addr }

/-- `device_add`. -/
def deviceAdd (m : MtdState) (dev : MtdDevice) : MtdState :=
  if m.devices = [] then
    currentSave
      { m with
        devices := [dev]
        currentDev := some dev.addr
        currentPartnum := 0 }
  else indexPartitions { m with devices := m.devices ++ [dev] }

/-- The current partition, if `dev` is the current device. -/
def MtdState.currPi (m : MtdState) (dev : MtdDevice) : Option PartInfo :=
  if m.currentDev = some dev.addr then jffs2PartInfo dev m.currentPartnum
  else none

/-- `part_add`, with what it returns. -/
def partAdd (flash : Flash) (m : MtdState) (dev : MtdDevice) (part : PartInfo) :
    MtdState × ℕ :=
  match partValidate flash dev.id part with
  | none => (m, 1)
  | some part =>
      match partSortAdd (m.currPi dev) dev part with
      | none => (m, 1)
      | some (dev, true) =>
          (currentSave
            { m.putDevice dev with
              currentPartnum := (m.currentPartnum + 1) % 2 ^ 8 }, 0)
      | some (dev, false) => (indexPartitions (m.putDevice dev), 0)

/-- `part_del`. -/
def partDel (m : MtdState) (dev : MtdDevice) (part : PartInfo) : MtdState :=
  if dev.numParts = 1 then deviceDel m dev
  else
    match m.currPi dev with
    | none =>
        indexPartitions (m.putDevice
          { dev with
            numParts := (dev.numParts + (2 ^ 16 - 1)) % 2 ^ 16
            parts := dev.parts.erase part })
    | some curr =>
        currentSave
          { m.putDevice
              { dev with
                numParts := (dev.numParts + (2 ^ 16 - 1)) % 2 ^ 16
                parts := dev.parts.erase part } with
            currentPartnum :=
              if curr = part then 0
              else if part.offset ≤ curr.offset then
                (m.currentPartnum + (2 ^ 8 - 1)) % 2 ^ 8
              else m.currentPartnum }

/-! ## Reading a device -/

/-- The partitions of a device definition, from `p` on; `offset` is where a
partition without an offset starts.  The definition is at an end, or a
partition fails. -/
def partsParse (flash : Flash) (id : MtdIds) :
    ℕ → List UInt8 → ℕ → ℕ → Option (List PartInfo × List UInt8)
  | 0, _, _, _ => none
  | k + 1, p, offset, addr =>
      if peek p = 0 ∨ peek p = ch ';' then some ([], p)
      else
        match partParse p addr with
        | none => none
        | some (part, ret) =>
            match partValidate flash id
                (if part.offset = offsetNotSpecified then
                  { part with offset := offset } else part) with
            | none => none
            | some part =>
                (partsParse flash id k ret
                  ((part.offset + part.size) % 2 ^ 32) (addr + 1)).map
                  fun r => (part :: r.1, r.2)

/-- Where the first partition of a device definition starts by default. -/
def startOffset (devices : List MtdDevice) (id : MtdIds) : ℕ :=
  match deviceFind devices id.type id.num with
  | none => 0
  | some dev =>
      match dev.parts.getLast? with
      | none => 0
      | some part => (part.offset + part.size) % 2 ^ 32

/-- Move the partitions to a new device, which is not the current one. -/
def sortAddAll : MtdDevice → List PartInfo → Option MtdDevice
  | dev, [] => some dev
  | dev, part :: parts =>
      match partSortAdd none dev part with
      | none => none
      | some (dev, _) => sortAddAll dev parts

/-- `device_parse`: the device and where the next definition starts.  The
records are allocated from `brk` on. -/
def deviceParse (flash : Flash) (mtdids : List MtdIds)
    (devices : List MtdDevice) (brk : ℕ) (mtdDev : List UInt8) :
    Option (MtdDevice × List UInt8) :=
  match mtdDev.dropWhile (· ≠ ch ':') with
  | [] => none
  | _ :: p =>
      match idFindByMtdId mtdids (mtdDev.takeWhile (· ≠ ch ':')) with
      | none => none
      | some id =>
          match partsParse flash id (p.length + 1) p (startOffset devices id)
              brk with
          | none => none
          | some (parts, p) =>
              if parts.length % 2 ^ 16 = 0 then none
              else
                (sortAddAll ⟨brk + parts.length, id, 0, []⟩ parts).map
                  fun dev => (dev, if peek p = ch ';' then p.tail else p)

/-- The devices of an `mtdparts` string behind its first nine characters, and
the address above their records. -/
def devicesParse (flash : Flash) (mtdids : List MtdIds) :
    ℕ → List MtdDevice → ℕ → List UInt8 → Option (List MtdDevice × ℕ)
  | 0, _, _, _ => none
  | k + 1, devices, brk, p =>
      if peek p = 0 then some (devices, brk)
      else
        match deviceParse flash mtdids devices brk p with
        | none => none
        | some (dev, ret) =>
            if (deviceFind devices dev.id.type dev.id.num).isSome then none
            else
              devicesParse flash mtdids k (devices ++ [dev]) (dev.addr + 1) ret

/-- `parse_mtdparts` after it has deleted all devices; a string that defines
none is not accepted. -/
def parseMtdparts (flash : Flash) (mtdids : List MtdIds) (brk : ℕ)
    (mtdparts : List UInt8) : Option (List MtdDevice × ℕ) :=
  if startsWith mtdparts "mtdparts=" ∧ peek (mtdparts.drop 9) ≠ 0 then
    devicesParse flash mtdids (mtdparts.length + 1) [] brk (mtdparts.drop 9)
  else none

/-! ## Operations -/

/-- `devices_init`. -/
def devicesInit (m : MtdState) : MtdState :=
  { currentSave { m with currentDev := none } with devices := [] }

/-- `MTDPARTS_MAXLEN`. -/
def mtdpartsMaxlen : ℕ := 512

/-- `mtdparts_init` where it has a new `mtdparts` string to read. -/
def mtdpartsInit (flash : Flash) (mtdids : List MtdIds) (m : MtdState)
    (mtdparts : List UInt8) : MtdState × ℕ :=
  if mtdpartsMaxlen - 1 < mtdparts.length then (m, 1)
  else
    match parseMtdparts flash mtdids m.brk mtdparts with
    | none => (devicesInit m, 1)
    | some (devices, brk) =>
        (currentSave
          { devicesInit m with
            devices := devices
            currentDev := devices.head?.map MtdDevice.addr
            currentPartnum := 0
            brk := brk }, 0)

/-- `id_find`. -/
def idFind (mtdids : List MtdIds) (type : DevType) (num : ℕ) :
    Option MtdIds :=
  mtdids.find? fun id => id.type = type ∧ id.num = num

/-- `PART_ADD_DESC_MAXLEN`. -/
def partAddDescMaxlen : ℕ := 64

/-- The arguments of `mtdparts add` behind the device. -/
structure AddArgs where
  sizeOffset : List UInt8
  name : List UInt8
  option : Option (List UInt8)

/-- The length `do_jffs2_mtdparts` counts for the description, in 8 bits. -/
def AddArgs.len (args : AddArgs) (id : MtdIds) : ℕ :=
  (id.mtdId.length + 1 + args.sizeOffset.length + (args.name.length + 2) +
    if args.option.any fun s => s.length = 2 then 2 else 0) % 2 ^ 8

/-- The description it prints to `tmpbuf`. -/
def AddArgs.desc (args : AddArgs) (id : MtdIds) : List UInt8 :=
  id.mtdId ++ text ":" ++ args.sizeOffset ++ text "(" ++ args.name ++
    text ")" ++ args.option.getD []

/-- `do_jffs2_mtdparts` with a description of a partition to add. -/
def addPartition (flash : Flash) (mtdids : List MtdIds) (m : MtdState)
    (mtdDev : List UInt8) : MtdState × ℕ :=
  match deviceParse flash mtdids m.devices m.brk mtdDev with
  | none => (m, 1)
  | some (dev, _) =>
      match deviceFind m.devices dev.id.type dev.id.num, dev.parts with
      | none, _ => (deviceAdd { m with brk := dev.addr + 1 } dev, 0)
      | some _, [] => (m, 1)
      | some devTmp, part :: _ =>
          match partAdd flash { m with brk := dev.addr + 1 } devTmp part with
          | (m, 0) => (m, 0)
          | (m, _) => (deviceDel m dev, 1)

/-- `mtdparts add` of `do_jffs2_mtdparts`. -/
def mtdpartsAdd (flash : Flash) (mtdids : List MtdIds) (m : MtdState)
    (type : DevType) (num : ℕ) (args : AddArgs) : MtdState × ℕ :=
  match idFind mtdids type num with
  | none => (m, 1)
  | some id =>
      if partAddDescMaxlen ≤ args.len id then (m, 1)
      else addPartition flash mtdids m (args.desc id)

/-- `find_dev_and_part`, behind the reading of its argument. -/
def findDevAndPart (m : MtdState) (type : DevType) (num pnum : ℕ) :
    Option (MtdDevice × PartInfo) :=
  (deviceFind m.devices type num).bind fun dev =>
    (jffs2PartInfo dev pnum).map fun part => (dev, part)

inductive Op where
  /-- A new `mtdparts` string. -/
  | parse (mtdparts : List UInt8)
  /-- `mtdparts add`. -/
  | add (type : DevType) (num : ℕ) (args : AddArgs)
  /-- `part_add` of a new partition to a device of the list. -/
  | partAdd (type : DevType) (num : ℕ) (part : PartInfo)
  /-- `part_del` of a partition in the list. -/
  | partDel (type : DevType) (num pnum : ℕ)
  /-- `device_del` of a device of the list. -/
  | deviceDel (type : DevType) (num : ℕ)
  /-- `chpart`. -/
  | chpart (type : DevType) (num pnum : ℕ)

/-- A partition as `malloc` and the 32-bit fields make it. -/
def PartInfo.alloc (part : PartInfo) (addr : ℕ) : PartInfo :=
  { part with
    addr := addr
    size := part.size % 2 ^ 32
    offset := part.offset % 2 ^ 32 }

/-- One operation, and what it returns. -/
def step (flash : Flash) (mtdids : List MtdIds) (m : MtdState) :
    Op → MtdState × List ℕ
  | .parse mtdparts =>
      ((mtdpartsInit flash mtdids m mtdparts).1,
        [(mtdpartsInit flash mtdids m mtdparts).2])
  | .add type num args =>
      ((mtdpartsAdd flash mtdids m type num args).1,
        [(mtdpartsAdd flash mtdids m type num args).2])
  | .partAdd type num part =>
      match deviceFind m.devices type num with
      | none => (m, [1])
      | some dev =>
          ((partAdd flash { m with brk := m.brk + 1 } dev
              (part.alloc m.brk)).1,
            [(partAdd flash { m with brk := m.brk + 1 } dev
              (part.alloc m.brk)).2])
  | .partDel type num pnum =>
      match findDevAndPart m type num (pnum % 2 ^ 8) with
      | none => (m, [1])
      | some (dev, part) => (partDel m dev part, [0])
  | .deviceDel type num =>
      match deviceFind m.devices type num with
      | none => (m, [1])
      | some dev => (deviceDel m dev, [0])
  | .chpart type num pnum =>
      match findDevAndPart m type num (pnum % 2 ^ 8) with
      | none => (m, [1])
      | some (dev, _) =>
          (currentSave
            { m with
              currentDev := some dev.addr
              currentPartnum := pnum % 2 ^ 8 }, [0])

/-! ## A small chip -/

/-- A NAND chip with blocks of four kilobytes. -/
def smallNand : Flash := ⟨fun _ => [], fun _ => 0, fun _ => 4096⟩

/-- Its entry in `mtdids`, of one megabyte. -/
def smallIds : List MtdIds := [⟨.nand, 0, 2 ^ 20, mebibyte_lt, text "m"⟩]

end TateFirmware.Mtd
