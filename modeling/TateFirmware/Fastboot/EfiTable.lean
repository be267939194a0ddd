import TateFirmware.Fastboot.Interface
import TateFirmware.LibGeneric.Crc32
import TateFirmware.Support.Records

/-!
# The partition table

`struct ptable`, the functions of `board/bowser/mmc.c` that fill it and that
read it back, and `fastboot_flash_add_ptn` of `common/cmd_fastboot.c`.  The
table is memory from its own start on: the MBR, the header, and 128 entries of
128 bytes.  `loadPtbl` reports the call of `do_format` and does not follow it.
-/

namespace TateFirmware.Fastboot

open LibGeneric Support

/-! ## Layout -/

/-- `EFI_ENTRIES`. -/
def efiEntries : ℕ := 128

/-- `EFI_NAMELEN`. -/
def efiNamelen : ℕ := 36

/-- `EFI_VERSION`. -/
def efiVersion : ℕ := 0x00010000

/-- `sizeof(struct efi_entry)`. -/
def efiEntrySize : ℕ := 128

/-- `sizeof(struct efi_header)`. -/
def efiHeaderSize : ℕ := 92

/-- `sizeof(struct ptable)`. -/
def ptableSize : ℕ := 512 + 512 + efiEntries * efiEntrySize

/-- The place of `ptbl->entry[n]`. -/
def entryOffset (n : ℕ) : ℕ := 1024 + efiEntrySize * n

def partitionType : List UInt8 :=
  [0xa2, 0xa0, 0xd0, 0xeb, 0xe5, 0xb9, 0x33, 0x44,
    0x87, 0xc0, 0x68, 0xb6, 0xb7, 0x26, 0x99, 0xc7]

def randomUuid : List UInt8 :=
  [0xff, 0x1f, 0xf2, 0xf9, 0xd4, 0xa8, 0x0e, 0x5f,
    0x97, 0x46, 0x59, 0x48, 0x69, 0xae, 0xc3, 0x4e]

/-! ## Writing -/

/-- `init_mbr`. -/
def initMbr (mbr : Memory UInt8) (blocks : ℕ) : Memory UInt8 :=
  mbr.writeParts 0
    [(0x1be, [0x00, 0xff, 0xff, 0xff]), (0x1c2, [0xee, 0xff, 0xff, 0xff]),
      (0x1c6, [0x01, 0x00, 0x00, 0x00]), (0x1ca, leBytes blocks),
      (0x1fe, [0x55, 0xaa])]

/-- `start_ptbl`. -/
def startPtbl (ptbl : Memory UInt8) (blocks : ℕ) : Memory UInt8 :=
  let last := (blocks + 2 ^ 32 - 1) % 2 ^ 32
  (initMbr (ptbl.fill 0 ptableSize 0) last).writeParts 512
    [(0, text "EFI PART"), (8, leBytes efiVersion),
      (12, leBytes efiHeaderSize), (24, leBytes64 1), (32, leBytes64 last),
      (40, leBytes64 34), (48, leBytes64 last), (56, randomUuid),
      (72, leBytes64 2), (80, leBytes efiEntries), (84, leBytes efiEntrySize)]

/-- `end_ptbl`. -/
def endPtbl (ptbl : Memory UInt8) : Memory UInt8 :=
  let n := crc32 (crc32 0 []) (ptbl.read 1024 (efiEntries * efiEntrySize))
  let ptbl := ptbl.copyIn (512 + 88) (leBytes n.toNat)
  let n := crc32 0 (ptbl.read 512 efiHeaderSize)
  ptbl.copyIn (512 + 16) (leBytes n.toNat)

/-- `hdr->last_lba`. -/
def headerLastLba (ptbl : Memory UInt8) : ℕ := ptbl.leWord64 (512 + 48)

def entryLastLba (ptbl : Memory UInt8) (n : ℕ) : ℕ :=
  ptbl.leWord64 (entryOffset n + 40)

/-- The arguments of a call of `add_ptn`. -/
structure PtnCall where
  first : ℕ
  last : ℕ
  name : List UInt8

/-- The bytes of `entry->name` that `add_ptn` writes. -/
def nameUnits (name : List UInt8) : List UInt8 :=
  ((cstr name).take efiNamelen).flatMap fun c => [c, 0]

/-- The first entry from `n` on that `add_ptn` takes for free. -/
def freeEntry (ptbl : Memory UInt8) (n : ℕ) : Option ℕ :=
  if efiEntries ≤ n then none
  else if entryLastLba ptbl n ≠ 0 then freeEntry ptbl (n + 1)
  else some n
termination_by efiEntries - n

/-- `add_ptn`; `none` is the result -1. -/
def addPtn (ptbl : Memory UInt8) (call : PtnCall) : Option (Memory UInt8) :=
  if call.first < 34 then none
  else if headerLastLba ptbl < call.last then none
  else
    match freeEntry ptbl 0 with
    | none => none
    | some n =>
        some (ptbl.writeParts (entryOffset n)
          [(0, partitionType), (16, UInt8.ofNat n :: randomUuid.tail),
            (32, leBytes64 call.first), (40, leBytes64 call.last),
            (56, nameUnits call.name)])

/-- A sequence of calls of `add_ptn`, all of which are accepted. -/
def addPtns (ptbl : Memory UInt8) (calls : List PtnCall) :
    Option (Memory UInt8) :=
  calls.foldlM addPtn ptbl

/-! ## Reading -/

/-- `MAX_PTN`. -/
def maxPtn : ℕ := 16

/-- `fastboot_flash_add_ptn`. -/
def fastbootFlashAddPtn (ptn : Ptentry) (ptable : List Ptentry) :
    List Ptentry :=
  if ptable.length < maxPtn then ptable ++ [ptn] else ptable

/-- `e.name`, of the 15 characters that are taken over. -/
def entryName (entry : Memory UInt8) : List UInt8 :=
  cstr ((List.range 15).map fun n => entry (56 + 2 * n))

/-- `import_efi_partition`. -/
def importEfiPartition (ptable : List Ptentry) (entry : Memory UInt8) :
    List Ptentry :=
  if entry.read 0 16 ≠ partitionType then ptable
  else
    let first := entry.leWord64 32
    let last := entry.leWord64 40
    fastbootFlashAddPtn
      { name := entryName entry
        start := first % 2 ^ 32
        length := (last + 2 ^ 64 - first + 1) * 512 % 2 ^ 64
        flags :=
          if entryName entry = text "environment" then flagsWriteEnv else 0 }
      ptable

inductive LoadResult where
  /-- The first read fails: -1. -/
  | error
  /-- There is no table: `do_format` is called. -/
  | format
  /-- A read of entries fails: 1, with the partitions registered so far. -/
  | readFailed (ptable : List Ptentry)
  /-- 0. -/
  | loaded (ptable : List Ptentry)

/-- The loop of `load_ptbl` over `count` more sectors from number `n` on. -/
def loadEntries (mmcRead : ℕ → Option (Memory UInt8)) :
    ℕ → ℕ → List Ptentry → LoadResult
  | 0, _, ptable => .loaded ptable
  | count + 1, n, ptable =>
      match mmcRead (1 + n) with
      | none => .readFailed ptable
      | some entry =>
          loadEntries mmcRead count (n + 1)
            ((List.range 4).foldl
              (fun ptable m =>
                importEfiPartition ptable (entry.shift (efiEntrySize * m)))
              ptable)

/-- `load_ptbl`; `mmcRead` is `mmc_read` of one sector. -/
def loadPtbl (mmcRead : ℕ → Option (Memory UInt8)) (ptable : List Ptentry) :
    LoadResult :=
  match mmcRead 1 with
  | none => .error
  | some data =>
      if data.read 0 8 ≠ text "EFI PART" then .format
      else loadEntries mmcRead (128 / 4) 0 ptable

end TateFirmware.Fastboot
