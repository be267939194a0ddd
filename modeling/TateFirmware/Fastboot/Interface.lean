import TateFirmware.LibGeneric.CString
import TateFirmware.Sparse.Expansion

/-!
# Fastboot: interface, partition table and state

The board fills in `struct cmd_fastboot_interface` once; the rest of the state
are the static variables of `common/cmd_fastboot.c`, the transfer buffer and
the components that fastboot commands drive.
-/

namespace TateFirmware.Fastboot

open Support LibGeneric

/-- `storage_medium_type`. -/
inductive StorageMedium where
  | nand
  | emmc
deriving DecidableEq, Repr

/-- `struct cmd_fastboot_interface` as set by `fastboot_init`.  The sizes are
`unsigned int`.  The transfer buffer lies in RAM, which starts at `0x80000000`;
the block size is `2048` on every board, and the progress output of
`rx_handler` divides by multiples of it. -/
structure Interface where
  productName : Option (List UInt8)
  serialNo : Option (List UInt8)
  procRev : Option (List UInt8)
  procType : Option (List UInt8)
  storageMedium : StorageMedium
  nandBlockSize : ℕ
  transferBufferSize : ℕ
  transferBufferSize_lt : transferBufferSize < 2 ^ 31
  nandBlockSize_pos : 0 < nandBlockSize
  nandBlockSize_lt : 80 * 16 * nandBlockSize < 2 ^ 32

/-- `struct fastboot_ptentry`: start in sectors, length in bytes. -/
structure Ptentry where
  name : List UInt8
  start : ℕ
  length : ℕ
  flags : ℕ
deriving DecidableEq, Repr

def flagsWriteNextGoodBlock : ℕ := 0x10

def flagsWriteContiguousBlock : ℕ := 0x20

def flagsWriteEnv : ℕ := 0x400

/-- `ptn->flags & mask`. -/
def Ptentry.has (ptn : Ptentry) (mask : ℕ) : Bool := ptn.flags &&& mask ≠ 0

/-- A call of `do_setenv`; no value unsets the variable. -/
structure EnvUpdate where
  var : List UInt8
  val : Option (List UInt8)
deriving DecidableEq, Repr

/-- `ENV_SIZE`: `CFG_ENV_SIZE` is 128 KiB, the CRC takes four bytes. -/
def envSize : ℕ := 128 * 1024 - 4

/-- The static variables of `common/cmd_fastboot.c` and what they point to. -/
structure State where
  downloadSize : ℕ
  downloadBytes : ℕ
  downloadBytesUnpadded : ℕ
  downloadError : ℕ
  mmcControllerNo : ℕ
  fastbootConfirmed : Bool
  multiflashOffset : ℕ
  /-- `multiflash_ptn`, as an index into `ptable`. -/
  multiflashPtn : Option ℕ
  mmcwriteIsSparsed : Bool
  /-- The memory at `interface.transfer_buffer`. -/
  transferBuffer : TrackedMemory UInt8
  ptable : List Ptentry
  sparse : Sparse.SparseState
  mmc : Mmc.Host
  /-- The memory at `env_ptr->data`. -/
  envData : Memory UInt8
  /-- The calls of `do_setenv` made so far. -/
  envUpdates : List EnvUpdate
  /-- The board has left fastboot: reset, powered down or booted. -/
  left : Bool

/-- `fastboot_flash_find_ptn`: the index of the first entry of that name. -/
def fastbootFlashFindPtn (ptable : List Ptentry) (name : List UInt8) :
    Option ℕ :=
  ptable.findIdx? fun ptn => ptn.name == cstr name

/-- The entry `fastboot_flash_find_ptn` returns a pointer to. -/
def findEntry (ptable : List Ptentry) (name : List UInt8) : Option Ptentry :=
  (fastbootFlashFindPtn ptable name).bind (ptable[·]?)

/-- The statics at power-up.  The `.bss` section is zero; the device tables of
the MMC driver are as `mmc` says. -/
def initialState (ptable : List Ptentry) (mmc : Mmc.Host)
    (buffer envData : Memory UInt8) : State where
  downloadSize := 0
  downloadBytes := 0
  downloadBytesUnpadded := 0
  downloadError := 0
  mmcControllerNo := 0
  fastbootConfirmed := false
  multiflashOffset := 0
  multiflashPtn := none
  mmcwriteIsSparsed := false
  transferBuffer := ⟨buffer, 0⟩
  ptable := ptable
  sparse :=
    { remainingChunks := 0
      chunkOffset := 0
      sector := 0
      lastHeader := fun _ => 0
      blockSize := 0
      slotNo := 0
      data := fun _ => 0 }
  mmc := mmc
  envData := envData
  envUpdates := []
  left := false

end TateFirmware.Fastboot
