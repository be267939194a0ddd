import TateFirmware.Env.Image
import TateFirmware.Support.NorFlash

/-!
# The redundant environment in flash

`common/env_flash.c` with `CFG_ENV_ADDR_REDUND`, and `env_init` and `flash_io` of
`tools/env/fw_env.c` with `HaveRedundEnv`.  Both programs see the two copies at
the same places of one flash, the tool on a host where `ulong` has 32 bits.  What
is done to the flash is a list of operations.
-/

namespace TateFirmware.Env

open LibGeneric Support

/-! ## The two copies -/

/-- Where the copies are: each at the start of a sector of its own. -/
structure FlashLayout where
  /-- `CFG_ENV_SIZE`; `ENVSIZE` of the tool. -/
  cfgEnvSize : ℕ
  /-- `CFG_ENV_SECT_SIZE`; `DEVESIZE` of the tool. -/
  sectSize : ℕ
  addr : Copy → ℕ
  header_le : 5 ≤ cfgEnvSize
  env_le_sect : cfgEnvSize ≤ sectSize
  apart : ∀ c, addr c + sectSize ≤ addr c.other ∨
    addr c.other + sectSize ≤ addr c

/-- The configuration: with a second copy. -/
def FlashLayout.cfg (lay : FlashLayout) : EnvConfig := ⟨lay.cfgEnvSize, true⟩

section Code

variable (lay : FlashLayout)

/-- The `env_t` at the address of a copy. -/
def envAt (flash : Memory UInt8) (c : Copy) : EnvT where
  crc := UInt32.ofNat (flash.leWord (lay.addr c))
  flags := flash (lay.addr c + 4)
  data := flash.shift (lay.addr c + 5)

/-- `crc1_ok` and `crc2_ok`. -/
def copyOk (flash : Memory UInt8) (c : Copy) : Bool :=
  (envAt lay flash c).crcOk lay.cfg

def activeFlag : UInt8 := 1

def obsoleteFlag : UInt8 := 0

/-! ## U-Boot -/

/-- `gd->env_addr`. -/
inductive EnvAddr where
  | unset
  | defaultEnvironment
  | data (c : Copy)
deriving DecidableEq

/-- `gd->env_addr` and `gd->env_valid`. -/
structure EnvFound where
  envAddr : EnvAddr
  envValid : ℕ
deriving DecidableEq

/-- `env_init`; `gd` is empty when it is called. -/
def envInit (flash : Memory UInt8) : EnvFound :=
  let crc1Ok := copyOk lay flash .first
  let crc2Ok := copyOk lay flash .second
  let flag1 := (envAt lay flash .first).flags
  let flag2 := (envAt lay flash .second).flags
  if crc1Ok ∧ ¬crc2Ok then ⟨.data .first, 1⟩
  else if ¬crc1Ok ∧ crc2Ok then ⟨.data .second, 1⟩
  else if ¬crc1Ok ∧ ¬crc2Ok then ⟨.defaultEnvironment, 0⟩
  else if flag1 = activeFlag ∧ flag2 = obsoleteFlag then ⟨.data .first, 1⟩
  else if flag1 = obsoleteFlag ∧ flag2 = activeFlag then ⟨.data .second, 1⟩
  else if flag1 = flag2 then ⟨.data .first, 2⟩
  else if flag1 = 0xFF then ⟨.data .first, 2⟩
  else if flag2 = 0xFF then ⟨.data .second, 2⟩
  else ⟨.unset, 0⟩

/-- `flash_write` of a flag between two calls of `flash_sect_protect`. -/
def writeFlag (c : Copy) (flag : UInt8) : List FlashOp :=
  [.protect false (lay.addr c) lay.sectSize, .write (lay.addr c + 4) [flag],
    .protect true (lay.addr c) lay.sectSize]

/-- `flash_addr` behind the first `if` of `env_relocate_spec`. -/
def relocateAddr (found : EnvFound) : Copy :=
  if found.envAddr ≠ .data .first then .second else .first

/-- `env_relocate_spec` as far as it takes the copy `flash_addr_new` out of use. -/
def relocateObsolete (flash : Memory UInt8) (cur : Copy) : List FlashOp :=
  if (envAt lay flash cur.other).flags ≠ obsoleteFlag ∧
      copyOk lay flash cur.other then
    writeFlag lay cur.other obsoleteFlag
  else []

/-- `env_relocate_spec` as far as it marks the copy `flash_addr` as active. -/
def relocateActive (flash : Memory UInt8) (cur : Copy) : List FlashOp :=
  if (envAt lay flash cur).flags ≠ activeFlag ∧
      (envAt lay flash cur).flags &&& activeFlag = activeFlag then
    writeFlag lay cur activeFlag
  else []

/-- What `env_relocate_spec` does to the flash. -/
def relocateOps (flash : Memory UInt8) (cur : Copy) : List FlashOp :=
  let obsolete := relocateObsolete lay flash cur
  obsolete ++ relocateActive lay (FlashOp.applyAll flash obsolete) cur

/-- `env_relocate_spec` loads `CFG_ENV_SIZE` bytes from `flash_addr`. -/
def relocateEnv (flash : Memory UInt8) (cur : Copy) (e : EnvT) : EnvT :=
  e.overwrite lay.cfg (flash.read (lay.addr cur) lay.cfgEnvSize)

/-- What `env_relocate` leaves: the flash, `flash_addr`, `env_ptr`, and whether that
is the default environment. -/
structure FlashBoot where
  flash : Memory UInt8
  flashAddr : Copy
  env : EnvT
  usesDefault : Bool

/-- `env_init` and `env_relocate`, with `ram` in the new buffer. -/
def bootFlash (defaultEnvironment : List UInt8) (ram : EnvT)
    (flash : Memory UInt8) : FlashBoot :=
  let found := envInit lay flash
  if found.envValid = 0 then
    ⟨flash, .first, relocateDefault lay.cfg defaultEnvironment ram, true⟩
  else
    let cur := relocateAddr found
    let flash := FlashOp.applyAll flash (relocateOps lay flash cur)
    ⟨flash, cur, relocateEnv lay flash cur ram, false⟩

/-- `up_data`: the rest of the sector, which is saved and restored. -/
def restoreOps (flash : Memory UInt8) (c : Copy) : List FlashOp :=
  let upData := lay.sectSize - lay.cfgEnvSize
  if upData ≠ 0 then
    [.write (lay.addr c + lay.cfgEnvSize)
      (flash.read (lay.addr c + lay.cfgEnvSize) upData)]
  else []

/-- What `saveenv` does to the flash, where `flash_addr` is the copy `cur`. -/
def saveenvOps (flash : Memory UInt8) (cur : Copy) (e : EnvT) : List FlashOp :=
  [.protect false (lay.addr cur) lay.sectSize,
    .protect false (lay.addr cur.other) lay.sectSize,
    .erase (lay.addr cur.other) lay.sectSize,
    .write (lay.addr cur.other + 5) (e.contents lay.cfg),
    .write (lay.addr cur.other) (leBytes e.crc.toNat),
    .write (lay.addr cur + 4) [obsoleteFlag],
    .write (lay.addr cur.other + 4) [activeFlag]] ++
  restoreOps lay flash cur.other

/-! ## The tool -/

/-- What `env_init` of the tool leaves: `curdev`, and the environment, unless it
is the default one. -/
structure FwFound where
  curdev : Copy
  isDefault : Bool
deriving DecidableEq

/-- `env_init` of the tool. -/
def fwEnvInit (flash : Memory UInt8) : FwFound :=
  let crc1Ok := copyOk lay flash .first
  let crc2Ok := copyOk lay flash .second
  let flag1 := (envAt lay flash .first).flags
  let flag2 := (envAt lay flash .second).flags
  if crc1Ok ∧ ¬crc2Ok then ⟨.first, false⟩
  else if ¬crc1Ok ∧ crc2Ok then ⟨.second, false⟩
  else if ¬crc1Ok ∧ ¬crc2Ok then ⟨.first, true⟩
  else if flag1 = activeFlag ∧ flag2 = obsoleteFlag then ⟨.first, false⟩
  else if flag1 = obsoleteFlag ∧ flag2 = activeFlag then ⟨.second, false⟩
  else if flag1 = flag2 then ⟨.first, false⟩
  else if flag1 = 0xFF then ⟨.first, false⟩
  else if flag2 = 0xFF then ⟨.second, false⟩
  else ⟨.second, false⟩

/-- `flash_io(O_RDWR)`: the header is written first, with the active flag, and the
copy in use is marked as obsolete last. -/
def flashIoOps (flash : Memory UInt8) (curdev : Copy) (crc : UInt32)
    (data : List UInt8) : List FlashOp :=
  [.protect false (lay.addr curdev.other) lay.sectSize,
    .protect false (lay.addr curdev) lay.sectSize,
    .erase (lay.addr curdev.other) lay.sectSize,
    .write (lay.addr curdev.other) (leBytes crc.toNat ++ [activeFlag]),
    .write (lay.addr curdev.other + 5) data] ++
  restoreOps lay flash curdev.other ++
  [.write (lay.addr curdev + 4) [obsoleteFlag],
    .protect true (lay.addr curdev.other) lay.sectSize,
    .protect true (lay.addr curdev) lay.sectSize]

end Code

end TateFirmware.Env
