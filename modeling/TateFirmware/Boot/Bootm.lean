import TateFirmware.LibGeneric.CString
import TateFirmware.LibGeneric.Crc32
import TateFirmware.Support.Memory

/-!
# Booting an image from memory

`doBootm` is the `bootm` command of `common/cmd_bootm.c` with the Linux entry
of `lib_arm/armlinux.c`, and `imageInfo` the check behind `iminfo`.  The
configuration is the board's: signatures are bypassed but their length is
skipped, and there is no dataflash, no bzip2 and no ELF loader.  The gzip
expander is a parameter; `none` is its error.
-/

namespace TateFirmware.Boot

open LibGeneric Support

/-! ## Image headers -/

/-- `ISW_CERTIFICATE_LENGTH_FULL`. -/
def iswCertificateLengthFull : ℕ := 0x350

/-- `sizeof(image_header_t)`. -/
def imageHeaderSize : ℕ := 64

/-- `IH_MAGIC`. -/
def ihMagicValue : ℕ := 0x27051956

/-- `ntohl` of the 32-bit word at an offset. -/
def ntohlAt (bytes : List UInt8) (i : ℕ) : ℕ :=
  (bytes.getD i 0).toNat * 2 ^ 24 + (bytes.getD (i + 1) 0).toNat * 2 ^ 16 +
    (bytes.getD (i + 2) 0).toNat * 2 ^ 8 + (bytes.getD (i + 3) 0).toNat

/-- The 32-bit word at an offset, without `ntohl`. -/
def wordAt (bytes : List UInt8) (i : ℕ) : ℕ :=
  (bytes.getD i 0).toNat + (bytes.getD (i + 1) 0).toNat * 2 ^ 8 +
    (bytes.getD (i + 2) 0).toNat * 2 ^ 16 +
      (bytes.getD (i + 3) 0).toNat * 2 ^ 24

/-- `ntohl`. -/
def ntohl (w : ℕ) : ℕ :=
  w % 2 ^ 8 * 2 ^ 24 + w / 2 ^ 8 % 2 ^ 8 * 2 ^ 16 +
    w / 2 ^ 16 % 2 ^ 8 * 2 ^ 8 + w / 2 ^ 24 % 2 ^ 8

def ihMagic (hdr : List UInt8) : ℕ := ntohlAt hdr 0

def ihHcrc (hdr : List UInt8) : ℕ := ntohlAt hdr 4

def ihSize (hdr : List UInt8) : ℕ := ntohlAt hdr 12

def ihLoad (hdr : List UInt8) : ℕ := ntohlAt hdr 16

def ihEp (hdr : List UInt8) : ℕ := ntohlAt hdr 20

def ihDcrc (hdr : List UInt8) : ℕ := ntohlAt hdr 24

def ihOs (hdr : List UInt8) : UInt8 := hdr.getD 28 0

def ihArch (hdr : List UInt8) : UInt8 := hdr.getD 29 0

def ihType (hdr : List UInt8) : UInt8 := hdr.getD 30 0

def ihComp (hdr : List UInt8) : UInt8 := hdr.getD 31 0

/-- `IH_CPU_ARM`. -/
def ihCpuArm : UInt8 := 2

/-- `IH_TYPE_STANDALONE`. -/
def ihTypeStandalone : UInt8 := 1

/-- `IH_TYPE_KERNEL`. -/
def ihTypeKernel : UInt8 := 2

/-- `IH_TYPE_RAMDISK`. -/
def ihTypeRamdisk : UInt8 := 3

/-- `IH_TYPE_MULTI`. -/
def ihTypeMulti : UInt8 := 4

/-- `IH_COMP_NONE`. -/
def ihCompNone : UInt8 := 0

/-- `IH_COMP_GZIP`. -/
def ihCompGzip : UInt8 := 1

/-- `IH_OS_NETBSD`. -/
def ihOsNetbsd : UInt8 := 2

/-- `IH_OS_LINUX`. -/
def ihOsLinux : UInt8 := 5

/-- `IH_OS_RTEMS`. -/
def ihOsRtems : UInt8 := 18

/-- The header at an address. -/
def headerAt (mem : Memory UInt8) (addr : ℕ) : List UInt8 :=
  mem.wrap.read addr imageHeaderSize

/-- The checksum of a header with `ih_hcrc` set to zero. -/
def headerCrc (hdr : List UInt8) : ℕ :=
  (crc32 0 (hdr.take 4 ++ [0, 0, 0, 0] ++ hdr.drop 8)).toNat

/-- The checksum of the data behind a header. -/
def dataCrc (mem : Memory UInt8) (addr : ℕ) : ℕ :=
  (crc32 0 (mem.wrap.read (addr + imageHeaderSize)
    (ihSize (headerAt mem addr)))).toNat

/-! ## Checking an image -/

/-- What `image_info` prints before it returns. -/
inductive ImageInfo where
  | badMagicNumber
  | badHeaderChecksum
  | ok
deriving DecidableEq, Repr

/-- `image_info`. -/
def imageInfo (mem : Memory UInt8) (addr : ℕ) : ImageInfo :=
  let hdr := headerAt mem addr
  if ihMagic hdr ≠ ihMagicValue then .badMagicNumber
  else if headerCrc hdr ≠ ihHcrc hdr then .badHeaderChecksum
  else .ok

/-! ## Starting an image -/

/-- The environment and the default address. -/
structure BootEnv where
  verify : Option (List UInt8)
  autostart : Option (List UInt8)
  loadAddr : ℕ

/-- `verify`. -/
def BootEnv.verifies (env : BootEnv) : Bool :=
  match env.verify with
  | none => true
  | some s => peek s ≠ ch 'n'

inductive BootResult where
  | returned (rcode : ℕ)
  /-- `do_reset`. -/
  | reset
  /-- The loop over the lengths of a multi-file image does not end. -/
  | hung
  /-- Control is transferred. -/
  | started (entry : ℕ)
deriving DecidableEq, Repr

/-- `len_ptr[i]`. -/
def lenPtr (mem : Memory UInt8) (table i : ℕ) : ℕ :=
  ntohlAt (mem.wrap.read (table + 4 * i) 4) 0

/-- The loop `for (i = 1; len_ptr[i]; ++i)`: how often it runs, looking at
`n` more lengths. -/
def countLens (mem : Memory UInt8) (table : ℕ) : ℕ → ℕ → Option ℕ
  | 0, _ => none
  | n + 1, i =>
      if lenPtr mem table i = 0 then some (i - 1)
      else countLens mem table n (i + 1)

/-- How often the loop runs over memory, which holds `2^30` words. -/
def countAllLens (mem : Memory UInt8) (table : ℕ) : Option ℕ :=
  countLens mem table (2 ^ 30) 1

/-- The checks of `do_bootm_linux` on a ramdisk image. -/
def ramdiskOk (mem : Memory UInt8) (addr : ℕ) (verify : Bool) : Bool :=
  let hdr := headerAt mem addr
  ihMagic hdr = ihMagicValue && headerCrc hdr = ihHcrc hdr &&
    (!verify || dataCrc mem addr = ihDcrc hdr) &&
      (ihOs hdr = ihOsLinux && ihArch hdr = ihCpuArm &&
        ihType hdr = ihTypeRamdisk)

/-- `do_bootm_linux`; `argv` are the arguments behind the command name. -/
def doBootmLinux (mem : Memory UInt8) (hdr : List UInt8)
    (argv : List (List UInt8)) (table : ℕ) (verify : Bool) : BootResult :=
  match argv with
  | _ :: ramdisk :: _ =>
      if ramdiskOk mem (simpleStrtoul ramdisk 16).1 verify then
        .started (ihEp hdr)
      else .reset
  | _ =>
      if ihType hdr = ihTypeMulti ∧ lenPtr mem table 1 ≠ 0 then
        match countAllLens mem table with
        | none => .hung
        | some _ => .started (ihEp hdr)
      else .started (ihEp hdr)

section Bootm

variable (gunzip : Memory UInt8 → ℕ → ℕ → ℕ → ℕ → Option (Memory UInt8))

/-- Where the OS image starts and how long it is. -/
def imageData (mem : Memory UInt8) (hdr : List UInt8) (data : ℕ) :
    Option (ℕ × ℕ) :=
  if ihType hdr = ihTypeMulti then
    match countAllLens mem data with
    | none => none
    | some n => some (data + 8 + 4 * n, lenPtr mem data 0)
  else some (data, ihSize hdr)

/-- `ntohl(hdr->ih_load)`, where the second argument has replaced the load
address of a standalone application. -/
def loadAddress (hdr : List UInt8) (argv : List (List UInt8)) : ℕ :=
  match argv with
  | _ :: load :: _ =>
      if ihType hdr = ihTypeStandalone then ntohl (simpleStrtoul load 16).1
      else ihLoad hdr
  | _ => ihLoad hdr

/-- `CFG_BOOTM_LEN`. -/
def cfgBootmLen : ℕ := 0x800000

/-- The memory with the OS image in place; `none` is a failure of `gunzip`. -/
def loadImage (mem : Memory UInt8) (hdr : List UInt8)
    (argv : List (List UInt8)) (addr data len : ℕ) : Option (Memory UInt8) :=
  let load := loadAddress hdr argv
  if ihComp hdr = ihCompNone then
    if load = addr then some mem
    else some (mem.copyWrap load (mem.wrap.read data len))
  else gunzip mem load cfgBootmLen data len

/-- The last switch of `do_bootm`, with the image in place. -/
def startImage (env : BootEnv) (mem : Memory UInt8) (hdr : List UInt8)
    (argv : List (List UInt8)) (table : ℕ) : BootResult :=
  if ihType hdr = ihTypeStandalone then
    if env.autostart = some (text "no") then .returned 0
    else .started (ihEp hdr)
  else if ihOs hdr = ihOsNetbsd ∨ ihOs hdr = ihOsRtems then
    .started (wordAt hdr 20)
  else doBootmLinux mem hdr argv table env.verifies

/-- The image that `do_bootm` boots. -/
def bootAddr (env : BootEnv) (argv : List (List UInt8)) : ℕ :=
  let addr := match argv with
    | [] => env.loadAddr
    | arg :: _ => (simpleStrtoul arg 16).1
  (addr + iswCertificateLengthFull) % 2 ^ 32

/-- `do_bootm`; `argv` are the arguments behind the command name. -/
def doBootm (env : BootEnv) (mem : Memory UInt8) (argv : List (List UInt8)) :
    BootResult :=
  let addr := bootAddr env argv
  let hdr := headerAt mem addr
  let data := (addr + imageHeaderSize) % 2 ^ 32
  if ihMagic hdr ≠ ihMagicValue then .returned 1
  else if headerCrc hdr ≠ ihHcrc hdr then .returned 1
  else if ihArch hdr ≠ ihCpuArm then .returned 1
  else if ihType hdr ≠ ihTypeStandalone ∧ ihType hdr ≠ ihTypeKernel ∧
      ihType hdr ≠ ihTypeMulti then .returned 1
  else
    match imageData mem hdr data with
    | none => .hung
    | some (image, len) =>
        if ihComp hdr ≠ ihCompNone ∧ ihComp hdr ≠ ihCompGzip then .returned 1
        else
          match loadImage gunzip mem hdr argv addr image len with
          | none => .reset
          | some mem => startImage env mem hdr argv data

end Bootm

end TateFirmware.Boot
