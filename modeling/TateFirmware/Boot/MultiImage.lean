import Mathlib.Data.FinEnum
import TateFirmware.Boot.Bootm

/-!
# Multi-file images

`mkimage` is the `-d` branch of `tools/mkimage.c` for a multi-file image, and
the readers are the branches of `do_bootm` (`imageData`), of `do_bootm_linux`
and of `do_imgextract` in `common/cmd_ximg.c` for the parts of such an image.
Opening and mapping the files is left out: `files` are their contents.
-/

namespace TateFirmware.Boot

open LibGeneric Support

/-! ## Writing -/

/-- The bytes of `htonl(n)`. -/
def htonlBytes (n : ℕ) : List UInt8 :=
  [UInt8.ofNat (n / 2 ^ 24), UInt8.ofNat (n / 2 ^ 16),
    UInt8.ofNat (n / 2 ^ 8), UInt8.ofNat n]

/-- The options of `mkimage`. -/
structure MkimageOptions where
  addr : ℕ
  ep : ℕ
  os : UInt8
  arch : UInt8
  type : UInt8
  comp : UInt8
  name : List UInt8
  xflag : Bool

/-- What `mkimage` takes from its host: the time of the image, and the byte on
the stack behind `zero`. -/
structure MkimageHost where
  mtime : ℕ
  behindZero : UInt8

/-- The `int` of a 32-bit word. -/
def intOfWord (n : ℕ) : ℤ :=
  if n % 2 ^ 32 < 2 ^ 31 then (n % 2 ^ 32 : ℕ)
  else (n % 2 ^ 32 : ℕ) - (2 ^ 32 : ℤ)

/-- The padding that `copy_file` writes behind `size` bytes. -/
def padding (host : MkimageHost) (size : ℤ) : List UInt8 :=
  let tail := size.tmod 4
  if tail ≠ 0 then
    ([0, 0, 0, 0, host.behindZero] : List UInt8).take (4 - tail).toNat
  else []

/-- `copy_file`: what it appends to the image, and `none` when it exits. -/
def copyFile (host : MkimageHost) (xflag pad : Bool) (file : List UInt8) :
    Option (List UInt8) :=
  if xflag ∧ (file.length % 2 ^ 32 < imageHeaderSize ∨
      ¬ ∀ p ∈ file.take imageHeaderSize, p = 0xff) then none
  else
    let offset := if xflag then imageHeaderSize else 0
    let size := intOfWord (file.length + 2 ^ 32 - offset)
    -- a negative size is no length for `write`, which returns -1
    if 0 ≤ size ∨ size = -1 then
      some ((file.drop offset).take size.toNat ++
        if pad then padding host size else [])
    else none

/-- The loop over the data files. -/
def copyFiles (host : MkimageHost) (xflag : Bool) :
    List (List UInt8) → Option (List UInt8)
  | [] => some []
  | [file] => copyFile host xflag false file
  | file :: files =>
      match copyFile host xflag true file, copyFiles host xflag files with
      | some bytes, some rest => some (bytes ++ rest)
      | _, _ => none

/-- The sizes of the data files, and the terminator. -/
def lenTable (files : List (List UInt8)) : List UInt8 :=
  files.flatMap (fun file => htonlBytes file.length) ++ htonlBytes 0

/-- The header with a checksum. -/
def buildHeader (opts : MkimageOptions) (host : MkimageHost)
    (data : List UInt8) (hcrc : ℕ) : List UInt8 :=
  htonlBytes ihMagicValue ++ htonlBytes hcrc ++ htonlBytes host.mtime ++
    htonlBytes data.length ++ htonlBytes opts.addr ++ htonlBytes opts.ep ++
    htonlBytes (crc32 0 data).toNat ++
    [opts.os, opts.arch, opts.type, opts.comp] ++
    ((cstr opts.name).take 32 ++
      List.replicate (32 - (cstr opts.name).length) 0)

/-- The image that `mkimage` writes for a multi-file image. -/
def mkimage (opts : MkimageOptions) (host : MkimageHost)
    (files : List (List UInt8)) : Option (List UInt8) :=
  match copyFiles host opts.xflag files with
  | none => none
  | some body =>
      let data := lenTable files ++ body
      let hcrc := (crc32 0 (buildHeader opts host data 0)).toNat
      some (buildHeader opts host data hcrc ++ data)

/-! ## Reading -/

/-- The part of `do_bootm_linux` that looks for the initrd in the image that is
booted: `data` and `len`, and `none` when the loop does not end. -/
def multiInitrd (mem : Memory UInt8) (hdr : List UInt8) (table : ℕ) :
    Option (ℕ × ℕ) :=
  if ihType hdr = ihTypeMulti ∧ lenPtr mem table 1 ≠ 0 then
    let tail := lenPtr mem table 0 % 4
    match countAllLens mem table with
    | none => none
    | some n =>
        let data := table + 8 + 4 * n + lenPtr mem table 0
        let data := if tail ≠ 0 then data + (4 - tail) else data
        some (data % 2 ^ 32, lenPtr mem table 1)
  else some (0, 0)

inductive ImxtractResult where
  | returned (rcode : ℕ)
  /-- The loop over the lengths does not end. -/
  | hung
  /-- `fileaddr` and `filesize`, and memory. -/
  | extracted (fileaddr filesize : ℕ) (mem : Memory UInt8)

/-- The loop of `do_imgextract` over the lengths, which looks at `n` more of
them: how many there are, and `data`. -/
def extractLoop (mem : Memory UInt8) (table : ℕ) (part : Option ℤ) :
    ℕ → ℕ → ℕ → Option (ℕ × ℕ)
  | 0, _, _ => none
  | n + 1, i, data =>
      if lenPtr mem table i = 0 then some (i, data)
      else
        let data := data + 4
        let data :=
          match part with
          | none => data
          | some part =>
              if (i : ℤ) < part then
                let len := lenPtr mem table i
                let tail := len % 4
                if tail ≠ 0 then data + len + (4 - tail) else data + len
              else data
        extractLoop mem table part n (i + 1) data

/-- The loop over memory, which holds `2^30` words. -/
def extractAllLens (mem : Memory UInt8) (table : ℕ) (part : Option ℤ) :
    Option (ℕ × ℕ) :=
  extractLoop mem table part (2 ^ 30) 0 (table + 4)

/-- What `do_imgextract` does with part `k`, when it has found `count` lengths
and its loop has left `data`. -/
def takePart (mem : Memory UInt8) (table count data : ℕ)
    (part dest : Option ℕ) : ImxtractResult :=
  if ∃ k ∈ part, (count : ℤ) ≤ intOfWord k then .returned 1
  else
    let data := data % 2 ^ 32
    let len := lenPtr mem table (part.getD 0)
    let mem := match dest with
      | none => mem
      | some dest => mem.copyWrap dest (mem.wrap.read data len)
    .extracted data len mem

/-- `do_imgextract` with its arguments read: `addr`, and `part` and `dest` when
they are given. -/
def imgextract (env : BootEnv) (mem : Memory UInt8) (addr : ℕ)
    (part dest : Option ℕ) : ImxtractResult :=
  if ihMagic (headerAt mem addr) ≠ ihMagicValue then .returned 1
  else if headerCrc (headerAt mem addr) ≠ ihHcrc (headerAt mem addr) then
    .returned 1
  else if ihType (headerAt mem addr) ≠ ihTypeMulti then .returned 1
  else if ihComp (headerAt mem addr) ≠ ihCompNone then .returned 1
  else if env.verifies ∧ dataCrc mem addr ≠ ihDcrc (headerAt mem addr) then
    .returned 1
  else
    match extractAllLens mem ((addr + imageHeaderSize) % 2 ^ 32)
      (part.map intOfWord) with
    | none => .hung
    | some (count, data) =>
        takePart mem ((addr + imageHeaderSize) % 2 ^ 32) count data part dest

/-- `do_imgextract`; `argv` are the arguments behind the command name. -/
def doImgextract (env : BootEnv) (mem : Memory UInt8)
    (argv : List (List UInt8)) : ImxtractResult :=
  let number (arg : List UInt8) := (simpleStrtoul arg 16).1
  imgextract env mem ((argv[0]?.map number).getD env.loadAddr)
    (argv[1]?.map number) (argv[2]?.map number)

end TateFirmware.Boot
