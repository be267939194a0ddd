import TateFirmware.LibGeneric.CString
import TateFirmware.Support.Records

/-!
# The tags for the kernel

The tag list that `do_bootm_linux` and `do_booti_linux` of
`lib_arm/armlinux.c` leave for the kernel.  Memory, command line and initrd
tags are always configured; the others are switched by `AtagConfig`.  What the
board and IDME getters return is given by `Getters`: a getter that fails is
`none`, and one that succeeds has left any bytes.  `Setup` remembers the tags
that have been set up.
-/

namespace TateFirmware.Boot

open LibGeneric Support

/-! ## Tags -/

/-- `ATAG_NONE`. -/
def atagNone : ℕ := 0

/-- `ATAG_CORE`. -/
def atagCore : ℕ := 0x54410001

/-- `ATAG_MEM`. -/
def atagMem : ℕ := 0x54410002

/-- `ATAG_INITRD2`. -/
def atagInitrd2 : ℕ := 0x54420005

/-- `ATAG_SERIAL`. -/
def atagSerial : ℕ := 0x54410006

/-- `ATAG_REVISION`. -/
def atagRevision : ℕ := 0x54410007

/-- `ATAG_VIDEOLFB`. -/
def atagVideolfb : ℕ := 0x54410008

/-- `ATAG_CMDLINE`. -/
def atagCmdline : ℕ := 0x54410009

/-- `ATAG_SERIAL16`. -/
def atagSerial16 : ℕ := 0x5441000a

/-- `ATAG_REVISION16`. -/
def atagRevision16 : ℕ := 0x5441000b

/-- `ATAG_MACADDR`. -/
def atagMacaddr : ℕ := 0x5441000c

/-- `ATAG_BOOTMODE`. -/
def atagBootmode : ℕ := 0x5441000d

/-- `ATAG_GYROCAL`. -/
def atagGyrocal : ℕ := 0x5441000e

/-- `tag_size`, of the size of the payload in bytes. -/
def tagSize (size : ℕ) : ℕ := (8 + size) / 4

/-- A tag as its setup function writes it: the fields of the header, and the
members of the payload that are set, at their offsets. -/
structure Tag where
  tag : ℕ
  size : ℕ
  payload : List (ℕ × List UInt8)
deriving DecidableEq

/-- `tag_next`. -/
def tagNext (mem : Memory UInt8) (t : ℕ) : ℕ := t + 4 * mem.leWord t

/-- `for_each_tag`: the tags visited, and the tag that ends the loop, looking
at `n` tags at most. -/
def forEachTag (mem : Memory UInt8) : ℕ → ℕ → Option (List ℕ × ℕ)
  | 0, _ => none
  | n + 1, t =>
      if mem.leWord t = 0 then some ([], t)
      else
        (forEachTag mem n (tagNext mem t)).map fun (visited, last) =>
          (t :: visited, last)

/-! ## The board -/

/-- The tags that can be switched. -/
structure AtagConfig where
  serialTag : Bool
  revisionTag : Bool
  revision16Tag : Bool
  serial16Tag : Bool
  macaddrTag : Bool
  bootmodeTag : Bool
  gyrocalTag : Bool
  /-- `CONFIG_VFD` or `CONFIG_LCD`. -/
  videolfbTag : Bool

/-- What the getters of the board and of IDME leave, as memory seen from the
pointer or the buffer. -/
structure Getters where
  /-- `get_board_serial`: the low and the high word. -/
  boardSerial : ℕ × ℕ
  boardRev : ℕ
  idmeBoardId : Option (Memory UInt8)
  idmeBoardSerial : Option (Memory UInt8)
  mac : Option (Memory UInt8)
  bt : Option (Memory UInt8)
  sec : Option (Memory UInt8)
  bootmode : Option (Memory UInt8)
  postmode : Option (Memory UInt8)
  gyrocal : Option (Memory UInt8)
  fbBase : ℕ
  fbSize : ℕ

/-- A bank of RAM. -/
structure DramBank where
  start : ℕ
  size : ℕ

/-- The board information. -/
structure BdInfo where
  biBootParams : ℕ
  biDram : List DramBank

/-- A C string.  An object has less than 2 ^ 31 bytes. -/
abbrev CommandLine := { s : List UInt8 // s.length < 2 ^ 31 }

/-! ## Setting up -/

/-- Memory, `params`, and the tags set up so far. -/
structure Setup where
  mem : Memory UInt8
  params : ℕ
  tags : List Tag

/-- A tag is written at `params`, and `params` goes to the next tag. -/
def Setup.put (t : Tag) (s : Setup) : Setup :=
  let mem := s.mem.copyIn (s.params + 4) (leBytes t.tag)
  let mem := mem.copyIn s.params (leBytes t.size)
  let mem := mem.writeParts (s.params + 8) t.payload
  { mem := mem, params := tagNext mem s.params, tags := s.tags ++ [t] }

/-- `setup_start_tag`. -/
def setupStartTag (bd : BdInfo) (mem : Memory UInt8) : Setup :=
  Setup.put
    ⟨atagCore, tagSize 12,
      [(0, leBytes 0), (4, leBytes 0), (8, leBytes 0)]⟩
    ⟨mem, bd.biBootParams, []⟩

/-- `setup_serial_tag`. -/
def setupSerialTag (get : Getters) (s : Setup) : Setup :=
  s.put ⟨atagSerial, tagSize 8,
    [(0, leBytes get.boardSerial.1), (4, leBytes get.boardSerial.2)]⟩

/-- `setup_revision_tag`. -/
def setupRevisionTag (get : Getters) (s : Setup) : Setup :=
  s.put ⟨atagRevision, tagSize 4, [(0, leBytes get.boardRev)]⟩

/-- `setup_revision16_tag`. -/
def setupRevision16Tag (get : Getters) (s : Setup) : Setup :=
  match get.idmeBoardId with
  | none => s
  | some rev => s.put ⟨atagRevision16, tagSize 16, [(0, rev.read 0 16)]⟩

/-- `setup_serial16_tag`. -/
def setupSerial16Tag (get : Getters) (s : Setup) : Setup :=
  match get.idmeBoardSerial with
  | none => s
  | some sn => s.put ⟨atagSerial16, tagSize 16, [(0, sn.read 0 16)]⟩

/-- `setup_macaddr_tag`. -/
def setupMacaddrTag (get : Getters) (s : Setup) : Setup :=
  match get.mac, get.bt, get.sec with
  | some mac, some bt, some sec =>
      s.put ⟨atagMacaddr, tagSize 64,
        [(0, sec.read 0 32), (32, mac.read 0 16), (48, bt.read 0 16)]⟩
  | _, _, _ => s

/-- `setup_bootmode_tag`. -/
def setupBootmodeTag (get : Getters) (s : Setup) : Setup :=
  match get.bootmode, get.postmode with
  | some bootmode, some postmode =>
      s.put ⟨atagBootmode, tagSize 32,
        [(0, bootmode.read 0 16), (16, postmode.read 0 16)]⟩
  | _, _ => s

/-- `setup_gyrocal_tag`. -/
def setupGyrocalTag (get : Getters) (s : Setup) : Setup :=
  match get.gyrocal with
  | none => s
  | some gyrocal => s.put ⟨atagGyrocal, tagSize 36, [(0, gyrocal.read 0 36)]⟩

/-- `setup_memory_tags`. -/
def setupMemoryTags (bd : BdInfo) (s : Setup) : Setup :=
  bd.biDram.foldl
    (fun s bank =>
      s.put ⟨atagMem, tagSize 8,
        [(4, leBytes bank.start), (0, leBytes bank.size)]⟩) s

/-- The command line without leading blanks. -/
def eatBlanks (commandline : List UInt8) : List UInt8 :=
  (cstr commandline).dropWhile (· = ch ' ')

/-- `setup_commandline_tag`. -/
def setupCommandlineTag (commandline : Option CommandLine) (s : Setup) :
    Setup :=
  match commandline with
  | none => s
  | some commandline =>
      let p := eatBlanks commandline
      if p = [] then s
      else s.put ⟨atagCmdline, (8 + p.length + 1 + 4) / 4, [(0, p ++ [0])]⟩

/-- `setup_initrd_tag`. -/
def setupInitrdTag (initrdStart initrdEnd : ℕ) (s : Setup) : Setup :=
  s.put ⟨atagInitrd2, tagSize 8,
    [(0, leBytes initrdStart),
      (4, leBytes ((initrdEnd + 2 ^ 32 - initrdStart) % 2 ^ 32))]⟩

/-- `setup_videolfb_tag`. -/
def setupVideolfbTag (get : Getters) (s : Setup) : Setup :=
  s.put ⟨atagVideolfb, tagSize 24,
    [(8, leBytes get.fbBase), (12, leBytes get.fbSize)]⟩

/-- `setup_end_tag`. -/
def setupEndTag (s : Setup) : Setup :=
  let mem := s.mem.copyIn (s.params + 4) (leBytes atagNone)
  { s with mem := mem.copyIn s.params (leBytes 0) }

/-- A tag that is configured. -/
def configured (switch : Bool) (setup : Setup → Setup) (s : Setup) : Setup :=
  if switch then setup s else s

section Tags

variable (cfg : AtagConfig) (bd : BdInfo) (get : Getters)

/-- The tags from `setup_start_tag` up to `setup_commandline_tag`. -/
def setupTags (commandline : Option CommandLine) (mem : Memory UInt8) :
    Setup :=
  let s := setupStartTag bd mem
  let s := configured cfg.serialTag (setupSerialTag get) s
  let s := configured cfg.revisionTag (setupRevisionTag get) s
  let s := configured cfg.revision16Tag (setupRevision16Tag get) s
  let s := configured cfg.serial16Tag (setupSerial16Tag get) s
  let s := configured cfg.macaddrTag (setupMacaddrTag get) s
  let s := configured cfg.bootmodeTag (setupBootmodeTag get) s
  let s := configured cfg.gyrocalTag (setupGyrocalTag get) s
  let s := setupMemoryTags bd s
  setupCommandlineTag commandline s

/-- The tags of `do_bootm_linux`, where the initrd is at `data` and `len`
bytes long. -/
def bootmLinuxTags (commandline : Option CommandLine) (data len : ℕ)
    (mem : Memory UInt8) : Setup :=
  let initrdStart := if data ≠ 0 then data else 0
  let initrdEnd := if data ≠ 0 then (data + len) % 2 ^ 32 else 0
  let s := setupTags cfg bd get commandline mem
  let s :=
    if initrdStart ≠ 0 ∧ initrdEnd ≠ 0 then
      setupInitrdTag initrdStart initrdEnd s
    else s
  setupEndTag (configured cfg.videolfbTag (setupVideolfbTag get) s)

/-- The fields of `boot_img_hdr` that `do_booti_linux` reads. -/
structure BootImgHdr where
  kernelAddr : ℕ
  ramdiskAddr : ℕ
  ramdiskSize : ℕ
  cmdline : CommandLine

/-- The tags of `do_booti_linux`. -/
def bootiLinuxTags (hdr : BootImgHdr) (mem : Memory UInt8) : Setup :=
  let initrdStart := hdr.ramdiskAddr
  let initrdEnd := (initrdStart + hdr.ramdiskSize) % 2 ^ 32
  let s := setupTags cfg bd get (some hdr.cmdline) mem
  let s :=
    if hdr.ramdiskSize ≠ 0 then setupInitrdTag initrdStart initrdEnd s else s
  setupEndTag (configured cfg.videolfbTag (setupVideolfbTag get) s)

end Tags

end TateFirmware.Boot
