import TateFirmware.Mtd.Devices
import TateFirmware.Nand.Util

/-!
# The `nand` command

`arg_off_size` and `do_nand` of `common/cmd_nand.c`, as far as they erase and
read and write with bad blocks skipped.  An offset is given as a number or as a
partition, `nand0,1` for the second one of the first NAND device.
-/

namespace TateFirmware.Nand

open LibGeneric Mtd Support

/-! ## Partitions by name -/

/-- `id_parse`: the type and the number of a device, and what follows. -/
def idParse (id : List UInt8) : Option (DevType × ℕ × List UInt8) :=
  let digits (type : DevType) (p : List UInt8) :=
    if isdigit (peek p) then
      some (type, (simpleStrtoul p 0).1 % 2 ^ 8, (simpleStrtoul p 0).2)
    else none
  if startsWith id "nand" then digits .nand (id.drop 4)
  else if startsWith id "nor" then digits .nor (id.drop 3)
  else none

/-- `find_dev_and_part`. -/
def findDevAndPart (m : MtdState) (id : List UInt8) :
    Option (MtdDevice × PartInfo) :=
  match idParse id with
  | none => none
  | some (type, dnum, p) =>
      if peek p ≠ ch ',' ∨ peek p.tail = 0 then none
      else if (simpleStrtoul p.tail 0).2 ≠ [] then none
      else
        Mtd.findDevAndPart m type dnum ((simpleStrtoul p.tail 0).1 % 2 ^ 8)

/-- `str2long`. -/
def str2long (p : List UInt8) : Option ℕ :=
  if p ≠ [] ∧ (simpleStrtoul p 16).2 = [] then some (simpleStrtoul p 16).1
  else none

/-! ## The range of a command -/

/-- What `arg_off_size` sets: `off`, `size` and the table `nand_info`. -/
structure OffSize where
  off : ℕ
  size : ℕ
  nandInfo : ℕ → NandInfo

/-- The device and the partition a name stands for; `mtd` is what
`mtdparts_init` leaves and returns. -/
def namedPart (mtd : MtdState × ℕ) (name : List UInt8) :
    Option (MtdDevice × PartInfo) :=
  if (str2long name).isNone ∧ mtd.2 = 0 then findDevAndPart mtd.1 name else none

/-- `arg_off_size`, with `nand_curr_device` as `curr`. -/
def argOffSize (mtd : MtdState × ℕ) (nandInfo : ℕ → NandInfo) (curr : ℕ)
    (argv : List (List UInt8)) : Option OffSize :=
  match argv.head?.bind (namedPart mtd) with
  | some (dev, part) =>
      match dev.id.type with
      | .nor => none
      | .nand =>
          let table := Function.update nandInfo curr (nandInfo dev.id.num)
          match argv.tail with
          | [] => some ⟨part.offset, part.size, table⟩
          | size :: _ =>
              (str2long size).map fun size =>
                ⟨part.offset, if part.size < size then part.size else size, table⟩
  | none =>
      match argv with
      | [] => some ⟨0, (nandInfo curr).size, nandInfo⟩
      | off :: argv =>
          (str2long off).bind fun off =>
            match argv with
            | [] =>
                some ⟨off, ((nandInfo curr).size + 2 ^ 32 - off) % 2 ^ 32,
                  nandInfo⟩
            | size :: _ => (str2long size).map fun size => ⟨off, size, nandInfo⟩

/-! ## The command -/

/-- What a command leaves: its result, the device, the bytes read, and the
operations done. -/
structure CommandRun (σ : Type*) where
  ret : Option ℤ
  device : σ
  bytes : List UInt8
  accesses : List Access

/-- The result of a command. -/
def commandReturn (ret : Option ℤ) : Option ℤ :=
  ret.map fun ret => if ret = 0 then 0 else 1

local instance lawfulCommand : LawfulBEq (List UInt8) := inferInstance

/-- The suffixes that have bad blocks skipped. -/
def skipsBad (cmd : List UInt8) : Bool :=
  cmd.dropWhile (· ≠ ch '.') ∈ [text ".jffs2", text ".e", text ".i"]

/-- The options `do_nand` sets to write with bad blocks skipped. -/
def writeJffs2 (buffer : Memory UInt8) (length offset : ℕ) : NandWriteOptions where
  buffer := buffer
  length := length
  offset := offset
  pad := true
  blockalign := 1

section Command

variable {σ : Type*} (ops : NandOps σ) (memory : Memory UInt8) (fuel : ℕ)
  (device : σ)

/-- `nand erase`. -/
def doNandErase (jffs2 : Bool) (range : OffSize) (curr : ℕ) : CommandRun σ :=
  let run := nandEraseOpts (range.nandInfo curr) ops
    ⟨range.size, range.off, jffs2⟩ fuel device
  ⟨commandReturn run.ret, run.state, [], run.accesses⟩

/-- `nand read.jffs2`. -/
def doNandRead (range : OffSize) (curr : ℕ) : CommandRun σ :=
  let run := nandReadOpts (range.nandInfo curr) ops ⟨range.size, range.off⟩ fuel
    device
  ⟨commandReturn run.ret, device, run.state, run.pages.map .read⟩

/-- `nand write.jffs2` from an address. -/
def doNandWrite (addr : ℕ) (range : OffSize) (curr : ℕ) : CommandRun σ :=
  let run := nandWriteOpts (range.nandInfo curr) ops
    (writeJffs2 (memory.shift addr) range.size range.off) fuel device
  ⟨commandReturn run.ret, run.state, [], run.pages.map .write⟩

/-- `do_nand` with the arguments behind `nand`; `none` for the commands that are
not followed here. -/
def doNand (mtd : MtdState × ℕ) (nandInfo : ℕ → NandInfo) (curr : ℕ)
    (argv : List (List UInt8)) : Option (CommandRun σ) :=
  match argv with
  | [] => none
  | cmd :: args =>
      if cmd = text "erase" then
        let clean := args.head? = some (text "clean")
        match argOffSize mtd nandInfo curr (if clean then args.tail else args) with
        | none => some ⟨some 1, device, [], []⟩
        | some range => some (doNandErase ops fuel device clean range curr)
      else if startsWith cmd "read" ∨ startsWith cmd "write" then
        match args with
        | addr :: off :: args =>
            match argOffSize mtd nandInfo curr (off :: args) with
            | none => some ⟨some 1, device, [], []⟩
            | some range =>
                if ¬skipsBad cmd then none
                else if startsWith cmd "read" then
                  some (doNandRead ops fuel device range curr)
                else
                  some (doNandWrite ops memory fuel device
                    (simpleStrtoul addr 16).1 range curr)
        | _ => some ⟨some 1, device, [], []⟩
      else none

end Command

end TateFirmware.Nand
