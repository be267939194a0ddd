import TateFirmware.Nand.Blocks
import TateFirmware.Support.Memory

/-!
# Erasing, writing and reading a NAND device

`nand_erase_opts`, `nand_write_opts` and `nand_read_opts` of
`drivers/nand/nand_util.c`, without the options for the out-of-band area.  The
loops that write and read pages skip bad blocks in the same way; what they do
with a page is a parameter of one loop.  A loop that runs out of fuel has the
operations it has done by then.
-/

namespace TateFirmware.Nand

open Support

/-- The functions of a NAND device behind `struct mtd_info`. -/
structure NandOps (σ : Type*) where
  /-- `nand_block_checkbad`. -/
  checkbad : ℤ → Bool
  erase : σ → ℕ → ℤ × σ
  writeOob : σ → ℕ → List UInt8 → ℤ × σ
  write : σ → ℕ → List UInt8 → ℤ × σ
  /-- The result, and the `readlen` bytes read. -/
  read : σ → ℕ → ℤ × List UInt8

/-! ## The loop over the pages -/

/-- How a loop ends; `running` while it has not. -/
inductive Status where
  | running
  | failed
  | finished
deriving DecidableEq

/-- What a loop leaves: the length that remains, the state of what it works on,
and the offsets of the pages it has used. -/
structure PageRun (τ : Type*) where
  status : Status
  imglen : ℤ
  state : τ
  pages : List ℕ

/-- One page put in front. -/
def PageRun.cons {τ : Type*} (page : ℕ) (run : PageRun τ) : PageRun τ :=
  { run with pages := page :: run.pages }

@[simp] theorem PageRun.cons_status {τ : Type*} (page : ℕ) (run : PageRun τ) :
    (run.cons page).status = run.status := rfl

@[simp] theorem PageRun.cons_imglen {τ : Type*} (page : ℕ) (run : PageRun τ) :
    (run.cons page).imglen = run.imglen := rfl

@[simp] theorem PageRun.cons_state {τ : Type*} (page : ℕ) (run : PageRun τ) :
    (run.cons page).state = run.state := rfl

@[simp] theorem PageRun.cons_pages {τ : Type*} (page : ℕ) (run : PageRun τ) :
    (run.cons page).pages = page :: run.pages := rfl

/-- The `while` loop of `nand_write_opts` and `nand_read_opts`.  `page` does one
page and returns its result, the length moved and the state. -/
def pageLoop {τ : Type*} (info : NandInfo) (checkbad : ℤ → Bool)
    (align step fuel : ℕ) (page : τ → ℕ → ℤ → ℤ × ℤ × τ) :
    ℕ → ℕ → ℕ → ℤ → τ → PageRun τ
  | 0, _, _, imglen, state => ⟨.running, imglen, state, []⟩
  | n + 1, blockstart, mtdoffset, imglen, state =>
      if imglen ≠ 0 ∧ mtdoffset < info.size then
        match skipBad info checkbad align step fuel fuel blockstart mtdoffset with
        | .running => ⟨.running, imglen, state, []⟩
        | .failed => ⟨.failed, imglen, state, []⟩
        | .found blockstart mtdoffset =>
            match page state mtdoffset imglen with
            | (result, readlen, state) =>
                if result ≠ 0 then ⟨.failed, imglen, state, [mtdoffset]⟩
                else
                  (pageLoop info checkbad align step fuel page n blockstart
                    ((mtdoffset + info.oobblock) % 2 ^ 32) (imglen - readlen)
                    state).cons mtdoffset
      else ⟨.finished, imglen, state, []⟩

attribute [grind =] pageLoop

/-- The pages and the out-of-band areas both loops are made for. -/
def NandInfo.knownPage (info : NandInfo) : Bool :=
  (info.oobsize = 16 ∧ info.oobblock = 512) ∨
    (info.oobsize = 8 ∧ info.oobblock = 256) ∨
    (info.oobsize = 64 ∧ info.oobblock = 2048)

/-- The image does not fit behind the offset. -/
def NandInfo.tooLong (info : NandInfo) (imglen : ℤ) (offset : ℕ) : Bool :=
  (((info.size + 2 ^ 32 - offset) % 2 ^ 32 : ℕ) : ℤ) <
    imglen.tdiv info.oobblock * info.oobblock % 2 ^ 32

/-- The start value of `blockstart`, which is -1. -/
def noBlock : ℕ := 2 ^ 32 - 1

/-- What a function returns, `none` while it is running, with the state and the
pages used. -/
structure Transfer (τ : Type*) where
  ret : Option ℤ
  state : τ
  pages : List ℕ

/-! ## Writing -/

/-- `struct nand_write_options`. -/
structure NandWriteOptions where
  buffer : Memory UInt8
  length : ℕ
  offset : ℕ
  pad : Bool
  blockalign : ℕ

section Functions

variable {σ : Type*} (info : NandInfo) (ops : NandOps σ)

/-- The length of the next page of an image. -/
def writeLength (opts : NandWriteOptions) (imglen : ℤ) : ℤ :=
  if opts.pad ∧ imglen < info.oobblock then imglen else info.oobblock

/-- `data_buf` for the next page, at `pos` in the buffer. -/
def pageData (opts : NandWriteOptions) (pos : ℕ) (imglen : ℤ) : List UInt8 :=
  opts.buffer.read pos (writeLength info opts imglen).toNat ++
    List.replicate (info.oobblock - (writeLength info opts imglen).toNat) 0xFF

/-- One page written; the state is the device and the place in the buffer. -/
def writePage (opts : NandWriteOptions) (state : σ × ℕ) (mtdoffset : ℕ)
    (imglen : ℤ) : ℤ × ℤ × σ × ℕ :=
  match ops.write state.1 mtdoffset (pageData info opts state.2 imglen) with
  | (result, device) =>
      (result, writeLength info opts imglen, device,
        state.2 + (writeLength info opts imglen).toNat)

/-- The label `restoreoob` of `nand_write_opts`. -/
def writeReturn (imglen : ℤ) : ℤ := if 0 < imglen then -1 else 0

/-- `nand_write_opts`. -/
def nandWriteOpts (opts : NandWriteOptions) (fuel : ℕ) (device : σ) :
    Transfer σ :=
  let erasesizeBlockalign :=
    if opts.blockalign = 0 then info.erasesize
    else info.erasesize * opts.blockalign % 2 ^ 32
  let imglen := Int.bmod opts.length (2 ^ 32)
  if ¬info.knownPage then ⟨some (-1), device, []⟩
  else if ¬opts.pad ∧ imglen.tmod info.oobblock ≠ 0 then
    ⟨some (writeReturn imglen), device, []⟩
  else if info.tooLong imglen opts.offset then
    ⟨some (writeReturn imglen), device, []⟩
  else
    let run := pageLoop info ops.checkbad erasesizeBlockalign
      (erasesizeBlockalign / opts.blockalign) fuel (writePage info ops opts)
      fuel noBlock opts.offset imglen (device, 0)
    ⟨if run.status = .running then none else some (writeReturn run.imglen),
      run.state.1, run.pages⟩

/-! ## Reading -/

/-- `struct nand_read_options`, without the buffer the bytes go to. -/
structure NandReadOptions where
  length : ℕ
  offset : ℕ

/-- One page read; the state is what is in the buffer so far. -/
def readPage (device : σ) (buffer : List UInt8) (mtdoffset : ℕ) (imglen : ℤ) :
    ℤ × ℤ × List UInt8 :=
  match ops.read device mtdoffset with
  | (result, dataBuf) =>
      if result ≠ 0 then (result, 0, buffer)
      else if imglen % 2 ^ 32 < dataBuf.length then
        (0, imglen, buffer ++ dataBuf.take imglen.toNat)
      else (0, dataBuf.length, buffer ++ dataBuf)

/-- `nand_read_opts`; the state is the bytes in the buffer. -/
def nandReadOpts (opts : NandReadOptions) (fuel : ℕ) (device : σ) :
    Transfer (List UInt8) :=
  let imglen := Int.bmod opts.length (2 ^ 32)
  if ¬info.knownPage then ⟨some (-1), [], []⟩
  else if info.tooLong imglen opts.offset then ⟨some (-1), [], []⟩
  else
    let run := pageLoop info ops.checkbad info.erasesize info.erasesize fuel
      (readPage ops device) fuel noBlock opts.offset imglen []
    match run.status with
    | .running => ⟨none, run.state, run.pages⟩
    | .failed => ⟨some (-1), run.state, run.pages⟩
    | .finished =>
        ⟨some (if 0 < run.imglen then -1 else 0), run.state, run.pages⟩

/-! ## Erasing -/

/-- An operation on the device, with its offset. -/
inductive Access where
  | erase (addr : ℕ)
  | writeOob (addr : ℕ)
  | write (addr : ℕ)
  | read (addr : ℕ)
deriving DecidableEq

def Access.addr : Access → ℕ
  | .erase addr | .writeOob addr | .write addr | .read addr => addr

/-- What an erase leaves, with the operations done. -/
structure EraseRun (τ : Type*) where
  ret : Option ℤ
  state : τ
  accesses : List Access

/-- Operations put in front. -/
def EraseRun.after {τ : Type*} (accesses : List Access) (run : EraseRun τ) :
    EraseRun τ :=
  { run with accesses := accesses ++ run.accesses }

/-- `struct nand_erase_options`, without `quiet` and `scrub`. -/
structure NandEraseOptions where
  length : ℕ
  offset : ℕ
  jffs2 : Bool

/-- The start of the clean marker in memory, with `JFFS2_MAGIC_BITMASK`,
`JFFS2_NODETYPE_CLEANMARKER` and the length 8. -/
def cleanmarker : List UInt8 := [0x85, 0x19, 0x03, 0x20, 8, 0, 0, 0]

/-- `clmpos` and `clmlen`; `none` where there is no place for a marker. -/
def clmPlace : Option (ℕ × ℕ) :=
  match info.oobfree with
  | some (pos, len) => if len = 0 then none else some (pos, min len 8)
  | none =>
      if info.oobsize = 8 then some (6, 2)
      else if info.oobsize = 16 then some (8, 8)
      else if info.oobsize = 64 then some (16, 8)
      else some (0, 8)

/-- The loop of `nand_erase_opts` up to the address `bound`; `marker` is the
place of a clean marker that is to be written. -/
def eraseLoop (bound : ℕ) (marker : Option (ℕ × ℕ)) : ℕ → ℕ → σ → EraseRun σ
  | 0, _, device => ⟨none, device, []⟩
  | n + 1, addr, device =>
      if addr < bound then
        let next := (addr + info.erasesize) % 2 ^ 32
        if 0 < nandBlockIsbad info ops.checkbad addr then
          eraseLoop bound marker n next device
        else if nandBlockIsbad info ops.checkbad addr < 0 then
          ⟨some (-1), device, []⟩
        else
          match ops.erase device addr with
          | (result, device) =>
              if result ≠ 0 then
                (eraseLoop bound marker n next device).after [.erase addr]
              else
                match marker with
                | none =>
                    (eraseLoop bound marker n next device).after [.erase addr]
                | some (clmpos, clmlen) =>
                    (eraseLoop bound marker n next (ops.writeOob device
                      (addr + clmpos) (cleanmarker.take clmlen)).2).after
                      [.erase addr, .writeOob (addr + clmpos)]
      else ⟨some 0, device, []⟩

/-- `nand_erase_opts`. -/
def nandEraseOpts (opts : NandEraseOptions) (fuel : ℕ) (device : σ) :
    EraseRun σ :=
  let bound := (opts.offset + opts.length) % 2 ^ 32
  if opts.jffs2 then
    match clmPlace info with
    | none => ⟨some (-1), device, []⟩
    | some marker =>
        eraseLoop info ops bound (some marker) fuel opts.offset device
  else eraseLoop info ops bound none fuel opts.offset device

end Functions

end TateFirmware.Nand
