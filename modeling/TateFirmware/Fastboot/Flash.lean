import TateFirmware.Fastboot.ParseEnv

/-!
# Flashing and erasing partitions

The bodies of the `flash:`, `multiflash:`, `mmcwrite:` and `erase:` commands.
Each returns the response text and the new state.  All NAND accesses are
compiled out (`#if 0`), so on NAND boards `write_to_ptn` only records block
values in the environment and fails.
-/

namespace TateFirmware.Fastboot

open Support LibGeneric

local instance slotNeZero : NeZero 2 := ⟨two_ne_zero⟩

/-- The slot of the eMMC on every board but the Panda. -/
def emmcSlot : Mmc.Slot := 1

/-! ## NAND -/

/-- `save_block_values(ptn, 0, 0)`: the variables are being unset. -/
def saveBlockValuesFailed (ptn : Ptentry) : List EnvUpdate :=
  [⟨ptn.name ++ text "_nand_offset", some []⟩,
    ⟨ptn.name ++ text "_nand_size", some []⟩]

/-- `write_to_ptn`: with the NAND accesses compiled out `ret` stays `1`, and
the first repetition ends the loop. -/
def writeToPtn (ptn : Ptentry) (st : State) : ℕ × State :=
  let normal := !ptn.has flagsWriteNextGoodBlock &&
    !ptn.has flagsWriteContiguousBlock
  (1, { st with
    envUpdates := st.envUpdates ++
      if normal then saveBlockValuesFailed ptn else [] })

/-- `flash:` on NAND. -/
def flashNand (name : List UInt8) (st : State) : List UInt8 × State :=
  if st.downloadBytes = 0 then (text "FAILno image downloaded", st)
  else
    match findEntry st.ptable name with
    | none => (text "FAILpartition does not exist", st)
    | some ptn =>
        if ptn.length < st.downloadBytes ∧ ¬ ptn.has flagsWriteEnv then
          (text "FAILimage too large for partition", st)
        else if ptn.has flagsWriteEnv then
          -- Not really a flash write but rather a saveenv.
          let r := saveenvToPtn st.downloadBytesUnpadded st.transferBuffer
          let st := { st with
            transferBuffer := r.buff
            envUpdates := st.envUpdates ++ r.updates }
          if r.ret ≠ 0 then (text "FAIL" ++ r.errString, st)
          else (text "OKAY", st)
        else
          let (ret, st) := writeToPtn ptn st
          if ret ≠ 0 then (text "FAILfailed to flash partition", st)
          else (text "OKAY", st)

/-! ## eMMC -/

/-- The first chunk of `write_to_ptn_emmc`: initialise the card and look for a
sparse header in the transfer buffer. -/
def beginWrite (ptn : Ptentry) (st : State) : State :=
  let mmc := Mmc.mmcInit emmcSlot st.mmc
  if Sparse.headerMagic st.transferBuffer.cell = Sparse.sparseHeaderMagic then
    { st with
      mmc := mmc
      sparse := Sparse.doUnsparseStart ptn.start emmcSlot st.sparse
      mmcwriteIsSparsed := true }
  else { st with mmc := mmc, mmcwriteIsSparsed := false }

/-- The bytes of the last download. -/
def State.download (st : State) : List UInt8 :=
  st.transferBuffer.cell.read 0 st.downloadBytes

/-- The write of `write_to_ptn_emmc` for a sparse image. -/
def writeSparse (st : State) : ℕ × State :=
  let (ret, sparse, mmc) :=
    Sparse.doUnsparseProcess st.download st.sparse st.mmc
  (ret, { st with sparse := sparse, mmc := mmc })

/-- The write of `write_to_ptn_emmc` for a raw image. -/
def writeRaw (ptn : Ptentry) (offset : ℕ) (st : State) : ℕ × State :=
  let (ret, mmc) := Mmc.mmcWrite emmcSlot st.transferBuffer.cell
    ((ptn.start + offset / 512) % 2 ^ 32) st.downloadBytes st.mmc
  (ret, { st with mmc := mmc })

/-- `write_to_ptn_emmc(ptn, offset, response)`: whether it succeeded (status
`0`), the response and the state. -/
def writeToPtnEmmc (ptn : Ptentry) (offset : ℕ) (st : State) :
    Bool × List UInt8 × State :=
  let st := if offset = 0 then beginWrite ptn st else st
  if st.mmcwriteIsSparsed then
    let (ret, st) := writeSparse st
    if ret = 0 then (true, text "OKAY", st)
    else (false, text "FAIL: Sparsed Write", st)
  else
    let (ret, st) := writeRaw ptn offset st
    if ret ≤ 0 then (false, text "FAIL: Write partition", st)
    else (true, text "OKAY", st)

/-- The environment file of `flash:` on eMMC: line feeds become NUL bytes and
the text replaces the environment in RAM.  The environment of this board is
nowhere, so `do_saveenv` saves nothing. -/
def flashEnvironment (st : State) : State :=
  let buffer := (List.range st.downloadBytes).foldl
    (fun b i => if b.cell i = 0x0a then b.store i 0x00 else b)
    st.transferBuffer
  { st with
    transferBuffer := buffer
    envData := (st.envData.fill 0 envSize 0).copyIn 0
      (buffer.cell.read 0 st.downloadBytes) }

/-- `flash:` on eMMC. -/
def flashEmmc (name : List UInt8) (st : State) : List UInt8 × State :=
  if st.downloadBytes = 0 then (text "FAILno image downloaded", st)
  else
    match findEntry st.ptable name with
    | none => (text "FAILpartition does not exist", st)
    | some ptn =>
        if ptn.length < st.downloadBytes ∧ ¬ ptn.has flagsWriteEnv then
          (text "FAILimage too large for partition", st)
        else if ptn.has flagsWriteEnv then (text "OKAY", flashEnvironment st)
        else
          let (_, response, st) := writeToPtnEmmc ptn 0 st
          (response, st)

/-- `flash:<name>`. -/
def flash (iface : Interface) (name : List UInt8) (st : State) :
    List UInt8 × State :=
  match iface.storageMedium with
  | .nand => flashNand name st
  | .emmc => flashEmmc name st

/-- The statics of `multiflash:` when it is about to write to `ptn`. -/
def selectMultiflash (ptn : Option ℕ) (st : State) : State :=
  if ptn ≠ st.multiflashPtn then
    { st with multiflashPtn := ptn, multiflashOffset := 0 }
  else st

/-- The statics of `multiflash:` behind a chunk that was written. -/
def advanceMultiflash (last : Bool) (st : State) : State :=
  if last then { st with multiflashOffset := 0, multiflashPtn := none }
  else
    { st with
      multiflashOffset := (st.multiflashOffset + st.downloadBytes) % 2 ^ 32 }

/-- `multiflash:` on eMMC, with the flag that this is the last chunk. -/
def multiflashEmmc (last : Bool) (name : List UInt8) (st : State) :
    List UInt8 × State :=
  if st.downloadBytes = 0 then (text "FAILno image downloaded", st)
  else
    let st := selectMultiflash (fastbootFlashFindPtn st.ptable name) st
    match findEntry st.ptable name with
    | none => (text "FAILpartition does not exist", st)
    | some ptn =>
        if ptn.has flagsWriteEnv then
          (text "FAILpartition not supported with multiflash", st)
        else if ptn.length <
            (st.downloadBytes + st.multiflashOffset) % 2 ^ 32 then
          (text "FAILimage too large for partition", st)
        else
          let (ok, response, st) := writeToPtnEmmc ptn st.multiflashOffset st
          (response, if ok then advanceMultiflash last st else st)

/-- `multiflash:<last>:<name>`. -/
def multiflash (iface : Interface) (last : Bool) (name : List UInt8)
    (st : State) : List UInt8 × State :=
  match iface.storageMedium with
  | .nand => (text "FAILmultiflash is not supported for NAND", st)
  | .emmc => multiflashEmmc last name st

/-- `mmcwrite:<controller>:<name>`. -/
def mmcwrite (controller name : List UInt8) (st : State) :
    List UInt8 × State :=
  if st.downloadBytes = 0 then (text "FAILno image downloaded", st)
  else
    let st := { st with mmcControllerNo := (simpleStrtoul controller 10).1 }
    match findEntry st.ptable name with
    | none => (text "FAILpartition does not exist", st)
    | some ptn =>
        let (_, response, st) := writeToPtnEmmc ptn 0 st
        (response, st)

/-! ## Erasing -/

/-- Initialise and erase through the `mmc` command, as `erase:` on eMMC and
`mmcerase:` do.  The 64-bit length is printed with `%x`, which prints its low
word. -/
def eraseEmmc (ptn : Ptentry) (st : State) : List UInt8 × State :=
  let slotNo := formatInt st.mmcControllerNo
  let length := text "0x" ++ formatHex (ptn.length % 2 ^ 32)
  let start := text "0x" ++ formatHex ptn.start
  let (_, mmc) := Mmc.doMmcInit slotNo st.mmc
  let (ret, mmc) := Mmc.doMmcErase slotNo start length mmc
  (if ret ≠ 0 then text "FAIL: Erase partition" else text "OKAY",
    { st with mmc := mmc })

/-- `erase:<name>`. -/
def erase (iface : Interface) (name : List UInt8) (st : State) :
    List UInt8 × State :=
  match iface.storageMedium with
  | .nand =>
      match findEntry st.ptable name with
      | none => (text "FAILpartition does not exist", st)
      | some _ => (text "OKAY", st)
  | .emmc =>
      let st := { st with mmcControllerNo := emmcSlot.val }
      match findEntry st.ptable name with
      | none => (text "FAIL: partition doesn't exist", st)
      | some ptn => eraseEmmc ptn st

/-- `mmcerase:<controller>:<name>`. -/
def mmcerase (controller name : List UInt8) (st : State) :
    List UInt8 × State :=
  let st := { st with mmcControllerNo := (simpleStrtoul controller 10).1 }
  match findEntry st.ptable name with
  | none => (text "FAIL: partition doesn't exist", st)
  | some ptn => eraseEmmc ptn st

end TateFirmware.Fastboot
