import Mathlib.Data.Nat.Bitwise
import TateFirmware.Support.Memory

/-!
# The OMAP4 MMC host controller

The driver in `cpu/omap4/mmc.c` talks to the controller through registers: it
writes a command and polls `STAT` until the controller reports completion or
an error.  The controller's side is a list of reports, one for every coming
operation, each a list of the `STAT` values the driver will poll.  When a
report (or the list of reports) runs out, the controller completes the
operation normally, so the empty lists describe a controller without faults.

The state also keeps the history the results of this development speak of:
the sectors written and the errors reported, oldest first.
-/

namespace TateFirmware.Mmc

open Support

/-- `MMCSD_SECTOR_SIZE`. -/
def mmcsdSectorSize : ℕ := 512

/-- `BYTE_MODE` and `SECTOR_MODE` addressing. -/
inductive Mode where
  | byteMode
  | sectorMode
deriving DecidableEq, Repr

/-- The fields of `mmc_card_data` that the transfer functions read. -/
structure CardData where
  mode : Mode
  size : ℕ
deriving DecidableEq, Repr

/-- The two controllers `OMAP_HSMMC1` and `OMAP_HSMMC2`. -/
abbrev Slot := Fin 2

/-- One sector stored by a card. -/
structure SectorWrite where
  slot : Slot
  sector : ℕ
  data : List UInt8
deriving DecidableEq, Repr

/-- An error reported by the controller, with the value of `STAT`. -/
inductive ControllerError where
  | command (stat : ℕ)
  | transfer (stat : ℕ)
deriving DecidableEq, Repr

/-- The commands the transfer functions send. -/
inductive Command where
  | cmd12
  | cmd23
  | cmd24
  | cmd25
deriving DecidableEq, Repr

/-- Driver and controller state.  A transfer report is a function of the
number of blocks the controller has been told to take. -/
structure Host where
  /-- `cur_card_data[]`. -/
  curCardData : Slot → CardData
  /-- `mmc_blk_dev[].dev != -1`. -/
  dev : Slot → Bool
  /-- `mmc_flag[]` of `common/cmd_mmc.c`. -/
  mmcFlag : Slot → Bool
  /-- The block count in `OMAP_HSMMC_BLK`. -/
  blk : ℕ
  /-- The argument of the last write command. -/
  arg : ℕ
  /-- Outcomes of the next card configurations; `none` is a failure. -/
  initReports : List (Option CardData)
  commandReports : List (List ℕ)
  transferReports : List (ℕ → List ℕ)
  written : List SectorWrite
  errors : List ControllerError

/-- A controller that reports no fault. -/
def Host.Healthy (h : Host) : Prop :=
  h.initReports = [] ∧ h.commandReports = [] ∧ h.transferReports = []

/-! ## `STAT` bits -/

def ccMask (stat : ℕ) : Bool := stat.testBit 0

def tcMask (stat : ℕ) : Bool := stat.testBit 1

def bwrMask (stat : ℕ) : Bool := stat.testBit 4

def erriMask (stat : ℕ) : Bool := stat.testBit 15

/-! ## Commands -/

/-- The polling loop of `mmc_send_cmd`: its return value, and the `STAT` value
with the error bit if that is how it ended. -/
def sendCmdPoll : List ℕ → ℕ × Option ℕ
  | [] => (1, none)
  | stat :: rest =>
      if stat = 0 then sendCmdPoll rest
      else if erriMask stat then (stat % 256, some stat)
      else if ccMask stat then (1, none)
      else sendCmdPoll rest

/-- The register writes of `mmc_send_cmd` before it polls. -/
def issue (cmd : Command) (argument : ℕ) (h : Host) : Host :=
  match cmd with
  | .cmd24 => { h with arg := argument, blk := 1 }
  | .cmd25 => { h with arg := argument }
  | .cmd12 => h
  | .cmd23 => h

/-- `mmc_send_cmd`: the status byte, `1` for success. -/
def mmcSendCmd (cmd : Command) (argument : ℕ) (h : Host) : ℕ × Host :=
  let h := issue cmd argument h
  let poll := sendCmdPoll (h.commandReports.headD [])
  (poll.1,
    { h with
      commandReports := h.commandReports.tail
      errors := h.errors ++ (poll.2.map ControllerError.command).toList })

section SendCmd

variable (cmd : Command) (argument : ℕ) (h : Host)

@[simp] theorem mmcSendCmd_transferReports :
    (mmcSendCmd cmd argument h).2.transferReports = h.transferReports := by
  cases cmd <;> rfl

@[simp] theorem mmcSendCmd_written :
    (mmcSendCmd cmd argument h).2.written = h.written := by
  cases cmd <;> rfl

@[simp] theorem mmcSendCmd_curCardData :
    (mmcSendCmd cmd argument h).2.curCardData = h.curCardData := by
  cases cmd <;> rfl

@[simp] theorem mmcSendCmd_dev :
    (mmcSendCmd cmd argument h).2.dev = h.dev := by
  cases cmd <;> rfl

@[simp] theorem mmcSendCmd_initReports :
    (mmcSendCmd cmd argument h).2.initReports = h.initReports := by
  cases cmd <;> rfl

@[simp] theorem mmcSendCmd_commandReports :
    (mmcSendCmd cmd argument h).2.commandReports = h.commandReports.tail := by
  cases cmd <;> rfl

theorem mmcSendCmd_errors :
    (mmcSendCmd cmd argument h).2.errors =
      h.errors ++ ((sendCmdPoll (h.commandReports.headD [])).2.map
        ControllerError.command).toList := by
  cases cmd <;> rfl

theorem mmcSendCmd_ret :
    (mmcSendCmd cmd argument h).1 =
      (sendCmdPoll (h.commandReports.headD [])).1 := by
  cases cmd <;> rfl

end SendCmd

/-! ## Data transfers -/

/-- The polling loop of `mmc_write_data` for a transfer of `blocks` blocks:
the `STAT` value with the error bit if there was one, and the number of
blocks pushed into the data register. -/
def writeDataPoll (blocks : ℕ) : List ℕ → ℕ → Option ℕ × ℕ
  | [], count => (none, max count blocks)
  | stat :: rest, count =>
      if stat = 0 then writeDataPoll blocks rest count
      else if erriMask stat then (some stat, count)
      else
        let count := if bwrMask stat then count + 1 else count
        if tcMask stat then (none, count)
        else writeDataPoll blocks rest count

/-- The sector a write command with this argument starts at. -/
def cardSector (mode : Mode) (argument : ℕ) : ℕ :=
  match mode with
  | .byteMode => argument / mmcsdSectorSize
  | .sectorMode => argument

/-- The sectors a transfer of `count` blocks stores from sector `first` on;
`block k` is the data of the `k`-th block. -/
def transferred (slot : Slot) (first count : ℕ) (block : ℕ → List UInt8) :
    List SectorWrite :=
  (List.range count).map fun k => ⟨slot, first + k, block k⟩

/-- The data phase of a write command: the poll loop over the controller's
next report, with the sectors the card stores meanwhile. -/
def transfer (slot : Slot) (block : ℕ → List UInt8) (h : Host) :
    (Option ℕ × ℕ) × Host :=
  let poll := writeDataPoll h.blk ((h.transferReports.headD fun _ => []) h.blk) 0
  (poll,
    { h with
      transferReports := h.transferReports.tail
      written := h.written ++ transferred slot
        (cardSector (h.curCardData slot).mode h.arg) poll.2 block
      errors := h.errors ++ (poll.1.map ControllerError.transfer).toList })

/-- `mmc_write_data`: the number of blocks written, or `-1`. -/
def mmcWriteData (slot : Slot) (inputBuf : Memory UInt8) (h : Host) :
    ℤ × Host :=
  let r := transfer slot
    (fun k => inputBuf.read (mmcsdSectorSize * k) mmcsdSectorSize) h
  (if r.1.1.isSome then -1 else (r.1.2 : ℤ), r.2)

/-! ## Initialisation -/

/-- `mmc_init(slot)`, which always returns `0`. -/
def mmcInit (slot : Slot) (h : Host) : Host :=
  match h.initReports with
  | [] => { h with dev := Function.update h.dev slot true }
  | none :: rest =>
      { h with dev := Function.update h.dev slot false, initReports := rest }
  | some card :: rest =>
      { h with
        dev := Function.update h.dev slot true
        curCardData := Function.update h.curCardData slot card
        initReports := rest }

/-!
## One burst of a write

`omap_mmc_write_sect` splits a request into bursts of at most `0xFFFF` blocks.
One pass of its loop opens a burst with the write commands and transfers the
blocks.  The board is not a Panda, so a multi-block write announces its length
with `CMD23` and is not followed by `CMD12`.
-/

/-- `(num_bytes + (MMCSD_SECTOR_SIZE - 1)) / MMCSD_SECTOR_SIZE`, unsigned. -/
def numSecVal (numBytes : ℕ) : ℕ :=
  (numBytes + (mmcsdSectorSize - 1)) % 2 ^ 32 / mmcsdSectorSize

/-- The command argument addressing a sector. -/
def sectorArgument (mode : Mode) (start : ℕ) : ℕ :=
  match mode with
  | .byteMode => start * mmcsdSectorSize % 2 ^ 32
  | .sectorMode => start % 2 ^ 32

/-- `sec_inc_val`. -/
def secIncVal (mode : Mode) : ℕ :=
  match mode with
  | .byteMode => mmcsdSectorSize
  | .sectorMode => 1

/-- `blk_cnt_current_tns`: the maximum number of blocks per command. -/
def blkCntCurrentTns (numSec : ℕ) : ℕ :=
  if 0xFFFF < numSec then 0xFFFF else numSec

theorem blkCntCurrentTns_pos {numSec : ℕ} (h : numSec ≠ 0) :
    0 < blkCntCurrentTns numSec := by
  unfold blkCntCurrentTns
  split <;> omega

theorem blkCntCurrentTns_le (numSec : ℕ) :
    blkCntCurrentTns numSec ≤ numSec ∧ blkCntCurrentTns numSec ≤ 0xFFFF := by
  unfold blkCntCurrentTns
  split <;> omega

/-- How one pass of the write loop ends. -/
inductive Burst where
  | ret (err : ℕ) (h : Host)
  | wrote (count : ℕ) (h : Host)

/-- The commands that open a burst of `blkCnt` blocks. -/
def openBurst (blkCnt argument : ℕ) (h : Host) : ℕ × Host :=
  if 1 < blkCnt then
    let (err, h) := mmcSendCmd .cmd23 blkCnt h
    if err ≠ 1 then (err, h)
    else mmcSendCmd .cmd25 argument { h with blk := blkCnt }
  else mmcSendCmd .cmd24 argument h

/-- One pass of the loop of `omap_mmc_write_sect`. -/
def writeBurst (slot : Slot) (inputBuf : Memory UInt8) (argument numSec : ℕ)
    (h : Host) : Burst :=
  let (err, h) := openBurst (blkCntCurrentTns numSec) argument h
  if err ≠ 1 then .ret err h
  else
    let (r, h) := mmcWriteData slot inputBuf h
    if r < 0 then .ret 1 h else .wrote r.toNat h

/-- A burst whose commands are accepted is set up for its blocks. -/
theorem openBurst_accepted {blkCnt : ℕ} (argument : ℕ) (h : Host)
    (hpos : 0 < blkCnt) (hok : (openBurst blkCnt argument h).1 = 1) :
    (openBurst blkCnt argument h).2.blk = blkCnt ∧
      (openBurst blkCnt argument h).2.arg = argument := by
  unfold openBurst at hok ⊢
  by_cases hmulti : 1 < blkCnt
  · simp only [hmulti, if_true] at hok ⊢
    split
    · rename_i herr
      rw [if_pos herr] at hok
      exact absurd hok herr
    · exact ⟨rfl, rfl⟩
  · have hone : blkCnt = 1 := by omega
    rw [if_neg hmulti, hone]
    exact ⟨rfl, rfl⟩

/-- `num_sec_val - blk_cnt`, in 32 bits. -/
def numSecLeft (numSec count : ℕ) : ℕ :=
  (numSec + 2 ^ 32 - count % 2 ^ 32) % 2 ^ 32

theorem numSecLeft_eq {numSec count : ℕ} (hlt : numSec < 2 ^ 32)
    (hle : count ≤ numSec) : numSecLeft numSec count = numSec - count := by
  unfold numSecLeft
  omega

theorem numSecLeft_lt (numSec count : ℕ) : numSecLeft numSec count < 2 ^ 32 :=
  Nat.mod_lt _ (by decide)

end TateFirmware.Mmc
