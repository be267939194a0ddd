import TateFirmware.Fastboot.Flash
import TateFirmware.Support.Run

/-!
# The receive handler

`rx_handler` gets every packet of the host.  While a download is in progress a
packet is data; otherwise it is a command, which is compared with every
command name in turn.  Most commands fall through to the comparisons that
follow them, so a command is a transformer of the local variables
(`Frame`) and a packet runs them all.
-/

namespace TateFirmware.Fastboot

open Support LibGeneric

/-- What the functions outside fastboot do in one call of `rx_handler`:
whether those that normally do not come back do, and what the board's own
commands do. -/
structure Board where
  bootdReturns : Bool
  bootiReturns : Bool
  powerdownReturns : Bool
  /-- `fastboot_idme`, which works on the boot area of the eMMC. -/
  idme : List UInt8 → Mmc.Host → ℤ × Mmc.Host
  /-- `fastboot_oem`, which may rewrite the partition table. -/
  oem : List UInt8 → List Ptentry → Mmc.Host → ℤ × List Ptentry × Mmc.Host

/-- The local variables of the command half of `rx_handler`, with the
responses sent so far. -/
structure Frame where
  st : State
  response : List UInt8
  ret : ℕ
  sent : List (List UInt8)

/-- `fastboot_tx_status(response, strlen(response))`. -/
def Frame.txStatus (f : Frame) : Frame := { f with sent := f.sent ++ [f.response] }

/-- Where control goes behind a command: to the next comparison, to the label
`done`, or out of fastboot. -/
inductive Flow where
  | next (f : Frame)
  | done (f : Frame)
  | leave (f : Frame)

def Flow.andThen (flow : Flow) (command : Frame → Flow) : Flow :=
  match flow with
  | .next f => command f
  | .done f => .done f
  | .leave f => .leave f

/-- A call of a function that normally does not return. -/
def callAway (returns : Bool) (f : Frame) (k : Frame → Flow) : Flow :=
  if returns then k f else .leave f

/-! ## The commands -/

def continueCommand (board : Board) (cmdbuf : List UInt8) (f : Frame) : Flow :=
  if startsWith cmdbuf "continue" then
    callAway board.bootdReturns { f with response := text "OKAY" }.txStatus
      fun f => .next { f with
        response := text "FAIL: invalid boot image", ret := 0 }
  else .next f

def rebootCommand (cmdbuf : List UInt8) (f : Frame) : Flow :=
  if startsWith cmdbuf "reboot-bootloader" then
    .leave { f with response := text "OKAY" }.txStatus
  else if startsWith cmdbuf "reboot" then
    .leave { f with response := text "OKAY" }.txStatus
  else .next f

/-- The value of a `getvar:` variable behind `OKAY`. -/
def getvarValue (iface : Interface) (name : List UInt8) : List UInt8 :=
  if name = text "version" then text "0.5"
  else if name = text "product" then iface.productName.getD []
  else if name = text "serialno" then iface.serialNo.getD []
  else if name = text "downloadsize" then
    if iface.transferBufferSize ≠ 0 then formatHex08 iface.transferBufferSize
    else []
  else if name = text "max-download-size" then
    if iface.transferBufferSize ≠ 0 then
      formatUnsigned iface.transferBufferSize
    else []
  else if name = text "cpurev" then iface.procRev.getD []
  else if name = text "secure" then iface.procType.getD []
  else []

def getvarCommand (iface : Interface) (cmdbuf : List UInt8) (f : Frame) :
    Flow :=
  if startsWith cmdbuf "getvar:" then
    .next { f with
      response := text "OKAY" ++ getvarValue iface (cstr (cmdbuf.drop 7))
      ret := 0 }
  else .next f

/-- `fastboot oem <cmd>`. -/
def oemCommand (board : Board) (cmdbuf : List UInt8) (f : Frame) : Flow :=
  if startsWith cmdbuf "oem " then
    let f := { f with ret := 0 }
    let cmdbuf := cmdbuf.drop 4
    let shutdown :=
      if startsWith cmdbuf "shutdown" then
        callAway board.powerdownReturns
          { f with response := text "SHUTDOWN" }.txStatus .next
      else .next f
    shutdown.andThen fun f =>
      if startsWith cmdbuf "idme " then
        let (ret, mmc) := board.idme (cmdbuf.drop 5) f.st.mmc
        .done { f with
          st := { f.st with mmc := mmc }
          response := if ret ≠ 0 then text "FAIL" else text "OKAY" }
      else if startsWith cmdbuf "format" then
        let (ret, ptable, mmc) := board.oem (cstr cmdbuf) f.st.ptable f.st.mmc
        .done { f with
          st := { f.st with ptable := ptable, mmc := mmc }
          response := if ret < 0 then text "FAIL" else text "OKAY"
          ret := if ret = 0 then 0 else 1 }
      else if startsWith cmdbuf "recovery" then
        .leave { f with response := text "OKAY" }.txStatus
      else .done { f with response := text "FAIL" }
  else .next f

/-- A command that works on the state and sets the response. -/
def stateCommand (cmdbuf : List UInt8) (name : String) (handled : Bool)
    (action : State → List UInt8 × State) (f : Frame) : Flow :=
  if startsWith cmdbuf name then
    let (response, st) := action f.st
    .next { f with
      st := st, response := response, ret := if handled then 0 else f.ret }
  else .next f

def eraseCommand (iface : Interface) (cmdbuf : List UInt8) : Frame → Flow :=
  stateCommand cmdbuf "erase:" true (erase iface (cmdbuf.drop 6))

def mmceraseCommand (cmdbuf : List UInt8) : Frame → Flow :=
  stateCommand cmdbuf "mmcerase:" false
    (mmcerase (cmdbuf.drop 9) (cmdbuf.drop 11))

/-- `download:<size>`. -/
def download (iface : Interface) (size : List UInt8) (st : State) :
    List UInt8 × State :=
  let n := (simpleStrtoul size 16).1
  let st := { st with downloadSize := n, downloadBytes := 0, downloadError := 0 }
  if n = 0 then (text "FAILdata invalid size", st)
  else if iface.transferBufferSize < n then
    (text "FAILdata too large", { st with downloadSize := 0 })
  else (text "DATA" ++ formatHex08 n, st)

def downloadCommand (iface : Interface) (cmdbuf : List UInt8) :
    Frame → Flow :=
  stateCommand cmdbuf "download:" true (download iface (cmdbuf.drop 9))

/-- `CFG_FASTBOOT_MKBOOTIMAGE_PAGE_SIZE`. -/
def mkbootimagePageSize : ℕ := 2048

def bootCommand (board : Board) (cmdbuf : List UInt8) (f : Frame) : Flow :=
  if startsWith cmdbuf "boot" then
    let booted :=
      if f.st.downloadBytes ≠ 0 ∧ mkbootimagePageSize < f.st.downloadBytes then
        callAway board.bootiReturns { f with response := text "OKAY" }.txStatus
          .next
      else .next f
    booted.andThen fun f =>
      .next { f with response := text "FAILinvalid boot image", ret := 0 }
  else .next f

def mmcwriteCommand (cmdbuf : List UInt8) : Frame → Flow :=
  stateCommand cmdbuf "mmcwrite:" false
    (mmcwrite (cmdbuf.drop 9) (cmdbuf.drop 11))

def flashCommand (iface : Interface) (cmdbuf : List UInt8) : Frame → Flow :=
  stateCommand cmdbuf "flash:" true (flash iface (cmdbuf.drop 6))

def multiflashCommand (iface : Interface) (cmdbuf : List UInt8) :
    Frame → Flow :=
  stateCommand cmdbuf "multiflash:" true
    (multiflash iface (startsWith (cmdbuf.drop 11) "1") (cmdbuf.drop 13))

/-! ## The handler -/

/-- What one call of `rx_handler` leaves behind: the state, the responses it
sent and its return value. -/
structure Reply where
  st : State
  sent : List (List UInt8)
  ret : ℕ

/-- The label `done`, and the other ways out of the command half. -/
def Flow.finish (flow : Flow) : Reply :=
  match flow with
  | .next f => ⟨f.st, f.txStatus.sent, f.ret⟩
  | .done f => ⟨f.st, f.txStatus.sent, f.ret⟩
  | .leave f => ⟨{ f.st with left := true }, f.sent, 0⟩

/-- The command half of `rx_handler`, from the generic failed response on. -/
def runCommands (iface : Interface) (board : Board) (cmdbuf : List UInt8)
    (f : Frame) : Flow :=
  (((((((((((continueCommand board cmdbuf f).andThen
    (rebootCommand cmdbuf)).andThen
    (getvarCommand iface cmdbuf)).andThen
    (oemCommand board cmdbuf)).andThen
    (eraseCommand iface cmdbuf)).andThen
    (mmceraseCommand cmdbuf)).andThen
    (downloadCommand iface cmdbuf)).andThen
    (bootCommand board cmdbuf)).andThen
    (mmcwriteCommand cmdbuf)).andThen
    (flashCommand iface cmdbuf)).andThen
    (multiflashCommand iface cmdbuf))

/-- The command half of `rx_handler`. -/
def rxCommand (iface : Interface) (board : Board) (cmdbuf : List UInt8)
    (st : State) : Reply :=
  (runCommands iface board cmdbuf
    ⟨{ st with fastbootConfirmed := true }, text "FAIL", 1, []⟩).finish

/-- The padding loop: at most `pad` zero bytes, as long as the transfer buffer
has room. -/
def padDownload (iface : Interface) : ℕ → State → State
  | 0, st => st
  | pad + 1, st =>
      if iface.transferBufferSize ≤ st.downloadBytes then st
      else
        padDownload iface pad { st with
          transferBuffer := st.transferBuffer.store st.downloadBytes 0
          downloadBytes := st.downloadBytes + 1 }

/-- The end of a transfer on NAND: pad to block length, but save the true
size. -/
def finishNand (iface : Interface) (st : State) : State :=
  let st := { st with downloadBytesUnpadded := st.downloadBytes }
  if iface.nandBlockSize = 0 then st
  else if st.downloadBytes % iface.nandBlockSize = 0 then st
  else
    padDownload iface
      (iface.nandBlockSize - st.downloadBytes % iface.nandBlockSize) st

/-- `transfer_size` for a packet of `n` bytes; the difference of the counters
is unsigned. -/
def transferSize (st : State) (n : ℕ) : ℕ :=
  min n ((st.downloadSize + 2 ^ 32 - st.downloadBytes) % 2 ^ 32)

/-- The data half of `rx_handler`. -/
def rxData (iface : Interface) (buffer : List UInt8) (st : State) : Reply :=
  if buffer = [] then ⟨st, [], 0⟩
  else
    let n := transferSize st buffer.length
    let st := { st with
      transferBuffer := st.transferBuffer.copyIn st.downloadBytes
        (buffer.take n)
      downloadBytes := (st.downloadBytes + n) % 2 ^ 32 }
    if st.downloadSize ≤ st.downloadBytes then
      let response := if st.downloadError ≠ 0 then text "ERROR" else text "OKAY"
      let st := { st with downloadSize := 0 }
      ⟨match iface.storageMedium with
        | .nand => finishNand iface st
        | .emmc => st, [response], 0⟩
    else ⟨st, [], 0⟩

/-- `rx_handler(buffer, buffer_size)`. -/
def rxHandler (iface : Interface) (board : Board) (buffer : List UInt8)
    (st : State) : Reply :=
  if st.downloadSize ≠ 0 then rxData iface buffer st
  else rxCommand iface board buffer st

/-- `reset_handler`. -/
def resetHandler (st : State) : State :=
  { st with
    downloadSize := 0
    downloadBytes := 0
    downloadBytesUnpadded := 0
    downloadError := 0 }

/-! ## Runs -/

/-- What can happen to fastboot: a packet, with the behaviour of the functions
outside fastboot while it is handled, or a reset of the bus. -/
inductive Event where
  | packet (buffer : List UInt8) (board : Board)
  | reset

/-- One event; nothing happens any more once the board has left fastboot. -/
def step (iface : Interface) (st : State) (e : Event) :
    State × List (List UInt8) :=
  if st.left then (st, [])
  else
    match e with
    | .packet buffer board =>
        let reply := rxHandler iface board buffer st
        (reply.st, reply.sent)
    | .reset => (resetHandler st, [])

/-! ## Small boards -/

theorem blockSize_pos : 0 < 2048 := by decide

theorem blockSize_lt : 80 * 16 * 2048 < 2 ^ 32 := by decide

theorem eight_lt : 8 < 2 ^ 31 := by decide

/-- An eMMC board whose transfer buffer has `n` bytes. -/
def emmcBoard (n : ℕ) (hn : n < 2 ^ 31) : Interface where
  productName := none
  serialNo := none
  procRev := none
  procType := none
  storageMedium := .emmc
  nandBlockSize := 2048
  transferBufferSize := n
  transferBufferSize_lt := hn
  nandBlockSize_pos := blockSize_pos
  nandBlockSize_lt := blockSize_lt

/-- A controller without faults, with empty cards. -/
def idleHost : Mmc.Host where
  curCardData := fun _ => ⟨.sectorMode, 0⟩
  dev := fun _ => false
  mmcFlag := fun _ => false
  blk := 0
  arg := 0
  initReports := []
  commandReports := []
  transferReports := []
  written := []
  errors := []

/-- The functions outside fastboot come back and do nothing. -/
def quietBoard : Board where
  bootdReturns := true
  bootiReturns := true
  powerdownReturns := true
  idme := fun _ mmc => (0, mmc)
  oem := fun _ ptable mmc => (0, ptable, mmc)

/-- A partition of two sectors. -/
def systemPtn : Ptentry := ⟨text "system", 100, 1024, 0⟩

/-- A board with this partition, and a controller with the given
reports for the coming transfers. -/
def systemBoard (transferReports : List (ℕ → List ℕ)) : State :=
  initialState [systemPtn]
    { idleHost with transferReports := transferReports }
    (fun _ => 0) (fun _ => 0)

/-- Download four bytes. -/
def downloadFour : List Event :=
  [.packet (text "download:4") quietBoard, .packet (text "data") quietBoard]

end TateFirmware.Fastboot
