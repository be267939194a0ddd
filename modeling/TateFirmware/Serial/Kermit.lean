import TateFirmware.LibGeneric.CString
import TateFirmware.Support.Memory

/-!
# The Kermit receiver

`kRecv` is the main loop of `k_recv` in `common/cmd_load.c`, which decodes the
data of a packet into memory while the packet is still arriving and goes back
to a checkpoint when it turns out to be bad.  Characters are taken from a list;
when it is empty `getc` does not return.  Memory is seen from
`bin_start_address`.

The state also keeps the characters of the data field of the current packet,
and each pass of the loop reports what it received: these are the history the
results speak of.
-/

namespace TateFirmware.Serial

open LibGeneric Support

/-! ## Characters -/

/-- `START_CHAR`. -/
def startChar : UInt8 := 0x01

/-- `ETX_CHAR`. -/
def etxChar : UInt8 := 0x03

/-- `END_CHAR`. -/
def endChar : UInt8 := 0x0D

/-- `K_ESCAPE`. -/
def kEscape : UInt8 := 0x23

/-- `SEND_TYPE`. -/
def sendType : UInt8 := ch 'S'

/-- `DATA_TYPE`. -/
def dataType : UInt8 := ch 'D'

/-- `BREAK_TYPE`. -/
def breakType : UInt8 := ch 'B'

/-- `tochar`. -/
def tochar (x : ℕ) : UInt8 := UInt8.ofNat (x + 0x20)

/-- `untochar`. -/
def untochar (c : UInt8) : ℕ := (c - 0x20).toNat

/-- `(c & 0xE0) == 0`. -/
def isControl (c : UInt8) : Bool := c &&& 0xE0 = 0

/-- `ktrans`. -/
def ktrans (c : UInt8) : UInt8 :=
  if c &&& 0x60 = 0x40 then c &&& ~~~0x40
  else if c &&& 0x7f = 0x3f then c ||| 0x40
  else c

/-- The check character of a packet whose characters add up to `sum`. -/
def checkChar (sum : ℕ) : UInt8 := tochar ((sum + sum / 2 ^ 6 % 4) % 64)

/-! ## The state -/

/-- A packet that was received: its number, type and data field. -/
structure KPacket where
  n : ℕ
  type : UInt8
  data : List UInt8
deriving DecidableEq, Repr

/-- What a pass of the main loop reports to the sender. -/
inductive KEvent where
  /-- `send_ack`, or the answer of `handle_send_packet`. -/
  | acked (p : KPacket)
  /-- `send_nack`; the number of the packet, if it was read. -/
  | refused (n : Option ℕ)
deriving DecidableEq, Repr

/-- `k_data_escape` and `os_data_addr`. -/
structure KData where
  escape : Bool
  addr : ℕ
deriving DecidableEq, Repr

/-- The globals and the locals of `k_recv`. -/
structure KState where
  mem : Memory UInt8
  data : KData
  dataSaved : KData
  kState : UInt8
  kStateSaved : UInt8
  n : ℕ
  /-- `last_n`, where `none` is `-1`. -/
  lastN : Option ℕ
  hisQuote : UInt8
  sendParms : Memory UInt8
  /-- `send_ptr - send_parms`. -/
  sendPtr : ℕ
  /-- The data field read so far. -/
  field : List UInt8

/-- The state in which `k_recv` enters its main loop. -/
def KState.init (mem sendParms : Memory UInt8) : KState where
  mem := mem
  data := ⟨false, 0⟩
  dataSaved := ⟨false, 0⟩
  kState := 0
  kStateSaved := 0
  n := 0
  lastN := none
  hisQuote := kEscape
  sendParms := sendParms
  sendPtr := 0
  field := []

/-! ## Data characters -/

/-- `os_data_char`, which is `bin_data_char`. -/
def osDataChar (c : UInt8) (st : KState) : KState :=
  { st with
    mem := st.mem.store st.data.addr c
    data := { st.data with addr := st.data.addr + 1 } }

/-- `k_data_char`. -/
def kDataChar (c : UInt8) (st : KState) : KState :=
  if st.data.escape then
    let st := osDataChar (ktrans c) st
    { st with data := { st.data with escape := false } }
  else if c = st.hisQuote then
    { st with data := { st.data with escape := true } }
  else osDataChar c st

/-- `SEND_DATA_SIZE`. -/
def sendDataSize : ℕ := 20

/-- One character of a data field. -/
def fieldChar (c : UInt8) (st : KState) : KState :=
  let st := { st with field := st.field ++ [c] }
  if st.kState = dataType then kDataChar c st
  else if st.kState = sendType then
    { st with
      sendParms := st.sendParms.store st.sendPtr c
      sendPtr :=
        if st.sendPtr + 1 ≥ sendDataSize then st.sendPtr else st.sendPtr + 1 }
  else st

/-- `handle_send_packet`, as far as it changes how data is decoded. -/
def handleSendPacket (st : KState) : KState :=
  let bytes := if st.sendPtr = sendDataSize - 1 then st.sendPtr - 1
    else st.sendPtr
  { st with hisQuote := if 6 ≤ bytes then st.sendParms 5 else kEscape }

/-! ## One packet -/

/-- How a pass of the main loop ends. -/
inductive KPass where
  /-- `getc` does not return. -/
  | waiting (st : KState)
  /-- `^C` while waiting for a packet. -/
  | interrupted (st : KState)
  /-- A packet was acknowledged or refused; `input` is still to come. -/
  | done (st : KState) (e : KEvent) (input : List UInt8)

/-- `packet_error`; `n` is the number of the packet, if it was read. -/
def packetError (n : Option ℕ) (st : KState) (input : List UInt8) : KPass :=
  .done { st with kState := st.kStateSaved, data := st.dataSaved } (.refused n)
    input

/-- `getc` for a character that must not be a control character. -/
def getPrintable (n : Option ℕ) (st : KState) (input : List UInt8)
    (k : UInt8 → List UInt8 → KPass) : KPass :=
  match input with
  | [] => .waiting st
  | c :: input => if isControl c then packetError n st input else k c input

/-- The check character and the end of a packet. -/
def endOfPacket (st : KState) (sum : ℕ) (input : List UInt8) : KPass :=
  getPrintable (some st.n) st input fun c input =>
    if c ≠ checkChar sum then packetError (some st.n) st input
    else
      match input with
      | [] => .waiting st
      | c :: input =>
          if c ≠ endChar then packetError (some st.n) st input
          else if st.kState = sendType then
            .done (handleSendPacket st)
              (.acked ⟨st.n, st.kState, st.field⟩) input
          else .done st (.acked ⟨st.n, st.kState, st.field⟩) input

/-- The data field, with `len` characters to go, and the rest of a packet. -/
def restOfPacket (st : KState) (sum : ℕ) : ℕ → List UInt8 → KPass
  | 0, input => endOfPacket st sum input
  | _ + 1, [] => .waiting st
  | len + 1, c :: input =>
      if isControl c then packetError (some st.n) st input
      else restOfPacket (fieldChar c st) (sum + c.toNat) len input

/-- The two length characters and the check character of a long packet. -/
def extendedLength (st : KState) (sum : ℕ) (input : List UInt8) : KPass :=
  getPrintable (some st.n) st input fun hi input =>
    getPrintable (some st.n) st input fun lo input =>
      getPrintable (some st.n) st input fun c input =>
        if c ≠ checkChar (sum + hi.toNat + lo.toNat) then
          packetError (some st.n) st input
        else
          restOfPacket st (sum + hi.toNat + lo.toNat + c.toNat)
            (untochar hi * 95 + untochar lo - 1) input

/-- The sequence number is compared with the last one: either the data of the
last packet is undone, or the download is checkpointed. -/
def checkpoint (n : ℕ) (st : KState) : KState :=
  if st.lastN = some n then
    { st with n := n, kState := st.kStateSaved, data := st.dataSaved }
  else
    { st with
      n := n
      lastN := some n
      kStateSaved := st.kState
      dataSaved := st.data }

/-- A packet from its length on. -/
def packetFromLength (st : KState) (input : List UInt8) : KPass :=
  getPrintable none st input fun len input =>
    getPrintable none st input fun seq input =>
      let st := checkpoint (untochar seq) st
      getPrintable (some st.n) st input fun type input =>
        let st := { st with kState := type }
        let sum := len.toNat + seq.toNat + type.toNat
        if untochar len = 0 then extendedLength st sum input
        else restOfPacket st sum (untochar len - 3) input

/-- A pass of the main loop. -/
def kPass (st : KState) : List UInt8 → KPass
  | [] => .waiting { st with sendPtr := 0, field := [] }
  | c :: input =>
      if c = startChar then
        packetFromLength { st with sendPtr := 0, field := [] } input
      else if c = etxChar then
        .interrupted { st with sendPtr := 0, field := [] }
      else kPass st input

/-- The packet ends the transmission. -/
def KEvent.isBreak : KEvent → Bool
  | .acked p => p.type = breakType
  | .refused _ => false

/-- At most `k` passes of the main loop: the state behind them, what they
received, and the characters still to come. -/
def kRecv : ℕ → KState → List UInt8 → KState × List KEvent × List UInt8
  | 0, st, input => (st, [], input)
  | k + 1, st, input =>
      match kPass st input with
      | .done st e input =>
          if e.isBreak then (st, [e], input)
          else
            let (st, events, input) := kRecv k st input
            (st, e :: events, input)
      | .waiting _ => (st, [], input)
      | .interrupted _ => (st, [], input)

/-- The bytes delivered so far; `k_recv` returns their number. -/
def KState.delivered (st : KState) : List UInt8 := st.mem.read 0 st.data.addr

end TateFirmware.Serial
