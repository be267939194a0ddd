import TateFirmware.Net.NetLoop
import TateFirmware.Support.Channel
import TateFirmware.Support.Run

/-!
# The TFTP client

The state machine of `net/tftp.c`.  A payload is the list of its bytes, so
that `len` is its length; `ulong` has 32 bits.  What a function sends is
returned beside the new state.
-/

namespace TateFirmware.Net

open LibGeneric Support

/-! ## Constants -/

/-- `WELL_KNOWN_PORT`. -/
def wellKnownPort : ℕ := 69

/-- `TIMEOUT_COUNT`, where `CONFIG_NET_RETRY_COUNT` is not set. -/
def timeoutCount : ℕ := 10

/-- `TFTP_RRQ`. -/
def tftpRrq : ℕ := 1

/-- `TFTP_DATA`. -/
def tftpDataOp : ℕ := 3

/-- `TFTP_ACK`. -/
def tftpAck : ℕ := 4

/-- `TFTP_ERROR`. -/
def tftpError : ℕ := 5

/-- `TFTP_OACK`. -/
def tftpOack : ℕ := 6

/-- `TFTP_BLOCK_SIZE`. -/
def tftpBlockSize : ℕ := 512

/-- `TFTP_SEQUENCE_SIZE`. -/
def tftpSequenceSize : ℕ := 2 ^ 16

/-! ## The state -/

/-- `STATE_RRQ` and its siblings. -/
inductive TftpState where
  | rrq
  | data
  | tooLarge
  | badMagic
  | oack
deriving DecidableEq, Repr

/-- The globals of the client, and the memory it loads into. -/
structure Tftp where
  mem : Memory UInt8
  loadAddr : ℕ
  bootFile : List UInt8
  netOurIP : ℕ
  tftpServerPort : ℕ
  tftpOurPort : ℕ
  tftpTimeoutCount : ℕ
  tftpBlock : ℕ
  tftpLastBlock : ℕ
  tftpBlockWrap : ℕ
  tftpBlockWrapOffset : ℕ
  tftpState : TftpState
  netBootFileXferSize : ℕ
  netState : NetState
  /-- `startAgainHandler` has taken the place of `TftpHandler`. -/
  startAgainHandler : Bool

namespace Tftp

/-- `tftp_filename`. -/
def tftpFilename (st : Tftp) : List UInt8 :=
  if peek st.bootFile = 0 then imageName st.netOurIP else cstr st.bootFile

/-- `store_block`. -/
def storeBlock (block : ℕ) (src : List UInt8) (st : Tftp) : Tftp :=
  let offset := (block * tftpBlockSize + st.tftpBlockWrapOffset) % 2 ^ 32
  let newsize := (offset + src.length) % 2 ^ 32
  { st with
    mem := st.mem.copyWrap ((st.loadAddr + offset) % 2 ^ 32) src
    netBootFileXferSize :=
      if st.netBootFileXferSize < newsize then newsize
      else st.netBootFileXferSize }

/-- The payload `TftpSend` puts together. -/
def tftpPayload (st : Tftp) : List UInt8 :=
  match st.tftpState with
  | .rrq =>
      htons tftpRrq ++ st.tftpFilename ++ [0] ++ text "octet" ++ [0] ++
        text "timeout" ++ [0] ++ text "5" ++ [0]
  | .data => htons tftpAck ++ htons st.tftpBlock
  | .oack => htons tftpAck ++ htons st.tftpBlock
  | .tooLarge => htons tftpError ++ htons 3 ++ text "File too large" ++ [0]
  | .badMagic => htons tftpError ++ htons 2 ++ text "File has bad magic" ++ [0]

/-- `TftpSend`. -/
def tftpSend (st : Tftp) : Datagram :=
  ⟨st.tftpOurPort, st.tftpServerPort, st.tftpPayload⟩

/-- `NetStartAgain`. -/
def startAgain (retry : Retry) (st : Tftp) : Tftp :=
  match netStartAgain retry with
  | .state s => { st with netState := s }
  | .later => { st with startAgainHandler := true }

/-! ## Packets -/

/-- A data block, from the comparison with the last one on. -/
def tftpNewBlock (payload : List UInt8) (st : Tftp) : Tftp × List Datagram :=
  if st.tftpBlock = st.tftpLastBlock then (st, [])
  else
    let st := { st with tftpLastBlock := st.tftpBlock }
    let st := st.storeBlock ((st.tftpBlock + 2 ^ 32 - 1) % 2 ^ 32) payload
    let sent := st.tftpSend
    if payload.length < tftpBlockSize then
      ({ st with netState := .netloopSuccess }, [sent])
    else (st, [sent])

/-- `TftpBlock` is set, and where it is 0 the sequence numbers have wrapped
around. -/
def tftpCount (block : ℕ) (st : Tftp) : Tftp :=
  if block = 0 then
    { st with
      tftpBlock := block
      tftpBlockWrap := (st.tftpBlockWrap + 1) % 2 ^ 32
      tftpBlockWrapOffset :=
        (st.tftpBlockWrapOffset + tftpBlockSize * tftpSequenceSize) % 2 ^ 32 }
  else { st with tftpBlock := block }

/-- The case `TFTP_DATA`. -/
def tftpDataBlock (retry : Retry) (block : ℕ) (payload : List UInt8) (src : ℕ)
    (st : Tftp) : Tftp × List Datagram :=
  let st := st.tftpCount block
  if st.tftpState = .rrq ∨ st.tftpState = .oack then
    let st :=
      { st with
        tftpState := .data
        tftpServerPort := src
        tftpLastBlock := 0
        tftpBlockWrap := 0
        tftpBlockWrapOffset := 0 }
    if block ≠ 1 then (st.startAgain retry, []) else st.tftpNewBlock payload
  else st.tftpNewBlock payload

/-- `TftpHandler`. -/
def tftpHandler (retry : Retry) (pkt : List UInt8) (dest src : ℕ)
    (st : Tftp) : Tftp × List Datagram :=
  if dest ≠ st.tftpOurPort then (st, [])
  else if st.tftpState ≠ .rrq ∧ src ≠ st.tftpServerPort then (st, [])
  else if pkt.length < 2 then (st, [])
  else if ntohs pkt = tftpOack then
    let st := { st with tftpState := .oack, tftpServerPort := src }
    (st, [st.tftpSend])
  else if ntohs pkt = tftpDataOp then
    if (pkt.drop 2).length < 2 then (st, [])
    else
      st.tftpDataBlock retry (ntohs (pkt.drop 2)) ((pkt.drop 2).drop 2) src
  else if ntohs pkt = tftpError then (st.startAgain retry, [])
  else (st, [])

/-- The current `packetHandler`. -/
def packetHandler (retry : Retry) (d : Datagram) (st : Tftp) :
    Tftp × List Datagram :=
  if st.startAgainHandler then (st, [])
  else st.tftpHandler retry d.data d.dst d.src

/-! ## Timeouts and starts -/

/-- `TftpTimeout`. -/
def tftpTimeout (retry : Retry) (st : Tftp) : Tftp × List Datagram :=
  let st := { st with tftpTimeoutCount := st.tftpTimeoutCount + 1 }
  if st.tftpTimeoutCount > timeoutCount then (st.startAgain retry, [])
  else (st, [st.tftpSend])

/-- The current `timeHandler`. -/
def timeHandler (retry : Retry) (st : Tftp) : Tftp × List Datagram :=
  if st.startAgainHandler then
    ({ st with netState := .netloopRestart }, [])
  else st.tftpTimeout retry

/-- `TftpStart`, when `get_timer(0)` is `timer`. -/
def tftpStart (timer : ℕ) (st : Tftp) : Tftp × List Datagram :=
  let st :=
    { st with
      startAgainHandler := false
      tftpServerPort := wellKnownPort
      tftpTimeoutCount := 0
      tftpState := .rrq
      tftpOurPort := 1024 + timer % 3072
      tftpBlock := 0 }
  (st, [st.tftpSend])

/-- `NetLoop` from its label `restart` to its loop. -/
def netLoopRestart (timer : ℕ) (st : Tftp) : Tftp × List Datagram :=
  let st := { st with netState := .netloopContinue }
  let (st, sent) := st.tftpStart timer
  ({ st with netBootFileXferSize := 0 }, sent)

end Tftp

/-!
## A TFTP server behind a network

The client of `net/tftp.c` loads a file from a lock-step server.  The server
starts a transfer, on a port of its own, for every read request that reaches
it; a transfer repeats its current packet until that one is acknowledged, and
goes on to the next one then.  The network may lose and duplicate every packet
in both directions, and keeps the order of distinct ones; who does something
next is left open.
-/

/-! ## The server -/

/-- A transfer: the port of its client, and which packet it repeats until it
is acknowledged.  Number 0 is the acknowledgement of the options. -/
structure Session where
  peer : ℕ
  rank : ℕ
deriving DecidableEq, Repr

/-- The number of blocks of a file; the last one is shorter than the others. -/
def blockCount (file : List UInt8) : ℕ := file.length / tftpBlockSize + 1

/-- Block `j` of a file, counted from 1. -/
def fileBlock (file : List UInt8) (j : ℕ) : List UInt8 :=
  (file.drop (tftpBlockSize * (j - 1))).take tftpBlockSize

/-- Packet `j` of a transfer. -/
def serverPacket (file : List UInt8) : ℕ → List UInt8
  | 0 => htons tftpOack ++ (text "timeout" ++ [0] ++ text "5" ++ [0])
  | j + 1 => htons tftpDataOp ++ (htons (j + 1) ++ fileBlock file (j + 1))

/-- The acknowledgement of packet `j`. -/
def ackPacket (j : ℕ) : List UInt8 := htons tftpAck ++ htons (j % 2 ^ 16)

theorem ackPacket_number (j : ℕ) : ntohs ((ackPacket j).drop 2) = j % 2 ^ 16 := by
  have hmod := ntohs_htons (j % 2 ^ 16) []
  rw [Nat.mod_mod, List.append_nil] at hmod
  exact hmod

/-- A packet acknowledges packet `j`. -/
def acknowledges (pkt : List UInt8) (j : ℕ) : Bool :=
  ntohs pkt = tftpAck && ntohs (pkt.drop 2) = j % 2 ^ 16

/-- What a transfer on `port` sends, now or when its timer runs out. -/
def Session.sends (file : List UInt8) (port : ℕ) (s : Session) :
    List Datagram :=
  if s.rank ≤ blockCount file then
    [⟨port, s.peer, serverPacket file s.rank⟩]
  else []

/-! ## The network -/

/-- Client, server and the packets in flight. -/
structure Network where
  client : Tftp
  /-- The transfers of the server, by their ports. -/
  server : ℕ → Option Session
  toServer : List Datagram
  toClient : List Datagram

/-- What can happen next. -/
inductive Action where
  | clientReceives (retry : Retry)
  | clientTimeout (retry : Retry)
  /-- `NetLoop` finds `NETLOOP_RESTART`. -/
  | clientRestarts (timer : ℕ)
  /-- The server takes a packet; a new transfer gets `port` and starts by
  acknowledging the options if `oack`. -/
  | serverReceives (port : ℕ) (oack : Bool)
  | serverTimeout (port : ℕ)
  | lostToServer (i : ℕ)
  | lostToClient (i : ℕ)
  | twiceToServer (i : ℕ)
  | twiceToClient (i : ℕ)

namespace Network

/-- The network when `NetLoop` has started the client. -/
def init (timer : ℕ) (client : Tftp) : Network where
  client := (client.netLoopRestart timer).1
  server := fun _ => none
  toServer := (client.netLoopRestart timer).2
  toClient := []

/-- The client has run. -/
def withClient (w : Network) (result : Tftp × List Datagram) : Network :=
  { w with client := result.1, toServer := w.toServer ++ result.2 }

/-- A transfer of the server has a new state, and sends. -/
def withSession (file : List UInt8) (w : Network) (port : ℕ) (s : Session) :
    Network :=
  { w with
    server := Function.update w.server port (some s)
    toClient := w.toClient ++ s.sends file port }

/-- The server takes a packet. -/
def serve (file : List UInt8) (w : Network) (d : Datagram) (port : ℕ)
    (oack : Bool) : Network :=
  if d.dst = wellKnownPort then
    if ntohs d.data = tftpRrq ∧ port ≠ wellKnownPort ∧ w.server port = none then
      w.withSession file port ⟨d.src, if oack then 0 else 1⟩
    else w
  else
    match w.server d.dst with
    | none => w
    | some s =>
        if s.peer = d.src ∧ s.rank ≤ blockCount file ∧
            acknowledges d.data s.rank then
          w.withSession file d.dst ⟨s.peer, s.rank + 1⟩
        else w

/-- The network behind an event. -/
def next (file : List UInt8) (w : Network) : Action → Network
  | .clientReceives retry =>
      match w.toClient with
      | [] => w
      | d :: queue =>
          { w with toClient := queue }.withClient
            (w.client.packetHandler retry d)
  | .clientTimeout retry => w.withClient (w.client.timeHandler retry)
  | .clientRestarts timer =>
      if w.client.netState = .netloopRestart then
        w.withClient (w.client.netLoopRestart timer)
      else w
  | .serverReceives port oack =>
      match w.toServer with
      | [] => w
      | d :: queue => { w with toServer := queue }.serve file d port oack
  | .serverTimeout port =>
      match w.server port with
      | none => w
      | some s => w.withSession file port s
  | .lostToServer i => { w with toServer := lose i w.toServer }
  | .lostToClient i => { w with toClient := lose i w.toClient }
  | .twiceToServer i => { w with toServer := duplicate i w.toServer }
  | .twiceToClient i => { w with toClient := duplicate i w.toClient }

/-- An event, and what `NetLoop` sees in `NetState` behind it. -/
def step (file : List UInt8) (w : Network) (a : Action) :
    Network × List NetState :=
  (w.next file a, [(w.next file a).client.netState])

end Network

end TateFirmware.Net
