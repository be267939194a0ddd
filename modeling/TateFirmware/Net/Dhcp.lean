import TateFirmware.Net.NetLoop

/-!
# The DHCP client

The state machine of `net/bootp.c`.  Addresses and transaction ids are kept as
the four bytes that are copied around, in network order.
-/

namespace TateFirmware.Net

open LibGeneric Support

/-! ## Constants -/

/-- `PORT_BOOTPS`. -/
def portBootps : ℕ := 67

/-- `PORT_BOOTPC`. -/
def portBootpc : ℕ := 68

/-- `OPT_SIZE`. -/
def optSize : ℕ := 312

/-- `BOOTP_HDR_SIZE`. -/
def bootpHdrSize : ℕ := 548

/-- `BOOTP_VENDOR_MAGIC`, as it stands in a packet. -/
def bootpVendorMagic : List UInt8 := [0x63, 0x82, 0x53, 0x63]

/-- `DHCP_OFFER`. -/
def dhcpOffer : UInt8 := 2

/-- `DHCP_ACK`. -/
def dhcpAck : UInt8 := 5

/-- `DHCP_NAK`. -/
def dhcpNak : UInt8 := 6

/-- `TIMEOUT_COUNT`, where `CONFIG_NET_RETRY_COUNT` is not set. -/
def bootpTimeoutCount : ℕ := 5

/-- `sizeof(NetOurHostName)`. -/
def hostNameSize : ℕ := 32

/-- `sizeof(NetOurRootPath)`. -/
def rootPathSize : ℕ := 1024

/-- `sizeof(bp->bp_file)`, which is `sizeof(BootFile)`. -/
def bpFileSize : ℕ := 128

/-- The offsets of `bp_id`, `bp_yiaddr`, `bp_file` and `bp_vend`. -/
def bpId : ℕ := 4

def bpYiaddr : ℕ := 16

def bpFile : ℕ := 108

def bpVend : ℕ := 236

/-- `NetReadLong`, `NetCopyIP` and `NetCopyLong` copy four bytes. -/
def netReadLong (m : Memory UInt8) (p : ℕ) : List UInt8 := m.read p 4

/-! ## The state -/

/-- `dhcp_state_t`. -/
inductive DhcpState where
  | init
  | initReboot
  | rebooting
  | selecting
  | requesting
  | rebinding
  | bound
  | renewing
deriving DecidableEq, Repr

/-- The packet handler in use. -/
inductive DhcpPacketHandler where
  | dhcpHandler
  | tftpHandler
  | nfsHandler
  | startAgainHandler
deriving DecidableEq, Repr

/-- The globals of the client. -/
structure Dhcp where
  dhcpState : DhcpState
  bootpID : List UInt8
  bootpTry : ℕ
  netOurEther : List UInt8
  netServerEther : List UInt8
  netOurIP : List UInt8
  netServerIP : List UInt8
  netOurSubnetMask : List UInt8
  netOurGatewayIP : List UInt8
  netOurDNSIP : List UInt8
  netDHCPServerIP : List UInt8
  dhcpLeasetime : List UInt8
  netOurHostName : List UInt8
  netOurRootPath : List UInt8
  bootFile : List UInt8
  /-- The environment variable `bootfile`. -/
  bootfileEnv : Option (List UInt8)
  netState : NetState
  packetHandler : DhcpPacketHandler
deriving DecidableEq, Repr

/-- The environment variables `autoload` and `serverip`. -/
structure DhcpEnv where
  autoload : Option (List UInt8)
  serverip : List UInt8

/-- What the client broadcasts. -/
inductive DhcpSent where
  | discover (id : List UInt8)
  | request (id ciaddr yiaddr siaddr giaddr serverID : List UInt8)
deriving DecidableEq, Repr

/-! ## Packets -/

/-- `BootpCheckPkt`. -/
def bootpCheckPkt (p : RxPacket) (st : Dhcp) : ℤ :=
  if p.dest ≠ portBootpc ∨ p.src ≠ portBootps then -1
  else if p.len < bootpHdrSize - optSize then -2
  else if p.mem 0 ≠ 1 ∧ p.mem 0 ≠ 2 ∧ p.mem 0 ≠ dhcpOffer ∧ p.mem 0 ≠ dhcpAck ∧
      p.mem 0 ≠ dhcpNak then -3
  else if p.mem 1 ≠ 1 then -4
  else if p.mem 2 ≠ 6 then -5
  else if netReadLong p.mem bpId ≠ st.bootpID then -6
  else 0

/-- `truncate_sz`. -/
def truncateSz (maxlen curlen : ℕ) : ℕ :=
  if curlen ≥ maxlen then maxlen - 1 else curlen

/-- `copy_filename`. -/
def copyFilename (m : Memory UInt8) (src size : ℕ) : List UInt8 :=
  if m src = ch '"' then
    (m.read (src + 1) (size - 2)).takeWhile fun c => c ≠ 0 ∧ c ≠ ch '"'
  else (m.read src (size - 1)).takeWhile fun c => c ≠ 0 ∧ c ≠ ch '"'

/-- `BootpCopyNetParams`. -/
def bootpCopyNetParams (m : Memory UInt8) (etSrc : List UInt8) (st : Dhcp) :
    Dhcp :=
  let bootFile := if m bpFile ≠ 0 then copyFilename m bpFile bpFileSize
    else st.bootFile
  { st with
    netOurIP := netReadLong m bpYiaddr
    netServerIP := if netReadLong m 20 ≠ [0, 0, 0, 0] then netReadLong m 20
      else st.netServerIP
    netServerEther := etSrc
    bootFile := bootFile
    bootfileEnv := if bootFile ≠ [] then some bootFile else st.bootfileEnv }

/-- One option of `DhcpOptionsProcess`; option 67 is written into the
packet. -/
def dhcpOption (popt : ℕ) (m : Memory UInt8) (st : Dhcp) :
    Dhcp × Memory UInt8 :=
  let oplen := (m (popt + 1)).toNat
  if m popt = 1 then
    ({ st with netOurSubnetMask := netReadLong m (popt + 2) }, m)
  else if m popt = 3 then
    ({ st with netOurGatewayIP := netReadLong m (popt + 2) }, m)
  else if m popt = 6 then
    ({ st with netOurDNSIP := netReadLong m (popt + 2) }, m)
  else if m popt = 12 then
    ({ st with
      netOurHostName := m.read (popt + 2) (truncateSz hostNameSize oplen) }, m)
  else if m popt = 17 then
    ({ st with
      netOurRootPath := m.read (popt + 2) (truncateSz rootPathSize oplen) }, m)
  else if m popt = 51 then
    ({ st with dhcpLeasetime := netReadLong m (popt + 2) }, m)
  else if m popt = 54 then
    ({ st with netDHCPServerIP := netReadLong m (popt + 2) }, m)
  else if m popt = 67 then
    let size := truncateSz bpFileSize oplen
    if m bpFile = 0 ∧ size > 0 then
      (st, (m.copyIn bpFile (m.read (popt + 2) size)).store (bpFile + size) 0)
    else (st, m)
  else (st, m)

/-- The loop of `DhcpOptionsProcess`, for options below `last`.  An option
takes two bytes at least, so that `fuel` is enough when it is the number of
bytes to go. -/
def dhcpOptionsLoop (last : ℕ) :
    ℕ → ℕ → Memory UInt8 → Dhcp → Dhcp × Memory UInt8
  | 0, _, m, st => (st, m)
  | fuel + 1, popt, m, st =>
      if popt < last ∧ m popt ≠ 0xff then
        dhcpOptionsLoop last fuel (popt + ((m (popt + 1)).toNat + 2))
          (dhcpOption popt m st).2 (dhcpOption popt m st).1
      else (st, m)

/-- `DhcpOptionsProcess`, behind the magic number if there is one. -/
def dhcpOptionsProcess (m : Memory UInt8) (st : Dhcp) : Dhcp × Memory UInt8 :=
  if netReadLong m bpVend = bootpVendorMagic then
    dhcpOptionsLoop (bpVend + 4 + bootpHdrSize) bootpHdrSize (bpVend + 4) m st
  else (st, m)

/-- The loop of `DhcpMessageType`: the option 53 at `popt` or behind it, or
none.  It does not stop at the end of the packet; where it does not find an end
within `reach` options it does not return. -/
def messageTypeLoop (m : Memory UInt8) : ℕ → ℕ → Option (Option UInt8)
  | 0, _ => none
  | reach + 1, popt =>
      if m popt = 0xff then some none
      else if m popt = 53 then some (some (m (popt + 2)))
      else messageTypeLoop m reach (popt + ((m (popt + 1)).toNat + 2))

/-- `DhcpMessageType`, where `some none` is `-1`. -/
def dhcpMessageType (reach : ℕ) (m : Memory UInt8) : Option (Option UInt8) :=
  if netReadLong m bpVend ≠ bootpVendorMagic then some none
  else messageTypeLoop m reach (bpVend + 4)

/-! ## The state machine -/

/-- `BootpID`, from the Ethernet address and the time. -/
def newBootpID (ether : List UInt8) (timer : ℕ) : List UInt8 :=
  let id := ((ether.getD 2 0).toNat * 2 ^ 24 + (ether.getD 3 0).toNat * 2 ^ 16 +
    (ether.getD 4 0).toNat * 2 ^ 8 + (ether.getD 5 0).toNat + timer) % 2 ^ 32
  [UInt8.ofNat (id / 2 ^ 24), UInt8.ofNat (id / 2 ^ 16),
    UInt8.ofNat (id / 2 ^ 8), UInt8.ofNat id]

/-- `BootpRequest`, when `get_timer(0)` is `timer`. -/
def bootpRequest (timer : ℕ) (st : Dhcp) : Dhcp × List DhcpSent :=
  ({ st with
      bootpTry := st.bootpTry + 1
      bootpID := newBootpID st.netOurEther timer
      dhcpState := .selecting
      packetHandler := .dhcpHandler },
    [.discover (newBootpID st.netOurEther timer)])

/-- `NetStartAgain`. -/
def Dhcp.startAgain (retry : Retry) (st : Dhcp) : Dhcp :=
  match netStartAgain retry with
  | .state s => { st with netState := s }
  | .later => { st with packetHandler := .startAgainHandler }

/-- `BootpTimeout`. -/
def bootpTimeout (retry : Retry) (timer : ℕ) (st : Dhcp) :
    Dhcp × List DhcpSent :=
  if st.bootpTry ≥ bootpTimeoutCount then (st.startAgain retry, [])
  else bootpRequest timer st

/-- `DhcpSendRequestPkt`. -/
def dhcpSendRequestPkt (m : Memory UInt8) (st : Dhcp) : DhcpSent :=
  .request (netReadLong m bpId) (netReadLong m 12) (netReadLong m bpYiaddr)
    (netReadLong m 20) (netReadLong m 24) st.netDHCPServerIP

/-- What `DhcpHandler` does when it is bound: the setting `autoload`. -/
def Dhcp.autoload (env : DhcpEnv) (st : Dhcp) : Dhcp :=
  match env.autoload with
  | none =>
      { st with
        packetHandler := .tftpHandler
        netServerEther := [0, 0, 0, 0, 0, 0] }
  | some s =>
      if peek s = ch 'n' then { st with netState := .netloopSuccess }
      else if cstr s = text "NFS" then { st with packetHandler := .nfsHandler }
      else
        { st with
          packetHandler := .tftpHandler
          netServerEther := [0, 0, 0, 0, 0, 0] }

/-- `DhcpHandler`. -/
def dhcpHandler (env : DhcpEnv) (reach : ℕ) (p : RxPacket) (st : Dhcp) :
    Dhcp × List DhcpSent :=
  if bootpCheckPkt p st ≠ 0 then (st, [])
  else
    match st.dhcpState with
    | .selecting =>
        let st := { st with dhcpState := .requesting }
        let (st, m) := dhcpOptionsProcess p.mem st
        let st := bootpCopyNetParams m p.etSrc st
        (st, [dhcpSendRequestPkt m st])
    | .requesting =>
        if dhcpMessageType reach p.mem = some (some dhcpAck) then
          let (st, m) := dhcpOptionsProcess p.mem st
          let st := bootpCopyNetParams m p.etSrc st
          let st := { st with dhcpState := .bound }
          (st.autoload env, [])
        else (st, [])
    | _ => (st, [])

/-! ## Events -/

/-- What can happen to the client. -/
inductive DhcpEvent where
  | packet (p : RxPacket)
  | timeout (retry : Retry) (timer : ℕ)
  /-- The protocol that loads the boot file calls `NetStartAgain`. -/
  | loaderGivesUp (retry : Retry)
  /-- `NetLoop` finds `NETLOOP_RESTART`. -/
  | restart (timer : ℕ)

/-- `NetLoop(DHCP)` from its label `restart` to its loop. -/
def dhcpNetLoopRestart (env : DhcpEnv) (timer : ℕ) (st : Dhcp) :
    Dhcp × List DhcpSent :=
  bootpRequest timer
    { st with
      netState := .netloopContinue
      bootpTry := 0
      netOurIP := [0, 0, 0, 0]
      netServerIP := env.serverip }

/-- One event. -/
def dhcpStep (env : DhcpEnv) (reach : ℕ) (st : Dhcp) :
    DhcpEvent → Dhcp × List DhcpSent
  | .packet p =>
      match st.packetHandler with
      | .dhcpHandler => dhcpHandler env reach p st
      | _ => (st, [])
  | .timeout retry timer =>
      match st.packetHandler with
      | .dhcpHandler => bootpTimeout retry timer st
      | .startAgainHandler => ({ st with netState := .netloopRestart }, [])
      | _ => (st, [])
  | .loaderGivesUp retry =>
      match st.packetHandler with
      | .tftpHandler => (st.startAgain retry, [])
      | .nfsHandler => (st.startAgain retry, [])
      | _ => (st, [])
  | .restart timer =>
      if st.netState = .netloopRestart then dhcpNetLoopRestart env timer st
      else (st, [])

end TateFirmware.Net
