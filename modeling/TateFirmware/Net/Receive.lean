import TateFirmware.Net.Ethernet

/-!
# Received frames

`NetReceive` in `net/net.c`.  The result is `none` when a byte behind the end of the
frame is read, also by `eth_send`, which is given the frame back as an answer.
-/

namespace TateFirmware.Net

open Support

/-- What the functions do besides changing globals. -/
inductive NetEvent where
  | ethSend (packet : List UInt8)
  /-- `NetStartAgain`. -/
  | startAgain
  /-- `packetHandler`: the offset of the packet in the frame, unless it is `NULL`,
  the ports, and the length. -/
  | handler (pkt : Option ℕ) (dest src len : ℕ)
deriving DecidableEq, Repr

/-- The result of a function that reads the frame. -/
abbrev RxResult := Option (NetGlobals × List NetEvent)

/-- `return`. -/
def ignore (st : NetGlobals) : RxResult := some (st, [])

/-! ## ARP and RARP -/

/-- `ar_op` of a request and of a reply. -/
def arpopRequest : ℕ := 1

def arpopReply : ℕ := 2

def rarpopReply : ℕ := 4

/-- An ARP packet for Ethernet and IP. -/
def arpEther (arp : Octets 28) : Prop :=
  arp.short 0 = 1 ∧ arp.short 2 = protIP ∧ arp.byte 4 = 6 ∧ arp.byte 5 = 4

instance (arp : Octets 28) : Decidable (arpEther arp) :=
  inferInstanceAs (Decidable (_ ∧ _))

/-- The addresses of the sender and of the target. -/
def arpSha (arp : Octets 28) : EtherAddr := arp.sub 8 6

def arpSpa (arp : Octets 28) : IPaddr := arp.sub 14 4

def arpTpa (arp : Octets 28) : IPaddr := arp.sub 24 4

/-- The frame of a request as the answer to it. -/
def arpAnswer (st : NetGlobals) (frame : List UInt8) (ip : ℕ) (etSrc : EtherAddr)
    (arp : Octets 28) : List UInt8 :=
  let frame := overwrite frame 0 (netSetEther st etSrc protARP)
  let frame := overwrite frame (ip + 6) (htons arpopReply)
  let frame := overwrite frame (ip + 18) ((arpSha arp).1 ++ (arpSpa arp).1)
  overwrite frame (ip + 8) (st.netOurEther.1 ++ st.netOurIP.1)

/-- `ARPOP_REQUEST`. -/
def answerArp (st : NetGlobals) (frame : List UInt8) (ip : ℕ) (arp : Octets 28) :
    RxResult := do
  let etSrc ← bytesAt frame 6 6
  let packet ← bytesAt (arpAnswer st frame ip etSrc arp) 0
    (netEthHdrSize st + arpHdrSize)
  some (st, [.ethSend packet.1])

/-- `ARPOP_REPLY`: the waiting packet is sent to the sender. -/
def arpReply (st : NetGlobals) (arp : Octets 28) : NetGlobals × List NetEvent :=
  match st.netArpWaitPacketMAC with
  | none => (st, [])
  | some p =>
      if st.netArpWaitPacketIP = noIP then (st, [])
      else if arpSpa arp = st.netArpWaitReplyIP then
        let packet := st.netArpWaitTxPacket
        ({ st.setMac p (arpSha arp) with
            netArpWaitPacketIP := noIP
            netArpWaitTxPacket := []
            netArpWaitPacketMAC := none },
          [.ethSend (((arpSha arp).1 ++ packet.drop 6).take packet.length)])
      else (st, [])

/-- `case PROT_ARP`, with the packet at byte `ip`. -/
def receiveArp (st : NetGlobals) (frame : List UInt8) (ip : ℕ) : RxResult :=
  if frame.length - ip < arpHdrSize then ignore st
  else do
    let arp ← bytesAt frame ip 28
    if ¬ arpEther arp then ignore st
    else if st.netOurIP = noIP then ignore st
    else if arpTpa arp ≠ st.netOurIP then ignore st
    else if arp.short 6 = arpopRequest then answerArp st frame ip arp
    else if arp.short 6 = arpopReply then some (arpReply st arp)
    else ignore st

/-- `case PROT_RARP`. -/
def receiveRarp (st : NetGlobals) (frame : List UInt8) (ip : ℕ) : RxResult :=
  if frame.length - ip < arpHdrSize then ignore st
  else do
    let arp ← bytesAt frame ip 28
    if arp.short 6 ≠ rarpopReply ∨ ¬ arpEther arp then ignore st
    else
      some ({ st.setMac 0 (arpSha arp) with
          netOurIP := arpTpa arp
          netServerIP :=
            if st.netServerIP = noIP then arpSpa arp else st.netServerIP },
        [.handler none 0 0 0])

/-! ## IP and UDP -/

/-- The header of an IP packet that is for us and not a fragment. -/
def ipForUs (st : NetGlobals) (ip : Octets 28) : Prop :=
  ip.byte 0 &&& 0xf0 = 0x40 ∧ ip.short 6 % 2 ^ 13 = 0 ∧
    netCksumOk (ip.1.take 20) ∧
      (st.netOurIP = noIP ∨ (ip.sub 16 4 : IPaddr) = st.netOurIP ∨
        (ip.sub 16 4 : IPaddr) = broadcastIP)

instance (st : NetGlobals) (ip : Octets 28) : Decidable (ipForUs st ip) :=
  inferInstanceAs (Decidable (_ ∧ _ ∧ _ ∧ (_ ∨ _ ∨ _)))

/-- `IPPROTO_ICMP` and `IPPROTO_UDP`. -/
def ipprotoICMP : UInt8 := 1

def ipprotoUDP : UInt8 := 17

/-- `case ICMP_ECHO_REPLY`; the other types are at most printed. -/
def receiveIcmp (cfg : NetConfig) (st : NetGlobals) (ip : ℕ) (hdr : Octets 28) :
    RxResult :=
  if hdr.byte 20 = 0 ∧ cfg.ping = true then
    some (st, [.handler (some ip) 0 0 0])
  else ignore st

/-- The sum of the `ushort`s of a UDP packet in network byte order; an odd last byte
is the upper one. -/
def udpSum : List UInt8 → ℕ
  | a :: b :: rest => a.toNat * 2 ^ 8 + b.toNat + udpSum rest
  | [a] => a.toNat * 2 ^ 8
  | [] => 0

/-- `while ((xsum >> 16) != 0)`. -/
def foldSum (xsum : ℕ) : ℕ :=
  if xsum < 2 ^ 16 then xsum else foldSum (xsum % 2 ^ 16 + xsum / 2 ^ 16)
termination_by xsum
decreasing_by omega

/-- The checksum of a UDP packet with its pseudo header. -/
def udpCksumOk (hdr : Octets 28) (udp : List UInt8) : Prop :=
  foldSum ((hdr.byte 9).toNat + hdr.short 24 + hdr.short 12 + hdr.short 14 +
    hdr.short 16 + hdr.short 18 + udpSum udp) ∈ [0, 0xffff]

instance (hdr : Octets 28) (udp : List UInt8) : Decidable (udpCksumOk hdr udp) :=
  inferInstanceAs (Decidable (_ ∈ _))

/-- The current handler is called with a UDP packet. -/
def passUdp (st : NetGlobals) (ip : ℕ) (hdr : Octets 28) : RxResult :=
  some (st, [.handler (some (ip + ipHdrSize)) (hdr.short 22) (hdr.short 20)
    ((hdr.short 24 + 2 ^ 32 - 8) % 2 ^ 32)])

/-- The header has a UDP checksum that is looked at. -/
def checksUdp (cfg : NetConfig) (hdr : Octets 28) : Prop :=
  cfg.udpChecksum = true ∧ hdr.short 26 ≠ 0

instance (cfg : NetConfig) (hdr : Octets 28) : Decidable (checksUdp cfg hdr) :=
  inferInstanceAs (Decidable (_ ∧ _))

/-- A UDP packet whose IP header has been looked at. -/
def receiveUdp (cfg : NetConfig) (st : NetGlobals) (frame : List UInt8) (ip : ℕ)
    (hdr : Octets 28) : RxResult :=
  if checksUdp cfg hdr then do
    let udp ← bytesAt frame (ip + 20) (hdr.short 24)
    if udpCksumOk hdr udp.1 then passUdp st ip hdr else ignore st
  else passUdp st ip hdr

/-- `case PROT_IP`. -/
def receiveIp (cfg : NetConfig) (st : NetGlobals) (frame : List UInt8) (ip : ℕ) :
    RxResult :=
  if frame.length - ip < ipHdrSize then ignore st
  else do
    let hdr ← bytesAt frame ip 28
    if frame.length - ip < hdr.short 2 then ignore st
    else if ¬ ipForUs st hdr then ignore st
    else if hdr.byte 9 = ipprotoICMP then receiveIcmp cfg st ip hdr
    else if hdr.byte 9 = ipprotoUDP then receiveUdp cfg st frame ip hdr
    else ignore st

/-! ## The Ethernet header -/

/-- `switch (x)`. -/
def receiveProt (cfg : NetConfig) (st : NetGlobals) (frame : List UInt8)
    (x ip : ℕ) : RxResult :=
  if x = protARP then receiveArp st frame ip
  else if x = protRARP then receiveRarp st frame ip
  else if x = protIP then receiveIp cfg st frame ip
  else ignore st

/-- The VLAN of a frame is ours, or we have none. -/
def ourVlan (st : NetGlobals) (vlanid : ℕ) : Prop :=
  vlanId (activeVlan st.netOurVLAN) ≠ vlanNone →
    (if vlanid = vlanNone then vlanId (activeVlan st.netOurNativeVLAN)
      else vlanid) = vlanId (activeVlan st.netOurVLAN)

instance (st : NetGlobals) (vlanid : ℕ) : Decidable (ourVlan st vlanid) :=
  inferInstanceAs (Decidable (_ → _))

/-- A frame behind its Ethernet header. -/
def receiveVlan (cfg : NetConfig) (st : NetGlobals) (frame : List UInt8)
    (x ip vlanid : ℕ) : RxResult :=
  if ourVlan st vlanid then receiveProt cfg st frame x ip else ignore st

/-- `NetReceive`. -/
def netReceive (cfg : NetConfig) (st : NetGlobals) (inpkt : Frame) : RxResult :=
  if inpkt.1.length < etherHdrSize then ignore st
  else do
    let et ← bytesAt inpkt.1 0 14
    if et.short 12 < 1514 then do
      let prot ← bytesAt inpkt.1 20 2
      receiveVlan cfg st inpkt.1 (prot.short 0) e802HdrSize vlanNone
    else if et.short 12 ≠ protVLAN then
      receiveVlan cfg st inpkt.1 (et.short 12) etherHdrSize vlanNone
    else if inpkt.1.length < vlanEtherHdrSize then ignore st
    else if vlanId st.netOurVLAN = vlanNone then ignore st
    else do
      let vet ← bytesAt inpkt.1 14 4
      receiveVlan cfg st inpkt.1 (vet.short 2) vlanEtherHdrSize
        (vlanId (vet.short 0))

end TateFirmware.Net
