import TateFirmware.Support.Run
import TateFirmware.Net.Receive

/-!
# Sending to addresses that are not known yet

`NetSendUDPPacket` keeps a packet whose Ethernet address is not known and broadcasts
an ARP request.  `ArpTimeoutCheck` repeats the request, and `NetReceive` sends the
packet when the reply comes.
-/

namespace TateFirmware.Net

open Support

/-- `CFG_HZ` and `ARP_TIMEOUT_COUNT`. -/
structure ArpConfig where
  cfgHz : UInt32
  arpTimeoutCount : ℕ

/-- `ARP_TIMEOUT`. -/
def arpTimeout : UInt32 := 5

/-- The address that a request for an IP address asks for: the gateway when the
address is not in the subnet, unless there is none. -/
def arpTarget (st : NetGlobals) (ip : IPaddr) : IPaddr :=
  if maskIP ip st.netOurSubnetMask ≠ maskIP st.netOurIP st.netOurSubnetMask then
    if st.netOurGatewayIP = noIP then ip else st.netOurGatewayIP
  else ip

/-- The request that is broadcast. -/
def arpPacket (st : NetGlobals) (target : IPaddr) : List UInt8 :=
  netSetEther st netBcastAddr protARP ++ htons 1 ++ htons protIP ++ [6, 4] ++
    htons arpopRequest ++ st.netOurEther.1 ++ st.netOurIP.1 ++
    List.replicate 6 0 ++ target.1

/-- `ArpRequest`. -/
def arpRequest (st : NetGlobals) : NetGlobals × List NetEvent :=
  let target := arpTarget st st.netArpWaitPacketIP
  ({ st with netArpWaitReplyIP := target }, [.ethSend (arpPacket st target)])

/-- `ArpTimeoutCheck` at the time `t`. -/
def arpTimeoutCheck (cfg : ArpConfig) (t : UInt32) (st : NetGlobals) :
    NetGlobals × List NetEvent :=
  if st.netArpWaitPacketIP = noIP then (st, [])
  else if t - st.netArpWaitTimerStart > arpTimeout * cfg.cfgHz then
    if st.netArpWaitTry + 1 ≥ cfg.arpTimeoutCount then
      ({ st with netArpWaitTry := 0 }, [.startAgain])
    else
      arpRequest { st with
        netArpWaitTry := st.netArpWaitTry + 1
        netArpWaitTimerStart := t }
  else (st, [])

/-- A UDP packet with all its headers. -/
def udpPacket (st : NetGlobals) (addr : EtherAddr) (dest : IPaddr)
    (dport sport : ℕ) (payload : List UInt8) : List UInt8 :=
  netSetEther st addr protIP ++ netSetIP st dest dport sport payload.length ++
    payload

/-- A packet for `NetSendUDPPacket`: the buffer of the Ethernet address, the address,
the ports, and what has been put into `NetTxPacket`. -/
structure UdpSend where
  ether : ℕ
  dest : IPaddr
  dport : ℕ
  sport : ℕ
  payload : List UInt8

/-- `dest`, in the new style of broadcast. -/
def UdpSend.to (s : UdpSend) : IPaddr :=
  if s.dest = noIP then broadcastIP else s.dest

/-- The Ethernet address that a packet is sent to. -/
def UdpSend.addr (st : NetGlobals) (s : UdpSend) : EtherAddr :=
  if s.to = broadcastIP then netBcastAddr else st.macs s.ether

/-- `NetSendUDPPacket` at the time `t`. -/
def netSendUDPPacket (t : UInt32) (st : NetGlobals) (s : UdpSend) :
    NetGlobals × List NetEvent :=
  let packet := udpPacket st (s.addr st) s.to s.dport s.sport s.payload
  let st' := { st with netIPID := st.netIPID + 1 }
  if s.addr st = netEtherNullAddr then
    arpRequest { st' with
      netArpWaitPacketIP := s.to
      netArpWaitPacketMAC := some s.ether
      netArpWaitTxPacket := packet
      netArpWaitTry := 1
      netArpWaitTimerStart := t }
  else (st', [.ethSend packet])

/-- What `NetLoop` does to the globals at its start. -/
def netLoopInit (st : NetGlobals) : NetGlobals :=
  { st with
    netArpWaitPacketMAC := none
    netArpWaitPacketIP := noIP
    netArpWaitReplyIP := noIP
    netArpWaitTxPacket := [] }

/-! ## Runs -/

/-- The ARP packet in a frame. -/
def arpOf (frame : List UInt8) : Option (Octets 28) := do
  let et ← bytesAt frame 0 14
  if et.short 12 < 1514 then do
    let prot ← bytesAt frame 20 2
    if prot.short 0 = protARP then bytesAt frame e802HdrSize 28 else none
  else if et.short 12 ≠ protVLAN then
    if et.short 12 = protARP then bytesAt frame etherHdrSize 28 else none
  else do
    let vet ← bytesAt frame 14 4
    if vet.short 2 = protARP then bytesAt frame vlanEtherHdrSize 28 else none

/-- A frame with an ARP reply. -/
structure ReplyFrame where
  frame : Frame
  arp : Octets 28
  carries : arpOf frame.1 = some arp
  reply : arp.short 6 = arpopReply

/-- What happens to the ARP layer. -/
inductive ArpInput where
  | send (t : UInt32) (s : UdpSend)
  | reply (frame : ReplyFrame)
  | timeout (t : UInt32)

/-- One step. -/
def arpStep (cfg : NetConfig) (arpCfg : ArpConfig) (st : NetGlobals) :
    ArpInput → NetGlobals × List NetEvent
  | .send t s => netSendUDPPacket t st s
  | .reply frame => (netReceive cfg st frame.frame).getD (st, [])
  | .timeout t => arpTimeoutCheck arpCfg t st

/-- `NetReceive` looks at the reply in a frame, or drops the frame. -/
theorem netReceive_reply (cfg : NetConfig) (st : NetGlobals) (f : ReplyFrame) :
    netReceive cfg st f.frame = some (st, []) ∨
      netReceive cfg st f.frame = some (arpReply st f.arp) := by
  obtain ⟨frame, arp, hcarries, hreply⟩ := f
  -- where the packet is behind any of the three headers
  have hprot : ∀ ip vlanid, bytesAt frame.1 ip 28 = some arp →
      receiveVlan cfg st frame.1 protARP ip vlanid = some (st, []) ∨
        receiveVlan cfg st frame.1 protARP ip vlanid =
          some (arpReply st arp) := by
    intro ip vlanid harp
    have hlen := bytesAt_isSome_iff.mp (Option.isSome_iff_exists.mpr ⟨_, harp⟩)
    have hlong : ¬ frame.1.length - ip < arpHdrSize := by
      rw [arpHdrSize]
      omega
    unfold receiveVlan
    split
    · rw [receiveProt, if_pos rfl, receiveArp, if_neg hlong, harp]
      change (if ¬ arpEther arp then _ else _) = _ ∨
        (if ¬ arpEther arp then _ else _) = _
      rw [if_neg (show ¬ arp.short 6 = arpopRequest by rw [hreply]; decide),
        if_pos hreply]
      split
      · exact Or.inl rfl
      · split
        · exact Or.inl rfl
        · split
          · exact Or.inl rfl
          · exact Or.inr rfl
    · exact Or.inl rfl
  have hlen : 14 ≤ frame.1.length := by
    by_contra hshort
    have hnone : bytesAt frame.1 0 14 = none := by
      rw [bytesAt, dif_neg (by omega)]
    rw [arpOf, hnone] at hcarries
    cases hcarries
  obtain ⟨et, het⟩ := @bytesAt_of_le frame.1 0 14 (by omega)
  dsimp only
  rw [netReceive, if_neg (by rw [etherHdrSize]; omega)]
  rw [arpOf] at hcarries
  rw [het] at hcarries ⊢
  simp only [Option.bind_eq_bind, Option.bind_some] at hcarries ⊢
  by_cases h802 : et.short 12 < 1514
  · rw [if_pos h802] at hcarries ⊢
    cases hread : bytesAt frame.1 20 2 with
    | none =>
        rw [hread] at hcarries
        cases hcarries
    | some prot =>
        rw [hread] at hcarries
        simp only [Option.bind_some] at hcarries ⊢
        split at hcarries
        · rename_i harp
          rw [harp]
          exact hprot _ _ hcarries
        · cases hcarries
  · rw [if_neg h802] at hcarries ⊢
    by_cases hvlan : et.short 12 ≠ protVLAN
    · rw [if_pos hvlan] at hcarries ⊢
      split at hcarries
      · rename_i harp
        rw [harp]
        exact hprot _ _ hcarries
      · cases hcarries
    · rw [if_neg hvlan] at hcarries ⊢
      cases hread : bytesAt frame.1 14 4 with
      | none =>
          rw [hread] at hcarries
          cases hcarries
      | some vet =>
          have hle := bytesAt_isSome_iff.mp
            (Option.isSome_iff_exists.mpr ⟨_, hread⟩)
          rw [hread] at hcarries
          rw [if_neg (by rw [vlanEtherHdrSize]; omega)]
          simp only [Option.bind_some] at hcarries ⊢
          split
          · exact Or.inl rfl
          · split at hcarries
            · rename_i harp
              rw [harp]
              exact hprot _ _ hcarries
            · cases hcarries

end TateFirmware.Net
