import TateFirmware.Net.Receive

/-!
# What is read of a received frame

`NetReceive` compares the length of a frame with the headers it looks at, except for
the header of an 802 packet, the answer to an ARP request, and the length in the UDP
header.
-/

namespace TateFirmware.Net

open Support

/-- The packet that a handler is called with is in the frame. -/
def NetEvent.Inside (frame : List UInt8) : NetEvent → Prop
  | .handler (some pkt) _ _ len => pkt + len ≤ frame.length
  | _ => True

/-- No byte behind the frame is read, and handlers are called with packets that are
in the frame. -/
def Stays (frame : List UInt8) : RxResult → Prop
  | none => False
  | some (_, events) => ∀ event ∈ events, event.Inside frame

/-! ## The condition -/

/-- The answer to an ARP request is not longer than the frame. -/
def AnswerFits (st : NetGlobals) (frame : List UInt8) (ip : ℕ) : Prop :=
  ∀ arp, bytesAt frame ip 28 = some arp → arpEther arp → st.netOurIP ≠ noIP →
    arpTpa arp = st.netOurIP → arp.short 6 = arpopRequest →
      netEthHdrSize st + arpHdrSize ≤ frame.length

/-- The length in the UDP header of a packet for us does not reach behind the frame
and counts the header, unless the packet is dropped for its checksum. -/
def UdpFits (cfg : NetConfig) (st : NetGlobals) (frame : List UInt8) (ip : ℕ) :
    Prop :=
  ∀ hdr, bytesAt frame ip 28 = some hdr → hdr.short 2 ≤ frame.length - ip →
    ipForUs st hdr → hdr.byte 9 = ipprotoUDP →
      ip + 20 + hdr.short 24 ≤ frame.length ∧
        (8 ≤ hdr.short 24 ∨ checksUdp cfg hdr ∧
          ¬ udpCksumOk hdr ((frame.drop (ip + 20)).take (hdr.short 24)))

/-- The same for a network packet of any protocol whose VLAN is ours. -/
def ProtFits (cfg : NetConfig) (st : NetGlobals) (frame : List UInt8)
    (x ip vlanid : ℕ) : Prop :=
  ourVlan st vlanid →
    (x = protARP → AnswerFits st frame ip) ∧
      (x = protIP → UdpFits cfg st frame ip)

/-- The lengths of a frame agree, as far as they are looked at. -/
def LengthsFit (cfg : NetConfig) (st : NetGlobals) (inpkt : Frame) : Prop :=
  ∀ et, bytesAt inpkt.1 0 14 = some et →
    if et.short 12 < 1514 then
      ∃ prot, bytesAt inpkt.1 20 2 = some prot ∧
        ProtFits cfg st inpkt.1 (prot.short 0) e802HdrSize vlanNone
    else if et.short 12 ≠ protVLAN then
      ProtFits cfg st inpkt.1 (et.short 12) etherHdrSize vlanNone
    else
      ∀ vet, bytesAt inpkt.1 14 4 = some vet → vlanId st.netOurVLAN ≠ vlanNone →
        ProtFits cfg st inpkt.1 (vet.short 2) vlanEtherHdrSize
          (vlanId (vet.short 0))

/-! ## The cases -/

section Cases

variable {cfg : NetConfig} {st : NetGlobals} {frame : List UInt8} {ip : ℕ}

theorem stays_ignore : Stays frame (ignore st) :=
  fun _ h => absurd h List.not_mem_nil

theorem stays_bind {α : Type} {a? : Option α} {f : α → RxResult} :
    Stays frame (a? >>= f) ↔ ∃ a, a? = some a ∧ Stays frame (f a) := by
  cases a? with
  | none => exact iff_of_false id fun ⟨_, h, _⟩ => by cases h
  | some a =>
      constructor
      · exact fun h => ⟨a, rfl, h⟩
      · rintro ⟨_, h, hstays⟩
        obtain rfl := Option.some.inj h
        exact hstays

/-- A read that the length has been looked at for. -/
theorem stays_read {i n : ℕ} {f : Octets n → RxResult}
    (h : i + n ≤ frame.length) : Stays frame (bytesAt frame i n >>= f) ↔
      ∀ b, bytesAt frame i n = some b → Stays frame (f b) := by
  obtain ⟨b, hb⟩ := bytesAt_of_le h
  rw [stays_bind, hb]
  constructor
  · rintro ⟨_, h, hstays⟩ b' h'
    exact Option.some.inj (h.symm.trans h') ▸ hstays
  · exact fun h => ⟨b, rfl, h b rfl⟩

theorem bytesAt_eq_none {i n : ℕ} (h : ¬ i + n ≤ frame.length) (b : Octets n) :
    bytesAt frame i n ≠ some b := fun hb =>
  h (bytesAt_isSome_iff.mp (by rw [hb]; rfl))

theorem netEthHdrSize_le : netEthHdrSize st ≤ 18 := by
  unfold netEthHdrSize
  split
  · decide
  · decide

theorem arpAnswer_length (etSrc : EtherAddr) (arp : Octets 28)
    (h : ip + 28 ≤ frame.length) :
    (arpAnswer st frame ip etSrc arp).length = frame.length := by
  have hle := @netEthHdrSize_le st
  have hset := netSetEther_length st etSrc protARP
  have hsender : ((arpSha arp).1 ++ (arpSpa arp).1).length = 10 := by
    rw [List.length_append, (arpSha arp).2, (arpSpa arp).2]
  have hours : (st.netOurEther.1 ++ st.netOurIP.1).length = 10 := by
    rw [List.length_append, st.netOurEther.2, st.netOurIP.2]
  unfold arpAnswer
  dsimp only
  generalize netSetEther st etSrc protARP = header at hset ⊢
  generalize (arpSha arp).1 ++ (arpSpa arp).1 = sender at hsender ⊢
  generalize st.netOurEther.1 ++ st.netOurIP.1 = ours at hours ⊢
  have h₀ := @overwrite_length frame 0 header (by omega)
  have h₁ := @overwrite_length (overwrite frame 0 header) (ip + 6)
    (htons arpopReply) (by rw [htons_length]; omega)
  generalize overwrite (overwrite frame 0 header) (ip + 6) (htons arpopReply) =
    frame₁ at h₁ ⊢
  have h₂ := @overwrite_length frame₁ (ip + 18) sender (by omega)
  rw [overwrite_length (by omega), h₂, h₁, h₀]

/-- The answer that is sent stays in the packet buffer if it is read from it. -/
theorem sendAnswer_stays_iff {reply : List UInt8} {n : ℕ} :
    Stays frame (bytesAt reply 0 n >>= fun packet =>
        some (st, [NetEvent.ethSend packet.1])) ↔ n ≤ reply.length := by
  rw [stays_bind]
  constructor
  · rintro ⟨packet, hpacket, -⟩
    have hle := bytesAt_isSome_iff.mp (Option.isSome_iff_exists.mpr ⟨_, hpacket⟩)
    rwa [Nat.zero_add] at hle
  · intro hle
    obtain ⟨packet, hpacket⟩ := @bytesAt_of_le reply 0 n (by omega)
    refine ⟨packet, hpacket, fun event hevent => ?_⟩
    rw [List.mem_singleton.mp hevent]
    trivial

theorem answerArp_stays_iff {arp : Octets 28} (h : ip + 28 ≤ frame.length) :
    Stays frame (answerArp st frame ip arp) ↔
      netEthHdrSize st + arpHdrSize ≤ frame.length := by
  have hanswer (etSrc : EtherAddr) :
      Stays frame (bytesAt (arpAnswer st frame ip etSrc arp) 0
        (netEthHdrSize st + arpHdrSize) >>= fun packet =>
          some (st, [NetEvent.ethSend packet.1])) ↔
        netEthHdrSize st + arpHdrSize ≤ frame.length := by
    rw [sendAnswer_stays_iff, arpAnswer_length etSrc arp h]
  obtain ⟨etSrc, hsrc⟩ := @bytesAt_of_le frame 6 6 (by omega)
  unfold answerArp
  rw [stays_read (by omega)]
  simp only [hanswer]
  exact ⟨fun hall => hall etSrc hsrc, fun hle _ _ => hle⟩

theorem arpReply_inside (arp : Octets 28) :
    ∀ event ∈ (arpReply st arp).2, event.Inside frame := by
  unfold arpReply
  split
  · exact fun _ h => absurd h List.not_mem_nil
  · split
    · exact fun _ h => absurd h List.not_mem_nil
    · split
      · intro event hevent
        rw [List.mem_singleton.mp hevent]
        trivial
      · exact fun _ h => absurd h List.not_mem_nil

theorem receiveArp_stays_iff :
    Stays frame (receiveArp st frame ip) ↔ AnswerFits st frame ip := by
  unfold receiveArp
  by_cases hshort : frame.length - ip < arpHdrSize
  · rw [if_pos hshort]
    exact iff_of_true stays_ignore fun arp harp =>
      absurd harp (bytesAt_eq_none (by simp only [arpHdrSize] at hshort; omega) arp)
  · have hlen : ip + 28 ≤ frame.length := by
      simp only [arpHdrSize] at hshort
      omega
    rw [if_neg hshort, stays_read hlen]
    refine forall_congr' fun arp => forall_congr' fun _ => ?_
    by_cases hether : arpEther arp
    · rw [if_neg (not_not.mpr hether), forall_prop_of_true hether]
      by_cases hour : st.netOurIP = noIP
      · rw [if_pos hour]
        exact iff_of_true stays_ignore fun h => absurd hour h
      · rw [if_neg hour, forall_prop_of_true hour]
        by_cases htpa : arpTpa arp = st.netOurIP
        · rw [if_neg (not_not.mpr htpa), forall_prop_of_true htpa]
          by_cases hop : arp.short 6 = arpopRequest
          · rw [if_pos hop, forall_prop_of_true hop]
            exact answerArp_stays_iff hlen
          · rw [if_neg hop]
            refine iff_of_true ?_ fun h => absurd h hop
            split
            · exact arpReply_inside arp
            · exact stays_ignore
        · rw [if_pos htpa]
          exact iff_of_true stays_ignore fun h => absurd h htpa
    · rw [if_pos hether]
      exact iff_of_true stays_ignore fun h => absurd h hether

theorem receiveRarp_stays : Stays frame (receiveRarp st frame ip) := by
  unfold receiveRarp
  split
  · exact stays_ignore
  · rename_i hlong
    rw [stays_read (by simp only [arpHdrSize] at hlong; omega)]
    intro arp _
    split
    · exact stays_ignore
    · intro event hevent
      rw [List.mem_singleton.mp hevent]
      trivial

theorem passUdp_stays_iff {hdr : Octets 28} (hframe : frame.length < 2 ^ 31)
    (hlen : ip + 28 ≤ frame.length) : Stays frame (passUdp st ip hdr) ↔
      ip + 20 + hdr.short 24 ≤ frame.length ∧ 8 ≤ hdr.short 24 := by
  have hshort : hdr.short 24 < 2 ^ 16 := by
    unfold Octets.short ntohs
    split
    · rename_i a b _ _
      have ha := a.toNat_lt
      have hb := b.toNat_lt
      omega
    · decide
  have hpass : Stays frame (passUdp st ip hdr) ↔
      ip + ipHdrSize + (hdr.short 24 + 2 ^ 32 - 8) % 2 ^ 32 ≤ frame.length := by
    constructor
    · exact fun h => h _ (List.mem_singleton_self _)
    · intro h event hevent
      rw [List.mem_singleton.mp hevent]
      exact h
  rw [hpass, ipHdrSize]
  omega

theorem receiveIcmp_stays {hdr : Octets 28} (hlen : ip + 28 ≤ frame.length) :
    Stays frame (receiveIcmp cfg st ip hdr) := by
  unfold receiveIcmp
  split
  · intro event hevent
    rw [List.mem_singleton.mp hevent]
    change ip + 0 ≤ frame.length
    omega
  · exact stays_ignore

theorem receiveUdp_stays_iff {hdr : Octets 28} (hframe : frame.length < 2 ^ 31)
    (hlen : ip + 28 ≤ frame.length) : Stays frame (receiveUdp cfg st frame ip hdr) ↔
      ip + 20 + hdr.short 24 ≤ frame.length ∧
        (8 ≤ hdr.short 24 ∨ checksUdp cfg hdr ∧
          ¬ udpCksumOk hdr ((frame.drop (ip + 20)).take (hdr.short 24))) := by
  have hpass := @passUdp_stays_iff st frame ip hdr hframe hlen
  rw [receiveUdp]
  by_cases hchecks : checksUdp cfg hdr
  · rw [if_pos hchecks]
    by_cases hread : ip + 20 + hdr.short 24 ≤ frame.length
    · obtain ⟨b, hb⟩ := bytesAt_of_le hread
      have hbytes : b.1 = (frame.drop (ip + 20)).take (hdr.short 24) := by
        rw [bytesAt, dif_pos hread] at hb
        exact (congrArg Subtype.val (Option.some.inj hb)).symm
      rw [and_iff_right hread, ← hbytes]
      have hone : Stays frame (bytesAt frame (ip + 20) (hdr.short 24) >>= fun udp =>
          if udpCksumOk hdr udp.1 then passUdp st ip hdr else ignore st) ↔
            Stays frame (if udpCksumOk hdr b.1 then passUdp st ip hdr
              else ignore st) := by
        rw [hb]
        rfl
      rw [hone]
      by_cases hok : udpCksumOk hdr b.1
      · rw [if_pos hok, hpass, and_iff_right hread]
        exact ⟨Or.inl, fun h => h.resolve_right fun h => h.2 hok⟩
      · rw [if_neg hok]
        exact iff_of_true stays_ignore (Or.inr ⟨hchecks, hok⟩)
    · refine iff_of_false (fun h => ?_) fun h => hread h.1
      obtain ⟨b, hb, -⟩ := stays_bind.mp h
      exact bytesAt_eq_none hread b hb
  · rw [if_neg hchecks, hpass]
    exact and_congr_right fun _ =>
      ⟨Or.inl, fun h => h.resolve_right fun h => hchecks h.1⟩

theorem receiveIp_stays_iff (hframe : frame.length < 2 ^ 31) :
    Stays frame (receiveIp cfg st frame ip) ↔ UdpFits cfg st frame ip := by
  unfold receiveIp
  by_cases hshort : frame.length - ip < ipHdrSize
  · rw [if_pos hshort]
    exact iff_of_true stays_ignore fun hdr hhdr =>
      absurd hhdr (bytesAt_eq_none (by simp only [ipHdrSize] at hshort; omega) hdr)
  · have hlen : ip + 28 ≤ frame.length := by
      simp only [ipHdrSize] at hshort
      omega
    rw [if_neg hshort, stays_read hlen]
    refine forall_congr' fun hdr => forall_congr' fun _ => ?_
    by_cases htotal : hdr.short 2 ≤ frame.length - ip
    · rw [if_neg (not_lt.mpr htotal), forall_prop_of_true htotal]
      by_cases hus : ipForUs st hdr
      · rw [if_neg (not_not.mpr hus), forall_prop_of_true hus]
        by_cases hicmp : hdr.byte 9 = ipprotoICMP
        · rw [if_pos hicmp]
          exact iff_of_true (receiveIcmp_stays hlen) fun h =>
            absurd (hicmp.symm.trans h) (by decide)
        · rw [if_neg hicmp]
          by_cases hudp : hdr.byte 9 = ipprotoUDP
          · rw [if_pos hudp, forall_prop_of_true hudp]
            exact receiveUdp_stays_iff hframe hlen
          · rw [if_neg hudp]
            exact iff_of_true stays_ignore fun h => absurd h hudp
      · rw [if_pos hus]
        exact iff_of_true stays_ignore fun h => absurd h hus
    · rw [if_pos (not_le.mp htotal)]
      exact iff_of_true stays_ignore fun h => absurd h htotal

theorem receiveVlan_stays_iff {x vlanid : ℕ} (hframe : frame.length < 2 ^ 31) :
    Stays frame (receiveVlan cfg st frame x ip vlanid) ↔
      ProtFits cfg st frame x ip vlanid := by
  unfold receiveVlan ProtFits
  by_cases hour : ourVlan st vlanid
  · rw [if_pos hour, forall_prop_of_true hour]
    unfold receiveProt
    by_cases harp : x = protARP
    · rw [if_pos harp, receiveArp_stays_iff, forall_prop_of_true harp]
      refine (and_iff_left fun h => ?_).symm
      exact absurd (harp.symm.trans h) (by decide)
    · rw [if_neg harp]
      by_cases hrarp : x = protRARP
      · rw [if_pos hrarp]
        exact iff_of_true receiveRarp_stays ⟨fun h => absurd h harp, fun h =>
          absurd (hrarp.symm.trans h) (by decide)⟩
      · rw [if_neg hrarp]
        by_cases hprot : x = protIP
        · rw [if_pos hprot, receiveIp_stays_iff hframe, forall_prop_of_true hprot]
          exact (and_iff_right fun h => absurd h harp).symm
        · rw [if_neg hprot]
          exact iff_of_true stays_ignore
            ⟨fun h => absurd h harp, fun h => absurd h hprot⟩
  · rw [if_neg hour]
    exact iff_of_true stays_ignore fun h => absurd h hour

end Cases

/-- `NetReceive` stays in the frame exactly if its lengths agree. -/
theorem netReceive_stays_iff (cfg : NetConfig) (st : NetGlobals) (inpkt : Frame) :
    Stays inpkt.1 (netReceive cfg st inpkt) ↔ LengthsFit cfg st inpkt := by
  unfold netReceive LengthsFit
  by_cases hshort : inpkt.1.length < etherHdrSize
  · rw [if_pos hshort]
    exact iff_of_true stays_ignore fun et het => absurd het
      (bytesAt_eq_none (by simp only [etherHdrSize] at hshort; omega) et)
  · rw [if_neg hshort, stays_read (by simp only [etherHdrSize] at hshort; omega)]
    refine forall_congr' fun et => forall_congr' fun _ => ?_
    by_cases h802 : et.short 12 < 1514
    · rw [if_pos h802, if_pos h802, stays_bind]
      refine exists_congr fun prot => and_congr_right fun _ => ?_
      exact receiveVlan_stays_iff inpkt.2
    · rw [if_neg h802, if_neg h802]
      by_cases hvlan : et.short 12 ≠ protVLAN
      · rw [if_pos hvlan, if_pos hvlan]
        exact receiveVlan_stays_iff inpkt.2
      · rw [if_neg hvlan, if_neg hvlan]
        by_cases hlong : inpkt.1.length < vlanEtherHdrSize
        · rw [if_pos hlong]
          exact iff_of_true stays_ignore fun vet hvet => absurd hvet
            (bytesAt_eq_none (by simp only [vlanEtherHdrSize] at hlong; omega) vet)
        · rw [if_neg hlong]
          have hread : 14 + 4 ≤ inpkt.1.length := by
            simp only [vlanEtherHdrSize] at hlong
            omega
          by_cases hnone : vlanId st.netOurVLAN = vlanNone
          · rw [if_pos hnone]
            exact iff_of_true stays_ignore fun _ _ h => absurd hnone h
          · rw [if_neg hnone, stays_read hread]
            refine forall_congr' fun vet => forall_congr' fun _ => ?_
            rw [forall_prop_of_true hnone]
            exact receiveVlan_stays_iff inpkt.2

/-- A board with an address and nothing to wait for. -/
def idleNet : NetGlobals where
  macs := fun _ => netEtherNullAddr
  netOurEther := ⟨[2, 0, 0, 0, 0, 1], rfl⟩
  netOurIP := ⟨[10, 0, 0, 1], rfl⟩
  netOurSubnetMask := ⟨[255, 255, 255, 0], rfl⟩
  netOurGatewayIP := noIP
  netServerIP := noIP
  netOurVLAN := 0xffff
  netOurNativeVLAN := 0xffff
  netIPID := 0
  netArpWaitPacketIP := noIP
  netArpWaitReplyIP := noIP
  netArpWaitPacketMAC := none
  netArpWaitTxPacket := []
  netArpWaitTimerStart := 0
  netArpWaitTry := 0

/-- A frame of 42 bytes with a UDP packet that is said to have 1008 bytes. -/
def forgedFrame : Frame :=
  ⟨[2, 0, 0, 0, 0, 1] ++ [2, 0, 0, 0, 0, 2] ++ [0x08, 0x00] ++
    [0x45, 0, 0, 28, 0, 0, 0x40, 0, 255, 17, 0x67, 0xce, 10, 0, 0, 2, 10, 0, 0, 1] ++
    [0, 69, 0, 69, 0x03, 0xf0, 0, 0], by decide⟩

/-- The handler is called with 1000 bytes behind the end of the frame. -/
theorem not_stays : ¬ Stays forgedFrame.1
    (netReceive ⟨true, false⟩ idleNet forgedFrame) := by
  have hresult : netReceive ⟨true, false⟩ idleNet forgedFrame =
      some (idleNet, [.handler (some 42) 69 69 1000]) := by
    rfl
  rw [hresult]
  intro hall
  have hinside : 42 + 1000 ≤ forgedFrame.1.length :=
    hall _ (List.mem_singleton_self _)
  exact absurd hinside (by decide)

end TateFirmware.Net
