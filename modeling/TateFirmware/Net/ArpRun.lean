import TateFirmware.Net.Arp
import TateFirmware.Net.ReceiveBounds

/-!
# The packet that waits for an ARP reply

In every run of sends, replies and timeouts a packet that has been kept is sent at
most once, after a reply from the address that was asked for, to the sender of that
reply.  The reply may carry the address that stands for an unknown one.
-/

namespace TateFirmware.Net

open Support

/-! ## Headers -/

theorem netSetEther_split (st : NetGlobals) (prot : ℕ) :
    ∃ tail, ∀ addr : EtherAddr, netSetEther st addr prot = addr.1 ++ tail := by
  unfold netSetEther
  split
  · exact ⟨st.netOurEther.1 ++ htons prot, fun addr => List.append_assoc ..⟩
  · exact ⟨st.netOurEther.1 ++ (htons protVLAN ++
      (htons (vlanId (activeVlan st.netOurVLAN)) ++ htons prot)),
      fun addr => by simp only [List.append_assoc]⟩

theorem netSetEther_take (st : NetGlobals) (addr : EtherAddr) (prot : ℕ)
    (rest : List UInt8) :
    (netSetEther st addr prot ++ rest).take 6 = addr.1 := by
  obtain ⟨tail, htail⟩ := netSetEther_split st prot
  rw [htail, List.append_assoc]
  exact List.take_left' addr.2

/-- A packet for another Ethernet address. -/
theorem udpPacket_addr (st : NetGlobals) (addr mac : EtherAddr) (dest : IPaddr)
    (dport sport : ℕ) (payload : List UInt8) :
    (mac.1 ++ (udpPacket st addr dest dport sport payload).drop 6).take
        (udpPacket st addr dest dport sport payload).length =
      udpPacket st mac dest dport sport payload := by
  obtain ⟨tail, htail⟩ := netSetEther_split st protIP
  simp only [udpPacket, htail, List.append_assoc]
  rw [List.drop_left' addr.2, List.length_append, addr.2]
  refine List.take_of_length_le ?_
  rw [List.length_append, mac.2]

theorem udpPacket_take (st : NetGlobals) (addr : EtherAddr) (dest : IPaddr)
    (dport sport : ℕ) (payload : List UInt8) :
    (udpPacket st addr dest dport sport payload).take 6 = addr.1 := by
  unfold udpPacket
  rw [List.append_assoc]
  exact netSetEther_take ..

theorem arpPacket_take (st : NetGlobals) (target : IPaddr) :
    (arpPacket st target).take 6 = netBcastAddr.1 := by
  unfold arpPacket
  simp only [List.append_assoc]
  exact netSetEther_take ..

/-! ## The steps -/

section Steps

variable (cfg : NetConfig) (arpCfg : ArpConfig)

/-- The globals after some inputs. -/
def arpAfter (st : NetGlobals) (inputs : List ArpInput) : NetGlobals :=
  (run (arpStep cfg arpCfg) (netLoopInit st) inputs).1

/-- A packet is kept. -/
def Parks (st : NetGlobals) : ArpInput → Prop
  | .send _ s => s.addr st = netEtherNullAddr
  | _ => False

/-- The waiting packet is sent. -/
def Releases (st : NetGlobals) : ArpInput → Prop
  | .reply frame => (arpStep cfg arpCfg st (.reply frame)).2 ≠ []
  | _ => False

/-- Neither a packet is kept nor one that waits is sent. -/
def Quiet (st : NetGlobals) (input : ArpInput) : Prop :=
  ¬ Parks st input ∧ ¬ Releases cfg arpCfg st input

/-- The globals that no input changes. -/
structure SameNet (st st' : NetGlobals) : Prop where
  ourIP : st'.netOurIP = st.netOurIP
  subnet : st'.netOurSubnetMask = st.netOurSubnetMask
  gateway : st'.netOurGatewayIP = st.netOurGatewayIP

variable {cfg arpCfg} {st st' st'' : NetGlobals}

theorem SameNet.refl (st : NetGlobals) : SameNet st st := ⟨rfl, rfl, rfl⟩

theorem SameNet.trans (h : SameNet st st') (h' : SameNet st' st'') :
    SameNet st st'' :=
  ⟨h'.ourIP.trans h.ourIP, h'.subnet.trans h.subnet, h'.gateway.trans h.gateway⟩

theorem SameNet.arpTarget (h : SameNet st st') (ip : IPaddr) :
    arpTarget st' ip = arpTarget st ip := by
  simp only [Net.arpTarget, h.ourIP, h.subnet, h.gateway]

/-- The waiting packet and the address that has been asked for. -/
structure WaitsFor (st : NetGlobals) (target : IPaddr) (s : UdpSend)
    (packet : List UInt8) : Prop where
  packetIP : st.netArpWaitPacketIP = s.to
  replyIP : st.netArpWaitReplyIP = target
  packet : st.netArpWaitTxPacket = packet

theorem arpReply_cases (st : NetGlobals) (arp : Octets 28) :
    arpReply st arp = (st, []) ∨
      (arpReply st arp).1.netArpWaitPacketMAC = none ∧
        SameNet st (arpReply st arp).1 ∧ st.netArpWaitPacketMAC ≠ none ∧
        arpSpa arp = st.netArpWaitReplyIP ∧
        (arpReply st arp).2 = [.ethSend (((arpSha arp).1 ++
          st.netArpWaitTxPacket.drop 6).take st.netArpWaitTxPacket.length)] := by
  unfold arpReply
  cases hmac : st.netArpWaitPacketMAC with
  | none => exact Or.inl rfl
  | some p =>
      dsimp only
      split
      · exact Or.inl rfl
      · split
        · rename_i hspa
          exact Or.inr ⟨rfl, ⟨rfl, rfl, rfl⟩, by simp, hspa, rfl⟩
        · exact Or.inl rfl

/-- What a reply does. -/
theorem replyStep_cases (st : NetGlobals) (f : ReplyFrame) :
    arpStep cfg arpCfg st (.reply f) = (st, []) ∨
      (arpStep cfg arpCfg st (.reply f)).1.netArpWaitPacketMAC = none ∧
        SameNet st (arpStep cfg arpCfg st (.reply f)).1 ∧
        st.netArpWaitPacketMAC ≠ none ∧
        arpSpa f.arp = st.netArpWaitReplyIP ∧
        (arpStep cfg arpCfg st (.reply f)).2 = [.ethSend (((arpSha f.arp).1 ++
          st.netArpWaitTxPacket.drop 6).take st.netArpWaitTxPacket.length)] := by
  rw [arpStep]
  rcases netReceive_reply cfg st f with h | h
  · rw [h]
    exact Or.inl rfl
  · rw [h, Option.getD_some]
    exact arpReply_cases st f.arp

/-- What a timeout does. -/
theorem timeoutStep_cases (t : UInt32) (st : NetGlobals) :
    SameNet st (arpTimeoutCheck arpCfg t st).1 ∧
      (∀ event ∈ (arpTimeoutCheck arpCfg t st).2, ∀ packet,
        event = .ethSend packet → packet.take 6 = netBcastAddr.1) ∧
      (arpTimeoutCheck arpCfg t st).1.netArpWaitPacketMAC =
        st.netArpWaitPacketMAC ∧
      ∀ s packet, WaitsFor st (arpTarget st s.to) s packet →
        WaitsFor (arpTimeoutCheck arpCfg t st).1 (arpTarget st s.to) s packet := by
  unfold arpTimeoutCheck
  split
  · exact ⟨.refl st, fun _ h => absurd h List.not_mem_nil, rfl,
      fun _ _ h => h⟩
  · split
    · split
      · refine ⟨⟨rfl, rfl, rfl⟩, fun event hevent packet heq => ?_, rfl,
          fun _ _ h => ⟨h.packetIP, h.replyIP, h.packet⟩⟩
        rw [List.mem_singleton.mp hevent] at heq
        cases heq
      · refine ⟨⟨rfl, rfl, rfl⟩, fun event hevent packet heq => ?_, rfl,
          fun s packet h => ⟨h.packetIP, ?_, h.packet⟩⟩
        · rw [List.mem_singleton.mp hevent] at heq
          rw [← NetEvent.ethSend.inj heq]
          exact arpPacket_take _ _
        · rw [← h.packetIP]
          rfl
    · exact ⟨.refl st, fun _ h => absurd h List.not_mem_nil, rfl,
        fun _ _ h => h⟩

/-- What a send does. -/
theorem sendStep_same (t : UInt32) (st : NetGlobals) (s : UdpSend) :
    SameNet st (netSendUDPPacket t st s).1 := by
  unfold netSendUDPPacket
  dsimp only
  split
  · exact ⟨rfl, rfl, rfl⟩
  · exact ⟨rfl, rfl, rfl⟩

theorem sendStep_parks {t : UInt32} {s : UdpSend}
    (h : s.addr st = netEtherNullAddr) :
    WaitsFor (netSendUDPPacket t st s).1 (arpTarget st s.to) s
        (udpPacket st netEtherNullAddr s.to s.dport s.sport s.payload) ∧
      ∀ packet, .ethSend packet ∈ (netSendUDPPacket t st s).2 →
        packet.take 6 = netBcastAddr.1 := by
  unfold netSendUDPPacket
  dsimp only
  rw [if_pos h, h]
  refine ⟨⟨rfl, rfl, rfl⟩, fun packet hpacket => ?_⟩
  rw [NetEvent.ethSend.inj (List.mem_singleton.mp hpacket)]
  exact arpPacket_take _ _

theorem sendStep_direct {t : UInt32} {s : UdpSend}
    (h : s.addr st ≠ netEtherNullAddr) :
    netSendUDPPacket t st s = ({ st with netIPID := st.netIPID + 1 },
      [.ethSend (udpPacket st (s.addr st) s.to s.dport s.sport s.payload)]) := by
  unfold netSendUDPPacket
  dsimp only
  rw [if_neg h]

theorem arpStep_same (st : NetGlobals) (input : ArpInput) :
    SameNet st (arpStep cfg arpCfg st input).1 := by
  cases input with
  | send t s => exact sendStep_same t st s
  | reply f =>
      rcases @replyStep_cases cfg arpCfg st f with h | ⟨-, h, -⟩
      · rw [h]
        exact .refl st
      · exact h
  | timeout t => exact (timeoutStep_cases t st).1

end Steps

/-! ## Runs -/

section Run

variable (cfg : NetConfig) (arpCfg : ArpConfig) (st : NetGlobals)

/-- `s` has been kept after `pre`, and it has neither been replaced nor sent by the
inputs `mid` that followed. -/
structure Waiting (inputs pre : List ArpInput) (t : UInt32) (s : UdpSend)
    (mid : List ArpInput) : Prop where
  split : inputs = pre ++ .send t s :: mid
  parks : s.addr (arpAfter cfg arpCfg st pre) = netEtherNullAddr
  quiet : StepsMeet (arpStep cfg arpCfg) (Quiet cfg arpCfg)
    (arpAfter cfg arpCfg st (pre ++ [.send t s])) mid

/-- The packet that has been kept last is sent, after a reply from the address
`target` of its destination, to the sender of the reply, and then it waits no more. -/
def SendsWaiting (target : IPaddr → IPaddr) (inputs : List ArpInput)
    (f : ReplyFrame) (packet : List UInt8) : Prop :=
  ∃ pre t s mid, Waiting cfg arpCfg st inputs pre t s mid ∧
    arpSpa f.arp = target s.to ∧
    packet = udpPacket (arpAfter cfg arpCfg st pre) (arpSha f.arp) s.to s.dport
      s.sport s.payload ∧
    ∀ later mid', ¬ Waiting cfg arpCfg st (inputs ++ .reply f :: later) pre t s mid'

/-- What is sent for an input that follows `inputs`: for a reply the packet that
waits, for a send the packet itself, when its address is known, and requests.
Nothing but a packet that waits goes to the unknown address. -/
def Transmits (inputs : List ArpInput) (input : ArpInput) : Prop :=
  ∀ packet, .ethSend packet ∈
      (arpStep cfg arpCfg (arpAfter cfg arpCfg st inputs) input).2 →
    (match input with
      | .reply f => SendsWaiting cfg arpCfg st (arpTarget st) inputs f packet
      | .send _ s =>
          packet.take 6 = netBcastAddr.1 ∨
            s.addr (arpAfter cfg arpCfg st inputs) ≠ netEtherNullAddr ∧
              packet = udpPacket (arpAfter cfg arpCfg st inputs)
                (s.addr (arpAfter cfg arpCfg st inputs)) s.to s.dport s.sport
                s.payload
      | .timeout _ => packet.take 6 = netBcastAddr.1) ∧
    (packet.take 6 = netEtherNullAddr.1 →
      ∃ f, input = .reply f ∧ arpSha f.arp = netEtherNullAddr)

/-- Either no packet waits, or it is the last one that has been kept. -/
def Holds (inputs : List ArpInput) : Prop :=
  (arpAfter cfg arpCfg st inputs).netArpWaitPacketMAC = none ∨
    ∃ pre t s mid, Waiting cfg arpCfg st inputs pre t s mid ∧
      WaitsFor (arpAfter cfg arpCfg st inputs) (arpTarget st s.to) s
        (udpPacket (arpAfter cfg arpCfg st pre) netEtherNullAddr s.to s.dport
          s.sport s.payload)

variable {cfg arpCfg st} {inputs : List ArpInput} {input : ArpInput}

theorem arpAfter_concat (inputs : List ArpInput) (input : ArpInput) :
    arpAfter cfg arpCfg st (inputs ++ [input]) =
      (arpStep cfg arpCfg (arpAfter cfg arpCfg st inputs) input).1 := by
  rw [arpAfter, run_append, run_cons, run_nil]
  rfl

theorem arpAfter_same (inputs : List ArpInput) :
    SameNet st (arpAfter cfg arpCfg st inputs) :=
  @run_invariant _ _ _ (arpStep cfg arpCfg) (SameNet st)
    (fun s i h => h.trans (arpStep_same s i)) (netLoopInit st) ⟨rfl, rfl, rfl⟩
    inputs

theorem Waiting.after {pre mid : List ArpInput} {t : UInt32} {s : UdpSend}
    (h : Waiting cfg arpCfg st inputs pre t s mid) :
    arpAfter cfg arpCfg st inputs = (run (arpStep cfg arpCfg)
      (arpAfter cfg arpCfg st (pre ++ [.send t s])) mid).1 := by
  rw [h.split, arpAfter, arpAfter, ← List.singleton_append, ← List.append_assoc,
    run_append]

theorem Waiting.concat {pre mid : List ArpInput} {t : UInt32} {s : UdpSend}
    (h : Waiting cfg arpCfg st inputs pre t s mid)
    (hquiet : Quiet cfg arpCfg (arpAfter cfg arpCfg st inputs) input) :
    Waiting cfg arpCfg st (inputs ++ [input]) pre t s (mid ++ [input]) := by
  refine ⟨?_, h.parks, stepsMeet_append.mpr ⟨h.quiet, ?_, trivial⟩⟩
  · rw [h.split, List.append_assoc, List.cons_append]
  · rwa [← h.after]

/-- A packet that has been sent waits no more. -/
theorem not_waiting_of_releases {pre mid : List ArpInput} {t : UInt32}
    {s : UdpSend} (h : Waiting cfg arpCfg st inputs pre t s mid)
    (hreleases : Releases cfg arpCfg (arpAfter cfg arpCfg st inputs) input)
    (later mid' : List ArpInput) :
    ¬ Waiting cfg arpCfg st (inputs ++ input :: later) pre t s mid' := by
  rintro ⟨hsplit, -, hquiet⟩
  have hmid : mid' = mid ++ input :: later := by
    rw [h.split, List.append_assoc, List.cons_append] at hsplit
    exact (List.cons_inj_right _).mp (List.append_cancel_left hsplit).symm
  rw [hmid, stepsMeet_append, stepsMeet_cons, ← h.after] at hquiet
  exact hquiet.2.1.2 hreleases

/-- An input that keeps no packet and sends none. -/
theorem Holds.quiet (h : Holds cfg arpCfg st inputs)
    (hquiet : Quiet cfg arpCfg (arpAfter cfg arpCfg st inputs) input)
    (hmac : (arpStep cfg arpCfg (arpAfter cfg arpCfg st inputs)
      input).1.netArpWaitPacketMAC =
        (arpAfter cfg arpCfg st inputs).netArpWaitPacketMAC)
    (hwaits : ∀ s packet, WaitsFor (arpAfter cfg arpCfg st inputs)
        (arpTarget st s.to) s packet →
      WaitsFor (arpStep cfg arpCfg (arpAfter cfg arpCfg st inputs) input).1
        (arpTarget st s.to) s packet) :
    Holds cfg arpCfg st (inputs ++ [input]) := by
  rcases h with hnone | ⟨pre, t, s, mid, hwaiting, hfor⟩
  · left
    rw [arpAfter_concat, hmac, hnone]
  · refine Or.inr ⟨pre, t, s, mid ++ [input], hwaiting.concat hquiet, ?_⟩
    rw [arpAfter_concat]
    exact hwaits s _ hfor

theorem holds_concat
    (h : Holds cfg arpCfg st inputs)
    (input : ArpInput) :
    Holds cfg arpCfg st (inputs ++ [input]) := by
  have hsame := @arpAfter_same cfg arpCfg st inputs
  cases input with
  | send t s =>
      by_cases hparks : s.addr (arpAfter cfg arpCfg st inputs) = netEtherNullAddr
      · refine Or.inr ⟨inputs, t, s, [], ⟨rfl, hparks, trivial⟩, ?_⟩
        have hfor := (sendStep_parks (t := t) hparks).1
        rw [hsame.arpTarget] at hfor
        rw [arpAfter_concat]
        exact hfor
      · refine h.quiet ⟨hparks, id⟩ ?_ ?_
        · rw [arpStep, sendStep_direct hparks]
        · intro s' packet hfor
          rw [arpStep, sendStep_direct hparks]
          exact ⟨hfor.packetIP, hfor.replyIP, hfor.packet⟩
  | reply f =>
      rcases @replyStep_cases cfg arpCfg (arpAfter cfg arpCfg st inputs) f with
        hsilent | ⟨hnone, -⟩
      · refine h.quiet ⟨id, fun hsends => hsends (by rw [hsilent])⟩ ?_ ?_
        · rw [hsilent]
        · intro s packet hfor
          rwa [hsilent]
      · left
        rw [arpAfter_concat, hnone]
  | timeout t =>
      obtain ⟨-, -, hmac, hwaits⟩ := @timeoutStep_cases arpCfg t
        (arpAfter cfg arpCfg st inputs)
      refine h.quiet ⟨id, id⟩ hmac fun s packet hfor => ?_
      rw [← hsame.arpTarget] at hfor ⊢
      exact hwaits s packet hfor

theorem holds_inputs (inputs : List ArpInput) :
    Holds cfg arpCfg st inputs := by
  induction inputs using List.reverseRecOn with
  | nil => exact Or.inl rfl
  | append_singleton inputs input ih => exact holds_concat ih input

end Run

/-- In every run a packet that has been kept is sent at most once, after a reply from
the address that was asked for. -/
theorem arpRun_transmits (cfg : NetConfig) (arpCfg : ArpConfig) (st : NetGlobals)
    (inputs : List ArpInput) (input : ArpInput) :
    Transmits cfg arpCfg st inputs input := by
  have hbcast : ∀ packet : List UInt8, packet.take 6 = netBcastAddr.1 →
      packet.take 6 ≠ netEtherNullAddr.1 := by
    intro packet hpacket
    rw [hpacket]
    decide
  intro packet hpacket
  cases input with
  | send t s =>
      by_cases hparks : s.addr (arpAfter cfg arpCfg st inputs) = netEtherNullAddr
      · have htake := (sendStep_parks hparks).2 packet hpacket
        exact ⟨Or.inl htake, fun h => absurd h (hbcast packet htake)⟩
      · rw [arpStep, sendStep_direct hparks] at hpacket
        have heq := NetEvent.ethSend.inj (List.mem_singleton.mp hpacket)
        refine ⟨Or.inr ⟨hparks, heq⟩, fun h => absurd ?_ hparks⟩
        rw [heq, udpPacket_take] at h
        exact Subtype.ext h
  | timeout t =>
      have htake := (timeoutStep_cases t _).2.1 _ hpacket packet rfl
      exact ⟨htake, fun h => absurd h (hbcast packet htake)⟩
  | reply f =>
      rcases @replyStep_cases cfg arpCfg (arpAfter cfg arpCfg st inputs) f with
        hsilent | ⟨-, -, hmac, hspa, hsent⟩
      · rw [hsilent] at hpacket
        cases hpacket
      · have hreleases : Releases cfg arpCfg (arpAfter cfg arpCfg st inputs)
            (.reply f) := by
          rw [Releases, hsent]
          exact List.cons_ne_nil _ _
        rw [hsent] at hpacket
        rcases @holds_inputs cfg arpCfg st inputs with
          hnone | ⟨pre, t, s, mid, hwaiting, hfor⟩
        · exact absurd hnone hmac
        · have heq : packet = udpPacket (arpAfter cfg arpCfg st pre)
              (arpSha f.arp) s.to s.dport s.sport s.payload := by
            rw [NetEvent.ethSend.inj (List.mem_singleton.mp hpacket), hfor.packet]
            exact udpPacket_addr ..
          refine ⟨⟨pre, t, s, mid, hwaiting, hspa.trans hfor.replyIP, heq,
            not_waiting_of_releases hwaiting hreleases⟩, fun h => ⟨f, rfl, ?_⟩⟩
          rw [heq, udpPacket_take] at h
          exact Subtype.ext h

/-- The gateway for an address that is not in the subnet, and else the address. -/
def gatewayTarget (st : NetGlobals) (ip : IPaddr) : IPaddr :=
  if maskIP ip st.netOurSubnetMask ≠ maskIP st.netOurIP st.netOurSubnetMask then
    st.netOurGatewayIP
  else ip

/-- A packet that waits is sent after a reply from the destination or the gateway, and
nothing is sent to the unknown address. -/
def TransmitsStrictly (cfg : NetConfig) (arpCfg : ArpConfig) (st : NetGlobals)
    (inputs : List ArpInput) (input : ArpInput) : Prop :=
  ∀ packet, .ethSend packet ∈
      (arpStep cfg arpCfg (arpAfter cfg arpCfg st inputs) input).2 →
    packet.take 6 ≠ netEtherNullAddr.1 ∧
      ∀ f, input = .reply f →
        SendsWaiting cfg arpCfg st (gatewayTarget st) inputs f packet

/-- A packet for an address that is not in the subnet. -/
def farSend : UdpSend := ⟨0, ⟨[192, 168, 0, 9], rfl⟩, 69, 69, []⟩

/-- The reply from that address. -/
def farReply : ReplyFrame where
  frame := ⟨[2, 0, 0, 0, 0, 1] ++ [2, 0, 0, 0, 0, 9] ++ [0x08, 0x06] ++
    [0, 1, 8, 0, 6, 4, 0, 2] ++ [2, 0, 0, 0, 0, 9, 192, 168, 0, 9] ++
    [2, 0, 0, 0, 0, 1, 10, 0, 0, 1], by decide⟩
  arp := ⟨[0, 1, 8, 0, 6, 4, 0, 2] ++ [2, 0, 0, 0, 0, 9, 192, 168, 0, 9] ++
    [2, 0, 0, 0, 0, 1, 10, 0, 0, 1], by decide⟩
  carries := by decide
  reply := by decide

/-- Without a gateway the packet is sent after a reply from its destination. -/
theorem not_transmitsStrictly : ¬ TransmitsStrictly ⟨true, false⟩ ⟨1000, 5⟩ idleNet
    [.send 0 farSend] (.reply farReply) := by
  intro hstrictly
  have hsent : (arpStep ⟨true, false⟩ ⟨1000, 5⟩ (arpAfter ⟨true, false⟩ ⟨1000, 5⟩
      idleNet [.send 0 farSend]) (.reply farReply)).2 =
        [.ethSend (udpPacket idleNet (arpSha farReply.arp) farSend.to 69 69 [])] := by
    rfl
  obtain ⟨-, hsends⟩ := hstrictly _ (by rw [hsent]; exact List.mem_singleton_self _)
  obtain ⟨pre, t, s, mid, hwaiting, hspa, -⟩ := hsends farReply rfl
  rcases List.append_eq_singleton_iff.mp hwaiting.split.symm with
    ⟨-, hcons⟩ | ⟨-, hnil⟩
  · obtain ⟨-, rfl⟩ := ArpInput.send.inj (List.cons.inj hcons).1
    revert hspa
    decide
  · cases hnil

end TateFirmware.Net
