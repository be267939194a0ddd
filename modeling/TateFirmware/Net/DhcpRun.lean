import TateFirmware.Net.Dhcp
import TateFirmware.Support.Run

/-!
# From an offer to an acknowledgement

A DHCP message is an address and a list of options; a packet encodes it when
its vendor area is the magic number, the options and the end mark.  The client
walks over the options as they were encoded, so that in a run where it takes
only offers for offers, the parameters it is bound to are those of the
acknowledgement, or of the offer where the acknowledgement is silent.
-/

namespace TateFirmware.Net

open LibGeneric Support

/-! ## Messages -/

/-- An option of a DHCP message. -/
structure DhcpOption where
  code : UInt8
  data : List UInt8
deriving DecidableEq, Repr

/-- The bytes of an option. -/
def DhcpOption.bytes (o : DhcpOption) : List UInt8 :=
  o.code :: UInt8.ofNat o.data.length :: o.data

/-- An option is neither padding nor the end mark, and the options the client
reads have the length they must have. -/
structure DhcpOption.WellFormed (o : DhcpOption) : Prop where
  pad : o.code ≠ 0
  endMark : o.code ≠ 0xff
  length : o.data.length < 256
  messageType : o.code = 53 → o.data.length = 1
  address : o.code = 1 ∨ o.code = 3 → 4 ≤ o.data.length

instance (o : DhcpOption) : Decidable o.WellFormed :=
  decidable_of_iff (o.code ≠ 0 ∧ o.code ≠ 0xff ∧ o.data.length < 256 ∧
      (o.code = 53 → o.data.length = 1) ∧
      (o.code = 1 ∨ o.code = 3 → 4 ≤ o.data.length))
    ⟨fun ⟨hpad, hend, hlen, htype, haddress⟩ =>
      ⟨hpad, hend, hlen, htype, haddress⟩,
    fun h => ⟨h.pad, h.endMark, h.length, h.messageType, h.address⟩⟩

/-- The parts of a DHCP message that the client uses to configure itself. -/
structure DhcpMessage where
  yiaddr : List UInt8
  options : List DhcpOption
deriving DecidableEq, Repr

/-- The DHCP message type. -/
def DhcpMessage.messageType (M : DhcpMessage) : Option UInt8 :=
  (M.options.find? fun o => o.code = 53).bind fun o => o.data.head?

/-- The address in the last option `code`, or `old` where there is none. -/
def lastAddress (code : UInt8) (options : List DhcpOption)
    (old : List UInt8) : List UInt8 :=
  options.foldl (fun ip o => if o.code = code then o.data.take 4 else ip) old

/-- The bytes of some options. -/
def optionBytes (options : List DhcpOption) : List UInt8 :=
  options.flatMap DhcpOption.bytes

/-- A packet encodes a message. -/
structure Encodes (p : RxPacket) (M : DhcpMessage) : Prop where
  yiaddr : netReadLong p.mem bpYiaddr = M.yiaddr
  magic : netReadLong p.mem bpVend = bootpVendorMagic
  wellFormed : ∀ o ∈ M.options, o.WellFormed
  options : Memory.Holds p.mem (bpVend + 4) (optionBytes M.options ++ [0xff])
  inside : bpVend + 4 + (optionBytes M.options).length < p.len
  size : (optionBytes M.options).length ≤ bootpHdrSize

/-! ## The walk over the options -/

theorem optionBytes_cons (o : DhcpOption) (options : List DhcpOption) :
    optionBytes (o :: options) =
      o.code :: UInt8.ofNat o.data.length :: (o.data ++ optionBytes options) :=
  rfl

/-- The first of some options in memory. -/
theorem holds_option {m : Memory UInt8} {popt : ℕ} {o : DhcpOption}
    {options : List DhcpOption} (hlen : o.data.length < 256)
    (h : Memory.Holds m popt (optionBytes (o :: options) ++ [0xff])) :
    m popt = o.code ∧ (m (popt + 1)).toNat = o.data.length ∧
      Memory.Holds m (popt + 2) o.data ∧
      Memory.Holds m (popt + (o.data.length + 2))
        (optionBytes options ++ [0xff]) := by
  rw [optionBytes_cons, List.cons_append, List.cons_append, Memory.holds_cons,
    Memory.holds_cons, List.append_assoc, Memory.holds_append] at h
  obtain ⟨hcode, hsize, hdata, hrest⟩ := h
  refine ⟨hcode, ?_, hdata, ?_⟩
  · rw [hsize, UInt8.toNat_ofNat']
    exact Nat.mod_eq_of_lt hlen
  · rw [show popt + (o.data.length + 2) = popt + 1 + 1 + o.data.length by omega]
    exact hrest

theorem netReadLong_data {m : Memory UInt8} {p : ℕ} {data : List UInt8}
    (h : Memory.Holds m p data) (hlen : 4 ≤ data.length) :
    netReadLong m p = data.take 4 := by
  have htake : Memory.Holds m p (data.take 4) := by
    rw [← List.take_append_drop 4 data, Memory.holds_append] at h
    exact h.1
  have hread := htake.read_eq
  rw [List.length_take, Nat.min_eq_left hlen] at hread
  exact hread

/-- What an option may write: only the boot file name of the packet. -/
theorem dhcpOption_mem (popt : ℕ) (m : Memory UInt8) (st : Dhcp) {k : ℕ}
    (hk : k < bpFile ∨ bpVend ≤ k) : (dhcpOption popt m st).2 k = m k := by
  have hsize : ∀ n, truncateSz bpFileSize n < 128 := by
    intro n
    unfold truncateSz bpFileSize
    split <;> omega
  unfold bpFile bpVend at hk
  unfold dhcpOption
  dsimp only
  repeat' split
  all_goals first | rfl | skip
  have hlt := hsize (m (popt + 1)).toNat
  change Memory.store _ _ _ k = m k
  rw [Memory.store_of_ne _ (by unfold bpFile; omega)]
  rcases hk with hk | hk
  · exact Memory.copyIn_of_lt _ hk
  · apply Memory.copyIn_of_ge
    rw [Memory.read_length]
    unfold bpFile
    omega

/-- The parts of the client that options do not concern. -/
structure SameClient (st st' : Dhcp) : Prop where
  dhcpState : st'.dhcpState = st.dhcpState
  bootpID : st'.bootpID = st.bootpID
  packetHandler : st'.packetHandler = st.packetHandler

theorem dhcpOption_same (popt : ℕ) (m : Memory UInt8) (st : Dhcp) :
    SameClient st (dhcpOption popt m st).1 := by
  unfold dhcpOption
  dsimp only
  repeat' split
  all_goals exact ⟨rfl, rfl, rfl⟩

theorem dhcpOption_subnetMask (popt : ℕ) (m : Memory UInt8) (st : Dhcp) :
    (dhcpOption popt m st).1.netOurSubnetMask =
      if m popt = 1 then netReadLong m (popt + 2)
      else st.netOurSubnetMask := by
  unfold dhcpOption
  dsimp only
  by_cases hmask : m popt = 1
  · rw [if_pos hmask, if_pos hmask]
  · rw [if_neg hmask, if_neg hmask]
    repeat' split
    all_goals rfl

theorem dhcpOption_gatewayIP (popt : ℕ) (m : Memory UInt8) (st : Dhcp) :
    (dhcpOption popt m st).1.netOurGatewayIP =
      if m popt = 3 then netReadLong m (popt + 2) else st.netOurGatewayIP := by
  unfold dhcpOption
  dsimp only
  by_cases hgateway : m popt = 3
  · rw [if_neg (by rw [hgateway]; decide), if_pos hgateway, if_pos hgateway]
  · rw [if_neg hgateway, if_neg hgateway]
    repeat' split
    all_goals rfl

/-- The walk over any bytes leaves the client and the rest of the packet
alone. -/
theorem dhcpOptionsLoop_same (last fuel popt : ℕ) (m : Memory UInt8)
    (st : Dhcp) :
    SameClient st (dhcpOptionsLoop last fuel popt m st).1 ∧
      ∀ k, k < bpFile ∨ bpVend ≤ k →
        (dhcpOptionsLoop last fuel popt m st).2 k = m k := by
  induction fuel generalizing popt m st with
  | zero => exact ⟨⟨rfl, rfl, rfl⟩, fun _ _ => rfl⟩
  | succ fuel ih =>
      rw [dhcpOptionsLoop]
      split
      · obtain ⟨hclient, hmem⟩ := ih (popt + ((m (popt + 1)).toNat + 2))
          (dhcpOption popt m st).2 (dhcpOption popt m st).1
        obtain ⟨hstate, hid, hhandler⟩ := dhcpOption_same popt m st
        refine ⟨⟨hclient.dhcpState.trans hstate, hclient.bootpID.trans hid,
          hclient.packetHandler.trans hhandler⟩, ?_⟩
        intro k hk
        rw [hmem k hk, dhcpOption_mem popt m st hk]
      · exact ⟨⟨rfl, rfl, rfl⟩, fun _ _ => rfl⟩

/-- The walk over options that were encoded. -/
theorem dhcpOptionsLoop_options {last fuel popt : ℕ} {m : Memory UInt8}
    {st : Dhcp} {options : List DhcpOption}
    (hwf : ∀ o ∈ options, o.WellFormed)
    (hholds : Memory.Holds m popt (optionBytes options ++ [0xff]))
    (hpopt : bpVend ≤ popt)
    (hlast : popt + (optionBytes options).length ≤ last)
    (hfuel : (optionBytes options).length ≤ fuel) :
    (dhcpOptionsLoop last fuel popt m st).1.netOurSubnetMask =
        lastAddress 1 options st.netOurSubnetMask ∧
      (dhcpOptionsLoop last fuel popt m st).1.netOurGatewayIP =
        lastAddress 3 options st.netOurGatewayIP := by
  induction options generalizing fuel popt m st with
  | nil =>
      cases fuel with
      | zero => exact ⟨rfl, rfl⟩
      | succ fuel =>
          have hend : m popt = 0xff := hholds 0 (Nat.zero_lt_one)
          rw [dhcpOptionsLoop, if_neg (fun h => h.2 hend)]
          exact ⟨rfl, rfl⟩
  | cons o options ih =>
      have ho := hwf o List.mem_cons_self
      obtain ⟨hcode, hsize, hdata, hrest⟩ := holds_option ho.length hholds
      have hbytes : (optionBytes (o :: options)).length =
          o.data.length + 2 + (optionBytes options).length := by
        rw [optionBytes_cons, List.length_cons, List.length_cons,
          List.length_append]
        omega
      cases fuel with
      | zero => omega
      | succ fuel =>
          have hgo : popt < last ∧ m popt ≠ 0xff := by
            refine ⟨by omega, ?_⟩
            rw [hcode]
            exact ho.endMark
          have hkept : Memory.Holds (dhcpOption popt m st).2
              (popt + (o.data.length + 2)) (optionBytes options ++ [0xff]) := by
            apply hrest.congr
            intro k hk _
            exact dhcpOption_mem popt m st (Or.inr (by omega))
          obtain ⟨hmask, hgateway⟩ := @ih fuel _ _ (dhcpOption popt m st).1
            (fun o' ho' => hwf o' (List.mem_cons_of_mem o ho')) hkept
            (by omega) (by omega) (by omega)
          rw [dhcpOptionsLoop, if_pos hgo, hsize, hmask, hgateway,
            dhcpOption_subnetMask, dhcpOption_gatewayIP, hcode]
          constructor
          · rw [lastAddress, lastAddress, List.foldl_cons]
            by_cases hone : o.code = 1
            · rw [if_pos hone, if_pos hone,
                netReadLong_data hdata (ho.address (Or.inl hone))]
            · rw [if_neg hone, if_neg hone]
          · rw [lastAddress, lastAddress, List.foldl_cons]
            by_cases hthree : o.code = 3
            · rw [if_pos hthree, if_pos hthree,
                netReadLong_data hdata (ho.address (Or.inr hthree))]
            · rw [if_neg hthree, if_neg hthree]

/-- The message type the client finds. -/
theorem messageTypeLoop_options {reach popt : ℕ} {m : Memory UInt8}
    {options : List DhcpOption} {r : Option UInt8}
    (hwf : ∀ o ∈ options, o.WellFormed)
    (hholds : Memory.Holds m popt (optionBytes options ++ [0xff]))
    (h : messageTypeLoop m reach popt = some r) :
    r = (options.find? fun o => o.code = 53).bind fun o => o.data.head? := by
  induction options generalizing reach popt with
  | nil =>
      cases reach with
      | zero => cases h
      | succ reach =>
          have hend : m popt = 0xff := hholds 0 (Nat.zero_lt_one)
          rw [messageTypeLoop, if_pos hend] at h
          exact (Option.some.inj h).symm
  | cons o options ih =>
      have ho := hwf o List.mem_cons_self
      obtain ⟨hcode, hsize, hdata, hrest⟩ := holds_option ho.length hholds
      cases reach with
      | zero => cases h
      | succ reach =>
          rw [messageTypeLoop, if_neg (by rw [hcode]; exact ho.endMark), hcode,
            hsize] at h
          by_cases htype : o.code = 53
          · rw [if_pos htype] at h
            rw [List.find?_cons_of_pos (by simpa using htype), Option.bind_some,
              ← Option.some.inj h, List.head?_eq_getElem?]
            have hlen := ho.messageType htype
            rw [List.getElem?_eq_getElem (by omega), ← hdata 0 (by omega)]
          · rw [if_neg htype] at h
            rw [List.find?_cons_of_neg (by simpa using htype)]
            exact ih (fun o' ho' => hwf o' (List.mem_cons_of_mem o ho')) hrest h

/-! ## One event -/

/-- The client has taken over the parameters of a message; the mask and the
gateway are what they were where the message is silent. -/
structure Configured (M : DhcpMessage) (st st' : Dhcp) : Prop where
  ip : st'.netOurIP = M.yiaddr
  subnetMask : st'.netOurSubnetMask =
    lastAddress 1 M.options st.netOurSubnetMask
  gateway : st'.netOurGatewayIP = lastAddress 3 M.options st.netOurGatewayIP

/-- The parameters are kept. -/
structure Kept (st st' : Dhcp) : Prop where
  ip : st'.netOurIP = st.netOurIP
  subnetMask : st'.netOurSubnetMask = st.netOurSubnetMask
  gateway : st'.netOurGatewayIP = st.netOurGatewayIP

/-- The options of a packet and then its parameters are taken over. -/
theorem configured_of_encodes {p : RxPacket} {M : DhcpMessage} {st : Dhcp}
    (h : Encodes p M) :
    Configured M st (bootpCopyNetParams (dhcpOptionsProcess p.mem st).2 p.etSrc
      (dhcpOptionsProcess p.mem st).1) := by
  obtain ⟨hmask, hgateway⟩ := @dhcpOptionsLoop_options
    (bpVend + 4 + bootpHdrSize) bootpHdrSize (bpVend + 4) p.mem st M.options
    h.wellFormed h.options (Nat.le_add_right _ _)
    (Nat.add_le_add_left h.size _) h.size
  obtain ⟨-, hmem⟩ := dhcpOptionsLoop_same (bpVend + 4 + bootpHdrSize)
    bootpHdrSize (bpVend + 4) p.mem st
  unfold dhcpOptionsProcess
  rw [if_pos h.magic]
  refine ⟨?_, hmask, hgateway⟩
  rw [← h.yiaddr]
  unfold bootpCopyNetParams netReadLong
  apply Memory.read_congr
  intro k hk
  apply hmem
  unfold bpYiaddr bpFile
  omega

/-- Only offers are taken for offers, and the packets the client reads are
encoded as the client walks over them: without padding, with an end mark that
is in the packet and not too far behind. -/
def DhcpSound (st : Dhcp) : DhcpEvent → Prop
  | .packet p => st.packetHandler = .dhcpHandler → bootpCheckPkt p st = 0 →
      (st.dhcpState = .selecting →
        ∃ M, Encodes p M ∧ M.messageType = some dhcpOffer) ∧
      (st.dhcpState = .requesting →
        netReadLong p.mem bpVend = bootpVendorMagic → ∃ M, Encodes p M)
  | _ => True

/-- What an event does to the client. -/
inductive DhcpMove (st st' : Dhcp) : DhcpEvent → Prop where
  /-- Nothing that concerns the parameters. -/
  | same (e : DhcpEvent) (hstate : st'.dhcpState = st.dhcpState)
      (hkept : Kept st st') : DhcpMove st st' e
  /-- A new discovery. -/
  | discover (e : DhcpEvent) (hstate : st'.dhcpState = .selecting) :
      DhcpMove st st' e
  /-- An offer. -/
  | offer (p : RxPacket) (M : DhcpMessage) (hstate : st.dhcpState = .selecting)
      (hstate' : st'.dhcpState = .requesting) (hencodes : Encodes p M)
      (htype : M.messageType = some dhcpOffer) (hnew : Configured M st st') :
      DhcpMove st st' (.packet p)
  /-- An acknowledgement. -/
  | ack (p : RxPacket) (M : DhcpMessage) (hstate : st.dhcpState = .requesting)
      (hstate' : st'.dhcpState = .bound) (hencodes : Encodes p M)
      (htype : M.messageType = some dhcpAck)
      (hid : netReadLong p.mem bpId = st.bootpID)
      (hnew : Configured M st st') : DhcpMove st st' (.packet p)

theorem bootpCheckPkt_id {p : RxPacket} {st : Dhcp}
    (h : bootpCheckPkt p st = 0) : netReadLong p.mem bpId = st.bootpID := by
  by_contra hid
  unfold bootpCheckPkt at h
  simp only [if_pos hid] at h
  repeat' split at h
  all_goals cases h

theorem startAgain_kept (retry : Retry) (st : Dhcp) :
    (st.startAgain retry).dhcpState = st.dhcpState ∧
      Kept st (st.startAgain retry) := by
  unfold Dhcp.startAgain
  split <;> exact ⟨rfl, rfl, rfl, rfl⟩

theorem autoload_kept (env : DhcpEnv) (st : Dhcp) :
    (st.autoload env).dhcpState = st.dhcpState ∧
      Kept st (st.autoload env) := by
  unfold Dhcp.autoload
  split
  · exact ⟨rfl, rfl, rfl, rfl⟩
  · split
    · exact ⟨rfl, rfl, rfl, rfl⟩
    · split <;> exact ⟨rfl, rfl, rfl, rfl⟩

/-- A packet that `DhcpHandler` gets. -/
theorem dhcpHandler_move (env : DhcpEnv) (reach : ℕ) {p : RxPacket} {st : Dhcp}
    (hhandler : st.packetHandler = .dhcpHandler)
    (hsound : DhcpSound st (.packet p)) :
    DhcpMove st (dhcpHandler env reach p st).1 (.packet p) := by
  have hsame : DhcpMove st st (.packet p) := .same _ rfl ⟨rfl, rfl, rfl⟩
  unfold dhcpHandler
  by_cases hcheck : bootpCheckPkt p st = 0
  swap
  · rw [if_pos hcheck]
    exact hsame
  rw [if_neg (by simpa using hcheck)]
  obtain ⟨hoffer, hack⟩ := hsound hhandler hcheck
  split
  · rename_i hstate
    obtain ⟨M, hencodes, htype⟩ := hoffer hstate
    have hnew := @configured_of_encodes p M
      { st with dhcpState := .requesting } hencodes
    refine .offer p M hstate ?_ hencodes htype
      ⟨hnew.ip, hnew.subnetMask, hnew.gateway⟩
    unfold dhcpOptionsProcess
    dsimp only
    rw [if_pos hencodes.magic]
    exact (dhcpOptionsLoop_same _ _ _ p.mem
      { st with dhcpState := .requesting }).1.dhcpState
  · rename_i hstate
    split
    · rename_i hcode
      have hmagic : netReadLong p.mem bpVend = bootpVendorMagic := by
        by_contra hne
        rw [dhcpMessageType, if_pos hne] at hcode
        cases hcode
      obtain ⟨M, hencodes⟩ := hack hstate hmagic
      rw [dhcpMessageType, if_neg (by simpa using hmagic)] at hcode
      have htype : M.messageType = some dhcpAck :=
        (messageTypeLoop_options hencodes.wellFormed hencodes.options
          hcode).symm
      have hnew := @configured_of_encodes p M st hencodes
      obtain ⟨hbound, hkept⟩ := autoload_kept env
        { bootpCopyNetParams (dhcpOptionsProcess p.mem st).2 p.etSrc
            (dhcpOptionsProcess p.mem st).1 with dhcpState := .bound }
      exact .ack p M hstate hbound hencodes htype (bootpCheckPkt_id hcheck)
        ⟨hkept.ip.trans hnew.ip, hkept.subnetMask.trans hnew.subnetMask,
          hkept.gateway.trans hnew.gateway⟩
    · exact hsame
  · exact hsame

/-- Every event of a sound run is one of the four. -/
theorem dhcpStep_move (env : DhcpEnv) (reach : ℕ) {st : Dhcp} {e : DhcpEvent}
    (hsound : DhcpSound st e) :
    DhcpMove st (dhcpStep env reach st e).1 e := by
  have hsame : DhcpMove st st e := .same _ rfl ⟨rfl, rfl, rfl⟩
  cases e with
  | packet p =>
      unfold dhcpStep
      dsimp only
      split
      · rename_i hhandler
        exact dhcpHandler_move env reach hhandler hsound
      · exact hsame
  | timeout retry timer =>
      unfold dhcpStep
      dsimp only
      split
      · unfold bootpTimeout
        split
        · obtain ⟨hstate, hkept⟩ := startAgain_kept retry st
          exact .same _ hstate hkept
        · exact .discover _ rfl
      · exact .same _ rfl ⟨rfl, rfl, rfl⟩
      · exact hsame
  | loaderGivesUp retry =>
      obtain ⟨hstate, hkept⟩ := startAgain_kept retry st
      unfold dhcpStep
      dsimp only
      split
      · exact .same _ hstate hkept
      · exact .same _ hstate hkept
      · exact hsame
  | restart timer =>
      unfold dhcpStep
      dsimp only
      split
      · exact .discover _ rfl
      · exact hsame

/-! ## Runs -/

section Runs

variable (env : DhcpEnv) (reach : ℕ) (init : Dhcp)

/-- The client behind some events. -/
def dhcpAfter (events : List DhcpEvent) : Dhcp :=
  (run (dhcpStep env reach) init events).1

theorem dhcpAfter_concat (events : List DhcpEvent) (e : DhcpEvent) :
    dhcpAfter env reach init (events ++ [e]) =
      (dhcpStep env reach (dhcpAfter env reach init events) e).1 := by
  rw [dhcpAfter, run_append]
  rfl

/-- Behind `pre` the client accepts an offer, and it stays requesting during
`mid`. -/
structure Requested (pre mid : List DhcpEvent) (offer : RxPacket)
    (O : DhcpMessage) : Prop where
  selecting : (dhcpAfter env reach init pre).dhcpState = .selecting
  encodes : Encodes offer O
  messageType : O.messageType = some dhcpOffer
  requesting : ∀ mid', mid' <+: mid →
    (dhcpAfter env reach init (pre ++ .packet offer :: mid')).dhcpState =
      .requesting
  subnetMask : (dhcpAfter env reach init
      (pre ++ .packet offer :: mid)).netOurSubnetMask =
    lastAddress 1 O.options (dhcpAfter env reach init pre).netOurSubnetMask
  gateway : (dhcpAfter env reach init
      (pre ++ .packet offer :: mid)).netOurGatewayIP =
    lastAddress 3 O.options (dhcpAfter env reach init pre).netOurGatewayIP

/-- After a request the client is bound by an acknowledgement of it, and has
the parameters of the acknowledgement, and those of the offer where the
acknowledgement is silent; `post` follows. -/
structure BoundBy (pre mid post : List DhcpEvent) (offer ack : RxPacket)
    (O A : DhcpMessage) : Prop where
  requested : Requested env reach init pre mid offer O
  encodes : Encodes ack A
  messageType : A.messageType = some dhcpAck
  bootpID : netReadLong ack.mem bpId =
    (dhcpAfter env reach init (pre ++ .packet offer :: mid)).bootpID
  ip : (dhcpAfter env reach init
      (pre ++ .packet offer :: mid ++ .packet ack :: post)).netOurIP = A.yiaddr
  subnetMask : (dhcpAfter env reach init
      (pre ++ .packet offer :: mid ++ .packet ack :: post)).netOurSubnetMask =
    lastAddress 1 A.options (lastAddress 1 O.options
      (dhcpAfter env reach init pre).netOurSubnetMask)
  gateway : (dhcpAfter env reach init
      (pre ++ .packet offer :: mid ++ .packet ack :: post)).netOurGatewayIP =
    lastAddress 3 A.options (lastAddress 3 O.options
      (dhcpAfter env reach init pre).netOurGatewayIP)

variable {env reach init}

/-- The client stays requesting. -/
theorem Requested.concat {pre mid : List DhcpEvent} {offer : RxPacket}
    {O : DhcpMessage} {e : DhcpEvent}
    (h : Requested env reach init pre mid offer O)
    (hstate : (dhcpAfter env reach init
      (pre ++ .packet offer :: mid ++ [e])).dhcpState = .requesting)
    (hkept : Kept (dhcpAfter env reach init (pre ++ .packet offer :: mid))
      (dhcpAfter env reach init (pre ++ .packet offer :: mid ++ [e]))) :
    Requested env reach init pre (mid ++ [e]) offer O := by
  have hsplit : pre ++ .packet offer :: mid ++ [e] =
      pre ++ .packet offer :: (mid ++ [e]) := by
    rw [List.append_assoc, List.cons_append]
  rw [hsplit] at hstate hkept
  refine ⟨h.selecting, h.encodes, h.messageType, ?_,
    hkept.subnetMask.trans h.subnetMask, hkept.gateway.trans h.gateway⟩
  intro mid' hmid'
  rcases List.prefix_concat_iff.1 hmid' with rfl | hmid'
  · exact hstate
  · exact h.requesting mid' hmid'

/-- How the client came to be requesting, and how it came to be bound. -/
theorem dhcpAfter_explained (hinit : init.dhcpState = .selecting)
    (events : List DhcpEvent)
    (hmeet : StepsMeet (dhcpStep env reach) DhcpSound init events) :
    ((dhcpAfter env reach init events).dhcpState = .requesting →
      ∃ pre mid offer O, events = pre ++ .packet offer :: mid ∧
        Requested env reach init pre mid offer O) ∧
    ((dhcpAfter env reach init events).dhcpState = .bound →
      ∃ pre mid post offer ack O A,
        events = pre ++ .packet offer :: mid ++ .packet ack :: post ∧
          BoundBy env reach init pre mid post offer ack O A) := by
  induction events using List.reverseRecOn with
  | nil =>
      have hnil : (dhcpAfter env reach init []).dhcpState = .selecting := hinit
      rw [hnil]
      exact ⟨nofun, nofun⟩
  | append_singleton events e ih =>
      obtain ⟨hbefore, hlast⟩ := stepsMeet_append.1 hmeet
      obtain ⟨hrequested, hbound⟩ := ih hbefore
      have hmove : DhcpMove (dhcpAfter env reach init events)
          (dhcpAfter env reach init (events ++ [e])) e := by
        rw [dhcpAfter_concat]
        exact dhcpStep_move env reach hlast.1
      cases hmove with
      | same _ hstate hkept =>
          rw [hstate]
          constructor
          · intro h
            obtain ⟨pre, mid, offer, O, rfl, hoffer⟩ := hrequested h
            exact ⟨pre, mid ++ [e], offer, O, by simp,
              hoffer.concat (hstate.trans h) hkept⟩
          · intro h
            obtain ⟨pre, mid, post, offer, ack, O, A, rfl, hack⟩ := hbound h
            have hsplit : pre ++ .packet offer :: mid ++ .packet ack :: post ++
                [e] =
                pre ++ .packet offer :: mid ++ .packet ack :: (post ++ [e]) := by
              rw [List.append_assoc, List.cons_append]
            rw [hsplit] at hkept ⊢
            exact ⟨pre, mid, post ++ [e], offer, ack, O, A, rfl,
              hack.requested, hack.encodes, hack.messageType, hack.bootpID,
              hkept.ip.trans hack.ip, hkept.subnetMask.trans hack.subnetMask,
              hkept.gateway.trans hack.gateway⟩
      | discover _ hstate =>
          rw [hstate]
          exact ⟨nofun, nofun⟩
      | offer p M hstate hstate' hencodes htype hnew =>
          rw [hstate']
          refine ⟨fun _ => ⟨events, [], p, M, rfl, hstate, hencodes, htype, ?_,
            hnew.subnetMask, hnew.gateway⟩, nofun⟩
          intro mid' hmid'
          rw [List.prefix_nil.1 hmid']
          exact hstate'
      | ack p M hstate hstate' hencodes htype hid hnew =>
          rw [hstate']
          refine ⟨nofun, fun _ => ?_⟩
          obtain ⟨pre, mid, offer, O, rfl, hoffer⟩ := hrequested hstate
          exact ⟨pre, mid, [], offer, p, O, M, rfl, hoffer, hencodes, htype, hid,
            hnew.ip, hnew.subnetMask.trans (by rw [hoffer.subnetMask]),
            hnew.gateway.trans (by rw [hoffer.gateway])⟩

/-- An event in the middle of a sound run. -/
theorem dhcpAfter_move {pre post : List DhcpEvent} {e : DhcpEvent}
    (hmeet : StepsMeet (dhcpStep env reach) DhcpSound init
      (pre ++ e :: post)) :
    DhcpMove (dhcpAfter env reach init pre)
      (dhcpAfter env reach init (pre ++ [e])) e := by
  obtain ⟨-, hrest⟩ := stepsMeet_append.1 hmeet
  rw [dhcpAfter_concat]
  exact dhcpStep_move env reach hrest.1

end Runs

/-- In a sound run that starts with `BootpRequest` the client leaves
`SELECTING` for `REQUESTING` only on an offer, becomes bound only on an
acknowledgement with the id of its request, and is bound to the parameters of
that acknowledgement and of the offer before it. -/
theorem dhcp_run (env : DhcpEnv) (reach timer : ℕ) (st : Dhcp)
    (events : List DhcpEvent)
    (hmeet : StepsMeet (dhcpStep env reach) DhcpSound (bootpRequest timer st).1
      events) :
    (∀ pre e post, events = pre ++ e :: post →
      (dhcpAfter env reach (bootpRequest timer st).1 pre).dhcpState =
        .selecting →
      (dhcpAfter env reach (bootpRequest timer st).1 (pre ++ [e])).dhcpState =
        .requesting →
      ∃ p M, e = .packet p ∧ Encodes p M ∧ M.messageType = some dhcpOffer) ∧
    (∀ pre e post, events = pre ++ e :: post →
      (dhcpAfter env reach (bootpRequest timer st).1 pre).dhcpState ≠ .bound →
      (dhcpAfter env reach (bootpRequest timer st).1 (pre ++ [e])).dhcpState =
        .bound →
      ∃ p M, e = .packet p ∧ Encodes p M ∧ M.messageType = some dhcpAck ∧
        netReadLong p.mem bpId =
          (dhcpAfter env reach (bootpRequest timer st).1 pre).bootpID) ∧
    ((dhcpAfter env reach (bootpRequest timer st).1 events).dhcpState =
        .bound →
      ∃ pre mid post offer ack O A,
        events = pre ++ .packet offer :: mid ++ .packet ack :: post ∧
          BoundBy env reach (bootpRequest timer st).1 pre mid post offer ack O
            A) := by
  refine ⟨?_, ?_, (dhcpAfter_explained rfl events hmeet).2⟩
  · intro pre e post hevents hbefore hafter
    rw [hevents] at hmeet
    cases dhcpAfter_move hmeet with
    | same _ hstate _ =>
        rw [hstate, hbefore] at hafter
        cases hafter
    | discover _ hstate =>
        rw [hstate] at hafter
        cases hafter
    | offer p M _ _ hencodes htype _ => exact ⟨p, M, rfl, hencodes, htype⟩
    | ack p M hstate _ _ _ _ _ =>
        rw [hstate] at hbefore
        cases hbefore
  · intro pre e post hevents hbefore hafter
    rw [hevents] at hmeet
    cases dhcpAfter_move hmeet with
    | same _ hstate _ =>
        rw [hstate] at hafter
        exact absurd hafter hbefore
    | discover _ hstate =>
        rw [hstate] at hafter
        cases hafter
    | offer p M _ hstate' _ _ _ =>
        rw [hstate'] at hafter
        cases hafter
    | ack p M _ _ hencodes htype hid _ =>
        exact ⟨p, M, rfl, hencodes, htype, hid⟩

/-! ## Some packets -/

/-- A reply of a server, as the client finds it in memory. -/
def dhcpReply (id : List UInt8) (M : DhcpMessage) : RxPacket :=
  let bytes := [2, 1, 6, 0] ++ id ++ [0, 0, 0, 0] ++ [0, 0, 0, 0] ++ M.yiaddr ++
    List.replicate 216 0 ++ bootpVendorMagic ++ optionBytes M.options ++ [0xff]
  ⟨Memory.ofList 0 bytes, bytes.length, portBootpc, portBootps,
    [2, 0, 0, 0, 0, 1]⟩

/-- A client that has no address yet. -/
def idleDhcp : Dhcp where
  dhcpState := .init
  bootpID := [0, 0, 0, 0]
  bootpTry := 0
  netOurEther := [2, 0, 0, 0, 0, 7]
  netServerEther := [0, 0, 0, 0, 0, 0]
  netOurIP := [0, 0, 0, 0]
  netServerIP := [0, 0, 0, 0]
  netOurSubnetMask := [0, 0, 0, 0]
  netOurGatewayIP := [0, 0, 0, 0]
  netOurDNSIP := [0, 0, 0, 0]
  netDHCPServerIP := [0, 0, 0, 0]
  dhcpLeasetime := [0, 0, 0, 0]
  netOurHostName := []
  netOurRootPath := []
  bootFile := []
  bootfileEnv := none
  netState := .netloopContinue
  packetHandler := .dhcpHandler

/-- An offer with a netmask and a gateway, and an acknowledgement with another
gateway. -/
def someOffer : DhcpMessage :=
  ⟨[10, 0, 0, 5], [⟨53, [2]⟩, ⟨1, [255, 255, 255, 0]⟩, ⟨3, [10, 0, 0, 1]⟩]⟩

def someAck : DhcpMessage := ⟨[10, 0, 0, 6], [⟨53, [5]⟩, ⟨3, [10, 0, 0, 2]⟩]⟩

theorem encodes_someOffer :
    Encodes (dhcpReply [0, 0, 0, 7] someOffer) someOffer :=
  ⟨by decide, by decide, by decide,
    Memory.holds_iff_read.2 (by decide +kernel), by decide +kernel,
    by decide⟩

theorem encodes_someAck :
    Encodes (dhcpReply [0, 0, 0, 7] someAck) someAck :=
  ⟨by decide, by decide, by decide,
    Memory.holds_iff_read.2 (by decide +kernel), by decide +kernel,
    by decide⟩

/-- The offer and the acknowledgement, one after the other. -/
def someReplies : List DhcpEvent :=
  [.packet (dhcpReply [0, 0, 0, 7] someOffer),
    .packet (dhcpReply [0, 0, 0, 7] someAck)]

theorem dhcp_run_someReplies :
    (dhcpAfter ⟨none, [0, 0, 0, 0]⟩ 100 (bootpRequest 0 idleDhcp).1
        someReplies).dhcpState = .bound ∧
      (dhcpAfter ⟨none, [0, 0, 0, 0]⟩ 100 (bootpRequest 0 idleDhcp).1
        someReplies).netOurSubnetMask = [255, 255, 255, 0] ∧
      ∃ pre mid post offer ack O A,
        someReplies = pre ++ .packet offer :: mid ++ .packet ack :: post ∧
          BoundBy ⟨none, [0, 0, 0, 0]⟩ 100 (bootpRequest 0 idleDhcp).1 pre mid
            post offer ack O A := by
  have hbound : (dhcpAfter ⟨none, [0, 0, 0, 0]⟩ 100
      (bootpRequest 0 idleDhcp).1 someReplies).dhcpState = .bound := by
    decide +kernel
  refine ⟨hbound, by decide +kernel, (dhcp_run ⟨none, [0, 0, 0, 0]⟩ 100 0
    idleDhcp someReplies ?_).2.2 hbound⟩
  refine ⟨fun _ _ => ⟨fun _ => ?_, fun _ _ => ?_⟩,
    fun _ _ => ⟨fun hselecting => ?_, fun _ _ => ?_⟩, trivial⟩
  · exact ⟨someOffer, encodes_someOffer, by decide⟩
  · exact ⟨someOffer, encodes_someOffer⟩
  · exact absurd hselecting (by decide +kernel)
  · exact ⟨someAck, encodes_someAck⟩

/-- A refusal. -/
def someNak : DhcpMessage := ⟨[0, 0, 0, 0], [⟨53, [6]⟩]⟩

/-- A refusal takes the client from `SELECTING` to `REQUESTING`. -/
theorem not_dhcp_run_someNak :
    Encodes (dhcpReply [0, 0, 0, 7] someNak) someNak ∧
      someNak.messageType = some dhcpNak ∧
      (bootpRequest 0 idleDhcp).1.dhcpState = .selecting ∧
      (dhcpAfter ⟨none, [0, 0, 0, 0]⟩ 100 (bootpRequest 0 idleDhcp).1
        [.packet (dhcpReply [0, 0, 0, 7] someNak)]).dhcpState = .requesting :=
  ⟨⟨by decide, by decide, by decide,
    Memory.holds_iff_read.2 (by decide +kernel), by decide +kernel,
    by decide +kernel⟩, by decide, rfl, by decide +kernel⟩

end TateFirmware.Net
