import TateFirmware.Net.DhcpRun
import TateFirmware.Support.Reading

/-!
# The options of a packet

Three scanners of `net/bootp.c` walk over the options behind the magic number of a
packet: `BootpVendorProcess`, `DhcpOptionsProcess` and `DhcpMessageType`.  The first
knows pad bytes and stops `len` bytes behind the magic number, the second stops
`BOOTP_HDR_SIZE` bytes behind it, the third at the end mark only, and the last two
take a pad byte for an option with a length.

The scanners are modelled with the offsets that they read, which count from the start
of the packet, and with the options that they have processed.
-/

namespace TateFirmware.Net

open LibGeneric Support

/-! ## The vendor fields of BOOTP -/

/-- The globals that `BootpVendorFieldProcess` sets. -/
structure BootpParams where
  netOurSubnetMask : List UInt8
  netOurGatewayIP : List UInt8
  netOurDNSIP : List UInt8
  netOurHostName : List UInt8
  netOurRootPath : List UInt8
  netOurNISDomain : List UInt8
  netBootFileSize : ℕ
deriving DecidableEq, Repr

/-- `sizeof(NetOurNISDomain)`. -/
def nisDomainSize : ℕ := 32

/-- An address that is not set. -/
def ipUnset : List UInt8 := [0, 0, 0, 0]

/-- The address at `ext + 2`, if there is none yet. -/
def fieldIP (m : Memory UInt8) (ext : ℕ) (ip : List UInt8) : Reading (List UInt8) :=
  if ip = ipUnset then .bytes m (ext + 2) 4 else pure ip

/-- The name of `size` bytes at `ext + 2`, if there is none yet. -/
def fieldName (m : Memory UInt8) (ext maxlen size : ℕ) (name : List UInt8) :
    Reading (List UInt8) :=
  if peek name = 0 then .bytes m (ext + 2) (truncateSz maxlen size) else pure name

/-- `BootpVendorFieldProcess`. -/
def bootpVendorFieldProcess (m : Memory UInt8) (ext : ℕ) (st : BootpParams) :
    Reading BootpParams := do
  let size ← .byte m (ext + 1)
  let type ← .byte m ext
  let st := { st with netBootFileSize := 0 }
  if type = 1 then
    let ip ← fieldIP m ext st.netOurSubnetMask
    pure { st with netOurSubnetMask := ip }
  else if type = 3 then
    let ip ← fieldIP m ext st.netOurGatewayIP
    pure { st with netOurGatewayIP := ip }
  else if type = 6 then
    let ip ← fieldIP m ext st.netOurDNSIP
    pure { st with netOurDNSIP := ip }
  else if type = 12 then
    let name ← fieldName m ext hostNameSize size.toNat st.netOurHostName
    pure { st with netOurHostName := name }
  else if type = 13 then
    if size = 2 then
      let blocks ← .bytes m (ext + 2) 2
      pure { st with netBootFileSize := ntohs blocks }
    else if size = 4 then
      -- `ntohl` into a `ushort`
      let blocks ← .bytes m (ext + 2) 4
      pure { st with netBootFileSize := ntohs (blocks.drop 2) }
    else pure st
  else if type = 17 then
    let name ← fieldName m ext rootPathSize size.toNat st.netOurRootPath
    pure { st with netOurRootPath := name }
  else if type = 40 then
    let name ← fieldName m ext nisDomainSize size.toNat st.netOurNISDomain
    pure { st with netOurNISDomain := name }
  else pure st

/-- The loop of `BootpVendorProcess` at `ext`; `seen` are the options processed. -/
structure VendorScan where
  ext : ℕ
  st : BootpParams
  seen : List ℕ

/-- The offset behind the option at an offset. -/
def behindOption (m : Memory UInt8) (p : ℕ) : ℕ := p + ((m (p + 1)).toNat + 2)

/-- One round of `BootpVendorProcess`, which ends at `last`. -/
def vendorRound (m : Memory UInt8) (last : ℕ) (s : VendorScan) :
    Reading (VendorScan ⊕ VendorScan) :=
  if s.ext < last then do
    let type ← .byte m s.ext
    if type = 0xff then pure (.inl s)
    else if type = 0 then pure (.inr { s with ext := s.ext + 1 })
    else
      let _ ← .byte m (s.ext + 1)
      if behindOption m s.ext ≤ last then
        let st ← bootpVendorFieldProcess m s.ext s.st
        pure (.inr ⟨behindOption m s.ext, st, s.seen ++ [s.ext]⟩)
      else pure (.inr { s with ext := behindOption m s.ext })
  else pure (.inl s)

/-- `BootpVendorProcess` of a packet of `len` bytes, behind the magic number if there
is one. -/
def bootpVendorProcess (m : Memory UInt8) (len : ℕ) (st : BootpParams) (rounds : ℕ) :
    Reading VendorScan := do
  let magic ← .bytes m bpVend 4
  if magic = bootpVendorMagic then
    .loop (vendorRound m (bpVend + 4 + len)) rounds ⟨bpVend + 4, st, []⟩
  else pure ⟨bpVend + 4, st, []⟩

/-! ## The options of DHCP -/

/-- `dhcpOption` with what it reads. -/
def readDhcpOption (popt : ℕ) (m : Memory UInt8) (st : Dhcp) :
    Reading (Dhcp × Memory UInt8) := do
  let oplen ← .byte m (popt + 1)
  let type ← .byte m popt
  if type = 1 then
    let ip ← .bytes m (popt + 2) 4
    pure ({ st with netOurSubnetMask := ip }, m)
  else if type = 3 then
    let ip ← .bytes m (popt + 2) 4
    pure ({ st with netOurGatewayIP := ip }, m)
  else if type = 6 then
    let ip ← .bytes m (popt + 2) 4
    pure ({ st with netOurDNSIP := ip }, m)
  else if type = 12 then
    let name ← .bytes m (popt + 2) (truncateSz hostNameSize oplen.toNat)
    pure ({ st with netOurHostName := name }, m)
  else if type = 17 then
    let name ← .bytes m (popt + 2) (truncateSz rootPathSize oplen.toNat)
    pure ({ st with netOurRootPath := name }, m)
  else if type = 51 then
    let time ← .bytes m (popt + 2) 4
    pure ({ st with dhcpLeasetime := time }, m)
  else if type = 54 then
    let ip ← .bytes m (popt + 2) 4
    pure ({ st with netDHCPServerIP := ip }, m)
  else if type = 67 then
    let size := truncateSz bpFileSize oplen.toNat
    let file ← .byte m bpFile
    if file = 0 ∧ size > 0 then
      let name ← .bytes m (popt + 2) size
      pure (st, (m.copyIn bpFile name).store (bpFile + size) 0)
    else pure (st, m)
  else pure (st, m)

/-- The loop of `DhcpOptionsProcess` at `popt`. -/
structure DhcpScan where
  popt : ℕ
  m : Memory UInt8
  st : Dhcp
  seen : List ℕ

/-- One round of `DhcpOptionsProcess`, which ends at `last`. -/
def dhcpRound (last : ℕ) (s : DhcpScan) : Reading (DhcpScan ⊕ DhcpScan) :=
  if s.popt < last then do
    let type ← .byte s.m s.popt
    if type = 0xff then pure (.inl s)
    else
      let (st, m) ← readDhcpOption s.popt s.m s.st
      pure (.inr ⟨behindOption s.m s.popt, m, st, s.seen ++ [s.popt]⟩)
  else pure (.inl s)

/-- `DhcpOptionsProcess`, behind the magic number if there is one. -/
def readDhcpOptions (m : Memory UInt8) (st : Dhcp) (rounds : ℕ) : Reading DhcpScan := do
  let magic ← .bytes m bpVend 4
  if magic = bootpVendorMagic then
    .loop (dhcpRound (bpVend + 4 + bootpHdrSize)) rounds ⟨bpVend + 4, m, st, []⟩
  else pure ⟨bpVend + 4, m, st, []⟩

/-- The loop of `DhcpMessageType` at `popt`, or its result. -/
structure MessageScan where
  popt : ℕ
  type : Option UInt8
  seen : List ℕ

/-- One round of `DhcpMessageType`. -/
def messageRound (m : Memory UInt8) (s : MessageScan) :
    Reading (MessageScan ⊕ MessageScan) := do
  let type ← .byte m s.popt
  if type = 0xff then pure (.inl s)
  else if type = 53 then
    let type ← .byte m (s.popt + 2)
    pure (.inl ⟨s.popt, some type, s.seen ++ [s.popt]⟩)
  else
    let _ ← .byte m (s.popt + 1)
    pure (.inr ⟨behindOption m s.popt, none, s.seen ++ [s.popt]⟩)

/-- `DhcpMessageType`. -/
def readMessageType (m : Memory UInt8) (rounds : ℕ) : Reading MessageScan := do
  let magic ← .bytes m bpVend 4
  if magic ≠ bootpVendorMagic then pure ⟨bpVend + 4, none, []⟩
  else .loop (messageRound m) rounds ⟨bpVend + 4, none, []⟩

/-! ## The grammar of RFC 1533 -/

/-- The options from offset `p` of a packet of `len` bytes: a pad is one byte, and the
list stops at the end mark or at the end of the packet. -/
def rfcOptions (m : Memory UInt8) (len p : ℕ) : List ℕ :=
  if p < len then
    if m p = 0xff then []
    else if m p = 0 then rfcOptions m len (p + 1)
    else if behindOption m p ≤ len then p :: rfcOptions m len (behindOption m p)
    else []
  else []
termination_by len - p
decreasing_by
  · omega
  · unfold behindOption
    omega

/-- The options of a packet, which has them behind the magic number. -/
def packetOptions (m : Memory UInt8) (len : ℕ) : List ℕ :=
  if netReadLong m bpVend = bootpVendorMagic then rfcOptions m len (bpVend + 4) else []

/-- The options up to the first one of type 53. -/
def upToMessageType (m : Memory UInt8) : List ℕ → List ℕ
  | [] => []
  | p :: options => if m p = 53 then [p] else p :: upToMessageType m options

/-- A scanner returns, reads bytes of the packet only and processes these options. -/
def Scans {α : Type} (scan : ℕ → Reading α) (len : ℕ) (seen : α → List ℕ)
    (options : List ℕ) : Prop :=
  ∃ a, Reading.Completes scan len a ∧ seen a = options

/-- The three scanners process the options that the grammar yields; the last one is
through with them at the message type. -/
structure OptionsScanned (p : RxPacket) (params : BootpParams) (st : Dhcp) : Prop where
  vendor : Scans (bootpVendorProcess p.mem p.len params) p.len VendorScan.seen
    (packetOptions p.mem p.len)
  dhcp : Scans (readDhcpOptions p.mem st) p.len DhcpScan.seen
    (packetOptions p.mem p.len)
  message : Scans (readMessageType p.mem) p.len MessageScan.seen
    (upToMessageType p.mem (packetOptions p.mem p.len))

/-! ## Packets that are scanned as the grammar says -/

variable (m : Memory UInt8) (len : ℕ)

/-- `BootpVendorFieldProcess` takes an address from the field at `p`. -/
def TakesIP (p : ℕ) (st : BootpParams) : Prop :=
  (m p = 1 ∧ st.netOurSubnetMask = ipUnset) ∨ (m p = 3 ∧ st.netOurGatewayIP = ipUnset) ∨
    (m p = 6 ∧ st.netOurDNSIP = ipUnset)

/-- From `p` on `BootpVendorProcess` meets pads and complete options up to an end mark,
or up to an option that leads beyond the end of its loop. -/
inductive VendorInside : ℕ → BootpParams → Prop
  | endMark {p st} (hp : p < len) (hend : m p = 0xff) : VendorInside p st
  | leap {p st} (hp : p + 1 < len) (hend : m p ≠ 0xff) (hpad : m p ≠ 0)
      (hleap : bpVend + 4 + len < behindOption m p) : VendorInside p st
  | pad {p st} (hp : p < len) (hpad : m p = 0) (hrest : VendorInside (p + 1) st) :
      VendorInside p st
  | option {p st st'} (hend : m p ≠ 0xff) (hpad : m p ≠ 0)
      (hcomplete : behindOption m p ≤ len) (hip : TakesIP m p st → p + 6 ≤ len)
      (hst : (bootpVendorFieldProcess m p st).value = some st')
      (hrest : VendorInside (behindOption m p) st') : VendorInside p st

/-- The types of the options that hold four bytes. -/
def fourByteTypes : List UInt8 := [1, 3, 6, 51, 54]

/-- From `p` on `DhcpOptionsProcess` meets complete options up to an end mark, or up to
the end of its loop with no option behind it. -/
inductive DhcpInside : ℕ → Prop
  | endMark {p} (hlast : p < bpVend + 4 + bootpHdrSize) (hp : p < len)
      (hend : m p = 0xff) : DhcpInside p
  | last {p} (hlast : bpVend + 4 + bootpHdrSize ≤ p) (hnone : rfcOptions m len p = []) :
      DhcpInside p
  | option {p} (hlast : p < bpVend + 4 + bootpHdrSize) (hend : m p ≠ 0xff)
      (hpad : m p ≠ 0) (hcomplete : behindOption m p ≤ len)
      (hfour : m p ∈ fourByteTypes → p + 6 ≤ len)
      (hrest : DhcpInside (behindOption m p)) : DhcpInside p

/-- From `p` on `DhcpMessageType` meets complete options up to a message type or an end
mark. -/
inductive MessageInside : ℕ → Prop
  | endMark {p} (hp : p < len) (hend : m p = 0xff) : MessageInside p
  | messageType {p} (htype : m p = 53) (hcomplete : behindOption m p ≤ len)
      (hp : p + 2 < len) : MessageInside p
  | option {p} (hend : m p ≠ 0xff) (hpad : m p ≠ 0) (htype : m p ≠ 53)
      (hcomplete : behindOption m p ≤ len) (hrest : MessageInside (behindOption m p)) :
      MessageInside p

variable {m len}

/-! ## The grammar -/

theorem lt_behindOption (m : Memory UInt8) (p : ℕ) : p + 1 < behindOption m p := by
  unfold behindOption
  omega

theorem rfcOptions_endMark {p : ℕ} (h : m p = 0xff) : rfcOptions m len p = [] := by
  rw [rfcOptions]
  simp [h]

theorem rfcOptions_pad {p : ℕ} (hp : p < len) (h : m p = 0) :
    rfcOptions m len p = rfcOptions m len (p + 1) := by
  rw [rfcOptions]
  simp [hp, h]

theorem rfcOptions_option {p : ℕ} (hend : m p ≠ 0xff) (hpad : m p ≠ 0)
    (hcomplete : behindOption m p ≤ len) :
    rfcOptions m len p = p :: rfcOptions m len (behindOption m p) := by
  have hp : p < len := by
    have hlt := lt_behindOption m p
    omega
  rw [rfcOptions]
  simp [hp, hend, hpad, hcomplete]

theorem rfcOptions_incomplete {p : ℕ} (hpad : m p ≠ 0)
    (h : len < behindOption m p) : rfcOptions m len p = [] := by
  rw [rfcOptions]
  simp [hpad, Nat.not_le.mpr h]

/-- The grammar yields offsets from `p` on. -/
theorem le_of_mem_rfcOptions {p q : ℕ} (h : q ∈ rfcOptions m len p) : p ≤ q := by
  induction p using rfcOptions.induct m len with
  | case1 p hp hend => simp [rfcOptions_endMark hend] at h
  | case2 p hp hend hpad ih =>
      rw [rfcOptions_pad hp hpad] at h
      exact (Nat.le_succ p).trans (ih h)
  | case3 p hp hend hpad hcomplete ih =>
      rw [rfcOptions_option hend hpad hcomplete] at h
      rcases List.mem_cons.mp h with rfl | h
      · exact le_rfl
      · exact (Nat.le_of_lt (Nat.lt_of_succ_lt (lt_behindOption m p))).trans (ih h)
  | case4 p hp hend hpad hcomplete =>
      simp [rfcOptions_incomplete hpad (Nat.lt_of_not_le hcomplete)] at h
  | case5 p hp =>
      rw [rfcOptions, if_neg hp] at h
      exact absurd h List.not_mem_nil

/-- An option that the grammar yields first is no pad and complete. -/
theorem option_of_rfcOptions_cons {p : ℕ} {rest : List ℕ} (hend : m p ≠ 0xff)
    (h : rfcOptions m len p = p :: rest) :
    m p ≠ 0 ∧ behindOption m p ≤ len ∧ rest = rfcOptions m len (behindOption m p) := by
  have hpad : m p ≠ 0 := by
    intro hpad
    by_cases hp : p < len
    · have hmem : p ∈ rfcOptions m len (p + 1) := by
        rw [← rfcOptions_pad hp hpad, h]
        exact List.mem_cons_self
      have hle := le_of_mem_rfcOptions hmem
      omega
    · rw [rfcOptions, if_neg hp] at h
      cases h
  have hcomplete : behindOption m p ≤ len := by
    by_contra hlong
    rw [rfcOptions_incomplete hpad (Nat.lt_of_not_le hlong)] at h
    cases h
  refine ⟨hpad, hcomplete, ?_⟩
  rw [rfcOptions_option hend hpad hcomplete] at h
  exact (List.cons.inj h).2.symm

end TateFirmware.Net
