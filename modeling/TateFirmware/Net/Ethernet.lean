import TateFirmware.Net.NetLoop

/-!
# Frames and their headers

The globals of `net/net.c` and the headers that it reads and writes.  Addresses are
the bytes in memory.  A frame is as long as its length says, and a read behind its
end is `none`.
-/

namespace TateFirmware.Net

open Support

/-- `n` bytes. -/
abbrev Octets (n : ℕ) := { a : List UInt8 // a.length = n }

/-- The `k` bytes from byte `i` on. -/
def Octets.sub {n : ℕ} (b : Octets n) (i k : ℕ) (h : i + k ≤ n := by decide) :
    Octets k :=
  ⟨(b.1.drop i).take k, by
    rw [List.length_take, List.length_drop, b.2]
    omega⟩

/-- `ntohs` of the `ushort` at byte `i`. -/
def Octets.short {n : ℕ} (b : Octets n) (i : ℕ) : ℕ := ntohs (b.1.drop i)

def Octets.byte {n : ℕ} (b : Octets n) (i : ℕ) : UInt8 := b.1.getD i 0

/-- An IP address, and an Ethernet address. -/
abbrev IPaddr := Octets 4

abbrev EtherAddr := Octets 6

/-- `0`. -/
def noIP : IPaddr := ⟨[0, 0, 0, 0], rfl⟩

/-- `0xFFFFFFFF`. -/
def broadcastIP : IPaddr := ⟨[0xff, 0xff, 0xff, 0xff], rfl⟩

/-- `NetEtherNullAddr`. -/
def netEtherNullAddr : EtherAddr := ⟨[0, 0, 0, 0, 0, 0], rfl⟩

/-- `NetBcastAddr`. -/
def netBcastAddr : EtherAddr := ⟨[0xff, 0xff, 0xff, 0xff, 0xff, 0xff], rfl⟩

/-- `ip & mask`. -/
def maskIP (ip mask : IPaddr) : IPaddr :=
  ⟨List.zipWith (· &&& ·) ip.1 mask.1, by
    rw [List.length_zipWith, ip.2, mask.2, min_self]⟩

/-- `ETHER_HDR_SIZE`, `E802_HDR_SIZE`, `VLAN_ETHER_HDR_SIZE`, `IP_HDR_SIZE` and
`ARP_HDR_SIZE`. -/
def etherHdrSize : ℕ := 14

def e802HdrSize : ℕ := 22

def vlanEtherHdrSize : ℕ := 18

def ipHdrSize : ℕ := 28

def arpHdrSize : ℕ := 28

def protIP : ℕ := 0x0800

def protARP : ℕ := 0x0806

def protRARP : ℕ := 0x8035

def protVLAN : ℕ := 0x8100

/-- `VLAN_NONE`, and the bits of `VLAN_IDMASK`. -/
def vlanNone : ℕ := 4095

def vlanId (tag : ℕ) : ℕ := tag % 2 ^ 12

/-- `CFG_CMD_PING` and `CONFIG_UDP_CHECKSUM`. -/
structure NetConfig where
  ping : Bool
  udpChecksum : Bool

/-- The globals; `macs` is what is in the buffers for Ethernet addresses, of which
`NetServerEther` is the first. -/
structure NetGlobals where
  macs : ℕ → EtherAddr
  netOurEther : EtherAddr
  netOurIP : IPaddr
  netOurSubnetMask : IPaddr
  netOurGatewayIP : IPaddr
  netServerIP : IPaddr
  /-- `ntohs` of the two VLAN tags. -/
  netOurVLAN : ℕ
  netOurNativeVLAN : ℕ
  netIPID : ℕ
  netArpWaitPacketIP : IPaddr
  netArpWaitReplyIP : IPaddr
  netArpWaitPacketMAC : Option ℕ
  /-- The first `NetArpWaitTxPacketSize` bytes of the packet. -/
  netArpWaitTxPacket : List UInt8
  netArpWaitTimerStart : UInt32
  netArpWaitTry : ℕ

/-- Write an Ethernet address into its buffer. -/
def NetGlobals.setMac (st : NetGlobals) (p : ℕ) (mac : EtherAddr) : NetGlobals :=
  { st with macs := Function.update st.macs p mac }

/-- `myvlanid`, for either of the two tags. -/
def activeVlan (tag : ℕ) : ℕ := if tag = 0xffff then vlanNone else tag

/-- `NetSetEther`. -/
def netSetEther (st : NetGlobals) (addr : EtherAddr) (prot : ℕ) : List UInt8 :=
  if vlanId (activeVlan st.netOurVLAN) = vlanNone then
    addr.1 ++ st.netOurEther.1 ++ htons prot
  else
    addr.1 ++ st.netOurEther.1 ++ htons protVLAN ++
      htons (vlanId (activeVlan st.netOurVLAN)) ++ htons prot

/-- `NetEthHdrSize`, which is also the result of `NetSetEther`. -/
def netEthHdrSize (st : NetGlobals) : ℕ :=
  if vlanId (activeVlan st.netOurVLAN) = vlanNone then etherHdrSize
  else vlanEtherHdrSize

/-- The sum of the `ushort`s of a header, in the byte order of the processor. -/
def shortSum : List UInt8 → ℕ
  | a :: b :: rest => a.toNat + b.toNat * 2 ^ 8 + shortSum rest
  | _ => 0

/-- `NetCksum`. -/
def netCksum (ptr : List UInt8) : ℕ :=
  let xsum := shortSum ptr
  let xsum := xsum % 2 ^ 16 + xsum / 2 ^ 16
  let xsum := xsum % 2 ^ 16 + xsum / 2 ^ 16
  xsum % 2 ^ 16

/-- `NetCksumOk`. -/
def netCksumOk (ptr : List UInt8) : Prop :=
  netCksum ptr = 0 ∨ netCksum ptr = 0xffff

instance (ptr : List UInt8) : Decidable (netCksumOk ptr) :=
  inferInstanceAs (Decidable (_ ∨ _))

/-- `NetSetIP`: the IP and UDP header. -/
def netSetIP (st : NetGlobals) (dest : IPaddr) (dport sport len : ℕ) :
    List UInt8 :=
  let front := [0x45, 0] ++ htons (ipHdrSize + len) ++ htons st.netIPID ++
    htons 0x4000 ++ [255, 17]
  let back := st.netOurIP.1 ++ dest.1
  let sum := 0xffff - netCksum (front ++ [0, 0] ++ back)
  front ++ [UInt8.ofNat sum, UInt8.ofNat (sum / 2 ^ 8)] ++ back ++ htons sport ++
    htons dport ++ htons (8 + len) ++ [0, 0]

theorem htons_length (n : ℕ) : (htons n).length = 2 := rfl

theorem netSetEther_length (st : NetGlobals) (addr : EtherAddr) (prot : ℕ) :
    (netSetEther st addr prot).length = netEthHdrSize st := by
  unfold netSetEther netEthHdrSize
  split
  · simp [htons_length, addr.2, st.netOurEther.2, etherHdrSize]
  · simp [htons_length, addr.2, st.netOurEther.2, vlanEtherHdrSize]

/-! ## Reading a frame -/

/-- A received frame; its length is an `int`. -/
abbrev Frame := { l : List UInt8 // l.length < 2 ^ 31 }

/-- The `n` bytes from byte `i` on, unless the frame ends before them. -/
def bytesAt (frame : List UInt8) (i n : ℕ) : Option (Octets n) :=
  if h : i + n ≤ frame.length then
    some ⟨(frame.drop i).take n, by
      rw [List.length_take, List.length_drop]
      omega⟩
  else none

theorem bytesAt_isSome_iff {frame : List UInt8} {i n : ℕ} :
    (bytesAt frame i n).isSome ↔ i + n ≤ frame.length := by
  unfold bytesAt
  split
  · exact iff_of_true rfl ‹_›
  · exact iff_of_false (by simp) ‹_›

theorem bytesAt_of_le {frame : List UInt8} {i n : ℕ} (h : i + n ≤ frame.length) :
    ∃ b, bytesAt frame i n = some b :=
  Option.isSome_iff_exists.mp (bytesAt_isSome_iff.mpr h)

/-- Bytes written into a frame. -/
def overwrite (frame : List UInt8) (i : ℕ) (bytes : List UInt8) : List UInt8 :=
  frame.take i ++ bytes ++ frame.drop (i + bytes.length)

theorem overwrite_length {frame : List UInt8} {i : ℕ} {bytes : List UInt8}
    (h : i + bytes.length ≤ frame.length) :
    (overwrite frame i bytes).length = frame.length := by
  simp only [overwrite, List.length_append, List.length_take, List.length_drop]
  omega

end TateFirmware.Net
