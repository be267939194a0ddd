import TateFirmware.LibGeneric.CString
import TateFirmware.Support.Memory

/-!
# The network loop

`NetLoop` in `net/net.c` runs a protocol as a state machine driven by received
packets and timer events, until one of them sets `NetState`.  A protocol that
gives up calls `NetStartAgain`.
-/

namespace TateFirmware.Net

open LibGeneric Support

/-- `NETLOOP_CONTINUE` and its siblings. -/
inductive NetState where
  | netloopContinue
  | netloopRestart
  | netloopSuccess
  | netloopFail
deriving DecidableEq, Repr

/-- What `NetStartAgain` asks for: the environment variable `netretry` is `no`
or `once`, `eth_try_another` has come around, and there is a device. -/
structure Retry where
  noretry : Bool
  once : Bool
  netRestartWrap : Bool
  netDevExists : Bool
deriving DecidableEq, Repr

/-- What `NetStartAgain` does. -/
inductive StartAgain where
  /-- `NetState` is set. -/
  | state (s : NetState)
  /-- `startAgainHandler` ignores all packets until `startAgainTimeout`. -/
  | later
deriving DecidableEq, Repr

/-- `NetStartAgain`. -/
def netStartAgain (retry : Retry) : StartAgain :=
  if retry.noretry then .state .netloopFail
  else if retry.netRestartWrap then
    if retry.netDevExists && !retry.once then .later else .state .netloopFail
  else .state .netloopRestart

/-- A UDP packet on the network between two machines: its ports and payload. -/
structure Datagram where
  src : ℕ
  dst : ℕ
  data : List UInt8
deriving DecidableEq, Repr

/-- A received packet: memory from `pkt` on, which goes on past the packet, the
length and the ports of the packet, and the Ethernet address it came from. -/
structure RxPacket where
  mem : Memory UInt8
  len : ℕ
  dest : ℕ
  src : ℕ
  etSrc : List UInt8

/-- `%02lX%02lX%02lX%02lX.img` of the bytes of an address. -/
def imageName (ip : ℕ) : List UInt8 :=
  ([0, 8, 16, 24].flatMap fun shift =>
    (number (ip / 2 ^ shift % 2 ^ 8) 16 2 ⟨true, false⟩).map toupper) ++
    text ".img"

/-- `htons`, as the bytes it puts into a packet. -/
def htons (n : ℕ) : List UInt8 :=
  [UInt8.ofNat (n / 2 ^ 8), UInt8.ofNat n]

/-- `ntohs(*(ushort *)pkt)`. -/
def ntohs : List UInt8 → ℕ
  | a :: b :: _ => a.toNat * 2 ^ 8 + b.toNat
  | _ => 0

theorem ntohs_htons (n : ℕ) (rest : List UInt8) :
    ntohs (htons n ++ rest) = n % 2 ^ 16 := by
  simp only [htons, List.cons_append, List.nil_append, ntohs,
    UInt8.toNat_ofNat']
  omega

end TateFirmware.Net
