import Mathlib.Logic.Relation
import TateFirmware.Net.Checksum
import TateFirmware.Support.Fuel
import TateFirmware.Support.Reading
import TateFirmware.Support.Records

/-!
# The CDP client

`CDPHandler` walks over the type-length-value triples of a packet.  The length of a
triple counts its own four bytes of type and length, which are subtracted from it in
16 bits without a look at it: a length of `0` keeps the walk where it is, and one
below `4` leaves almost 64 KiB of data.

Offsets count from the start of the packet.
-/

namespace TateFirmware.Net

open Relation Support

/-! ## The source -/

/-- `CDP_SNAP_hdr`. -/
def cdpSnapHdr : List UInt8 := [0xAA, 0xAA, 0x03, 0x00, 0x00, 0x0C, 0x20, 0x00]

/-- `CDP_NATIVE_VLAN_TLV`. -/
def cdpNativeVlanTlv : ℕ := 0x000a

/-- `CDP_APPLIANCE_VLAN_TLV`. -/
def cdpApplianceVlanTlv : ℕ := 0x000e

/-- The carries of a sum are added in; three times are enough for 32 bits. -/
def foldCarries (result : ℕ) : ℕ :=
  let fold := fun r => r % 2 ^ 16 + r / 2 ^ 16
  fold (fold (fold result))

/-- The bytes of a `ushort` swapped. -/
def swapShort (s : ℕ) : ℕ := s / 2 ^ 8 + s % 2 ^ 8 * 2 ^ 8

/-- The sum of the `ushort`s of `CDP_compute_csum`; a last byte is sign-extended and
added to the lower half only. -/
def cdpSum : ℕ → List UInt8 → ℕ
  | result, a :: b :: rest =>
      let result := (result + ushort a b) % 2 ^ 32
      cdpSum (if result ≥ 2 ^ 31 then result % 2 ^ 16 + result / 2 ^ 16 else result) rest
  | result, [a] =>
      let leftover := if a.toNat < 2 ^ 7 then a.toNat else a.toNat + 0xff00
      result / 2 ^ 16 * 2 ^ 16 + (result + leftover) % 2 ^ 16
  | result, [] => result

/-- `CDP_compute_csum` of bytes that start at an odd or an even address. -/
def cdpComputeCsum (odd : Bool) (buff : List UInt8) : ℕ :=
  let result :=
    match odd, buff with
    | true, a :: rest => swapShort (foldCarries (cdpSum (a.toNat * 2 ^ 8) rest))
    | _, _ => foldCarries (cdpSum 0 buff)
  swapShort (2 ^ 16 - 1 - foldCarries result % 2 ^ 16)

/-- How `CDPHandler` ends. -/
inductive CdpResult where
  /-- It returns early. -/
  | ignored
  /-- `pkt_short`. -/
  | pktShort
  /-- `CDPApplianceVLAN` and `CDPNativeVLAN` are set. -/
  | ok (vlan nvlan : ℕ)
deriving DecidableEq, Repr

/-- The inner loop, over data of `tlen` bytes at `t`; `none` is `pkt_short`. -/
def applianceLoop (pkt : Memory UInt8) : ℕ → ℕ → ℕ → Reading (Option ℕ)
  | 0, _, vlan => pure (some vlan)
  | 1, _, _ => pure none
  | 2, _, _ => pure none
  | tlen + 3, t, _ => do
      let _ ← .byte pkt t
      let ss ← .bytes pkt (t + 1) 2
      applianceLoop pkt tlen (t + 3) (ntohs ss)

/-- The switch over the type, with the data at `ss`: the new `vlan` and `nvlan`. -/
def cdpTlv (pkt : Memory UInt8) (ss type tlen vlan nvlan : ℕ) :
    Reading (Option (ℕ × ℕ)) :=
  if type = cdpNativeVlanTlv then do
    let _ ← .bytes pkt ss 2
    pure (some (vlan, pkt.leHalf ss))
  else if type = cdpApplianceVlanTlv then do
    let vlan ← applianceLoop pkt tlen ss vlan
    pure (vlan.map fun vlan => (vlan, nvlan))
  else pure (some (vlan, nvlan))

/-- The outer loop at offset `p`, with `len` bytes to go. -/
def cdpLoop (pkt : Memory UInt8) : ℕ → ℕ → ℕ → ℕ → ℕ → Reading CdpResult
  | 0, _, _, _, _ => .running
  | rounds + 1, p, len, vlan, nvlan =>
      if len = 0 then pure (.ok vlan nvlan)
      else if len < 4 then pure .pktShort
      else do
        let type ← .bytes pkt p 2
        let tlen ← .bytes pkt (p + 2) 2
        if ntohs tlen > len then pure .pktShort
        else do
          let vlans ← cdpTlv pkt (p + 4) (ntohs type)
            ((ntohs tlen + 2 ^ 16 - 4) % 2 ^ 16) vlan nvlan
          match vlans with
          | none => pure .pktShort
          | some (vlan, nvlan) =>
              cdpLoop pkt rounds (p + ntohs tlen) (len - ntohs tlen) vlan nvlan

attribute [grind =] cdpLoop

/-- `CDPHandler`, for a packet of `len` bytes at an odd or an even address. -/
def cdpHandler (pkt : Memory UInt8) (odd : Bool) (len rounds : ℕ) :
    Reading CdpResult :=
  if len < cdpSnapHdr.length + 4 then pure .pktShort
  else do
    let hdr ← .bytes pkt 0 8
    if hdr ≠ cdpSnapHdr then pure .ignored
    else do
      let version ← .byte pkt 8
      if version < 2 then pure .ignored
      else do
        let ttl ← .byte pkt 9
        if ttl = 0 then pure .ignored
        else do
          let covered ← .bytes pkt 8 ((len - 8) % 2 ^ 16)
          if cdpComputeCsum odd covered ≠ 0 then pure .ignored
          else cdpLoop pkt rounds 12 (len - 12) 0xffff 0xffff

/-! ## Triples -/

/-- `type` of the triple at an offset. -/
def tlvType (pkt : Memory UInt8) (p : ℕ) : ℕ := ntohs (pkt.read p 2)

/-- `tlen` of the triple at an offset. -/
def tlvLen (pkt : Memory UInt8) (p : ℕ) : ℕ := ntohs (pkt.read (p + 2) 2)

/-- `tlen` behind the subtraction of the header. -/
def tlvData (pkt : Memory UInt8) (p : ℕ) : ℕ := (tlvLen pkt p + 2 ^ 16 - 4) % 2 ^ 16

variable (pkt : Memory UInt8) (odd : Bool) (len : ℕ)

/-- There is a triple at an offset, and its length is inside the packet. -/
def TlvAt (p : ℕ) : Prop := p + 4 ≤ len ∧ tlvLen pkt p ≤ len - p

/-- The walk goes on from one offset at another: a triple that is not a list of
appliances with bytes left over. -/
def TlvNext (p q : ℕ) : Prop :=
  TlvAt pkt len p ∧
    (tlvType pkt p = cdpApplianceVlanTlv → tlvData pkt p % 3 = 0) ∧
    q = p + tlvLen pkt p

/-- A triple moves the walk on, and what is read of its data is in the packet. -/
structure TlvInside (p : ℕ) : Prop where
  moves : tlvLen pkt p ≠ 0
  native : tlvType pkt p = cdpNativeVlanTlv → p + 6 ≤ len
  appliance : tlvType pkt p = cdpApplianceVlanTlv →
    p + 4 + 3 * (tlvData pkt p / 3) ≤ len

/-- The packet gets as far as the walk. -/
structure CdpAccepted : Prop where
  size : cdpSnapHdr.length + 4 ≤ len
  snap : pkt.read 0 8 = cdpSnapHdr
  version : ¬ pkt 8 < 2
  ttl : pkt 9 ≠ 0
  csum : cdpComputeCsum odd (pkt.read 8 ((len - 8) % 2 ^ 16)) = 0

/-- `CDPHandler` ends and reads bytes of the packet only. -/
structure CdpWalks : Prop where
  ends : ∃ result, Returns (fun rounds => (cdpHandler pkt odd len rounds).value) result
  within : ∀ rounds, (cdpHandler pkt odd len rounds).Within len

/-! ## One triple -/

variable {pkt odd len}

/-- The inner loop reads three bytes in each round. -/
theorem applianceLoop_within (tlen : ℕ) {t : ℕ} (ht : t ≤ len) (vlan : ℕ) :
    (applianceLoop pkt tlen t vlan).Within len ↔ t + 3 * (tlen / 3) ≤ len := by
  induction tlen using Nat.strong_induction_on generalizing t vlan with
  | h tlen ih =>
      match tlen with
      | 0 => simpa [applianceLoop] using ht
      | 1 => simpa [applianceLoop] using ht
      | 2 => simpa [applianceLoop] using ht
      | tlen + 3 =>
          have hdiv : (tlen + 3) / 3 = tlen / 3 + 1 := Nat.add_div_right tlen (by decide)
          have hrest := fun h : t + 3 ≤ len =>
            ih tlen (by omega) h (ntohs (pkt.read (t + 1) 2))
          simp only [applianceLoop, Reading.within_bind, Reading.within_byte,
            Reading.within_bytes, Reading.value_byte, Reading.value_bytes,
            Option.some.injEq, forall_eq', hdiv]
          constructor
          · rintro ⟨_, hword, hloop⟩
            have hfits := (hrest (by omega)).mp hloop
            omega
          · intro hfits
            exact ⟨by omega, by omega, (hrest (by omega)).mpr (by omega)⟩

theorem applianceLoop_value (pkt : Memory UInt8) (tlen t vlan : ℕ) :
    ∃ r, (applianceLoop pkt tlen t vlan).value = some r ∧ (r = none ↔ tlen % 3 ≠ 0) := by
  induction tlen using Nat.strong_induction_on generalizing t vlan with
  | h tlen ih =>
      match tlen with
      | 0 => exact ⟨_, rfl, by simp⟩
      | 1 => exact ⟨_, rfl, by simp⟩
      | 2 => exact ⟨_, rfl, by simp⟩
      | tlen + 3 =>
          obtain ⟨r, hvalue, hr⟩ :=
            ih tlen (by omega) (t + 3) (ntohs (pkt.read (t + 1) 2))
          refine ⟨r, hvalue, hr.trans ?_⟩
          rw [Nat.add_mod_right]

/-- What the switch reads of the data of a triple. -/
theorem cdpTlv_within {p type tlen : ℕ} (hp : p + 4 ≤ len) (vlan nvlan : ℕ) :
    (cdpTlv pkt (p + 4) type tlen vlan nvlan).Within len ↔
      (type = cdpNativeVlanTlv → p + 6 ≤ len) ∧
      (type = cdpApplianceVlanTlv → p + 4 + 3 * (tlen / 3) ≤ len) := by
  have hne : cdpNativeVlanTlv ≠ cdpApplianceVlanTlv := by decide
  unfold cdpTlv
  split_ifs with hnative happliance
  · subst hnative
    simp [hne]
  · subst happliance
    simp [hne.symm, applianceLoop_within tlen hp]
  · simp [hnative, happliance]

/-- The walk is stopped by a list of appliances with bytes left over. -/
theorem cdpTlv_value (pkt : Memory UInt8) (p type tlen vlan nvlan : ℕ) :
    ∃ r, (cdpTlv pkt (p + 4) type tlen vlan nvlan).value = some r ∧
      (r = none ↔ type = cdpApplianceVlanTlv ∧ tlen % 3 ≠ 0) := by
  have hne : cdpNativeVlanTlv ≠ cdpApplianceVlanTlv := by decide
  unfold cdpTlv
  split_ifs with hnative happliance
  · subst hnative
    exact ⟨_, rfl, by simp [hne]⟩
  · obtain ⟨r, hvalue, hr⟩ := applianceLoop_value pkt tlen (p + 4) vlan
    refine ⟨r.map fun vlan => (vlan, nvlan), ?_, ?_⟩
    · rw [Reading.value_bind, hvalue]
      rfl
    · rw [Option.map_eq_none_iff, hr]
      exact (and_iff_right happliance).symm
  · exact ⟨_, rfl, by simp [happliance]⟩

/-! ## The walk -/

/-- The walk from an offset ends and reads bytes of the packet only. -/
def WalksFrom (pkt : Memory UInt8) (len p vlan nvlan : ℕ) : Prop :=
  (∃ result, Returns (fun rounds => (cdpLoop pkt rounds p (len - p) vlan nvlan).value)
    result) ∧
  ∀ rounds, (cdpLoop pkt rounds p (len - p) vlan nvlan).Within len

/-- Where there is no triple the walk ends. -/
theorem walksFrom_of_not_tlvAt {p : ℕ} (h : ¬ TlvAt pkt len p) (vlan nvlan : ℕ) :
    WalksFrom pkt len p vlan nvlan := by
  by_cases hzero : len - p = 0
  · refine ⟨⟨.ok vlan nvlan, 1, by simp [cdpLoop, hzero]⟩, fun rounds => ?_⟩
    cases rounds <;> simp [cdpLoop, hzero]
  by_cases hfour : len - p < 4
  · refine ⟨⟨.pktShort, 1, by simp [cdpLoop, hzero, hfour]⟩, fun rounds => ?_⟩
    cases rounds <;> simp [cdpLoop, hzero, hfour]
  have hlong : ntohs (pkt.read (p + 2) 2) > len - p := by
    by_contra hle
    exact h ⟨by omega, Nat.le_of_not_lt hle⟩
  refine ⟨⟨.pktShort, 1, by simp [cdpLoop, hzero, hfour, hlong]⟩, fun rounds => ?_⟩
  cases rounds with
  | zero => exact Reading.within_running len
  | succ rounds =>
      simp only [cdpLoop, if_neg hzero, if_neg hfour, Reading.within_bind,
        Reading.within_bytes, Reading.value_bytes, Option.some.injEq, forall_eq',
        if_pos hlong, Reading.within_pure, and_true]
      omega

/-- One round at a triple. -/
theorem cdpLoop_succ {p : ℕ} (h : TlvAt pkt len p) (rounds vlan nvlan : ℕ) :
    let tlv := cdpTlv pkt (p + 4) (tlvType pkt p) (tlvData pkt p) vlan nvlan
    let next := fun vlans : ℕ × ℕ => cdpLoop pkt rounds (p + tlvLen pkt p)
      (len - (p + tlvLen pkt p)) vlans.1 vlans.2
    let loop := cdpLoop pkt (rounds + 1) p (len - p) vlan nvlan
    (loop.Within len ↔ tlv.Within len ∧
      ∀ vlans, tlv.value = some (some vlans) → (next vlans).Within len) ∧
    (tlv.value = some none → loop.value = some .pktShort) ∧
    ∀ vlans, tlv.value = some (some vlans) → loop.value = (next vlans).value := by
  intro tlv next loop
  obtain ⟨hp, hlen⟩ := h
  have hzero : ¬ len - p = 0 := by omega
  have hfour : ¬ len - p < 4 := by omega
  have hround : loop = Reading.bytes pkt p 2 >>= fun _ =>
      Reading.bytes pkt (p + 2) 2 >>= fun _ =>
        tlv >>= fun vlans =>
          vlans.elim (pure .pktShort) next := by
    simp only [loop, cdpLoop, if_neg hzero, if_neg hfour]
    refine Reading.bind_congr_value fun type htype => ?_
    refine Reading.bind_congr_value fun tlen htlen => ?_
    obtain rfl : pkt.read p 2 = type := Option.some.inj htype
    obtain rfl : pkt.read (p + 2) 2 = tlen := Option.some.inj htlen
    have hinside : ¬ ntohs (pkt.read (p + 2) 2) > len - p := Nat.not_lt.mpr hlen
    have htlen : ntohs (pkt.read (p + 2) 2) = tlvLen pkt p := rfl
    have hdata : (tlvLen pkt p + 2 ^ 16 - 4) % 2 ^ 16 = tlvData pkt p := rfl
    have htype : ntohs (pkt.read p 2) = tlvType pkt p := rfl
    rw [if_neg hinside, Nat.sub_sub, htlen, hdata, htype]
    refine Reading.bind_congr_value fun vlans _ => ?_
    cases vlans <;> rfl
  rw [hround]
  refine ⟨?_, fun hnone => ?_, fun vlans hsome => ?_⟩
  · simp only [Reading.within_bind, Reading.within_bytes, Reading.value_bytes,
      Option.some.injEq, forall_eq']
    constructor
    · rintro ⟨_, _, htlv, hnext⟩
      exact ⟨htlv, fun vlans hvlans => hnext (some vlans) hvlans⟩
    · rintro ⟨htlv, hnext⟩
      refine ⟨by omega, by omega, htlv, fun vlans hvlans => ?_⟩
      cases vlans with
      | none => exact Reading.within_pure len _
      | some vlans => exact hnext vlans hvlans
  · simp [hnone]
  · simp [hsome]

/-- A triple of length `0` keeps the walk where it is. -/
theorem cdpLoop_stays {p : ℕ} (h : TlvAt pkt len p) (hzero : tlvLen pkt p = 0)
    (rounds vlan nvlan : ℕ) : (cdpLoop pkt rounds p (len - p) vlan nvlan).value = none := by
  induction rounds generalizing vlan nvlan with
  | zero => rfl
  | succ rounds ih =>
      obtain ⟨r, hvalue, hnone⟩ :=
        cdpTlv_value pkt p (tlvType pkt p) (tlvData pkt p) vlan nvlan
      have hdata : tlvData pkt p % 3 = 0 := by simp [tlvData, hzero]
      cases r with
      | none => exact absurd hdata (hnone.mp rfl).2
      | some vlans =>
          rw [(cdpLoop_succ h rounds vlan nvlan).2.2 vlans hvalue, hzero, Nat.add_zero]
          exact ih vlans.1 vlans.2

/-- The walk from a triple, by what is read of the triple and the walk behind it. -/
theorem walksFrom_tlv {p : ℕ} (h : TlvAt pkt len p) (vlan nvlan : ℕ) :
    let tlv := cdpTlv pkt (p + 4) (tlvType pkt p) (tlvData pkt p) vlan nvlan
    WalksFrom pkt len p vlan nvlan ↔ tlv.Within len ∧
      ∀ vlans, tlv.value = some (some vlans) →
        WalksFrom pkt len (p + tlvLen pkt p) vlans.1 vlans.2 := by
  intro tlv
  have hround := fun rounds => cdpLoop_succ h rounds vlan nvlan
  constructor
  · rintro ⟨⟨result, hreturns⟩, hwithin⟩
    refine ⟨((hround 0).1.mp (hwithin 1)).1, fun vlans hvlans => ⟨⟨result, ?_⟩, ?_⟩⟩
    · exact (returns_of_succ rfl fun rounds => (hround rounds).2.2 vlans hvlans).mp hreturns
    · exact fun rounds => ((hround rounds).1.mp (hwithin (rounds + 1))).2 vlans hvlans
  · rintro ⟨htlv, hnext⟩
    refine ⟨?_, fun rounds => ?_⟩
    · obtain ⟨r, hvalue, _⟩ :=
        cdpTlv_value pkt p (tlvType pkt p) (tlvData pkt p) vlan nvlan
      cases r with
      | none => exact ⟨.pktShort, 1, (hround 0).2.1 hvalue⟩
      | some vlans =>
          obtain ⟨result, hreturns⟩ := (hnext vlans hvalue).1
          exact ⟨result,
            (returns_of_succ rfl fun rounds => (hround rounds).2.2 vlans hvalue).mpr hreturns⟩
    · cases rounds with
      | zero => exact Reading.within_running len
      | succ rounds =>
          exact (hround rounds).1.mpr
            ⟨htlv, fun vlans hvlans => (hnext vlans hvlans).2 rounds⟩

theorem WalksFrom.tlvInside {p vlan nvlan : ℕ} (h : WalksFrom pkt len p vlan nvlan)
    (hp : TlvAt pkt len p) : TlvInside pkt len p := by
  have hreads := ((walksFrom_tlv hp vlan nvlan).mp h).1
  obtain ⟨hnative, happliance⟩ := (cdpTlv_within hp.1 vlan nvlan).mp hreads
  refine ⟨fun hzero => ?_, hnative, happliance⟩
  obtain ⟨result, rounds, hvalue⟩ := h.1
  exact nomatch (cdpLoop_stays hp hzero rounds vlan nvlan).symm.trans hvalue

theorem WalksFrom.next {p q vlan nvlan : ℕ} (h : WalksFrom pkt len p vlan nvlan)
    (hnext : TlvNext pkt len p q) : ∃ vlan nvlan, WalksFrom pkt len q vlan nvlan := by
  obtain ⟨hp, happliance, rfl⟩ := hnext
  obtain ⟨r, hvalue, hnone⟩ :=
    cdpTlv_value pkt p (tlvType pkt p) (tlvData pkt p) vlan nvlan
  cases r with
  | none =>
      obtain ⟨htype, hleft⟩ := hnone.mp rfl
      exact absurd (happliance htype) hleft
  | some vlans => exact ⟨_, _, ((walksFrom_tlv hp vlan nvlan).mp h).2 vlans hvalue⟩

/-- The walk ends inside the packet exactly if every triple it gets to is inside. -/
theorem walksFrom_iff (p vlan nvlan : ℕ) :
    WalksFrom pkt len p vlan nvlan ↔
      ∀ q, ReflTransGen (TlvNext pkt len) p q → TlvAt pkt len q →
        TlvInside pkt len q := by
  constructor
  · intro h q hpq hq
    have hreach : ∃ vlan nvlan, WalksFrom pkt len q vlan nvlan := by
      clear hq
      induction hpq with
      | refl => exact ⟨vlan, nvlan, h⟩
      | tail _ hstep ih =>
          obtain ⟨_, _, hwalks⟩ := ih
          exact hwalks.next hstep
    obtain ⟨_, _, hwalks⟩ := hreach
    exact hwalks.tlvInside hq
  · intro h
    -- every triple moves the walk on, and the packet ends
    induction hleft : len - p using Nat.strong_induction_on generalizing p vlan nvlan with
    | h left ih =>
        by_cases hp : TlvAt pkt len p
        · have hinside := h p .refl hp
          have hmoves := hinside.moves
          have hfits := hp.1
          refine (walksFrom_tlv hp vlan nvlan).mpr ⟨?_, fun vlans hvalue => ?_⟩
          · exact (cdpTlv_within hp.1 vlan nvlan).mpr ⟨hinside.native, hinside.appliance⟩
          · have hnext : TlvNext pkt len p (p + tlvLen pkt p) := by
              refine ⟨hp, fun htype => ?_, rfl⟩
              obtain ⟨r, hr, hnone⟩ :=
                cdpTlv_value pkt p (tlvType pkt p) (tlvData pkt p) vlan nvlan
              obtain rfl : some vlans = r := Option.some.inj (hvalue.symm.trans hr)
              by_contra hmod
              cases hnone.mpr ⟨htype, hmod⟩
            exact ih (len - (p + tlvLen pkt p)) (by omega) _ _ _
              (fun q hq => h q (hq.head hnext)) rfl
        · exact walksFrom_of_not_tlvAt hp vlan nvlan

/-! ## The packet -/

/-- A packet that is not accepted is left before the walk. -/
theorem cdpWalks_of_not_accepted (h : ¬ CdpAccepted pkt odd len) :
    CdpWalks pkt odd len := by
  by_cases hsize : len < cdpSnapHdr.length + 4
  · exact ⟨⟨.pktShort, 0, by simp [cdpHandler, hsize]⟩, by simp [cdpHandler, hsize]⟩
  have hlen : 12 ≤ len := Nat.le_of_not_lt hsize
  rcases ne_or_eq (pkt.read 0 8) cdpSnapHdr with hsnap | hsnap
  · refine ⟨⟨.ignored, 0, by simp [cdpHandler, hsize, hsnap]⟩, fun rounds => ?_⟩
    simp [cdpHandler, hsize, hsnap]
    omega
  by_cases hversion : pkt 8 < 2
  · refine ⟨⟨.ignored, 0, by simp [cdpHandler, hsize, hsnap, hversion]⟩, fun rounds => ?_⟩
    simp [cdpHandler, hsize, hsnap, hversion]
    omega
  by_cases httl : pkt 9 = 0
  · refine ⟨⟨.ignored, 0, by simp [cdpHandler, hsize, hsnap, hversion, httl]⟩,
      fun rounds => ?_⟩
    simp [cdpHandler, hsize, hsnap, hversion, httl]
    omega
  have hcsum : cdpComputeCsum odd (pkt.read 8 ((len - 8) % 2 ^ 16)) ≠ 0 :=
    fun hcsum => h ⟨hlen, hsnap, hversion, httl, hcsum⟩
  have hcovered := Nat.mod_le (len - 8) (2 ^ 16)
  refine ⟨⟨.ignored, 0, by simp [-Nat.reducePow, cdpHandler, hsize, hsnap, hversion, httl, hcsum]⟩,
    fun rounds => ?_⟩
  simp [-Nat.reducePow, cdpHandler, hsize, hsnap, hversion, httl, hcsum]
  omega

/-- With an accepted packet the handler is its walk. -/
theorem cdpWalks_of_accepted (h : CdpAccepted pkt odd len) :
    CdpWalks pkt odd len ↔ WalksFrom pkt len 12 0xffff 0xffff := by
  obtain ⟨hsize, hsnap, hversion, httl, hcsum⟩ := h
  have hlen : 12 ≤ len := hsize
  have hcovered := Nat.mod_le (len - 8) (2 ^ 16)
  have hhandler : ∀ rounds,
      ((cdpHandler pkt odd len rounds).Within len ↔
        (cdpLoop pkt rounds 12 (len - 12) 0xffff 0xffff).Within len) ∧
      (cdpHandler pkt odd len rounds).value =
        (cdpLoop pkt rounds 12 (len - 12) 0xffff 0xffff).value := by
    intro rounds
    constructor
    · simp [-Nat.reducePow, cdpHandler, Nat.not_lt.mpr hsize, hsnap, hversion, httl, hcsum]
      exact ⟨fun h => h.2.2.2.2, fun h => ⟨by omega, by omega, by omega, by omega, h⟩⟩
    · simp [-Nat.reducePow, cdpHandler, Nat.not_lt.mpr hsize, hsnap, hversion, httl, hcsum]
  constructor
  · rintro ⟨⟨result, rounds, hvalue⟩, hwithin⟩
    exact ⟨⟨result, rounds, (hhandler rounds).2.symm.trans hvalue⟩,
      fun rounds => (hhandler rounds).1.mp (hwithin rounds)⟩
  · rintro ⟨⟨result, rounds, hvalue⟩, hwithin⟩
    exact ⟨⟨result, rounds, (hhandler rounds).2.trans hvalue⟩,
      fun rounds => (hhandler rounds).1.mpr (hwithin rounds)⟩

/-- `CDPHandler` ends inside the packet if and only if it refuses the packet before
the walk, or every triple the walk gets to has a length other than `0` and its data,
as far as it is read, in the packet. -/
theorem cdpWalks_iff (pkt : Memory UInt8) (odd : Bool) (len : ℕ) :
    CdpWalks pkt odd len ↔
      (CdpAccepted pkt odd len → ∀ p, ReflTransGen (TlvNext pkt len) 12 p →
        TlvAt pkt len p → TlvInside pkt len p) := by
  by_cases h : CdpAccepted pkt odd len
  · rw [cdpWalks_of_accepted h, walksFrom_iff]
    exact ⟨fun hinside _ => hinside, fun hinside => hinside h⟩
  · exact iff_of_true (cdpWalks_of_not_accepted h) fun haccepted => absurd haccepted h

/-- A packet whose only triple has the length `0`. -/
def zeroTlv : Memory UInt8 := fun i =>
  [0xAA, 0xAA, 0x03, 0x00, 0x00, 0x0C, 0x20, 0x00, 0x02, 0xB4, 0xFD, 0x4A, 0x00, 0x01,
    0x00, 0x00].getD i 0

/-- The walk stays at its triple. -/
theorem zeroTlv_not_cdpWalks : ¬ CdpWalks zeroTlv false 16 := by
  intro h
  have haccepted : CdpAccepted zeroTlv false 16 :=
    ⟨by decide, by decide, by decide, by decide, by decide⟩
  have hwalks := (cdpWalks_of_accepted haccepted).mp h
  have htlv : TlvAt zeroTlv 16 12 := ⟨by decide, by decide⟩
  exact (hwalks.tlvInside htlv).moves (by decide)

end TateFirmware.Net
