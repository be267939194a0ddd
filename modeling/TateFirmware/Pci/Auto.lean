import Mathlib.Algebra.Order.Ring.Nat
import Mathlib.Data.List.Pairwise
import Mathlib.Data.UInt
import Mathlib.Tactic.Ring
import TateFirmware.Support.Run

/-!
# Automatic configuration of PCI devices

`drivers/pci_auto.c` probes the base address registers of a device and hands out
address ranges for them.  A region is allocated from the bottom up: `bus_lower`
is rounded up to the size asked for and moved behind the new range, all in
arithmetic of 32 bits.  What that arithmetic means in natural numbers is told by
the front of a region, which is `bus_lower` except where that has wrapped to zero.
-/

namespace TateFirmware.Pci

open Support

/-! ## Regions -/

/-- `struct pci_region`; the region ends inside the address space. -/
structure Region where
  busStart : UInt32
  size : UInt32
  busLower : UInt32
  fits : busStart.toNat + size.toNat ≤ 2 ^ 32

/-- `pciauto_region_init`. -/
def Region.init (res : Region) : Region := { res with busLower := res.busStart }

/-- `bus_lower` rounded up to a size. -/
def roundUp (busLower size : UInt32) : UInt32 := ((busLower - 1) ||| (size - 1)) + 1

/-- `pciauto_region_align`. -/
def Region.align (res : Region) (size : UInt32) : Region :=
  { res with busLower := roundUp res.busLower size }

/-- `pciauto_region_allocate` on a region; `none` when there is no room. -/
def Region.allocate (res : Region) (size : UInt32) : Option (UInt32 × Region) :=
  let addr := roundUp res.busLower size
  if addr - res.busStart + size > res.size then none
  else some (addr, { res with busLower := addr + size })

/-! ## Devices -/

/-- A range written to a base address register. -/
structure BarRange where
  region : ℕ
  addr : UInt32
  size : UInt32
deriving DecidableEq

/-- The regions of the controller and the ranges assigned so far, the last one
first. -/
structure PciState where
  regions : ℕ → Region
  assigned : List BarRange

/-- The regions as `pciauto_config_init` leaves them. -/
def PciState.start (regions : ℕ → Region) : PciState :=
  ⟨fun i => (regions i).init, []⟩

/-- `pciauto_region_allocate`, with a null pointer as `none`. -/
def PciState.allocate (s : PciState) (res : Option ℕ) (size : UInt32) :
    Option (UInt32 × PciState) :=
  res.bind fun i =>
    ((s.regions i).allocate size).map fun (addr, region) =>
      (addr, ⟨Function.update s.regions i region, ⟨i, addr, size⟩ :: s.assigned⟩)

/-- A read or a write of a configuration register. -/
inductive ConfigAccess where
  | read (reg : ℕ)
  | write (reg : ℕ) (value : UInt32)
deriving DecidableEq

/-- The register. -/
def ConfigAccess.reg : ConfigAccess → ℕ
  | .read reg => reg
  | .write reg _ => reg

/-- `PCI_COMMAND`. -/
def pciCommand : ℕ := 0x04

/-- `PCI_CACHE_LINE_SIZE`. -/
def pciCacheLineSize : ℕ := 0x0c

/-- `PCI_LATENCY_TIMER`. -/
def pciLatencyTimer : ℕ := 0x0d

/-- `PCI_BASE_ADDRESS_0`. -/
def pciBaseAddress0 : ℕ := 0x10

/-- A call of `pciauto_setup_device`: its arguments, what the command register
holds, and what each register answers when it is probed. -/
structure SetupCall where
  barsNum : ℕ
  mem : Option ℕ
  prefetch : Option ℕ
  io : Option ℕ
  command : UInt32
  answer : ℕ → UInt32

/-- `PCI_BASE_ADDRESS_SPACE`: the register is one for I/O. -/
def isIo (response : UInt32) : Bool := response &&& 0x01 ≠ 0

/-- `PCI_BASE_ADDRESS_MEM_TYPE_64`. -/
def isMem64 (response : UInt32) : Bool :=
  ¬isIo response ∧ response &&& 0x06 = 0x04

/-- `bar_size`. -/
def barSize (response : UInt32) : UInt32 :=
  ~~~(response &&& ~~~(if isIo response then 0x03 else 0x0f)) + 1

/-- `bar_res`. -/
def SetupCall.barRes (c : SetupCall) (response : UInt32) : Option ℕ :=
  if isIo response then c.io
  else if c.prefetch.isSome ∧ response &&& 0x08 ≠ 0 then c.prefetch
  else c.mem

/-- What a pass of the loop leaves, and how far it moves `bar`. -/
structure BarPass where
  state : PciState
  cmdstat : UInt32
  accesses : List ConfigAccess
  width : ℕ

/-- One pass of the loop over the base address registers. -/
def barPass (c : SetupCall) (bar : ℕ) (s : PciState) (cmdstat : UInt32) : BarPass :=
  let response := c.answer bar
  let probe : List ConfigAccess := [.write bar 0xffffffff, .read bar]
  if response = 0 then ⟨s, cmdstat, probe, 4⟩
  else
    match s.allocate (c.barRes response) (barSize response) with
    | none => ⟨s, cmdstat, probe, 4⟩
    | some (value, s) =>
        let cmdstat := cmdstat ||| if isIo response then 0x01 else 0x02
        if isMem64 response then
          ⟨s, cmdstat, probe ++ [.write bar value, .write (bar + 4) 0], 8⟩
        else ⟨s, cmdstat, probe ++ [.write bar value], 4⟩

/-- What the loop leaves. -/
structure BarRun where
  state : PciState
  cmdstat : UInt32
  accesses : List ConfigAccess

/-- The loop over the base address registers up to and including `last`. -/
def barLoop (c : SetupCall) (last : ℕ) : ℕ → ℕ → PciState → UInt32 → BarRun
  | 0, _, s, cmdstat => ⟨s, cmdstat, []⟩
  | fuel + 1, bar, s, cmdstat =>
      if bar ≤ last then
        let pass := barPass c bar s cmdstat
        let run := barLoop c last fuel (bar + pass.width) pass.state pass.cmdstat
        { run with accesses := pass.accesses ++ run.accesses }
      else ⟨s, cmdstat, []⟩

/-- The last register the loop probes. -/
def SetupCall.last (c : SetupCall) : ℕ := pciBaseAddress0 + c.barsNum * 4

/-- `pciauto_setup_device`. -/
def setupDevice (s : PciState) (c : SetupCall) : PciState × List ConfigAccess :=
  -- the bits for I/O and memory off, the one for the bus master on
  let cmdstat := c.command &&& ~~~0x03 ||| 0x04
  let run := barLoop c c.last (c.barsNum + 1) pciBaseAddress0 s cmdstat
  (run.state,
    .read pciCommand :: run.accesses ++
      [.write pciCommand run.cmdstat, .write pciCacheLineSize 0x08,
        .write pciLatencyTimer 0x80])

/-- The calls of a scan. -/
inductive PciCall where
  | align (region : ℕ) (size : UInt32)
  | setup (call : SetupCall)

/-- One call. -/
def pciStep (s : PciState) : PciCall → PciState × List ConfigAccess
  | .align i size =>
      ({ s with regions := Function.update s.regions i ((s.regions i).align size) },
        [])
  | .setup call => setupDevice s call

/-! ## Rounding up in natural numbers -/

/-- What rounding up means for a number that has not wrapped. -/
def nextAligned (front : ℕ) (size : UInt32) : ℕ :=
  if front = 0 then 0 else ((front - 1) ||| (size - 1).toNat) + 1

theorem le_nextAligned (front : ℕ) (size : UInt32) :
    front ≤ nextAligned front size := by
  unfold nextAligned
  split
  · omega
  · have := Nat.left_le_or (n := front - 1) (m := (size - 1).toNat)
    omega

theorem nextAligned_le {front : ℕ} (hfront : front ≤ 2 ^ 32) (size : UInt32) :
    nextAligned front size ≤ 2 ^ 32 := by
  unfold nextAligned
  split
  · omega
  · exact Nat.or_lt_two_pow (by omega) (size - 1).toNat_lt

/-- A request of no bytes is rounded up to the end of the address space. -/
theorem nextAligned_zero {front : ℕ} (hfront : front ≤ 2 ^ 32) :
    nextAligned front 0 % 2 ^ 32 = 0 := by
  have hpred : ((0 : UInt32) - 1).toNat = 2 ^ 32 - 1 := by decide
  unfold nextAligned
  split
  · rfl
  · have hones : (front - 1) ||| (2 ^ 32 - 1) = 2 ^ 32 - 1 :=
      le_antisymm
        (Nat.le_sub_one_of_lt (Nat.or_lt_two_pow (by omega) (by decide)))
        Nat.right_le_or
    rw [hpred, hones, Nat.sub_add_cancel (Nat.two_pow_pos 32), Nat.mod_self]

/-- A number with its last bits set. -/
theorem or_two_pow_sub_one (n k : ℕ) :
    (n ||| (2 ^ k - 1)) + 1 = 2 ^ k * (n / 2 ^ k) + 2 ^ k := by
  have hpos : 0 < 2 ^ k := Nat.two_pow_pos k
  have hmod : n % 2 ^ k ||| (2 ^ k - 1) = 2 ^ k - 1 := by
    refine le_antisymm ?_ Nat.right_le_or
    exact Nat.le_sub_one_of_lt
      (Nat.or_lt_two_pow (Nat.mod_lt _ hpos) (Nat.sub_lt hpos Nat.one_pos))
  calc
    (n ||| (2 ^ k - 1)) + 1 =
        ((2 ^ k * (n / 2 ^ k) ||| n % 2 ^ k) ||| (2 ^ k - 1)) + 1 := by
      rw [← Nat.two_pow_add_eq_or_of_lt (Nat.mod_lt _ hpos), Nat.div_add_mod]
    _ = 2 ^ k * (n / 2 ^ k) + (2 ^ k - 1) + 1 := by
      rw [Nat.or_assoc, hmod,
        ← Nat.two_pow_add_eq_or_of_lt (Nat.sub_lt hpos Nat.one_pos)]
    _ = 2 ^ k * (n / 2 ^ k) + 2 ^ k := by omega

/-- Rounding up to a power of two gives a multiple of it. -/
theorem dvd_nextAligned {size : UInt32} {k : ℕ} (hsize : size.toNat = 2 ^ k)
    (front : ℕ) : 2 ^ k ∣ nextAligned front size := by
  have hpos : 0 < 2 ^ k := Nat.two_pow_pos k
  have hpred : (size - 1).toNat = 2 ^ k - 1 := by
    rw [UInt32.toNat_sub_of_le _ _ (UInt32.le_iff_toNat_le.mpr (by
      rw [hsize, UInt32.toNat_one]; omega)), hsize, UInt32.toNat_one]
  unfold nextAligned
  split
  · exact dvd_zero _
  · rw [hpred, or_two_pow_sub_one, ← Nat.mul_succ]
    exact dvd_mul_right ..

/-- Rounding up in 32 bits. -/
theorem toNat_roundUp {front : ℕ} {busLower : UInt32} (hfront : front ≤ 2 ^ 32)
    (hlower : busLower.toNat = front % 2 ^ 32) (size : UInt32) :
    (roundUp busLower size).toNat = nextAligned front size % 2 ^ 32 := by
  have hpred : (busLower - 1).toNat = (front + 2 ^ 32 - 1) % 2 ^ 32 := by
    rw [UInt32.toNat_sub, hlower, UInt32.toNat_one]
    omega
  have hsize := (size - 1).toNat_lt
  rw [roundUp, UInt32.toNat_add, UInt32.toNat_or, hpred, UInt32.toNat_one,
    nextAligned]
  split
  · rename_i hzero
    have hones : (2 ^ 32 - 1) ||| (size - 1).toNat = 2 ^ 32 - 1 :=
      le_antisymm (Nat.le_sub_one_of_lt (Nat.or_lt_two_pow (by omega) hsize))
        Nat.left_le_or
    rw [hzero, show (0 + 2 ^ 32 - 1) % 2 ^ 32 = 2 ^ 32 - 1 by omega, hones]
    omega
  · rw [show (front + 2 ^ 32 - 1) % 2 ^ 32 = front - 1 by omega]

/-! ## The front of a region -/

namespace Region

variable {res : Region} {size : UInt32}

/-- Where the free part of a region starts.  Below the start of the region
`bus_lower` can only be zero, and stands for the end of the address space. -/
def front (res : Region) : ℕ :=
  if res.busLower < res.busStart then 2 ^ 32 else res.busLower.toNat

/-- `bus_lower` lies behind the start of the region, or has wrapped to zero. -/
def Valid (res : Region) : Prop := res.busStart ≤ res.busLower ∨ res.busLower = 0

/-- The bytes a request takes, from the start of the region to its own end. -/
def need (res : Region) (size : UInt32) : ℕ :=
  nextAligned res.front size - res.busStart.toNat + size.toNat

/-- A request that needs more than the region has does not seem to fit when
what it needs is cut to 32 bits. -/
def Sound (res : Region) (size : UInt32) : Prop :=
  res.need size % 2 ^ 32 ≤ res.size.toNat → res.need size ≤ res.size.toNat

instance (res : Region) (size : UInt32) : Decidable (res.Sound size) :=
  inferInstanceAs (Decidable (_ → _))

/-- Rounding up does not wrap to the start of the region. -/
def AlignsSound (res : Region) (size : UInt32) : Prop :=
  0 < res.busStart ∨ nextAligned res.front size < 2 ^ 32

theorem front_le (res : Region) : res.front ≤ 2 ^ 32 := by
  have := res.busLower.toNat_lt
  unfold front
  split <;> omega

theorem busStart_le_front (res : Region) : res.busStart.toNat ≤ res.front := by
  have hstart := res.busStart.toNat_lt
  unfold front
  split
  · omega
  · rename_i hge
    exact UInt32.le_iff_toNat_le.mp (UInt32.not_lt.mp hge)

theorem Valid.toNat_busLower (h : res.Valid) :
    res.busLower.toNat = res.front % 2 ^ 32 := by
  have hlower := res.busLower.toNat_lt
  unfold front
  split
  · rename_i hlt
    rcases h with hle | hzero
    · exact absurd hlt (UInt32.not_lt.mpr hle)
    · rw [hzero]
      decide
  · omega

/-- A region whose `bus_lower` is a number cut to 32 bits has that number as its
front. -/
theorem front_eq {n : ℕ} (hlower : res.busLower.toNat = n % 2 ^ 32)
    (hstart : res.busStart.toNat ≤ n) (hle : n ≤ 2 ^ 32)
    (hwrap : 0 < res.busStart.toNat ∨ n < 2 ^ 32) :
    res.front = n ∧ res.Valid := by
  have hbound := res.busStart.toNat_lt
  rcases hle.lt_or_eq with hlt | heq
  · rw [Nat.mod_eq_of_lt hlt] at hlower
    have hge : res.busStart ≤ res.busLower := by
      rw [UInt32.le_iff_toNat_le, hlower]
      exact hstart
    exact ⟨by rw [front, if_neg (UInt32.not_lt.mpr hge), hlower], .inl hge⟩
  · rw [heq, Nat.mod_self] at hlower
    have hlt : res.busLower < res.busStart := by
      rw [UInt32.lt_iff_toNat_lt, hlower]
      omega
    exact ⟨by rw [front, if_pos hlt, heq], .inr (UInt32.toNat_inj.mp hlower)⟩

theorem front_init (res : Region) : res.init.front = res.busStart.toNat ∧
    res.init.Valid := by
  refine front_eq (Nat.mod_eq_of_lt res.busStart.toNat_lt).symm le_rfl
    res.busStart.toNat_lt.le (.inr res.busStart.toNat_lt)

/-- An alignment moves the front up. -/
theorem front_align (h : res.Valid) (hsound : res.AlignsSound size) :
    (res.align size).front = nextAligned res.front size ∧
      (res.align size).Valid := by
  refine front_eq (toNat_roundUp res.front_le h.toNat_busLower size)
    (res.busStart_le_front.trans (le_nextAligned ..)) (nextAligned_le res.front_le size) ?_
  rcases hsound with hstart | hlt
  · exact .inl hstart
  · exact .inr hlt

/-- A range that is handed out lies behind the front and inside the region. -/
theorem allocate_spec (h : res.Valid) (hsound : res.Sound size) {addr : UInt32}
    {next : Region} (halloc : res.allocate size = some (addr, next)) :
    addr.toNat = nextAligned res.front size % 2 ^ 32 ∧
      nextAligned res.front size + size.toNat ≤
        res.busStart.toNat + res.size.toNat ∧
      next.front = nextAligned res.front size + size.toNat ∧ next.Valid ∧
      next.busStart = res.busStart ∧ next.size = res.size := by
  have haddr := toNat_roundUp res.front_le h.toNat_busLower size
  have hge := res.busStart_le_front.trans (le_nextAligned res.front size)
  have hle := nextAligned_le res.front_le size
  have hfits := res.fits
  have hbound := res.size.toNat_lt
  obtain ⟨hroom, heq⟩ := Option.ite_none_left_eq_some.mp halloc
  obtain ⟨rfl, hnext⟩ := Prod.mk.inj (Option.some.inj heq)
  have hneed : (roundUp res.busLower size - res.busStart + size).toNat =
      res.need size % 2 ^ 32 := by
    have hstart := res.busStart.toNat_lt
    rw [UInt32.toNat_add, UInt32.toNat_sub, haddr, need]
    omega
  have hin : res.need size ≤ res.size.toNat := by
    apply hsound
    rw [← hneed]
    exact UInt32.le_iff_toNat_le.mp (UInt32.not_lt.mp hroom)
  rw [need] at hin
  have hend : nextAligned res.front size + size.toNat ≤
      res.busStart.toNat + res.size.toNat := by omega
  have hstart : next.busStart = res.busStart := by rw [← hnext]
  have hsize : next.size = res.size := by rw [← hnext]
  have hlower : next.busLower.toNat =
      (nextAligned res.front size + size.toNat) % 2 ^ 32 := by
    rw [← hnext, UInt32.toNat_add, haddr]
    omega
  obtain ⟨hfront, hvalid⟩ := front_eq hlower (by rw [hstart]; omega) (by omega)
    (by rw [hstart]; omega)
  exact ⟨haddr, hend, hfront, hvalid, hstart, hsize⟩

end Region

/-! ## The ranges of a device -/

/-- The range lies inside the region. -/
def BarRange.Within (b : BarRange) (res : Region) : Prop :=
  res.busStart.toNat ≤ b.addr.toNat ∧
    b.addr.toNat + b.size.toNat ≤ res.busStart.toNat + res.size.toNat

/-- The ranges do not overlap. -/
def BarRange.Apart (b c : BarRange) : Prop :=
  b.addr.toNat + b.size.toNat ≤ c.addr.toNat ∨
    c.addr.toNat + c.size.toNat ≤ b.addr.toNat

/-- The regions do not overlap. -/
def Region.Apart (r r' : Region) : Prop :=
  r.busStart.toNat + r.size.toNat ≤ r'.busStart.toNat ∨
    r'.busStart.toNat + r'.size.toNat ≤ r.busStart.toNat

/-- The ranges of a power of two are aligned and inside their regions, and no range
overlaps an earlier one of its region or of a region that does not overlap. -/
structure Placed (regions : ℕ → Region) (s : PciState) : Prop where
  aligned : ∀ b ∈ s.assigned, ∀ k, b.size.toNat = 2 ^ k →
    2 ^ k ∣ b.addr.toNat ∧ b.Within (regions b.region)
  apart : s.assigned.Pairwise fun b earlier =>
    b.region = earlier.region ∨
        (regions b.region).Apart (regions earlier.region) →
      b.Apart earlier

/-- What holds in every state as long as the requests are sound: the ranges lie
between the start of their region and its front. -/
structure Inv (regions : ℕ → Region) (s : PciState) : Prop where
  window : ∀ i, (s.regions i).busStart = (regions i).busStart ∧
    (s.regions i).size = (regions i).size
  valid : ∀ i, (s.regions i).Valid
  aligned : ∀ b ∈ s.assigned, ∀ k, b.size.toNat = 2 ^ k → 2 ^ k ∣ b.addr.toNat
  inside : ∀ b ∈ s.assigned, b.addr.toNat = 0 ∧ b.size.toNat = 0 ∨
    b.Within (regions b.region) ∧
      b.addr.toNat + b.size.toNat ≤ (s.regions b.region).front
  apart : s.assigned.Pairwise fun b earlier =>
    b.region = earlier.region → b.Apart earlier

namespace Inv

variable {regions : ℕ → Region} {s : PciState}

theorem start (regions : ℕ → Region) : Inv regions (PciState.start regions) where
  window _ := ⟨rfl, rfl⟩
  valid i := (regions i).front_init.2
  aligned := by simp [PciState.start]
  inside := by simp [PciState.start]
  apart := List.Pairwise.nil

theorem placed (h : Inv regions s) : Placed regions s where
  aligned b hb k hk := by
    refine ⟨h.aligned b hb k hk, ?_⟩
    rcases h.inside b hb with ⟨-, hsize⟩ | ⟨hin, -⟩
    · exact absurd (hk.symm.trans hsize) (Nat.two_pow_pos k).ne'
    · exact hin
  apart := by
    refine h.apart.imp_of_mem ?_
    intro b earlier hb hearlier hsame hwindows
    rcases hwindows with heq | hregions
    · exact hsame heq
    rcases h.inside b hb with hempty | ⟨hin, -⟩
    · exact .inl (by omega)
    rcases h.inside earlier hearlier with hempty | ⟨hin', -⟩
    · exact .inr (by omega)
    obtain ⟨h1, h2⟩ := hin
    obtain ⟨h3, h4⟩ := hin'
    rcases hregions with hle | hle
    · exact .inl (by omega)
    · exact .inr (by omega)

/-- A region whose front moves up keeps its ranges. -/
theorem advance (h : Inv regions s) {i : ℕ} {next : Region}
    (hstart : next.busStart = (s.regions i).busStart)
    (hsize : next.size = (s.regions i).size) (hvalid : next.Valid)
    (hfront : (s.regions i).front ≤ next.front) :
    Inv regions { s with regions := Function.update s.regions i next } where
  window j := by
    rcases eq_or_ne j i with rfl | hne
    · simpa only [Function.update_self, hstart, hsize] using h.window j
    · simpa only [Function.update_of_ne hne] using h.window j
  valid j := by
    rcases eq_or_ne j i with rfl | hne
    · simpa only [Function.update_self] using hvalid
    · simpa only [Function.update_of_ne hne] using h.valid j
  aligned := h.aligned
  inside b hb := by
    refine (h.inside b hb).imp_right fun ⟨hin, hend⟩ => ⟨hin, hend.trans ?_⟩
    rcases eq_or_ne b.region i with hi | hne
    · simpa only [hi, Function.update_self] using hfront
    · simp only [Function.update_of_ne hne, le_refl]
  apart := h.apart

/-- A sound request keeps the invariant. -/
theorem allocate (h : Inv regions s) {res : Option ℕ} {size addr : UInt32}
    {next : PciState}
    (hsound : ∀ i ∈ res, (s.regions i).Sound size)
    (halloc : s.allocate res size = some (addr, next)) : Inv regions next := by
  obtain ⟨i, rfl, hsome⟩ := Option.bind_eq_some_iff.mp halloc
  obtain ⟨⟨value, region⟩, hregion, heq⟩ := Option.map_eq_some_iff.mp hsome
  obtain ⟨rfl, rfl⟩ := Prod.mk.inj heq
  obtain ⟨haddr, hend, hfront, hvalid, hstart, hsize⟩ :=
    (s.regions i).allocate_spec (h.valid i) (hsound i rfl) hregion
  have hbehind := le_nextAligned (s.regions i).front size
  have hle := nextAligned_le (s.regions i).front_le size
  have hge := (s.regions i).busStart_le_front.trans hbehind
  have hnext := h.advance hstart hsize hvalid (by omega)
  -- the new range is empty and at zero, or starts where rounding up ends
  have hplace : value.toNat = 0 ∧ size.toNat = 0 ∨
      value.toNat = nextAligned (s.regions i).front size := by
    by_cases hzero : size.toNat = 0
    · refine .inl ⟨?_, hzero⟩
      rw [haddr, show size = 0 from UInt32.toNat_inj.mp hzero]
      exact nextAligned_zero (s.regions i).front_le
    · have hfits := (s.regions i).fits
      exact .inr (by omega)
  refine ⟨hnext.window, hnext.valid, ?_, ?_, ?_⟩
  · intro b hb k hk
    rcases List.mem_cons.mp hb with rfl | hb
    · dsimp only at hk ⊢
      rw [haddr]
      have hk32 : k ≤ 32 := by
        by_contra hlt
        have := Nat.pow_le_pow_right (n := 2) (by decide) (not_le.mp hlt).le
        have := size.toNat_lt
        omega
      exact (Nat.dvd_mod_iff (Nat.pow_dvd_pow 2 hk32)).mpr (dvd_nextAligned hk _)
    · exact h.aligned b hb k hk
  · intro b hb
    rcases List.mem_cons.mp hb with rfl | hb
    · refine hplace.imp_right fun hvalue => ⟨?_, ?_⟩
      · obtain ⟨h1, h2⟩ := h.window i
        refine ⟨?_, ?_⟩
        · dsimp only
          rw [← h1, hvalue]
          exact hge
        · dsimp only
          rw [← h1, ← h2, hvalue]
          exact hend
      · dsimp only
        rw [Function.update_self, hfront, hvalue]
    · exact hnext.inside b hb
  · refine List.Pairwise.cons ?_ h.apart
    intro earlier hearlier hsame
    rcases hplace with hempty | hvalue
    · exact .inl (by dsimp only; omega)
    rcases h.inside earlier hearlier with hempty | ⟨-, hend'⟩
    · exact .inr (by dsimp only; omega)
    · refine .inr ?_
      dsimp only at hsame ⊢
      rw [← hsame] at hend'
      omega

end Inv

/-! ## Sound runs -/

/-- The request a pass makes is sound in its region. -/
def PassSound (c : SetupCall) (bar : ℕ) (s : PciState) : Prop :=
  c.answer bar ≠ 0 →
    ∀ i ∈ c.barRes (c.answer bar), (s.regions i).Sound (barSize (c.answer bar))

/-- Every request of the loop is sound when it is made. -/
def LoopSound (c : SetupCall) (last : ℕ) : ℕ → ℕ → PciState → UInt32 → Prop
  | 0, _, _, _ => True
  | fuel + 1, bar, s, cmdstat =>
      bar ≤ last →
        PassSound c bar s ∧
          LoopSound c last fuel (bar + (barPass c bar s cmdstat).width)
            (barPass c bar s cmdstat).state (barPass c bar s cmdstat).cmdstat

instance (c : SetupCall) (bar : ℕ) (s : PciState) : Decidable (PassSound c bar s) :=
  inferInstanceAs (Decidable (_ → ∀ i ∈ _, _))

instance decidableLoopSound (c : SetupCall) (last : ℕ) : ∀ (fuel bar : ℕ)
    (s : PciState) (cmdstat : UInt32),
    Decidable (LoopSound c last fuel bar s cmdstat)
  | 0, _, _, _ => inferInstanceAs (Decidable True)
  | fuel + 1, bar, s, cmdstat =>
      have := decidableLoopSound c last fuel
        (bar + (barPass c bar s cmdstat).width) (barPass c bar s cmdstat).state
        (barPass c bar s cmdstat).cmdstat
      inferInstanceAs (Decidable (bar ≤ last → PassSound c bar s ∧ _))

/-- Every request and every alignment of a call is sound when it is made. -/
def CallSound (s : PciState) : PciCall → Prop
  | .align i size => (s.regions i).AlignsSound size
  | .setup c =>
      LoopSound c c.last (c.barsNum + 1) pciBaseAddress0 s
        (c.command &&& ~~~0x03 ||| 0x04)

section Loop

variable {c : SetupCall} {last : ℕ}

/-- A pass leaves the state alone, or has a request granted. -/
theorem barPass_state (c : SetupCall) (bar : ℕ) (s : PciState) (cmdstat : UInt32) :
    (barPass c bar s cmdstat).state = s ∨
      c.answer bar ≠ 0 ∧ ∃ value,
        s.allocate (c.barRes (c.answer bar)) (barSize (c.answer bar)) =
          some (value, (barPass c bar s cmdstat).state) := by
  unfold barPass
  by_cases hzero : c.answer bar = 0
  · exact .inl (by simp only [if_pos hzero])
  simp only [if_neg hzero]
  cases halloc : s.allocate (c.barRes (c.answer bar)) (barSize (c.answer bar)) with
  | none => exact .inl rfl
  | some granted =>
      refine .inr ⟨hzero, granted.1, ?_⟩
      dsimp only
      split <;> rfl

/-- A pass writes its register, and moves to the next one or, where it has written
that one too, to the one behind it. -/
theorem barPass_accesses (c : SetupCall) (bar : ℕ) (s : PciState)
    (cmdstat : UInt32) :
    .write bar 0xffffffff ∈ (barPass c bar s cmdstat).accesses ∧
      ((barPass c bar s cmdstat).width = 4 ∧
          (∀ a ∈ (barPass c bar s cmdstat).accesses, a.reg = bar) ∨
        (barPass c bar s cmdstat).width = 8 ∧
          .write (bar + 4) 0 ∈ (barPass c bar s cmdstat).accesses ∧
          ∀ a ∈ (barPass c bar s cmdstat).accesses,
            a.reg = bar ∨ a.reg = bar + 4) := by
  unfold barPass
  by_cases hzero : c.answer bar = 0
  · simp [if_pos hzero, ConfigAccess.reg]
  simp only [if_neg hzero]
  cases s.allocate (c.barRes (c.answer bar)) (barSize (c.answer bar)) with
  | none => simp [ConfigAccess.reg]
  | some granted =>
      dsimp only
      split <;> simp [ConfigAccess.reg]

theorem Inv.barLoop {regions : ℕ → Region} {fuel bar : ℕ} {s : PciState}
    {cmdstat : UInt32} (h : Inv regions s)
    (hsound : LoopSound c last fuel bar s cmdstat) :
    Inv regions (barLoop c last fuel bar s cmdstat).state := by
  induction fuel generalizing bar s cmdstat with
  | zero => exact h
  | succ fuel ih =>
      rw [Pci.barLoop]
      split
      · rename_i hle
        obtain ⟨hpass, hrest⟩ := hsound hle
        refine ih ?_ hrest
        rcases barPass_state c bar s cmdstat with hsame | ⟨hzero, value, halloc⟩
        · rwa [hsame]
        · exact h.allocate (hpass hzero) halloc
      · exact h

/-- The loop writes the last register it runs to. -/
theorem exists_write_last {fuel bar : ℕ} {s : PciState} {cmdstat : UInt32}
    (hend : last < bar + 4 * fuel) (hle : bar ≤ last) (hreg : 4 ∣ last - bar) :
    ∃ a ∈ (barLoop c last fuel bar s cmdstat).accesses, a.reg = last := by
  induction fuel generalizing bar s cmdstat with
  | zero => omega
  | succ fuel ih =>
      rw [barLoop, if_pos hle]
      obtain ⟨hprobe, hwidth⟩ := barPass_accesses c bar s cmdstat
      rcases hle.eq_or_lt with rfl | hlt
      · exact ⟨_, List.mem_append_left _ hprobe, rfl⟩
      obtain ⟨k, hk⟩ := hreg
      by_cases hnext : bar + (barPass c bar s cmdstat).width ≤ last
      · have hdvd : 4 ∣ last - (bar + (barPass c bar s cmdstat).width) := by
          rcases hwidth with ⟨hw, -⟩ | ⟨hw, -⟩
          · exact ⟨k - 1, by omega⟩
          · exact ⟨k - 2, by omega⟩
        obtain ⟨a, ha, hlast⟩ := ih (by omega) hnext hdvd
        exact ⟨a, List.mem_append_right _ ha, hlast⟩
      · rcases hwidth with ⟨hw, -⟩ | ⟨hw, hupper, -⟩
        · omega
        · exact ⟨_, List.mem_append_left _ hupper, by
            rw [ConfigAccess.reg]; omega⟩

end Loop

theorem Inv.step {regions : ℕ → Region} {s : PciState} (call : PciCall)
    (hsound : CallSound s call) (h : Inv regions s) :
    Inv regions (pciStep s call).1 := by
  cases call with
  | align i size =>
      obtain ⟨hfront, hvalid⟩ := Region.front_align (h.valid i) hsound
      exact h.advance rfl rfl hvalid (hfront ▸ le_nextAligned ..)
  | setup c => exact h.barLoop hsound

/-! ## Registers -/

/-- The accesses are to the first `bars_num` base address registers, the command
register, the cache line size and the latency timer. -/
def OnlyFirst (barsNum : ℕ) (accesses : List ConfigAccess) : Prop :=
  ∀ a ∈ accesses, a.reg ∈ [pciCommand, pciCacheLineSize, pciLatencyTimer] ∨
    ∃ k < barsNum, a.reg = pciBaseAddress0 + 4 * k

/-- `pciauto_setup_device` always writes the register behind the first `bars_num`. -/
theorem not_onlyFirst (s : PciState) (c : SetupCall) :
    ¬OnlyFirst c.barsNum (setupDevice s c).2 := by
  intro honly
  have hwrite : ∃ a ∈ (barLoop c c.last (c.barsNum + 1) pciBaseAddress0 s
      (c.command &&& ~~~0x03 ||| 0x04)).accesses, a.reg = c.last := by
    refine exists_write_last ?_ ?_ ⟨c.barsNum, ?_⟩ <;>
      simp only [SetupCall.last, pciBaseAddress0] <;> omega
  obtain ⟨a, ha, hreg⟩ := hwrite
  rw [SetupCall.last] at hreg
  rcases honly a (List.mem_cons_of_mem _ (List.mem_append_left _ ha)) with
    hother | ⟨k, hk, hfirst⟩
  · simp only [pciCommand, pciCacheLineSize, pciLatencyTimer, List.mem_cons,
      List.not_mem_nil, or_false] at hother
    simp only [pciBaseAddress0] at hreg
    omega
  · omega

/-! ## Every run -/

/-- As long as every request and every alignment is sound when it is made, the
ranges are aligned, inside their regions and apart.  No call of
`pciauto_setup_device` keeps to the first `bars_num` registers. -/
theorem pciRun_placed (regions : ℕ → Region) (calls : List PciCall)
    (hsound : StepsMeet pciStep CallSound (PciState.start regions) calls) :
    Placed regions (run pciStep (PciState.start regions) calls).1 ∧
      ∀ s c, ¬OnlyFirst c.barsNum (setupDevice s c).2 :=
  ⟨(run_invariant_of_stepsMeet (fun _ call hcall h => h.step call hcall)
    (Inv.start regions) hsound).placed, not_onlyFirst⟩

/-! ## A port region at zero -/

/-- Ports from zero on. -/
def ports : Region := ⟨0, 0x10000, 0, by decide⟩

/-- A device with two registers of 256 ports, and between them one that answers
with the bit for I/O alone. -/
def oddDevice : SetupCall where
  barsNum := 6
  mem := none
  prefetch := none
  io := some 0
  command := 0
  answer bar :=
    if bar = 0x10 ∨ bar = 0x18 then 0xffffff01 else if bar = 0x14 then 1 else 0

/-- The device without the odd register. -/
def evenDevice : SetupCall :=
  { oddDevice with answer := fun bar => if bar = 0x14 then 0 else oddDevice.answer bar }

theorem pciRun_placed_evenDevice :
    Placed (fun _ => ports) (run pciStep (PciState.start fun _ => ports)
        [.align 0 0x1000, .setup evenDevice]).1 ∧
      ∀ s c, ¬OnlyFirst c.barsNum (setupDevice s c).2 :=
  pciRun_placed (fun _ => ports) [.align 0 0x1000, .setup evenDevice]
    ⟨.inr (by decide), by
      show LoopSound ..
      decide, trivial⟩

/-- The register that asks for nothing moves `bus_lower` back to zero, and the two
others get the same ports. -/
theorem oddDevice_not_placed :
    ¬Placed (fun _ => ports) (run pciStep (PciState.start fun _ => ports)
      [.setup oddDevice]).1 := by
  have hassigned : (run pciStep (PciState.start fun _ => ports)
      [.setup oddDevice]).1.assigned =
        [⟨0, 0, 0x100⟩, ⟨0, 0, 0⟩, ⟨0, 0, 0x100⟩] := by
    decide
  intro hplaced
  have hapart := hplaced.apart
  rw [hassigned] at hapart
  have hsame := List.rel_of_pairwise_cons hapart
    (List.mem_cons_of_mem _ (List.mem_singleton_self _)) (.inl rfl)
  rcases hsame with h | h <;> exact absurd h (by decide)

end TateFirmware.Pci
