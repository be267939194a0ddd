import Mathlib.Algebra.Order.Ring.Nat
import Mathlib.Data.List.Pairwise
import Mathlib.Data.UInt
import Mathlib.Order.Lattice

/-!
# Flash banks

`flash_info` describes the NOR flash banks of a board: where a bank starts, how long it
is, where its sectors start and which of them are protected.  Addresses have 32 bits, so
that the address behind a bank at the top of the address space is `0`; next to them stand
the natural numbers, among which it is `2 ^ 32`.
-/

namespace TateFirmware.Flash

/-- `flash_info_t`. -/
structure FlashInfo where
  size : UInt32
  sectorCount : UInt16
  flashId : UInt32
  start : ℕ → UInt32
  protect : ℕ → UInt8

/-- `FLASH_UNKNOWN`. -/
def flashUnknown : UInt32 := 0xffff

namespace FlashInfo

variable (info : FlashInfo)

/-! ## What the source computes -/

def known : Bool := info.flashId ≠ flashUnknown

/-- `s_end`, a `short`. -/
def sEnd : ℤ := Int.bmod (info.sectorCount.toNat - 1) (2 ^ 16)

/-- The address behind a bank. -/
def bEnd : UInt32 := info.start 0 + info.size

/-- The address behind a sector. -/
def eAddr (i : ℕ) : UInt32 :=
  if (i : ℤ) = info.sEnd then info.bEnd else info.start (i + 1)

/-- The check of `addr2info`. -/
def contains (addr : UInt32) : Bool :=
  info.known && info.start 0 ≤ addr && addr ≤ info.bEnd - 1

/-! ## Addresses as numbers -/

/-- The first address of a bank. -/
def first : ℕ := (info.start 0).toNat

/-- The number behind the last address of a bank. -/
def next : ℕ := info.first + info.size.toNat

/-- The number behind the last address of a sector. -/
def sectorNext (i : ℕ) : ℕ :=
  if i + 1 = info.sectorCount.toNat then info.next else (info.start (i + 1)).toNat

def Covers (x : ℕ) : Prop := info.first ≤ x ∧ x < info.next

def SectorCovers (i x : ℕ) : Prop := (info.start i).toNat ≤ x ∧ x < info.sectorNext i

/-- The sectors of a bank follow on each other, up to the end of the bank, which is not
behind the top of the address space; their numbers fit into a `short`. -/
structure Layout : Prop where
  count_pos : 0 < info.sectorCount.toNat
  count_le : info.sectorCount.toNat ≤ 2 ^ 15
  top : info.next ≤ 2 ^ 32
  ascending : ∀ i < info.sectorCount.toNat, (info.start i).toNat < info.sectorNext i

variable {info}

theorem sEnd_iff (h : info.Layout) {i : ℕ} :
    (i : ℤ) = info.sEnd ↔ i + 1 = info.sectorCount.toNat := by
  have hpos := h.count_pos
  have hle := h.count_le
  have hbmod : info.sEnd = info.sectorCount.toNat - 1 :=
    Int.bmod_eq_of_le (by omega) (by omega)
  rw [hbmod]
  omega

theorem sectorNext_last (info : FlashInfo) {i : ℕ} (h : i + 1 = info.sectorCount.toNat) :
    info.sectorNext i = info.next := if_pos h

theorem sectorNext_of_lt (info : FlashInfo) {i : ℕ} (h : i + 1 < info.sectorCount.toNat) :
    info.sectorNext i = (info.start (i + 1)).toNat := if_neg (by omega)

/-! ## Sectors -/

theorem sectorNext_le_start (h : info.Layout) {i j : ℕ} (hij : i < j)
    (hj : j < info.sectorCount.toNat) : info.sectorNext i ≤ (info.start j).toNat := by
  induction j with
  | zero => omega
  | succ j ih =>
      have hnext := info.sectorNext_of_lt hj
      rcases Nat.lt_succ_iff_lt_or_eq.mp hij with hlt | rfl
      · have hsector := h.ascending j (by omega)
        have := ih hlt (by omega)
        omega
      · exact hnext.le

theorem start_le_start (h : info.Layout) {i j : ℕ} (hij : i ≤ j)
    (hj : j < info.sectorCount.toNat) : (info.start i).toNat ≤ (info.start j).toNat := by
  rcases Nat.lt_or_eq_of_le hij with hlt | rfl
  · exact (h.ascending i (by omega)).le.trans (sectorNext_le_start h hlt hj)
  · exact le_rfl

theorem sectorNext_le_next (h : info.Layout) {i : ℕ} (hi : i < info.sectorCount.toNat) :
    info.sectorNext i ≤ info.next := by
  rcases Nat.lt_or_eq_of_le (Nat.succ_le_of_lt hi) with hlt | heq
  · have hlast : info.sectorCount.toNat - 1 + 1 = info.sectorCount.toNat := by omega
    have hsector := h.ascending (info.sectorCount.toNat - 1) (by omega)
    rw [info.sectorNext_last hlast] at hsector
    exact (sectorNext_le_start h (by omega) (by omega)).trans hsector.le
  · exact (info.sectorNext_last heq).le

theorem first_le_start (h : info.Layout) {i : ℕ} (hi : i < info.sectorCount.toNat) :
    info.first ≤ (info.start i).toNat :=
  start_le_start h (Nat.zero_le i) hi

theorem first_lt_next (h : info.Layout) : info.first < info.next :=
  (h.ascending 0 h.count_pos).trans_le (sectorNext_le_next h h.count_pos)

theorem SectorCovers.covers (h : info.Layout) {i x : ℕ}
    (hi : i < info.sectorCount.toNat) (hx : info.SectorCovers i x) : info.Covers x :=
  ⟨(first_le_start h hi).trans hx.1, hx.2.trans_le (sectorNext_le_next h hi)⟩

/-- Each address of a bank is in a sector. -/
theorem exists_sectorCovers (h : info.Layout) {x : ℕ} (hx : info.Covers x) :
    ∃ i < info.sectorCount.toNat, info.SectorCovers i x := by
  suffices hsuff : ∀ n < info.sectorCount.toNat, x < info.sectorNext n →
      ∃ i < info.sectorCount.toNat, info.SectorCovers i x by
    have hlast : info.sectorCount.toNat - 1 + 1 = info.sectorCount.toNat := by
      have := h.count_pos
      omega
    exact hsuff (info.sectorCount.toNat - 1) (by omega)
      (by rw [info.sectorNext_last hlast]; exact hx.2)
  intro n
  induction n with
  | zero => exact fun hn hlt => ⟨0, hn, hx.1, hlt⟩
  | succ n ih =>
      intro hn hlt
      by_cases hstart : (info.start (n + 1)).toNat ≤ x
      · exact ⟨n + 1, hn, hstart, hlt⟩
      · exact ih (by omega) (by rw [info.sectorNext_of_lt hn]; omega)

theorem start_le_iff (h : info.Layout) {i j : ℕ} (hi : i < info.sectorCount.toNat)
    (hj : j < info.sectorCount.toNat) :
    (info.start i).toNat ≤ (info.start j).toNat ↔ i ≤ j := by
  refine ⟨fun hle => ?_, fun hij => start_le_start h hij hj⟩
  by_contra hlt
  have := h.ascending j hj
  have := sectorNext_le_start h (not_le.mp hlt) hi
  omega

theorem sectorNext_le_iff (h : info.Layout) {i j : ℕ} (hi : i < info.sectorCount.toNat)
    (hj : j < info.sectorCount.toNat) :
    info.sectorNext i ≤ info.sectorNext j ↔ i ≤ j := by
  constructor
  · intro hle
    by_contra hlt
    have := h.ascending i hi
    have := sectorNext_le_start h (not_le.mp hlt) hi
    omega
  · intro hij
    rcases Nat.lt_or_eq_of_le hij with hlt | rfl
    · exact (sectorNext_le_start h hlt hj).trans (h.ascending j hj).le
    · exact le_rfl

theorem start_injective (h : info.Layout) {i j : ℕ} (hi : i < info.sectorCount.toNat)
    (hj : j < info.sectorCount.toNat) (heq : (info.start i).toNat = (info.start j).toNat) :
    i = j :=
  le_antisymm ((start_le_iff h hi hj).mp heq.le) ((start_le_iff h hj hi).mp heq.ge)

theorem sectorNext_injective (h : info.Layout) {i j : ℕ}
    (hi : i < info.sectorCount.toNat) (hj : j < info.sectorCount.toNat)
    (heq : info.sectorNext i = info.sectorNext j) : i = j :=
  le_antisymm ((sectorNext_le_iff h hi hj).mp heq.le)
    ((sectorNext_le_iff h hj hi).mp heq.ge)

/-! ## Addresses of 32 bits -/

theorem bEnd_toNat (info : FlashInfo) : info.bEnd.toNat = info.next % 2 ^ 32 := UInt32.toNat_add _ _

theorem eAddr_toNat (h : info.Layout) (i : ℕ) :
    (info.eAddr i).toNat = info.sectorNext i % 2 ^ 32 := by
  unfold eAddr sectorNext
  by_cases hlast : i + 1 = info.sectorCount.toNat
  · rw [if_pos ((sEnd_iff h).mpr hlast), if_pos hlast, bEnd_toNat]
  · rw [if_neg (mt (sEnd_iff h).mp hlast), if_neg hlast,
      Nat.mod_eq_of_lt (UInt32.toNat_lt _)]

theorem bEnd_sub_one_toNat (h : info.Layout) : (info.bEnd - 1).toNat = info.next - 1 := by
  have hpos := first_lt_next h
  have htop := h.top
  rw [UInt32.toNat_sub, bEnd_toNat, UInt32.toNat_one]
  omega

theorem contains_iff (h : info.known = true → info.Layout) {addr : UInt32} :
    info.contains addr = true ↔ info.known = true ∧ info.Covers addr.toNat := by
  unfold contains Covers
  rw [Bool.and_eq_true, Bool.and_eq_true, decide_eq_true_iff, decide_eq_true_iff, and_assoc]
  refine and_congr_right fun hknown => ?_
  have hpos := first_lt_next (h hknown)
  rw [UInt32.le_iff_toNat_le, UInt32.le_iff_toNat_le, bEnd_sub_one_toNat (h hknown)]
  unfold first at *
  omega

end FlashInfo

/-! ## Tables of banks -/

/-- Known banks have no address in common. -/
def Apart (info other : FlashInfo) : Prop :=
  info.known = true → other.known = true → ∀ x, info.Covers x → ¬ other.Covers x

instance : Std.Symm Apart :=
  ⟨fun _ _ h hother hinfo x hx hx' => h hinfo hother x hx' hx⟩

/-- The known banks of a list are laid out, and apart from each other. -/
structure LaidOut (flashInfo : List FlashInfo) : Prop where
  layout : ∀ info ∈ flashInfo, info.known = true → info.Layout
  apart : flashInfo.Pairwise Apart

/-- `flash_info`. -/
structure BankTable where
  flashInfo : List FlashInfo
  laidOut : LaidOut flashInfo

/-- `addr2info`. -/
def addr2info (flashInfo : List FlashInfo) (addr : UInt32) : Option ℕ :=
  flashInfo.findIdx? (·.contains addr)

/-- The known bank that an address is in. -/
theorem LaidOut.unique {flashInfo : List FlashInfo} (h : LaidOut flashInfo)
    {info other : FlashInfo} {x : ℕ} (hinfo : info ∈ flashInfo) (hother : other ∈ flashInfo)
    (hknown : info.known = true) (hknown' : other.known = true) (hx : info.Covers x)
    (hx' : other.Covers x) : info = other := by
  by_contra hne
  exact h.apart.forall hinfo hother hne hknown hknown' x hx hx'

/-! ## Two banks in reverse order -/

/-- A bank of one sector of 4 KiB. -/
def oneSector (start : UInt32) : FlashInfo := ⟨0x1000, 1, 1, fun _ => start, fun _ => 0⟩

theorem oneSector_layout {start : UInt32} (h : start.toNat + 0x1000 ≤ 2 ^ 32) :
    (oneSector start).Layout where
  count_pos := Nat.one_pos
  count_le := Nat.one_le_two_pow
  top := h
  ascending := by
    intro i hi
    obtain rfl : i = 0 := Nat.lt_one_iff.mp hi
    rw [(oneSector start).sectorNext_last rfl]
    exact Nat.lt_add_of_pos_right (show 0 < 0x1000 by decide)

/-- The first bank is mapped behind the second one. -/
def reversedBanks : BankTable where
  flashInfo := [oneSector 0x1000, oneSector 0]
  laidOut.layout := by
    intro info hmem _
    rcases List.mem_pair.mp hmem with rfl | rfl
    · exact oneSector_layout (by decide)
    · exact oneSector_layout (by decide)
  laidOut.apart := by
    refine List.pairwise_pair.mpr fun _ _ x hx hx' => ?_
    exact absurd (hx.1.trans_lt hx'.2) (by decide)

end TateFirmware.Flash
