import Mathlib.Data.List.Basic
import TateFirmware.Flash.Banks

/-!
# Writing to flash

`flash_write` looks up the banks of the first and of the last address and goes through
the banks between them in the order of the table: first for protected sectors, then to
pass each bank its part to `write_buff`.  That fits where these banks stand one behind the
other in the address space too, and where no address behind a protected sector is `0`.
-/

namespace TateFirmware.Flash

/-! ## `flash_write` -/

def errOk : ℤ := 0
def errProtected : ℤ := 4
def errInval : ℤ := 8

/-- A call of `write_buff`; `src` is counted from the source of the write. -/
structure WriteCall where
  info : FlashInfo
  src : ℕ
  addr : UInt32
  len : UInt32

/-- A protected sector that the check of `flash_write` finds in a bank. -/
def FlashInfo.protectedHit (addr endAddr : UInt32) (info : FlashInfo) : Bool :=
  (List.range info.sectorCount.toNat).any fun i =>
    info.start i ≤ endAddr && addr < info.eAddr i && info.protect i != 0

/-- How much of a write is passed to a bank. -/
def FlashInfo.writeLen (info : FlashInfo) (addr cnt : UInt32) : UInt32 :=
  if cnt < info.bEnd - addr then cnt else info.bEnd - addr

/-- The second loop, over the banks that are left; `write_buff` returns what it returns
after the calls so far. -/
def writeBanks (writeBuff : List WriteCall → ℤ) :
    List FlashInfo → List WriteCall → ℕ → UInt32 → UInt32 → ℤ × List WriteCall
  | [], calls, _, _, _ => (errOk, calls)
  | info :: rest, calls, src, addr, cnt =>
      if cnt = 0 then (errOk, calls)
      else
        let len := info.writeLen addr cnt
        let calls := calls ++ [⟨info, src, addr, len⟩]
        let i := writeBuff calls
        if i ≠ 0 then (i, calls)
        else writeBanks writeBuff rest calls (src + len.toNat) (addr + len) (cnt - len)

/-- The banks from one index to another. -/
def banksBetween (flashInfo : List FlashInfo) (infoFirst infoLast : ℕ) :
    List FlashInfo :=
  (flashInfo.drop infoFirst).take (infoLast + 1 - infoFirst)

/-- `flash_write`: what it returns, and the calls of `write_buff` that it made. -/
def flashWrite (flashInfo : List FlashInfo) (writeBuff : List WriteCall → ℤ)
    (addr cnt : UInt32) : ℤ × List WriteCall :=
  let endAddr := addr + cnt - 1
  if cnt = 0 then (errOk, [])
  else
    match addr2info flashInfo addr, addr2info flashInfo endAddr with
    | some infoFirst, some infoLast =>
        let banks := banksBetween flashInfo infoFirst infoLast
        if banks.any (FlashInfo.protectedHit addr endAddr) then (errProtected, [])
        else writeBanks writeBuff banks [] 0 addr cnt
    | _, _ => (errInval, [])

/-! ## What a write is to do -/

/-- Bytes one behind the other: where they come from and where they go. -/
def byteRun (src addr n : ℕ) : List (ℕ × ℕ) :=
  (List.range n).map fun k => (src + k, addr + k)

/-- The bytes that are passed to a call. -/
def WriteCall.bytes (call : WriteCall) : List (ℕ × ℕ) :=
  byteRun call.src call.addr.toNat call.len.toNat

/-- Each byte is passed once, to the bank that its address is in. -/
structure BytesPassed (calls : List WriteCall) (addr cnt : UInt32) : Prop where
  once : (calls.flatMap WriteCall.bytes).Perm (byteRun 0 addr.toNat cnt.toNat)
  inBank : ∀ call ∈ calls, ∀ byte ∈ call.bytes,
    call.info.known = true ∧ call.info.Covers byte.2

/-- The addresses of a write. -/
def InRange (addr cnt : UInt32) (x : ℕ) : Prop :=
  addr.toNat ≤ x ∧ x < addr.toNat + cnt.toNat

/-- An address of the write is in no known bank. -/
def OutsideFlash (flashInfo : List FlashInfo) (addr cnt : UInt32) : Prop :=
  ∃ x, InRange addr cnt x ∧ ∀ info ∈ flashInfo, info.known = true → ¬ info.Covers x

/-- An address of the write is in a protected sector. -/
def HitsProtected (flashInfo : List FlashInfo) (addr cnt : UInt32) : Prop :=
  ∃ info ∈ flashInfo, info.known = true ∧ ∃ i < info.sectorCount.toNat,
    info.protect i ≠ 0 ∧ ∃ x, InRange addr cnt x ∧ info.SectorCovers i x

/-- Whatever `write_buff` returns, success means that each byte was passed once, to flash
that is not protected; otherwise nothing is written if that is not so. -/
def WritesRange (flashInfo : List FlashInfo) (addr cnt : UInt32) : Prop :=
  ∀ writeBuff, let (ret, calls) := flashWrite flashInfo writeBuff addr cnt
    (ret = errOk → ¬ OutsideFlash flashInfo addr cnt ∧
      ¬ HitsProtected flashInfo addr cnt ∧ BytesPassed calls addr cnt) ∧
    (OutsideFlash flashInfo addr cnt ∨ HitsProtected flashInfo addr cnt → calls = [])

/-! ## When it does -/

/-- Each bank holds the address behind the one before; a bank that ends where it would
have to start is passed over. -/
def Joined : UInt32 → List FlashInfo → Prop
  | _, [] => True
  | addr, info :: rest =>
      (info.bEnd = addr ∧ addr ≠ 0 ∨ info.contains addr = true) ∧ Joined info.bEnd rest

/-- The last sector of a bank at the top of the address space is protected, and the write
reaches it. -/
def HiddenAtTop (endAddr : UInt32) (info : FlashInfo) : Prop :=
  info.known = true ∧ info.bEnd = 0 ∧
    info.protect (info.sectorCount.toNat - 1) ≠ 0 ∧
    info.start (info.sectorCount.toNat - 1) ≤ endAddr

/-- Nothing is to be written, or one end of the range is outside flash, or the bank of
the last address does not stand in front of the one of the first address in the table, and
between them a protected sector is found, or the banks are joined, none of them hides a
protected sector, and the range does not reach over the top of the address space. -/
def WriteFits (flashInfo : List FlashInfo) (addr cnt : UInt32) : Prop :=
  cnt = 0 ∨ addr2info flashInfo addr = none ∨
    addr2info flashInfo (addr + cnt - 1) = none ∨
    ∃ infoFirst infoLast, addr2info flashInfo addr = some infoFirst ∧
      addr2info flashInfo (addr + cnt - 1) = some infoLast ∧ infoFirst ≤ infoLast ∧
      ((banksBetween flashInfo infoFirst infoLast).any
          (FlashInfo.protectedHit addr (addr + cnt - 1)) = true ∨
        addr ≤ addr + cnt - 1 ∧ Joined addr (banksBetween flashInfo infoFirst infoLast) ∧
          ∀ info ∈ banksBetween flashInfo infoFirst infoLast,
            ¬ HiddenAtTop (addr + cnt - 1) info)

/-! ## The calls of a write -/

section Calls

/-- The calls that are made as long as they succeed. -/
def plannedCalls : List FlashInfo → ℕ → UInt32 → UInt32 → List WriteCall
  | [], _, _, _ => []
  | info :: rest, src, addr, cnt =>
      if cnt = 0 then []
      else
        let len := info.writeLen addr cnt
        ⟨info, src, addr, len⟩ :: plannedCalls rest (src + len.toNat) (addr + len) (cnt - len)

theorem writeBanks_calls (writeBuff : List WriteCall → ℤ) (banks : List FlashInfo)
    (calls : List WriteCall) (src : ℕ) (addr cnt : UInt32) :
    ∃ made, made <+: plannedCalls banks src addr cnt ∧
      (writeBanks writeBuff banks calls src addr cnt).2 = calls ++ made ∧
      ((writeBanks writeBuff banks calls src addr cnt).1 = errOk →
        made = plannedCalls banks src addr cnt) := by
  induction banks generalizing calls src addr cnt with
  | nil => exact ⟨[], List.nil_prefix, (List.append_nil _).symm, fun _ => rfl⟩
  | cons info rest ih =>
      rw [writeBanks, plannedCalls]
      by_cases hcnt : cnt = 0
      · rw [if_pos hcnt, if_pos hcnt]
        exact ⟨[], List.nil_prefix, (List.append_nil _).symm, fun _ => rfl⟩
      · rw [if_neg hcnt, if_neg hcnt]
        dsimp only
        generalize info.writeLen addr cnt = len
        split_ifs with hfails
        · refine ⟨[⟨info, src, addr, len⟩], ?_, rfl, fun h => absurd h hfails⟩
          exact List.cons_prefix_cons.mpr ⟨rfl, List.nil_prefix⟩
        · obtain ⟨made, hprefix, hcalls, hall⟩ :=
            ih (calls ++ [⟨info, src, addr, len⟩]) (src + len.toNat) (addr + len) (cnt - len)
          refine ⟨⟨info, src, addr, len⟩ :: made,
            List.cons_prefix_cons.mpr ⟨rfl, hprefix⟩, ?_, fun h => by rw [hall h]⟩
          rw [hcalls, List.append_assoc]
          rfl

theorem writeBanks_succeeds (banks : List FlashInfo) (calls : List WriteCall) (src : ℕ)
    (addr cnt : UInt32) : (writeBanks (fun _ => 0) banks calls src addr cnt).1 = errOk := by
  induction banks generalizing calls src addr cnt with
  | nil => rfl
  | cons info rest ih =>
      rw [writeBanks]
      split_ifs with hcnt
      · rfl
      · exact ih _ _ _ _

theorem writeBanks_all (banks : List FlashInfo) (src : ℕ) (addr cnt : UInt32) :
    writeBanks (fun _ => 0) banks [] src addr cnt =
      (errOk, plannedCalls banks src addr cnt) := by
  have hret := writeBanks_succeeds banks [] src addr cnt
  obtain ⟨made, -, hcalls, hall⟩ := writeBanks_calls (fun _ => 0) banks [] src addr cnt
  rw [hall hret] at hcalls
  exact Prod.ext hret hcalls

theorem plannedCalls_mem {banks : List FlashInfo} {src : ℕ} {addr cnt : UInt32}
    {call : WriteCall} (h : call ∈ plannedCalls banks src addr cnt) :
    call.info ∈ banks := by
  induction banks generalizing src addr cnt with
  | nil => exact absurd h List.not_mem_nil
  | cons info rest ih =>
      rw [plannedCalls] at h
      split_ifs at h with hcnt
      · exact absurd h List.not_mem_nil
      · rcases List.mem_cons.mp h with rfl | hmem
        · exact List.mem_cons_self
        · exact List.mem_cons_of_mem _ (ih hmem)

theorem byteRun_add (src addr n k : ℕ) :
    byteRun src addr (n + k) = byteRun src addr n ++ byteRun (src + n) (addr + n) k := by
  rw [byteRun, List.range_add, List.map_append, List.map_map]
  simp only [byteRun, Function.comp_def, Nat.add_assoc]

theorem byteRun_length (src addr n : ℕ) : (byteRun src addr n).length = n := by
  rw [byteRun, List.length_map, List.length_range]

theorem mem_byteRun {src addr n k : ℕ} (hk : k < n) :
    (src + k, addr + k) ∈ byteRun src addr n :=
  List.mem_map.mpr ⟨k, List.mem_range.mpr hk, rfl⟩

/-- Bytes that go to a part of a bank. -/
theorem byteRun_inBank {info : FlashInfo} (hknown : info.known = true) {src addr n : ℕ}
    (hlow : info.first ≤ addr) (hhigh : addr + n ≤ info.next) :
    ∀ byte ∈ byteRun src addr n, info.known = true ∧ info.Covers byte.2 := by
  intro byte hbyte
  obtain ⟨k, hk, rfl⟩ := List.mem_map.mp hbyte
  have := List.mem_range.mp hk
  exact ⟨hknown, Nat.le_add_right_of_le hlow, by dsimp only; omega⟩

/-- How much is left of a bank. -/
theorem bEnd_sub_toNat {info : FlashInfo} (h : info.Layout) {addr : UInt32}
    (hcovers : info.Covers addr.toNat) :
    (info.bEnd - addr).toNat = info.next - addr.toNat := by
  have htop := h.top
  have hsize := info.size.toNat_lt
  have hlow := hcovers.1
  have hhigh := hcovers.2
  rw [UInt32.toNat_sub, FlashInfo.bEnd_toNat]
  unfold FlashInfo.next at *
  omega

theorem toNat_ne_zero {n : UInt32} (h : n ≠ 0) : n.toNat ≠ 0 :=
  fun hzero => h (UInt32.toNat_inj.mp hzero)

theorem writeLen_toNat (info : FlashInfo) (addr cnt : UInt32) :
    (info.writeLen addr cnt).toNat = min cnt.toNat (info.bEnd - addr).toNat := by
  unfold FlashInfo.writeLen
  split_ifs with hlt
  · rw [UInt32.lt_iff_toNat_lt] at hlt
    omega
  · rw [UInt32.lt_iff_toNat_lt] at hlt
    omega

/-- A bank that covers the rest of a write gets all of it. -/
theorem writeLen_last {info : FlashInfo} (h : info.Layout) {addr cnt : UInt32} {e : ℕ}
    (hend : addr.toNat + cnt.toNat = e + 1) (hcovers : info.Covers addr.toNat)
    (he : info.Covers e) : (info.writeLen addr cnt).toNat = cnt.toNat := by
  have := he.2
  rw [writeLen_toNat, bEnd_sub_toNat h hcovers]
  omega

/-- A bank in front of the one of the last address is filled, and the write goes on behind
it. -/
theorem writeLen_inner {info : FlashInfo} (h : info.Layout) {addr cnt : UInt32} {e : ℕ}
    (hcnt : cnt ≠ 0) (hend : addr.toNat + cnt.toNat = e + 1) (hlt : e < 2 ^ 32)
    (hcovers : info.Covers addr.toNat) (he : ¬ info.Covers e) :
    info.next ≤ e ∧ (info.writeLen addr cnt).toNat = info.next - addr.toNat ∧
      info.bEnd.toNat = info.next ∧ addr + info.writeLen addr cnt = info.bEnd ∧
      (cnt - info.writeLen addr cnt).toNat = cnt.toNat - (info.next - addr.toNat) := by
  have hpos := toNat_ne_zero hcnt
  have hhigh := hcovers.2
  have hnext : info.next ≤ e := by
    by_contra hlt
    exact he ⟨hcovers.1.trans (by omega), by omega⟩
  have hlen : (info.writeLen addr cnt).toNat = info.next - addr.toNat := by
    rw [writeLen_toNat, bEnd_sub_toNat h hcovers]
    omega
  have hbEnd : info.bEnd.toNat = info.next := by
    rw [FlashInfo.bEnd_toNat]
    omega
  refine ⟨hnext, hlen, hbEnd, ?_, ?_⟩
  · apply UInt32.toNat_inj.mp
    rw [UInt32.toNat_add, hlen, hbEnd]
    omega
  · rw [UInt32.toNat_sub_of_le _ _ (by rw [UInt32.le_iff_toNat_le, hlen]; omega), hlen]

theorem plannedCalls_singleton {info : FlashInfo} {src : ℕ} {addr cnt : UInt32}
    (hcnt : cnt ≠ 0) : plannedCalls [info] src addr cnt =
      [⟨info, src, addr, info.writeLen addr cnt⟩] := by
  rw [plannedCalls, if_neg hcnt]
  rfl

/-- A bank that gets bytes at its addresses only holds the first address. -/
theorem contains_of_bytes {info : FlashInfo} (hlayout : info.known = true → info.Layout)
    {src : ℕ} {addr cnt : UInt32} (hlen : (info.writeLen addr cnt).toNat ≠ 0)
    (hin : ∀ byte ∈ (⟨info, src, addr, info.writeLen addr cnt⟩ : WriteCall).bytes,
      info.known = true ∧ info.Covers byte.2) : info.contains addr = true :=
  (FlashInfo.contains_iff hlayout).mpr
    (hin (src + 0, addr.toNat + 0) (mem_byteRun (by dsimp only; omega)))

/-- Banks that are joined up to the one of the last address get the bytes of a write. -/
theorem plannedCalls_joined {pre : List FlashInfo} {last : FlashInfo} {e : ℕ}
    (hlayout : ∀ info ∈ pre ++ [last], info.known = true → info.Layout)
    (hpre : ∀ info ∈ pre, info.known = true → ¬ info.Covers e)
    (hlast : last.known = true ∧ last.Covers e) (src : ℕ) {addr cnt : UInt32}
    (hcnt : cnt ≠ 0) (hend : addr.toNat + cnt.toNat = e + 1) (he : e < 2 ^ 32)
    (hjoined : Joined addr (pre ++ [last])) :
    (plannedCalls (pre ++ [last]) src addr cnt).flatMap WriteCall.bytes =
        byteRun src addr.toNat cnt.toNat ∧
      ∀ call ∈ plannedCalls (pre ++ [last]) src addr cnt, ∀ byte ∈ call.bytes,
        call.info.known = true ∧ call.info.Covers byte.2 := by
  have hpos : cnt.toNat ≠ 0 := toNat_ne_zero hcnt
  induction pre generalizing src addr cnt with
  | nil =>
      have hl := hlayout last (by simp) hlast.1
      have hcovers : last.Covers addr.toNat := by
        rcases hjoined.1 with ⟨hbEnd, hne⟩ | hcontains
        · -- a bank that ends here does not hold the last address
          have hmod := last.bEnd_toNat
          have hne' := toNat_ne_zero hne
          have htop := hl.top
          have hhigh := hlast.2.2
          rw [hbEnd] at hmod
          omega
        · exact ((FlashInfo.contains_iff fun _ => hl).mp hcontains).2
      have hlen := writeLen_last hl hend hcovers hlast.2
      rw [List.nil_append, plannedCalls_singleton hcnt, List.flatMap_singleton, WriteCall.bytes, hlen]
      refine ⟨rfl, fun call hcall => ?_⟩
      rw [List.mem_singleton.mp hcall, WriteCall.bytes, hlen]
      have := hlast.2.2
      exact byteRun_inBank hlast.1 hcovers.1 (by dsimp only; omega)
  | cons info pre ih =>
      rw [List.cons_append, plannedCalls, if_neg hcnt]
      dsimp only
      have hrest := fun info hmem => hlayout info (List.mem_cons_of_mem _ hmem)
      have hpre' := fun info hmem => hpre info (List.mem_cons_of_mem _ hmem)
      rcases hjoined with ⟨⟨hbEnd, hne⟩ | hcontains, hjoined⟩
      · have hlen : info.writeLen addr cnt = 0 := by
          apply UInt32.toNat_inj.mp
          rw [writeLen_toNat, hbEnd, UInt32.sub_self]
          exact Nat.min_zero _
        obtain ⟨hbytes, hin⟩ := ih hrest hpre' (src + 0) hcnt hend
          (by rwa [hbEnd] at hjoined) hpos
        rw [hlen, UInt32.add_zero, UInt32.sub_zero, List.flatMap_cons]
        refine ⟨hbytes, List.forall_mem_cons.mpr ⟨?_, hin⟩⟩
        exact fun byte hbyte => absurd hbyte List.not_mem_nil
      · have hl := fun h => hlayout info List.mem_cons_self h
        obtain ⟨hknown, hcovers⟩ := (FlashInfo.contains_iff hl).mp hcontains
        obtain ⟨hnext, hlen, hstart, haddr, hleft⟩ := writeLen_inner (hl hknown) hcnt
          hend he hcovers (hpre info List.mem_cons_self hknown)
        have hhigh := hcovers.2
        have hne : cnt - info.writeLen addr cnt ≠ 0 := by
          intro h
          rw [h, UInt32.toNat_zero] at hleft
          omega
        obtain ⟨hbytes, hin⟩ := ih hrest hpre'
          (src + (info.writeLen addr cnt).toNat)
          hne (by rw [hleft, hstart]; omega) hjoined (by omega)
        rw [haddr]
        refine ⟨?_, List.forall_mem_cons.mpr ⟨?_, hin⟩⟩
        · rw [List.flatMap_cons, hbytes, hleft, hstart, WriteCall.bytes, hlen]
          have hsplit : cnt.toNat = (info.next - addr.toNat) +
              (cnt.toNat - (info.next - addr.toNat)) := by omega
          have hgoes : addr.toNat + (info.next - addr.toNat) = info.next := by omega
          conv_rhs => rw [hsplit, byteRun_add, hgoes]
        · rw [WriteCall.bytes, hlen]
          exact byteRun_inBank hknown hcovers.1 (by dsimp only; omega)

/-- Banks that get the bytes of a write are joined. -/
theorem joined_of_plannedCalls {pre : List FlashInfo} {last : FlashInfo} {e : ℕ}
    (hlayout : ∀ info ∈ pre ++ [last], info.known = true → info.Layout)
    (hpre : ∀ info ∈ pre, info.known = true → ¬ info.Covers e) {src : ℕ}
    {addr cnt : UInt32} (hcnt : cnt ≠ 0) (hend : addr.toNat + cnt.toNat = e + 1)
    (he : e < 2 ^ 32)
    (hstart : addr = 0 → ∀ info ∈ (pre ++ [last]).head?, info.contains addr = true)
    (hbytes : ((plannedCalls (pre ++ [last]) src addr cnt).flatMap
      WriteCall.bytes).length = cnt.toNat)
    (hin : ∀ call ∈ plannedCalls (pre ++ [last]) src addr cnt, ∀ byte ∈ call.bytes,
        call.info.known = true ∧ call.info.Covers byte.2) :
    Joined addr (pre ++ [last]) := by
  have hpos : cnt.toNat ≠ 0 := toNat_ne_zero hcnt
  induction pre generalizing src addr cnt with
  | nil =>
      rw [List.nil_append, plannedCalls_singleton hcnt] at hbytes hin
      rw [List.flatMap_singleton, WriteCall.bytes, byteRun_length] at hbytes
      refine ⟨Or.inr ?_, trivial⟩
      exact contains_of_bytes (hlayout last (by simp)) (by dsimp only at hbytes; omega)
        (hin _ List.mem_cons_self)
  | cons info pre ih =>
      rw [List.cons_append, plannedCalls, if_neg hcnt] at hbytes hin
      dsimp only at hbytes hin
      rw [List.flatMap_cons, List.length_append, WriteCall.bytes, byteRun_length] at hbytes
      dsimp only at hbytes
      obtain ⟨hhere, hthere⟩ := List.forall_mem_cons.mp hin
      have hl := fun h => hlayout info List.mem_cons_self h
      have hrest := fun info hmem => hlayout info (List.mem_cons_of_mem _ hmem)
      have hpre' := fun info hmem => hpre info (List.mem_cons_of_mem _ hmem)
      by_cases hzero : (info.writeLen addr cnt).toNat = 0
      · have hbEnd : info.bEnd = addr := by
          have hsub := writeLen_toNat info addr cnt
          have hlt := info.bEnd.toNat_lt
          have hlt' := addr.toNat_lt
          rw [UInt32.toNat_sub] at hsub
          apply UInt32.toNat_inj.mp
          omega
        have hne : addr ≠ 0 := by
          intro h
          have hcontains := hstart h info rfl
          obtain ⟨hknown, hcovers⟩ := (FlashInfo.contains_iff hl).mp hcontains
          have hsub := writeLen_toNat info addr cnt
          rw [bEnd_sub_toNat (hl hknown) hcovers] at hsub
          have hhigh := hcovers.2
          omega
        have hlen : info.writeLen addr cnt = 0 := UInt32.toNat_inj.mp hzero
        rw [hlen, UInt32.add_zero, UInt32.sub_zero] at hbytes hthere
        refine ⟨Or.inl ⟨hbEnd, hne⟩, ?_⟩
        rw [hbEnd]
        exact ih hrest hpre' hcnt hend (fun h => absurd h hne)
          (by rw [UInt32.toNat_zero, Nat.zero_add] at hbytes; exact hbytes) hthere hpos
      · have hcontains := contains_of_bytes hl hzero hhere
        obtain ⟨hknown, hcovers⟩ := (FlashInfo.contains_iff hl).mp hcontains
        obtain ⟨hnext, hlen, hnextEnd, haddr, hleft⟩ := writeLen_inner (hl hknown) hcnt
          hend he hcovers (hpre info List.mem_cons_self hknown)
        have hhigh := hcovers.2
        rw [haddr] at hbytes hthere
        refine ⟨Or.inr hcontains, ih hrest hpre' ?_ ?_ ?_ ?_ hthere ?_⟩
        · intro h
          rw [h, UInt32.toNat_zero] at hleft
          omega
        · rw [hleft, hnextEnd]
          omega
        · intro h
          rw [h, UInt32.toNat_zero] at hnextEnd
          omega
        · rw [hleft]
          omega
        · omega

end Calls

/-! ## The banks of a write -/

section Between

variable {flashInfo : List FlashInfo} {infoFirst infoLast : ℕ} {addr endAddr : UInt32}

theorem mem_of_mem_banksBetween {info : FlashInfo}
    (h : info ∈ banksBetween flashInfo infoFirst infoLast) : info ∈ flashInfo :=
  List.mem_of_mem_drop (List.mem_of_mem_take h)

/-- The bank of the last address is the last one, and the ones in front of it do not hold
that address. -/
theorem banksBetween_split (hlast : addr2info flashInfo endAddr = some infoLast)
    (hle : infoFirst ≤ infoLast) :
    ∃ pre last, banksBetween flashInfo infoFirst infoLast = pre ++ [last] ∧
      last.contains endAddr = true ∧ ∀ info ∈ pre, info.contains endAddr ≠ true := by
  obtain ⟨hlt, hcontains, hbefore⟩ := List.findIdx?_eq_some_iff_getElem.mp hlast
  refine ⟨(flashInfo.drop infoFirst).take (infoLast - infoFirst), flashInfo[infoLast],
    ?_, hcontains, ?_⟩
  · have hsome : (flashInfo.drop infoFirst)[infoLast - infoFirst]? =
        some flashInfo[infoLast] := by
      rw [List.getElem?_drop, Nat.add_sub_cancel' hle, List.getElem?_eq_getElem hlt]
    rw [banksBetween, Nat.sub_add_comm hle, List.take_add_one, hsome]
    rfl
  · intro info hmem
    obtain ⟨j, hj, rfl⟩ := List.mem_iff_getElem.mp hmem
    rw [List.length_take, List.length_drop] at hj
    rw [List.getElem_take, List.getElem_drop]
    exact hbefore (infoFirst + j) (by omega)

theorem banksBetween_of_lt (h : infoLast < infoFirst) :
    banksBetween flashInfo infoFirst infoLast = [] := by
  rw [banksBetween, Nat.sub_eq_zero_of_le h, List.take_zero]

theorem banksBetween_head (hfirst : addr2info flashInfo addr = some infoFirst)
    (hle : infoFirst ≤ infoLast) :
    ∀ info ∈ (banksBetween flashInfo infoFirst infoLast).head?,
      info.contains addr = true := by
  obtain ⟨hlt, hcontains, -⟩ := List.findIdx?_eq_some_iff_getElem.mp hfirst
  intro info hmem
  have hpos : infoLast + 1 - infoFirst ≠ 0 := by omega
  rw [banksBetween, List.head?_take, if_neg hpos, List.head?_drop,
    List.getElem?_eq_getElem hlt] at hmem
  rw [← Option.mem_some_iff.mp hmem]
  exact hcontains

/-- A protected sector that a write hits is found, unless it is the last one at the top
of the address space. -/
theorem protectedHit_or_hidden {info : FlashInfo} (h : info.Layout)
    (hknown : info.known = true) {i x : ℕ} (hi : i < info.sectorCount.toNat)
    (hprotect : info.protect i ≠ 0) (hlow : addr.toNat ≤ x) (hhigh : x ≤ endAddr.toNat)
    (hx : info.SectorCovers i x) :
    info.protectedHit addr endAddr = true ∨ HiddenAtTop endAddr info := by
  have hstart : info.start i ≤ endAddr :=
    UInt32.le_iff_toNat_le.mpr (hx.1.trans hhigh)
  have hend := FlashInfo.eAddr_toNat h i
  by_cases htop : info.sectorNext i = 2 ^ 32
  · right
    have hlast : i + 1 = info.sectorCount.toNat := by
      by_contra hne
      have hnext := info.sectorNext_of_lt (show i + 1 < info.sectorCount.toNat by omega)
      have hlt := (info.start (i + 1)).toNat_lt
      omega
    have hindex : info.sectorCount.toNat - 1 = i := by omega
    rw [info.sectorNext_last hlast] at htop
    refine ⟨hknown, ?_, by rwa [hindex], by rwa [hindex]⟩
    apply UInt32.toNat_inj.mp
    rw [FlashInfo.bEnd_toNat, htop]
    rfl
  · left
    have hle := (FlashInfo.sectorNext_le_next h hi).trans h.top
    have hlt : addr < info.eAddr i := by
      rw [UInt32.lt_iff_toNat_lt, hend]
      have := hx.2
      omega
    refine List.any_eq_true.mpr ⟨i, List.mem_range.mpr hi, ?_⟩
    rw [Bool.and_eq_true, Bool.and_eq_true]
    exact ⟨⟨decide_eq_true hstart, decide_eq_true hlt⟩, bne_iff_ne.mpr hprotect⟩

theorem hitsProtected_of_hidden {cnt : UInt32} {info : FlashInfo} (h : info.Layout)
    (hmem : info ∈ flashInfo) (hcnt : cnt ≠ 0)
    (hend : addr.toNat + cnt.toNat = endAddr.toNat + 1)
    (hhidden : HiddenAtTop endAddr info) : HitsProtected flashInfo addr cnt := by
  obtain ⟨hknown, hbEnd, hprotect, hstart⟩ := hhidden
  have hpos := toNat_ne_zero hcnt
  have hcount := h.count_pos
  have hnext : info.next = 2 ^ 32 := by
    have hmod := info.bEnd_toNat
    have hlt := FlashInfo.first_lt_next h
    have htop := h.top
    rw [hbEnd, UInt32.toNat_zero] at hmod
    omega
  have hle := UInt32.le_iff_toNat_le.mp hstart
  have hlt := endAddr.toNat_lt
  refine ⟨info, hmem, hknown, info.sectorCount.toNat - 1, by omega, hprotect,
    endAddr.toNat, ⟨by omega, by omega⟩, hle, ?_⟩
  rw [info.sectorNext_last (by omega), hnext]
  exact hlt

end Between

/-! ## When a write fits -/

section Fits

variable {table : BankTable} {addr cnt : UInt32} {infoFirst infoLast : ℕ}

theorem flashWrite_none (writeBuff : List WriteCall → ℤ) {flashInfo : List FlashInfo}
    (hcnt : cnt ≠ 0) (h : addr2info flashInfo addr = none ∨
      addr2info flashInfo (addr + cnt - 1) = none) :
    flashWrite flashInfo writeBuff addr cnt = (errInval, []) := by
  unfold flashWrite
  dsimp only
  rw [if_neg hcnt]
  rcases h with h | h
  · rw [h]
  · rw [h]
    cases addr2info flashInfo addr <;> rfl

theorem flashWrite_some (writeBuff : List WriteCall → ℤ) {flashInfo : List FlashInfo}
    (hcnt : cnt ≠ 0) (hfirst : addr2info flashInfo addr = some infoFirst)
    (hlast : addr2info flashInfo (addr + cnt - 1) = some infoLast) :
    flashWrite flashInfo writeBuff addr cnt =
      if (banksBetween flashInfo infoFirst infoLast).any
          (FlashInfo.protectedHit addr (addr + cnt - 1)) then (errProtected, [])
      else writeBanks writeBuff (banksBetween flashInfo infoFirst infoLast) [] 0 addr cnt := by
  unfold flashWrite
  dsimp only
  rw [if_neg hcnt, hfirst, hlast]

/-- The last address of a write that does not reach over the top. -/
theorem endAddr_toNat (hcnt : cnt ≠ 0) (hle : addr ≤ addr + cnt - 1) :
    addr.toNat + cnt.toNat = (addr + cnt - 1).toNat + 1 := by
  have hpos := toNat_ne_zero hcnt
  have hlt := cnt.toNat_lt
  have hle' := UInt32.le_iff_toNat_le.mp hle
  rw [UInt32.toNat_sub, UInt32.toNat_add, UInt32.toNat_one] at hle' ⊢
  omega

/-- The banks are joined exactly if the calls pass each byte to its bank. -/
theorem bytesPassed_iff (hcnt : cnt ≠ 0) (hle : addr ≤ addr + cnt - 1)
    (hfirst : addr2info table.flashInfo addr = some infoFirst)
    (hlast : addr2info table.flashInfo (addr + cnt - 1) = some infoLast)
    (hindex : infoFirst ≤ infoLast) :
    BytesPassed (plannedCalls (banksBetween table.flashInfo infoFirst infoLast) 0 addr cnt)
        addr cnt ↔ Joined addr (banksBetween table.flashInfo infoFirst infoLast) := by
  have hend := endAddr_toNat hcnt hle
  have hlayout := fun info
    (hmem : info ∈ banksBetween table.flashInfo infoFirst infoLast) =>
      table.laidOut.layout info (mem_of_mem_banksBetween hmem)
  have hhead := banksBetween_head hfirst hindex
  obtain ⟨pre, last, hsplit, hcontains, hpre⟩ := banksBetween_split hlast hindex
  rw [hsplit] at hlayout hhead ⊢
  have hpre' : ∀ info ∈ pre, info.known = true →
      ¬ info.Covers (addr + cnt - 1).toNat := by
    intro info hmem hknown hcovers
    exact hpre info hmem ((FlashInfo.contains_iff
      (hlayout info (List.mem_append_left _ hmem))).mpr ⟨hknown, hcovers⟩)
  have hlt := (addr + cnt - 1).toNat_lt
  constructor
  · intro h
    exact joined_of_plannedCalls hlayout hpre' hcnt hend hlt (fun _ => hhead)
      (by rw [h.once.length_eq, byteRun_length]) h.inBank
  · intro h
    obtain ⟨hbytes, hin⟩ := plannedCalls_joined hlayout hpre'
      ((FlashInfo.contains_iff (hlayout last (by simp))).mp hcontains) 0 hcnt hend hlt h
    exact ⟨hbytes ▸ List.Perm.refl _, hin⟩

/-- Where each byte is passed to its bank, no address is outside flash, and each bank
that the write reaches is one of the banks between. -/
theorem covered_of_bytesPassed {x : ℕ} (hx : InRange addr cnt x)
    (h : BytesPassed (plannedCalls (banksBetween table.flashInfo infoFirst infoLast) 0
      addr cnt) addr cnt) :
    ∃ info ∈ banksBetween table.flashInfo infoFirst infoLast,
      info.known = true ∧ info.Covers x := by
  obtain ⟨hlow, hhigh⟩ := hx
  have hmem : (0 + (x - addr.toNat), addr.toNat + (x - addr.toNat)) ∈
      byteRun 0 addr.toNat cnt.toNat := mem_byteRun (by omega)
  rw [Nat.add_sub_cancel' hlow] at hmem
  obtain ⟨call, hcall, hbyte⟩ := List.mem_flatMap.mp (h.once.mem_iff.mpr hmem)
  exact ⟨call.info, plannedCalls_mem hcall, h.inBank call hcall _ hbyte⟩

/-- A write whose banks are joined, without a protected sector that is found. -/
theorem clear_of_bytesPassed (hcnt : cnt ≠ 0) (hle : addr ≤ addr + cnt - 1)
    (hclear : ¬ (banksBetween table.flashInfo infoFirst infoLast).any
      (FlashInfo.protectedHit addr (addr + cnt - 1)) = true)
    (hhidden : ∀ info ∈ banksBetween table.flashInfo infoFirst infoLast,
      ¬ HiddenAtTop (addr + cnt - 1) info)
    (h : BytesPassed (plannedCalls (banksBetween table.flashInfo infoFirst infoLast) 0
      addr cnt) addr cnt) :
    ¬ OutsideFlash table.flashInfo addr cnt ∧
      ¬ HitsProtected table.flashInfo addr cnt := by
  have hend := endAddr_toNat hcnt hle
  constructor
  · rintro ⟨x, hx, hout⟩
    obtain ⟨info, hmem, hknown, hcovers⟩ := covered_of_bytesPassed hx h
    exact hout info (mem_of_mem_banksBetween hmem) hknown hcovers
  · rintro ⟨info, hmem, hknown, i, hi, hprotect, x, hx, hsector⟩
    have hl := table.laidOut.layout info hmem hknown
    obtain ⟨other, hmem', hknown', hcovers'⟩ := covered_of_bytesPassed hx h
    obtain rfl := table.laidOut.unique hmem (mem_of_mem_banksBetween hmem') hknown hknown'
      (hsector.covers hl hi) hcovers'
    have hlast : x ≤ (addr + cnt - 1).toNat := by
      have := hx.2
      omega
    rcases protectedHit_or_hidden hl hknown hi hprotect hx.1 hlast hsector with
      hhit | hhid
    · exact hclear (List.any_eq_true.mpr ⟨info, hmem', hhit⟩)
    · exact hhidden info hmem' hhid

theorem writesRange_of_fits (h : WriteFits table.flashInfo addr cnt) :
    WritesRange table.flashInfo addr cnt := by
  intro writeBuff
  by_cases hcnt : cnt = 0
  · have hempty : ∀ x, ¬ InRange addr cnt x := by
      rintro x ⟨hlow, hhigh⟩
      rw [hcnt, UInt32.toNat_zero] at hhigh
      omega
    have hwrite : flashWrite table.flashInfo writeBuff addr cnt = (errOk, []) := by
      unfold flashWrite
      exact if_pos hcnt
    rw [hwrite]
    refine ⟨fun _ => ⟨fun ⟨x, hx, _⟩ => hempty x hx, ?_, ?_, ?_⟩, fun _ => rfl⟩
    · rintro ⟨-, -, -, -, -, -, x, hx, -⟩
      exact hempty x hx
    · rw [hcnt]
      exact List.Perm.refl _
    · exact fun call hcall => absurd hcall List.not_mem_nil
  rcases h with h | h | h | ⟨infoFirst, infoLast, hfirst, hlast, hindex, h⟩
  · exact absurd h hcnt
  · rw [flashWrite_none writeBuff hcnt (Or.inl h)]
    exact ⟨nofun, fun _ => rfl⟩
  · rw [flashWrite_none writeBuff hcnt (Or.inr h)]
    exact ⟨nofun, fun _ => rfl⟩
  · rw [flashWrite_some writeBuff hcnt hfirst hlast]
    by_cases hany : (banksBetween table.flashInfo infoFirst infoLast).any
        (FlashInfo.protectedHit addr (addr + cnt - 1)) = true
    · rw [if_pos hany]
      exact ⟨nofun, fun _ => rfl⟩
    · rw [if_neg hany]
      obtain ⟨hle, hjoined, hhidden⟩ := h.resolve_left hany
      have hpassed := (bytesPassed_iff hcnt hle hfirst hlast hindex).mpr hjoined
      obtain ⟨hinside, hfree⟩ := clear_of_bytesPassed hcnt hle hany hhidden hpassed
      obtain ⟨made, -, hcalls, hall⟩ := writeBanks_calls writeBuff
        (banksBetween table.flashInfo infoFirst infoLast) [] 0 addr cnt
      refine ⟨fun hret => ⟨hinside, hfree, ?_⟩, fun hor => ?_⟩
      · rw [hcalls, hall hret]
        exact hpassed
      · rcases hor with hor | hor
        · exact absurd hor hinside
        · exact absurd hor hfree

/-- A write over the top of the address space is not inside flash. -/
theorem outsideFlash_of_wraps (hcnt : cnt ≠ 0) (hwraps : ¬ addr ≤ addr + cnt - 1) :
    OutsideFlash table.flashInfo addr cnt := by
  have hpos := toNat_ne_zero hcnt
  have hlt := addr.toNat_lt
  have hlt' := cnt.toNat_lt
  rw [UInt32.le_iff_toNat_le, UInt32.toNat_sub, UInt32.toNat_add, UInt32.toNat_one]
    at hwraps
  refine ⟨2 ^ 32, ⟨hlt.le, by omega⟩, fun info hmem hknown hcovers => ?_⟩
  exact absurd hcovers.2 (not_lt.mpr (table.laidOut.layout info hmem hknown).top)

/-- What is to hold is read off a run in which each call succeeds. -/
theorem fits_of_writesRange (h : WritesRange table.flashInfo addr cnt) :
    WriteFits table.flashInfo addr cnt := by
  by_cases hcnt : cnt = 0
  · exact Or.inl hcnt
  refine Or.inr ?_
  cases hfirst : addr2info table.flashInfo addr with
  | none => exact Or.inl rfl
  | some infoFirst =>
      refine Or.inr ?_
      cases hlast : addr2info table.flashInfo (addr + cnt - 1) with
      | none => exact Or.inl rfl
      | some infoLast =>
          refine Or.inr ⟨infoFirst, infoLast, rfl, rfl, ?_⟩
          have hrun := h fun _ => 0
          rw [flashWrite_some _ hcnt hfirst hlast, writeBanks_all] at hrun
          by_cases hany : (banksBetween table.flashInfo infoFirst infoLast).any
              (FlashInfo.protectedHit addr (addr + cnt - 1)) = true
          · refine ⟨?_, Or.inl hany⟩
            by_contra hlt
            rw [banksBetween_of_lt (not_le.mp hlt)] at hany
            exact absurd hany (by simp)
          · rw [if_neg hany] at hrun
            obtain ⟨hinside, hfree, hpassed⟩ := hrun.1 rfl
            have hindex : infoFirst ≤ infoLast := by
              by_contra hlt
              have hlen := hpassed.once.length_eq
              rw [banksBetween_of_lt (not_le.mp hlt), byteRun_length] at hlen
              exact toNat_ne_zero hcnt hlen.symm
            have hle : addr ≤ addr + cnt - 1 := by
              by_contra hwraps
              exact hinside (outsideFlash_of_wraps hcnt hwraps)
            refine ⟨hindex, Or.inr ⟨hle, ?_, fun info hmem hhidden => hfree ?_⟩⟩
            · exact (bytesPassed_iff hcnt hle hfirst hlast hindex).mp hpassed
            · have hmem' := mem_of_mem_banksBetween hmem
              exact hitsProtected_of_hidden (table.laidOut.layout info hmem' hhidden.1) hmem' hcnt
                (endAddr_toNat hcnt hle) hhidden

end Fits

/-- A write does what it is to do exactly where it fits. -/
theorem flashWrite_writesRange_iff (table : BankTable) (addr cnt : UInt32) :
    WritesRange table.flashInfo addr cnt ↔ WriteFits table.flashInfo addr cnt :=
  ⟨fits_of_writesRange, writesRange_of_fits⟩

/-- A write from the lower bank into the upper one, which stands in front of it in the
table, succeeds without a call. -/
theorem reversedBanks_not_written : ¬ WritesRange reversedBanks.flashInfo 0xfff 2 := by
  intro h
  have hrun := h fun _ => 0
  have hwrite : flashWrite reversedBanks.flashInfo (fun _ => 0) 0xfff 2 = (errOk, []) := by
    have hfirst : addr2info reversedBanks.flashInfo 0xfff = some 1 := by decide
    have hlast : addr2info reversedBanks.flashInfo (0xfff + 2 - 1) = some 0 := by decide
    rw [flashWrite_some _ (by decide) hfirst hlast]
    rfl
  rw [hwrite] at hrun
  have hlen := (hrun.1 rfl).2.2.once.length_eq
  exact absurd hlen (by decide)

end TateFirmware.Flash
