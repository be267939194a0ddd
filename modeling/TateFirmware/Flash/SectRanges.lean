import TateFirmware.Flash.Ranges

/-!
# Ranges of sectors

`flash_fill_sect_ranges` turns a range of addresses into the first and the last sector of
each bank, for `flash_sect_erase` and `flash_sect_protect`.  It carries the start of what
is left of the range from bank to bank and refuses to go back in the table.  That nothing
is left when the banks are through is not checked.
-/

namespace TateFirmware.Flash

/-! ## `flash_fill_sect_ranges` -/

/-- `s_first` and `s_last` of a bank. -/
structure SectRange where
  first : ℤ
  last : ℤ

/-- No sector of a bank. -/
def noSectors : SectRange := ⟨-1, -1⟩

/-- The loop over so many sectors of a bank. -/
def FlashInfo.scanSectors (info : FlashInfo) (addrFirst addrLast : UInt32) : ℕ → SectRange
  | 0 => noSectors
  | sect + 1 =>
      let r := info.scanSectors addrFirst addrLast sect
      let bEnd := info.bEnd - 1
      let endAddr := if (sect : ℤ) = info.sEnd then bEnd else info.start (sect + 1) - 1
      if endAddr < addrFirst then r
      else if addrLast < info.start sect then r
      else
        ⟨if addrFirst = info.start sect then sect else r.first,
          if addrLast = endAddr then sect else r.last⟩

/-- What is made of a bank. -/
inductive FillStep where
  | error (r : SectRange)
  /-- The bank is passed over. -/
  | pass (r : SectRange)
  /-- The range goes on at an address behind the sectors. -/
  | select (r : SectRange) (addrFirst : UInt32)

/-- The body of the loop over the banks. -/
def FlashInfo.fillStep (info : FlashInfo) (addrFirst addrLast : UInt32) : FillStep :=
  if info.flashId = flashUnknown then .pass noSectors
  else
    let bEnd := info.bEnd - 1
    let r := info.scanSectors addrFirst addrLast info.sectorCount.toNat
    if 0 ≤ r.first then
      if r.last < 0 ∧ ¬ bEnd < addrLast then .error r
      else
        let last := if r.last < 0 then info.sEnd else r.last
        if last < r.first then .error ⟨r.first, last⟩
        else .select ⟨r.first, last⟩
          (if last = info.sEnd then bEnd + 1 else info.start (last + 1).toNat)
    else if info.start 0 ≤ addrFirst ∧ addrFirst < bEnd then .error r
    else if 0 ≤ r.last then .error r
    else .pass r

/-- What `flash_fill_sect_ranges` returns and fills in. -/
structure FillResult where
  rcode : ℤ
  ranges : List SectRange
  count : ℤ

/-- The loop over the banks that are left. -/
def flashFillSectRanges (addrLast : UInt32) : List FlashInfo → UInt32 → FillResult
  | [], _ => ⟨0, [], 0⟩
  | info :: rest, addrFirst =>
      if ¬ addrFirst ≤ addrLast then ⟨0, (info :: rest).map fun _ => noSectors, 0⟩
      else
        match info.fillStep addrFirst addrLast with
        | .error r => ⟨1, r :: rest.map fun _ => noSectors, 0⟩
        | .pass r =>
            let later := flashFillSectRanges addrLast rest addrFirst
            ⟨later.rcode, r :: later.ranges, later.count⟩
        | .select r addrFirst =>
            let later := flashFillSectRanges addrLast rest addrFirst
            ⟨later.rcode, r :: later.ranges, r.last - r.first + 1 + later.count⟩

attribute [grind =] flashFillSectRanges

/-! ## Erasing and protecting -/

/-- `flash_erase` of the ranges, until one fails; it returns what it returns after the
calls so far. -/
def eraseRanges (flashErase : List (FlashInfo × SectRange) → ℤ) :
    List (FlashInfo × SectRange) → List (FlashInfo × SectRange) →
      ℤ × List (FlashInfo × SectRange)
  | [], calls => (0, calls)
  | (info, r) :: rest, calls =>
      if 0 ≤ r.first then
        let calls := calls ++ [(info, r)]
        let rcode := flashErase calls
        if rcode = 0 then eraseRanges flashErase rest calls else (rcode, calls)
      else eraseRanges flashErase rest calls

/-- `flash_sect_erase`: what it returns, and its calls of `flash_erase`. -/
def flashSectErase (flashInfo : List FlashInfo)
    (flashErase : List (FlashInfo × SectRange) → ℤ) (addrFirst addrLast : UInt32) :
    ℤ × List (FlashInfo × SectRange) :=
  let filled := flashFillSectRanges addrLast flashInfo addrFirst
  if filled.count ≠ 0 ∧ filled.rcode = 0 then
    eraseRanges flashErase (flashInfo.zip filled.ranges) []
  else if filled.rcode = 0 then (1, [])
  else (filled.rcode, [])

/-- The sectors of a range, which `flash_sect_protect` goes through for known banks. -/
def sectorsToProtect : FlashInfo × SectRange → List (FlashInfo × ℤ)
  | (info, r) =>
      if info.flashId ≠ flashUnknown ∧ 0 ≤ r.first ∧ r.first ≤ r.last then
        (List.range (r.last - r.first + 1).toNat).map fun i : ℕ => (info, r.first + i)
      else []

/-- `flash_real_protect` of one sector after the other; a failure is returned in the
end. -/
def protectSectors (flashRealProtect : List (FlashInfo × ℤ) → ℤ) :
    List (FlashInfo × ℤ) → ℤ → List (FlashInfo × ℤ) → ℤ × List (FlashInfo × ℤ)
  | [], rcode, calls => (rcode, calls)
  | sector :: rest, rcode, calls =>
      let calls := calls ++ [sector]
      protectSectors flashRealProtect rest
        (if flashRealProtect calls ≠ 0 then 1 else rcode) calls

/-- `flash_sect_protect`: what it returns, and its calls of `flash_real_protect`. -/
def flashSectProtect (flashInfo : List FlashInfo)
    (flashRealProtect : List (FlashInfo × ℤ) → ℤ) (addrFirst addrLast : UInt32) :
    ℤ × List (FlashInfo × ℤ) :=
  let filled := flashFillSectRanges addrLast flashInfo addrFirst
  if filled.count ≠ 0 ∧ filled.rcode = 0 then
    protectSectors flashRealProtect
      ((flashInfo.zip filled.ranges).flatMap sectorsToProtect) 0 []
  else if filled.rcode = 0 then (1, [])
  else (filled.rcode, [])

/-! ## What a range is to select -/

/-- A sector is selected. -/
def SectRange.Has (r : SectRange) (i : ℤ) : Prop := 0 ≤ r.first ∧ r.first ≤ i ∧ i ≤ r.last

/-- The sectors selected of a bank are those inside the range. -/
def Selects (a z : ℕ) (info : FlashInfo) (r : SectRange) : Prop :=
  ∀ i : ℕ, r.Has i ↔ info.SectorIn a z i

/-- Only sectors inside a range are acted on, and success means that each address of the
range is in one of them. -/
structure ActsOn (a z : ℕ) (ret : ℤ) (acted : FlashInfo → ℤ → Prop) : Prop where
  inside : ∀ info i, acted info i → 0 ≤ i ∧ info.SectorIn a z i.toNat
  whole : ret = 0 → ∀ x, a ≤ x → x < z →
    ∃ info, ∃ i : ℕ, acted info i ∧ info.SectorCovers i x

/-- A range is filled in exactly if it is made of whole sectors of known banks in the
order of their addresses, then with these sectors, which are erased or protected. -/
structure FillsRange (flashInfo : List FlashInfo) (addrFirst addrLast : UInt32) : Prop where
  succeeds : (flashFillSectRanges addrLast flashInfo addrFirst).rcode = 0 ∧
      (flashFillSectRanges addrLast flashInfo addrFirst).count ≠ 0 ↔
    WholeSectors flashInfo addrFirst.toNat (addrLast.toNat + 1) ∧
      InOrder flashInfo addrFirst.toNat (addrLast.toNat + 1)
  selects : (flashFillSectRanges addrLast flashInfo addrFirst).rcode = 0 →
    (flashFillSectRanges addrLast flashInfo addrFirst).count ≠ 0 →
      List.Forall₂ (Selects addrFirst.toNat (addrLast.toNat + 1)) flashInfo
        (flashFillSectRanges addrLast flashInfo addrFirst).ranges
  erases : ∀ flashErase,
    let (ret, calls) := flashSectErase flashInfo flashErase addrFirst addrLast
    ActsOn addrFirst.toNat (addrLast.toNat + 1) ret
      fun info i => ∃ r, (info, r) ∈ calls ∧ r.first ≤ i ∧ i ≤ r.last
  protects : ∀ flashRealProtect,
    let (ret, calls) := flashSectProtect flashInfo flashRealProtect addrFirst addrLast
    ActsOn addrFirst.toNat (addrLast.toNat + 1) ret fun info i => (info, i) ∈ calls

/-! ## What is not checked -/

/-- The range goes on behind the end of a bank at which no later bank starts, and no
sector ends where the range does. -/
def RunsOn (flashInfo : List FlashInfo) (a z : ℕ) : Prop :=
  (∀ info ∈ flashInfo, info.known = true → ¬ info.SectorEnd z) ∧
    ∃ pre info post, flashInfo = pre ++ info :: post ∧ info.known = true ∧
      a < info.next ∧ info.next < z ∧
      (WholeSectors (pre ++ [info]) a info.next ∧ InOrder (pre ++ [info]) a info.next) ∧
      ∀ other ∈ post, other.known = true → other.first ≠ info.next

/-- No bank at the top of the address space stands in front of one at address `0`. -/
def TopLast (flashInfo : List FlashInfo) : Prop :=
  flashInfo.Pairwise fun info other => info.known = true → info.next = 2 ^ 32 →
    other.known = true → other.first ≠ 0

/-! ## The sectors of a bank -/

section Scan

variable {info : FlashInfo} {addrFirst addrLast : UInt32}

/-- The last address of a sector. -/
theorem endAddr_toNat_eq (h : info.Layout) {i : ℕ} (hi : i < info.sectorCount.toNat) :
    (if (i : ℤ) = info.sEnd then info.bEnd - 1 else info.start (i + 1) - 1).toNat =
      info.sectorNext i - 1 := by
  have hpos := h.ascending i hi
  have htop := (FlashInfo.sectorNext_le_next h hi).trans h.top
  have heq : (if (i : ℤ) = info.sEnd then info.bEnd - 1 else info.start (i + 1) - 1) =
      info.eAddr i - 1 := by
    unfold FlashInfo.eAddr
    split_ifs <;> rfl
  rw [heq, UInt32.toNat_sub, FlashInfo.eAddr_toNat h, UInt32.toNat_one]
  omega

theorem scanSectors_succ (h : info.Layout) (hle : addrFirst ≤ addrLast) {n : ℕ}
    (hn : n < info.sectorCount.toNat) :
    info.scanSectors addrFirst addrLast (n + 1) =
      ⟨if (info.start n).toNat = addrFirst.toNat then n
        else (info.scanSectors addrFirst addrLast n).first,
      if info.sectorNext n = addrLast.toNat + 1 then n
        else (info.scanSectors addrFirst addrLast n).last⟩ := by
  have hend := endAddr_toNat_eq h hn
  have hpos := h.ascending n hn
  have hle' := UInt32.le_iff_toNat_le.mp hle
  rw [FlashInfo.scanSectors]
  generalize (if (n : ℤ) = info.sEnd then info.bEnd - 1 else info.start (n + 1) - 1) =
    endAddr at hend ⊢
  by_cases hbefore : endAddr < addrFirst
  · have hlt := UInt32.lt_iff_toNat_lt.mp hbefore
    rw [if_pos hbefore, if_neg (by omega), if_neg (by omega)]
  rw [if_neg hbefore]
  by_cases hbehind : addrLast < info.start n
  · have hlt := UInt32.lt_iff_toNat_lt.mp hbehind
    rw [if_pos hbehind, if_neg (by omega), if_neg (by omega)]
  rw [if_neg hbehind]
  have hfirst : addrFirst = info.start n ↔ (info.start n).toNat = addrFirst.toNat := by
    rw [← UInt32.toNat_inj, eq_comm]
  have hlast : addrLast = endAddr ↔ info.sectorNext n = addrLast.toNat + 1 := by
    rw [← UInt32.toNat_inj]
    omega
  simp only [hfirst, hlast]

/-- The first sector is the one that starts where the range does. -/
theorem scanSectors_first (h : info.Layout) (hle : addrFirst ≤ addrLast) {n : ℕ}
    (hn : n ≤ info.sectorCount.toNat) :
    (∀ i < n, (info.start i).toNat = addrFirst.toNat →
      (info.scanSectors addrFirst addrLast n).first = i) ∧
    ((∀ i < n, (info.start i).toNat ≠ addrFirst.toNat) →
      (info.scanSectors addrFirst addrLast n).first = -1) := by
  induction n with
  | zero => exact ⟨fun i hi => absurd hi (Nat.not_lt_zero i), fun _ => rfl⟩
  | succ n ih =>
      obtain ⟨hsome, hnone⟩ := ih (by omega)
      rw [scanSectors_succ h hle hn]
      dsimp only
      constructor
      · intro i hi hstart
        rcases Nat.lt_succ_iff_lt_or_eq.mp hi with hlt | rfl
        · rw [if_neg, hsome i hlt hstart]
          intro hother
          have := FlashInfo.start_injective h (by omega) hn (hstart.trans hother.symm)
          omega
        · rw [if_pos hstart]
      · intro hall
        rw [if_neg (hall n (Nat.lt_succ_self n))]
        exact hnone fun i hi => hall i (by omega)

/-- The last sector is the one that ends where the range does. -/
theorem scanSectors_last (h : info.Layout) (hle : addrFirst ≤ addrLast) {n : ℕ}
    (hn : n ≤ info.sectorCount.toNat) :
    (∀ i < n, info.sectorNext i = addrLast.toNat + 1 →
      (info.scanSectors addrFirst addrLast n).last = i) ∧
    ((∀ i < n, info.sectorNext i ≠ addrLast.toNat + 1) →
      (info.scanSectors addrFirst addrLast n).last = -1) := by
  induction n with
  | zero => exact ⟨fun i hi => absurd hi (Nat.not_lt_zero i), fun _ => rfl⟩
  | succ n ih =>
      obtain ⟨hsome, hnone⟩ := ih (by omega)
      rw [scanSectors_succ h hle hn]
      dsimp only
      constructor
      · intro i hi hend
        rcases Nat.lt_succ_iff_lt_or_eq.mp hi with hlt | rfl
        · rw [if_neg, hsome i hlt hend]
          intro hother
          have := FlashInfo.sectorNext_injective h (by omega) hn (hend.trans hother.symm)
          omega
        · rw [if_pos hend]
      · intro hall
        rw [if_neg (hall n (Nat.lt_succ_self n))]
        exact hnone fun i hi => hall i (by omega)

end Scan

/-! ## One bank -/

section Step

variable {info : FlashInfo} {addrFirst addrLast : UInt32}

theorem known_iff : info.known = true ↔ info.flashId ≠ flashUnknown := decide_eq_true_iff

theorem noSectors_not_has (i : ℤ) : ¬ noSectors.Has i :=
  fun h => absurd h.1 (by decide)

/-- The sectors from one to another. -/
theorem has_iff_sectorIn (h : info.Layout) (hknown : info.known = true) {i j z : ℕ}
    (hi : i < info.sectorCount.toNat) (hj : j < info.sectorCount.toNat)
    (hz : ∀ k < info.sectorCount.toNat, info.sectorNext k ≤ z ↔ k ≤ j) (k : ℕ) :
    SectRange.Has ⟨i, j⟩ k ↔ info.SectorIn (info.start i).toNat z k := by
  unfold SectRange.Has FlashInfo.SectorIn
  dsimp only
  rw [and_iff_right hknown]
  constructor
  · rintro ⟨-, hik, hkj⟩
    have hk : k < info.sectorCount.toNat := by omega
    exact ⟨hk, (FlashInfo.start_le_iff h hi hk).mpr (by omega),
      (hz k hk).mpr (by omega)⟩
  · rintro ⟨hk, hstart, hnext⟩
    have hik := (FlashInfo.start_le_iff h hi hk).mp hstart
    have hkj := (hz k hk).mp hnext
    omega

/-- The address behind a selected sector. -/
theorem nextAddr_toNat (h : info.Layout) {j : ℕ} :
    (if (j : ℤ) = info.sEnd then info.bEnd - 1 + 1
      else info.start ((j : ℤ) + 1).toNat).toNat = info.sectorNext j % 2 ^ 32 := by
  rw [UInt32.sub_add_cancel, show ((j : ℤ) + 1).toNat = j + 1 by omega]
  exact FlashInfo.eAddr_toNat h j

/-- Where a sector starts and one ends at the ends of the range. -/
theorem fillStep_end (h : info.Layout) (hknown : info.known = true)
    (hle : addrFirst ≤ addrLast) {i j : ℕ} (hi : i < info.sectorCount.toNat)
    (hj : j < info.sectorCount.toNat) (hstart : (info.start i).toNat = addrFirst.toNat)
    (hend : info.sectorNext j = addrLast.toNat + 1) :
    i ≤ j ∧ info.fillStep addrFirst addrLast = .select ⟨i, j⟩
      (if (j : ℤ) = info.sEnd then info.bEnd - 1 + 1
        else info.start ((j : ℤ) + 1).toNat) := by
  have hle' := UInt32.le_iff_toNat_le.mp hle
  have hij : i ≤ j := by
    by_contra hlt
    have := FlashInfo.sectorNext_le_start h (not_le.mp hlt) hi
    omega
  refine ⟨hij, ?_⟩
  have hfirst := (scanSectors_first h hle le_rfl).1 i hi hstart
  have hlast := (scanSectors_last h hle le_rfl).1 j hj hend
  rw [FlashInfo.fillStep, if_neg (known_iff.mp hknown)]
  dsimp only
  rw [hfirst, hlast, if_pos (by omega), if_neg (by omega), if_neg (by omega),
    if_neg (by omega)]

/-- Where a sector starts at the start of the range, and none ends at its end. -/
theorem fillStep_start (h : info.Layout) (hknown : info.known = true)
    (hle : addrFirst ≤ addrLast) {i : ℕ} (hi : i < info.sectorCount.toNat)
    (hstart : (info.start i).toNat = addrFirst.toNat)
    (hend : ¬ info.SectorEnd (addrLast.toNat + 1)) :
    info.fillStep addrFirst addrLast =
      if ¬ info.next < addrLast.toNat + 1 then .error ⟨i, -1⟩
      else .select ⟨i, (info.sectorCount.toNat - 1 : ℕ)⟩ info.bEnd := by
  have hfirst := (scanSectors_first h hle le_rfl).1 i hi hstart
  have hlast := (scanSectors_last h hle le_rfl).2 fun j hj hnext => hend ⟨j, hj, hnext⟩
  have hpos := h.count_pos
  have hsEnd : info.sEnd = (info.sectorCount.toNat - 1 : ℕ) :=
    ((FlashInfo.sEnd_iff h).mpr (by omega)).symm
  have hbEnd : info.bEnd - 1 < addrLast ↔ info.next < addrLast.toNat + 1 := by
    have := FlashInfo.first_lt_next h
    rw [UInt32.lt_iff_toNat_lt, FlashInfo.bEnd_sub_one_toNat h]
    omega
  rw [FlashInfo.fillStep, if_neg (known_iff.mp hknown)]
  dsimp only
  rw [if_pos (by omega)]
  by_cases hnext : info.next < addrLast.toNat + 1
  · have hneg : (if (-1 : ℤ) < 0 then info.sEnd else -1) = info.sEnd := if_pos (by decide)
    rw [if_neg (fun hor => hor.2 (hbEnd.mpr hnext)), hlast, hneg, if_neg (by omega),
      if_pos rfl, UInt32.sub_add_cancel, if_neg (not_not.mpr hnext), hfirst, hsEnd]
  · rw [if_pos ⟨by omega, mt hbEnd.mp hnext⟩, if_pos hnext]
    congr 1
    exact congrArg₂ SectRange.mk hfirst hlast

/-- Where no sector starts at the start of the range. -/
theorem fillStep_not_at (h : info.Layout) (hknown : info.known = true)
    (hle : addrFirst ≤ addrLast) (hat : ¬ info.SectorAt addrFirst.toNat) :
    (∃ r, info.fillStep addrFirst addrLast = .error r ∧
      (info.Covers addrFirst.toNat ∨ info.SectorEnd (addrLast.toNat + 1))) ∨
    info.fillStep addrFirst addrLast = .pass noSectors ∧
      ¬ info.SectorEnd (addrLast.toNat + 1) := by
  have hfirst := (scanSectors_first h hle le_rfl).2 fun i hi hstart => hat ⟨i, hi, hstart⟩
  rw [FlashInfo.fillStep, if_neg (known_iff.mp hknown)]
  dsimp only
  rw [if_neg (by omega)]
  by_cases hinside : info.start 0 ≤ addrFirst ∧ addrFirst < info.bEnd - 1
  · rw [if_pos hinside]
    refine Or.inl ⟨_, rfl, Or.inl ⟨UInt32.le_iff_toNat_le.mp hinside.1, ?_⟩⟩
    have hlt := UInt32.lt_iff_toNat_lt.mp hinside.2
    rw [FlashInfo.bEnd_sub_one_toNat h] at hlt
    omega
  rw [if_neg hinside]
  by_cases hend : info.SectorEnd (addrLast.toNat + 1)
  · obtain ⟨j, hj, hnext⟩ := hend
    have hlast := (scanSectors_last h hle le_rfl).1 j hj hnext
    rw [if_pos (by omega)]
    exact Or.inl ⟨_, rfl, Or.inr ⟨j, hj, hnext⟩⟩
  · have hlast := (scanSectors_last h hle le_rfl).2 fun j hj hnext => hend ⟨j, hj, hnext⟩
    rw [if_neg (by omega)]
    refine Or.inr ⟨?_, hend⟩
    exact congrArg FillStep.pass (congrArg₂ SectRange.mk hfirst hlast)

/-- What the loop over the banks makes of one of them. -/
theorem fillStep_cases (hlayout : info.known = true → info.Layout)
    (hle : addrFirst ≤ addrLast) :
    (∃ r, info.fillStep addrFirst addrLast = .error r ∧ info.known = true ∧
      (info.SectorAt addrFirst.toNat ∧ ¬ info.SectorEnd (addrLast.toNat + 1) ∧
          ¬ info.next < addrLast.toNat + 1 ∨
        ¬ info.SectorAt addrFirst.toNat ∧
          (info.Covers addrFirst.toNat ∨ info.SectorEnd (addrLast.toNat + 1)))) ∨
    (info.fillStep addrFirst addrLast = .pass noSectors ∧
      (info.known = true → ¬ info.SectorAt addrFirst.toNat ∧
        ¬ info.SectorEnd (addrLast.toNat + 1))) ∨
    (∃ r next, info.fillStep addrFirst addrLast = .select r next ∧ info.known = true ∧
      info.SectorAt addrFirst.toNat ∧ r.first ≤ r.last ∧
      Selects addrFirst.toNat (addrLast.toNat + 1) info r ∧
      (info.SectorEnd (addrLast.toNat + 1) ∧ next.toNat = (addrLast.toNat + 1) % 2 ^ 32 ∨
        ¬ info.SectorEnd (addrLast.toNat + 1) ∧ info.next < addrLast.toNat + 1 ∧
          next.toNat = info.next)) := by
  by_cases hknown : info.known = true
  · have h := hlayout hknown
    by_cases hat : info.SectorAt addrFirst.toNat
    · obtain ⟨i, hi, hstart⟩ := hat
      have hat : info.SectorAt addrFirst.toNat := ⟨i, hi, hstart⟩
      by_cases hend : info.SectorEnd (addrLast.toNat + 1)
      · obtain ⟨j, hj, hnext⟩ := hend
        have hend : info.SectorEnd (addrLast.toNat + 1) := ⟨j, hj, hnext⟩
        obtain ⟨hij, hstep⟩ := fillStep_end h hknown hle hi hj hstart hnext
        refine Or.inr (Or.inr ⟨_, _, hstep, hknown, hat, by dsimp only; omega, ?_,
          Or.inl ⟨hend, by rw [nextAddr_toNat h, hnext]⟩⟩)
        rw [← hstart, ← hnext]
        exact has_iff_sectorIn h hknown hi hj fun k hk => FlashInfo.sectorNext_le_iff h hk hj
      · have hstep := fillStep_start h hknown hle hi hstart hend
        by_cases hnext : info.next < addrLast.toNat + 1
        · rw [if_neg (not_not.mpr hnext)] at hstep
          have hlt := addrLast.toNat_lt
          refine Or.inr (Or.inr ⟨_, _, hstep, hknown, hat, by dsimp only; omega, ?_,
            Or.inr ⟨hend, hnext, ?_⟩⟩)
          · rw [← hstart]
            refine has_iff_sectorIn h hknown hi (by omega) fun k hk => ?_
            exact iff_of_true ((FlashInfo.sectorNext_le_next h hk).trans hnext.le) (by omega)
          · rw [FlashInfo.bEnd_toNat]
            omega
        · rw [if_pos hnext] at hstep
          exact Or.inl ⟨_, hstep, hknown, Or.inl ⟨hat, hend, hnext⟩⟩
    · rcases fillStep_not_at h hknown hle hat with ⟨r, hstep, hwhy⟩ | ⟨hstep, hend⟩
      · exact Or.inl ⟨r, hstep, hknown, Or.inr ⟨hat, hwhy⟩⟩
      · exact Or.inr (Or.inl ⟨hstep, fun _ => ⟨hat, hend⟩⟩)
  · refine Or.inr (Or.inl ⟨?_, fun h => absurd h hknown⟩)
    rw [FlashInfo.fillStep, if_pos (not_not.mp (mt known_iff.mpr hknown))]

end Step

/-! ## The banks -/

section Fill

variable {info : FlashInfo} {rest flashInfo : List FlashInfo}
  {addrFirst addrLast : UInt32}

/-- Nothing is left of the range. -/
theorem fill_done (h : ¬ addrFirst ≤ addrLast) :
    flashFillSectRanges addrLast flashInfo addrFirst =
      ⟨0, flashInfo.map fun _ => noSectors, 0⟩ := by
  cases flashInfo with
  | nil => rfl
  | cons info rest =>
      rw [flashFillSectRanges]
      exact if_pos h

/-- Banks that have nothing to do with the ends of the range are passed over. -/
theorem fill_pass (hlaid : LaidOut flashInfo)
    (hpass : ∀ info ∈ flashInfo, info.known = true → ¬ info.Covers addrFirst.toNat ∧
      ¬ info.SectorEnd (addrLast.toNat + 1)) :
    flashFillSectRanges addrLast flashInfo addrFirst =
      ⟨0, flashInfo.map fun _ => noSectors, 0⟩ := by
  by_cases hle : addrFirst ≤ addrLast
  · induction flashInfo with
    | nil => rfl
    | cons info rest ih =>
        have hl := fun hknown => hlaid.layout info List.mem_cons_self hknown
        have hpass' := hpass info List.mem_cons_self
        rw [flashFillSectRanges, if_neg (not_not.mpr hle)]
        rcases fillStep_cases hl hle with ⟨r, -, hknown, ⟨hat, -⟩ | ⟨-, hcovers | hend⟩⟩ |
          ⟨hstep, -⟩ | ⟨r, next, -, hknown, hat, -⟩
        · exact absurd (hat.covers (hl hknown)) (hpass' hknown).1
        · exact absurd hcovers (hpass' hknown).1
        · exact absurd hend (hpass' hknown).2
        · rw [hstep, ih hlaid.tail fun other hmem => hpass other (List.mem_cons_of_mem _ hmem)]
          rfl
        · exact absurd (hat.covers (hl hknown)) (hpass' hknown).1
  · exact fill_done hle

theorem fill_count_nonneg (hlaid : LaidOut flashInfo) :
    0 ≤ (flashFillSectRanges addrLast flashInfo addrFirst).count := by
  induction flashInfo generalizing addrFirst with
  | nil => exact le_rfl
  | cons info rest ih =>
      by_cases hle : addrFirst ≤ addrLast
      · rw [flashFillSectRanges, if_neg (not_not.mpr hle)]
        rcases fillStep_cases (fun h => hlaid.layout info List.mem_cons_self h) hle with
          ⟨r, hstep, -⟩ | ⟨hstep, -⟩ | ⟨r, next, hstep, -, -, hr, -⟩
        · rw [hstep]
        · rw [hstep]
          exact ih hlaid.tail
        · have hcount : 0 ≤ (flashFillSectRanges addrLast rest next).count := ih hlaid.tail
          rw [hstep]
          dsimp only
          omega
      · rw [fill_done hle]

/-- Sectors behind a bank are inside the range if they are inside what is left of it. -/
theorem selects_next (hlaid : LaidOut (info :: rest)) (hknown : info.known = true)
    {a z : ℕ} (ha : info.Covers a) {other : FlashInfo} (hmem : other ∈ rest) {r : SectRange}
    (h : Selects info.next z other r) : Selects a z other r := by
  intro i
  refine (h i).trans ⟨fun hin => ⟨hin.1, hin.2.1, ha.2.le.trans hin.2.2.1, hin.2.2.2⟩,
    fun hin => ?_⟩
  have hl := hlaid.layout other (List.mem_cons_of_mem _ hmem) hin.1
  obtain ⟨hcovers, hlt⟩ := hin.covers_start hl
  have hfirst := (hlaid.meets_next hknown ha hmem ⟨hin.1, _, hin.2.2.1, hlt, hcovers⟩).2
  exact ⟨hin.1, hin.2.1, hfirst.trans hcovers.1, hin.2.2.2⟩

/-- Of a bank that the range does not meet nothing is selected. -/
theorem selects_none {a z : ℕ} {other : FlashInfo} (hl : other.known = true → other.Layout)
    (h : ¬ other.Meets a z) : Selects a z other noSectors := by
  intro i
  refine iff_of_false (noSectors_not_has i) fun hin => h ?_
  obtain ⟨hcovers, hlt⟩ := hin.covers_start (hl hin.1)
  exact ⟨hin.1, _, hin.2.2.1, hlt, hcovers⟩

/-- Along a walk the sectors of the range are selected. -/
theorem fill_walks (hlaid : LaidOut flashInfo)
    (htop : addrLast.toNat + 1 = 2 ^ 32 → TopLast flashInfo)
    (hwalks : Walks flashInfo addrFirst.toNat (addrLast.toNat + 1)) :
    (flashFillSectRanges addrLast flashInfo addrFirst).rcode = 0 ∧
      (flashFillSectRanges addrLast flashInfo addrFirst).count ≠ 0 ∧
      List.Forall₂ (Selects addrFirst.toNat (addrLast.toNat + 1)) flashInfo
        (flashFillSectRanges addrLast flashInfo addrFirst).ranges := by
  induction flashInfo generalizing addrFirst with
  | nil => exact hwalks.elim
  | cons info rest ih =>
      have hlt := hwalks.lt hlaid
      have hle : addrFirst ≤ addrLast := UInt32.le_iff_toNat_le.mpr (by omega)
      have hl := fun hknown => hlaid.layout info List.mem_cons_self hknown
      have htop' := fun h => (List.pairwise_cons.mp (htop h)).2
      have hcases := fillStep_cases hl hle
      rw [flashFillSectRanges, if_neg (not_not.mpr hle)]
      rcases hwalks with ⟨hknown, hat, hgo⟩ | hrest
      · have hcovers := hat.covers (hl hknown)
        have hselect : (¬ info.SectorEnd (addrLast.toNat + 1) →
            info.next < addrLast.toNat + 1) := by
          intro hend
          rcases hgo with ⟨-, h⟩ | ⟨h, -⟩
          · exact absurd h hend
          · exact h
        rcases hcases with ⟨r, -, -, ⟨-, hend, hnext⟩ | ⟨hnot, -⟩⟩ | ⟨-, hnot⟩ |
          ⟨r, next, hstep, -, -, hr, hsel, hnext⟩
        · exact absurd (hselect hend) hnext
        · exact absurd hat hnot
        · exact absurd hat (hnot hknown).1
        rw [hstep]
        dsimp only
        rcases hnext with ⟨hend, hnext⟩ | ⟨hend, hlast, hnext⟩
        · -- the range ends in this bank
          have hall : ∀ x, addrFirst.toNat ≤ x → x < addrLast.toNat + 1 → info.Covers x :=
            fun x hx hxz => hcovers.between (hend.covers (hl hknown)).2 hx (by omega)
          have hnone := fun other (hmem : other ∈ rest) =>
            hlaid.rest_not_meets hknown hall hmem
          have hlater : flashFillSectRanges addrLast rest next =
              ⟨0, rest.map fun _ => noSectors, 0⟩ := by
            by_cases hfull : addrLast.toNat + 1 = 2 ^ 32
            · rw [hfull] at hnext
              have hzero := (List.pairwise_cons.mp (htop hfull)).1
              obtain ⟨j, hj, hj'⟩ := hend
              have hnext' : info.next = 2 ^ 32 := by
                have := FlashInfo.sectorNext_le_next (hl hknown) hj
                have := (hl hknown).top
                omega
              refine fill_pass hlaid.tail fun other hmem hknown' => ⟨fun hcov => ?_, ?_⟩
              · rw [hnext, Nat.mod_self] at hcov
                exact hzero other hmem hknown hnext' hknown' (Nat.le_zero.mp hcov.1)
              · intro hend'
                have hl' := hlaid.layout other (List.mem_cons_of_mem _ hmem) hknown'
                obtain ⟨-, hcov⟩ := hend'.covers hl'
                exact hlaid.head_apart hmem hknown hknown' (hall _ (by omega) (by omega)) hcov
            · refine fill_done fun hle' => ?_
              have hlt' := addrLast.toNat_lt
              have := UInt32.le_iff_toNat_le.mp hle'
              omega
          rw [hlater]
          refine ⟨rfl, by dsimp only; omega, List.Forall₂.cons hsel ?_⟩
          rw [List.forall₂_map_right_iff]
          refine List.forall₂_same.mpr fun other hmem => ?_
          exact selects_none (hlaid.layout other (List.mem_cons_of_mem _ hmem))
            (hnone other hmem)
        · have hrest : Walks rest next.toNat (addrLast.toNat + 1) := by
            rw [hnext]
            exact (hgo.resolve_left fun h => hend h.2).2
          obtain ⟨hrcode, -, hranges⟩ := ih hlaid.tail htop' hrest
          have hcount : 0 ≤ (flashFillSectRanges addrLast rest next).count :=
            fill_count_nonneg hlaid.tail
          rw [hnext] at hranges
          refine ⟨hrcode, by omega, List.Forall₂.cons hsel ?_⟩
          have hmem := (List.forall₂_and_left _ _).mpr ⟨fun other hmem => hmem, hranges⟩
          exact hmem.imp fun other r h => selects_next hlaid hknown hcovers h.1 h.2
      · -- later banks make up the range, which this one has no address in
        have hnot := (hrest.whole hlaid.tail).not_meets hlaid
        have hstep : info.fillStep addrFirst addrLast = .pass noSectors := by
          have hcov : info.known = true → ¬ info.Covers addrFirst.toNat :=
            fun hknown hcov => hnot ⟨hknown, _, le_rfl, hlt, hcov⟩
          have hend : info.known = true → ¬ info.SectorEnd (addrLast.toNat + 1) :=
            fun hknown h => hnot ⟨hknown, _, by omega, by omega, (h.covers (hl hknown)).2⟩
          rcases hcases with ⟨r, -, hknown, ⟨hat, -⟩ | ⟨-, h | h⟩⟩ | ⟨hstep, -⟩ |
            ⟨r, next, -, hknown, hat, -⟩
          · exact absurd (hat.covers (hl hknown)) (hcov hknown)
          · exact absurd h (hcov hknown)
          · exact absurd h (hend hknown)
          · exact hstep
          · exact absurd (hat.covers (hl hknown)) (hcov hknown)
        obtain ⟨hrcode, hcount, hranges⟩ := ih hlaid.tail htop' hrest
        rw [hstep]
        exact ⟨hrcode, hcount, List.Forall₂.cons (selects_none hl hnot) hranges⟩

/-- Nothing is selected where no bank has to do with the ends of the range. -/
theorem fill_none (hlaid : LaidOut flashInfo) (hle : addrFirst ≤ addrLast)
    (hrcode : (flashFillSectRanges addrLast flashInfo addrFirst).rcode = 0)
    (hcount : (flashFillSectRanges addrLast flashInfo addrFirst).count = 0) :
    ∀ info ∈ flashInfo, info.known = true → ¬ info.SectorAt addrFirst.toNat ∧
      ¬ info.SectorEnd (addrLast.toNat + 1) := by
  induction flashInfo with
  | nil => exact fun info hmem => absurd hmem List.not_mem_nil
  | cons info rest ih =>
      rw [flashFillSectRanges, if_neg (not_not.mpr hle)] at hrcode hcount
      rcases fillStep_cases (fun h => hlaid.layout info List.mem_cons_self h) hle with
        ⟨r, hstep, -⟩ | ⟨hstep, hpass⟩ | ⟨r, next, hstep, -, -, hr, -⟩
      · rw [hstep] at hrcode
        exact absurd hrcode one_ne_zero
      · rw [hstep] at hrcode hcount
        exact List.forall_mem_cons.mpr ⟨hpass, ih hlaid.tail hrcode hcount⟩
      · have hlater : 0 ≤ (flashFillSectRanges addrLast rest next).count :=
          fill_count_nonneg hlaid.tail
        rw [hstep] at hcount
        dsimp only at hcount
        omega

/-- A walk that stops at the end of a bank, before the range ends. -/
structure Stops (flashInfo : List FlashInfo) (a z : ℕ) (pre : List FlashInfo)
    (info : FlashInfo) (post : List FlashInfo) : Prop where
  split : flashInfo = pre ++ info :: post
  known : info.known = true
  short : info.next < z
  walks : Walks (pre ++ [info]) a info.next
  ended : ∀ other ∈ flashInfo, other.known = true → ¬ other.SectorEnd z
  alone : ∀ other ∈ post, other.known = true → other.first ≠ info.next

/-- Sectors are selected along a walk, or along one that stops. -/
theorem walks_of_fill (hlaid : LaidOut flashInfo)
    (hrcode : (flashFillSectRanges addrLast flashInfo addrFirst).rcode = 0)
    (hcount : (flashFillSectRanges addrLast flashInfo addrFirst).count ≠ 0) :
    Walks flashInfo addrFirst.toNat (addrLast.toNat + 1) ∨
      ∃ pre info post, Stops flashInfo addrFirst.toNat (addrLast.toNat + 1) pre info post := by
  induction flashInfo generalizing addrFirst with
  | nil => exact absurd rfl hcount
  | cons info rest ih =>
      have hle : addrFirst ≤ addrLast := by
        by_contra hle
        rw [fill_done hle] at hcount
        exact hcount rfl
      have hl := fun hknown => hlaid.layout info List.mem_cons_self hknown
      rw [flashFillSectRanges, if_neg (not_not.mpr hle)] at hrcode hcount
      rcases fillStep_cases hl hle with ⟨r, hstep, -⟩ | ⟨hstep, hpass⟩ |
        ⟨r, next, hstep, hknown, hat, hr, -, ⟨hend, -⟩ | ⟨hend, hlast, hnext⟩⟩
      · rw [hstep] at hrcode
        exact absurd hrcode one_ne_zero
      · rw [hstep] at hrcode hcount
        rcases ih hlaid.tail hrcode hcount with hwalks | ⟨pre, bank, post, hstops⟩
        · exact Or.inl (Or.inr hwalks)
        · refine Or.inr ⟨info :: pre, bank, post, ?_⟩
          exact
            { split := congrArg (info :: ·) hstops.split
              known := hstops.known
              short := hstops.short
              walks := Or.inr hstops.walks
              ended := List.forall_mem_cons.mpr ⟨fun h => (hpass h).2, hstops.ended⟩
              alone := hstops.alone }
      · have hlt := UInt32.le_iff_toNat_le.mp hle
        exact Or.inl (Or.inl ⟨hknown, hat, Or.inl ⟨by omega, hend⟩⟩)
      · rw [hstep] at hrcode hcount
        by_cases hnone : (flashFillSectRanges addrLast rest next).count = 0
        · -- no later bank goes on
          have hle' : next ≤ addrLast := UInt32.le_iff_toNat_le.mpr (by omega)
          have hlater := fill_none hlaid.tail hle' hrcode hnone
          refine Or.inr ⟨[], info, rest, ?_⟩
          exact
            { split := rfl
              known := hknown
              short := hlast
              walks := Or.inl ⟨hknown, hat, Or.inl ⟨(hat.covers (hl hknown)).2,
                FlashInfo.sectorEnd_next (hl hknown)⟩⟩
              ended := List.forall_mem_cons.mpr
                ⟨fun _ => hend, fun other hmem h => (hlater other hmem h).2⟩
              alone := by
                intro other hmem hknown' hfirst
                have hl' := hlaid.layout other (List.mem_cons_of_mem _ hmem) hknown'
                refine (hlater other hmem hknown').1 ⟨0, hl'.count_pos, ?_⟩
                rw [hnext]
                exact hfirst }
        · rcases ih hlaid.tail hrcode hnone with hwalks | ⟨pre, bank, post, hstops⟩
          · rw [hnext] at hwalks
            exact Or.inl (Or.inl ⟨hknown, hat, Or.inr ⟨hlast, hwalks⟩⟩)
          · refine Or.inr ⟨info :: pre, bank, post, ?_⟩
            have hwalks := hstops.walks
            rw [hnext] at hwalks
            have hbefore : LaidOut (pre ++ [bank]) := by
              have htail := hlaid.tail
              rw [hstops.split, List.append_cons] at htail
              exact ⟨fun other hmem => htail.layout other (List.mem_append_left _ hmem),
                (List.pairwise_append.mp htail.apart).1⟩
            exact
              { split := congrArg (info :: ·) hstops.split
                known := hstops.known
                short := hstops.short
                walks := Or.inl ⟨hknown, hat, Or.inr ⟨hwalks.lt hbefore, hwalks⟩⟩
                ended := List.forall_mem_cons.mpr ⟨fun _ => hend, hstops.ended⟩
                alone := hstops.alone }

end Fill

/-! ## What is acted on -/

section Act

variable {flashInfo : List FlashInfo} {addrFirst addrLast : UInt32}

/-- The calls of `flash_erase` are for ranges with sectors, and for all of them if each
call succeeds. -/
theorem eraseRanges_calls (flashErase : List (FlashInfo × SectRange) → ℤ)
    (todo calls : List (FlashInfo × SectRange)) :
    (∀ call ∈ (eraseRanges flashErase todo calls).2,
      call ∈ calls ∨ call ∈ todo ∧ 0 ≤ call.2.first) ∧
    ((eraseRanges flashErase todo calls).1 = 0 →
      ∀ call, call ∈ calls ∨ call ∈ todo ∧ 0 ≤ call.2.first →
        call ∈ (eraseRanges flashErase todo calls).2) := by
  induction todo generalizing calls with
  | nil =>
      refine ⟨fun call hmem => Or.inl hmem, fun _ call hor => ?_⟩
      rcases hor with hmem | ⟨hmem, -⟩
      · exact hmem
      · exact absurd hmem List.not_mem_nil
  | cons range todo ih =>
      obtain ⟨info, r⟩ := range
      rw [eraseRanges]
      by_cases hfirst : 0 ≤ r.first
      · rw [if_pos hfirst]
        dsimp only
        obtain ⟨hmade, hall⟩ := ih (calls ++ [(info, r)])
        by_cases herase : flashErase (calls ++ [(info, r)]) = 0
        · rw [if_pos herase]
          refine ⟨fun call hmem => ?_, fun hret call hor => hall hret call ?_⟩
          · rcases hmade call hmem with hcall | ⟨hcall, hpos⟩
            · rcases List.mem_append.mp hcall with hcall | hcall
              · exact Or.inl hcall
              · obtain rfl := List.mem_singleton.mp hcall
                exact Or.inr ⟨List.mem_cons_self, hfirst⟩
            · exact Or.inr ⟨List.mem_cons_of_mem _ hcall, hpos⟩
          · rcases hor with hcall | ⟨hcall, hpos⟩
            · exact Or.inl (List.mem_append_left _ hcall)
            · rcases List.mem_cons.mp hcall with rfl | hcall
              · exact Or.inl (List.mem_append_right _ List.mem_cons_self)
              · exact Or.inr ⟨hcall, hpos⟩
        · rw [if_neg herase]
          refine ⟨fun call hmem => ?_, fun hret => absurd hret herase⟩
          rcases List.mem_append.mp hmem with hcall | hcall
          · exact Or.inl hcall
          · obtain rfl := List.mem_singleton.mp hcall
            exact Or.inr ⟨List.mem_cons_self, hfirst⟩
      · rw [if_neg hfirst]
        obtain ⟨hmade, hall⟩ := ih calls
        refine ⟨fun call hmem => (hmade call hmem).imp_right fun h =>
          ⟨List.mem_cons_of_mem _ h.1, h.2⟩, fun hret call hor => hall hret call ?_⟩
        refine hor.imp_right fun h => ⟨?_, h.2⟩
        rcases List.mem_cons.mp h.1 with rfl | hcall
        · exact absurd h.2 hfirst
        · exact hcall

theorem protectSectors_calls (flashRealProtect : List (FlashInfo × ℤ) → ℤ)
    (todo : List (FlashInfo × ℤ)) (rcode : ℤ) (calls : List (FlashInfo × ℤ)) :
    (protectSectors flashRealProtect todo rcode calls).2 = calls ++ todo := by
  induction todo generalizing rcode calls with
  | nil => exact (List.append_nil _).symm
  | cons sector todo ih =>
      rw [protectSectors, ih, List.append_assoc]
      rfl

theorem mem_sectorsToProtect {info other : FlashInfo} {r : SectRange} {i : ℤ} :
    (other, i) ∈ sectorsToProtect (info, r) ↔
      other = info ∧ info.known = true ∧ r.Has i := by
  unfold sectorsToProtect SectRange.Has
  rw [known_iff]
  dsimp only
  split_ifs with h
  · simp only [List.mem_map, List.mem_range, Prod.mk.injEq]
    constructor
    · rintro ⟨k, hk, rfl, rfl⟩
      exact ⟨rfl, h.1, by omega⟩
    · rintro ⟨rfl, -, hpos, hlow, hhigh⟩
      exact ⟨(i - r.first).toNat, by omega, rfl, by omega⟩
  · refine iff_of_false List.not_mem_nil fun hin => h ?_
    exact ⟨hin.2.1, hin.2.2.1, hin.2.2.2.1.trans hin.2.2.2.2⟩

/-- A bank of a table and what is selected of it. -/
theorem exists_mem_zip {a z : ℕ} {ranges : List SectRange}
    (h : List.Forall₂ (Selects a z) flashInfo ranges) {info : FlashInfo}
    (hmem : info ∈ flashInfo) : ∃ r, (info, r) ∈ flashInfo.zip ranges ∧ Selects a z info r := by
  induction h with
  | nil => exact absurd hmem List.not_mem_nil
  | cons hsel _ ih =>
      rcases List.mem_cons.mp hmem with rfl | hmem
      · exact ⟨_, List.mem_cons_self, hsel⟩
      · obtain ⟨r, hr, hsel'⟩ := ih hmem
        exact ⟨r, List.mem_cons_of_mem _ hr, hsel'⟩

/-- A selected sector is one inside the range. -/
theorem sectorIn_of_has {a z : ℕ} {info : FlashInfo} {r : SectRange} (h : Selects a z info r)
    {i : ℤ} (hi : r.Has i) : 0 ≤ i ∧ info.SectorIn a z i.toNat := by
  have hpos : 0 ≤ i := hi.1.trans hi.2.1
  refine ⟨hpos, (h i.toNat).mp ?_⟩
  rwa [Int.toNat_of_nonneg hpos]

/-- What `flash_sect_erase` and `flash_sect_protect` make of ranges that were filled in. -/
theorem flashSectErase_actsOn (flashErase : List (FlashInfo × SectRange) → ℤ)
    (hfills : (flashFillSectRanges addrLast flashInfo addrFirst).rcode = 0 →
      (flashFillSectRanges addrLast flashInfo addrFirst).count ≠ 0 →
      WholeSectors flashInfo addrFirst.toNat (addrLast.toNat + 1) ∧
        List.Forall₂ (Selects addrFirst.toNat (addrLast.toNat + 1)) flashInfo
          (flashFillSectRanges addrLast flashInfo addrFirst).ranges) :
    let (ret, calls) := flashSectErase flashInfo flashErase addrFirst addrLast
    ActsOn addrFirst.toNat (addrLast.toNat + 1) ret
      fun info i => ∃ r, (info, r) ∈ calls ∧ r.first ≤ i ∧ i ≤ r.last := by
  unfold flashSectErase
  dsimp only
  by_cases hplanned : (flashFillSectRanges addrLast flashInfo addrFirst).count ≠ 0 ∧
      (flashFillSectRanges addrLast flashInfo addrFirst).rcode = 0
  · obtain ⟨hwhole, hranges⟩ := hfills hplanned.2 hplanned.1
    rw [if_pos hplanned]
    obtain ⟨hmade, hall⟩ := eraseRanges_calls flashErase
      (flashInfo.zip (flashFillSectRanges addrLast flashInfo addrFirst).ranges) []
    constructor
    · rintro info i ⟨r, hmem, hlow, hhigh⟩
      obtain ⟨hzip, hpos⟩ := (hmade _ hmem).resolve_left List.not_mem_nil
      exact sectorIn_of_has ((List.forall₂_iff_zip.mp hranges).2 hzip) ⟨hpos, hlow, hhigh⟩
    · intro hret x hle hlt
      obtain ⟨info, hmem, i, hin, hx⟩ := hwhole x hle hlt
      obtain ⟨r, hzip, hsel⟩ := exists_mem_zip hranges hmem
      obtain ⟨hpos, hlow, hhigh⟩ := (hsel i).mpr hin
      exact ⟨info, i, ⟨r, hall hret _ (Or.inr ⟨hzip, hpos⟩), hlow, hhigh⟩, hx⟩
  · rw [if_neg hplanned]
    split_ifs with hrcode
    · exact ⟨fun _ _ ⟨_, hmem, _⟩ => absurd hmem List.not_mem_nil, nofun⟩
    · exact ⟨fun _ _ ⟨_, hmem, _⟩ => absurd hmem List.not_mem_nil,
        fun hret => absurd hret hrcode⟩

theorem flashSectProtect_actsOn (flashRealProtect : List (FlashInfo × ℤ) → ℤ)
    (hfills : (flashFillSectRanges addrLast flashInfo addrFirst).rcode = 0 →
      (flashFillSectRanges addrLast flashInfo addrFirst).count ≠ 0 →
      WholeSectors flashInfo addrFirst.toNat (addrLast.toNat + 1) ∧
        List.Forall₂ (Selects addrFirst.toNat (addrLast.toNat + 1)) flashInfo
          (flashFillSectRanges addrLast flashInfo addrFirst).ranges) :
    let (ret, calls) := flashSectProtect flashInfo flashRealProtect addrFirst addrLast
    ActsOn addrFirst.toNat (addrLast.toNat + 1) ret fun info i => (info, i) ∈ calls := by
  unfold flashSectProtect
  dsimp only
  by_cases hplanned : (flashFillSectRanges addrLast flashInfo addrFirst).count ≠ 0 ∧
      (flashFillSectRanges addrLast flashInfo addrFirst).rcode = 0
  · obtain ⟨hwhole, hranges⟩ := hfills hplanned.2 hplanned.1
    rw [if_pos hplanned, protectSectors_calls, List.nil_append]
    constructor
    · intro info i hmem
      obtain ⟨⟨other, r⟩, hzip, hsector⟩ := List.mem_flatMap.mp hmem
      obtain ⟨rfl, -, hhas⟩ := mem_sectorsToProtect.mp hsector
      exact sectorIn_of_has ((List.forall₂_iff_zip.mp hranges).2 hzip) hhas
    · intro _ x hle hlt
      obtain ⟨info, hmem, i, hin, hx⟩ := hwhole x hle hlt
      obtain ⟨r, hzip, hsel⟩ := exists_mem_zip hranges hmem
      exact ⟨info, i, List.mem_flatMap.mpr ⟨_, hzip,
        mem_sectorsToProtect.mpr ⟨rfl, hin.1, (hsel i).mpr hin⟩⟩, hx⟩
  · rw [if_neg hplanned]
    split_ifs with hrcode
    · exact ⟨fun _ _ hmem => absurd hmem List.not_mem_nil, nofun⟩
    · exact ⟨fun _ _ hmem => absurd hmem List.not_mem_nil,
        fun hret => absurd hret hrcode⟩

end Act

/-! ## The ranges that are filled in -/

/-- A walk that stops is a range that runs on. -/
theorem Stops.runsOn {flashInfo : List FlashInfo} (hlaid : LaidOut flashInfo) {a z : ℕ}
    {pre : List FlashInfo} {info : FlashInfo} {post : List FlashInfo}
    (h : Stops flashInfo a z pre info post) : RunsOn flashInfo a z := by
  have hbefore : LaidOut (pre ++ [info]) := by
    rw [h.split, List.append_cons] at hlaid
    exact ⟨fun other hmem => hlaid.layout other (List.mem_append_left _ hmem),
      (List.pairwise_append.mp hlaid.apart).1⟩
  have hlt := h.walks.lt hbefore
  exact ⟨h.ended, pre, info, post, h.split, h.known, hlt, h.short,
    (walks_iff hbefore hlt).mp h.walks, h.alone⟩

/-- Ranges of sectors are filled in as they are to be, unless a range runs on behind a
bank, or ends at the top of the address space with a bank at address `0` later in the
table. -/
theorem flashFillSectRanges_fills (table : BankTable) (addrFirst addrLast : UInt32)
    (hle : addrFirst ≤ addrLast)
    (hrun : ¬ RunsOn table.flashInfo addrFirst.toNat (addrLast.toNat + 1))
    (htop : addrLast.toNat + 1 = 2 ^ 32 → TopLast table.flashInfo) :
    FillsRange table.flashInfo addrFirst addrLast := by
  have hlaid := table.laidOut
  have hlt : addrFirst.toNat < addrLast.toNat + 1 :=
    Nat.lt_succ_of_le (UInt32.le_iff_toNat_le.mp hle)
  have hwalks : (flashFillSectRanges addrLast table.flashInfo addrFirst).rcode = 0 →
      (flashFillSectRanges addrLast table.flashInfo addrFirst).count ≠ 0 →
      Walks table.flashInfo addrFirst.toNat (addrLast.toNat + 1) := by
    intro hrcode hcount
    rcases walks_of_fill hlaid hrcode hcount with hwalks | ⟨pre, info, post, hstops⟩
    · exact hwalks
    · exact absurd (hstops.runsOn hlaid) hrun
  have hfills := fun hrcode hcount =>
    And.intro ((hwalks hrcode hcount).whole hlaid)
      (fill_walks hlaid htop (hwalks hrcode hcount)).2.2
  exact
    { succeeds := by
        constructor
        · rintro ⟨hrcode, hcount⟩
          exact (walks_iff hlaid hlt).mp (hwalks hrcode hcount)
        · intro hwhole
          obtain ⟨hrcode, hcount, -⟩ :=
            fill_walks hlaid htop ((walks_iff hlaid hlt).mpr hwhole)
          exact ⟨hrcode, hcount⟩
      selects := fun hrcode hcount => (hfills hrcode hcount).2
      erases := fun flashErase => flashSectErase_actsOn flashErase hfills
      protects := fun flashRealProtect => flashSectProtect_actsOn flashRealProtect hfills }

/-- The sector of the first bank. -/
theorem flashFillSectRanges_fills_sector : FillsRange reversedBanks.flashInfo 0x1000 0x1fff :=
  flashFillSectRanges_fills reversedBanks 0x1000 0x1fff (by decide)
    (fun h => h.1 (oneSector 0x1000) List.mem_cons_self rfl ⟨0, by decide, by decide⟩)
    (fun h => absurd h (by decide))

/-- Two sectors next to each other are refused if their banks are in reverse order. -/
theorem reversedBanks_not_filled :
    ¬ ((flashFillSectRanges 0x1fff reversedBanks.flashInfo 0).rcode = 0 ∧
        (flashFillSectRanges 0x1fff reversedBanks.flashInfo 0).count ≠ 0 ↔
      WholeSectors reversedBanks.flashInfo 0 0x2000) := by
  intro h
  have hwhole : WholeSectors reversedBanks.flashInfo 0 0x2000 := by
    intro x _ hlt
    by_cases hx : x < 0x1000
    · exact ⟨oneSector 0, by simp [reversedBanks], 0, ⟨rfl, by decide, le_rfl, by decide⟩,
        Nat.zero_le x, hx⟩
    · exact ⟨oneSector 0x1000, by simp [reversedBanks], 0, ⟨rfl, by decide, by decide,
        le_rfl⟩, not_lt.mp hx, hlt⟩
  exact absurd (h.mpr hwhole).1 (by decide)

end TateFirmware.Flash
