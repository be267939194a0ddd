import TateFirmware.Mmc.Sectors
import TateFirmware.Mmc.Erase

/-!
# The range check of an erase

`omap_mmc_erase_sect` is given a sector and a size in bytes.  Its check takes the
sector for a byte offset and so lets through requests that go far beyond the
card.  What is erased is the range of the request where the size does not
overflow and the sectors can be addressed.
-/

namespace TateFirmware.Mmc

open Support

/-- The sectors that `omap_mmc_erase_sect` counts, in a signed division. -/
def eraseNumSec (size : ℕ) : ℕ :=
  ((toInt (size + 511)).tdiv 512 % 2 ^ 32).toNat

/-- A byte size that does not overflow. -/
theorem eraseNumSec_eq {size : ℕ} (hsize : size + 511 < 2 ^ 31) :
    eraseNumSec size = sectorCount size := by
  have hint : toInt (size + 511) = ((size + 511 : ℕ) : ℤ) := by
    unfold toInt
    rw [Nat.mod_eq_of_lt (by omega), if_pos hsize]
  have hdiv : ((size + 511 : ℕ) : ℤ).tdiv 512 = ((size + 511) / 512 : ℕ) := by
    rw [Int.tdiv_eq_ediv_of_nonneg (by omega)]
    rfl
  unfold eraseNumSec sectorCount mmcsdSectorSize
  rw [hint, hdiv]
  omega

/-- A size that becomes negative gives more sectors than it has. -/
theorem lt_eraseNumSec {size : ℕ} (hoverflow : 2 ^ 31 ≤ size + 511)
    (hsize : size + 1022 < 2 ^ 32) : 2 ^ 31 < eraseNumSec size := by
  have hint : toInt (size + 511) = -((2 ^ 32 - (size + 511) : ℕ) : ℤ) := by
    unfold toInt
    rw [Nat.mod_eq_of_lt (by omega), if_neg (by omega)]
    omega
  have hdiv : (-((2 ^ 32 - (size + 511) : ℕ) : ℤ)).tdiv 512 =
      -(((2 ^ 32 - (size + 511)) / 512 : ℕ) : ℤ) := by
    rw [Int.neg_tdiv, Int.tdiv_eq_ediv_of_nonneg (by omega)]
    rfl
  unfold eraseNumSec
  rw [hint, hdiv]
  omega

/-- A size that is negative by less than a sector when rounded up, or wraps
around, gives no sectors. -/
theorem eraseNumSec_eq_zero {size : ℕ} (hwrap : 2 ^ 32 ≤ size + 1022)
    (hsize : size < 2 ^ 32) : eraseNumSec size = 0 := by
  have hint : -512 < toInt (size + 511) ∧ toInt (size + 511) < 512 := by
    unfold toInt
    split <;> omega
  have hdiv : (toInt (size + 511)).tdiv 512 = 0 := by
    rw [← Int.natAbs_eq_zero, Int.natAbs_tdiv]
    exact Nat.div_eq_of_lt (by omega)
  unfold eraseNumSec
  rw [hdiv]
  rfl

/-! ## What is stored -/

theorem ErasePass.disciplined {slot : Slot} {argument blocks : ℕ}
    {h h' : Host} (hpass : ErasePass slot argument blocks h h')
    (hdisc : h.Disciplined) : h'.Disciplined := by
  have htransfers : h'.transferReports = h.transferReports.tail :=
    congrArg Reports.transfers hpass.reports
  intro report hreport
  rw [htransfers] at hreport
  exact hdisc report (List.mem_of_mem_tail hreport)

/-- What a pass has stored that meets an error. -/
theorem eraseBurst_ret_written {slot : Slot} {argument numSec err : ℕ}
    {h h' : Host} (hne : numSec ≠ 0) (hdisc : h.Disciplined)
    (hb : eraseBurst slot argument numSec h = .ret err h') :
    ∃ count ≤ blkCntCurrentTns numSec, h'.written = h.written ++
      transferred slot (cardSector (h.curCardData slot).mode argument) count
        fun _ => erasedBlock := by
  obtain ⟨hblk, harg, hcards, hwritten, -, -, hreports⟩ :=
    openErase_spec argument (blkCntCurrentTns_pos hne) h
  have htransfers : (openErase argument (blkCntCurrentTns numSec)
      h).2.transferReports = h.transferReports :=
    congrArg Reports.transfers hreports
  rw [eraseBurst_eq] at hb
  generalize openErase argument (blkCntCurrentTns numSec) h = opened at *
  by_cases hopened : opened.1 ≠ 1
  · rw [if_pos hopened] at hb
    injection hb with _ hhost
    exact ⟨0, Nat.zero_le _, by rw [← hhost, hwritten]; simp [transferred]⟩
  · rw [if_neg hopened] at hb
    have hmoved : (transfer slot (fun _ => erasedBlock) opened.2).2.written =
        h.written ++ transferred slot
          (cardSector (h.curCardData slot).mode argument)
          (transfer slot (fun _ => erasedBlock) opened.2).1.2
            (fun _ => erasedBlock) := by
      rw [transfer, hwritten, harg, hcards.curCardData_eq]
    have hcount : (transfer slot (fun _ => erasedBlock) opened.2).1.2 ≤
        blkCntCurrentTns numSec := by
      rw [transfer, hblk, htransfers]
      exact writeDataPoll_le hdisc _
    generalize transfer slot (fun _ => erasedBlock) opened.2 = moved at *
    refine ⟨moved.1.2, hcount, ?_⟩
    rw [← hmoved]
    cases herror : moved.1.1 with
    | some stat =>
        rw [herror] at hb
        injection hb with _ hhost
        rw [← hhost]
    | none =>
        rw [herror] at hb
        rw [Option.elim_none] at hb
        split at hb
        · injection hb with _ hhost
          rw [← hhost, closeErase]
          split
          · simp
          · rfl
        · cases hb

/-- The transfer of a pass that ends without an error. -/
theorem eraseBurst_wrote_transferOk {slot : Slot} {argument numSec count : ℕ}
    {h h' : Host} (hne : numSec ≠ 0)
    (hb : eraseBurst slot argument numSec h = .wrote count h') :
    h.reports.transferOk (blkCntCurrentTns numSec) := by
  obtain ⟨hblk, -, -, -, -, -, hreports⟩ :=
    openErase_spec argument (blkCntCurrentTns_pos hne) h
  have htransfers : (openErase argument (blkCntCurrentTns numSec)
      h).2.transferReports = h.transferReports :=
    congrArg Reports.transfers hreports
  rw [eraseBurst_eq] at hb
  generalize openErase argument (blkCntCurrentTns numSec) h = opened at *
  by_cases hopened : opened.1 ≠ 1
  · rw [if_pos hopened] at hb
    cases hb
  · rw [if_neg hopened, transfer, hblk, htransfers] at hb
    unfold Reports.transferOk Host.reports
    dsimp only at hb ⊢
    cases herror : (writeDataPoll (blkCntCurrentTns numSec)
        ((h.transferReports.headD fun _ => []) (blkCntCurrentTns numSec))
        0).1 with
    | some stat =>
        rw [herror] at hb
        cases hb
    | none => rfl

/-- An erase stores sectors of its bursts in order, and all of them if it meets no
error. -/
theorem omapMmcEraseSectLoop_written (slot : Slot) (secInc argument numSec : ℕ)
    (h : Host) (hinc : secInc = secIncVal (h.curCardData slot).mode)
    (hcompletes : h.Completes) (hdisc : h.Disciplined) {s : ℕ}
    (hs : argument = sectorArgument (h.curCardData slot).mode s) :
    ∃ count ≤ numSec,
      (omapMmcEraseSectLoop slot secInc argument numSec h).2.written =
          h.written ++
            ((burstSectors (h.curCardData slot).mode s numSec).take count).map
              (fun sector => ⟨slot, sector, erasedBlock⟩) ∧
        (h.reports.EraseOk numSec → count = numSec) := by
  induction argument, numSec, h using
    omapMmcEraseSectLoop.induct slot secInc generalizing s with
  | case1 argument h =>
      exact ⟨0, le_rfl, by simp, fun _ => rfl⟩
  | case2 argument numSec h hne err h' hb =>
      have hspec := eraseBurst_spec slot argument h hne
      rw [hb] at hspec
      obtain ⟨count, hcount, hwritten⟩ := eraseBurst_ret_written hne hdisc hb
      refine ⟨count, hcount.trans (blkCntCurrentTns_le numSec).1, ?_, fun hok =>
        absurd ((Reports.eraseOk_of_ne hne).mp hok).1 hspec.1⟩
      rw [omapMmcEraseSectLoop_of_ret hne hb, hwritten, burstSectors_of_ne hne,
        List.take_append_of_le_length (by simpa using hcount), ← List.map_take,
        List.take_range, min_eq_left hcount, List.map_map, hs]
      rfl
  | case3 argument numSec h hne count h' hb ih =>
      have hspec := eraseBurst_spec slot argument h hne
      rw [hb] at hspec
      obtain ⟨-, hpass⟩ := hspec
      have hmode : h'.curCardData = h.curCardData :=
        hpass.sameCards.curCardData_eq
      have hnext : (argument + secInc * blkCntCurrentTns numSec) % 2 ^ 32 =
          sectorArgument (h'.curCardData slot).mode
            (s + blkCntCurrentTns numSec) := by
        rw [hmode, hs, hinc, sectorArgument_add]
      obtain ⟨rest, hrest, hrestWritten, hrestOk⟩ :=
        ih (by rw [hmode]; exact hinc) (hpass.completes hcompletes)
          (hpass.disciplined hdisc) hnext
      obtain ⟨moved, hwritten, hmoved⟩ := hpass.written
      have hle := (blkCntCurrentTns_le numSec).1
      -- The pass has met no error, so it has moved its blocks.
      have hfirst := eraseBurst_wrote_transferOk hne hb
      refine ⟨blkCntCurrentTns numSec + rest, by omega, ?_, fun hok => ?_⟩
      · have htake : (burstSectors (h.curCardData slot).mode s numSec).take
            (blkCntCurrentTns numSec + rest) =
            (List.range (blkCntCurrentTns numSec)).map (fun k =>
              cardSector (h.curCardData slot).mode argument + k) ++
            (burstSectors (h.curCardData slot).mode
              (s + blkCntCurrentTns numSec)
              (numSec - blkCntCurrentTns numSec)).take rest := by
          rw [burstSectors_of_ne hne, hs, List.take_append]
          simp
        rw [omapMmcEraseSectLoop_of_wrote hne hb, hrestWritten, hwritten,
          hmoved hcompletes hfirst, hmode, htake, List.map_append,
          List.map_map, List.append_assoc]
        rfl
      · have hlast := ((Reports.eraseOk_of_ne hne).mp hok).2
        rw [← hpass.reports] at hlast
        rw [hrestOk hlast]
        omega

/-! ## The contract -/

/-- On a card and every controller that takes the blocks it is told to, a request
is rejected unless it lies inside the card, and what is erased lies inside the card
and is the range of the request, up to an error that stops it. -/
def ErasesRequested (slot : Slot) (card : CardData) (start size : ℕ) : Prop :=
  ∀ h : Host, h.curCardData slot = card → h.Completes → h.Disciplined →
    (¬ start + sectorCount size ≤ card.size →
      (omapMmcEraseSect slot start size h).2 = h) ∧
    ((omapMmcEraseSect slot start size h).2 ≠ h →
      start + sectorCount size ≤ card.size ∧
        ∃ count ≤ sectorCount size,
          (omapMmcEraseSect slot start size h).2.written =
              h.written ++ transferred slot start count (fun _ => erasedBlock) ∧
            (h.reports.EraseOk (sectorCount size) → count = sectorCount size))

/-- The check of `omap_mmc_erase_sect` rejects the request. -/
def EraseRejected (cardSize start size : ℕ) : Prop :=
  cardSize < start / mmcsdSectorSize ∨
    cardSize < (start + size) % 2 ^ 32 / mmcsdSectorSize

instance (cardSize start size : ℕ) :
    Decidable (EraseRejected cardSize start size) :=
  inferInstanceAs (Decidable (_ ∨ _))

/-- The request lies inside the card, its size does not overflow, and each of its
bursts starts at a sector that can be addressed. -/
def EraseFits (card : CardData) (start size : ℕ) : Prop :=
  start + sectorCount size ≤ card.size ∧ size + 511 < 2 ^ 31 ∧
    lastBurst start (sectorCount size) < sectorLimit card.mode

theorem omapMmcEraseSect_of_rejected {slot : Slot} {start size : ℕ} {h : Host}
    (hrejected : EraseRejected (h.curCardData slot).size start size) :
    omapMmcEraseSect slot start size h = (1, h) :=
  if_pos hrejected

theorem omapMmcEraseSect_of_not_rejected {slot : Slot} {start size : ℕ}
    {h : Host} (hrejected : ¬ EraseRejected (h.curCardData slot).size start size) :
    omapMmcEraseSect slot start size h =
      omapMmcEraseSectLoop slot (secIncVal (h.curCardData slot).mode)
        (sectorArgument (h.curCardData slot).mode start) (eraseNumSec size) h :=
  if_neg hrejected

theorem transferred_erased (slot : Slot) (start count : ℕ) :
    transferred slot start count (fun _ => erasedBlock) =
      ((List.range count).map fun k => start + k).map
        fun sector => ⟨slot, sector, erasedBlock⟩ := by
  rw [transferred, List.map_map]
  rfl

/-- A controller without faults and a card. -/
def hostWith (card : CardData) : Host where
  curCardData := fun _ => card
  dev := fun _ => true
  mmcFlag := fun _ => true
  blk := 0
  arg := 0
  initReports := []
  commandReports := []
  transferReports := []
  written := []
  errors := []

theorem eraseOk_nil (numSec : ℕ) : (⟨[], []⟩ : Reports).EraseOk numSec := by
  induction numSec using Nat.strongRecOn with
  | ind numSec ih =>
      by_cases hne : numSec = 0
      · rw [hne]
        exact Reports.eraseOk_zero _
      · rw [Reports.eraseOk_of_ne hne]
        have hpos := blkCntCurrentTns_pos hne
        have hsame : (⟨[], []⟩ : Reports).afterErase
            (blkCntCurrentTns numSec) = ⟨[], []⟩ := by
          rw [Reports.afterErase]
          split <;> rfl
        rw [hsame]
        exact ⟨⟨rfl, rfl, fun _ => rfl⟩, ih _ (by omega)⟩

/-- What the erase of a controller without faults shows. -/
theorem eraseFits_of_erasesRequested {slot : Slot} {card : CardData}
    {start size : ℕ} (hsize : size + 1022 < 2 ^ 32) (hpos : size ≠ 0)
    (hrejected : ¬ EraseRejected card.size start size)
    (herases : ErasesRequested slot card start size) :
    EraseFits card start size := by
  have hcompletes : (hostWith card).Completes := fun report hreport => by
    cases hreport
  have hdisc : (hostWith card).Disciplined := fun report hreport => by
    cases hreport
  have hcard : (hostWith card).curCardData slot = card := rfl
  have hnone : (hostWith card).written = [] := rfl
  have hfine : ∀ n, (hostWith card).reports.EraseOk n := eraseOk_nil
  obtain ⟨-, haccept⟩ := herases (hostWith card) rfl hcompletes hdisc
  generalize hostWith card = h at *
  rw [← hcard] at hrejected
  rw [omapMmcEraseSect_of_not_rejected hrejected, hcard] at haccept
  obtain ⟨count, -, hwritten, hok⟩ := omapMmcEraseSectLoop_written slot
    (secIncVal card.mode) (sectorArgument card.mode start) (eraseNumSec size) h
    (by rw [hcard]) hcompletes hdisc (by rw [hcard])
  rw [hok (hfine _), hnone, hcard, List.nil_append,
    List.take_of_length_le (burstSectors_length ..).le] at hwritten
  have hsome : 0 < eraseNumSec size := by
    by_cases hsmall : size + 511 < 2 ^ 31
    · rw [eraseNumSec_eq hsmall]
      exact Nat.pos_of_ne_zero fun hnone =>
        hpos ((sectorCount_eq_zero size).mp hnone)
    · have := lt_eraseNumSec (not_lt.mp hsmall) hsize
      omega
  obtain ⟨hinside, moved, -, hrequested, hfull⟩ := haccept fun hsame => by
    rw [hsame, hnone] at hwritten
    have hlen := congrArg List.length hwritten
    rw [List.length_map, burstSectors_length] at hlen
    exact hsome.ne hlen
  have hinj : Function.Injective fun sector : ℕ =>
      (⟨slot, sector, erasedBlock⟩ : SectorWrite) := fun a b heq =>
    congrArg SectorWrite.sector heq
  rw [hfull (hfine _), hwritten, hnone, List.nil_append, transferred_erased,
    (List.map_injective_iff.mpr hinj).eq_iff] at hrequested
  have hlen := congrArg List.length hrequested
  rw [burstSectors_length, List.length_map, List.length_range] at hlen
  have hsmall : size + 511 < 2 ^ 31 := by
    by_contra hlarge
    have hlt := lt_eraseNumSec (not_lt.mp hlarge) hsize
    have hle : sectorCount size < 2 ^ 31 := by
      unfold sectorCount mmcsdSectorSize
      omega
    omega
  rw [hlen] at hrequested hsome
  exact ⟨hinside, hsmall,
    ((burstSectors_eq_iff ..).mp hrequested).resolve_left hsome.ne'⟩

/-- A request that fits is erased as requested. -/
theorem erasesRequested_of_fits {slot : Slot} {card : CardData}
    {start size : ℕ} (hfits : EraseFits card start size) :
    ErasesRequested slot card start size := by
  obtain ⟨hinside, hsmall, hlast⟩ := hfits
  intro h hcard hcompletes hdisc
  refine ⟨fun hout => absurd hinside hout, fun hchanged => ⟨hinside, ?_⟩⟩
  have hrejected : ¬ EraseRejected (h.curCardData slot).size start size :=
    fun hrejected => hchanged (by rw [omapMmcEraseSect_of_rejected hrejected])
  obtain ⟨count, hcount, hwritten, hok⟩ := omapMmcEraseSectLoop_written slot _
    (sectorArgument (h.curCardData slot).mode start) (eraseNumSec size) h rfl
    hcompletes hdisc rfl
  have hsectors := (burstSectors_eq_iff card.mode start
    (sectorCount size)).mpr (Or.inr hlast)
  rw [omapMmcEraseSect_of_not_rejected hrejected]
  rw [eraseNumSec_eq hsmall] at hcount hwritten hok ⊢
  refine ⟨count, hcount, ?_, hok⟩
  rw [hwritten, hcard, hsectors, transferred_erased, ← List.map_take,
    List.take_range, min_eq_left hcount]

/-- The erase is as requested exactly if the request is empty, rejected by the
check, or fits. -/
theorem erasesRequested_iff {slot : Slot} {card : CardData} {start size : ℕ}
    (hsize : size < 2 ^ 32) :
    ErasesRequested slot card start size ↔
      size = 0 ∨ 2 ^ 32 ≤ size + 1022 ∨ EraseRejected card.size start size ∨
        EraseFits card start size := by
  have hnothing : eraseNumSec size = 0 →
      ErasesRequested slot card start size := by
    intro hzero h hcard _ _
    have hsame : (omapMmcEraseSect slot start size h).2 = h := by
      by_cases hrejected : EraseRejected (h.curCardData slot).size start size
      · rw [omapMmcEraseSect_of_rejected hrejected]
      · rw [omapMmcEraseSect_of_not_rejected hrejected, hzero,
          omapMmcEraseSectLoop_zero]
    exact ⟨fun _ => hsame, fun hchanged => absurd hsame hchanged⟩
  by_cases hzero : size = 0
  · refine iff_of_true (hnothing ?_) (Or.inl hzero)
    rw [hzero]
    rfl
  · rw [or_iff_right hzero]
    by_cases hwrap : 2 ^ 32 ≤ size + 1022
    · exact iff_of_true (hnothing (eraseNumSec_eq_zero hwrap hsize))
        (Or.inl hwrap)
    · rw [or_iff_right hwrap]
      by_cases hrejected : EraseRejected card.size start size
      · refine iff_of_true (fun h hcard _ _ => ?_) (Or.inl hrejected)
        rw [← hcard] at hrejected
        rw [omapMmcEraseSect_of_rejected hrejected]
        exact ⟨fun _ => rfl, fun hchanged => absurd rfl hchanged⟩
      · rw [or_iff_right hrejected]
        exact ⟨eraseFits_of_erasesRequested (not_le.mp hwrap) hzero hrejected,
          erasesRequested_of_fits⟩

theorem erasesRequested_iff_card :
    512 < 2 ^ 32 ∧ (ErasesRequested 0 ⟨.sectorMode, 16⟩ 3 512 ↔
      512 = 0 ∨ 2 ^ 32 ≤ 512 + 1022 ∨ EraseRejected 16 3 512 ∨
        EraseFits ⟨.sectorMode, 16⟩ 3 512) :=
  ⟨by norm_num, erasesRequested_iff (by norm_num)⟩

/-- A sector behind the end of a card of sixteen is erased. -/
theorem not_erasesRequested : ¬ ErasesRequested 0 ⟨.sectorMode, 16⟩ 100 512 := by
  intro herases
  have hrejected : ¬ EraseRejected 16 100 512 := by decide
  obtain ⟨hinside, -⟩ := eraseFits_of_erasesRequested (by norm_num)
    (by norm_num) hrejected herases
  exact absurd hinside (by decide)

end TateFirmware.Mmc
