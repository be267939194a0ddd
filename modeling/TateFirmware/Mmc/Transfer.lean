import TateFirmware.Mmc.Exchange
import TateFirmware.LibGeneric.CString

/-!
# Writing and erasing sectors

The loops of `omap_mmc_write_sect` and `omap_mmc_erase_sect`, and the commands
built on them.
-/

namespace TateFirmware.Mmc

open Support LibGeneric

/-! ## Writing -/

/-- The loop of `omap_mmc_write_sect`. -/
def omapMmcWriteSectLoop (slot : Slot) (secInc : ℕ) (inputBuf : Memory UInt8)
    (argument numSec : ℕ) (h : Host) : ℕ × Host :=
  if _hne : numSec = 0 then (1, h)
  else
    match hb : writeBurst slot inputBuf argument numSec h with
    | .ret err h => (err, h)
    | .wrote count h' =>
        omapMmcWriteSectLoop slot secInc
          (inputBuf.shift (mmcsdSectorSize * count))
          ((argument + secInc * count) % 2 ^ 32)
          (numSecLeft numSec count) h'
termination_by h.reports.budget numSec
decreasing_by exact writeBurst_budget _hne hb

section Loop

variable {slot : Slot} {secInc argument numSec : ℕ} {inputBuf : Memory UInt8}
  {h : Host}

@[simp] theorem omapMmcWriteSectLoop_zero :
    omapMmcWriteSectLoop slot secInc inputBuf argument 0 h = (1, h) := by
  rw [omapMmcWriteSectLoop, dif_pos rfl]

theorem omapMmcWriteSectLoop_of_ret {err : ℕ} {h' : Host} (hne : numSec ≠ 0)
    (hb : writeBurst slot inputBuf argument numSec h = .ret err h') :
    omapMmcWriteSectLoop slot secInc inputBuf argument numSec h =
      (err, h') := by
  rw [omapMmcWriteSectLoop, dif_neg hne, hb]

theorem omapMmcWriteSectLoop_of_wrote {count : ℕ} {h' : Host}
    (hne : numSec ≠ 0)
    (hb : writeBurst slot inputBuf argument numSec h = .wrote count h') :
    omapMmcWriteSectLoop slot secInc inputBuf argument numSec h =
      omapMmcWriteSectLoop slot secInc
        (inputBuf.shift (mmcsdSectorSize * count))
        ((argument + secInc * count) % 2 ^ 32)
        (numSecLeft numSec count) h' := by
  rw [omapMmcWriteSectLoop, dif_neg hne, hb]

end Loop

/-- `omap_mmc_write_sect`. -/
def omapMmcWriteSect (slot : Slot) (inputBuf : Memory UInt8)
    (numBytes startSec : ℕ) (h : Host) : ℕ × Host :=
  let mode := (h.curCardData slot).mode
  if numSecVal numBytes = 0 then (1, h)
  else
    omapMmcWriteSectLoop slot (secIncVal mode) inputBuf
      (sectorArgument mode startSec) (numSecVal numBytes) h

/-- `mmc_write(mmc_cont, src, dst, size)`. -/
def mmcWrite (slot : Slot) (src : Memory UInt8) (dst size : ℕ) (h : Host) :
    ℕ × Host :=
  if h.dev slot then omapMmcWriteSect slot src size dst h else (1, h)

theorem omapMmcWriteSectLoop_follows (slot : Slot) (secInc : ℕ)
    (inputBuf : Memory UInt8) (argument numSec : ℕ) (h : Host) :
    Follows h
      (omapMmcWriteSectLoop slot secInc inputBuf argument numSec h).1
      (omapMmcWriteSectLoop slot secInc inputBuf argument numSec h).2
      (loopExchange numSec h.reports) := by
  induction inputBuf, argument, numSec, h using
    omapMmcWriteSectLoop.induct slot secInc with
  | case1 inputBuf argument h =>
      exact ⟨by simp, by simp, by simp⟩
  | case2 inputBuf argument numSec h hne err h' hb =>
      have hfollows :=
        writeBurst_follows slot inputBuf argument hne h
      rw [omapMmcWriteSectLoop_of_ret hne hb]
      rw [hb] at hfollows
      cases hexchange : burstExchange numSec h.reports with
      | ret e =>
          rw [hexchange] at hfollows
          rw [loopExchange_of_ret hne hexchange]
          exact hfollows
      | wrote count errors reports =>
          rw [hexchange] at hfollows
          exact hfollows.elim
  | case3 inputBuf argument numSec h hne count h' hb ih =>
      have hfollows :=
        writeBurst_follows slot inputBuf argument hne h
      rw [omapMmcWriteSectLoop_of_wrote hne hb]
      rw [hb] at hfollows
      cases hexchange : burstExchange numSec h.reports with
      | ret e =>
          rw [hexchange] at hfollows
          exact hfollows.elim
      | wrote count' errors reports =>
          rw [hexchange] at hfollows
          obtain ⟨rfl, herrors, rfl⟩ := hfollows
          obtain ⟨hret, herrors', hreports⟩ := ih
          rw [loopExchange_of_wrote hne hexchange]
          refine ⟨?_, ?_, ?_⟩
          · rw [hret, Exchange.after_ret]
          · rw [herrors', herrors, List.append_assoc, Exchange.after_errors]
          · rw [hreports, Exchange.after_reports]

/-- The exchange of `mmc_write`. -/
theorem mmcWrite_follows {slot : Slot} {h : Host} (hdev : h.dev slot = true)
    (src : Memory UInt8) (dst size : ℕ) :
    Follows h (mmcWrite slot src dst size h).1 (mmcWrite slot src dst size h).2
      (loopExchange (numSecVal size) h.reports) := by
  rw [mmcWrite, if_pos hdev]
  unfold omapMmcWriteSect
  dsimp only
  split
  · rename_i hzero
    rw [hzero]
    exact ⟨by simp, by simp, by simp⟩
  · exact omapMmcWriteSectLoop_follows _ _ _ _ _ _

/-! ### What a write leaves alone -/

/-- Two hosts with the same cards. -/
structure SameCards (h h' : Host) : Prop where
  curCardData_eq : h'.curCardData = h.curCardData
  dev_eq : h'.dev = h.dev
  initReports_eq : h'.initReports = h.initReports

theorem SameCards.refl (h : Host) : SameCards h h := ⟨rfl, rfl, rfl⟩

theorem SameCards.trans {h h' h'' : Host} (a : SameCards h h')
    (b : SameCards h' h'') : SameCards h h'' :=
  ⟨b.1.trans a.1, b.2.trans a.2, b.3.trans a.3⟩

theorem openBurst_sameCards (blkCnt argument : ℕ) (h : Host) :
    SameCards h (openBurst blkCnt argument h).2 := by
  unfold openBurst
  split
  · dsimp only
    split
    · exact ⟨by simp, by simp, by simp⟩
    · exact ⟨by simp, by simp, by simp⟩
  · exact ⟨by simp, by simp, by simp⟩

theorem writeBurst_sameCards (slot : Slot) (inputBuf : Memory UInt8)
    (argument numSec : ℕ) (h : Host) :
    match writeBurst slot inputBuf argument numSec h with
    | .ret _ h' => SameCards h h'
    | .wrote _ h' => SameCards h h' := by
  have hopen := openBurst_sameCards (blkCntCurrentTns numSec) argument h
  unfold writeBurst
  dsimp only
  generalize openBurst (blkCntCurrentTns numSec) argument h = opened at *
  by_cases hok : opened.1 ≠ 1
  · simp only [if_pos hok]
    exact hopen
  · simp only [if_neg hok]
    have hwrite : SameCards h (mmcWriteData slot inputBuf opened.2).2 :=
      hopen.trans ⟨rfl, rfl, rfl⟩
    by_cases hneg : (mmcWriteData slot inputBuf opened.2).1 < 0
    · simp only [if_pos hneg]
      exact hwrite
    · simp only [if_neg hneg]
      exact hwrite

theorem omapMmcWriteSectLoop_sameCards (slot : Slot) (secInc : ℕ)
    (inputBuf : Memory UInt8) (argument numSec : ℕ) (h : Host) :
    SameCards h
      (omapMmcWriteSectLoop slot secInc inputBuf argument numSec h).2 := by
  induction inputBuf, argument, numSec, h using
    omapMmcWriteSectLoop.induct slot secInc with
  | case1 inputBuf argument h =>
      rw [omapMmcWriteSectLoop_zero]
      exact SameCards.refl h
  | case2 inputBuf argument numSec h hne err h' hb =>
      have hsame := writeBurst_sameCards slot inputBuf argument numSec h
      rw [omapMmcWriteSectLoop_of_ret hne hb]
      rw [hb] at hsame
      exact hsame
  | case3 inputBuf argument numSec h hne count h' hb ih =>
      have hsame := writeBurst_sameCards slot inputBuf argument numSec h
      rw [omapMmcWriteSectLoop_of_wrote hne hb]
      rw [hb] at hsame
      exact hsame.trans ih

theorem mmcWrite_sameCards (slot : Slot) (src : Memory UInt8)
    (dst size : ℕ) (h : Host) :
    SameCards h (mmcWrite slot src dst size h).2 := by
  unfold mmcWrite omapMmcWriteSect
  split
  · dsimp only
    split
    · exact SameCards.refl h
    · exact omapMmcWriteSectLoop_sameCards _ _ _ _ _ _
  · exact SameCards.refl h

/-! ## Erasing -/

/-- The block `omap_mmc_erase_sect` pushes into the data register. -/
def erasedBlock : List UInt8 := List.replicate mmcsdSectorSize 0xFF

/-- One pass of the loop of `omap_mmc_erase_sect`. -/
def eraseBurst (slot : Slot) (argument numSec : ℕ) (h : Host) : Burst :=
  let blkCnt := blkCntCurrentTns numSec
  let (err, h) :=
    if 1 < blkCnt then mmcSendCmd .cmd25 argument { h with blk := blkCnt }
    else mmcSendCmd .cmd24 argument h
  if err ≠ 1 then .ret err h
  else
    let ((error, _), h) := transfer slot (fun _ => erasedBlock) h
    match error with
    | some stat => .ret (stat % 256) h
    | none =>
        if 1 < blkCnt then
          let (err, h) := mmcSendCmd .cmd12 0 h
          if err ≠ 1 then .ret err h else .wrote blkCnt h
        else .wrote blkCnt h

/-- The loop of `omap_mmc_erase_sect`, which counts the blocks it asked for
and not the blocks the controller took. -/
def omapMmcEraseSectLoop (slot : Slot) (secInc argument numSec : ℕ)
    (h : Host) : ℕ × Host :=
  if _hne : numSec = 0 then (1, h)
  else
    match eraseBurst slot argument numSec h with
    | .ret err h => (err, h)
    | .wrote _ h =>
        omapMmcEraseSectLoop slot secInc
          ((argument + secInc * blkCntCurrentTns numSec) % 2 ^ 32)
          (numSec - blkCntCurrentTns numSec) h
termination_by numSec
decreasing_by
  have := blkCntCurrentTns_pos _hne
  omega

/-- A 32-bit pattern read as an `int`. -/
def toInt (n : ℕ) : ℤ :=
  if n % 2 ^ 32 < 2 ^ 31 then (n % 2 ^ 32 : ℕ)
  else (n % 2 ^ 32 : ℕ) - 2 ^ 32

/-- `omap_mmc_erase_sect(start, .., int size)`.  The range check compares byte
offsets divided by the sector size with the size of the card in sectors; the
rounding up of `size` is signed. -/
def omapMmcEraseSect (slot : Slot) (start size : ℕ) (h : Host) : ℕ × Host :=
  let card := h.curCardData slot
  if card.size < start / mmcsdSectorSize ∨
      card.size < (start + size) % 2 ^ 32 / mmcsdSectorSize then (1, h)
  else
    let numSec := ((toInt (size + 511)).tdiv 512 % 2 ^ 32).toNat
    omapMmcEraseSectLoop slot (secIncVal card.mode)
      (sectorArgument card.mode start) numSec h

/-- `mmc_erase(mmc_cont, start, size)`. -/
def mmcErase (slot : Slot) (start size : ℕ) (h : Host) : ℕ × Host :=
  if h.dev slot then omapMmcEraseSect slot start size h else (1, h)

/-! ## The `mmc` command -/

/-- The controller number of a `mmc` or `mmcinit` command line. -/
def slotArg (arg : List UInt8) : Option Slot :=
  let n := (simpleStrtoul arg 16).1
  if h : n < 2 then some ⟨n, h⟩ else none

/-- `do_mmc` on `mmcinit <controller>`. -/
def doMmcInit (slotNo : List UInt8) (h : Host) : ℕ × Host :=
  match slotArg slotNo with
  | none => (1, h)
  | some slot =>
      let h := mmcInit slot h
      (0, { h with mmcFlag := Function.update h.mmcFlag slot true })

/-- `do_mmc` on `mmc <controller> erase <start> <length>`, which drops the
result of `mmc_erase`. -/
def doMmcErase (slotNo start length : List UInt8) (h : Host) : ℕ × Host :=
  match slotArg slotNo with
  | none => (1, h)
  | some slot =>
      if h.mmcFlag slot then
        (0, (mmcErase slot (simpleStrtoul start 16).1
          (simpleStrtoul length 16).1 h).2)
      else (1, h)

end TateFirmware.Mmc
