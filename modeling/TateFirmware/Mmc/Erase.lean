import TateFirmware.Mmc.Exchange
import TateFirmware.Mmc.Sectors

/-!
# Erasing sectors

What the loop of `omap_mmc_erase_sect` stores, and when it meets no error of
the controller.  The loop counts the blocks it asks for, so the sectors erased
are the right number if a transfer that completes has moved all blocks.
-/

namespace TateFirmware.Mmc

open Support

/-- A transfer that completes without an error has moved all blocks. -/
def Host.Completes (h : Host) : Prop :=
  ∀ report ∈ h.transferReports, ∀ n,
    (writeDataPoll n (report n) 0).1 = none →
      (writeDataPoll n (report n) 0).2 = n

/-- The next command is not answered with an error. -/
def Reports.commandOk (r : Reports) : Prop :=
  (sendCmdPoll (r.commands.headD [])).2 = none

/-- The next transfer, of `blocks` blocks, is not answered with an error. -/
def Reports.transferOk (r : Reports) (blocks : ℕ) : Prop :=
  (writeDataPoll blocks ((r.transfers.headD fun _ => []) blocks) 0).1 = none

/-- The reports behind one pass of the erase loop. -/
def Reports.afterErase (r : Reports) (blocks : ℕ) : Reports where
  commands := if 1 < blocks then r.commands.tail.tail else r.commands.tail
  transfers := r.transfers.tail

/-- The reports for one pass are free of errors: a command, a transfer, and for
more than one block the command that stops it. -/
def Reports.EraseBurstOk (r : Reports) (blocks : ℕ) : Prop :=
  r.commandOk ∧ r.transferOk blocks ∧
    (1 < blocks → (⟨r.commands.tail, r.transfers⟩ : Reports).commandOk)

/-- The reports that the erasing of `numSec` sectors uses up are free of
errors. -/
def Reports.EraseOk (r : Reports) (numSec : ℕ) : Prop :=
  if _hne : numSec = 0 then True
  else
    r.EraseBurstOk (blkCntCurrentTns numSec) ∧
      (r.afterErase (blkCntCurrentTns numSec)).EraseOk
        (numSec - blkCntCurrentTns numSec)
termination_by numSec
decreasing_by
  have := blkCntCurrentTns_pos _hne
  omega

@[simp] theorem Reports.eraseOk_zero (r : Reports) : r.EraseOk 0 := by
  rw [Reports.EraseOk, dif_pos rfl]
  trivial

theorem Reports.eraseOk_of_ne {r : Reports} {numSec : ℕ} (hne : numSec ≠ 0) :
    r.EraseOk numSec ↔ r.EraseBurstOk (blkCntCurrentTns numSec) ∧
      (r.afterErase (blkCntCurrentTns numSec)).EraseOk
        (numSec - blkCntCurrentTns numSec) := by
  rw [Reports.EraseOk, dif_neg hne]

/-! ## One pass -/

theorem sendCmdPoll_of_none {report : List ℕ}
    (h : (sendCmdPoll report).2 = none) : (sendCmdPoll report).1 = 1 := by
  induction report with
  | nil => rfl
  | cons stat rest ih =>
      rw [sendCmdPoll] at h ⊢
      split
      · rename_i hzero
        rw [if_pos hzero] at h
        exact ih h
      · rename_i hzero
        rw [if_neg hzero] at h
        split
        · rename_i herror
          rw [if_pos herror] at h
          cases h
        · rename_i herror
          rw [if_neg herror] at h
          split
          · rfl
          · rename_i hcc
            rw [if_neg hcc] at h
            exact ih h

/-- What one pass has done to the host. -/
structure ErasePass (slot : Slot) (argument blocks : ℕ) (h h' : Host) :
    Prop where
  sameCards : SameCards h h'
  reports : h'.reports = h.reports.afterErase blocks
  errors : h.reports.EraseBurstOk blocks → h'.errors = h.errors
  errors_lt : ¬ h.reports.EraseBurstOk blocks →
    h.errors.length < h'.errors.length
  written : ∃ count, h'.written = h.written ++ transferred slot
      (cardSector (h.curCardData slot).mode argument) count
        (fun _ => erasedBlock) ∧
    (h.Completes → h.reports.transferOk blocks → count = blocks)

theorem transfer_completes {h : Host} {blocks : ℕ} (hcompletes : h.Completes)
    (hok : h.reports.transferOk blocks) :
    (writeDataPoll blocks ((h.transferReports.headD fun _ => []) blocks)
      0).2 = blocks := by
  unfold Reports.transferOk Host.reports at hok
  dsimp only at hok
  cases hreports : h.transferReports with
  | nil => simp [writeDataPoll]
  | cons report rest =>
      rw [hreports] at hok
      exact hcompletes report (by simp [hreports]) blocks hok

/-- The command that opens a pass. -/
def openErase (argument blocks : ℕ) (h : Host) : ℕ × Host :=
  if 1 < blocks then mmcSendCmd .cmd25 argument { h with blk := blocks }
  else mmcSendCmd .cmd24 argument h

theorem openErase_spec (argument : ℕ) {blocks : ℕ} (hpos : 0 < blocks)
    (h : Host) :
    (openErase argument blocks h).2.blk = blocks ∧
      (openErase argument blocks h).2.arg = argument ∧
      SameCards h (openErase argument blocks h).2 ∧
      (openErase argument blocks h).2.written = h.written ∧
      Follows h (openErase argument blocks h).1 (openErase argument blocks h).2
        (sendExchange h.reports) := by
  unfold openErase
  by_cases hmulti : 1 < blocks
  · rw [if_pos hmulti]
    exact ⟨rfl, rfl, ⟨by simp, by simp, by simp⟩, by simp,
      mmcSendCmd_follows .cmd25 argument { h with blk := blocks }⟩
  · have hone : blocks = 1 := by omega
    rw [if_neg hmulti, hone]
    exact ⟨rfl, rfl, ⟨by simp, by simp, by simp⟩, by simp,
      mmcSendCmd_follows .cmd24 argument h⟩

/-- A command adds its error, if it has one. -/
theorem sendExchange_errors (r : Reports) :
    (r.commandOk → (sendExchange r).errors = [] ∧ (sendExchange r).ret = 1) ∧
      (¬ r.commandOk → (sendExchange r).errors.length = 1) := by
  unfold Reports.commandOk sendExchange
  dsimp only
  constructor
  · intro hok
    exact ⟨by rw [hok]; rfl, sendCmdPoll_of_none hok⟩
  · intro hbad
    cases hpoll : (sendCmdPoll (r.commands.headD [])).2 with
    | none => exact absurd hpoll hbad
    | some stat => rfl

/-- The command that stops a pass of more than one block. -/
def closeErase (blocks : ℕ) (h : Host) : ℕ × Host :=
  if 1 < blocks then mmcSendCmd .cmd12 0 h else (1, h)

theorem eraseBurst_eq (slot : Slot) (argument numSec : ℕ) (h : Host) :
    eraseBurst slot argument numSec h =
      if (openErase argument (blkCntCurrentTns numSec) h).1 ≠ 1 then
        .ret (openErase argument (blkCntCurrentTns numSec) h).1
          (openErase argument (blkCntCurrentTns numSec) h).2
      else
        (transfer slot (fun _ => erasedBlock)
          (openErase argument (blkCntCurrentTns numSec) h).2).1.1.elim
          (if (closeErase (blkCntCurrentTns numSec)
                (transfer slot (fun _ => erasedBlock) (openErase argument
                  (blkCntCurrentTns numSec) h).2).2).1 ≠ 1 then
            .ret (closeErase (blkCntCurrentTns numSec)
              (transfer slot (fun _ => erasedBlock) (openErase argument
                (blkCntCurrentTns numSec) h).2).2).1
              (closeErase (blkCntCurrentTns numSec)
                (transfer slot (fun _ => erasedBlock) (openErase argument
                  (blkCntCurrentTns numSec) h).2).2).2
          else .wrote (blkCntCurrentTns numSec)
            (closeErase (blkCntCurrentTns numSec)
              (transfer slot (fun _ => erasedBlock) (openErase argument
                (blkCntCurrentTns numSec) h).2).2).2)
          fun stat => .ret (stat % 256) (transfer slot (fun _ => erasedBlock)
            (openErase argument (blkCntCurrentTns numSec) h).2).2 := by
  unfold eraseBurst openErase closeErase
  by_cases hmulti : 1 < blkCntCurrentTns numSec
  · simp only [if_pos hmulti]
    generalize mmcSendCmd .cmd25 argument _ = opened
    generalize transfer slot (fun _ => erasedBlock) opened.2 = moved
    cases moved.1.1 <;> rfl
  · simp only [if_neg hmulti]
    generalize mmcSendCmd .cmd24 argument h = opened
    generalize transfer slot (fun _ => erasedBlock) opened.2 = moved
    cases moved.1.1 <;> rfl

/-- What one pass does. -/
theorem eraseBurst_spec (slot : Slot) (argument : ℕ) {numSec : ℕ} (h : Host)
    (hne : numSec ≠ 0) :
    match eraseBurst slot argument numSec h with
    | .ret _ h' => ¬ h.reports.EraseBurstOk (blkCntCurrentTns numSec) ∧
        h.errors.length < h'.errors.length
    | .wrote count h' => count = blkCntCurrentTns numSec ∧
        ErasePass slot argument (blkCntCurrentTns numSec) h h' := by
  generalize hblocks : blkCntCurrentTns numSec = blocks
  have hpos : 0 < blocks := hblocks ▸ blkCntCurrentTns_pos hne
  rw [eraseBurst_eq, hblocks]
  obtain ⟨hblk, harg, hcards, hwritten, hret, herrors, hreports⟩ :=
    openErase_spec argument hpos h
  obtain ⟨hfine, hbad⟩ := sendExchange_errors h.reports
  generalize openErase argument blocks h = opened at *
  have hcommands : opened.2.commandReports = h.reports.commands.tail :=
    congrArg Reports.commands hreports
  have htransfers : opened.2.transferReports = h.reports.transfers :=
    congrArg Reports.transfers hreports
  have herrors_le : h.errors.length ≤ opened.2.errors.length := by
    rw [herrors, List.length_append]
    omega
  by_cases hopened : opened.1 ≠ 1
  · rw [if_pos hopened]
    have hnot : ¬ h.reports.commandOk := fun hok =>
      hopened (hret.trans (hfine hok).2)
    refine ⟨fun hok => hnot hok.1, ?_⟩
    rw [herrors, List.length_append, hbad hnot]
    omega
  · rw [if_neg hopened]
    have hpoll : (transfer slot (fun _ => erasedBlock) opened.2).1 =
        writeDataPoll blocks ((h.transferReports.headD fun _ => []) blocks)
          0 := by
      rw [transfer, hblk, htransfers]
      rfl
    have herrors' : (transfer slot (fun _ => erasedBlock) opened.2).2.errors =
        opened.2.errors ++ ((transfer slot (fun _ => erasedBlock)
          opened.2).1.1.map ControllerError.transfer).toList := rfl
    have hwritten' : (transfer slot (fun _ => erasedBlock) opened.2).2.written =
        h.written ++ transferred slot
          (cardSector (h.curCardData slot).mode argument)
          (transfer slot (fun _ => erasedBlock) opened.2).1.2
            (fun _ => erasedBlock) := by
      rw [transfer, hwritten, harg, hcards.curCardData_eq]
    have hreports' : (transfer slot (fun _ => erasedBlock) opened.2).2.reports =
        ⟨h.reports.commands.tail, h.reports.transfers.tail⟩ := by
      rw [Host.reports, transfer, hcommands, htransfers]
    have hcards' : SameCards h
        (transfer slot (fun _ => erasedBlock) opened.2).2 :=
      ⟨hcards.1, hcards.2, hcards.3⟩
    generalize transfer slot (fun _ => erasedBlock) opened.2 = moved at *
    have htransferOk : h.reports.transferOk blocks ↔ moved.1.1 = none := by
      rw [hpoll]
      exact Iff.rfl
    cases herror : moved.1.1 with
    | some stat =>
        refine ⟨fun hok => ?_, ?_⟩
        · have hnone := htransferOk.mp hok.2.1
          rw [herror] at hnone
          cases hnone
        · rw [herrors', herror, List.length_append]
          exact Nat.lt_of_le_of_lt herrors_le (Nat.lt_succ_self _)
    | none =>
        rw [herror] at herrors'
        have hsame : moved.2.errors = opened.2.errors :=
          herrors'.trans (List.append_nil _)
        have hcount : h.Completes → h.reports.transferOk blocks →
            moved.1.2 = blocks := by
          intro hcompletes hok
          rw [hpoll]
          exact transfer_completes hcompletes hok
        simp only [Option.elim_none]
        by_cases hmulti : 1 < blocks
        · obtain ⟨hret2, herrors2, hreports2⟩ :=
            mmcSendCmd_follows .cmd12 0 moved.2
          obtain ⟨hfine2, hbad2⟩ := sendExchange_errors moved.2.reports
          have hstop : moved.2.reports.commandOk ↔
              (⟨h.reports.commands.tail, h.reports.transfers⟩ :
                Reports).commandOk := by
            rw [hreports']
            exact Iff.rfl
          rw [closeErase, if_pos hmulti]
          have hclosed : SameCards h (mmcSendCmd .cmd12 0 moved.2).2 :=
            hcards'.trans ⟨by simp, by simp, by simp⟩
          have hwritten2 : (mmcSendCmd .cmd12 0 moved.2).2.written =
              moved.2.written := by simp
          generalize mmcSendCmd .cmd12 0 moved.2 = closed at *
          have hlt : ¬ h.reports.EraseBurstOk blocks →
              h.errors.length < closed.2.errors.length := by
            intro hnot
            rw [herrors2, hsame, herrors, List.length_append,
              List.length_append]
            by_cases hfirst : h.reports.commandOk
            · have hsecond : ¬ moved.2.reports.commandOk := fun hok =>
                hnot ⟨hfirst, htransferOk.mpr herror, fun _ => hstop.mp hok⟩
              rw [hbad2 hsecond]
              omega
            · rw [hbad hfirst]
              omega
          by_cases hclose : closed.1 ≠ 1
          · rw [if_pos hclose]
            have hnot : ¬ h.reports.EraseBurstOk blocks := fun hok =>
              hclose (hret2.trans (hfine2 (hstop.mpr (hok.2.2 hmulti))).2)
            exact ⟨hnot, hlt hnot⟩
          · rw [if_neg hclose]
            refine ⟨rfl, hclosed, ?_, ?_, hlt, moved.1.2, ?_, hcount⟩
            · rw [hreports2, sendExchange, hreports', Reports.afterErase,
                if_pos hmulti]
            · intro hok
              rw [herrors2, (hfine2 (hstop.mpr (hok.2.2 hmulti))).1, hsame,
                herrors, (hfine hok.1).1, List.append_nil, List.append_nil]
            · rw [hwritten2, hwritten']
        · rw [closeErase, if_neg hmulti]
          dsimp only
          rw [if_neg (not_not.mpr rfl)]
          refine ⟨rfl, hcards', ?_, ?_, ?_, moved.1.2, hwritten', hcount⟩
          · rw [hreports', Reports.afterErase, if_neg hmulti]
          · intro hok
            rw [hsame, herrors, (hfine hok.1).1, List.append_nil]
          · intro hnot
            have hfirst : ¬ h.reports.commandOk := fun hok =>
              hnot ⟨hok, htransferOk.mpr herror, fun h1 => absurd h1 hmulti⟩
            rw [hsame, herrors, List.length_append, hbad hfirst]
            omega

/-! ## The loop -/

section Loop

variable {slot : Slot} {secInc argument numSec : ℕ} {h : Host}

@[simp] theorem omapMmcEraseSectLoop_zero :
    omapMmcEraseSectLoop slot secInc argument 0 h = (1, h) := by
  rw [omapMmcEraseSectLoop, dif_pos rfl]

theorem omapMmcEraseSectLoop_of_ret {err : ℕ} {h' : Host} (hne : numSec ≠ 0)
    (hb : eraseBurst slot argument numSec h = .ret err h') :
    omapMmcEraseSectLoop slot secInc argument numSec h = (err, h') := by
  rw [omapMmcEraseSectLoop, dif_neg hne, hb]

theorem omapMmcEraseSectLoop_of_wrote {count : ℕ} {h' : Host}
    (hne : numSec ≠ 0)
    (hb : eraseBurst slot argument numSec h = .wrote count h') :
    omapMmcEraseSectLoop slot secInc argument numSec h =
      omapMmcEraseSectLoop slot secInc
        ((argument + secInc * blkCntCurrentTns numSec) % 2 ^ 32)
        (numSec - blkCntCurrentTns numSec) h' := by
  rw [omapMmcEraseSectLoop, dif_neg hne, hb]

end Loop

theorem transferred_length (slot : Slot) (first count : ℕ)
    (block : ℕ → List UInt8) :
    (transferred slot first count block).length = count := by
  rw [transferred, List.length_map, List.length_range]

/-- The controller behind a pass still moves all blocks of a transfer that
completes. -/
theorem ErasePass.completes {slot : Slot} {argument blocks : ℕ} {h h' : Host}
    (hpass : ErasePass slot argument blocks h h') (hcompletes : h.Completes) :
    h'.Completes := by
  have htransfers : h'.transferReports = h.transferReports.tail :=
    congrArg Reports.transfers hpass.reports
  intro report hreport
  rw [htransfers] at hreport
  exact hcompletes report (List.mem_of_mem_tail hreport)

/-- What the erasing of `numSec` sectors has done to the host: it adds to the
errors if the reports are not free of them, and stores the sectors if they
are. -/
structure Erased (slot : Slot) (argument numSec : ℕ) (h h' : Host) :
    Prop where
  errors_eq : h.reports.EraseOk numSec → h'.errors = h.errors
  errors_lt : ¬ h.reports.EraseOk numSec → h.errors.length < h'.errors.length
  length_eq : h.Completes → h.reports.EraseOk numSec →
    h'.written.length = h.written.length + numSec
  written_eq : h.Completes → h.reports.EraseOk numSec →
    ∀ s, argument = sectorArgument (h.curCardData slot).mode s →
      s + numSec ≤ sectorLimit (h.curCardData slot).mode →
        h'.written = h.written ++
          transferred slot s numSec fun _ => erasedBlock

theorem omapMmcEraseSectLoop_erased (slot : Slot) (secInc argument numSec : ℕ)
    (h : Host) (hinc : secInc = secIncVal (h.curCardData slot).mode) :
    Erased slot argument numSec h
      (omapMmcEraseSectLoop slot secInc argument numSec h).2 := by
  induction argument, numSec, h using
    omapMmcEraseSectLoop.induct slot secInc with
  | case1 argument h =>
      rw [omapMmcEraseSectLoop_zero]
      exact ⟨fun _ => rfl, fun hnot => absurd h.reports.eraseOk_zero hnot,
        fun _ _ => rfl, fun _ _ s _ _ => (List.append_nil _).symm⟩
  | case2 argument numSec h hne err h' hb =>
      have hspec := eraseBurst_spec slot argument h hne
      rw [hb] at hspec
      obtain ⟨hnot, hlt⟩ := hspec
      rw [omapMmcEraseSectLoop_of_ret hne hb]
      have hbad : ¬ h.reports.EraseOk numSec := fun hok =>
        hnot ((Reports.eraseOk_of_ne hne).mp hok).1
      exact ⟨fun hok => absurd hok hbad, fun _ => hlt,
        fun _ hok => absurd hok hbad, fun _ hok => absurd hok hbad⟩
  | case3 argument numSec h hne count h' hb ih =>
      have hspec := eraseBurst_spec slot argument h hne
      rw [hb] at hspec
      obtain ⟨-, hpass⟩ := hspec
      obtain ⟨hle, -⟩ := blkCntCurrentTns_le numSec
      have hmode : h'.curCardData = h.curCardData :=
        hpass.sameCards.curCardData_eq
      have hrest := ih (by rw [hmode]; exact hinc)
      rw [omapMmcEraseSectLoop_of_wrote hne hb]
      have hsplit := Reports.eraseOk_of_ne (r := h.reports) hne
      rw [← hpass.reports] at hsplit
      obtain ⟨moved, hwritten, hmoved⟩ := hpass.written
      refine ⟨fun hok => ?_, fun hnot => ?_, fun hcompletes hok => ?_,
        fun hcompletes hok s hs hlimit => ?_⟩
      · obtain ⟨hfirst, hlast⟩ := hsplit.mp hok
        rw [hrest.errors_eq hlast, hpass.errors hfirst]
      · by_cases hfirst : h.reports.EraseBurstOk (blkCntCurrentTns numSec)
        · rw [← hpass.errors hfirst]
          exact hrest.errors_lt fun hlast => hnot (hsplit.mpr ⟨hfirst, hlast⟩)
        · have hlt := hpass.errors_lt hfirst
          by_cases hlast : h'.reports.EraseOk
              (numSec - blkCntCurrentTns numSec)
          · rwa [hrest.errors_eq hlast]
          · exact hlt.trans (hrest.errors_lt hlast)
      · obtain ⟨hfirst, hlast⟩ := hsplit.mp hok
        rw [hrest.length_eq (hpass.completes hcompletes) hlast, hwritten,
          List.length_append, transferred_length,
          hmoved hcompletes hfirst.2.1]
        omega
      · obtain ⟨hfirst, hlast⟩ := hsplit.mp hok
        have hpos := blkCntCurrentTns_pos hne
        have hnext : (argument + secInc * blkCntCurrentTns numSec) % 2 ^ 32 =
            sectorArgument (h'.curCardData slot).mode
              (s + blkCntCurrentTns numSec) := by
          rw [hmode, hs, hinc, sectorArgument_add]
        have hsector : cardSector (h.curCardData slot).mode argument = s := by
          rw [hs, cardSector_sectorArgument (by omega)]
        rw [hrest.written_eq (hpass.completes hcompletes) hlast _ hnext
            (by rw [hmode]; omega), hwritten, hsector,
          hmoved hcompletes hfirst.2.1, List.append_assoc]
        congr 1
        rw [← transferred_add, Nat.add_sub_cancel' hle]

/-! ## What an erase leaves for the next write -/

/-- The reports behind one pass over `blocks` blocks, whatever they are: a refused
command ends it, and so does a transfer with an error. -/
def Reports.behindErase (r : Reports) (blocks : ℕ) : Reports :=
  if (sendCmdPoll (r.commands.headD [])).1 ≠ 1 then ⟨r.commands.tail, r.transfers⟩
  else if (r.move blocks).1.isSome then ⟨r.commands.tail, r.transfers.tail⟩
  else r.afterErase blocks

/-- The host behind a pass. -/
def Burst.host : Burst → Host
  | .ret _ h => h
  | .wrote _ h => h

theorem eraseBurst_leaves (slot : Slot) (argument : ℕ) {numSec : ℕ} (h : Host)
    (hne : numSec ≠ 0) :
    SameCards h (eraseBurst slot argument numSec h).host ∧
      (eraseBurst slot argument numSec h).host.reports =
        h.reports.behindErase (blkCntCurrentTns numSec) := by
  generalize hblocks : blkCntCurrentTns numSec = blocks
  have hpos : 0 < blocks := hblocks ▸ blkCntCurrentTns_pos hne
  rw [eraseBurst_eq, hblocks, Reports.behindErase]
  obtain ⟨hblk, -, hcards, -, hret, -, hreports⟩ := openErase_spec argument hpos h
  generalize openErase argument blocks h = opened at *
  have hret' : opened.1 = (sendCmdPoll (h.reports.commands.headD [])).1 := hret
  have hreports' : opened.2.reports = ⟨h.reports.commands.tail, h.reports.transfers⟩ :=
    hreports
  rw [← hret']
  by_cases hopened : opened.1 ≠ 1
  · rw [if_pos hopened, if_pos hopened]
    exact ⟨hcards, hreports'⟩
  · rw [if_neg hopened, if_neg hopened]
    have hcommands : opened.2.commandReports = h.reports.commands.tail :=
      congrArg Reports.commands hreports'
    have htransfers : opened.2.transferReports = h.reports.transfers :=
      congrArg Reports.transfers hreports'
    have hpoll : (transfer slot (fun _ => erasedBlock) opened.2).1 =
        h.reports.move blocks := by
      rw [transfer, hblk, htransfers]
      rfl
    have hleft : (transfer slot (fun _ => erasedBlock) opened.2).2.reports =
        ⟨h.reports.commands.tail, h.reports.transfers.tail⟩ := by
      rw [Host.reports, transfer, hcommands, htransfers]
    have hcards' : SameCards h (transfer slot (fun _ => erasedBlock) opened.2).2 :=
      ⟨hcards.1, hcards.2, hcards.3⟩
    generalize transfer slot (fun _ => erasedBlock) opened.2 = moved at *
    rw [hpoll]
    cases herror : (h.reports.move blocks).1 with
    | some stat =>
        simp only [Option.elim_some, Option.isSome_some, if_true]
        exact ⟨hcards', hleft⟩
    | none =>
        simp only [Option.elim_none, Option.isSome_none, Bool.false_eq_true, if_false]
        have hclosed : SameCards h (closeErase blocks moved.2).2 ∧
            (closeErase blocks moved.2).2.reports = h.reports.afterErase blocks := by
          unfold closeErase Reports.afterErase
          split
          · refine ⟨hcards'.trans ⟨by simp, by simp, by simp⟩, ?_⟩
            have hstop := (mmcSendCmd_follows .cmd12 0 moved.2).2.2
            rw [hstop, sendExchange, hleft]
          · exact ⟨hcards', hleft⟩
        split
        · exact hclosed
        · exact hclosed

end TateFirmware.Mmc
