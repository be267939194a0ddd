import TateFirmware.Fastboot.Download
import TateFirmware.LibGeneric.Crc32
import TateFirmware.Mmc.Erase
import TateFirmware.Support.Records

/-!
# Flashing the environment on eMMC

`flash:` of a partition that is flagged as environment takes the download as the text
of the environment, whatever its length: the line feeds become NUL bytes in the
transfer buffer, the text is copied over `env_ptr->data`, and `do_saveenv` saves it.
Neither the length of the text nor the result of saving is looked at, and `saveenv` of
`common/env_mmc.c` looks at no result of the card.
-/

namespace TateFirmware.Fastboot

open LibGeneric Support Mmc

/-! ## Saving -/

/-- `CFG_ENV_SIZE`. -/
def cfgEnvSize : ℕ := 128 * 1024

/-- The sectors of the environment. -/
def envSectors : ℕ := 256

/-- Where the environment is kept: nowhere, as on this board, or on the eMMC from the
sector `CFG_ENV_ADDR` on.  The sectors can be addressed in bytes, too. -/
inductive EnvPlace where
  | nowhere
  | emmc (envAddr : ℕ) (haddr : envAddr + envSectors ≤ 2 ^ 23)

/-- The memory at `env_ptr` when it is saved: the CRC, which `saveenv` takes over
`CFG_ENV_SIZE` bytes from `data` on, and the data. -/
def envPtr (data : Memory UInt8) : Memory UInt8 :=
  Memory.copyIn (fun k => data (k - 4)) 0
    (leBytes (crc32 0 (data.read 0 cfgEnvSize)).toNat)

/-- The value that saving returns, and the card behind the erase and behind the write
of `saveenv`. -/
structure Saving where
  ret : ℤ
  erased : Host
  saved : Host

/-- `saveenv`; on the eMMC it writes whatever the erase returns, and returns `0`
whatever the write returns. -/
def saveenv (data : Memory UInt8) (mmc : Host) : EnvPlace → Saving
  | .nowhere => ⟨-1, mmc, mmc⟩
  | .emmc envAddr _ =>
      let erased := (mmcErase emmcSlot envAddr cfgEnvSize mmc).2
      ⟨0, erased, (mmcWrite emmcSlot (envPtr data) envAddr cfgEnvSize erased).2⟩

/-- `do_saveenv` with the argument `-f`. -/
def doSaveenv (data : Memory UInt8) (mmc : Host) (place : EnvPlace) : Saving :=
  { saveenv data mmc place with
    ret := if (saveenv data mmc place).ret ≠ 0 then 1 else 0 }

/-- Saving stores the environment: every byte of it is in a sector that the write has
stored. -/
def SavesEnvironment (data : Memory UInt8) (mmc : Host) : EnvPlace → Prop
  | .nowhere => False
  | .emmc envAddr haddr =>
      ∃ ws, (doSaveenv data mmc (.emmc envAddr haddr)).saved.written =
          (doSaveenv data mmc (.emmc envAddr haddr)).erased.written ++ ws ∧
        ∀ p < cfgEnvSize, byteAt ws emmcSlot envAddr p = some (envPtr data p)

/-! ## When the card takes the environment -/

/-- The size check of `mmc_erase` at `CFG_ENV_ADDR`. -/
def BehindCard (envAddr : ℕ) (mmc : Host) : Prop :=
  (mmc.curCardData emmcSlot).size < envAddr / mmcsdSectorSize ∨
    (mmc.curCardData emmcSlot).size < (envAddr + cfgEnvSize) % 2 ^ 32 / mmcsdSectorSize

instance (envAddr : ℕ) (mmc : Host) : Decidable (BehindCard envAddr mmc) :=
  inferInstanceAs (Decidable (_ ∨ _))

/-- The reports that the erase of `saveenv` leaves for its write. -/
def writeReports (envAddr : ℕ) (mmc : Host) : Reports :=
  if BehindCard envAddr mmc then mmc.reports
  else mmc.reports.behindErase envSectors

/-- The environment is kept on the eMMC, the card is configured, and the controller takes
all sectors of the write, whatever it has reported for the erase. -/
def TakesEnvironment (mmc : Host) : EnvPlace → Prop
  | .nowhere => False
  | .emmc envAddr _ =>
      mmc.dev emmcSlot = true ∧ (writeReports envAddr mmc).TakesAll envSectors

theorem mmcErase_environment (envAddr : ℕ) {mmc : Host}
    (hdev : mmc.dev emmcSlot = true) :
    SameCards mmc (mmcErase emmcSlot envAddr cfgEnvSize mmc).2 ∧
      (mmcErase emmcSlot envAddr cfgEnvSize mmc).2.reports =
        writeReports envAddr mmc := by
  have hsectors : ((toInt (cfgEnvSize + 511)).tdiv 512 % 2 ^ 32).toNat = envSectors := by
    decide
  have hsect : omapMmcEraseSect emmcSlot envAddr cfgEnvSize mmc =
      if BehindCard envAddr mmc then (1, mmc)
      else omapMmcEraseSectLoop emmcSlot (secIncVal (mmc.curCardData emmcSlot).mode)
        (sectorArgument (mmc.curCardData emmcSlot).mode envAddr) envSectors mmc := by
    rw [omapMmcEraseSect, hsectors]
    rfl
  rw [mmcErase, if_pos hdev, hsect, writeReports]
  by_cases hbehind : BehindCard envAddr mmc
  · rw [if_pos hbehind, if_pos hbehind]
    exact ⟨SameCards.refl mmc, rfl⟩
  · rw [if_neg hbehind, if_neg hbehind, omapMmcEraseSectLoop, dif_neg (by decide)]
    have hleaves := eraseBurst_leaves emmcSlot
      (sectorArgument (mmc.curCardData emmcSlot).mode envAddr) mmc
      (show envSectors ≠ 0 by decide)
    cases hburst : eraseBurst emmcSlot
      (sectorArgument (mmc.curCardData emmcSlot).mode envAddr) envSectors mmc with
    | ret err h' =>
        rw [hburst] at hleaves
        exact hleaves
    | wrote count h' =>
        rw [hburst] at hleaves
        dsimp only
        -- The one burst was all of it.
        rw [show envSectors - blkCntCurrentTns envSectors = 0 from rfl,
          omapMmcEraseSectLoop, dif_pos rfl]
        exact hleaves

theorem writeReports_transfers (envAddr : ℕ) (mmc : Host) :
    (writeReports envAddr mmc).transfers <:+ mmc.transferReports := by
  unfold writeReports Reports.behindErase Reports.afterErase
  split
  · exact List.suffix_rfl
  · split
    · exact List.suffix_rfl
    · split
      · exact List.tail_suffix _
      · exact List.tail_suffix _

/-- The environment is stored exactly if the card takes it. -/
theorem savesEnvironment_iff (data : Memory UInt8) {mmc : Host}
    (hdisc : mmc.Disciplined) (place : EnvPlace) :
    SavesEnvironment data mmc place ↔ TakesEnvironment mmc place := by
  cases place with
  | nowhere => exact Iff.rfl
  | emmc envAddr haddr =>
      have hpos : 0 < cfgEnvSize := by decide
      simp only [SavesEnvironment, TakesEnvironment, doSaveenv, saveenv]
      cases hdev : mmc.dev emmcSlot with
      | false =>
          have herase : (mmcErase emmcSlot envAddr cfgEnvSize mmc).2 = mmc := by
            rw [mmcErase, if_neg (Bool.eq_false_iff.mp hdev)]
          have hwrite : (mmcWrite emmcSlot (envPtr data) envAddr cfgEnvSize mmc).2 =
              mmc := by
            rw [mmcWrite, if_neg (Bool.eq_false_iff.mp hdev)]
          rw [herase, hwrite]
          simp only [Bool.false_eq_true, false_and, iff_false]
          rintro ⟨ws, hws, hbytes⟩
          obtain rfl := List.self_eq_append_right.mp hws
          have hfirst : (none : Option UInt8) = some (envPtr data 0) := hbytes 0 hpos
          cases hfirst
      | true =>
          obtain ⟨hcards, hreports⟩ := mmcErase_environment envAddr hdev
          generalize (mmcErase emmcSlot envAddr cfgEnvSize mmc).2 = erased at *
          have hdisc' : erased.Disciplined := by
            intro report hreport
            have hleft : erased.transferReports =
                (writeReports envAddr mmc).transfers := congrArg Reports.transfers hreports
            rw [hleft] at hreport
            exact hdisc report ((writeReports_transfers envAddr mmc).subset hreport)
          have hdev' : erased.dev emmcSlot = true := by rw [hcards.dev_eq, hdev]
          have hsectors : numSecVal cfgEnvSize = envSectors := by decide
          have hfit : envAddr + envSectors ≤
              sectorLimit (erased.curCardData emmcSlot).mode := by
            cases (erased.curCardData emmcSlot).mode with
            | byteMode => exact haddr
            | sectorMode => exact haddr.trans (by decide)
          obtain ⟨n, hn, hall, hstored⟩ := omapMmcWriteSectLoop_stored emmcSlot
            (envPtr data) _ envSectors erased rfl rfl hdisc' hfit (by decide)
          have hwritten :
              (mmcWrite emmcSlot (envPtr data) envAddr cfgEnvSize erased).2.written =
                erased.written ++ transferred emmcSlot envAddr n
                  (blocks (envPtr data)) := by
            rw [mmcWrite, if_pos hdev', omapMmcWriteSect, hsectors,
              if_neg (by decide)]
            exact hstored
          rw [hwritten, ← hreports, ← hall]
          simp only [true_and]
          have hbytes := @byteAt_transferred_iff emmcSlot envAddr n envSectors
            (envPtr data) hn
          constructor
          · rintro ⟨ws, hws, hread⟩
            obtain rfl := List.append_cancel_left hws
            exact hbytes.mp hread
          · intro htaken
            exact ⟨_, rfl, hbytes.mpr htaken⟩

/-! ## What a flash of the environment has to do -/

/-- An environment area that is closed by an empty entry. -/
def ClosedArea (data : Memory UInt8) : Prop :=
  ∃ p < envSize, data p = 0 ∧ (p = 0 ∨ data (p - 1) = 0)

variable (iface : Interface) (place : EnvPlace) (board : Board) (cmdbuf : List UInt8)
  (st : State)

/-- The command writes nothing outside the environment and the transfer buffer, leaves a
closed environment, and answers `OKAY` only if saving has stored it. -/
structure EnvironmentFlashed : Prop where
  outside : ∀ data : Memory UInt8, ∀ k ≥ envSize,
    (step iface { st with envData := data } (.packet cmdbuf board)).1.envData k = data k
  buffer : (step iface st (.packet cmdbuf board)).1.transferBuffer.high ≤
    iface.transferBufferSize
  closed : ClosedArea (step iface st (.packet cmdbuf board)).1.envData
  answer : (step iface st (.packet cmdbuf board)).2 = [text "OKAY"] →
    SavesEnvironment (step iface st (.packet cmdbuf board)).1.envData st.mmc place

/-- A byte that ends an entry of the text. -/
def EndsEntry (c : UInt8) : Prop := c = 0 ∨ c = 0x0a

instance : DecidablePred EndsEntry := fun _ => inferInstanceAs (Decidable (_ ∨ _))

/-- The text has an empty line, or the area has room for the end of its last entry and
for an empty one behind it. -/
def ClosesText : Prop :=
  (∃ p < st.downloadBytes, EndsEntry (st.transferBuffer.cell p) ∧
      (p = 0 ∨ EndsEntry (st.transferBuffer.cell (p - 1)))) ∨
    st.downloadBytes + 2 ≤ envSize ∨
    (st.downloadBytes + 1 = envSize ∧
      EndsEntry (st.transferBuffer.cell (st.downloadBytes - 1)))

/-- A `flash:` command on eMMC for a partition flagged as environment, with something
downloaded. -/
structure FlashesEnvironment : Prop where
  medium : iface.storageMedium = .emmc
  inv : DownloadInv iface st
  running : st.left = false
  idle : st.downloadSize = 0
  downloaded : st.downloadBytes ≠ 0
  command : startsWith cmdbuf "flash:" = true
  entry : ∃ ptn, findEntry st.ptable (cmdbuf.drop 6) = some ptn ∧
    ptn.has flagsWriteEnv = true

/-! ## The text -/

variable {iface cmdbuf st}

/-- The line feeds of the first `n` bytes are replaced. -/
theorem replaceLineFeeds_cell (buffer : TrackedMemory UInt8) (n k : ℕ) :
    ((List.range n).foldl
        (fun b i => if b.cell i = 0x0a then b.store i 0x00 else b) buffer).cell k =
      if k < n ∧ buffer.cell k = 0x0a then 0 else buffer.cell k := by
  induction n generalizing k with
  | zero => simp
  | succ n ih =>
      rw [List.range_succ, List.foldl_append, List.foldl_cons, List.foldl_nil]
      by_cases hk : k = n
      · subst hk
        have hcell := ih k
        rw [if_neg (by omega)] at hcell
        by_cases hfeed : buffer.cell k = 0x0a
        · rw [if_pos (by rw [hcell, hfeed]), if_pos ⟨Nat.lt_succ_self k, hfeed⟩]
          simp
        · rw [if_neg (by rw [hcell]; exact hfeed), hcell, if_neg (fun h => hfeed h.2)]
      · have hlt : k < n + 1 ↔ k < n := by omega
        simp only [hlt]
        rw [← ih k]
        split
        · exact Memory.store_of_ne _ hk
        · rfl

/-- The environment behind the command: the text, and zeros behind it. -/
theorem flashEnvironment_envData (st : State) (k : ℕ) :
    (flashEnvironment st).envData k =
      if k < st.downloadBytes then
        if st.transferBuffer.cell k = 0x0a then 0 else st.transferBuffer.cell k
      else if k < envSize then 0 else st.envData k := by
  simp only [flashEnvironment, Memory.copyIn, Nat.not_lt_zero, if_false, Nat.sub_zero]
  by_cases hk : k < st.downloadBytes
  · rw [List.getD_eq_getElem _ _ (by rwa [Memory.read_length]), Memory.read_getElem,
      Nat.zero_add, replaceLineFeeds_cell, if_pos hk]
    simp [hk]
  · rw [List.getD_eq_default _ _ (by rw [Memory.read_length]; omega), if_neg hk, Memory.fill]
    simp

/-- What the command does. -/
theorem step_flashEnvironment (h : FlashesEnvironment iface cmdbuf st) (board : Board) :
    step iface st (.packet cmdbuf board) =
      (flashEnvironment { st with fastbootConfirmed := true }, [text "OKAY"]) := by
  obtain ⟨ptn, hptn, henv⟩ := h.entry
  rw [step_command h.running h.idle, rxCommand_flash iface board st h.command]
  simp [stateReply, flash, h.medium, flashEmmc, h.downloaded, hptn, henv]

/-! ## Closing -/

/-- A byte of the environment behind the command that is zero. -/
theorem envData_eq_zero_iff {st : State} {k : ℕ} (hk : k < envSize) :
    (flashEnvironment st).envData k = 0 ↔
      st.downloadBytes ≤ k ∨ EndsEntry (st.transferBuffer.cell k) := by
  rw [flashEnvironment_envData, EndsEntry]
  split_ifs with htext hfeed
  · simp [hfeed]
  · simp [hfeed, Nat.not_le.mpr htext]
  · simp [Nat.le_of_not_lt htext]

/-- Where the text fits, it is closed exactly if it closes itself or leaves room. -/
theorem closedArea_iff {st : State} (hsome : st.downloadBytes ≠ 0)
    (hfits : st.downloadBytes ≤ envSize) :
    ClosedArea (flashEnvironment st).envData ↔ ClosesText st := by
  constructor
  · rintro ⟨p, hp, hzero, hfirst⟩
    rw [envData_eq_zero_iff hp] at hzero
    have hprev : p = 0 ∨ st.downloadBytes ≤ p - 1 ∨
        EndsEntry (st.transferBuffer.cell (p - 1)) :=
      hfirst.imp_right (envData_eq_zero_iff (by omega)).mp
    rcases Nat.lt_or_ge p st.downloadBytes with hin | hbehind
    · refine Or.inl ⟨p, hin, hzero.resolve_left (by omega), ?_⟩
      exact hprev.imp_right fun h => h.resolve_left (by omega)
    · right
      by_cases hroom : st.downloadBytes + 2 ≤ envSize
      · exact Or.inl hroom
      · have hlast : p = st.downloadBytes := by omega
        subst hlast
        refine Or.inr ⟨by omega, ?_⟩
        exact (hprev.resolve_left hsome).resolve_left (by omega)
  · rintro (⟨p, hp, hend, hfirst⟩ | hroom | ⟨hroom, hend⟩)
    · have hlt : p < envSize := by omega
      refine ⟨p, hlt, (envData_eq_zero_iff hlt).mpr (Or.inr hend), ?_⟩
      exact hfirst.imp_right fun h => (envData_eq_zero_iff (by omega)).mpr (Or.inr h)
    · refine ⟨st.downloadBytes + 1, by omega, ?_, Or.inr ?_⟩
      · exact (envData_eq_zero_iff (by omega)).mpr (Or.inl (by omega))
      · exact (envData_eq_zero_iff (by omega)).mpr (Or.inl (by omega))
    · refine ⟨st.downloadBytes, by omega, ?_, Or.inr ?_⟩
      · exact (envData_eq_zero_iff (by omega)).mpr (Or.inl (le_refl _))
      · exact (envData_eq_zero_iff (by omega)).mpr (Or.inr hend)

/-- Nothing outside the environment is written, whatever is there, exactly if the text
fits. -/
theorem outside_iff {iface : Interface} {cmdbuf : List UInt8} {st : State}
    (h : FlashesEnvironment iface cmdbuf st) (board : Board) :
    (∀ data : Memory UInt8, ∀ k ≥ envSize,
        (step iface { st with envData := data } (.packet cmdbuf board)).1.envData k = data k) ↔
      st.downloadBytes ≤ envSize := by
  have hstep : ∀ data : Memory UInt8,
      (step iface { st with envData := data } (.packet cmdbuf board)).1 =
        flashEnvironment { st with envData := data, fastbootConfirmed := true } := by
    intro data
    have hdata : FlashesEnvironment iface cmdbuf { st with envData := data } :=
      ⟨h.medium, h.inv.congr ⟨rfl, rfl, rfl, rfl, rfl⟩, h.running, h.idle, h.downloaded,
        h.command, h.entry⟩
    rw [step_flashEnvironment hdata board]
  constructor
  · intro hkept
    by_contra hlong
    -- A byte of the text stands behind the area, over one that differs from it.
    have hbyte := fun data : Memory UInt8 => hkept data envSize (le_refl _)
    simp only [hstep, flashEnvironment_envData, if_pos (Nat.lt_of_not_le hlong)] at hbyte
    have hzero := hbyte fun _ => 0
    have hone := hbyte fun _ => 1
    rw [hzero] at hone
    cases hone
  · intro hfits data k hk
    rw [hstep, flashEnvironment_envData]
    dsimp only
    rw [if_neg (by omega), if_neg (by omega)]

/-- A `flash:` of the environment writes nothing else, leaves it closed and answers
`OKAY` only for a stored one, if and only if the text fits and closes or leaves room to
close it, and the environment is on an eMMC that takes it. -/
theorem environmentFlashed_iff {iface : Interface} {cmdbuf : List UInt8} {st : State}
    (h : FlashesEnvironment iface cmdbuf st) (hdisc : st.mmc.Disciplined)
    (place : EnvPlace) (board : Board) :
    EnvironmentFlashed iface place board cmdbuf st ↔
      st.downloadBytes ≤ envSize ∧ ClosesText st ∧ TakesEnvironment st.mmc place := by
  have hstep := step_flashEnvironment h board
  have hstored := savesEnvironment_iff
    (step iface st (.packet cmdbuf board)).1.envData hdisc place
  have hclosed : st.downloadBytes ≤ envSize →
      (ClosedArea (step iface st (.packet cmdbuf board)).1.envData ↔ ClosesText st) := by
    intro hfits
    rw [hstep]
    exact closedArea_iff h.downloaded hfits
  constructor
  · rintro ⟨houtside, -, harea, hanswer⟩
    have hfits := (outside_iff h board).mp houtside
    refine ⟨hfits, (hclosed hfits).mp harea, hstored.mp (hanswer ?_)⟩
    rw [hstep]
  · rintro ⟨hfits, htext, htakes⟩
    refine ⟨(outside_iff h board).mpr hfits, ?_, (hclosed hfits).mpr htext,
      fun _ => hstored.mpr htakes⟩
    rw [step_command h.running h.idle]
    refine (rxCommand_inv h.inv ?_).high_le
    intro ptn hmedium
    rw [h.medium] at hmedium
    cases hmedium

/-- A partition flagged as environment. -/
def environmentPtn : Ptentry := ⟨text "environment", 0, 1024, flagsWriteEnv⟩

/-- A board with this partition and a card, and `n` bytes downloaded, each an `a`. -/
def downloadedText (mmc : Host) (n : ℕ) : State :=
  { initialState [environmentPtn] mmc (fun _ => ch 'a') (fun _ => 0) with
    downloadBytes := n }

theorem downloadedText_flashes (mmc : Host) {n size : ℕ} (hsize : size < 2 ^ 31)
    (hn : n ≠ 0) (hle : n ≤ size) :
    FlashesEnvironment (emmcBoard size hsize) (text "flash:environment")
      (downloadedText mmc n) where
  medium := rfl
  inv := ⟨Nat.zero_le _, fun h => absurd rfl h, hle, Nat.zero_le _, rfl, Nat.zero_le _⟩
  running := rfl
  idle := rfl
  downloaded := hn
  command := by decide
  entry :=
    have hfind : findEntry [environmentPtn] ((text "flash:environment").drop 6) =
        some environmentPtn := by decide
    ⟨environmentPtn, hfind, by decide⟩

/-- A card that refuses the next command, that of the erase. -/
def refusesErase : Host := { idleHost with commandReports := [[0x8000]] }

/-- The environment is stored though its erase is refused. -/
theorem environmentFlashed_iff_refusedErase :
    EnvironmentFlashed (emmcBoard 8 (by decide)) (.emmc 0 (by decide)) quietBoard
        (text "flash:environment") (downloadedText refusesErase 4) ↔
      4 ≤ envSize ∧ ClosesText (downloadedText refusesErase 4) ∧
        TakesEnvironment refusesErase (.emmc 0 (by decide)) :=
  environmentFlashed_iff
    (downloadedText_flashes refusesErase _ (by decide) (by decide))
    (fun report hreport => absurd hreport List.not_mem_nil) _ quietBoard

/-- A text of one byte more than the environment has room for. -/
theorem longText_not_environmentFlashed :
    ¬ ∀ (iface : Interface) (place : EnvPlace) (board : Board) (cmdbuf : List UInt8)
      (st : State), FlashesEnvironment iface cmdbuf st → st.mmc.Disciplined →
        EnvironmentFlashed iface place board cmdbuf st := by
  intro h
  have hsize : envSize + 1 < 2 ^ 31 := by decide
  have hflashes := downloadedText_flashes idleHost hsize (Nat.succ_ne_zero envSize)
    (le_refl _)
  have hflashed := h _ (.emmc 0 (by decide)) quietBoard _ _ hflashes
    (fun report hreport => absurd hreport List.not_mem_nil)
  exact absurd ((outside_iff hflashes quietBoard).mp hflashed.outside)
    (Nat.not_succ_le_self envSize)

end TateFirmware.Fastboot
