import TateFirmware.Fastboot.Dispatch
import TateFirmware.LibGeneric.Decimal
import TateFirmware.Mmc.Erase

/-!
# The sectors `erase:` erases

The length of a partition has 64 bits.  On its way to the driver it is printed
with `%x` and read back, which keeps its low word, and rounded up to sectors
as an `int`.  The result of the driver is dropped by the `mmc` command, so
the answer is always `OKAY`.
-/

namespace TateFirmware.Fastboot

open Support LibGeneric Mmc

/-! ## The number of sectors -/

/-- The sectors the driver erases for a partition of `length` bytes. -/
def erasedSectors (length : ℕ) : ℕ :=
  ((toInt (length % 2 ^ 32 + 511)).tdiv 512 % 2 ^ 32).toNat

theorem toInt_of_lt {n : ℕ} (h : n < 2 ^ 31) : toInt n = n := by
  unfold toInt
  rw [Nat.mod_eq_of_lt (by omega), if_pos h]

theorem toInt_of_ge {n : ℕ} (hlo : 2 ^ 31 ≤ n) (hhi : n < 2 ^ 32) :
    toInt n = -((2 ^ 32 - n : ℕ) : ℤ) := by
  unfold toInt
  rw [Nat.mod_eq_of_lt hhi, if_neg (by omega)]
  omega

theorem erasedSectors_of_lt {length : ℕ}
    (h : length % 2 ^ 32 + 511 < 2 ^ 31) :
    erasedSectors length = (length % 2 ^ 32 + 511) / 512 := by
  rw [erasedSectors, toInt_of_lt h]
  generalize length % 2 ^ 32 = low at h ⊢
  have hdiv : ((low + 511 : ℕ) : ℤ).tdiv 512 = ((low + 511) / 512 : ℕ) := by
    rw [Int.tdiv_eq_ediv_of_nonneg (by omega)]
    rfl
  rw [hdiv]
  omega

/-- The driver erases the right number of sectors for lengths that are whole
sectors and fit an `int`, and for no other length a card can have. -/
theorem erasedSectors_eq_iff {length : ℕ} (hcard : length / 512 < 2 ^ 32) :
    erasedSectors length = length / 512 ↔
      length % 512 = 0 ∧ length < 2 ^ 31 := by
  by_cases hsmall : length % 2 ^ 32 + 511 < 2 ^ 31
  · rw [erasedSectors_of_lt hsmall]
    omega
  · constructor
    · intro heq
      exfalso
      by_cases hwrap : length % 2 ^ 32 + 511 < 2 ^ 32
      · -- the rounded length is read as a negative `int`
        rw [erasedSectors, toInt_of_ge (by omega) hwrap,
          Int.neg_tdiv, Int.tdiv_eq_ediv_of_nonneg (by omega)] at heq
        omega
      · -- the rounded length has wrapped
        have hmod : toInt (length % 2 ^ 32 + 511) =
            ((length % 2 ^ 32 + 511 - 2 ^ 32 : ℕ) : ℤ) := by
          unfold toInt
          rw [Nat.mod_eq_sub_mod (by omega), Nat.mod_eq_of_lt (by omega),
            if_pos (by omega)]
        rw [erasedSectors, hmod,
          Int.tdiv_eq_ediv_of_nonneg (by omega)] at heq
        omega
    · rintro ⟨hmod, hlt⟩
      omega

/-! ## The command -/

/-- The partition lies within the card, which is configured and which the
arguments of commands can address. -/
structure OnCard (ptn : Ptentry) (h : Host) : Prop where
  configured : h.dev emmcSlot = true
  start_lt : ptn.start < 2 ^ 32
  inside : ptn.start + ptn.length / 512 ≤ (h.curCardData emmcSlot).size
  size_lt : (h.curCardData emmcSlot).size < 2 ^ 32
  addressable : (h.curCardData emmcSlot).size ≤
    sectorLimit (h.curCardData emmcSlot).mode

/-- What `erase:` promises for a partition: it stores nothing outside of its
sectors, an answer of `OKAY` means that all of them have been erased without
an error, and a controller without faults lets it answer so. -/
structure ErasesExactly (ptn : Ptentry) (sent : List (List UInt8))
    (h h' : Host) : Prop where
  within : StoresWithin h h' emmcSlot ptn.start (ptn.length / 512)
  okay : sent = [text "OKAY"] →
    h'.written = h.written ++ transferred emmcSlot ptn.start
      (ptn.length / 512) (fun _ => erasedBlock) ∧ h'.errors = h.errors
  answered : h.Faultless → sent = [text "OKAY"]

/-- The `mmcinit` command of `erase:` has selected the eMMC. -/
theorem slotArg_emmcSlot : slotArg (formatInt emmcSlot.val) = some emmcSlot := by
  decide

/-- The range check of the driver lets a partition of the card pass. -/
theorem omapMmcEraseSect_of_onCard {ptn : Ptentry} {h : Host}
    (hcard : OnCard ptn h) :
    omapMmcEraseSect emmcSlot ptn.start (ptn.length % 2 ^ 32) h =
      omapMmcEraseSectLoop emmcSlot (secIncVal (h.curCardData emmcSlot).mode)
        (sectorArgument (h.curCardData emmcSlot).mode ptn.start)
        (erasedSectors ptn.length) h := by
  have hinside := hcard.inside
  unfold omapMmcEraseSect mmcsdSectorSize
  dsimp only
  have hlow : (ptn.start + ptn.length % 2 ^ 32) % 2 ^ 32 / 512 ≤
      (ptn.start + ptn.length % 2 ^ 32) / 512 :=
    Nat.div_le_div_right (Nat.mod_le _ _)
  have hlength : ptn.length % 2 ^ 32 ≤ ptn.length := Nat.mod_le _ _
  rw [if_neg (by omega)]
  rfl

/-- What `erase:` does for a partition of the card. -/
theorem eraseEmmc_of_onCard {ptn : Ptentry} {st : State}
    (hcard : OnCard ptn (mmcInit emmcSlot st.mmc))
    (hcontroller : st.mmcControllerNo = emmcSlot.val) :
    ∃ mmc', eraseEmmc ptn st = (text "OKAY", { st with mmc := mmc' }) ∧
      Erased emmcSlot
        (sectorArgument ((mmcInit emmcSlot st.mmc).curCardData emmcSlot).mode
          ptn.start) (erasedSectors ptn.length)
        { mmcInit emmcSlot st.mmc with
          mmcFlag := Function.update (mmcInit emmcSlot st.mmc).mmcFlag emmcSlot
            true } mmc' := by
  have hlt : ptn.length % 2 ^ 32 < 2 ^ 32 := Nat.mod_lt _ (by decide)
  generalize hready : ({ mmcInit emmcSlot st.mmc with
    mmcFlag := Function.update (mmcInit emmcSlot st.mmc).mmcFlag emmcSlot
      true } : Host) = ready
  have hcard' : OnCard ptn ready := hready ▸ ⟨hcard.1, hcard.2, hcard.3,
    hcard.4, hcard.5⟩
  have hdata : ready.curCardData = (mmcInit emmcSlot st.mmc).curCardData :=
    hready ▸ rfl
  have hflag : ready.mmcFlag emmcSlot = true := by
    subst hready
    simp
  have hinit : doMmcInit (formatInt st.mmcControllerNo) st.mmc =
      (0, ready) := by
    rw [hcontroller, doMmcInit, slotArg_emmcSlot, ← hready]
  have herase : doMmcErase (formatInt st.mmcControllerNo)
      (text "0x" ++ formatHex ptn.start)
      (text "0x" ++ formatHex (ptn.length % 2 ^ 32)) ready =
      (0, (mmcErase emmcSlot ptn.start (ptn.length % 2 ^ 32) ready).2) := by
    rw [hcontroller, doMmcErase, slotArg_emmcSlot,
      simpleStrtoul_formatHex hcard.start_lt, simpleStrtoul_formatHex hlt]
    exact if_pos hflag
  refine ⟨(mmcErase emmcSlot ptn.start (ptn.length % 2 ^ 32) ready).2, ?_, ?_⟩
  · unfold eraseEmmc
    dsimp only
    rw [hinit, herase]
    rfl
  · rw [mmcErase, if_pos hcard'.configured, omapMmcEraseSect_of_onCard hcard',
      ← hdata]
    exact omapMmcEraseSectLoop_erased emmcSlot _ _ _ ready rfl

theorem mmcInit_keeps (slot : Slot) (h : Host) :
    (mmcInit slot h).reports = h.reports ∧
      (mmcInit slot h).written = h.written ∧
      (mmcInit slot h).errors = h.errors := by
  unfold mmcInit
  split <;> exact ⟨rfl, rfl, rfl⟩

/-- On a board with eMMC and a controller that moves all blocks of a transfer
it completes: `erase:` keeps its promise for a partition of the card exactly
if the length is whole sectors and below 2 GiB, and the controller reports no
error while they are erased. -/
theorem erase_exact_iff {iface : Interface} {board : Board} {st : State}
    {cmdbuf : List UInt8} {ptn : Ptentry}
    (hleft : st.left = false) (hidle : st.downloadSize = 0)
    (hemmc : iface.storageMedium = .emmc)
    (hcmd : startsWith cmdbuf "erase:" = true)
    (hptn : findEntry st.ptable (cmdbuf.drop 6) = some ptn)
    (hcard : OnCard ptn (mmcInit emmcSlot st.mmc))
    (hcompletes : st.mmc.Completes) :
    ErasesExactly ptn (step iface st (.packet cmdbuf board)).2 st.mmc
        (step iface st (.packet cmdbuf board)).1.mmc ↔
      ptn.length % 512 = 0 ∧ ptn.length < 2 ^ 31 ∧
        st.mmc.reports.EraseOk (ptn.length / 512) := by
  have hsectors : ptn.length / 512 < 2 ^ 32 := by
    have hinside := hcard.inside
    have hsize := hcard.size_lt
    omega
  obtain ⟨hreports, hwritten, herrors⟩ := mmcInit_keeps emmcSlot st.mmc
  obtain ⟨mmc', heq, herased⟩ := @eraseEmmc_of_onCard ptn
    { st with fastbootConfirmed := true, mmcControllerNo := emmcSlot.val }
    hcard rfl
  have hstep : step iface st (.packet cmdbuf board) =
      ({ st with
        fastbootConfirmed := true
        mmcControllerNo := emmcSlot.val
        mmc := mmc' }, [text "OKAY"]) := by
    rw [step_command hleft hidle, rxCommand_erase _ _ _ hcmd, stateReply]
    unfold erase
    rw [hemmc]
    dsimp only
    rw [hptn]
    dsimp only
    rw [heq]
  rw [hstep]
  dsimp only at herased ⊢
  have hok : ∀ n, (mmcInit emmcSlot st.mmc).reports.EraseOk n ↔
      st.mmc.reports.EraseOk n := fun n => by rw [hreports]
  have hcompletes' : (mmcInit emmcSlot st.mmc).Completes := by
    have htransfers : (mmcInit emmcSlot st.mmc).transferReports =
        st.mmc.transferReports := congrArg Reports.transfers hreports
    intro report hreport
    exact hcompletes report (htransfers ▸ hreport)
  constructor
  · intro hexact
    obtain ⟨hstored, hsame⟩ := hexact.okay rfl
    have hclean : (mmcInit emmcSlot st.mmc).reports.EraseOk
        (erasedSectors ptn.length) := by
      by_contra hnot
      have hlt := herased.errors_lt hnot
      rw [hsame, herrors] at hlt
      exact absurd hlt (lt_irrefl _)
    have hlength := herased.length_eq hcompletes' hclean
    rw [hstored, hwritten, List.length_append, transferred_length] at hlength
    have hcount : erasedSectors ptn.length = ptn.length / 512 := by omega
    obtain ⟨hmod, hlt⟩ := (erasedSectors_eq_iff hsectors).mp hcount
    exact ⟨hmod, hlt, (hok _).mp (hcount ▸ hclean)⟩
  · rintro ⟨hmod, hlt, hclean⟩
    have hcount := (erasedSectors_eq_iff hsectors).mpr ⟨hmod, hlt⟩
    rw [hcount] at herased
    have hinside := hcard.inside
    have haddressable := hcard.addressable
    have hstored : mmc'.written = st.mmc.written ++ transferred emmcSlot
        ptn.start (ptn.length / 512) fun _ => erasedBlock :=
      (herased.written_eq hcompletes' ((hok _).mpr hclean) ptn.start rfl
        (hinside.trans haddressable)).trans (by rw [← hwritten])
    exact
      { within := ⟨_, hstored, fun w hw => mem_transferred hw⟩
        okay := fun _ => ⟨hstored,
          (herased.errors_eq ((hok _).mpr hclean)).trans herrors⟩
        answered := fun _ => rfl }

/-! ## An erase that fails -/

/-- A board with the system partition on a card of 1000 sectors, and the given
reports for the coming commands. -/
def cardBoard (commandReports : List (List ℕ)) : State :=
  initialState [systemPtn]
    { idleHost with
      initReports := [some ⟨.sectorMode, 1000⟩]
      commandReports := commandReports }
    (fun _ => 0) (fun _ => 0)

theorem cardBoard_onCard (commandReports : List (List ℕ)) :
    OnCard systemPtn (mmcInit emmcSlot (cardBoard commandReports).mmc) where
  configured := rfl
  start_lt := by decide
  inside := by
    show 100 + 1024 / 512 ≤ 1000
    decide
  size_lt := by
    show 1000 < 2 ^ 32
    decide
  addressable := by
    show 1000 ≤ 2 ^ 32
    decide

/-- A controller without faults erases the two sectors. -/
theorem erase_exact_iff_cardBoard :
    ErasesExactly systemPtn
        (step (emmcBoard 8 (by decide)) (cardBoard [])
          (.packet (text "erase:system") quietBoard)).2 (cardBoard []).mmc
        (step (emmcBoard 8 (by decide)) (cardBoard [])
          (.packet (text "erase:system") quietBoard)).1.mmc ↔
      systemPtn.length % 512 = 0 ∧ systemPtn.length < 2 ^ 31 ∧
        (cardBoard []).mmc.reports.EraseOk (systemPtn.length / 512) :=
  erase_exact_iff rfl rfl rfl (by decide) (by decide) (cardBoard_onCard [])
    (fun report hreport => absurd hreport List.not_mem_nil)

/-- The card refuses the write command, and the answer is `OKAY`. -/
theorem not_erase_exact :
    ¬ ∀ (iface : Interface) (board : Board) (st : State)
      (cmdbuf : List UInt8) (ptn : Ptentry),
      st.left = false → st.downloadSize = 0 →
      iface.storageMedium = .emmc → startsWith cmdbuf "erase:" = true →
      findEntry st.ptable (cmdbuf.drop 6) = some ptn →
      OnCard ptn (mmcInit emmcSlot st.mmc) → st.mmc.Completes →
      ErasesExactly ptn (step iface st (.packet cmdbuf board)).2 st.mmc
        (step iface st (.packet cmdbuf board)).1.mmc := by
  intro hclaim
  have hexact := hclaim (emmcBoard 8 (by decide)) quietBoard
    (cardBoard [[0x8000]]) (text "erase:system") systemPtn rfl rfl rfl
    (by decide) (by decide) (cardBoard_onCard _)
    (fun report hreport => absurd hreport List.not_mem_nil)
  have hnone : (step (emmcBoard 8 (by decide)) (cardBoard [[0x8000]])
      (.packet (text "erase:system") quietBoard)).1.mmc.errors ≠ [] := by
    decide +kernel
  exact hnone (hexact.okay (by decide)).2

end TateFirmware.Fastboot
