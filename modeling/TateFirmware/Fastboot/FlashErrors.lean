import TateFirmware.Fastboot.Target

/-!
# Controller errors behind an `OKAY`

Which errors of the MMC controller a flash command answers with a failure.
The return value of `mmc_write` is `0` for one kind of error only, and the
expander does not look at it at all; every other error ends in `OKAY`.
-/

namespace TateFirmware.Fastboot

open Support LibGeneric Sparse Mmc

/-- The errors the controller reports while calls are made one after the
other, on cards of which some are configured. -/
def callsErrors (dev : Slot → Bool) :
    List WriteCall → Reports → List ControllerError
  | [], _ => []
  | c :: cs, r =>
      if dev c.slotNo then
        (loopExchange (numSecVal c.len) r).errors ++
          callsErrors dev cs (loopExchange (numSecVal c.len) r).reports
      else callsErrors dev cs r

theorem foldl_make_errors (calls : List WriteCall) (h : Host) :
    (calls.foldl (WriteCall.make mmcWriter) h).errors =
      h.errors ++ callsErrors h.dev calls h.reports := by
  induction calls generalizing h with
  | nil => simp [callsErrors]
  | cons c cs ih =>
      have hsame : SameCards h (WriteCall.make mmcWriter h c) :=
        mmcWrite_sameCards c.slotNo c.src c.sector c.len h
      rw [List.foldl_cons, ih, hsame.dev_eq, callsErrors]
      cases hdev : h.dev c.slotNo with
      | true =>
          obtain ⟨-, herrors, hreports⟩ :=
            mmcWrite_follows hdev c.src c.sector c.len
          have herrors' : (WriteCall.make mmcWriter h c).errors =
              h.errors ++ (loopExchange (numSecVal c.len) h.reports).errors :=
            herrors
          have hreports' : (WriteCall.make mmcWriter h c).reports =
              (loopExchange (numSecVal c.len) h.reports).reports := hreports
          rw [herrors', hreports', if_pos rfl, List.append_assoc]
      | false =>
          have hnone : WriteCall.make mmcWriter h c = h := by
            simp [WriteCall.make, mmcWriter, mmcWrite, hdev]
          rw [hnone]
          rfl

namespace PtnWrite

/-- The errors the controller reports to the calls of a write. -/
def errors (w : PtnWrite) : List ControllerError :=
  callsErrors w.begun.mmc.dev w.calls w.begun.mmc.reports

/-- The write meets no error, or one that its answer shows: the image is
sparse and one of its headers is wrong, or it is raw and the last error is that
of a command with status byte `0`. -/
def ErrorsReported (w : PtnWrite) : Prop :=
  w.errors = [] ∨
    (w.begun.mmcwriteIsSparsed = true ∧ w.Rejected) ∨
    (w.begun.mmcwriteIsSparsed = false ∧
      ∃ pre stat, w.errors = pre ++ [.command stat] ∧ stat % 256 = 0)

theorem begun_errors (w : PtnWrite) :
    w.begun.mmc.errors = w.st.mmc.errors := by
  have hinit : (mmcInit emmcSlot w.st.mmc).errors = w.st.mmc.errors := by
    unfold mmcInit
    split <;> rfl
  unfold begun beginWrite
  split
  · dsimp only
    split <;> exact hinit
  · rfl

theorem perform_errors (w : PtnWrite) :
    w.perform.2.2.mmc.errors = w.st.mmc.errors ++ w.errors := by
  rw [perform_mmc, foldl_make_errors, begun_errors]
  rfl

theorem perform_errors_iff (w : PtnWrite) :
    w.perform.2.2.mmc.errors = w.st.mmc.errors ↔ w.errors = [] := by
  rw [perform_errors, List.append_right_eq_self]

/-- A raw image is answered with a failure if the last error is that of a
command with status byte `0`, and not otherwise. -/
theorem perform_okay_of_raw_iff {w : PtnWrite}
    (hraw : w.begun.mmcwriteIsSparsed = false) :
    w.perform.2.1 = text "OKAY" ↔
      ¬ ∃ pre stat, w.errors = pre ++ [.command stat] ∧ stat % 256 = 0 := by
  have hcalls : w.errors = if w.begun.mmc.dev emmcSlot then
      (loopExchange (numSecVal w.st.downloadBytes) w.begun.mmc.reports).errors
      else [] := by
    simp [errors, calls, hraw, callsErrors]
  rw [perform_okay_of_raw hraw, hcalls]
  cases hdev : w.begun.mmc.dev emmcSlot with
  | true =>
      obtain ⟨hret, -, -⟩ := mmcWrite_follows hdev w.st.transferBuffer.cell
        ((w.ptn.start + w.offset / 512) % 2 ^ 32) w.st.downloadBytes
      rw [hret, ne_eq, loopExchange_ret_eq_zero_iff, if_pos rfl]
  | false => simp [mmcWrite, hdev]

/-- A write that is answered with `OKAY` met no error, exactly if its answer
shows the errors it met. -/
theorem perform_okay_iff (w : PtnWrite) :
    (w.perform.2.1 = text "OKAY" →
        w.perform.2.2.mmc.errors = w.st.mmc.errors) ↔ w.ErrorsReported := by
  rw [perform_errors_iff, ErrorsReported, imp_iff_or_not]
  cases hsparse : w.begun.mmcwriteIsSparsed with
  | true => simp [perform_okay_of_sparse hsparse]
  | false => simp [perform_okay_of_raw_iff hsparse]

end PtnWrite

/-- The errors met by a flash command are shown by its answer. -/
def ErrorsReported (iface : Interface) (cmdbuf : List UInt8) (st : State) :
    Prop :=
  ∀ w, commandTarget iface cmdbuf st = some w → w.ErrorsReported

/-- In every state, a flash command that answers `OKAY` met no controller
error, exactly if the errors it met are of the kinds its answer shows. -/
theorem flash_okay_iff {iface : Interface} {st : State} {board : Board}
    {cmdbuf : List UInt8} (hleft : st.left = false)
    (hidle : st.downloadSize = 0) (hcmd : IsFlashCommand cmdbuf) :
    ((step iface st (.packet cmdbuf board)).2 = [text "OKAY"] →
        (step iface st (.packet cmdbuf board)).1.mmc.errors = st.mmc.errors) ↔
      ErrorsReported iface cmdbuf st := by
  rw [step_command hleft hidle]
  dsimp only
  have hmmc := (rxCommand_sameWriter iface board st hcmd).mmc_eq
  unfold ErrorsReported
  cases htarget : commandTarget iface cmdbuf st with
  | none =>
      rw [htarget] at hmmc
      simp [hmmc]
  | some w =>
      rw [htarget] at hmmc
      have hsent := rxCommand_sent board hcmd htarget
      rw [hmmc, hsent, ← (commandTarget_sameWriter htarget).mmc_eq]
      simpa using w.perform_okay_iff

/-! ## A data error -/

/-- The state behind the download, with the given transfer reports. -/
def downloaded (transferReports : List (ℕ → List ℕ)) : State :=
  (run (step (emmcBoard 8 eight_lt)) (systemBoard transferReports)
    downloadFour).1

theorem flash_okay_iff_downloaded :
    ((step (emmcBoard 8 (by decide)) (downloaded [])
        (.packet (text "flash:system") quietBoard)).2 = [text "OKAY"] →
      (step (emmcBoard 8 (by decide)) (downloaded [])
        (.packet (text "flash:system") quietBoard)).1.mmc.errors =
        (downloaded []).mmc.errors) ↔
      ErrorsReported (emmcBoard 8 (by decide)) (text "flash:system")
        (downloaded []) :=
  flash_okay_iff (by decide) (by decide)
    (Or.inl (by decide))

/-- The controller reports an error for the data, and the answer is `OKAY`. -/
theorem flash_okay_behind_error :
    ¬ ∀ (iface : Interface) (ptable : List Ptentry) (mmc : Host)
      (buffer envData : Memory UInt8) (events : List Event)
      (cmdbuf : List UInt8) (board : Board),
      let st :=
        (run (step iface) (initialState ptable mmc buffer envData) events).1
      st.left = false → st.downloadSize = 0 → IsFlashCommand cmdbuf →
      (step iface st (.packet cmdbuf board)).2 = [text "OKAY"] →
      (step iface st (.packet cmdbuf board)).1.mmc.errors = st.mmc.errors := by
  intro hclaim
  have h := hclaim (emmcBoard 8 (by decide)) [systemPtn]
    { idleHost with transferReports := [fun _ => [0x8000]] }
    (fun _ => 0) (fun _ => 0) downloadFour (text "flash:system") quietBoard
    (by decide) (by decide) (Or.inl (by decide))
    (by decide +kernel)
  exact absurd h (by decide +kernel)

end TateFirmware.Fastboot
