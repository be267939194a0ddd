import TateFirmware.Fastboot.Dispatch
import TateFirmware.Sparse.Calls

/-!
# What a flash command writes

The checks of `flash:` and `multiflash:` decide whether `write_to_ptn_emmc` is
called, and for which partition and offset.  The calls of `mmc_write` that
follow are fixed by the transfer buffer and the state of the expander; they
are listed here, so that what a command does to the card is what its calls do.
-/

namespace TateFirmware.Fastboot

open Support LibGeneric Sparse

/-- A call of `write_to_ptn_emmc` and the state it is made in. -/
structure PtnWrite where
  ptn : Ptentry
  offset : ℕ
  st : State

/-- The call made by `flash:`. -/
def flashTarget (iface : Interface) (name : List UInt8) (st : State) :
    Option PtnWrite :=
  match iface.storageMedium with
  | .nand => none
  | .emmc =>
      if st.downloadBytes = 0 then none
      else
        (findEntry st.ptable name).bind fun ptn =>
          if ptn.has flagsWriteEnv ∨ ptn.length < st.downloadBytes then none
          else some ⟨ptn, 0, st⟩

/-- The call made by `multiflash:`. -/
def multiflashTarget (iface : Interface) (name : List UInt8) (st : State) :
    Option PtnWrite :=
  match iface.storageMedium with
  | .nand => none
  | .emmc =>
      if st.downloadBytes = 0 then none
      else
        let st := selectMultiflash (fastbootFlashFindPtn st.ptable name) st
        (findEntry st.ptable name).bind fun ptn =>
          if ptn.has flagsWriteEnv ∨ ptn.length <
              (st.downloadBytes + st.multiflashOffset) % 2 ^ 32 then none
          else some ⟨ptn, st.multiflashOffset, st⟩

/-- The call a command packet leads to. -/
def commandTarget (iface : Interface) (cmdbuf : List UInt8) (st : State) :
    Option PtnWrite :=
  let st := { st with fastbootConfirmed := true }
  if startsWith cmdbuf "flash:" then flashTarget iface (cmdbuf.drop 6) st
  else if startsWith cmdbuf "multiflash:" then
    multiflashTarget iface (cmdbuf.drop 13) st
  else none

namespace PtnWrite

/-- The state behind the first-chunk code of `write_to_ptn_emmc`. -/
def begun (w : PtnWrite) : State :=
  if w.offset = 0 then beginWrite w.ptn w.st else w.st

/-- The calls of `mmc_write`. -/
def calls (w : PtnWrite) : List WriteCall :=
  if w.begun.mmcwriteIsSparsed then
    expansionCalls w.begun.download w.begun.sparse
  else
    [⟨emmcSlot, w.st.transferBuffer.cell,
      (w.ptn.start + w.offset / 512) % 2 ^ 32, w.st.downloadBytes⟩]

/-- The file header of the image, or one of its chunk headers that are reached, is not
one that the expander accepts. -/
def Rejected (w : PtnWrite) : Prop := ¬ SectionOk w.begun.download w.begun.sparse

/-- The whole call. -/
def perform (w : PtnWrite) : Bool × List UInt8 × State :=
  writeToPtnEmmc w.ptn w.offset w.st

theorem begun_transferBuffer (w : PtnWrite) :
    w.begun.transferBuffer = w.st.transferBuffer := by
  unfold begun beginWrite
  split
  · dsimp only
    split <;> rfl
  · rfl

theorem begun_downloadBytes (w : PtnWrite) :
    w.begun.downloadBytes = w.st.downloadBytes := by
  unfold begun beginWrite
  split
  · dsimp only
    split <;> rfl
  · rfl

theorem perform_of_sparse {w : PtnWrite}
    (hsparse : w.begun.mmcwriteIsSparsed = true) :
    w.perform =
      if (writeSparse w.begun).1 = 0 then
        (true, text "OKAY", (writeSparse w.begun).2)
      else (false, text "FAIL: Sparsed Write", (writeSparse w.begun).2) := by
  unfold perform writeToPtnEmmc
  change (if w.begun.mmcwriteIsSparsed = true then _ else _) = _
  rw [if_pos hsparse]
  rfl

theorem perform_of_raw {w : PtnWrite}
    (hraw : w.begun.mmcwriteIsSparsed = false) :
    w.perform =
      if (writeRaw w.ptn w.offset w.begun).1 ≤ 0 then
        (false, text "FAIL: Write partition", (writeRaw w.ptn w.offset w.begun).2)
      else (true, text "OKAY", (writeRaw w.ptn w.offset w.begun).2) := by
  unfold perform writeToPtnEmmc
  change (if w.begun.mmcwriteIsSparsed = true then _ else _) = _
  rw [if_neg (Bool.eq_false_iff.mp hraw)]
  rfl

theorem writeSparse_mmc (st : State) :
    (writeSparse st).2.mmc =
      (expansionCalls st.download st.sparse).foldl
        (WriteCall.make mmcWriter) st.mmc := by
  unfold writeSparse doUnsparseProcess
  dsimp only
  exact unsparse_world mmcWriter st.download st.sparse st.mmc

theorem writeSparse_ret (st : State) :
    (writeSparse st).1 = 0 ↔
      (unsparse recordCall st.download st.sparse []).ret = 0 := by
  unfold writeSparse doUnsparseProcess
  dsimp only
  rw [unsparse_ret]
  split <;> simp_all

/-- The host behind a write is the one behind its calls. -/
theorem perform_mmc (w : PtnWrite) :
    w.perform.2.2.mmc =
      w.calls.foldl (WriteCall.make mmcWriter) w.begun.mmc := by
  unfold calls
  cases hsparse : w.begun.mmcwriteIsSparsed with
  | true =>
      rw [perform_of_sparse hsparse, if_pos rfl, ← writeSparse_mmc]
      split <;> rfl
  | false =>
      rw [perform_of_raw hsparse]
      simp only [Bool.false_eq_true, if_false, List.foldl_cons, List.foldl_nil,
        WriteCall.make, mmcWriter, ← w.begun_transferBuffer,
        ← w.begun_downloadBytes]
      split <;> rfl

/-- A write of a sparse image is answered by what its headers are. -/
theorem perform_okay_of_sparse {w : PtnWrite}
    (hsparse : w.begun.mmcwriteIsSparsed = true) :
    w.perform.2.1 = text "OKAY" ↔ ¬ w.Rejected := by
  rw [perform_of_sparse hsparse, Rejected, not_not, ← unsparse_ret_iff recordCall _ _ [],
    ← writeSparse_ret]
  split
  · rename_i hret
    exact ⟨fun _ => hret, fun _ => rfl⟩
  · rename_i hret
    refine ⟨fun h => ?_, fun h => absurd h hret⟩
    exact absurd (show text "FAIL: Sparsed Write" = text "OKAY" from h)
      (by decide)

/-- A write of a raw image is answered by what `mmc_write` returns. -/
theorem perform_okay_of_raw {w : PtnWrite}
    (hraw : w.begun.mmcwriteIsSparsed = false) :
    w.perform.2.1 = text "OKAY" ↔
      (Mmc.mmcWrite emmcSlot w.st.transferBuffer.cell
        ((w.ptn.start + w.offset / 512) % 2 ^ 32) w.st.downloadBytes
        w.begun.mmc).1 ≠ 0 := by
  have hret : (writeRaw w.ptn w.offset w.begun).1 =
      (Mmc.mmcWrite emmcSlot w.st.transferBuffer.cell
        ((w.ptn.start + w.offset / 512) % 2 ^ 32) w.st.downloadBytes
        w.begun.mmc).1 := by
    rw [← w.begun_transferBuffer, ← w.begun_downloadBytes]
    rfl
  rw [perform_of_raw hraw, ← hret]
  split
  · rename_i hzero
    refine ⟨fun h => ?_, fun h => absurd (Nat.le_zero.mp hzero) h⟩
    exact absurd (show text "FAIL: Write partition" = text "OKAY" from h)
      (by decide)
  · rename_i hpos
    exact ⟨fun _ h => hpos (Nat.le_of_eq h), fun _ => rfl⟩

end PtnWrite

/-! ## The commands -/

/-- Two states with the same card and the same state of the expander. -/
structure SameWriter (st st' : State) : Prop where
  mmc_eq : st'.mmc = st.mmc
  sparse_eq : st'.sparse = st.sparse
  isSparsed_eq : st'.mmcwriteIsSparsed = st.mmcwriteIsSparsed

theorem SameWriter.refl (st : State) : SameWriter st st := ⟨rfl, rfl, rfl⟩

theorem SameWriter.trans {st st' st'' : State} (a : SameWriter st st')
    (b : SameWriter st' st'') : SameWriter st st'' :=
  ⟨b.1.trans a.1, b.2.trans a.2, b.3.trans a.3⟩

/-- Two states that only differ in the download and in what has been
confirmed. -/
structure SameFlash (st st' : State) : Prop extends SameWriter st st' where
  ptable_eq : st'.ptable = st.ptable
  offset_eq : st'.multiflashOffset = st.multiflashOffset
  ptn_eq : st'.multiflashPtn = st.multiflashPtn
  left_eq : st'.left = st.left

theorem SameFlash.refl (st : State) : SameFlash st st :=
  ⟨SameWriter.refl st, rfl, rfl, rfl, rfl⟩

theorem SameFlash.trans {st st' st'' : State} (a : SameFlash st st')
    (b : SameFlash st' st'') : SameFlash st st'' :=
  ⟨a.toSameWriter.trans b.toSameWriter, b.2.trans a.2, b.3.trans a.3,
    b.4.trans a.4, b.5.trans a.5⟩

theorem padDownload_sameFlash (iface : Interface) (pad : ℕ) (st : State) :
    SameFlash st (padDownload iface pad st) := by
  induction pad generalizing st with
  | zero => exact SameFlash.refl st
  | succ pad ih =>
      rw [padDownload]
      split
      · exact SameFlash.refl st
      · refine SameFlash.trans ?_ (ih _)
        exact ⟨⟨rfl, rfl, rfl⟩, rfl, rfl, rfl, rfl⟩

/-- Data packets only change the download. -/
theorem rxData_sameFlash (iface : Interface) (buffer : List UInt8)
    (st : State) : SameFlash st (rxData iface buffer st).st := by
  have hfinish : ∀ st, SameFlash st (finishNand iface st) := by
    intro st
    unfold finishNand
    dsimp only
    split
    · exact ⟨⟨rfl, rfl, rfl⟩, rfl, rfl, rfl, rfl⟩
    · split
      · exact ⟨⟨rfl, rfl, rfl⟩, rfl, rfl, rfl, rfl⟩
      · refine SameFlash.trans ?_ (padDownload_sameFlash iface _ _)
        exact ⟨⟨rfl, rfl, rfl⟩, rfl, rfl, rfl, rfl⟩
  have hstart : ∀ bytes size buf, SameFlash st { st with
      transferBuffer := buf, downloadBytes := bytes, downloadSize := size } :=
    fun _ _ _ => ⟨⟨rfl, rfl, rfl⟩, rfl, rfl, rfl, rfl⟩
  unfold rxData
  split
  · exact SameFlash.refl st
  · dsimp only
    split
    · cases iface.storageMedium with
      | nand => exact (hstart _ _ _).trans (hfinish _)
      | emmc => exact hstart _ _ _
    · exact ⟨⟨rfl, rfl, rfl⟩, rfl, rfl, rfl, rfl⟩

/-- `flash:` without a target writes nothing to the card. -/
theorem flash_of_no_target {iface : Interface} {name : List UInt8} {st : State}
    (h : flashTarget iface name st = none) :
    SameWriter st (flash iface name st).2 := by
  unfold flash
  cases hmedium : iface.storageMedium with
  | nand =>
      simp only [flashNand]
      split
      · exact SameWriter.refl st
      · split
        · exact SameWriter.refl st
        · split
          · exact SameWriter.refl st
          · split
            · split <;> exact ⟨rfl, rfl, rfl⟩
            · split <;> exact ⟨rfl, rfl, rfl⟩
  | emmc =>
      simp only [flashTarget, hmedium] at h
      simp only [flashEmmc]
      split
      · exact SameWriter.refl st
      · rename_i hbytes
        rw [if_neg hbytes] at h
        split
        · exact SameWriter.refl st
        · rename_i ptn hentry
          rw [hentry, Option.bind_some] at h
          split
          · exact SameWriter.refl st
          · split
            · exact ⟨rfl, rfl, rfl⟩
            · rename_i hfit henv
              rw [if_neg (by tauto)] at h
              simp at h

theorem flash_of_target {iface : Interface} {name : List UInt8} {st : State}
    {w : PtnWrite} (h : flashTarget iface name st = some w) :
    flash iface name st = w.perform.2 := by
  unfold flash
  cases hmedium : iface.storageMedium with
  | nand => simp [flashTarget, hmedium] at h
  | emmc =>
      simp only [flashTarget, hmedium] at h
      simp only [flashEmmc]
      split
      · rename_i hbytes
        simp [if_pos hbytes] at h
      · rename_i hbytes
        rw [if_neg hbytes] at h
        cases hentry : findEntry st.ptable name with
        | none => simp [hentry] at h
        | some ptn =>
            rw [hentry, Option.bind_some] at h
            by_cases hrefused : ptn.has flagsWriteEnv = true ∨
                ptn.length < st.downloadBytes
            · rw [if_pos hrefused] at h
              simp at h
            · rw [if_neg hrefused] at h
              obtain rfl := Option.some.inj h
              simp only
              rw [if_neg (by tauto), if_neg (by tauto)]
              rfl

theorem selectMultiflash_sameWriter (ptn : Option ℕ) (st : State) :
    SameWriter st (selectMultiflash ptn st) := by
  unfold selectMultiflash
  split <;> exact ⟨rfl, rfl, rfl⟩

@[simp] theorem selectMultiflash_downloadBytes (ptn : Option ℕ) (st : State) :
    (selectMultiflash ptn st).downloadBytes = st.downloadBytes := by
  unfold selectMultiflash
  split <;> rfl

theorem selectMultiflash_ptn (ptn : Option ℕ) (st : State) :
    (selectMultiflash ptn st).multiflashPtn = ptn := by
  unfold selectMultiflash
  split
  · rfl
  · rename_i h
    exact (not_not.mp h).symm

theorem selectMultiflash_frame (ptn : Option ℕ) (st : State) :
    (selectMultiflash ptn st).transferBuffer = st.transferBuffer ∧
      (selectMultiflash ptn st).left = st.left ∧
      (selectMultiflash ptn st).downloadSize = st.downloadSize := by
  unfold selectMultiflash
  split <;> exact ⟨rfl, rfl, rfl⟩

@[simp] theorem selectMultiflash_ptable (ptn : Option ℕ) (st : State) :
    (selectMultiflash ptn st).ptable = st.ptable := by
  unfold selectMultiflash
  split <;> rfl

theorem advanceMultiflash_sameWriter (last : Bool) (st : State) :
    SameWriter st (advanceMultiflash last st) := by
  unfold advanceMultiflash
  split <;> exact ⟨rfl, rfl, rfl⟩

/-- `multiflash:` without a target writes nothing to the card. -/
theorem multiflash_of_no_target {iface : Interface} {last : Bool}
    {name : List UInt8} {st : State}
    (h : multiflashTarget iface name st = none) :
    SameWriter st (multiflash iface last name st).2 := by
  have hselect := selectMultiflash_sameWriter
    (fastbootFlashFindPtn st.ptable name) st
  unfold multiflash
  cases hmedium : iface.storageMedium with
  | nand => exact SameWriter.refl st
  | emmc =>
      simp only [multiflashTarget, hmedium, selectMultiflash_downloadBytes,
        selectMultiflash_ptable] at h
      simp only [multiflashEmmc, selectMultiflash_downloadBytes,
        selectMultiflash_ptable]
      split
      · exact SameWriter.refl st
      · rename_i hbytes
        rw [if_neg hbytes] at h
        split
        · exact hselect
        · rename_i ptn hentry
          rw [hentry, Option.bind_some] at h
          split
          · exact hselect
          · split
            · exact hselect
            · rename_i henv hfit
              rw [if_neg (by tauto)] at h
              simp at h

theorem multiflash_of_target {iface : Interface} {last : Bool}
    {name : List UInt8} {st : State} {w : PtnWrite}
    (h : multiflashTarget iface name st = some w) :
    multiflash iface last name st =
      (w.perform.2.1, if w.perform.1 then advanceMultiflash last w.perform.2.2
        else w.perform.2.2) := by
  unfold multiflash
  cases hmedium : iface.storageMedium with
  | nand => simp [multiflashTarget, hmedium] at h
  | emmc =>
      simp only [multiflashTarget, hmedium, selectMultiflash_downloadBytes,
        selectMultiflash_ptable] at h
      simp only [multiflashEmmc, selectMultiflash_downloadBytes,
        selectMultiflash_ptable]
      split
      · rename_i hbytes
        simp [if_pos hbytes] at h
      · rename_i hbytes
        rw [if_neg hbytes] at h
        cases hentry : findEntry st.ptable name with
        | none => simp [hentry] at h
        | some ptn =>
            rw [hentry, Option.bind_some] at h
            simp only
            generalize selectMultiflash
              (fastbootFlashFindPtn st.ptable name) st = sel at *
            by_cases hrefused : ptn.has flagsWriteEnv = true ∨ ptn.length <
                (st.downloadBytes + sel.multiflashOffset) % 2 ^ 32
            · rw [if_pos hrefused] at h
              simp at h
            · rw [if_neg hrefused] at h
              obtain rfl := Option.some.inj h
              rw [if_neg (by tauto), if_neg (by tauto)]
              rfl

theorem flashTarget_eq_some {iface : Interface} {name : List UInt8}
    {st : State} {w : PtnWrite} (h : flashTarget iface name st = some w) :
    iface.storageMedium = .emmc ∧ w.offset = 0 ∧ w.st = st ∧
      findEntry st.ptable name = some w.ptn ∧
      w.st.downloadBytes ≠ 0 ∧ w.st.downloadBytes ≤ w.ptn.length := by
  unfold flashTarget at h
  cases hmedium : iface.storageMedium with
  | nand => simp [hmedium] at h
  | emmc =>
      simp only [hmedium] at h
      by_cases hbytes : st.downloadBytes = 0
      · simp [if_pos hbytes] at h
      · rw [if_neg hbytes] at h
        obtain ⟨ptn, hentry, hw⟩ := Option.bind_eq_some_iff.mp h
        by_cases hrefused : ptn.has flagsWriteEnv = true ∨
            ptn.length < st.downloadBytes
        · rw [if_pos hrefused] at hw
          simp at hw
        · rw [if_neg hrefused] at hw
          obtain rfl := Option.some.inj hw
          rw [not_or, not_lt] at hrefused
          exact ⟨rfl, rfl, rfl, hentry, hbytes, hrefused.2⟩

theorem multiflashTarget_eq_some {iface : Interface} {name : List UInt8}
    {st : State} {w : PtnWrite}
    (h : multiflashTarget iface name st = some w) :
    iface.storageMedium = .emmc ∧
      w.st = selectMultiflash (fastbootFlashFindPtn st.ptable name) st ∧
      w.offset = w.st.multiflashOffset ∧
      findEntry st.ptable name = some w.ptn ∧
      w.st.downloadBytes ≠ 0 ∧
      (w.st.downloadBytes + w.offset) % 2 ^ 32 ≤ w.ptn.length := by
  unfold multiflashTarget at h
  cases hmedium : iface.storageMedium with
  | nand => simp [hmedium] at h
  | emmc =>
      simp only [hmedium, selectMultiflash_downloadBytes,
        selectMultiflash_ptable] at h
      by_cases hbytes : st.downloadBytes = 0
      · simp [if_pos hbytes] at h
      · rw [if_neg hbytes] at h
        obtain ⟨ptn, hentry, hw⟩ := Option.bind_eq_some_iff.mp h
        generalize hsel : selectMultiflash
          (fastbootFlashFindPtn st.ptable name) st = sel at hw
        have hsame : sel.downloadBytes = st.downloadBytes := by
          rw [← hsel, selectMultiflash_downloadBytes]
        by_cases hrefused : ptn.has flagsWriteEnv = true ∨ ptn.length <
            (st.downloadBytes + sel.multiflashOffset) % 2 ^ 32
        · rw [if_pos hrefused] at hw
          simp at hw
        · rw [if_neg hrefused] at hw
          obtain rfl := Option.some.inj hw
          rw [not_or, not_lt, ← hsame] at hrefused
          exact ⟨rfl, rfl, rfl, hentry, hsame ▸ hbytes, hrefused.2⟩

theorem commandTarget_sameWriter {iface : Interface} {cmdbuf : List UInt8}
    {st : State} {w : PtnWrite}
    (h : commandTarget iface cmdbuf st = some w) : SameWriter st w.st := by
  have hconfirmed : SameWriter st { st with fastbootConfirmed := true } :=
    ⟨rfl, rfl, rfl⟩
  unfold commandTarget at h
  dsimp only at h
  split at h
  · rw [(flashTarget_eq_some h).2.2.1]
    exact hconfirmed
  · split at h
    · rw [(multiflashTarget_eq_some h).2.1]
      exact hconfirmed.trans (selectMultiflash_sameWriter _ _)
    · simp at h

/-- Whether a packet is one of the two flash commands on the eMMC. -/
def IsFlashCommand (cmdbuf : List UInt8) : Prop :=
  startsWith cmdbuf "flash:" = true ∨ startsWith cmdbuf "multiflash:" = true

/-- What a flash command leaves of card and expander is what its call of
`write_to_ptn_emmc` leaves. -/
theorem rxCommand_sameWriter (iface : Interface) (board : Board)
    {cmdbuf : List UInt8} (st : State) (hcmd : IsFlashCommand cmdbuf) :
    SameWriter (((commandTarget iface cmdbuf st).map
      (·.perform.2.2)).getD st) (rxCommand iface board cmdbuf st).st := by
  have hconfirmed : SameWriter st { st with fastbootConfirmed := true } :=
    ⟨rfl, rfl, rfl⟩
  unfold commandTarget
  dsimp only
  by_cases hflash : startsWith cmdbuf "flash:" = true
  · rw [rxCommand_flash iface board st hflash, if_pos hflash]
    unfold stateReply
    dsimp only
    cases htarget : flashTarget iface (cmdbuf.drop 6)
        { st with fastbootConfirmed := true } with
    | none => exact hconfirmed.trans (flash_of_no_target htarget)
    | some w =>
        rw [flash_of_target htarget]
        exact SameWriter.refl _
  · have hmulti := hcmd.resolve_left hflash
    rw [rxCommand_multiflash iface board st hmulti, if_neg hflash,
      if_pos hmulti]
    unfold stateReply
    dsimp only
    cases htarget : multiflashTarget iface (cmdbuf.drop 13)
        { st with fastbootConfirmed := true } with
    | none => exact hconfirmed.trans (multiflash_of_no_target htarget)
    | some w =>
        rw [multiflash_of_target htarget]
        dsimp only
        split
        · exact advanceMultiflash_sameWriter _ _
        · exact SameWriter.refl _

/-- A flash command that writes answers as `write_to_ptn_emmc` does. -/
theorem rxCommand_sent {iface : Interface} (board : Board)
    {cmdbuf : List UInt8} {st : State} {w : PtnWrite}
    (hcmd : IsFlashCommand cmdbuf)
    (htarget : commandTarget iface cmdbuf st = some w) :
    (rxCommand iface board cmdbuf st).sent = [w.perform.2.1] := by
  unfold commandTarget at htarget
  dsimp only at htarget
  by_cases hflash : startsWith cmdbuf "flash:" = true
  · rw [if_pos hflash] at htarget
    rw [rxCommand_flash iface board st hflash]
    unfold stateReply
    dsimp only
    rw [flash_of_target htarget]
  · have hmulti := hcmd.resolve_left hflash
    rw [if_neg hflash, if_pos hmulti] at htarget
    rw [rxCommand_multiflash iface board st hmulti]
    unfold stateReply
    dsimp only
    rw [multiflash_of_target htarget]

end TateFirmware.Fastboot
