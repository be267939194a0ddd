import TateFirmware.Fastboot.Target
import TateFirmware.Mmc.Sectors

/-!
# The sectors flash commands write

The size check of a flash command compares the bytes downloaded with the
length of the partition.  What is written depends on more: a raw image is
rounded up to whole sectors, and a sparse image is expanded without any check.
A command whose writes do fit keeps to its partition.
-/

namespace TateFirmware.Fastboot

open Support LibGeneric Sparse Mmc

/-! ## The slot of the expander -/

/-- While a sparse image is being flashed the expander works on the eMMC. -/
def SparseSlot (st : State) : Prop :=
  st.mmcwriteIsSparsed = true → st.sparse.slotNo = emmcSlot

theorem SparseSlot.congr {st st' : State} (hst : SparseSlot st)
    (h : SameWriter st st') : SparseSlot st' := by
  intro hsparse
  rw [h.sparse_eq]
  exact hst (h.isSparsed_eq ▸ hsparse)

namespace PtnWrite

theorem begun_sparseSlot {w : PtnWrite} (h : SparseSlot w.st) :
    SparseSlot w.begun := by
  unfold begun beginWrite
  split
  · dsimp only
    split
    · exact fun _ => rfl
    · exact fun hfalse => Bool.noConfusion hfalse
  · exact h

theorem perform_sparseSlot {w : PtnWrite} (h : SparseSlot w.st) :
    SparseSlot w.perform.2.2 := by
  have hbegun := begun_sparseSlot h
  cases hsparse : w.begun.mmcwriteIsSparsed with
  | true =>
      have hwrite : SparseSlot (writeSparse w.begun).2 := by
        intro _
        unfold writeSparse doUnsparseProcess
        dsimp only
        rw [unsparse_state]
        exact (unsparse_onSlot _ _).1.trans (hbegun hsparse)
      rw [perform_of_sparse hsparse]
      split <;> exact hwrite
  | false =>
      have hwrite : SparseSlot (writeRaw w.ptn w.offset w.begun).2 := hbegun
      rw [perform_of_raw hsparse]
      split <;> exact hwrite

end PtnWrite

theorem rxCommand_sparseSlot {iface : Interface} {board : Board}
    {cmdbuf : List UInt8} {st : State} (hst : SparseSlot st) :
    SparseSlot (rxCommand iface board cmdbuf st).st := by
  by_cases hcmd : IsFlashCommand cmdbuf
  · refine SparseSlot.congr ?_ (rxCommand_sameWriter _ _ _ hcmd)
    cases htarget : commandTarget iface cmdbuf st with
    | none => exact hst
    | some w =>
        exact PtnWrite.perform_sparseSlot
          (hst.congr (commandTarget_sameWriter htarget))
  · rw [IsFlashCommand, not_or] at hcmd
    refine rxCommand_keeps ?_ (fun st h => h) (fun st h => h) hst
    exact
      { outside := fun _ st _ _ h => h
        erase := fun _ st h => by
          unfold erase eraseEmmc
          split
          · split <;> exact h
          · dsimp only
            split <;> exact h
        mmcerase := fun _ st h => by
          unfold mmcerase eraseEmmc
          dsimp only
          split <;> exact h
        download := fun _ st h => by
          unfold download
          dsimp only
          split
          · exact h
          · split <;> exact h
        mmcwrite := fun _ st h => by
          unfold mmcwrite
          split
          · exact h
          · dsimp only
            split
            · exact h
            · rename_i ptn _
              exact PtnWrite.perform_sparseSlot (w := ⟨ptn, 0, _⟩) h
        flash := fun h => absurd h hcmd.1
        multiflash := fun h => absurd h hcmd.2 }

theorem step_sparseSlot {iface : Interface} (st : State) (e : Event)
    (hst : SparseSlot st) : SparseSlot (step iface st e).1 := by
  unfold step
  split
  · exact hst
  · cases e with
    | reset => exact hst
    | packet buffer board =>
        dsimp only
        unfold rxHandler
        split
        · exact hst.congr (rxData_sameFlash iface buffer st).toSameWriter
        · exact rxCommand_sparseSlot hst

/-! ## Writes inside the partition -/

/-- A call stays inside the partition. -/
def CallContained (ptn : Ptentry) (c : WriteCall) : Prop :=
  numSecVal c.len ≠ 0 → ptn.start ≤ c.sector ∧
    c.sector + numSecVal c.len ≤ ptn.start + ptn.length / 512

/-- A write fits its partition, which the card can address.  A raw image has
to fit with its last sector filled up; of a sparse image the sectors that the
headers give for the data of each `RAW` chunk have to. -/
def PtnWrite.Contained (w : PtnWrite) : Prop :=
  w.ptn.start + w.ptn.length / 512 ≤
      sectorLimit (w.begun.mmc.curCardData emmcSlot).mode ∧
    if w.begun.mmcwriteIsSparsed then
      ∀ x ∈ sectionSectors w.begun.download w.begun.sparse, x.2 ≠ 0 →
        w.ptn.start ≤ x.1 ∧ x.1 + x.2 ≤ w.ptn.start + w.ptn.length / 512
    else
      w.offset / 512 + numSecVal w.st.downloadBytes ≤ w.ptn.length / 512

/-- Calls made one after the other stay inside the partition if each does. -/
theorem foldl_make_within {ptn : Ptentry} (calls : List WriteCall) {h : Host}
    (hdisc : h.Disciplined)
    (hlimit : ptn.start + ptn.length / 512 ≤
      sectorLimit (h.curCardData emmcSlot).mode)
    (hcalls : ∀ c ∈ calls, c.slotNo = emmcSlot ∧ CallContained ptn c) :
    StoresWithin h (calls.foldl (WriteCall.make mmcWriter) h) emmcSlot
        ptn.start (ptn.length / 512) ∧
      (calls.foldl (WriteCall.make mmcWriter) h).Disciplined := by
  induction calls generalizing h with
  | nil => exact ⟨StoresWithin.refl h _ _ _, hdisc⟩
  | cons c cs ih =>
      rw [List.forall_mem_cons] at hcalls
      obtain ⟨⟨hslot, hfit⟩, hcs⟩ := hcalls
      have hsame : SameCards h (WriteCall.make mmcWriter h c) :=
        mmcWrite_sameCards c.slotNo c.src c.sector c.len h
      have hdisc' : (WriteCall.make mmcWriter h c).Disciplined :=
        mmcWrite_disciplined hdisc c.src c.sector c.len
      have hfirst : StoresWithin h (WriteCall.make mmcWriter h c) emmcSlot
          ptn.start (ptn.length / 512) := by
        by_cases hzero : numSecVal c.len = 0
        · have hnone : WriteCall.make mmcWriter h c = h := by
            simp [WriteCall.make, mmcWriter, mmcWrite, omapMmcWriteSect, hzero]
          rw [hnone]
          exact StoresWithin.refl h _ _ _
        · obtain ⟨hlo, hhi⟩ := hfit hzero
          have hwithin := @mmcWrite_within emmcSlot h hdisc c.src
            c.sector c.len (by omega)
          rw [WriteCall.make, mmcWriter, hslot]
          exact hwithin.mono hlo hhi
      obtain ⟨hrest, hdone⟩ := ih hdisc'
        (by rw [hsame.curCardData_eq]; exact hlimit) hcs
      exact ⟨hfirst.trans hrest, hdone⟩

namespace PtnWrite

theorem begun_written (w : PtnWrite) :
    w.begun.mmc.written = w.st.mmc.written ∧
      w.begun.mmc.transferReports = w.st.mmc.transferReports := by
  have hinit : (mmcInit emmcSlot w.st.mmc).written = w.st.mmc.written ∧
      (mmcInit emmcSlot w.st.mmc).transferReports =
        w.st.mmc.transferReports := by
    unfold mmcInit
    split <;> exact ⟨rfl, rfl⟩
  unfold begun beginWrite
  split
  · dsimp only
    split <;> exact hinit
  · exact ⟨rfl, rfl⟩

/-- A write that fits stores no sector outside its partition. -/
theorem perform_within {w : PtnWrite} (hslot : SparseSlot w.st)
    (hdisc : w.st.mmc.Disciplined) (hfit : w.Contained) :
    StoresWithin w.st.mmc w.perform.2.2.mmc emmcSlot w.ptn.start
        (w.ptn.length / 512) ∧ w.perform.2.2.mmc.Disciplined := by
  obtain ⟨hwritten, hreports⟩ := w.begun_written
  have hdisc' : w.begun.mmc.Disciplined := by
    intro report hreport
    exact hdisc report (hreports ▸ hreport)
  have hcalls : ∀ c ∈ w.calls, c.slotNo = emmcSlot ∧ CallContained w.ptn c := by
    have hrange := hfit.2
    have hlimit := hfit.1
    unfold calls
    cases hsparse : w.begun.mmcwriteIsSparsed with
    | true =>
        rw [hsparse, if_pos rfl] at hrange
        rw [if_pos rfl]
        intro c hc
        have hlt : sectorLimit (w.begun.mmc.curCardData emmcSlot).mode ≤
            2 ^ 32 := sectorLimit_le _
        have hcovered := expansionCalls_covered (fun x hx hne =>
          (hrange x hx hne).2.trans (hlimit.trans hlt)) hc
        refine ⟨((unsparse_onSlot _ _).2 c hc).trans
          (begun_sparseSlot hslot hsparse), fun hne => ?_⟩
        obtain ⟨x, hx, hlo, hhi⟩ := hcovered hne
        obtain ⟨hstart, hend⟩ := hrange x hx (by omega)
        exact ⟨hstart.trans hlo, hhi.trans hend⟩
    | false =>
        rw [hsparse, if_neg Bool.false_ne_true] at hrange
        rw [if_neg Bool.false_ne_true]
        intro c hc
        obtain rfl := List.mem_singleton.mp hc
        refine ⟨rfl, fun hne => ?_⟩
        dsimp only at hne ⊢
        have hlt : sectorLimit (w.begun.mmc.curCardData emmcSlot).mode ≤
            2 ^ 32 := sectorLimit_le _
        rw [Nat.mod_eq_of_lt (by omega)]
        omega
  rw [perform_mmc]
  obtain ⟨⟨ws, heq, hws⟩, hdone⟩ := foldl_make_within w.calls hdisc' hfit.1 hcalls
  exact ⟨⟨ws, by rw [heq, hwritten], hws⟩, hdone⟩

end PtnWrite

/-! ## Runs -/

/-- A packet that makes the card write in another way than by a flash
command. -/
def WritesOtherwise (cmdbuf : List UInt8) : Prop :=
  ∃ name ∈ ["erase:", "mmcerase:", "mmcwrite:", "oem "],
    startsWith cmdbuf name = true

/-- The card is only written by flash commands for the partition `ptn`. -/
def FlashesOnly (iface : Interface) (ptn : Ptentry) (st : State) :
    Event → Prop
  | .packet cmdbuf _ =>
      st.left = false → st.downloadSize = 0 →
        ¬ WritesOtherwise cmdbuf ∧
        ∀ w, commandTarget iface cmdbuf st = some w → w.ptn = ptn
  | .reset => True

/-- A flash command writes what fits its partition. -/
def WriteFits (iface : Interface) (st : State) : Event → Prop
  | .packet cmdbuf _ =>
      st.left = false → st.downloadSize = 0 →
        ∀ w, commandTarget iface cmdbuf st = some w → w.Contained
  | .reset => True

/-- The side condition on an event of a run that keeps to a partition. -/
def FlashesWithin (iface : Interface) (ptn : Ptentry) (st : State)
    (e : Event) : Prop :=
  FlashesOnly iface ptn st e ∧ WriteFits iface st e

/-- What a run that keeps to the partition has done to the card. -/
structure KeptWithin (ptn : Ptentry) (mmc : Host) (st : State) : Prop where
  sparseSlot : SparseSlot st
  disciplined : st.mmc.Disciplined
  stores : StoresWithin mmc st.mmc emmcSlot ptn.start (ptn.length / 512)

theorem KeptWithin.congr {ptn : Ptentry} {mmc : Host} {st st' : State}
    (hst : KeptWithin ptn mmc st) (h : SameWriter st st') :
    KeptWithin ptn mmc st' where
  sparseSlot := hst.sparseSlot.congr h
  disciplined := h.mmc_eq ▸ hst.disciplined
  stores := h.mmc_eq ▸ hst.stores

theorem rxCommand_keptWithin {iface : Interface} {ptn : Ptentry} {mmc : Host}
    {board : Board} {cmdbuf : List UInt8} {st : State}
    (hother : ¬ WritesOtherwise cmdbuf)
    (hptn : ∀ w, commandTarget iface cmdbuf st = some w → w.ptn = ptn)
    (hfit : ∀ w, commandTarget iface cmdbuf st = some w → w.Contained)
    (hst : KeptWithin ptn mmc st) :
    KeptWithin ptn mmc (rxCommand iface board cmdbuf st).st := by
  by_cases hcmd : IsFlashCommand cmdbuf
  · refine KeptWithin.congr ?_ (rxCommand_sameWriter _ _ _ hcmd)
    cases htarget : commandTarget iface cmdbuf st with
    | none => exact hst
    | some w =>
        have hsame := commandTarget_sameWriter htarget
        have hw := hst.congr hsame
        obtain rfl := hptn w htarget
        obtain ⟨hstores, hdisc⟩ := PtnWrite.perform_within hw.sparseSlot
          hw.disciplined (hfit w htarget)
        exact ⟨PtnWrite.perform_sparseSlot hw.sparseSlot, hdisc,
          hw.stores.trans hstores⟩
  · have hno : ∀ name ∈ ["erase:", "mmcerase:", "mmcwrite:", "oem "],
        ¬ startsWith cmdbuf name = true := fun name hname h =>
      hother ⟨name, hname, h⟩
    rw [IsFlashCommand, not_or] at hcmd
    refine rxCommand_keeps ?_ (fun st h => h.congr ⟨rfl, rfl, rfl⟩)
      (fun st h => h.congr ⟨rfl, rfl, rfl⟩) hst
    exact
      { outside := fun h => absurd h (hno _ (by simp))
        erase := fun h => absurd h (hno _ (by simp))
        mmcerase := fun h => absurd h (hno _ (by simp))
        download := fun _ st h => by
          unfold download
          dsimp only
          split
          · exact h.congr ⟨rfl, rfl, rfl⟩
          · split <;> exact h.congr ⟨rfl, rfl, rfl⟩
        mmcwrite := fun h => absurd h (hno _ (by simp))
        flash := fun h => absurd h hcmd.1
        multiflash := fun h => absurd h hcmd.2 }

theorem step_keptWithin {iface : Interface} {ptn : Ptentry} {mmc : Host}
    (st : State) (e : Event) (hfit : FlashesWithin iface ptn st e)
    (hst : KeptWithin ptn mmc st) :
    KeptWithin ptn mmc (step iface st e).1 := by
  unfold step
  split
  · exact hst
  · rename_i hleft
    cases e with
    | reset => exact hst.congr ⟨rfl, rfl, rfl⟩
    | packet buffer board =>
        dsimp only
        unfold rxHandler
        split
        · exact hst.congr (rxData_sameFlash iface buffer st).toSameWriter
        · rename_i hidle
          have hleft := Bool.not_eq_true _ ▸ hleft
          have hidle := not_not.mp hidle
          obtain ⟨hother, hptn⟩ := hfit.1 hleft hidle
          exact rxCommand_keptWithin hother hptn (hfit.2 hleft hidle) hst

/-- From any reachable state, with a controller that takes no more blocks than
it is told: in every run of flash commands for one partition whose writes fit,
no sector outside the partition is written. -/
theorem flash_within {iface : Interface} {ptable : List Ptentry} {mmc : Host}
    {buffer envData : Memory UInt8} {st : State} {ptn : Ptentry}
    {events : List Event}
    (hst : Reachable (step iface) (initialState ptable mmc buffer envData) st)
    (hdisc : st.mmc.Disciplined)
    (hfit : StepsMeet (step iface) (FlashesWithin iface ptn) st events) :
    StoresWithin st.mmc (run (step iface) st events).1.mmc emmcSlot ptn.start
      (ptn.length / 512) := by
  have hslot : SparseSlot st :=
    hst.invariant step_sparseSlot fun h => Bool.noConfusion h
  exact (run_invariant_of_stepsMeet step_keptWithin
    ⟨hslot, hdisc, StoresWithin.refl _ _ _ _⟩ hfit).stores

/-! ## An image that leaves its partition -/

/-- Download some bytes, given their number in hexadecimal, and flash them to
the system partition. -/
def flashSystem (size : String) (image : List UInt8) : List Event :=
  [.packet (text "download:" ++ text size) quietBoard,
    .packet image quietBoard, .packet (text "flash:system") quietBoard]

/-- The state behind the download. -/
def beforeFlash (size : String) (image : List UInt8) : State :=
  (step (emmcBoard 1024 (by decide))
    (step (emmcBoard 1024 (by decide)) (systemBoard [])
      (.packet (text "download:" ++ text size) quietBoard)).1
    (.packet image quietBoard)).1

/-- The call of `write_to_ptn_emmc` behind the download. -/
def systemWrite (size : String) (image : List UInt8) : PtnWrite :=
  ⟨systemPtn, 0, { beforeFlash size image with fastbootConfirmed := true }⟩

theorem commandTarget_flashSystem {iface : Interface} {size : String}
    {image : List UInt8} {w : PtnWrite}
    (hptable : (beforeFlash size image).ptable = [systemPtn])
    (hw : commandTarget iface (text "flash:system")
      (beforeFlash size image) = some w) : w = systemWrite size image := by
  unfold commandTarget at hw
  rw [if_pos (by decide)] at hw
  obtain ⟨-, hoffset, hst, hentry, -⟩ := flashTarget_eq_some hw
  rw [hptable] at hentry
  have hptn : w.ptn = systemPtn := (Option.some.inj
    ((show findEntry [systemPtn] _ = some systemPtn by decide).symm.trans
      hentry)).symm
  obtain ⟨ptn, offset, st⟩ := w
  simp only at hoffset hst hptn
  rw [hoffset, hst, hptn, systemWrite]

/-- A download does not write to the card. -/
theorem download_not_writes (iface : Interface) (st : State)
    (size : List UInt8) :
    ¬ WritesOtherwise (text "download:" ++ size) ∧
      commandTarget iface (text "download:" ++ size) st = none := by
  have hcmd : startsWith (text "download:" ++ size) "download:" = true :=
    List.isPrefixOf_iff_prefix.mpr (List.prefix_append _ _)
  have hother := startsWith_excludes ["flash:", "multiflash:",
    "erase:", "mmcerase:", "mmcwrite:", "oem "] hcmd (by decide)
  simp only [List.forall_mem_cons] at hother
  obtain ⟨hflash, hmulti, herase, hmmcerase, hmmcwrite, hoem, -⟩ := hother
  constructor
  · simp [WritesOtherwise, herase, hmmcerase, hmmcwrite, hoem]
  · simp [commandTarget, hflash, hmulti]

theorem flashSystem_flashesOnly (size : String) (image : List UInt8)
    (hdown : (step (emmcBoard 1024 (by decide)) (systemBoard [])
      (.packet (text "download:" ++ text size) quietBoard)).1.downloadSize ≠ 0)
    (hptable : (beforeFlash size image).ptable = [systemPtn]) :
    StepsMeet (step (emmcBoard 1024 (by decide)))
      (FlashesOnly (emmcBoard 1024 (by decide)) systemPtn) (systemBoard [])
      (flashSystem size image) := by
  refine ⟨fun _ _ => ?_, fun _ h => absurd h hdown, fun _ _ => ⟨?_, ?_⟩, trivial⟩
  · obtain ⟨hother, hnone⟩ := download_not_writes
      (emmcBoard 1024 (by decide)) (systemBoard []) (text size)
    exact ⟨hother, by simp [hnone]⟩
  · rintro ⟨name, hname, hstarts⟩
    revert name
    decide
  · intro w hw
    change commandTarget _ _ (beforeFlash size image) = _ at hw
    rw [commandTarget_flashSystem hptable hw]
    rfl

/-- A raw image of four bytes fits. -/
theorem flash_within_raw :
    StoresWithin (systemBoard []).mmc
      (run (step (emmcBoard 1024 (by decide))) (systemBoard [])
        (flashSystem "4" (text "data"))).1.mmc emmcSlot 100 2 := by
  refine @flash_within _ _ _ _ _ _ systemPtn _ (Reachable.refl _ _)
    (fun report hreport => absurd hreport (by simp [systemBoard, initialState]))
    ?_
  obtain ⟨hfirst, hdata, hflash, -⟩ := flashSystem_flashesOnly "4"
    (text "data") (by decide) (by decide)
  refine ⟨⟨hfirst, fun _ _ => ?_⟩, ⟨hdata, fun _ h => ?_⟩,
    ⟨hflash, fun _ _ w hw => ?_⟩, trivial⟩
  · simp [download_not_writes]
  · exact absurd h (by decide)
  · change commandTarget _ _ (beforeFlash "4" (text "data")) = _ at hw
    rw [commandTarget_flashSystem (by decide) hw]
    refine ⟨by decide, ?_⟩
    rw [if_neg (by decide)]
    decide

/-- A sparse image of six blocks of 512 bytes: four of no interest, and two,
the second of which is in the image. -/
def sparseSkip : List UInt8 :=
  [0x3a, 0xff, 0x26, 0xed, 1, 0, 0, 0, 28, 0, 12, 0, 0, 2, 0, 0, 5, 0, 0, 0,
    2, 0, 0, 0, 0, 0, 0, 0] ++
  [0xc3, 0xca, 0, 0, 4, 0, 0, 0, 12, 0, 0, 0] ++
  [0xc1, 0xca, 0, 0, 1, 0, 0, 0, 12, 2, 0, 0] ++ List.replicate 512 0xaa

/-- The expansion writes a sector behind the partition. -/
theorem flash_not_within :
    ¬ ∀ (iface : Interface) (ptable : List Ptentry) (mmc : Host)
      (buffer envData : Memory UInt8) (st : State) (ptn : Ptentry)
      (events : List Event),
      Reachable (step iface) (initialState ptable mmc buffer envData) st →
      st.mmc.Disciplined →
      StepsMeet (step iface) (FlashesOnly iface ptn) st events →
      StoresWithin st.mmc (run (step iface) st events).1.mmc emmcSlot
        ptn.start (ptn.length / 512) := by
  intro hclaim
  obtain ⟨ws, heq, hws⟩ := hclaim (emmcBoard 1024 (by decide)) [systemPtn]
    idleHost (fun _ => 0) (fun _ => 0) (systemBoard []) systemPtn
    (flashSystem "234" sparseSkip) (Reachable.refl _ _)
    (fun report hreport => absurd hreport (by simp [systemBoard, initialState]))
    (flashSystem_flashesOnly _ _ (by decide +kernel) (by decide +kernel))
  have hsectors : (run (step (emmcBoard 1024 (by decide))) (systemBoard [])
      (flashSystem "234" sparseSkip)).1.mmc.written.map (·.sector) = [104] := by
    decide +kernel
  have hnone : (systemBoard []).mmc.written = [] := rfl
  rw [heq, hnone, List.nil_append] at hsectors
  obtain ⟨w, hw, hsector⟩ : ∃ w ∈ ws, w.sector = 104 :=
    List.mem_map.mp (by rw [hsectors]; simp)
  have hlt := (hws w hw).2.2
  rw [hsector] at hlt
  exact absurd hlt (by decide)

end TateFirmware.Fastboot
