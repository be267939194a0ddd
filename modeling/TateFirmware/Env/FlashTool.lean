import TateFirmware.Env.FlashSave

/-!
# A loss of power in the Linux tool

`flash_io` writes the header with the active flag in front of the data and marks
the copy in use as obsolete last.  In between both copies may be active, and then
the first one is used.
-/

namespace TateFirmware.Env

open LibGeneric Support FlashOp

section Tool

variable {lay : FlashLayout} {flash f : Memory UInt8} {cur : Copy} {crc : UInt32}
  {data : List UInt8}

/-- The flash as `flash_io` finds it: `curdev` is the copy in use, if there is one. -/
def FwReady (lay : FlashLayout) (flash : Memory UInt8) (cur : Copy) : Prop :=
  Chosen (slotAt lay flash) cur ∨ Blank (slotAt lay flash)

/-- `env_init` of the tool finds such a copy. -/
theorem fwReady_of_sound (h : Sound (slotAt lay flash)) :
    FwReady lay flash (fwEnvInit lay flash).curdev := by
  rcases h with hblank | ⟨c, hchosen⟩
  · exact Or.inr hblank
  · left
    rw [(envInit_of_chosen hchosen).2.2]
    exact hchosen

theorem FwReady.sound (h : FwReady lay flash cur) : Sound (slotAt lay flash) := by
  rcases h with hchosen | hblank
  · exact Or.inr ⟨cur, hchosen⟩
  · exact Or.inl hblank

/-- The copy in use is as it was and the other one is not valid. -/
theorem FwReady.saveCut_alone (h : FwReady lay flash cur)
    (hcur : slotAt lay f cur = slotAt lay flash cur)
    (hother : (slotAt lay f cur.other).ok = false) :
    SaveCut lay flash data f := by
  obtain ⟨hsound, hforce⟩ := @inForce_alone lay f cur hother (fun hok => by
    rcases h with hchosen | hblank
    · rw [hcur]
      exact hchosen.known
    · rw [hcur, hblank cur] at hok
      cases hok)
  refine ⟨hsound, Or.inl ?_⟩
  rw [hforce, hcur]
  rcases h with hchosen | hblank
  · rw [if_pos hchosen.ok, inForce_of_chosen hchosen]
  · rw [hblank cur, inForce_of_blank hblank]
    rfl

/-- The copy in use is as it was and the other one is active too. -/
theorem FwReady.saveCut_active (h : FwReady lay flash cur)
    (hcur : slotAt lay f cur = slotAt lay flash cur)
    (hother : slotAt lay f cur.other = ⟨crc, activeFlag, data⟩)
    (hcrc : crc32 0 data = crc) : SaveCut lay flash data f := by
  have hok : (slotAt lay f cur.other).ok = true := by
    rw [hother]
    exact decide_eq_true hcrc
  have hdata : (slotAt lay f cur.other).contents = data := by rw [hother]
  have hactive : (slotAt lay f cur.other).flags = activeFlag := by rw [hother]
  rcases h with hchosen | hblank
  · have hboth := chosen_or_chosen (by rw [hcur]; exact hchosen.ok)
      (by rw [hcur]; exact hchosen.known) hok hactive
    rcases hboth with hold | hnew
    · refine ⟨Or.inr ⟨cur, hold⟩, Or.inl ?_⟩
      rw [inForce_of_chosen hold, inForce_of_chosen hchosen, hcur]
    · exact saveCut_new hnew hdata
  · refine saveCut_new ⟨hok, Or.inr (Or.inl hactive), fun hvalid => ?_⟩ hdata
    rw [Copy.other_other, hcur, hblank cur] at hvalid
    cases hvalid

/-- The copy in use is obsolete and the other one active. -/
theorem chosen_of_obsolete (hcur : (slotAt lay f cur).flags = obsoleteFlag)
    (hother : slotAt lay f cur.other = ⟨crc, activeFlag, data⟩)
    (hcrc : crc32 0 data = crc) : Chosen (slotAt lay f) cur.other := by
  refine chosen_of_beats ?_ (Or.inl ⟨?_, ?_⟩)
  · rw [hother]
    exact decide_eq_true hcrc
  · rw [hother]
  · rw [Copy.other_other]
    exact hcur

/-- The slots after the erase, the header and the data. -/
theorem flashIo_written (hlen : data.length = lay.cfg.envSize) :
    let erased := FlashOp.apply flash (.erase (lay.addr cur.other) lay.sectSize)
    let header := FlashOp.apply erased
      (.write (lay.addr cur.other) (leBytes crc.toNat ++ [activeFlag]))
    let written := FlashOp.apply header (.write (lay.addr cur.other + 5) data)
    slotAt lay erased = Function.update (slotAt lay flash) cur.other
        (erasedSlot lay.cfg.envSize) ∧
      slotAt lay header = Function.update (slotAt lay flash) cur.other
        ⟨crc, activeFlag, List.replicate lay.cfg.envSize 0xFF⟩ ∧
      slotAt lay written = Function.update (slotAt lay flash) cur.other
        ⟨crc, activeFlag, data⟩ := by
  intro erased header written
  have hactive : (0xFF : UInt8) &&& activeFlag = activeFlag := by decide
  have herased : slotAt lay erased = Function.update (slotAt lay flash) cur.other
      (erasedSlot lay.cfg.envSize) := slots_erase
  have hheader : slotAt lay header = Function.update (slotAt lay flash) cur.other
      ⟨crc, activeFlag, List.replicate lay.cfg.envSize 0xFF⟩ := by
    refine (slots_writeHeader (by rw [herased, Function.update_self]; rfl) crc
      activeFlag).trans ?_
    rw [herased, Function.update_self, Function.update_idem]
    simp only [erasedSlot, hactive]
  refine ⟨herased, hheader, ?_⟩
  refine (slots_writeData (by rw [hheader, Function.update_self]) hlen).trans ?_
  rw [hheader, Function.update_self, Function.update_idem]

/-- Wherever `flash_io` is cut off, and at its end. -/
theorem flashIoOps_cut (h : FwReady lay flash cur)
    (hlen : data.length = lay.cfg.envSize) (hcrc : crc32 0 data = crc)
    (herased : (erasedSlot lay.cfg.envSize).ok = false)
    (hheader : crc32 0 (List.replicate lay.cfg.envSize 0xFF) ≠ crc) :
    Throughout (SaveCut lay flash data) flash
        (flashIoOps lay flash cur crc data) ∧
      Chosen (slotAt lay (applyAll flash (flashIoOps lay flash cur crc data)))
        cur.other ∧
      (slotAt lay (applyAll flash (flashIoOps lay flash cur crc data))
        cur.other).contents = data := by
  have hne : cur ≠ cur.other := (Copy.other_ne cur).symm
  obtain ⟨h₃, h₄, h₅⟩ := @flashIo_written lay flash cur crc data hlen
  set erased := FlashOp.apply flash (.erase (lay.addr cur.other) lay.sectSize)
  set header := FlashOp.apply erased
    (.write (lay.addr cur.other) (leBytes crc.toNat ++ [activeFlag]))
  set written := FlashOp.apply header (.write (lay.addr cur.other + 5) data)
  have hstart : SaveCut lay flash data flash := by
    refine ⟨h.sound, Or.inl rfl⟩
  have hcut₃ : SaveCut lay flash data erased := by
    refine h.saveCut_alone ?_ ?_
    · rw [h₃, Function.update_of_ne hne]
    · rw [h₃, Function.update_self]
      exact herased
  have hcut₄ : SaveCut lay flash data header := by
    refine h.saveCut_alone ?_ ?_
    · rw [h₄, Function.update_of_ne hne]
    · rw [h₄, Function.update_self]
      exact decide_eq_false hheader
  have hcut₅ : ∀ f, slotAt lay f = slotAt lay written →
      SaveCut lay flash data f := by
    intro f hf
    refine h.saveCut_active ?_ ?_ hcrc
    · rw [hf, h₅, Function.update_of_ne hne]
    · rw [hf, h₅, Function.update_self]
  obtain ⟨hrestore, hrestored⟩ := @slots_restoreOps lay written cur.other flash
    (SaveCut lay flash data) hcut₅
  set restored := applyAll written (restoreOps lay flash cur.other)
  have hflag := @slots_writeFlag lay restored cur obsoleteFlag
  have hcur : (slotAt lay (FlashOp.apply restored
      (.write (lay.addr cur + 4) [obsoleteFlag])) cur).flags = obsoleteFlag := by
    rw [hflag, Function.update_self]
    exact UInt8.and_zero
  have hother : slotAt lay (FlashOp.apply restored
      (.write (lay.addr cur + 4) [obsoleteFlag])) cur.other =
        ⟨crc, activeFlag, data⟩ := by
    rw [hflag, Function.update_of_ne hne.symm, hrestored, h₅, Function.update_self]
  have hnew := chosen_of_obsolete hcur hother hcrc
  have hcut₆ := @saveCut_new lay flash cur data _ hnew (by rw [hother])
  have hend : applyAll flash (flashIoOps lay flash cur crc data) =
      FlashOp.apply restored (.write (lay.addr cur + 4) [obsoleteFlag]) := by
    rw [flashIoOps, applyAll_append, applyAll_append]
    rfl
  refine ⟨?_, by rw [hend]; exact hnew, by rw [hend, hother]⟩
  rw [flashIoOps]
  refine throughout_append (throughout_append ?_ hrestore) ?_
  · exact throughout_cons hstart (throughout_cons hstart (throughout_cons hstart
      (throughout_cons hcut₃ (throughout_cons hcut₄
        (throughout_nil (hcut₅ _ rfl))))))
  · rw [applyAll_append]
    exact throughout_cons (hrestore.last) (throughout_cons hcut₆
      (throughout_cons hcut₆ (throughout_nil hcut₆)))

end Tool

end TateFirmware.Env
