import TateFirmware.Env.FlashSlots

/-!
# Saving with a loss of power

`saveenv` and `flash_io` write the copy that is not in use and then change the
flags.  Wherever the operations are cut off, one of the copies is chosen or both
are invalid as before, and the environment in force is the old or the new one.
-/

namespace TateFirmware.Env

open LibGeneric Support FlashOp

/-- Some slot is chosen, or both are invalid. -/
def Sound (s : Copy → Slot) : Prop := Blank s ∨ ∃ c, Chosen s c

section InForce

variable (lay : FlashLayout)

/-- The environment that `env_init` finds, if it is not the default one. -/
def inForce (flash : Memory UInt8) : Option (List UInt8) :=
  match (envInit lay flash).envAddr with
  | .data c => some (slotAt lay flash c).contents
  | _ => none

variable {lay : FlashLayout} {flash : Memory UInt8} {c : Copy}

theorem inForce_of_chosen (h : Chosen (slotAt lay flash) c) :
    inForce lay flash = some (slotAt lay flash c).contents := by
  rw [inForce, (envInit_of_chosen h).1]

theorem inForce_of_blank (h : Blank (slotAt lay flash)) :
    inForce lay flash = none := by
  rw [inForce, (envInit_of_blank h).1]

/-- Where the other slot is not valid. -/
theorem inForce_alone (hother : (slotAt lay flash c.other).ok = false)
    (hknown : (slotAt lay flash c).ok = true →
      KnownFlag (slotAt lay flash c).flags) :
    Sound (slotAt lay flash) ∧ inForce lay flash =
      if (slotAt lay flash c).ok then some (slotAt lay flash c).contents
      else none := by
  by_cases hok : (slotAt lay flash c).ok = true
  · have hchosen : Chosen (slotAt lay flash) c :=
      ⟨hok, hknown hok, fun h => absurd (hother.symm.trans h) Bool.false_ne_true⟩
    rw [if_pos hok]
    exact ⟨Or.inr ⟨c, hchosen⟩, inForce_of_chosen hchosen⟩
  · have hblank : Blank (slotAt lay flash) := by
      intro d
      rcases Copy.eq_or_eq_other c d with rfl | rfl
      · exact Bool.eq_false_iff.mpr hok
      · exact hother
    rw [if_neg hok]
    exact ⟨Or.inl hblank, inForce_of_blank hblank⟩

end InForce

/-! ## U-Boot -/

section Saveenv

variable {lay : FlashLayout} {flash : Memory UInt8} {cur : Copy} {e : EnvT}

/-- The flash as `saveenv` finds it: the copy `flash_addr_new` is not valid or is
obsolete beside an active copy. -/
structure Ready (lay : FlashLayout) (flash : Memory UInt8) (cur : Copy) : Prop where
  known : (slotAt lay flash cur).ok = true →
    (slotAt lay flash cur).flags = obsoleteFlag ∨
      (slotAt lay flash cur).flags = activeFlag
  other : (slotAt lay flash cur.other).ok = true →
    (slotAt lay flash cur.other).flags = obsoleteFlag ∧
      (slotAt lay flash cur).ok = true ∧
        (slotAt lay flash cur).flags = activeFlag

theorem Ready.knownFlag (h : Ready lay flash cur)
    (hok : (slotAt lay flash cur).ok = true) :
    KnownFlag (slotAt lay flash cur).flags := by
  rcases h.known hok with hf | hf
  · exact Or.inl hf
  · exact Or.inr (Or.inl hf)

/-- The copy in use is the one in force. -/
theorem Ready.inForce_eq (h : Ready lay flash cur) :
    Sound (slotAt lay flash) ∧ inForce lay flash =
      if (slotAt lay flash cur).ok then some (slotAt lay flash cur).contents
      else none := by
  by_cases hother : (slotAt lay flash cur.other).ok = true
  · obtain ⟨hg, hok, hf⟩ := h.other hother
    have hchosen : Chosen (slotAt lay flash) cur :=
      chosen_of_beats hok (Or.inl ⟨hf, hg⟩)
    rw [if_pos hok]
    exact ⟨Or.inr ⟨cur, hchosen⟩, inForce_of_chosen hchosen⟩
  · exact inForce_alone (Bool.eq_false_iff.mpr hother) h.knownFlag

/-- Power is lost somewhere in a save: the environment in force is the one before or
the one that is saved. -/
def SaveCut (lay : FlashLayout) (flash : Memory UInt8) (data : List UInt8)
    (f : Memory UInt8) : Prop :=
  Sound (slotAt lay f) ∧
    (inForce lay f = inForce lay flash ∨ inForce lay f = some data)

/-- The copy in use has at most become obsolete and the other one is not valid. -/
theorem Ready.saveCut_alone (h : Ready lay flash cur) {data : List UInt8}
    {f : Memory UInt8} (hcur : slotAt lay f cur = slotAt lay flash cur ∨
      slotAt lay f cur = { slotAt lay flash cur with flags := obsoleteFlag })
    (hother : (slotAt lay f cur.other).ok = false) :
    SaveCut lay flash data f := by
  have hok : (slotAt lay f cur).ok = (slotAt lay flash cur).ok := by
    rcases hcur with hcur | hcur
    · rw [hcur]
    · rw [hcur]
      rfl
  have hdata : (slotAt lay f cur).contents = (slotAt lay flash cur).contents := by
    rcases hcur with hcur | hcur
    · rw [hcur]
    · rw [hcur]
  obtain ⟨hsound, hforce⟩ := @inForce_alone lay f cur hother (fun hvalid => by
    rcases hcur with hcur | hcur
    · rw [hcur]
      exact h.knownFlag (hok ▸ hvalid)
    · rw [hcur]
      exact Or.inl rfl)
  refine ⟨hsound, Or.inl ?_⟩
  rw [hforce, hok, hdata, h.inForce_eq.2]

/-- The new copy is chosen. -/
theorem saveCut_new {data : List UInt8} {f : Memory UInt8}
    (hchosen : Chosen (slotAt lay f) cur.other)
    (hdata : (slotAt lay f cur.other).contents = data) :
    SaveCut lay flash data f := by
  refine ⟨Or.inr ⟨_, hchosen⟩, Or.inr ?_⟩
  rw [inForce_of_chosen hchosen, hdata]

/-- The flash behind `k` operations of `saveenv`. -/
def saveFlash (lay : FlashLayout) (flash : Memory UInt8) (cur : Copy) (e : EnvT)
    (k : ℕ) : Memory UInt8 :=
  applyAll flash ((saveenvOps lay flash cur e).take k)

/-- The other copy is erased and gets its data and its CRC. -/
theorem saveFlash_written :
    slotAt lay (saveFlash lay flash cur e 3) = Function.update (slotAt lay flash)
        cur.other (erasedSlot lay.cfg.envSize) ∧
      slotAt lay (saveFlash lay flash cur e 4) = Function.update
        (slotAt lay flash) cur.other ⟨0xFFFFFFFF, 0xFF, e.contents lay.cfg⟩ ∧
      slotAt lay (saveFlash lay flash cur e 5) = Function.update
        (slotAt lay flash) cur.other ⟨e.crc, 0xFF, e.contents lay.cfg⟩ := by
  have hlen : (e.contents lay.cfg).length = lay.cfg.envSize :=
    Memory.read_length ..
  have h₃ : slotAt lay (saveFlash lay flash cur e 3) = Function.update
      (slotAt lay flash) cur.other (erasedSlot lay.cfg.envSize) := slots_erase
  have h₄ : slotAt lay (saveFlash lay flash cur e 4) = Function.update
      (slotAt lay flash) cur.other ⟨0xFFFFFFFF, 0xFF, e.contents lay.cfg⟩ := by
    refine (@slots_writeData lay (saveFlash lay flash cur e 3) cur.other _
      (by rw [h₃, Function.update_self]; rfl) hlen).trans ?_
    rw [h₃, Function.update_self, Function.update_idem]
    rfl
  refine ⟨h₃, h₄, ?_⟩
  refine (@slots_writeCrc lay (saveFlash lay flash cur e 4) cur.other
    (by rw [h₄, Function.update_self]) e.crc).trans ?_
  rw [h₄, Function.update_self, Function.update_idem]

/-- Then the copy in use becomes obsolete and the other one active. -/
theorem saveFlash_flags :
    slotAt lay (saveFlash lay flash cur e 6) = Function.update (Function.update
        (slotAt lay flash) cur.other ⟨e.crc, 0xFF, e.contents lay.cfg⟩) cur
        { slotAt lay flash cur with flags := obsoleteFlag } ∧
      slotAt lay (saveFlash lay flash cur e 7) = Function.update (Function.update
        (slotAt lay flash) cur.other ⟨e.crc, activeFlag, e.contents lay.cfg⟩) cur
        { slotAt lay flash cur with flags := obsoleteFlag } := by
  have hne : cur ≠ cur.other := (Copy.other_ne cur).symm
  obtain ⟨-, -, h₅⟩ := @saveFlash_written lay flash cur e
  have hobsolete : ∀ f : UInt8, f &&& obsoleteFlag = obsoleteFlag := fun f =>
    UInt8.and_zero
  have hactive : (0xFF : UInt8) &&& activeFlag = activeFlag := by decide
  have h₆ : slotAt lay (saveFlash lay flash cur e 6) = Function.update
      (Function.update (slotAt lay flash) cur.other
        ⟨e.crc, 0xFF, e.contents lay.cfg⟩) cur
        { slotAt lay flash cur with flags := obsoleteFlag } := by
    refine (@slots_writeFlag lay (saveFlash lay flash cur e 5) cur
      obsoleteFlag).trans ?_
    rw [h₅, Function.update_of_ne hne, hobsolete]
  refine ⟨h₆, ?_⟩
  refine (@slots_writeFlag lay (saveFlash lay flash cur e 6) cur.other
    activeFlag).trans ?_
  rw [h₆, Function.update_of_ne hne.symm, Function.update_self, hactive,
    Function.update_comm hne, Function.update_idem]

/-- The rest of the sector is restored behind the seven operations. -/
theorem saveFlash_restore (k : ℕ) :
    saveFlash lay flash cur e (7 + k) = applyAll (saveFlash lay flash cur e 7)
      ((restoreOps lay flash cur.other).take k) := by
  have hops : saveenvOps lay flash cur e = (saveenvOps lay flash cur e).take 7 ++
      restoreOps lay flash cur.other := rfl
  have hlen : ((saveenvOps lay flash cur e).take 7).length = 7 := rfl
  unfold saveFlash
  rw [← applyAll_append]
  conv_lhs => rw [hops, List.take_append, hlen, Nat.add_sub_cancel_left,
    List.take_of_length_le (by rw [hlen]; exact Nat.le_add_right 7 k)]

theorem slotAt_saveFlash_restore (k : ℕ) :
    slotAt lay (saveFlash lay flash cur e (7 + k)) =
      slotAt lay (saveFlash lay flash cur e 7) := by
  rw [saveFlash_restore]
  exact (@slots_restoreOps lay (saveFlash lay flash cur e 7) cur.other flash
    (fun f => slotAt lay f = slotAt lay (saveFlash lay flash cur e 7))
    (fun _ h => h)).1 k

/-- The copy in use is as it was and the other one has the data and fresh flags. -/
theorem Ready.saveCut_fresh (h : Ready lay flash cur) {crc : UInt32}
    {data : List UInt8} {f : Memory UInt8}
    (hf : slotAt lay f =
      Function.update (slotAt lay flash) cur.other ⟨crc, 0xFF, data⟩) :
    SaveCut lay flash data f := by
  have hcur : slotAt lay f cur = slotAt lay flash cur := by
    rw [hf, Function.update_of_ne (Copy.other_ne cur).symm]
  have hother : slotAt lay f cur.other = ⟨crc, 0xFF, data⟩ := by
    rw [hf, Function.update_self]
  by_cases hok : (slotAt lay f cur.other).ok = true
  · refine saveCut_new ⟨hok, ?_, fun hcurok => ?_⟩ (by rw [hother])
    · rw [hother]
      exact Or.inr (Or.inr rfl)
    · rw [Copy.other_other, hcur] at hcurok ⊢
      rw [hother]
      exact Or.inr (Or.inl ⟨rfl, h.known hcurok⟩)
  · exact h.saveCut_alone (Or.inl hcur) (Bool.eq_false_iff.mpr hok)

section Matching

variable (hcrc : e.crcOk lay.cfg = true)

include hcrc

/-- Once the copy in use is obsolete the new one is chosen. -/
theorem saveFlash_chosen {k : ℕ} (hk : 6 ≤ k) :
    Chosen (slotAt lay (saveFlash lay flash cur e k)) cur.other ∧
      (slotAt lay (saveFlash lay flash cur e k) cur.other).contents =
        e.contents lay.cfg := by
  have hne : cur.other ≠ cur := Copy.other_ne cur
  have hok : ∀ flag, Slot.ok ⟨e.crc, flag, e.contents lay.cfg⟩ = true :=
    fun _ => decide_eq_true (EnvT.crcOk_iff.mp hcrc)
  obtain ⟨h₆, h₇⟩ := @saveFlash_flags lay flash cur e
  rcases Nat.eq_or_lt_of_le hk with rfl | hlt
  · rw [h₆]
    refine ⟨chosen_of_beats ?_ (Or.inr (Or.inl ⟨?_, Or.inl ?_⟩)), ?_⟩
    · rw [Function.update_of_ne hne, Function.update_self]
      exact hok _
    · rw [Function.update_of_ne hne, Function.update_self]
    · rw [Copy.other_other, Function.update_self]
    · rw [Function.update_of_ne hne, Function.update_self]
  · obtain ⟨j, rfl⟩ := Nat.exists_eq_add_of_le hlt
    rw [slotAt_saveFlash_restore, h₇]
    refine ⟨chosen_of_beats ?_ (Or.inl ⟨?_, ?_⟩), ?_⟩
    · rw [Function.update_of_ne hne, Function.update_self]
      exact hok _
    · rw [Function.update_of_ne hne, Function.update_self]
    · rw [Copy.other_other, Function.update_self]
    · rw [Function.update_of_ne hne, Function.update_self]

/-- A save that has run to its end leaves the flash ready for the next one. -/
theorem saveenv_ready :
    Ready lay (applyAll flash (saveenvOps lay flash cur e)) cur.other := by
  have hne : cur.other ≠ cur := Copy.other_ne cur
  obtain ⟨-, h₇⟩ := @saveFlash_flags lay flash cur e
  have hend : slotAt lay (applyAll flash (saveenvOps lay flash cur e)) =
      slotAt lay (saveFlash lay flash cur e 7) := by
    rw [← slotAt_saveFlash_restore (restoreOps lay flash cur.other).length,
      saveFlash_restore, List.take_length]
    rfl
  refine ⟨fun _ => Or.inr ?_, fun _ => ⟨?_, ?_, ?_⟩⟩
  · rw [hend, h₇, Function.update_of_ne hne, Function.update_self]
  · rw [Copy.other_other, hend, h₇, Function.update_self]
  · rw [hend, h₇, Function.update_of_ne hne, Function.update_self]
    exact decide_eq_true (EnvT.crcOk_iff.mp hcrc)
  · rw [hend, h₇, Function.update_of_ne hne, Function.update_self]

end Matching

/-- Without a matching CRC the new copy is never chosen. -/
theorem saveFlash_stale (h : Ready lay flash cur) (hcrc : e.crcOk lay.cfg = false)
    {k : ℕ} (hk : 6 ≤ k) :
    SaveCut lay flash (e.contents lay.cfg) (saveFlash lay flash cur e k) := by
  have hne : cur.other ≠ cur := Copy.other_ne cur
  have hok : ∀ flag, Slot.ok ⟨e.crc, flag, e.contents lay.cfg⟩ = false := fun _ =>
    decide_eq_false fun heq => by
      rw [EnvT.crcOk_iff.mpr heq] at hcrc
      cases hcrc
  obtain ⟨h₆, h₇⟩ := @saveFlash_flags lay flash cur e
  rcases Nat.eq_or_lt_of_le hk with rfl | hlt
  · refine h.saveCut_alone (Or.inr ?_) ?_
    · rw [h₆, Function.update_self]
    · rw [h₆, Function.update_of_ne hne, Function.update_self]
      exact hok _
  · obtain ⟨j, rfl⟩ := Nat.exists_eq_add_of_le hlt
    refine h.saveCut_alone (Or.inr ?_) ?_
    · rw [slotAt_saveFlash_restore, h₇, Function.update_self]
    · rw [slotAt_saveFlash_restore, h₇, Function.update_of_ne hne,
        Function.update_self]
      exact hok _

/-- Wherever `saveenv` is cut off. -/
theorem saveFlash_cut (h : Ready lay flash cur)
    (herased : (erasedSlot lay.cfg.envSize).ok = false) (k : ℕ) :
    SaveCut lay flash (e.contents lay.cfg) (saveFlash lay flash cur e k) := by
  obtain ⟨h₃, h₄, h₅⟩ := @saveFlash_written lay flash cur e
  have hstart : SaveCut lay flash (e.contents lay.cfg) flash :=
    ⟨h.inForce_eq.1, Or.inl rfl⟩
  rcases Nat.lt_or_ge k 6 with hlt | hge
  · interval_cases k
    · exact hstart
    · exact hstart
    · exact hstart
    · refine h.saveCut_alone (Or.inl ?_) ?_
      · rw [h₃, Function.update_of_ne (Copy.other_ne cur).symm]
      · rw [h₃, Function.update_self]
        exact herased
    · exact h.saveCut_fresh h₄
    · exact h.saveCut_fresh h₅
  · cases hcrc : e.crcOk lay.cfg with
    | true =>
        obtain ⟨hchosen, hdata⟩ := @saveFlash_chosen lay flash cur e hcrc k hge
        exact saveCut_new hchosen hdata
    | false => exact saveFlash_stale h hcrc hge

end Saveenv

end TateFirmware.Env
