import TateFirmware.Env.FlashTool
import TateFirmware.Env.PowerLoss
import TateFirmware.Support.Run

/-!
# Both programs on one flash

U-Boot boots, edits and saves, the Linux tool saves, and power may be lost in every
boot and in every save.  Both programs then select the environment of the last save
or, when that was cut off, possibly the one before it.  A save of U-Boot that runs to
its end with a CRC that does not match the data is the exception.
-/

namespace TateFirmware.Env

open LibGeneric Support FlashOp

/-! ## Runs -/

/-- A save: what `env_init` found when it began, what is saved, and whether the save
has come to its end. -/
structure FlashSave where
  found : Option (List UInt8)
  data : List UInt8
  completed : Bool

/-- The flash, `flash_addr` and `env_ptr` while U-Boot runs, and the last save. -/
structure FlashWorld where
  flash : Memory UInt8
  uboot : Option (Copy × EnvT)
  lastSave : Option FlashSave

/-- What is done next; power is lost behind `cut` operations on the flash, unless
there are no more of them. -/
inductive FlashStep where
  | boot (ram : EnvT) (cut : ℕ)
  | setenv (edit : Edit)
  | saveenv (cut : ℕ)
  /-- `fw_setenv`, with `environment.data` as it has been edited. -/
  | fwSetenv (data : Memory UInt8) (cut : ℕ)

section Step

variable (lay : FlashLayout) (hooks : SetenvHooks) (defaultEnvironment : List UInt8)

/-- What a boot does to the flash. -/
def bootOps (flash : Memory UInt8) : List FlashOp :=
  if (envInit lay flash).envValid = 0 then []
  else relocateOps lay flash (relocateAddr (envInit lay flash))

/-- `saveenv` and `flash_io`: `uboot` is what U-Boot has behind the save. -/
def flashSave (st : FlashWorld) (ops : List FlashOp) (cut : ℕ)
    (data : List UInt8) (uboot : Option (Copy × EnvT)) : FlashWorld × List ℤ :=
  ({ flash := applyAll st.flash (ops.take cut)
     uboot := if cut < ops.length then none else uboot
     lastSave := some ⟨inForce lay st.flash, data, ops.length ≤ cut⟩ },
    if cut < ops.length then [] else [0])

/-- One step; a call of `_do_setenv` that leaves the environment is not followed. -/
def flashStep (st : FlashWorld) : FlashStep → FlashWorld × List ℤ
  | .boot ram cut =>
      let ops := bootOps lay st.flash
      if cut < ops.length then
        ({ st with flash := applyAll st.flash (ops.take cut), uboot := none }, [])
      else
        let booted := bootFlash lay defaultEnvironment ram st.flash
        ({ st with
            flash := booted.flash
            uboot := some (booted.flashAddr, booted.env) }, [])
  | .setenv edit =>
      ({ st with uboot := st.uboot.map fun session =>
          (session.1, (session.2.setenv lay.cfg hooks edit).getD session.2) }, [])
  | .saveenv cut =>
      match st.uboot with
      | none => (st, [])
      | some (cur, e) =>
          flashSave lay st (saveenvOps lay st.flash cur e) cut (e.contents lay.cfg)
            (some (cur.other, e))
  | .fwSetenv data cut =>
      let data := data.read 0 lay.cfg.envSize
      flashSave lay st (flashIoOps lay st.flash (fwEnvInit lay st.flash).curdev
        (crc32 0 data) data) cut data none

end Step

/-! ## What is promised -/

section Promise

variable (lay : FlashLayout)

/-- Both programs select the same copy, or both the default environment. -/
def SameChoice (flash : Memory UInt8) : Prop :=
  (∃ c, (envInit lay flash).envAddr = .data c ∧ (envInit lay flash).envValid ≠ 0 ∧
    fwEnvInit lay flash = ⟨c, false⟩) ∨
  envInit lay flash = ⟨.defaultEnvironment, 0⟩ ∧ fwEnvInit lay flash = ⟨.first, true⟩

/-- `found` is what the last save has written, or what it found, if it was cut off;
without a save it is what the flash held at the start. -/
def OfLastSave (start : Option (List UInt8)) (lastSave : Option FlashSave)
    (found : Option (List UInt8)) : Prop :=
  match lastSave with
  | none => found = start
  | some save => found = some save.data ∨ save.completed = false ∧ found = save.found

instance decidableOfLastSave (start found : Option (List UInt8)) :
    (lastSave : Option FlashSave) → Decidable (OfLastSave start lastSave found)
  | none => inferInstanceAs (Decidable (found = start))
  | some save => inferInstanceAs (Decidable (found = some save.data ∨
      save.completed = false ∧ found = save.found))

/-- Both programs select the environment of the last save. -/
structure SelectsLast (start : Option (List UInt8)) (st : FlashWorld) : Prop where
  same : SameChoice lay st.flash
  last : OfLastSave start st.lastSave (inForce lay st.flash)

/-- A `saveenv` that runs to its end has a CRC that matches the data, and an erased
copy does not match the CRC that the tool writes. -/
def SavesMatching (st : FlashWorld) : FlashStep → Prop
  | .boot _ _ | .setenv _ => True
  | .saveenv cut => ∀ cur e, st.uboot = some (cur, e) →
      (saveenvOps lay st.flash cur e).length ≤ cut → e.crcOk lay.cfg = true
  | .fwSetenv data _ => crc32 0 (List.replicate lay.cfg.envSize 0xFF) ≠
      crc32 0 (data.read 0 lay.cfg.envSize)

end Promise

/-! ## The invariant -/

section Run

variable {lay : FlashLayout} {hooks : SetenvHooks} {defaultEnvironment : List UInt8}
  {start : Option (List UInt8)} {st : FlashWorld}

structure FlashWorld.Inv (lay : FlashLayout) (start : Option (List UInt8))
    (st : FlashWorld) : Prop where
  sound : Sound (slotAt lay st.flash)
  ready : ∀ session, st.uboot = some session → Ready lay st.flash session.1
  last : OfLastSave start st.lastSave (inForce lay st.flash)

theorem sameChoice_of_sound {flash : Memory UInt8} (h : Sound (slotAt lay flash)) :
    SameChoice lay flash := by
  rcases h with hblank | ⟨c, hchosen⟩
  · exact Or.inr (envInit_of_blank hblank)
  · exact Or.inl ⟨c, envInit_of_chosen hchosen⟩

theorem FlashWorld.Inv.selects (h : st.Inv lay start) :
    SelectsLast lay start st :=
  ⟨sameChoice_of_sound h.sound, h.last⟩

/-- A boot changes neither the choice nor what is found. -/
theorem bootOps_spec {flash : Memory UInt8} (h : Sound (slotAt lay flash))
    (ram : EnvT) :
    Throughout (fun f => Sound (slotAt lay f) ∧ inForce lay f = inForce lay flash)
        flash (bootOps lay flash) ∧
      (bootFlash lay defaultEnvironment ram flash).flash =
        applyAll flash (bootOps lay flash) ∧
      Ready lay (applyAll flash (bootOps lay flash))
        (bootFlash lay defaultEnvironment ram flash).flashAddr := by
  rcases h with hblank | ⟨c, hchosen⟩
  · have hvalid : (envInit lay flash).envValid = 0 := by
      rw [(envInit_of_blank hblank).1]
    have hready : Ready lay flash .first := by
      refine ⟨fun hok => ?_, fun hok => ?_⟩
      · rw [hblank] at hok
        cases hok
      · rw [hblank] at hok
        cases hok
    have hboot : bootFlash lay defaultEnvironment ram flash =
        ⟨flash, .first, relocateDefault lay.cfg defaultEnvironment ram, true⟩ :=
      if_pos hvalid
    rw [bootOps, if_pos hvalid, hboot]
    exact ⟨throughout_nil ⟨Or.inl hblank, rfl⟩, rfl, hready⟩
  · obtain ⟨hstill, hready, -⟩ := relocateOps_spec hchosen
    obtain ⟨-, haddr, -, hflash⟩ :=
      bootFlash_of_chosen defaultEnvironment ram hchosen
    rw [bootOps, if_neg (envInit_of_chosen hchosen).2.1,
      relocateAddr_of_chosen hchosen, haddr]
    refine ⟨fun k => ?_, hflash, hready⟩
    obtain ⟨hcut, hsame⟩ := hstill k
    refine ⟨Or.inr ⟨c, hcut⟩, ?_⟩
    rw [inForce_of_chosen hcut, inForce_of_chosen hchosen, hsame]

theorem FlashWorld.Inv.boot (h : st.Inv lay start) (ram : EnvT) (cut : ℕ) :
    (flashStep lay hooks defaultEnvironment st (.boot ram cut)).1.Inv lay
      start := by
  obtain ⟨hcut, hflash, hready⟩ := @bootOps_spec lay defaultEnvironment st.flash
    h.sound ram
  unfold flashStep
  dsimp only
  split
  · obtain ⟨hsound, hforce⟩ := hcut cut
    refine ⟨hsound, fun session hsession => ?_, ?_⟩
    · cases hsession
    · rw [hforce]
      exact h.last
  · obtain ⟨hsound, hforce⟩ := hcut.last
    refine ⟨?_, fun session hsession => ?_, ?_⟩
    · rw [hflash]
      exact hsound
    · obtain rfl := Option.some.inj hsession
      rw [hflash]
      exact hready
    · rw [hflash, hforce]
      exact h.last

/-- A save of which every cut leaves the environment before or the new one, and the
end the new one. -/
theorem FlashWorld.Inv.saved {ops : List FlashOp} {cut : ℕ} {data : List UInt8}
    {uboot : Option (Copy × EnvT)}
    (hcut : SaveCut lay st.flash data (applyAll st.flash (ops.take cut)))
    (hend : ops.length ≤ cut → inForce lay (applyAll st.flash ops) = some data ∧
      ∀ session, uboot = some session →
        Ready lay (applyAll st.flash ops) session.1) :
    (flashSave lay st ops cut data uboot).1.Inv lay start := by
  obtain ⟨hsound, hforce⟩ := hcut
  unfold flashSave
  rcases Nat.lt_or_ge cut ops.length with hlt | hge
  · refine ⟨hsound, fun session hsession => ?_, ?_⟩
    · dsimp only at hsession
      rw [if_pos hlt] at hsession
      cases hsession
    · rcases hforce with hold | hnew
      · exact Or.inr ⟨decide_eq_false (not_le.mpr hlt), hold⟩
      · exact Or.inl hnew
  · obtain ⟨hnew, hready⟩ := hend hge
    rw [← List.take_of_length_le hge] at hnew hready
    refine ⟨hsound, fun session hsession => ?_, Or.inl hnew⟩
    dsimp only at hsession
    rw [if_neg (not_lt.mpr hge)] at hsession
    exact hready session hsession

theorem FlashWorld.Inv.saveenv (h : st.Inv lay start)
    (herased : (erasedSlot lay.cfg.envSize).ok = false) {cut : ℕ}
    (hmatch : SavesMatching lay st (.saveenv cut)) :
    (flashStep lay hooks defaultEnvironment st (.saveenv cut)).1.Inv lay start := by
  unfold flashStep
  cases huboot : st.uboot with
  | none => exact h
  | some session =>
      obtain ⟨cur, e⟩ := session
      have hready := h.ready _ huboot
      refine FlashWorld.Inv.saved (saveFlash_cut hready herased cut) fun hge => ?_
      have hcrc := hmatch cur e huboot hge
      have hlen : 6 ≤ (saveenvOps lay st.flash cur e).length := by
        rw [saveenvOps, List.length_append]
        exact Nat.le_trans (show 6 ≤ 7 by decide) (Nat.le_add_right 7 _)
      obtain ⟨hchosen, hdata⟩ := @saveFlash_chosen lay st.flash cur e hcrc _ hlen
      have hall : saveFlash lay st.flash cur e
          (saveenvOps lay st.flash cur e).length =
            applyAll st.flash (saveenvOps lay st.flash cur e) := by
        rw [saveFlash, List.take_length]
      rw [hall] at hchosen hdata
      refine ⟨by rw [inForce_of_chosen hchosen, hdata], fun session hsession => ?_⟩
      obtain rfl := Option.some.inj hsession
      exact saveenv_ready hcrc

theorem FlashWorld.Inv.fwSetenv (h : st.Inv lay start)
    (herased : (erasedSlot lay.cfg.envSize).ok = false) {data : Memory UInt8}
    {cut : ℕ} (hmatch : SavesMatching lay st (.fwSetenv data cut)) :
    (flashStep lay hooks defaultEnvironment st (.fwSetenv data cut)).1.Inv lay
      start := by
  obtain ⟨hcut, hchosen, hdata⟩ := flashIoOps_cut (fwReady_of_sound h.sound)
    (Memory.read_length data 0 lay.cfg.envSize) rfl herased hmatch
  refine FlashWorld.Inv.saved (hcut cut) fun _ => ⟨?_, fun session hsession => ?_⟩
  · rw [inForce_of_chosen hchosen, hdata]
  · cases hsession

theorem flashStep_inv (herased : (erasedSlot lay.cfg.envSize).ok = false)
    (op : FlashStep) (hmatch : SavesMatching lay st op) (h : st.Inv lay start) :
    (flashStep lay hooks defaultEnvironment st op).1.Inv lay start := by
  cases op with
  | boot ram cut => exact h.boot ram cut
  | setenv edit =>
      refine ⟨h.sound, fun session hsession => ?_, h.last⟩
      obtain ⟨session', hsession', rfl⟩ := Option.map_eq_some_iff.mp hsession
      exact h.ready session' hsession'
  | saveenv cut => exact h.saveenv herased hmatch
  | fwSetenv data cut => exact h.fwSetenv herased hmatch

end Run

/-- A run from a flash in which one copy is chosen or both are invalid. -/
theorem flashRun_selectsLast (lay : FlashLayout) (hooks : SetenvHooks)
    (defaultEnvironment : List UInt8) (flash : Memory UInt8)
    (hsound : Sound (slotAt lay flash))
    (herased : crc32 0 (List.replicate lay.cfg.envSize 0xFF) ≠ 0xFFFFFFFF)
    (ops : List FlashStep)
    (hmatch : StepsMeet (flashStep lay hooks defaultEnvironment)
      (SavesMatching lay) ⟨flash, none, none⟩ ops) :
    SelectsLast lay (inForce lay flash)
      (run (flashStep lay hooks defaultEnvironment) ⟨flash, none, none⟩ ops).1 := by
  refine FlashWorld.Inv.selects ?_
  refine run_invariant_of_stepsMeet (P := FlashWorld.Inv lay (inForce lay flash))
    (fun st op hop h => flashStep_inv (decide_eq_false herased) op hop h) ?_ hmatch
  refine ⟨hsound, fun session hsession => ?_, rfl⟩
  cases hsession

theorem blank_flash : Blank (slotAt (smallLayout 6) fun _ => 0xFF) := by
  intro c
  cases c with
  | first => decide
  | second => decide

/-- The tool saves, then U-Boot boots and its save is cut off. -/
theorem flashRun_selectsLast_alternate : SelectsLast (smallLayout 6)
    (inForce (smallLayout 6) fun _ => 0xFF)
    (run (flashStep (smallLayout 6) freeHooks []) ⟨fun _ => 0xFF, none, none⟩
      [.fwSetenv (fun _ => 1) 20, .boot ⟨0, 0, fun _ => 0⟩ 9, .saveenv 4]).1 := by
  refine flashRun_selectsLast (smallLayout 6) freeHooks [] _ (Or.inl blank_flash)
    (by decide) _ ⟨?_, trivial, ?_, trivial⟩
  · unfold SavesMatching
    decide
  · intro cur e _ hlen
    exact absurd hlen (by simp [saveenvOps])

/-- U-Boot boots from erased flash with the default environment, whose CRC is not
computed, and saves it. -/
theorem not_flashRun_selectsLast : ¬ SelectsLast (smallLayout 6)
    (inForce (smallLayout 6) fun _ => 0xFF)
    (run (flashStep (smallLayout 6) freeHooks []) ⟨fun _ => 0xFF, none, none⟩
      [.boot ⟨0, 0, fun _ => 0⟩ 0, .saveenv 20]).1 := by
  intro h
  exact absurd h.last (by decide)

end TateFirmware.Env
