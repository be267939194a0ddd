import TateFirmware.Env.FlashSave

/-!
# Booting with a loss of power

`env_relocate_spec` takes the copy that is not used out of use and then marks the
other one as active.  Wherever this is cut off the same copy is chosen, and at the
end the flash is as `saveenv` expects it.
-/

namespace TateFirmware.Env

open LibGeneric Support FlashOp

section Boot

variable {lay : FlashLayout} {flash : Memory UInt8} {c : Copy}

theorem throughout_writeFlag {P : Memory UInt8 → Prop} {flag : UInt8}
    (h : P flash)
    (hwritten : P (apply flash (.write (lay.addr c + 4) [flag]))) :
    Throughout P flash (writeFlag lay c flag) ∧
      applyAll flash (writeFlag lay c flag) =
        apply flash (.write (lay.addr c + 4) [flag]) :=
  ⟨throughout_cons h (throughout_cons h (throughout_cons hwritten
    (throughout_nil hwritten))), rfl⟩

/-- Slot `c` is chosen and has the contents it had. -/
def StillChosen (lay : FlashLayout) (flash : Memory UInt8) (c : Copy)
    (f : Memory UInt8) : Prop :=
  Chosen (slotAt lay f) c ∧
    (slotAt lay f c).contents = (slotAt lay flash c).contents

/-- The copy that is not used is made obsolete. -/
theorem relocateObsolete_spec (h : Chosen (slotAt lay flash) c) :
    Throughout (StillChosen lay flash c) flash (relocateObsolete lay flash c) ∧
      ((slotAt lay (applyAll flash (relocateObsolete lay flash c)) c.other).ok =
        true → (slotAt lay (applyAll flash (relocateObsolete lay flash c))
          c.other).flags = obsoleteFlag) ∧
      slotAt lay (applyAll flash (relocateObsolete lay flash c)) c =
        slotAt lay flash c := by
  have hstart : StillChosen lay flash c flash := ⟨h, rfl⟩
  unfold relocateObsolete
  split
  · have hslots := @slots_writeFlag lay flash c.other obsoleteFlag
    have hzero : ∀ f : UInt8, f &&& obsoleteFlag = obsoleteFlag := fun f =>
      UInt8.and_zero
    rw [hzero] at hslots
    have hcur : slotAt lay (apply flash
        (.write (lay.addr c.other + 4) [obsoleteFlag])) c = slotAt lay flash c := by
      rw [hslots, Function.update_of_ne (Copy.other_ne c).symm]
    have hother : (slotAt lay (apply flash
        (.write (lay.addr c.other + 4) [obsoleteFlag])) c.other).flags =
          obsoleteFlag := by
      rw [hslots, Function.update_self]
    have hbeats : (slotAt lay flash c.other).ok = true →
        (slotAt lay flash c).flags = activeFlag ∨
          (slotAt lay flash c).flags = 0xFF := by
      intro hok
      rcases h.beats hok with ⟨hf, -⟩ | ⟨hf, -⟩ | ⟨-, hf, -⟩
      · exact Or.inl hf
      · exact Or.inr hf
      · exact Or.inl hf
    have hwritten : StillChosen lay flash c (apply flash
        (.write (lay.addr c.other + 4) [obsoleteFlag])) := by
      refine ⟨⟨by rw [hcur]; exact h.ok, by rw [hcur]; exact h.known,
        fun hok => ?_⟩, by rw [hcur]⟩
      have hsame : (slotAt lay (apply flash
          (.write (lay.addr c.other + 4) [obsoleteFlag])) c.other).ok =
            (slotAt lay flash c.other).ok := by
        rw [hslots, Function.update_self]
        rfl
      rw [hcur, hother]
      rcases hbeats (hsame ▸ hok) with hf | hf
      · exact Or.inl ⟨hf, rfl⟩
      · exact Or.inr (Or.inl ⟨hf, Or.inl rfl⟩)
    obtain ⟨hthroughout, hend⟩ := throughout_writeFlag hstart hwritten
    exact ⟨hthroughout, fun _ => hend ▸ hother, hend ▸ hcur⟩
  · rename_i hskip
    refine ⟨throughout_nil hstart, fun hok => ?_, rfl⟩
    by_contra hflags
    exact hskip ⟨hflags, hok⟩

/-- The copy in use is made active. -/
theorem relocateActive_spec {f : Memory UInt8} (h : StillChosen lay flash c f)
    (hother : (slotAt lay f c.other).ok = true →
      (slotAt lay f c.other).flags = obsoleteFlag) :
    Throughout (StillChosen lay flash c) f (relocateActive lay f c) ∧
      Ready lay (applyAll f (relocateActive lay f c)) c ∧
      ((slotAt lay f c).flags ≠ obsoleteFlag →
        (slotAt lay (applyAll f (relocateActive lay f c)) c).flags = activeFlag) := by
  obtain ⟨hchosen, hdata⟩ := h
  have hflags : (envAt lay f c).flags = (slotAt lay f c).flags := rfl
  unfold relocateActive
  rw [hflags]
  by_cases hfresh : (slotAt lay f c).flags = 0xFF
  · rw [if_pos (by rw [hfresh]; decide)]
    have hslots := @slots_writeFlag lay f c activeFlag
    rw [hfresh, show (0xFF : UInt8) &&& activeFlag = activeFlag by decide] at hslots
    have hothersame : slotAt lay (apply f
        (.write (lay.addr c + 4) [activeFlag])) c.other = slotAt lay f c.other := by
      rw [hslots, Function.update_of_ne (Copy.other_ne c)]
    have hcur : slotAt lay (apply f (.write (lay.addr c + 4) [activeFlag])) c =
        { slotAt lay f c with flags := activeFlag } := by
      rw [hslots, Function.update_self]
    have hok : (slotAt lay (apply f
        (.write (lay.addr c + 4) [activeFlag])) c).ok = true := by
      rw [hcur]
      exact hchosen.ok
    have hactive : (slotAt lay (apply f
        (.write (lay.addr c + 4) [activeFlag])) c).flags = activeFlag := by
      rw [hcur]
    have hwritten : StillChosen lay flash c (apply f
        (.write (lay.addr c + 4) [activeFlag])) := by
      refine ⟨⟨hok, Or.inr (Or.inl hactive), fun hotherok => Or.inl ⟨hactive, ?_⟩⟩,
        by rw [hcur]; exact hdata⟩
      rw [hothersame] at hotherok ⊢
      exact hother hotherok
    obtain ⟨hthroughout, hend⟩ := throughout_writeFlag ⟨hchosen, hdata⟩ hwritten
    refine ⟨hthroughout, ?_, fun _ => hend ▸ hactive⟩
    rw [hend]
    refine ⟨fun _ => Or.inr hactive, fun hotherok => ⟨?_, hok, hactive⟩⟩
    rw [hothersame] at hotherok ⊢
    exact hother hotherok
  · have hknown : (slotAt lay f c).flags = obsoleteFlag ∨
        (slotAt lay f c).flags = activeFlag := by
      rcases hchosen.known with hf | hf | hf
      · exact Or.inl hf
      · exact Or.inr hf
      · exact absurd hf hfresh
    have hskip : ¬ ((slotAt lay f c).flags ≠ activeFlag ∧
        (slotAt lay f c).flags &&& activeFlag = activeFlag) := by
      rintro ⟨hne, hand⟩
      rcases hknown with hf | hf
      · rw [hf] at hand
        exact absurd hand (by decide)
      · exact hne hf
    rw [if_neg hskip]
    refine ⟨throughout_nil ⟨hchosen, hdata⟩, ⟨fun _ => hknown, fun hotherok => ?_⟩,
      fun hne => hknown.resolve_left hne⟩
    refine ⟨hother hotherok, hchosen.ok, ?_⟩
    rcases hchosen.beats hotherok with ⟨hf, -⟩ | ⟨hf, -⟩ | ⟨-, hf, -⟩
    · exact hf
    · exact absurd hf hfresh
    · exact hf

/-- `env_relocate_spec` with the copy that `env_init` has found. -/
theorem relocateOps_spec (h : Chosen (slotAt lay flash) c) :
    Throughout (StillChosen lay flash c) flash (relocateOps lay flash c) ∧
      Ready lay (applyAll flash (relocateOps lay flash c)) c ∧
      ((slotAt lay flash c).flags ≠ obsoleteFlag →
        (slotAt lay (applyAll flash (relocateOps lay flash c)) c).flags =
          activeFlag) := by
  obtain ⟨hobsolete, hother, hsame⟩ := relocateObsolete_spec h
  obtain ⟨hactive, hready, hflags⟩ := relocateActive_spec hobsolete.last hother
  unfold relocateOps
  dsimp only
  rw [applyAll_append]
  exact ⟨throughout_append hobsolete hactive, hready,
    fun hne => hflags (by rw [hsame]; exact hne)⟩

theorem relocateAddr_of_chosen (h : Chosen (slotAt lay flash) c) :
    relocateAddr (envInit lay flash) = c := by
  rw [relocateAddr, (envInit_of_chosen h).1]
  cases c with
  | first => rfl
  | second => rfl

end Boot

end TateFirmware.Env
