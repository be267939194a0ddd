import TateFirmware.Env.FlashBoot

/-!
# A loss of power in `saveenv`

When the CRC in RAM matches the data, the next boot finds the environment before or
the one that was saved, wherever power is lost.  The one exception is an environment
of a size for which the CRC of erased flash is itself a word of erased flash.
-/

namespace TateFirmware.Env

open LibGeneric Support FlashOp

section Boot

variable {lay : FlashLayout} {flash : Memory UInt8} {c : Copy}

/-- What is loaded from a copy. -/
theorem relocateEnv_contents (ram : EnvT) :
    (relocateEnv lay flash c ram).contents lay.cfg =
      (slotAt lay flash c).contents := by
  have hsize := @envSize_add lay
  have hholds := Memory.holds_copyIn ram.data 0
    ((flash.read (lay.addr c) lay.cfgEnvSize).drop lay.cfg.headerSize)
  have hdrop : (flash.read (lay.addr c) lay.cfgEnvSize).drop lay.cfg.headerSize =
      (slotAt lay flash c).contents := by
    have hsplit := Memory.read_add flash (lay.addr c) 5 lay.cfg.envSize
    rw [Nat.add_comm, hsize] at hsplit
    rw [hsplit]
    refine (List.drop_left' (Memory.read_length ..)).trans ?_
    refine Memory.read_congr fun k _ => ?_
    rw [Nat.zero_add]
    rfl
  rw [hdrop] at hholds
  have hread := hholds.read_eq
  rw [contents_length] at hread
  rw [EnvT.contents, relocateEnv, EnvT.overwrite, hdrop]
  exact hread

/-- A boot that finds a chosen copy. -/
theorem bootFlash_of_chosen (defaultEnvironment : List UInt8) (ram : EnvT)
    (h : Chosen (slotAt lay flash) c) :
    (bootFlash lay defaultEnvironment ram flash).usesDefault = false ∧
      (bootFlash lay defaultEnvironment ram flash).flashAddr = c ∧
      (bootFlash lay defaultEnvironment ram flash).env.contents lay.cfg =
        (slotAt lay flash c).contents ∧
      (bootFlash lay defaultEnvironment ram flash).flash =
        applyAll flash (relocateOps lay flash c) := by
  obtain ⟨hstill, -⟩ := relocateOps_spec h
  unfold bootFlash
  dsimp only
  rw [if_neg (envInit_of_chosen h).2.1, relocateAddr_of_chosen h]
  exact ⟨rfl, rfl, (relocateEnv_contents ram).trans hstill.last.2, rfl⟩

end Boot

/-- The flags that are in use stand in the valid copies, and one of these is
active. -/
structure HasActive (lay : FlashLayout) (flash : Memory UInt8) : Prop where
  known : ∀ c, (slotAt lay flash c).ok = true →
    KnownFlag (slotAt lay flash c).flags
  active : ∃ c, (slotAt lay flash c).ok = true ∧
    (slotAt lay flash c).flags = activeFlag

theorem HasActive.chosen {lay : FlashLayout} {flash : Memory UInt8}
    (h : HasActive lay flash) : ∃ c, Chosen (slotAt lay flash) c ∧
      (slotAt lay flash c).flags ≠ obsoleteFlag := by
  have hne : ∀ f : UInt8, f = activeFlag ∨ f = 0xFF → f ≠ obsoleteFlag := by
    rintro f (rfl | rfl) <;> decide
  obtain ⟨a, hok, hactive⟩ := h.active
  by_cases hother : (slotAt lay flash a.other).ok = true
  · have hchosen := chosen_or_chosen hother (h.known _ hother)
      (by rw [Copy.other_other]; exact hok) (by rw [Copy.other_other]; exact hactive)
    rw [Copy.other_other] at hchosen
    rcases hchosen with hc | hc
    · refine ⟨_, hc, hne _ ?_⟩
      rcases hc.beats (by rw [Copy.other_other]; exact hok) with
        ⟨hf, -⟩ | ⟨hf, -⟩ | ⟨-, hf, -⟩
      · exact Or.inl hf
      · exact Or.inr hf
      · exact Or.inl hf
    · exact ⟨_, hc, hne _ (Or.inl hactive)⟩
  · exact ⟨a, ⟨hok, Or.inr (Or.inl hactive), fun h => absurd h hother⟩,
      hne _ (Or.inl hactive)⟩

/-- Behind the first `k` operations of `saveenv` a boot finds the environment before
or the one that is saved, and the latter once the copy in use is obsolete. -/
def RecoversWhole (lay : FlashLayout) (defaultEnvironment : List UInt8)
    (ram : EnvT) (booted : FlashBoot) (e : EnvT) (k : ℕ) : Prop :=
  let cut := saveFlash lay booted.flash booted.flashAddr e k
  let next := bootFlash lay defaultEnvironment ram cut
  next.usesDefault = false ∧
    (next.env.contents lay.cfg = booted.env.contents lay.cfg ∨
      next.env.contents lay.cfg = e.contents lay.cfg) ∧
    ((envAt lay cut booted.flashAddr).flags = obsoleteFlag →
      next.env.contents lay.cfg = e.contents lay.cfg)

/-- Before the sixth operation the copy in use is as it was. -/
theorem saveFlash_cur {lay : FlashLayout} {flash : Memory UInt8} {cur : Copy}
    {e : EnvT} {k : ℕ} (hk : k < 6) :
    slotAt lay (saveFlash lay flash cur e k) cur = slotAt lay flash cur := by
  have hne : cur ≠ cur.other := (Copy.other_ne cur).symm
  obtain ⟨h₃, h₄, h₅⟩ := @saveFlash_written lay flash cur e
  interval_cases k
  · rfl
  · rfl
  · rfl
  · rw [h₃, Function.update_of_ne hne]
  · rw [h₄, Function.update_of_ne hne]
  · rw [h₅, Function.update_of_ne hne]

/-- A save of an environment whose CRC matches. -/
theorem saveenv_recovers (lay : FlashLayout) (defaultEnvironment : List UInt8)
    (ram ram' : EnvT) (flash : Memory UInt8) (e : EnvT)
    (hactive : HasActive lay flash) (hcrc : e.crcOk lay.cfg = true)
    (herased : crc32 0 (List.replicate lay.cfg.envSize 0xFF) ≠ 0xFFFFFFFF) (k : ℕ) :
    RecoversWhole lay defaultEnvironment ram'
      (bootFlash lay defaultEnvironment ram flash) e k := by
  obtain ⟨cur, hchosen, hne⟩ := hactive.chosen
  obtain ⟨hthroughout, hready, hflags⟩ := relocateOps_spec hchosen
  obtain ⟨-, hcur, hold, hflash⟩ :=
    bootFlash_of_chosen defaultEnvironment ram hchosen
  have hstill := hthroughout.last
  unfold RecoversWhole
  rw [hcur, hold, hflash]
  generalize applyAll flash (relocateOps lay flash cur) = booted at *
  have hcut := @saveFlash_cut lay booted cur e hready (decide_eq_false herased) k
  have hforce : inForce lay booted = some (slotAt lay flash cur).contents := by
    rw [inForce_of_chosen hstill.1, hstill.2]
  have hsome : ∀ {d : List UInt8}, inForce lay (saveFlash lay booted cur e k) =
      some d → ∃ c, Chosen (slotAt lay (saveFlash lay booted cur e k)) c ∧
        (slotAt lay (saveFlash lay booted cur e k) c).contents = d := by
    intro d hd
    rcases hcut.1 with hblank | ⟨c, hc⟩
    · rw [inForce_of_blank hblank] at hd
      cases hd
    · rw [inForce_of_chosen hc] at hd
      exact ⟨c, hc, Option.some.inj hd⟩
  have hnext : ∀ {d : List UInt8}, inForce lay (saveFlash lay booted cur e k) =
      some d → (bootFlash lay defaultEnvironment ram'
        (saveFlash lay booted cur e k)).usesDefault = false ∧
          (bootFlash lay defaultEnvironment ram'
            (saveFlash lay booted cur e k)).env.contents lay.cfg = d := by
    intro d hd
    obtain ⟨c, hc, hdata⟩ := hsome hd
    obtain ⟨hdefault, -, hcontents, -⟩ :=
      bootFlash_of_chosen defaultEnvironment ram' hc
    exact ⟨hdefault, hcontents.trans hdata⟩
  have hobsolete : (envAt lay (saveFlash lay booted cur e k) cur).flags =
      obsoleteFlag → inForce lay (saveFlash lay booted cur e k) =
        some (e.contents lay.cfg) := by
    intro hflag
    rcases Nat.lt_or_ge k 6 with hlt | hge
    · have hsame : (slotAt lay (saveFlash lay booted cur e k) cur).flags =
          activeFlag := by
        rw [saveFlash_cur hlt, hflags hne]
      exact absurd (hsame.symm.trans hflag) (by decide)
    · obtain ⟨hnew, hdata⟩ := @saveFlash_chosen lay booted cur e hcrc k hge
      rw [inForce_of_chosen hnew, hdata]
  rcases hcut.2 with hsame | hnew
  · obtain ⟨hdefault, hcontents⟩ := hnext (hsame.trans hforce)
    exact ⟨hdefault, Or.inl hcontents, fun hflag => (hnext (hobsolete hflag)).2⟩
  · obtain ⟨hdefault, hcontents⟩ := hnext hnew
    exact ⟨hdefault, Or.inr hcontents, fun hflag => (hnext (hobsolete hflag)).2⟩

/-- Two sectors with a copy of `n` bytes each. -/
def smallLayout (n : ℕ) (hn : 5 ≤ n := by decide) : FlashLayout where
  cfgEnvSize := n
  sectSize := n
  addr := fun c => if c = .first then 0 else n
  header_le := hn
  env_le_sect := le_rfl
  apart := fun c => by cases c <;> simp [Copy.other]

/-- An environment of one byte with its CRC. -/
def tinyEnv (b : UInt8) : EnvT := ⟨crc32 0 [b], 0, fun _ => b⟩

/-- A copy of it that is active, in front of erased flash. -/
def tinyFlash (b : UInt8) : Memory UInt8 :=
  Memory.ofList 0xFF (leBytes (crc32 0 [b]).toNat ++ [activeFlag, b])

theorem tinyFlash_active : HasActive (smallLayout 6) (tinyFlash 0) := by
  refine ⟨fun c hok => ?_, .first, ?_⟩
  · cases c with
    | first =>
        right
        left
        decide
    | second =>
        right
        right
        decide
  · decide

/-- Power is lost behind the write of the data. -/
theorem saveenv_recovers_tiny : RecoversWhole (smallLayout 6) [] ⟨0, 0, fun _ => 0⟩
    (bootFlash (smallLayout 6) [] ⟨0, 0, fun _ => 0⟩ (tinyFlash 0)) (tinyEnv 1) 4 :=
  saveenv_recovers (smallLayout 6) [] _ _ (tinyFlash 0) (tinyEnv 1) tinyFlash_active
    (by decide) (by decide) 4

/-- An environment of four bytes with its CRC. -/
def fourEnv (b : UInt8) : EnvT := ⟨crc32 0 [b, b, b, b], 0, fun _ => b⟩

/-- A copy of it that is active, in front of one that is not valid. -/
def fourFlash (b : UInt8) : Memory UInt8 :=
  Memory.ofList 0
    (leBytes (crc32 0 [b, b, b, b]).toNat ++ [activeFlag, b, b, b, b])

/-- Four erased bytes have the CRC of erased flash, so the erased copy is chosen. -/
theorem not_recoversWhole : ¬ RecoversWhole (smallLayout 9) [] ⟨0, 0, fun _ => 0⟩
    (bootFlash (smallLayout 9) [] ⟨0, 0, fun _ => 0⟩ (fourFlash 0)) (fourEnv 1)
      3 := by
  rintro ⟨-, hwhole, -⟩
  revert hwhole
  decide +kernel

end TateFirmware.Env
