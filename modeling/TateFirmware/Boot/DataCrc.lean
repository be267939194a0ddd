import TateFirmware.Boot.Bootm

/-!
# The data checksum of a booted image

`do_bootm` announces the verification of the data checksum and does not
verify it.  An image whose data does not have the checksum of its header is
kept from being started by the other checks only.
-/

namespace TateFirmware.Boot

open LibGeneric Support

variable (gunzip : Memory UInt8 → ℕ → ℕ → ℕ → ℕ → Option (Memory UInt8))

/-- If verification is not disabled, control is only transferred to an image
whose data has the checksum of its header. -/
def DataCrcChecked (env : BootEnv) (mem : Memory UInt8)
    (argv : List (List UInt8)) : Prop :=
  env.verifies = true → ∀ entry,
    doBootm gunzip env mem argv = .started entry →
      dataCrc mem (bootAddr env argv) =
        ihDcrc (headerAt mem (bootAddr env argv))

/-- The checks of `do_bootm_linux` let the image pass. -/
def LinuxStarts (mem : Memory UInt8) (hdr : List UInt8)
    (argv : List (List UInt8)) (table : ℕ) (verify : Bool) : Prop :=
  match argv with
  | _ :: ramdisk :: _ =>
      ramdiskOk mem (simpleStrtoul ramdisk 16).1 verify = true
  | _ =>
      ihType hdr = ihTypeMulti → lenPtr mem table 1 ≠ 0 →
        (countAllLens mem table).isSome = true

/-- The image in place is started. -/
def Starts (env : BootEnv) (mem : Memory UInt8) (hdr : List UInt8)
    (argv : List (List UInt8)) (table : ℕ) : Prop :=
  (ihType hdr = ihTypeStandalone → env.autostart ≠ some (text "no")) ∧
    (ihType hdr ≠ ihTypeStandalone → ihOs hdr ≠ ihOsNetbsd →
      ihOs hdr ≠ ihOsRtems → LinuxStarts mem hdr argv table env.verifies)

/-- The checks of `do_bootm` other than that of the data checksum let the
image pass. -/
structure PassesOtherChecks (env : BootEnv) (mem : Memory UInt8)
    (argv : List (List UInt8)) (addr : ℕ) (hdr : List UInt8) : Prop where
  magic : ihMagic hdr = ihMagicValue
  headerChecksum : headerCrc hdr = ihHcrc hdr
  arch : ihArch hdr = ihCpuArm
  type : ihType hdr = ihTypeStandalone ∨ ihType hdr = ihTypeKernel ∨
    ihType hdr = ihTypeMulti
  comp : ihComp hdr = ihCompNone ∨ ihComp hdr = ihCompGzip
  image : ∃ image len mem',
    imageData mem hdr ((addr + imageHeaderSize) % 2 ^ 32) =
        some (image, len) ∧
      loadImage gunzip mem hdr argv addr image len = some mem' ∧
      Starts env mem' hdr argv ((addr + imageHeaderSize) % 2 ^ 32)

theorem doBootmLinux_started_iff (mem : Memory UInt8) (hdr : List UInt8)
    (argv : List (List UInt8)) (table : ℕ) (verify : Bool) :
    (∃ entry, doBootmLinux mem hdr argv table verify = .started entry) ↔
      LinuxStarts mem hdr argv table verify := by
  unfold doBootmLinux LinuxStarts
  split
  · rename_i ramdisk _
    by_cases hok : ramdiskOk mem (simpleStrtoul ramdisk 16).1 verify = true
    · simp [hok]
    · simp [hok]
  · by_cases htable : ihType hdr = ihTypeMulti ∧ lenPtr mem table 1 ≠ 0
    · rw [if_pos htable]
      cases hcount : countAllLens mem table with
      | none => simp [htable.1, htable.2]
      | some n => simp
    · rw [if_neg htable]
      simp only [BootResult.started.injEq, exists_eq', true_iff]
      intro htype hlen
      exact absurd ⟨htype, hlen⟩ htable

theorem startImage_started_iff (env : BootEnv) (mem : Memory UInt8)
    (hdr : List UInt8) (argv : List (List UInt8)) (table : ℕ) :
    (∃ entry, startImage env mem hdr argv table = .started entry) ↔
      Starts env mem hdr argv table := by
  unfold startImage Starts
  by_cases hstandalone : ihType hdr = ihTypeStandalone
  · rw [if_pos hstandalone]
    by_cases hauto : env.autostart = some (text "no")
    · simp [hauto, hstandalone]
    · simp [hauto, hstandalone]
  · rw [if_neg hstandalone]
    by_cases hos : ihOs hdr = ihOsNetbsd ∨ ihOs hdr = ihOsRtems
    · rw [if_pos hos]
      simp only [BootResult.started.injEq, exists_eq', true_iff]
      refine ⟨fun h => absurd h hstandalone, ?_⟩
      intro _ hnetbsd hrtems
      tauto
    · rw [if_neg hos, doBootmLinux_started_iff]
      rw [not_or] at hos
      simp [hstandalone, hos.1, hos.2]

/-- The images that are started, whatever their data. -/
theorem doBootm_started_iff (env : BootEnv) (mem : Memory UInt8)
    (argv : List (List UInt8)) :
    (∃ entry, doBootm gunzip env mem argv = .started entry) ↔
      PassesOtherChecks gunzip env mem argv (bootAddr env argv)
        (headerAt mem (bootAddr env argv)) := by
  unfold doBootm
  dsimp only
  generalize bootAddr env argv = addr
  generalize headerAt mem addr = hdr
  by_cases hmagic : ihMagic hdr = ihMagicValue
  swap
  · rw [if_pos hmagic]
    refine ⟨by simp, fun h => absurd h.magic hmagic⟩
  rw [if_neg (not_not_intro hmagic)]
  by_cases hcrc : headerCrc hdr = ihHcrc hdr
  swap
  · rw [if_pos hcrc]
    refine ⟨by simp, fun h => absurd h.headerChecksum hcrc⟩
  rw [if_neg (not_not_intro hcrc)]
  by_cases harch : ihArch hdr = ihCpuArm
  swap
  · rw [if_pos harch]
    refine ⟨by simp, fun h => absurd h.arch harch⟩
  rw [if_neg (not_not_intro harch)]
  by_cases htype : ihType hdr ≠ ihTypeStandalone ∧
      ihType hdr ≠ ihTypeKernel ∧ ihType hdr ≠ ihTypeMulti
  · rw [if_pos htype]
    refine ⟨by simp, fun h => ?_⟩
    have := h.type
    tauto
  rw [if_neg htype]
  split
  · rename_i hdata
    refine ⟨by simp, fun h => ?_⟩
    obtain ⟨image, len, mem', hdata', -⟩ := h.image
    rw [hdata] at hdata'
    cases hdata'
  · rename_i image len hdata
    by_cases hcomp : ihComp hdr ≠ ihCompNone ∧ ihComp hdr ≠ ihCompGzip
    · rw [if_pos hcomp]
      refine ⟨by simp, fun h => ?_⟩
      have := h.comp
      tauto
    rw [if_neg hcomp]
    split
    · rename_i hload
      refine ⟨by simp, fun h => ?_⟩
      obtain ⟨image', len', mem', hdata', hload', -⟩ := h.image
      rw [hdata] at hdata'
      obtain ⟨rfl, rfl⟩ := by simpa using hdata'
      rw [hload] at hload'
      cases hload'
    · rename_i mem' hload
      rw [startImage_started_iff]
      constructor
      · intro hstarts
        exact ⟨hmagic, hcrc, harch, by tauto, by tauto,
          image, len, mem', hdata, hload, hstarts⟩
      · intro h
        obtain ⟨image', len', mem'', hdata', hload', hstarts⟩ := h.image
        rw [hdata] at hdata'
        obtain ⟨rfl, rfl⟩ := by simpa using hdata'
        rw [hload] at hload'
        rwa [Option.some.inj hload']

/-- Only images with the right data checksum are started exactly when the
checksum is right, or another check fails, or verification is disabled. -/
theorem dataCrcChecked_iff (env : BootEnv) (mem : Memory UInt8)
    (argv : List (List UInt8)) :
    DataCrcChecked gunzip env mem argv ↔
      (dataCrc mem (bootAddr env argv) =
          ihDcrc (headerAt mem (bootAddr env argv)) ∨
        ¬ PassesOtherChecks gunzip env mem argv (bootAddr env argv)
          (headerAt mem (bootAddr env argv)) ∨
        env.verifies = false) := by
  rw [← doBootm_started_iff]
  constructor
  · intro hchecked
    by_cases hverify : env.verifies = true
    · by_cases hstarted :
          ∃ entry, doBootm gunzip env mem argv = .started entry
      · obtain ⟨entry, hentry⟩ := hstarted
        exact Or.inl (hchecked hverify entry hentry)
      · exact Or.inr (Or.inl hstarted)
    · exact Or.inr (Or.inr (by simpa using hverify))
  · intro hcond hverify entry hentry
    rcases hcond with hcrc | hnot | hdisabled
    · exact hcrc
    · exact absurd ⟨entry, hentry⟩ hnot
    · rw [hdisabled] at hverify
      cases hverify

/-- A kernel image of one zero byte behind a certificate, with a right header
checksum and the data checksum `0`. -/
def damagedKernel : Memory UInt8 :=
  let m : Memory UInt8 := fun _ => 0
  m.copyIn iswCertificateLengthFull
    [39, 5, 25, 86, 195, 213, 26, 32, 0, 0, 0, 0, 0, 0, 0, 1, 128, 0, 128,
      0, 128, 0, 128, 0, 0, 0, 0, 0, 5, 2, 2, 0]

/-- The damaged kernel is started, and `iminfo` finds nothing wrong. -/
theorem not_dataCrcChecked_damagedKernel :
    ¬ DataCrcChecked (fun _ _ _ _ _ => none) ⟨none, none, 0⟩ damagedKernel [] ∧
      imageInfo damagedKernel iswCertificateLengthFull = .ok := by
  refine ⟨?_, by decide +kernel⟩
  intro hchecked
  have hstarted : doBootm (fun _ _ _ _ _ => none) ⟨none, none, 0⟩
      damagedKernel [] = .started 0x80008000 := by decide +kernel
  have hcrc := hchecked rfl _ hstarted
  exact absurd hcrc (by decide)

end TateFirmware.Boot
