import TateFirmware.Env.Image
import TateFirmware.LibGeneric.Crc32

/-!
# The environment on the eMMC

`saveenv` and `env_relocate_spec` of `common/env_mmc.c`.  Both take the CRC over
`CFG_ENV_SIZE` bytes from `data` on, four more than the structure has.  What is
written and read back are the whole sectors that hold the structure.  So what is
saved is found again exactly when the bytes behind the last of these sectors that
the CRC covers are the same in both places.
-/

namespace TateFirmware.Env

open LibGeneric Support

/-- The place of the environment on a device: `mmc_erase`, `mmc_write` and
`mmc_read` at `CFG_ENV_ADDR`. -/
structure EnvStore (σ : Type*) where
  erase : σ → ℕ → σ
  write : σ → List UInt8 → σ
  read : σ → ℕ → List UInt8
  /-- What has been written is read back. -/
  read_write : ∀ s bytes, read (write s bytes) bytes.length = bytes

/-- The bytes that `omap_mmc_write_sect` and `omap_mmc_read_sect` move for
`num_bytes` bytes: those of `num_sec_val` sectors. -/
def sectorBytes (numBytes : ℕ) : ℕ := (numBytes + 511) % 2 ^ 32 / 512 * 512

/-! ## The code -/

section MmcEnv

variable {σ : Type*} (cfgEnvSize : ℕ) (mmc : EnvStore σ)

/-- The configuration: no second copy. -/
def mmcConfig : EnvConfig := ⟨cfgEnvSize, false⟩

/-- The structure with what is behind it in its last sector. -/
def sectorConfig : EnvConfig := mmcConfig (sectorBytes cfgEnvSize)

/-- `crc32(0, env_ptr->data, CFG_ENV_SIZE)`. -/
def mmcCrc (e : EnvT) : UInt32 := crc32 0 (e.data.read 0 cfgEnvSize)

/-- `saveenv`. -/
def mmcSaveenv (e : EnvT) (card : σ) : EnvT × σ :=
  let card := mmc.erase card cfgEnvSize
  let e := { e with crc := mmcCrc cfgEnvSize e }
  (e, mmc.write card (e.bytes (sectorConfig cfgEnvSize)))

/-- `env_relocate_spec`: the environment, and `use_default`. -/
def mmcRelocateSpec (defaultEnvironment : Memory UInt8) (card : σ) (e : EnvT) :
    EnvT × Bool :=
  let e := e.overwrite (sectorConfig cfgEnvSize)
    (mmc.read card (sectorBytes cfgEnvSize))
  if mmcCrc cfgEnvSize e ≠ e.crc then
    let e := { e with
      data := e.data.copyIn 0 (defaultEnvironment.read 0 cfgEnvSize) }
    ({ e with crc := mmcCrc cfgEnvSize e }, true)
  else (e, false)

end MmcEnv

/-! ## What comes back -/

/-- The environment in RAM is the one that was saved, and not the default. -/
def Restored (cfg : EnvConfig) (saved : EnvT) (relocated : EnvT × Bool) : Prop :=
  relocated.2 = false ∧ relocated.1.contents cfg = saved.contents cfg

section MmcRun

variable {σ : Type*} {cfgEnvSize : ℕ} {mmc : EnvStore σ}

/-- The four bytes behind the structure, which the CRC covers. -/
def behind (cfgEnvSize : ℕ) (e : EnvT) : List UInt8 :=
  e.data.read (mmcConfig cfgEnvSize).envSize 4

/-- Those of them behind the last sector of the structure. -/
def unsaved (cfgEnvSize : ℕ) (e : EnvT) : List UInt8 :=
  e.data.read (sectorConfig cfgEnvSize).envSize
    (cfgEnvSize + 4 - sectorBytes cfgEnvSize)

theorem mmcConfig_envSize (hsize : 4 ≤ cfgEnvSize) :
    (mmcConfig cfgEnvSize).envSize + 4 = cfgEnvSize := by
  have henv := (mmcConfig cfgEnvSize).envSize_eq
  have hheader : (mmcConfig cfgEnvSize).headerSize = 4 := rfl
  have hcfg : (mmcConfig cfgEnvSize).cfgEnvSize = cfgEnvSize := rfl
  omega

/-- The sectors hold the structure. -/
theorem le_sectorBytes (hint : cfgEnvSize < 2 ^ 31) :
    cfgEnvSize ≤ sectorBytes cfgEnvSize := by
  unfold sectorBytes
  omega

/-- The CRC goes over the data and what is behind the structure. -/
theorem mmcCrc_eq (hsize : 4 ≤ cfgEnvSize) (e : EnvT) :
    mmcCrc cfgEnvSize e =
      crc32 0 (e.contents (mmcConfig cfgEnvSize) ++ behind cfgEnvSize e) := by
  have henv := mmcConfig_envSize hsize
  have hread := Memory.read_add e.data 0 (mmcConfig cfgEnvSize).envSize 4
  rw [henv, Nat.zero_add] at hread
  rw [mmcCrc, hread]
  rfl

theorem read_eq_iff {m m' : Memory UInt8} {p q n : ℕ} :
    m.read p n = m'.read q n ↔ ∀ k < n, m (p + k) = m' (q + k) := by
  refine ⟨fun h k hk => ?_, Memory.read_congr⟩
  have hbyte := congrArg (fun l : List UInt8 => l.getD k 0) h
  simpa [Memory.read, hk] using hbyte

section Loaded

variable (ram e : EnvT)

/-- A byte of the memory after the sectors have been read over it. -/
theorem loaded_data (k : ℕ) :
    (ram.overwrite (sectorConfig cfgEnvSize)
        (e.bytes (sectorConfig cfgEnvSize))).data k =
      if k < (sectorConfig cfgEnvSize).envSize then e.data k else ram.data k := by
  have hlen : (e.contents (sectorConfig cfgEnvSize)).length =
      (sectorConfig cfgEnvSize).envSize := Memory.read_length ..
  rw [EnvT.overwrite_bytes]
  dsimp only
  split
  · rename_i hk
    have hcopied := Memory.holds_copyIn ram.data 0
      (e.contents (sectorConfig cfgEnvSize)) k (by omega)
    rw [Nat.zero_add] at hcopied
    rw [hcopied]
    simp [EnvT.contents]
  · exact Memory.copyIn_of_ge (by omega)

/-- The data of the structure comes back. -/
theorem loaded_contents (hsize : 4 ≤ cfgEnvSize) (hint : cfgEnvSize < 2 ^ 31) :
    (ram.overwrite (sectorConfig cfgEnvSize)
        (e.bytes (sectorConfig cfgEnvSize))).contents (mmcConfig cfgEnvSize) =
      e.contents (mmcConfig cfgEnvSize) := by
  have henv := mmcConfig_envSize hsize
  have hle := le_sectorBytes hint
  have hsector : (sectorConfig cfgEnvSize).envSize + 4 = sectorBytes cfgEnvSize :=
    mmcConfig_envSize (hsize.trans hle)
  refine Memory.read_congr fun k hk => ?_
  rw [loaded_data, if_pos (by omega)]

/-- So do the bytes behind it, exactly if those that are not saved are the same. -/
theorem loaded_behind_iff (hsize : 4 ≤ cfgEnvSize) (hint : cfgEnvSize < 2 ^ 31) :
    behind cfgEnvSize (ram.overwrite (sectorConfig cfgEnvSize)
        (e.bytes (sectorConfig cfgEnvSize))) = behind cfgEnvSize e ↔
      unsaved cfgEnvSize ram = unsaved cfgEnvSize e := by
  have henv := mmcConfig_envSize hsize
  have hle := le_sectorBytes hint
  have hsector : (sectorConfig cfgEnvSize).envSize + 4 = sectorBytes cfgEnvSize :=
    mmcConfig_envSize (hsize.trans hle)
  simp only [behind, unsaved, read_eq_iff, loaded_data]
  constructor
  · intro hall k hk
    have hbyte := hall (sectorBytes cfgEnvSize - cfgEnvSize + k) (by omega)
    have hplace : (mmcConfig cfgEnvSize).envSize +
        (sectorBytes cfgEnvSize - cfgEnvSize + k) =
          (sectorConfig cfgEnvSize).envSize + k := by omega
    rwa [hplace, if_neg (by omega)] at hbyte
  · intro hall k hk
    split
    · rfl
    · rename_i hout
      have hbyte := hall ((mmcConfig cfgEnvSize).envSize + k -
        (sectorConfig cfgEnvSize).envSize) (by omega)
      rwa [Nat.add_sub_cancel' (by omega)] at hbyte

end Loaded

/-- Relocation after a reset, with `ram` in memory. -/
theorem mmcRelocateSpec_saveenv (hsize : 4 ≤ cfgEnvSize) (hint : cfgEnvSize < 2 ^ 31)
    (defaultEnvironment : Memory UInt8) (e ram : EnvT) (card : σ) :
    Restored (mmcConfig cfgEnvSize) e
        (mmcRelocateSpec cfgEnvSize mmc defaultEnvironment
          (mmcSaveenv cfgEnvSize mmc e card).2 ram) ↔
      unsaved cfgEnvSize ram = unsaved cfgEnvSize e := by
  set saved : EnvT := { e with crc := mmcCrc cfgEnvSize e } with hsaved
  have hlen : (saved.bytes (sectorConfig cfgEnvSize)).length =
      sectorBytes cfgEnvSize :=
    @EnvT.bytes_length (sectorConfig cfgEnvSize)
      (hsize.trans (le_sectorBytes hint)) saved
  have hread : mmc.read (mmcSaveenv cfgEnvSize mmc e card).2
      (sectorBytes cfgEnvSize) = saved.bytes (sectorConfig cfgEnvSize) := by
    have h := mmc.read_write (mmc.erase card cfgEnvSize)
      (saved.bytes (sectorConfig cfgEnvSize))
    rw [hlen] at h
    exact h
  set loaded := ram.overwrite (sectorConfig cfgEnvSize)
    (saved.bytes (sectorConfig cfgEnvSize)) with hloaded
  have hcontents : loaded.contents (mmcConfig cfgEnvSize) =
      e.contents (mmcConfig cfgEnvSize) := loaded_contents ram saved hsize hint
  have hbehind : behind cfgEnvSize loaded = behind cfgEnvSize e ↔
      unsaved cfgEnvSize ram = unsaved cfgEnvSize e :=
    loaded_behind_iff ram saved hsize hint
  have hcrc : mmcCrc cfgEnvSize loaded = loaded.crc ↔
      unsaved cfgEnvSize ram = unsaved cfgEnvSize e := by
    rw [EnvT.overwrite_bytes_crc, mmcCrc_eq hsize, hcontents, hsaved,
      mmcCrc_eq hsize, ← hbehind]
    exact crc32_tail (Memory.read_length ..) (Memory.read_length ..)
  unfold mmcRelocateSpec
  rw [hread, ← hloaded]
  dsimp only
  by_cases hok : mmcCrc cfgEnvSize loaded = loaded.crc
  · rw [if_neg (not_not.mpr hok)]
    exact ⟨fun _ => hcrc.mp hok, fun _ => ⟨rfl, hcontents⟩⟩
  · rw [if_pos hok]
    constructor
    · rintro ⟨hfalse, -⟩
      cases hfalse
    · exact fun h => absurd (hcrc.mpr h) hok

end MmcRun

/-- After any edits, `saveenv`, a reset that leaves `ram` in memory, and
`env_relocate_spec` give the saved environment if and only if the bytes under the CRC
that no sector holds are the same as when it was saved. -/
theorem mmc_restored_iff {σ : Type*} (mmc : EnvStore σ) (cfgEnvSize : ℕ)
    (hsize : 4 ≤ cfgEnvSize) (hint : cfgEnvSize < 2 ^ 31) (hooks : SetenvHooks)
    (defaultEnvironment : Memory UInt8) (start ram : EnvT) (edits : List Edit)
    (card : σ) :
    ∀ e ∈ start.edit (mmcConfig cfgEnvSize) hooks edits,
      Restored (mmcConfig cfgEnvSize) e
          (mmcRelocateSpec cfgEnvSize mmc defaultEnvironment
            (mmcSaveenv cfgEnvSize mmc e card).2 ram) ↔
        unsaved cfgEnvSize ram = unsaved cfgEnvSize e :=
  fun e _ => mmcRelocateSpec_saveenv hsize hint defaultEnvironment e ram card

/-- A card that keeps what was written last. -/
def plainStore : EnvStore (List UInt8) where
  erase := fun card _ => card
  write := fun _ src => src
  read := fun card n => card.take n
  read_write := fun _ _ => List.take_length

/-- An environment of one sector with the variable `a`, and `b` behind it. -/
def oneVarEnv (b : UInt8) : EnvT where
  crc := 0
  flags := 0
  data := Memory.ofList b (text "a=1" ++ List.replicate 505 0)

/-- `setenv b 2`. -/
def setB : Edit := (⟨text "b", by decide⟩, [⟨text "2", by decide⟩])

/-- The environment with a second variable, and the same bytes behind it. -/
theorem mmc_restored_iff_setB :
    (∃ e ∈ (oneVarEnv 0).edit (mmcConfig 512) freeHooks [setB],
        e.data 4 = ch 'b') ∧
      ∀ e ∈ (oneVarEnv 0).edit (mmcConfig 512) freeHooks [setB],
        Restored (mmcConfig 512) e
            (mmcRelocateSpec 512 plainStore (fun _ => 0)
              (mmcSaveenv 512 plainStore e []).2 (oneVarEnv 0)) ↔
          unsaved 512 (oneVarEnv 0) = unsaved 512 e :=
  ⟨⟨_, rfl, by decide +kernel⟩,
    mmc_restored_iff plainStore 512 (by decide) (by decide) freeHooks (fun _ => 0)
      (oneVarEnv 0) (oneVarEnv 0) [setB] []⟩

/-- Other bytes behind the structure after the reset lose the environment. -/
theorem not_mmc_restored :
    ¬ ∀ (start ram : EnvT) (edits : List Edit),
      ∀ e ∈ start.edit (mmcConfig 512) freeHooks edits,
        Restored (mmcConfig 512) e
          (mmcRelocateSpec 512 plainStore (fun _ => 0)
            (mmcSaveenv 512 plainStore e []).2 ram) := by
  intro h
  obtain ⟨e, he, hbehind⟩ : ∃ e ∈ (oneVarEnv 0).edit (mmcConfig 512) freeHooks [setB],
      unsaved 512 e = [0, 0, 0, 0] := ⟨_, rfl, by decide +kernel⟩
  have hrestored := h (oneVarEnv 0) (oneVarEnv 1) [setB] e he
  rw [mmcRelocateSpec_saveenv (by decide) (by decide), hbehind] at hrestored
  exact absurd hrestored (by decide +kernel)

end TateFirmware.Env
