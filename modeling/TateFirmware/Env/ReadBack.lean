import TateFirmware.Env.PowerLoss
import TateFirmware.Env.RedundNand
import TateFirmware.Nand.WriteRead

/-!
# Reading back what has been saved

The savers of `common/env_flash.c` and of `common/env_nand.c` with one copy write the
CRC as it stands in RAM.  Editing does not change it, so what is saved is read back
exactly when the data has the CRC that the header had before the first edit.  On NAND
this is so where the blocks of the environment are good and take the erase:
`nand_erase_opts` goes on behind a block that does not, and the pages of it keep ones of
the old environment only.
-/

namespace TateFirmware.Env

open LibGeneric Support FlashOp Nand

/-! ## Flash with one copy -/

/-- `CFG_ENV_ADDR` inside its sector. -/
structure FlashPlace where
  cfgEnvSize : ℕ
  sectSize : ℕ
  /-- `flash_sect_addr`. -/
  sectAddr : ℕ
  /-- `flash_offset`. -/
  offset : ℕ
  header_le : 4 ≤ cfgEnvSize
  env_le : offset + cfgEnvSize ≤ sectSize

namespace FlashPlace

variable (place : FlashPlace)

/-- The configuration: no second copy. -/
def cfg : EnvConfig := ⟨place.cfgEnvSize, false⟩

/-- The bytes at `flash_addr`. -/
def envBytes (flash : Memory UInt8) : List UInt8 :=
  flash.read (place.sectAddr + place.offset) place.cfgEnvSize

/-- `saveenv`, with the rest of the sector in `env_buffer`. -/
def saveenvOps (flash : Memory UInt8) (e : EnvT) : List FlashOp :=
  let envBuffer := ((flash.shift place.sectAddr).copyIn place.offset
    (e.bytes place.cfg)).read 0 place.sectSize
  [.protect false place.sectAddr place.sectSize,
    .erase place.sectAddr place.sectSize,
    .write place.sectAddr envBuffer,
    .protect true place.sectAddr place.sectSize]

/-- `env_init` and `env_relocate`, with `ram` in the new buffer: the environment, and
whether it is the default one. -/
def relocate (defaultEnvironment : List UInt8) (ram : EnvT) (flash : Memory UInt8) :
    EnvT × Bool :=
  if (readEnv place.cfg (place.envBytes flash)).crcOk place.cfg then
    (ram.overwrite place.cfg (place.envBytes flash), false)
  else (relocateDefault place.cfg defaultEnvironment ram, true)

/-- The whole structure stands where it was written. -/
theorem envBytes_saveenvOps (flash : Memory UInt8) (e : EnvT) :
    place.envBytes (applyAll flash (place.saveenvOps flash e)) =
      e.bytes place.cfg := by
  have hlen : (e.bytes place.cfg).length = place.cfgEnvSize :=
    @EnvT.bytes_length place.cfg place.header_le e
  have hfit := place.env_le
  set envBuffer := ((flash.shift place.sectAddr).copyIn place.offset
    (e.bytes place.cfg)).read 0 place.sectSize with henvBuffer
  have hbuffer : envBuffer.length = place.sectSize := Memory.read_length ..
  have hwritten := @Memory.holds_program
    (flash.fill place.sectAddr place.sectSize 0xFF) place.sectAddr envBuffer
    fun k hk => Memory.fill_of_mem 0xFF (Nat.le_add_right _ _) (by omega)
  have hholds : (applyAll flash (place.saveenvOps flash e)).Holds
      (place.sectAddr + place.offset) (e.bytes place.cfg) := by
    intro k hk
    have hbyte := hwritten (place.offset + k) (by omega)
    rw [Nat.add_assoc]
    refine hbyte.trans ?_
    simp only [henvBuffer, Memory.read_getElem, Nat.zero_add]
    exact Memory.copyIn_add hk
  have hread := hholds.read_eq
  rwa [hlen] at hread

end FlashPlace

/-! ## NAND with one copy -/

/-- A NAND device, with `CFG_ENV_SIZE` and `CFG_ENV_OFFSET`. -/
structure NandPlace (σ : Type*) where
  info : NandInfo
  dev : ErasedStore info σ
  cfgEnvSize : ℕ
  cfgEnvOffset : ℕ
  header_le : 4 ≤ cfgEnvSize
  size_lt : cfgEnvSize < 2 ^ 31

namespace NandPlace

variable {σ : Type*} (place : NandPlace σ)

/-- The configuration: no second copy. -/
def cfg : EnvConfig := ⟨place.cfgEnvSize, false⟩

/-- `saveenv`: what it returns, and the device. -/
def saveenv (e : EnvT) (fuel : ℕ) (device : σ) : Option ℤ × σ :=
  let erased := nandEraseOpts place.info place.dev.toNandOps
    ⟨place.cfgEnvSize, place.cfgEnvOffset, false⟩ fuel device
  match erased.ret with
  | none => (none, erased.state)
  | some ret =>
      if ret ≠ 0 then (some 1, erased.state)
      else
        let written := nandWriteOpts place.info place.dev.toNandOps
          (writePlain (Memory.ofList 0 (e.bytes place.cfg)) place.cfgEnvSize
            place.cfgEnvOffset) fuel erased.state
        (written.ret, written.state)

/-- `nand_read_opts` of the environment. -/
def readOpts (fuel : ℕ) (device : σ) : Transfer (List UInt8) :=
  nandReadOpts place.info place.dev.toNandOps ⟨place.cfgEnvSize, place.cfgEnvOffset⟩ fuel
    device

/-- `env_relocate_spec`. -/
def relocateSpec (defaultEnvironment : List UInt8) (ram : EnvT) (fuel : ℕ)
    (device : σ) : EnvT × Bool :=
  let read := place.readOpts fuel device
  let ram := ram.overwrite place.cfg read.state
  if read.ret = some 0 ∧ ram.crcOk place.cfg then (ram, false)
  else
    ((nandUseDefault place.cfg defaultEnvironment ⟨ram, 1, fun _ => [], none⟩).ram, true)

/-- A `saveenv` that succeeds stores the structure where the erase has not failed. -/
theorem readOpts_saveenv {e : EnvT} {fuel : ℕ} {device : σ}
    (harea : ErasableArea place.info place.dev.toNandOps place.cfgEnvOffset
      place.cfgEnvSize device)
    (hret : (place.saveenv e fuel device).1 = some 0) :
    (place.readOpts fuel (place.saveenv e fuel device).2).ret = some 0 ∧
      (place.readOpts fuel (place.saveenv e fuel device).2).state =
        e.bytes place.cfg := by
  have hlen : (e.bytes place.cfg).length = place.cfgEnvSize :=
    @EnvT.bytes_length place.cfg place.header_le e
  have hread : (Memory.ofList 0 (e.bytes place.cfg)).read 0 place.cfgEnvSize =
      e.bytes place.cfg := by
    rw [← hlen]
    exact (Memory.holds_ofList 0 (e.bytes place.cfg)).read_eq
  have hlength := @length_le_areaBlocks place.info place.cfgEnvSize
  have hgood : GoodArea place.info place.dev.checkbad place.cfgEnvOffset
      place.cfgEnvSize := by
    have hin := harea.area.le_size
    exact ⟨fun p hp hlt => harea.area.good p hp (by omega), by omega⟩
  have hpage : place.info.oobblock ∣ place.cfgEnvOffset :=
    place.info.oobblock_dvd.trans harea.aligned
  unfold saveenv at hret ⊢
  dsimp only at hret ⊢
  cases herase : (nandEraseOpts place.info place.dev.toNandOps
    ⟨place.cfgEnvSize, place.cfgEnvOffset, false⟩ fuel device).ret with
  | none =>
      rw [herase] at hret
      cases hret
  | some ret =>
      rw [herase] at hret
      dsimp only at hret ⊢
      by_cases hfailed : ret ≠ 0
      · rw [if_pos hfailed] at hret
        exact absurd (Option.some.inj hret) (by decide)
      · rw [if_neg hfailed] at hret ⊢
        rw [not_ne_iff.mp hfailed] at herase
        have hwritten := nandReadOpts_writePlain place.dev
          (Memory.ofList 0 (e.bytes place.cfg)) place.size_lt hpage fuel hgood
          (fun p hp hlt => nandEraseOpts_erased place.dev harea herase hp hlt) hret
        rw [hread] at hwritten
        exact hwritten

end NandPlace

/-! ## Every back-end -/

/-- Where the environment is kept: flash with one or two copies, or NAND with one. -/
inductive EnvBackend (σ : Type*) where
  | flash (place : FlashPlace) (memory : Memory UInt8)
  /-- `cur` is `flash_addr`. -/
  | redundFlash (lay : FlashLayout) (memory : Memory UInt8) (cur : Copy)
  /-- The fuel is for the loops of `nand_util.c`. -/
  | nand (place : NandPlace σ) (fuel : ℕ) (device : σ)

/-- What is stored behind a `saveenv`, and what a reboot makes of it. -/
structure SavedEnv where
  stored : EnvT
  booted : EnvT
  usesDefault : Bool

namespace EnvBackend

variable {σ : Type*}

def cfg : EnvBackend σ → EnvConfig
  | .flash place _ => place.cfg
  | .redundFlash lay _ _ => lay.cfg
  | .nand place _ _ => place.cfg

/-- `saveenv` returns 0. -/
def Saves (e : EnvT) : EnvBackend σ → Prop
  | .nand place fuel device => (place.saveenv e fuel device).1 = some 0
  | _ => True

/-- The place of the environment takes the erase. -/
def Erases : EnvBackend σ → Prop
  | .nand place _ device =>
      ErasableArea place.info place.dev.toNandOps place.cfgEnvOffset place.cfgEnvSize
        device
  | _ => True

/-- `saveenv`, a reset that leaves `ram` in memory, and `env_relocate`. -/
def saveAndReboot (defaultEnvironment : List UInt8) (ram e : EnvT) :
    EnvBackend σ → SavedEnv
  | .flash place memory =>
      let flash := applyAll memory (place.saveenvOps memory e)
      let booted := place.relocate defaultEnvironment ram flash
      ⟨readEnv place.cfg (place.envBytes flash), booted.1, booted.2⟩
  | .redundFlash lay memory cur =>
      let flash := applyAll memory (saveenvOps lay memory cur e)
      let booted := bootFlash lay defaultEnvironment ram flash
      ⟨envAt lay flash cur.other, booted.env, booted.usesDefault⟩
  | .nand place fuel device =>
      let device := (place.saveenv e fuel device).2
      let booted := place.relocateSpec defaultEnvironment ram fuel device
      ⟨readEnv place.cfg (place.readOpts fuel device).state, booted.1, booted.2⟩

end EnvBackend

/-- The stored CRC matches the stored data and the environment read back is the one
that was saved. -/
structure ReadBack (cfg : EnvConfig) (e : EnvT) (saved : SavedEnv) : Prop where
  stored : saved.stored.crcOk cfg = true
  notDefault : saved.usesDefault = false
  contents : saved.booted.contents cfg = e.contents cfg

section Backends

variable {σ : Type*} (defaultEnvironment : List UInt8) (ram e : EnvT)

theorem flash_readBack (place : FlashPlace) (flash : Memory UInt8) :
    ReadBack place.cfg e ((EnvBackend.flash place flash :
        EnvBackend σ).saveAndReboot defaultEnvironment ram e) ↔
      e.crcOk place.cfg = true := by
  have hbytes := place.envBytes_saveenvOps flash e
  constructor
  · intro h
    have hstored := h.stored
    dsimp only [EnvBackend.saveAndReboot] at hstored
    rwa [hbytes, readEnv, EnvT.overwrite_bytes_crcOk] at hstored
  · intro hok
    have hstored : (readEnv place.cfg (place.envBytes (applyAll flash
        (place.saveenvOps flash e)))).crcOk place.cfg = true := by
      rw [hbytes, readEnv, EnvT.overwrite_bytes_crcOk]
      exact hok
    have hboot : place.relocate defaultEnvironment ram (applyAll flash
        (place.saveenvOps flash e)) =
          (ram.overwrite place.cfg (e.bytes place.cfg), false) := by
      rw [FlashPlace.relocate, if_pos hstored, hbytes]
    refine ⟨hstored, ?_, ?_⟩
    · exact congrArg Prod.snd hboot
    · have hcontents := congrArg (fun b => b.1.contents place.cfg) hboot
      exact hcontents.trans (EnvT.overwrite_bytes_contents ram e)

theorem redundFlash_readBack (lay : FlashLayout) (flash : Memory UInt8)
    (cur : Copy) :
    ReadBack lay.cfg e ((EnvBackend.redundFlash lay flash cur :
        EnvBackend σ).saveAndReboot defaultEnvironment ram e) ↔
      e.crcOk lay.cfg = true := by
  have hall : applyAll flash (saveenvOps lay flash cur e) =
      saveFlash lay flash cur e (7 + (restoreOps lay flash cur.other).length) := by
    rw [saveFlash_restore, List.take_length]
    rfl
  obtain ⟨-, h₇⟩ := @saveFlash_flags lay flash cur e
  have hslot : slotAt lay (applyAll flash (saveenvOps lay flash cur e)) cur.other =
      ⟨e.crc, activeFlag, e.contents lay.cfg⟩ := by
    rw [hall, slotAt_saveFlash_restore, h₇,
      Function.update_of_ne (Copy.other_ne cur), Function.update_self]
  have hok : (envAt lay (applyAll flash (saveenvOps lay flash cur e))
      cur.other).crcOk lay.cfg = e.crcOk lay.cfg := by
    rw [← copyOk, copyOk_eq, hslot]
    rfl
  constructor
  · intro h
    exact hok.symm.trans h.stored
  · intro hcrc
    obtain ⟨hchosen, hdata⟩ := @saveFlash_chosen lay flash cur e hcrc
      (7 + (restoreOps lay flash cur.other).length)
      (Nat.le_add_right_of_le (by decide))
    rw [← hall] at hchosen hdata
    obtain ⟨hdefault, -, hcontents, -⟩ :=
      bootFlash_of_chosen defaultEnvironment ram hchosen
    exact ⟨hok.trans hcrc, hdefault, hcontents.trans hdata⟩

theorem nand_readBack (place : NandPlace σ) (fuel : ℕ) (device : σ)
    (harea : ErasableArea place.info place.dev.toNandOps place.cfgEnvOffset
      place.cfgEnvSize device)
    (hret : (place.saveenv e fuel device).1 = some 0) :
    ReadBack place.cfg e ((EnvBackend.nand place fuel device).saveAndReboot
        defaultEnvironment ram e) ↔ e.crcOk place.cfg = true := by
  obtain ⟨hok, hread⟩ := place.readOpts_saveenv harea hret
  have hstored : (readEnv place.cfg (place.readOpts fuel
      (place.saveenv e fuel device).2).state).crcOk place.cfg = e.crcOk place.cfg := by
    rw [hread, readEnv, EnvT.overwrite_bytes_crcOk]
  constructor
  · intro h
    exact hstored.symm.trans h.stored
  · intro hcrc
    have hloaded : (ram.overwrite place.cfg (e.bytes place.cfg)).crcOk place.cfg = true := by
      rw [EnvT.overwrite_bytes_crcOk]
      exact hcrc
    have hboot : place.relocateSpec defaultEnvironment ram fuel
        (place.saveenv e fuel device).2 =
          (ram.overwrite place.cfg (e.bytes place.cfg), false) := by
      unfold NandPlace.relocateSpec
      dsimp only
      rw [hread]
      exact if_pos ⟨hok, hloaded⟩
    refine ⟨hstored.trans hcrc, congrArg Prod.snd hboot, ?_⟩
    have hcontents := congrArg (fun b => b.1.contents place.cfg) hboot
    exact hcontents.trans (EnvT.overwrite_bytes_contents ram e)

end Backends

/-- After any edits, a `saveenv` that succeeds and a reboot give back what was saved if
and only if its data has the CRC that the header had before the edits. -/
theorem edit_readBack_iff {σ : Type*} (backend : EnvBackend σ) (hooks : SetenvHooks)
    (defaultEnvironment : List UInt8) (start ram : EnvT) (edits : List Edit)
    (herases : backend.Erases) :
    ∀ e ∈ start.edit backend.cfg hooks edits, backend.Saves e →
      (ReadBack backend.cfg e (backend.saveAndReboot defaultEnvironment ram e) ↔
        crc32 0 (e.contents backend.cfg) = start.crc) := by
  intro e he hsaves
  rw [← (EnvT.edit_crc he).1, ← EnvT.crcOk_iff]
  cases backend with
  | flash place flash => exact flash_readBack defaultEnvironment ram e place flash
  | redundFlash lay flash cur =>
      exact redundFlash_readBack defaultEnvironment ram e lay flash cur
  | nand place fuel device =>
      exact nand_readBack defaultEnvironment ram e place fuel device herases hsaves

/-- A page at the start of the second of four blocks. -/
def nandPage : NandPlace (ℕ → Option (List UInt8)) where
  info := fourBlocks
  dev := erasableTable fourBlocks fun _ => false
  cfgEnvSize := 256
  cfgEnvOffset := 4096
  header_le := by decide
  size_lt := by decide

/-- An environment of 252 bytes without a variable, with its CRC. -/
def pageEnv : EnvT := ⟨crc32 0 (List.replicate 252 0), 0, fun _ => 0⟩

theorem nandPage_erases (device : ℕ → Option (List UInt8)) :
    (EnvBackend.nand nandPage 20 device).Erases where
  aligned := by decide
  area := ⟨fun _ _ _ => rfl, by decide⟩
  erases := ⟨rfl, trivial⟩

/-- The page, written before with zeros. -/
def pageBackend : EnvBackend (ℕ → Option (List UInt8)) :=
  .nand nandPage 20 fun _ => some (List.replicate 256 0)

/-- Setting one variable: the edit and the save succeed, and the environment that comes
back is the saved one if the data still had the CRC of the header. -/
theorem edit_readBack_iff_nand :
    ∃ e, pageEnv.edit nandPage.cfg freeHooks
          [(⟨text "a", by decide⟩, [⟨text "b", by decide⟩])] = some e ∧
      e.contents nandPage.cfg ≠ pageEnv.contents nandPage.cfg ∧
      pageBackend.Saves e ∧
      (ReadBack nandPage.cfg e (pageBackend.saveAndReboot [] pageEnv e) ↔
        crc32 0 (e.contents nandPage.cfg) = pageEnv.crc) := by
  have hedit : (pageEnv.edit nandPage.cfg freeHooks
      [(⟨text "a", by decide⟩, [⟨text "b", by decide⟩])]).isSome = true := by
    decide +kernel
  obtain ⟨e, he⟩ := Option.isSome_iff_exists.mp hedit
  have hchanged : ∀ e ∈ pageEnv.edit nandPage.cfg freeHooks
      [(⟨text "a", by decide⟩, [⟨text "b", by decide⟩])],
      e.contents nandPage.cfg ≠ pageEnv.contents nandPage.cfg := by
    decide +kernel
  have hsaves : ∀ e ∈ pageEnv.edit nandPage.cfg freeHooks
      [(⟨text "a", by decide⟩, [⟨text "b", by decide⟩])],
      (nandPage.saveenv e 20 fun _ => some (List.replicate 256 0)).1 = some 0 := by
    decide +kernel
  exact ⟨e, he, hchanged e he, hsaves e he, edit_readBack_iff pageBackend freeHooks []
    pageEnv pageEnv [(⟨text "a", by decide⟩, [⟨text "b", by decide⟩])]
    (nandPage_erases _) e he (hsaves e he)⟩

/-- A sector of 16 bytes with the environment. -/
def smallPlace : FlashPlace := ⟨16, 16, 0, 0, by decide, by decide⟩

/-- An empty environment with its CRC. -/
def blankEnv : EnvT := ⟨crc32 0 (List.replicate 12 0), 0, fun _ => 0⟩

/-- Setting one variable. -/
theorem not_edit_readBack :
    ¬ ∀ e ∈ blankEnv.edit smallPlace.cfg freeHooks
        [(⟨text "a", by decide⟩, [⟨text "b", by decide⟩])],
      ReadBack smallPlace.cfg e ((EnvBackend.flash smallPlace fun _ => 0xFF :
        EnvBackend Unit).saveAndReboot [] blankEnv e) := by
  intro h
  have hcrc : ∀ e ∈ blankEnv.edit smallPlace.cfg freeHooks
      [(⟨text "a", by decide⟩, [⟨text "b", by decide⟩])],
      crc32 0 (e.contents smallPlace.cfg) = blankEnv.crc := by
    intro e he
    rw [← (EnvT.edit_crc he).1, ← EnvT.crcOk_iff]
    exact (flash_readBack [] blankEnv e smallPlace _).mp (h e he)
  revert hcrc
  decide +kernel

end TateFirmware.Env
