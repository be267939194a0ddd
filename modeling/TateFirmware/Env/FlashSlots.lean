import TateFirmware.Env.FlashEnv

/-!
# The slots of the redundant environment

What the programs see of a copy is its slot: CRC, flags and contents.  An
operation changes the slot of the copy whose sector it works on, in a way that
depends on this slot only.
-/

namespace TateFirmware.Env

open LibGeneric Support

/-- What a copy holds. -/
structure Slot where
  crc : UInt32
  flags : UInt8
  contents : List UInt8
deriving DecidableEq

def Slot.ok (s : Slot) : Bool := crc32 0 s.contents = s.crc

/-- The slot of an erased copy. -/
def erasedSlot (n : ℕ) : Slot := ⟨0xFFFFFFFF, 0xFF, List.replicate n 0xFF⟩

section Slots

variable (lay : FlashLayout)

def slotAt (flash : Memory UInt8) (c : Copy) : Slot where
  crc := (envAt lay flash c).crc
  flags := (envAt lay flash c).flags
  contents := (envAt lay flash c).contents lay.cfg

variable {lay : FlashLayout} {flash : Memory UInt8} {c : Copy}

theorem copyOk_eq : copyOk lay flash c = (slotAt lay flash c).ok := rfl

theorem envSize_add : lay.cfg.envSize + 5 = lay.cfgEnvSize := by
  have hheader := lay.header_le
  have henv : lay.cfg.envSize = lay.cfgEnvSize - 5 := rfl
  omega

theorem contents_length (flash : Memory UInt8) (c : Copy) :
    (slotAt lay flash c).contents.length = lay.cfg.envSize :=
  Memory.read_length ..

/-- A slot depends on the bytes of its copy only. -/
theorem slotAt_congr {flash' : Memory UInt8}
    (h : ∀ k < lay.cfgEnvSize,
      flash' (lay.addr c + k) = flash (lay.addr c + k)) :
    slotAt lay flash' c = slotAt lay flash c := by
  have hsize := @envSize_add lay
  unfold slotAt
  congr 1
  · exact congrArg UInt32.ofNat
      (Memory.leWord_congr fun k hk => h k (by omega))
  · exact h 4 (by omega)
  · refine Memory.read_congr fun k hk => ?_
    have hbyte := h (5 + k) (by omega)
    simpa only [envAt, Memory.shift_apply, Nat.zero_add, ← Nat.add_assoc]
      using hbyte

/-- An operation inside the sector of one copy leaves the other one alone. -/
theorem slotAt_apply_other {op : FlashOp} (hge : lay.addr c.other ≤ op.range.1)
    (hle : op.range.1 + op.range.2 ≤ lay.addr c.other + lay.sectSize) :
    slotAt lay (op.apply flash) c = slotAt lay flash c := by
  have hsect := lay.env_le_sect
  refine slotAt_congr fun k hk => FlashOp.apply_of_outside ?_
  rcases lay.apart c with hbefore | hbehind <;> omega

@[simp] theorem slotAt_protect {on : Bool} {addr len : ℕ} :
    slotAt lay (FlashOp.apply flash (.protect on addr len)) c =
      slotAt lay flash c := rfl

theorem slotAt_erase :
    slotAt lay (FlashOp.apply flash (.erase (lay.addr c) lay.sectSize)) c =
      erasedSlot lay.cfg.envSize := by
  have hsize := @envSize_add lay
  have hsect := lay.env_le_sect
  have hbyte : ∀ k < lay.cfgEnvSize,
      FlashOp.apply flash (.erase (lay.addr c) lay.sectSize) (lay.addr c + k) =
        0xFF := fun k hk => Memory.fill_of_mem 0xFF (by omega) (by omega)
  unfold slotAt erasedSlot
  congr 1
  · have hword : (FlashOp.apply flash
        (.erase (lay.addr c) lay.sectSize)).leWord (lay.addr c) =
          2 ^ 32 - 1 := by
      have h0 := hbyte 0 (by omega)
      rw [Nat.add_zero] at h0
      rw [Memory.leWord, h0, hbyte 1 (by omega), hbyte 2 (by omega),
        hbyte 3 (by omega)]
      rfl
    simp only [envAt, hword]
    rfl
  · exact hbyte 4 (by omega)
  · refine List.eq_replicate_iff.mpr ⟨contents_length _ c, ?_⟩
    intro b hb
    obtain ⟨k, hk, rfl⟩ := List.mem_map.mp hb
    rw [List.mem_range] at hk
    have h := hbyte (5 + k) (by omega)
    simpa only [envAt, Memory.shift_apply, Nat.zero_add, ← Nat.add_assoc] using h

/-- Writing a flag clears bits of the flags. -/
theorem slotAt_writeFlag (flag : UInt8) :
    slotAt lay (FlashOp.apply flash (.write (lay.addr c + 4) [flag])) c =
      { slotAt lay flash c with
        flags := (slotAt lay flash c).flags &&& flag } := by
  unfold slotAt
  congr 1
  · exact congrArg UInt32.ofNat
      (Memory.leWord_congr fun k hk => Memory.program_of_lt _ (by omega))
  · exact Memory.program_singleton flash (lay.addr c + 4) flag
  · refine Memory.read_congr fun k _ => Memory.program_of_ge ?_
    rw [List.length_singleton]
    omega

theorem erased_of_crc (h : (slotAt lay flash c).crc = 0xFFFFFFFF) :
    ∀ k < 4, flash (lay.addr c + k) = 0xFF := by
  have hword : (UInt32.ofNat (flash.leWord (lay.addr c))).toNat =
      2 ^ 32 - 1 := congrArg UInt32.toNat h
  rw [UInt32.toNat_ofNat', Memory.leWord] at hword
  have h0 := (flash (lay.addr c)).toNat_lt
  have h1 := (flash (lay.addr c + 1)).toNat_lt
  have h2 := (flash (lay.addr c + 2)).toNat_lt
  have h3 := (flash (lay.addr c + 3)).toNat_lt
  have hvalue : ∀ b : UInt8, b.toNat = 255 → b = 0xFF := fun b hb =>
    UInt8.toNat_inj.mp hb
  intro k hk
  apply hvalue
  interval_cases k
  · rw [Nat.add_zero]
    omega
  · omega
  · omega
  · omega

/-- Writing the CRC to an erased copy. -/
theorem slotAt_writeCrc (h : (slotAt lay flash c).crc = 0xFFFFFFFF)
    (crc : UInt32) :
    slotAt lay
        (FlashOp.apply flash (.write (lay.addr c) (leBytes crc.toNat))) c =
      { slotAt lay flash c with crc := crc } := by
  have hbehind : ∀ k, 4 ≤ k →
      FlashOp.apply flash (.write (lay.addr c) (leBytes crc.toNat))
        (lay.addr c + k) = flash (lay.addr c + k) := by
    intro k hk
    refine Memory.program_of_ge ?_
    rw [leBytes_length]
    omega
  have hholds := @Memory.holds_program flash (lay.addr c) (leBytes crc.toNat)
    (erased_of_crc h)
  unfold slotAt
  congr 1
  · have hword := hholds.leWord
    rw [Nat.mod_eq_of_lt crc.toNat_lt] at hword
    simp only [envAt]
    rw [show FlashOp.apply flash (.write (lay.addr c) (leBytes crc.toNat)) =
      flash.program (lay.addr c) (leBytes crc.toNat) from rfl, hword,
      UInt32.ofNat_toNat]
  · exact hbehind 4 le_rfl
  · refine Memory.read_congr fun k _ => ?_
    have hbyte := hbehind (5 + k) (by omega)
    simpa only [envAt, Memory.shift_apply, Nat.zero_add, ← Nat.add_assoc]
      using hbyte

/-- Writing the header of the tool to an erased copy. -/
theorem slotAt_writeHeader (h : (slotAt lay flash c).crc = 0xFFFFFFFF)
    (crc : UInt32) (flag : UInt8) :
    slotAt lay (FlashOp.apply flash
        (.write (lay.addr c) (leBytes crc.toNat ++ [flag]))) c =
      { slotAt lay flash c with
        crc := crc
        flags := (slotAt lay flash c).flags &&& flag } := by
  have hsplit : FlashOp.apply flash
      (.write (lay.addr c) (leBytes crc.toNat ++ [flag])) =
        FlashOp.apply
          (FlashOp.apply flash (.write (lay.addr c) (leBytes crc.toNat)))
          (.write (lay.addr c + 4) [flag]) :=
    Memory.program_append flash (lay.addr c) (leBytes crc.toNat) [flag]
  rw [hsplit, slotAt_writeFlag, slotAt_writeCrc h]

/-- Writing the data to an erased copy. -/
theorem slotAt_writeData {data : List UInt8}
    (h : (slotAt lay flash c).contents = List.replicate lay.cfg.envSize 0xFF)
    (hlen : data.length = lay.cfg.envSize) :
    slotAt lay (FlashOp.apply flash (.write (lay.addr c + 5) data)) c =
      { slotAt lay flash c with contents := data } := by
  have herased : ∀ k < data.length, flash (lay.addr c + 5 + k) = 0xFF := by
    intro k hk
    have hmem : flash (lay.addr c + 5 + (0 + k)) ∈
        (slotAt lay flash c).contents :=
      List.mem_map.mpr ⟨k, List.mem_range.mpr (hlen ▸ hk), rfl⟩
    rw [h, Nat.zero_add] at hmem
    exact List.eq_of_mem_replicate hmem
  have hholds := Memory.holds_program herased
  unfold slotAt
  congr 1
  · exact congrArg UInt32.ofNat
      (Memory.leWord_congr fun k hk => Memory.program_of_lt _ (by omega))
  · exact Memory.program_of_lt _ (by omega)
  · have hread := hholds.read_eq
    rw [hlen] at hread
    refine Eq.trans (Memory.read_congr fun k _ => ?_) hread
    rw [Nat.zero_add]
    rfl

/-! ## Both slots -/

/-- An operation on the sector of a copy changes its slot only. -/
theorem slots_eq_update {op : FlashOp} (hge : lay.addr c ≤ op.range.1)
    (hle : op.range.1 + op.range.2 ≤ lay.addr c + lay.sectSize) :
    slotAt lay (op.apply flash) =
      Function.update (slotAt lay flash) c
        (slotAt lay (op.apply flash) c) := by
  funext d
  rcases Copy.eq_or_eq_other c d with rfl | rfl
  · rw [Function.update_self]
  · rw [Function.update_of_ne (Copy.other_ne c)]
    refine slotAt_apply_other ?_ ?_
    · rwa [Copy.other_other]
    · rwa [Copy.other_other]

theorem slots_erase :
    slotAt lay (FlashOp.apply flash (.erase (lay.addr c) lay.sectSize)) =
      Function.update (slotAt lay flash) c (erasedSlot lay.cfg.envSize) := by
  rw [@slots_eq_update lay flash c (.erase (lay.addr c) lay.sectSize) le_rfl
    le_rfl, slotAt_erase]

theorem slots_writeFlag (flag : UInt8) :
    slotAt lay (FlashOp.apply flash (.write (lay.addr c + 4) [flag])) =
      Function.update (slotAt lay flash) c { slotAt lay flash c with
        flags := (slotAt lay flash c).flags &&& flag } := by
  have hheader := lay.header_le
  have hsect := lay.env_le_sect
  rw [@slots_eq_update lay flash c (.write (lay.addr c + 4) [flag])
    (Nat.le_add_right _ _), slotAt_writeFlag]
  simp only [FlashOp.range, List.length_singleton]
  omega

theorem slots_writeCrc (h : (slotAt lay flash c).crc = 0xFFFFFFFF)
    (crc : UInt32) :
    slotAt lay
        (FlashOp.apply flash (.write (lay.addr c) (leBytes crc.toNat))) =
      Function.update (slotAt lay flash) c
        { slotAt lay flash c with crc := crc } := by
  have hheader := lay.header_le
  have hsect := lay.env_le_sect
  rw [@slots_eq_update lay flash c (.write (lay.addr c) (leBytes crc.toNat))
    le_rfl, slotAt_writeCrc h]
  simp only [FlashOp.range, leBytes_length]
  omega

theorem slots_writeHeader (h : (slotAt lay flash c).crc = 0xFFFFFFFF)
    (crc : UInt32) (flag : UInt8) :
    slotAt lay (FlashOp.apply flash
        (.write (lay.addr c) (leBytes crc.toNat ++ [flag]))) =
      Function.update (slotAt lay flash) c { slotAt lay flash c with
        crc := crc
        flags := (slotAt lay flash c).flags &&& flag } := by
  have hheader := lay.header_le
  have hsect := lay.env_le_sect
  rw [@slots_eq_update lay flash c
    (.write (lay.addr c) (leBytes crc.toNat ++ [flag])) le_rfl,
    slotAt_writeHeader h]
  simp only [FlashOp.range, List.length_append, leBytes_length,
    List.length_singleton]
  omega

theorem slots_writeData {data : List UInt8}
    (h : (slotAt lay flash c).contents = List.replicate lay.cfg.envSize 0xFF)
    (hlen : data.length = lay.cfg.envSize) :
    slotAt lay (FlashOp.apply flash (.write (lay.addr c + 5) data)) =
      Function.update (slotAt lay flash) c
        { slotAt lay flash c with contents := data } := by
  have hsize := @envSize_add lay
  have hsect := lay.env_le_sect
  rw [@slots_eq_update lay flash c (.write (lay.addr c + 5) data)
    (Nat.le_add_right _ _), slotAt_writeData h hlen]
  simp only [FlashOp.range]
  omega

/-- Restoring the rest of a sector changes no slot. -/
theorem slots_restoreOps {flash' : Memory UInt8} {P : Memory UInt8 → Prop}
    (hP : ∀ f, slotAt lay f = slotAt lay flash → P f) :
    FlashOp.Throughout P flash (restoreOps lay flash' c) ∧
      slotAt lay (FlashOp.applyAll flash (restoreOps lay flash' c)) =
        slotAt lay flash := by
  rw [restoreOps]
  split
  · have hsect := lay.env_le_sect
    have hsame : slotAt lay (FlashOp.apply flash (.write
        (lay.addr c + lay.cfgEnvSize)
        (flash'.read (lay.addr c + lay.cfgEnvSize)
          (lay.sectSize - lay.cfgEnvSize)))) c = slotAt lay flash c :=
      slotAt_congr fun k hk => Memory.program_of_lt _ (by omega)
    have hslots := @slots_eq_update lay flash c
      (.write (lay.addr c + lay.cfgEnvSize)
        (flash'.read (lay.addr c + lay.cfgEnvSize)
          (lay.sectSize - lay.cfgEnvSize))) (Nat.le_add_right _ _) (by
            simp only [FlashOp.range, Memory.read_length]
            omega)
    rw [hsame, Function.update_eq_self] at hslots
    exact ⟨FlashOp.throughout_cons (hP flash rfl)
      (FlashOp.throughout_nil (hP _ hslots)), hslots⟩
  · exact ⟨FlashOp.throughout_nil (hP flash rfl), rfl⟩

end Slots

/-!
## Which copy is used

Both programs decide by the CRCs and the flags of the two slots.  A slot is
chosen if the other one is not valid, or if its flag beats the flag of the other
one; of two active slots the first one is chosen.
-/

/-- The flag `f` of slot `c` beats the flag `g` of the other slot. -/
def Beats (c : Copy) (f g : UInt8) : Prop :=
  f = activeFlag ∧ g = obsoleteFlag ∨
    f = 0xFF ∧ (g = obsoleteFlag ∨ g = activeFlag) ∨
    c = .first ∧ f = activeFlag ∧ g = activeFlag

/-- The flags that the programs write. -/
def KnownFlag (f : UInt8) : Prop :=
  f = obsoleteFlag ∨ f = activeFlag ∨ f = 0xFF

/-- Slot `c` is used. -/
structure Chosen (s : Copy → Slot) (c : Copy) : Prop where
  ok : (s c).ok = true
  known : KnownFlag (s c).flags
  beats : (s c.other).ok = true → Beats c (s c).flags (s c.other).flags

/-- Neither slot is valid. -/
def Blank (s : Copy → Slot) : Prop := ∀ c, (s c).ok = false

/-- A flag other than the obsolete one against the active or obsolete flag. -/
theorem chosen_of_beats {s : Copy → Slot} {c : Copy} (hok : (s c).ok = true)
    (hbeats : Beats c (s c).flags (s c.other).flags) : Chosen s c := by
  refine ⟨hok, ?_, fun _ => hbeats⟩
  rcases hbeats with ⟨hf, -⟩ | ⟨hf, -⟩ | ⟨-, hf, -⟩
  · exact Or.inr (Or.inl hf)
  · exact Or.inr (Or.inr hf)
  · exact Or.inr (Or.inl hf)

/-- Against an active slot either of the two is chosen. -/
theorem chosen_or_chosen {s : Copy → Slot} {c : Copy} (hok : (s c).ok = true)
    (hknown : KnownFlag (s c).flags) (hother : (s c.other).ok = true)
    (hactive : (s c.other).flags = activeFlag) :
    Chosen s c ∨ Chosen s c.other := by
  rcases hknown with hf | hf | hf
  · right
    refine chosen_of_beats hother (Or.inl ⟨hactive, ?_⟩)
    rw [Copy.other_other]
    exact hf
  · cases c with
    | first =>
        exact Or.inl (chosen_of_beats hok (Or.inr (Or.inr ⟨rfl, hf, hactive⟩)))
    | second =>
        exact Or.inr (chosen_of_beats hother
          (Or.inr (Or.inr ⟨rfl, hactive, hf⟩)))
  · exact Or.inl (chosen_of_beats hok (Or.inr (Or.inl ⟨hf, Or.inr hactive⟩)))

section Programs

variable {lay : FlashLayout} {flash : Memory UInt8} {c : Copy}

/-- Both programs use the slot that is chosen. -/
theorem envInit_of_chosen (h : Chosen (slotAt lay flash) c) :
    (envInit lay flash).envAddr = .data c ∧ (envInit lay flash).envValid ≠ 0 ∧
      fwEnvInit lay flash = ⟨c, false⟩ := by
  obtain ⟨hok, -, hbeats⟩ := h
  cases hother : (slotAt lay flash c.other).ok with
  | false => cases c <;> simp_all [envInit, fwEnvInit, copyOk_eq, Copy.other]
  | true =>
      have hflags : ∀ d, (envAt lay flash d).flags = (slotAt lay flash d).flags :=
        fun _ => rfl
      rcases hbeats hother with ⟨hf, hg⟩ | ⟨hf, hg | hg⟩ | ⟨rfl, hf, hg⟩
      · cases c <;> simp_all [envInit, fwEnvInit, copyOk_eq, Copy.other,
          activeFlag, obsoleteFlag]
      · cases c <;> simp_all [envInit, fwEnvInit, copyOk_eq, Copy.other,
          activeFlag, obsoleteFlag]
      · cases c <;> simp_all [envInit, fwEnvInit, copyOk_eq, Copy.other,
          activeFlag, obsoleteFlag]
      · simp_all [envInit, fwEnvInit, copyOk_eq, Copy.other, activeFlag,
          obsoleteFlag]

theorem envInit_of_blank (h : Blank (slotAt lay flash)) :
    envInit lay flash = ⟨.defaultEnvironment, 0⟩ ∧
      fwEnvInit lay flash = ⟨.first, true⟩ := by
  simp [envInit, fwEnvInit, copyOk_eq, h Copy.first, h Copy.second]

end Programs

end TateFirmware.Env
