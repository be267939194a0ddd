import TateFirmware.Env.Setenv
import TateFirmware.LibGeneric.Crc32
import TateFirmware.Support.Records

/-!
# The environment with its header

`env_t` of `include/environment.h` as it is edited in RAM and as it is copied
to and from the device that keeps it, and what `common/env_common.c` does for
every device.
-/

namespace TateFirmware.Env

open LibGeneric Support

/-! ## The structure -/

/-- `env_t` in RAM; the memory of `data` goes on behind the structure. -/
structure EnvT where
  crc : UInt32
  /-- Only with `CFG_REDUNDAND_ENVIRONMENT`. -/
  flags : UInt8
  data : Memory UInt8

/-- `ENV_HEADER_SIZE`. -/
def EnvConfig.headerSize (cfg : EnvConfig) : ℕ := if cfg.redundant then 5 else 4

theorem EnvConfig.envSize_eq (cfg : EnvConfig) :
    cfg.envSize = cfg.cfgEnvSize - cfg.headerSize := rfl

namespace EnvT

variable {cfg : EnvConfig}

/-- The bytes in front of `data`. -/
def header (cfg : EnvConfig) (e : EnvT) : List UInt8 :=
  leBytes e.crc.toNat ++ if cfg.redundant then [e.flags] else []

@[simp] theorem header_length (e : EnvT) :
    (e.header cfg).length = cfg.headerSize := by
  unfold header EnvConfig.headerSize
  split <;> rfl

/-- The data of the structure. -/
def contents (cfg : EnvConfig) (e : EnvT) : List UInt8 :=
  e.data.read 0 cfg.envSize

/-- The bytes of the structure. -/
def bytes (cfg : EnvConfig) (e : EnvT) : List UInt8 :=
  e.header cfg ++ e.contents cfg

theorem bytes_length (hsize : cfg.headerSize ≤ cfg.cfgEnvSize) (e : EnvT) :
    (e.bytes cfg).length = cfg.cfgEnvSize := by
  rw [bytes, List.length_append, header_length, contents, Memory.read_length,
    cfg.envSize_eq]
  omega

/-- The structure after `CFG_ENV_SIZE` bytes have been copied over it. -/
def overwrite (cfg : EnvConfig) (e : EnvT) (src : List UInt8) : EnvT where
  crc := UInt32.ofNat ((Memory.ofList 0 src).leWord 0)
  flags := if cfg.redundant then src.getD 4 e.flags else e.flags
  data := e.data.copyIn 0 (src.drop cfg.headerSize)

theorem bytes_drop (e : EnvT) :
    (e.bytes cfg).drop cfg.headerSize = e.contents cfg := by
  rw [bytes, ← @header_length cfg e, List.drop_left]

theorem bytes_crc (e : EnvT) :
    UInt32.ofNat ((Memory.ofList 0 (e.bytes cfg)).leWord 0) = e.crc := by
  have hholds := Memory.holds_ofList 0 (e.bytes cfg)
  rw [bytes, header, List.append_assoc, Memory.holds_append] at hholds
  have hword := hholds.1.leWord
  rw [bytes, header, List.append_assoc, hword,
    Nat.mod_eq_of_lt e.crc.toNat_lt, UInt32.ofNat_toNat]

/-- Copying over another structure. -/
theorem overwrite_bytes (ram e : EnvT) :
    ram.overwrite cfg (e.bytes cfg) =
      { crc := e.crc
        flags := if cfg.redundant then e.flags else ram.flags
        data := ram.data.copyIn 0 (e.contents cfg) } := by
  unfold overwrite
  rw [bytes_crc, bytes_drop]
  congr 1
  split
  · rename_i hredundant
    rw [bytes, header, if_pos hredundant]
    rfl
  · rfl

theorem contents_copyIn (ram e : EnvT) :
    contents cfg { e with data := ram.data.copyIn 0 (e.contents cfg) } =
      e.contents cfg := by
  have hholds := Memory.holds_copyIn ram.data 0 (e.contents cfg)
  have hlen : (e.contents cfg).length = cfg.envSize := Memory.read_length ..
  rw [Memory.holds_iff_read, hlen] at hholds
  exact hholds

@[simp] theorem overwrite_bytes_crc (ram e : EnvT) :
    (ram.overwrite cfg (e.bytes cfg)).crc = e.crc := by
  rw [overwrite_bytes]

@[simp] theorem overwrite_bytes_contents (ram e : EnvT) :
    (ram.overwrite cfg (e.bytes cfg)).contents cfg = e.contents cfg := by
  rw [overwrite_bytes]
  exact contents_copyIn ram e

/-- The CRC over the data is the one in the header. -/
def crcOk (cfg : EnvConfig) (e : EnvT) : Bool :=
  crc32 0 (e.contents cfg) = e.crc

theorem crcOk_iff {e : EnvT} :
    e.crcOk cfg = true ↔ crc32 0 (e.contents cfg) = e.crc := decide_eq_true_iff

@[simp] theorem overwrite_bytes_crcOk (ram e : EnvT) :
    (ram.overwrite cfg (e.bytes cfg)).crcOk cfg = e.crcOk cfg := by
  rw [crcOk, crcOk, overwrite_bytes_crc, overwrite_bytes_contents]

end EnvT

/-! ## Parts that all devices share -/

/-- `env_crc_update`: its body is commented out. -/
def envCrcUpdate (e : EnvT) : EnvT := e

/-- `env_relocate` without a valid environment; `defaultEnvironment` is the
whole array. -/
def relocateDefault (cfg : EnvConfig) (defaultEnvironment : List UInt8)
    (e : EnvT) : EnvT :=
  if cfg.envSize < defaultEnvironment.length then e
  else
    envCrcUpdate
      { crc := 0
        flags := if cfg.redundant then 0xFF else 0
        data := (e.data.fill 0 cfg.envSize 0).copyIn 0 defaultEnvironment }

/-- A variable and the words it is set to, none to delete it. -/
abbrev Edit := CStr × List CStr

/-- One call of `_do_setenv`; its calls of `env_crc_update` are commented
out. -/
def EnvT.setenv (cfg : EnvConfig) (hooks : SetenvHooks) (e : EnvT)
    (edit : Edit) : Option EnvT :=
  match doSetenv cfg hooks e.data edit.1 edit.2 with
  | .outOfBounds => none
  | .returned _ env => some { e with data := env }

/-- A sequence of calls, unless one of them leaves the environment. -/
def EnvT.edit (cfg : EnvConfig) (hooks : SetenvHooks) :
    EnvT → List Edit → Option EnvT
  | e, [] => some e
  | e, edit :: edits =>
      match e.setenv cfg hooks edit with
      | none => none
      | some e => e.edit cfg hooks edits

theorem EnvT.setenv_crc {cfg : EnvConfig} {hooks : SetenvHooks} {e e' : EnvT}
    {edit : Edit} (h : e' ∈ e.setenv cfg hooks edit) :
    e'.crc = e.crc ∧ e'.flags = e.flags := by
  unfold EnvT.setenv at h
  cases hcall : doSetenv cfg hooks e.data edit.1 edit.2 with
  | outOfBounds => rw [hcall] at h; cases h
  | returned rcode env =>
      rw [hcall] at h
      obtain rfl := Option.some.inj h
      exact ⟨rfl, rfl⟩

/-- The calls leave the header alone. -/
theorem EnvT.edit_crc {cfg : EnvConfig} {hooks : SetenvHooks} {e e' : EnvT}
    {edits : List Edit} (h : e' ∈ e.edit cfg hooks edits) :
    e'.crc = e.crc ∧ e'.flags = e.flags := by
  induction edits generalizing e with
  | nil =>
      obtain rfl := Option.some.inj h
      exact ⟨rfl, rfl⟩
  | cons edit edits ih =>
      unfold EnvT.edit at h
      cases hcall : e.setenv cfg hooks edit with
      | none => rw [hcall] at h; cases h
      | some next =>
          rw [hcall] at h
          obtain ⟨hcrc, hflags⟩ := EnvT.setenv_crc hcall
          obtain ⟨hcrc', hflags'⟩ := ih h
          exact ⟨hcrc'.trans hcrc, hflags'.trans hflags⟩

/-!
## Two copies of the environment

With a redundant environment there are two copies of it on the device, at
`CFG_ENV_ADDR` or `CFG_ENV_OFFSET` and at the address with `_REDUND`.
-/

/-- One of the two copies; `curdev` 0 and 1 of the Linux tool. -/
inductive Copy where
  | first
  | second
deriving DecidableEq, Repr

def Copy.other : Copy → Copy
  | .first => .second
  | .second => .first

@[simp] theorem Copy.other_ne (c : Copy) : c.other ≠ c := by cases c <;> decide

@[simp] theorem Copy.other_other (c : Copy) : c.other.other = c := by
  cases c <;> rfl

theorem Copy.eq_or_eq_other (c d : Copy) : d = c ∨ d = c.other := by
  cases c <;> cases d <;> decide

end TateFirmware.Env
