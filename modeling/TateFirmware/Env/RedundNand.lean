import TateFirmware.Env.Image
import TateFirmware.Support.Run

/-!
# The redundant environment in NAND

`saveenv` and `env_relocate_spec` of `common/env_nand.c` with
`CFG_ENV_OFFSET_REDUND`.  The newer copy is told by a counter of eight bits in
`flags`, which a save counts up even when it fails.
-/

namespace TateFirmware.Env

open LibGeneric Support

/-- `env_ptr`, `gd->env_valid` and the bytes of the two copies.  `saved` is the copy
that the last successful `saveenv` has written. -/
structure NandEnv where
  ram : EnvT
  envValid : ℕ
  copies : Copy → List UInt8
  saved : Option Copy

/-- How the erase and the write of a `saveenv` end.  When one of them fails the copy
holds any bytes, also when `nand_erase_opts` reports an erase as done that has
failed. -/
inductive SaveOutcome where
  | eraseFails (bytes : List UInt8)
  | writeFails (bytes : List UInt8)
  | unerased (bytes : List UInt8)
  | succeeds

/-- `gd->env_valid` for a copy. -/
def Copy.valid (c : Copy) : ℕ := if c = .first then 1 else 2

section Nand

variable (cfg : EnvConfig)

/-- `env_t` as it has been read from the device into a new buffer. -/
def readEnv (bytes : List UInt8) : EnvT :=
  EnvT.overwrite cfg ⟨0, 0, fun _ => 0⟩ bytes

/-- The copy that `saveenv` writes. -/
def saveTarget (st : NandEnv) : Copy :=
  if st.envValid = 1 then .second else .first

/-- `saveenv`. -/
def nandSaveenv (outcome : SaveOutcome) (st : NandEnv) : NandEnv × List ℤ :=
  let ram := { st.ram with flags := st.ram.flags + 1 }
  let target := saveTarget st
  let done bytes : NandEnv :=
    { ram := ram
      envValid := if st.envValid = 2 then 1 else 2
      copies := Function.update st.copies target bytes
      saved := some target }
  match outcome with
  | .eraseFails bytes | .writeFails bytes =>
      ({ st with ram := ram, copies := Function.update st.copies target bytes }, [1])
  | .unerased bytes => (done bytes, [0])
  | .succeeds => (done (ram.bytes cfg), [0])

/-- `use_default`. -/
def nandUseDefault (defaultEnvironment : List UInt8) (st : NandEnv) : NandEnv :=
  if cfg.cfgEnvSize < defaultEnvironment.length then st
  else
    let ram : EnvT :=
      { crc := 0
        flags := 0
        data := (st.ram.data.fill 0 cfg.envSize 0).copyIn 0 defaultEnvironment }
    { st with
      ram := { ram with crc := crc32 0 (ram.contents cfg) }
      envValid := 1 }

/-- `gd->env_valid` when the CRCs of both copies are right. -/
def newerCopy (flags1 flags2 : UInt8) : ℕ :=
  if flags1 = 255 ∧ flags2 = 0 then 2
  else if flags2 = 255 ∧ flags1 = 0 then 1
  else if flags2 < flags1 then 1
  else if flags1 < flags2 then 2
  else 1

/-- `env_relocate_spec`. -/
def nandRelocateSpec (defaultEnvironment : List UInt8) (st : NandEnv) : NandEnv :=
  let env1 := readEnv cfg (st.copies .first)
  let env2 := readEnv cfg (st.copies .second)
  if env1.crcOk cfg = false ∧ env2.crcOk cfg = false then
    nandUseDefault cfg defaultEnvironment st
  else
    let envValid :=
      if env2.crcOk cfg = false then 1
      else if env1.crcOk cfg = false then 2
      else newerCopy env1.flags env2.flags
    { st with
      ram := if envValid = 1 then env1 else env2
      envValid := envValid }

/-! ## Runs -/

/-- An edit, or a save. -/
inductive NandOp where
  | setenv (edit : Edit)
  | saveenv (outcome : SaveOutcome)

/-- One step; a call of `_do_setenv` that leaves the environment is not followed. -/
def nandStep (hooks : SetenvHooks) (st : NandEnv) : NandOp → NandEnv × List ℤ
  | .setenv edit =>
      ({ st with ram := (st.ram.setenv cfg hooks edit).getD st.ram }, [])
  | .saveenv outcome => nandSaveenv cfg outcome st

/-- The board after `env_relocate` at its start. -/
def nandBoot (defaultEnvironment : List UInt8) (ram : EnvT)
    (copies : Copy → List UInt8) : NandEnv :=
  nandRelocateSpec cfg defaultEnvironment ⟨ram, 1, copies, none⟩

/-- The CRC of a copy is right. -/
def CopyValid (st : NandEnv) (c : Copy) : Prop :=
  (readEnv cfg (st.copies c)).crcOk cfg = true

/-- `env_relocate_spec` selects the copy that the last successful save has written, if
both copies are valid. -/
def SelectsSaved (defaultEnvironment : List UInt8) (st : NandEnv) : Prop :=
  ∀ c, st.saved = some c → CopyValid cfg st .first → CopyValid cfg st .second →
    (nandRelocateSpec cfg defaultEnvironment st).envValid = c.valid ∧
      (nandRelocateSpec cfg defaultEnvironment st).ram =
        readEnv cfg (st.copies c)

/-- With `flags` in RAM a save to `target` is newer than the other copy. -/
def CountsUp (target : Copy) (flags other : UInt8) : Prop :=
  flags = 255 ∧ other = 255 ∨
    flags ≠ 255 ∧ other ≤ flags ∧ ¬ (flags = 254 ∧ other = 0) ∨
    target = .first ∧ other = flags + 1

/-- A save that fails leaves the copy as it was, or with a wrong CRC, and with a wrong
CRC if it is reported as done; one that succeeds is newer than the other copy, if that
is valid. -/
def SavesNewer (st : NandEnv) : NandOp → Prop
  | .setenv _ => True
  | .saveenv (.eraseFails bytes) | .saveenv (.writeFails bytes) =>
      bytes = st.copies (saveTarget st) ∨ (readEnv cfg bytes).crcOk cfg = false
  | .saveenv (.unerased bytes) => (readEnv cfg bytes).crcOk cfg = false
  | .saveenv .succeeds =>
      CopyValid cfg st (saveTarget st).other →
        CountsUp (saveTarget st) st.ram.flags
          (readEnv cfg (st.copies (saveTarget st).other)).flags

end Nand

/-! ## The counter -/

/-- The flags of two copies, of which one is `target`. -/
def newerOf (target : Copy) (flags other : UInt8) : ℕ :=
  if target = .first then newerCopy flags other else newerCopy other flags

theorem newerCopy_eq (a b : UInt8) : newerCopy a b =
    if a.toNat = 255 ∧ b.toNat = 0 then 2
    else if b.toNat = 255 ∧ a.toNat = 0 then 1
    else if b.toNat < a.toNat then 1
    else if a.toNat < b.toNat then 2
    else 1 := by
  simp only [newerCopy, ← UInt8.toNat_inj, UInt8.lt_iff_toNat_lt]
  rfl

theorem countsUp_iff (target : Copy) (flags other : UInt8) :
    newerOf target (flags + 1) other = target.valid ↔
      CountsUp target flags other := by
  have hflags := flags.toNat_lt
  have hother := other.toNat_lt
  have hnext : (flags + 1).toNat = (flags.toNat + 1) % 256 := UInt8.toNat_add ..
  have hcounts : CountsUp target flags other ↔
      flags.toNat = 255 ∧ other.toNat = 255 ∨
        flags.toNat ≠ 255 ∧ other.toNat ≤ flags.toNat ∧
          ¬ (flags.toNat = 254 ∧ other.toNat = 0) ∨
        target = .first ∧ other.toNat = (flags.toNat + 1) % 256 := by
    simp only [CountsUp, ne_eq, ← UInt8.toNat_inj, UInt8.le_iff_toNat_le, hnext]
    rfl
  have hsecond : ¬ Copy.second = Copy.first := by decide
  rw [hcounts, newerOf, newerCopy_eq, newerCopy_eq, hnext]
  clear hcounts hnext
  generalize flags.toNat = r at *
  generalize other.toNat = s at *
  cases target with
  | first =>
      rw [if_pos rfl, Copy.valid, if_pos rfl]
      simp only [true_and]
      split_ifs <;> omega
  | second =>
      rw [if_neg hsecond, Copy.valid, if_neg hsecond]
      simp only [hsecond, false_and, or_false]
      split_ifs <;> omega

/-! ## The invariant -/

section Run

variable {cfg : EnvConfig} {hooks : SetenvHooks} {defaultEnvironment : List UInt8}
  {st : NandEnv}

/-- The counter of a copy. -/
def copyFlags (cfg : EnvConfig) (st : NandEnv) (c : Copy) : UInt8 :=
  (readEnv cfg (st.copies c)).flags

/-- The next save writes the other copy than the last successful one, which is newer
when both are valid. -/
structure NandEnv.Inv (cfg : EnvConfig) (st : NandEnv) : Prop where
  valid : st.envValid = 1 ∨ st.envValid = 2
  turn : ∀ c, st.saved = some c → saveTarget st = c.other
  newer : ∀ c, st.saved = some c → CopyValid cfg st c → CopyValid cfg st c.other →
    newerOf c (copyFlags cfg st c) (copyFlags cfg st c.other) = c.valid

theorem nandRelocateSpec_saved (c : Copy) (hfirst : CopyValid cfg st .first)
    (hsecond : CopyValid cfg st .second)
    (hnewer : newerOf c (copyFlags cfg st c) (copyFlags cfg st c.other) = c.valid) :
    (nandRelocateSpec cfg defaultEnvironment st).envValid = c.valid ∧
      (nandRelocateSpec cfg defaultEnvironment st).ram =
        readEnv cfg (st.copies c) := by
  unfold CopyValid at hfirst hsecond
  have hvalid : newerCopy (copyFlags cfg st .first) (copyFlags cfg st .second) =
      c.valid := by
    cases c with
    | first => exact hnewer
    | second => exact hnewer
  unfold copyFlags at hvalid
  unfold nandRelocateSpec
  dsimp only
  simp only [hfirst, hsecond, Bool.true_eq_false, and_self, if_false, hvalid]
  cases c with
  | first => exact ⟨trivial, rfl⟩
  | second => exact ⟨trivial, rfl⟩

theorem NandEnv.Inv.selects (h : st.Inv cfg) :
    SelectsSaved cfg defaultEnvironment st := by
  intro c hsaved hfirst hsecond
  refine nandRelocateSpec_saved c hfirst hsecond (h.newer c hsaved ?_ ?_)
  · cases c with
    | first => exact hfirst
    | second => exact hsecond
  · cases c with
    | first => exact hsecond
    | second => exact hfirst

/-- A save that fails. -/
theorem NandEnv.Inv.failed (h : st.Inv cfg) {bytes : List UInt8}
    (hok : bytes = st.copies (saveTarget st) ∨
      (readEnv cfg bytes).crcOk cfg = false) (ram : EnvT) :
    NandEnv.Inv cfg { st with
      ram := ram
      copies := Function.update st.copies (saveTarget st) bytes } := by
  rcases hok with hsame | hwrong
  · have hcopies : Function.update st.copies (saveTarget st) bytes = st.copies := by
      rw [hsame, Function.update_eq_self]
    rw [hcopies]
    exact ⟨h.valid, h.turn, h.newer⟩
  · refine ⟨h.valid, h.turn, fun c hsaved _ hother => ?_⟩
    rw [CopyValid, ← h.turn c hsaved] at hother
    dsimp only at hother
    rw [Function.update_self, hwrong] at hother
    cases hother

theorem saveTarget_toggle (hvalid : st.envValid = 1 ∨ st.envValid = 2)
    {st' : NandEnv} (h : st'.envValid = if st.envValid = 2 then 1 else 2) :
    saveTarget st' = (saveTarget st).other := by
  unfold saveTarget
  rw [h]
  rcases hvalid with hone | htwo
  · rw [hone]
    rfl
  · rw [htwo]
    rfl

theorem readEnv_bytes_flags (hredundant : cfg.redundant = true) (e : EnvT) :
    (readEnv cfg (e.bytes cfg)).flags = e.flags := by
  rw [readEnv, EnvT.overwrite_bytes, if_pos hredundant]

/-- A save that is reported as done and leaves its copy invalid, or newer than the
other. -/
theorem NandEnv.Inv.done (h : st.Inv cfg) {bytes : List UInt8} {ram : EnvT}
    (hup : (readEnv cfg bytes).crcOk cfg = true → CopyValid cfg st (saveTarget st).other →
      newerOf (saveTarget st) (readEnv cfg bytes).flags
        (copyFlags cfg st (saveTarget st).other) = (saveTarget st).valid) :
    NandEnv.Inv cfg
      { ram := ram
        envValid := if st.envValid = 2 then 1 else 2
        copies := Function.update st.copies (saveTarget st) bytes
        saved := some (saveTarget st) } := by
  refine ⟨?_, fun c hc => ?_, fun c hc hcopy hother => ?_⟩
  · dsimp only
    split
    · exact Or.inl rfl
    · exact Or.inr rfl
  · obtain rfl := Option.some.inj hc
    exact saveTarget_toggle h.valid rfl
  · obtain rfl := Option.some.inj hc
    rw [CopyValid] at hcopy hother
    dsimp only at hcopy hother
    rw [Function.update_self] at hcopy
    rw [Function.update_of_ne (Copy.other_ne _)] at hother
    rw [copyFlags, copyFlags]
    dsimp only
    rw [Function.update_self, Function.update_of_ne (Copy.other_ne _)]
    exact hup hcopy hother

theorem nandStep_inv (hredundant : cfg.redundant = true) (op : NandOp)
    (h : st.Inv cfg) (hnewer : SavesNewer cfg st op) :
    (nandStep cfg hooks st op).1.Inv cfg := by
  cases op with
  | setenv edit => exact ⟨h.valid, h.turn, h.newer⟩
  | saveenv outcome =>
      cases outcome with
      | eraseFails bytes => exact h.failed hnewer _
      | writeFails bytes => exact h.failed hnewer _
      | unerased bytes =>
          exact h.done fun hvalid _ => absurd (hnewer.symm.trans hvalid) (by decide)
      | succeeds =>
          refine h.done fun _ hother => ?_
          rw [readEnv_bytes_flags hredundant]
          exact (countsUp_iff ..).mpr (hnewer hother)

theorem nandBoot_inv (ram : EnvT) (copies : Copy → List UInt8) :
    (nandBoot cfg defaultEnvironment ram copies).Inv cfg := by
  have hsaved : (nandBoot cfg defaultEnvironment ram copies).saved = none := by
    unfold nandBoot nandRelocateSpec nandUseDefault
    dsimp only
    split
    · split
      · rfl
      · rfl
    · rfl
  refine ⟨?_, fun c hc => ?_, fun c hc => ?_⟩
  · unfold nandBoot nandRelocateSpec nandUseDefault newerCopy
    dsimp only
    split_ifs <;> simp
  · rw [hsaved] at hc
    cases hc
  · rw [hsaved] at hc
    cases hc

end Run

/-- In every run from a boot in which every save is newer than the other copy,
`env_relocate_spec` selects the copy that has been saved last. -/
theorem nandRun_selectsSaved (cfgEnvSize : ℕ) (hooks : SetenvHooks)
    (defaultEnvironment : List UInt8) (ram : EnvT) (copies : Copy → List UInt8)
    (ops : List NandOp)
    (hnewer : StepsMeet (nandStep ⟨cfgEnvSize, true⟩ hooks)
      (SavesNewer ⟨cfgEnvSize, true⟩)
      (nandBoot ⟨cfgEnvSize, true⟩ defaultEnvironment ram copies) ops) :
    SelectsSaved ⟨cfgEnvSize, true⟩ defaultEnvironment
      (run (nandStep ⟨cfgEnvSize, true⟩ hooks)
        (nandBoot ⟨cfgEnvSize, true⟩ defaultEnvironment ram copies) ops).1 := by
  refine NandEnv.Inv.selects ?_
  exact run_invariant_of_stepsMeet (P := NandEnv.Inv ⟨cfgEnvSize, true⟩)
    (fun st op hop h => nandStep_inv rfl op h hop) (nandBoot_inv ram copies) hnewer

/-- Two copies of `a=1`, of which only the first has the right CRC. -/
def agedCopies (flags : UInt8) : Copy → List UInt8
  | .first => [106, 29, 8, 148, flags, 97, 61, 49, 0, 0, 0, 0]
  | .second => [0, 0, 0, 0, 0, 97, 61, 49, 0, 0, 0, 0]

/-- What a save that fails half way leaves. -/
def halfWritten : List UInt8 := [106, 29, 8, 148, 8, 97, 61, 0xFF, 0xFF, 0xFF, 0xFF, 0xFF]

/-- The board with aged copies. -/
def agedBoard (flags : UInt8) : NandEnv :=
  nandBoot ⟨12, true⟩ [] ⟨0, 0, fun _ => 0⟩ (agedCopies flags)

/-- Two saves, of which the first one fails. -/
theorem nandRun_selectsSaved_afterFailure : SelectsSaved ⟨12, true⟩ []
    (run (nandStep ⟨12, true⟩ freeHooks) (agedBoard 7)
      [.saveenv (.writeFails halfWritten), .saveenv .succeeds]).1 :=
  nandRun_selectsSaved 12 freeHooks [] _ _ _
    ⟨Or.inr (by decide), fun _ => Or.inr (Or.inl (by decide)), trivial⟩

/-- A save that fails takes the counter to 255, and the next one to 0. -/
theorem not_selectsSaved : ¬ SelectsSaved ⟨12, true⟩ []
    (run (nandStep ⟨12, true⟩ freeHooks) (agedBoard 254)
      [.saveenv (.eraseFails halfWritten), .saveenv .succeeds]).1 := by
  intro h
  have hselects := (h .second rfl (by unfold CopyValid; decide)
    (by unfold CopyValid; decide)).1
  revert hselects
  decide

end TateFirmware.Env
