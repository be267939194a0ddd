import TateFirmware.Nand.PartitionAccess
import TateFirmware.Support.Run

/-!
# The table of NAND devices

`nand_info` holds one record per NAND device, and `do_nand` of
`common/cmd_nand.c` works through a pointer into it.  Where `arg_off_size` finds
a partition it copies the record of its device over the one the pointer shows:
from then on the selected entry describes the device of the partition.
-/

namespace TateFirmware.Nand

open LibGeneric Mtd Support

/-! ## The table -/

/-- `struct mtd_info` as the commands use it; `priv` is the number of the chip. -/
structure MtdInfo where
  name : Option (List UInt8)
  geometry : NandInfo
  priv : ℕ

/-- What `nand_scan` finds: whether there is a chip, the name it sets, and the
geometry. -/
structure Scanned where
  present : Bool
  name : Option (List UInt8)
  geometry : NandInfo

/-- `nand_init_chip`, with `&nand_chip[i]` as `i`. -/
def nandInitChip (scanned : Scanned) (i : ℕ) : MtdInfo where
  name := if scanned.present then some (scanned.name.getD (text "nand")) else none
  geometry := scanned.geometry
  priv := i

/-- `nand_info` and `nand_curr_device`. -/
structure DeviceTable where
  nandInfo : ℕ → MtdInfo
  curr : ℕ

/-- `nand_init`. -/
def nandInit (scan : ℕ → Scanned) : DeviceTable :=
  ⟨fun i => nandInitChip (scan i) i, 0⟩

/-- The geometries, as `arg_off_size` reads them. -/
def DeviceTable.geometries (t : DeviceTable) (i : ℕ) : NandInfo :=
  (t.nandInfo i).geometry

/-- The selected device is there. -/
def DeviceTable.Available (max : ℕ) (t : DeviceTable) : Prop :=
  t.curr < max ∧ (t.nandInfo t.curr).name.isSome

instance (max : ℕ) (t : DeviceTable) : Decidable (t.Available max) :=
  inferInstanceAs (Decidable (_ ∧ _))

/-! ## The commands -/

/-- What the commands with a range do. -/
inductive RangeKind where
  | erase (clean : Bool)
  | scrub
  | read (addr : ℕ)
  | write (addr : ℕ)
  | unlock
deriving DecidableEq

/-- The call a command ends in: the record `nand` shows, and the range. -/
structure NandCall where
  kind : RangeKind
  nand : MtdInfo
  off : ℕ
  size : ℕ

/-- A command: what stands behind `nand`, what `mtdparts_init` leaves and returns
when it is called, and whether a scrub is confirmed. -/
structure NandCommand where
  argv : List (List UInt8)
  mtd : MtdState × ℕ
  confirmed : Bool

/-- The commands that call `arg_off_size`, and what they hand to it. -/
def rangeForm : List (List UInt8) → Option (RangeKind × List (List UInt8))
  | [] => none
  | cmd :: args =>
      let clean : Bool := args.head? = some (text "clean")
      let range := if clean then args.tail else args
      if cmd = text "erase" then some (.erase clean, range)
      else if cmd = text "scrub" then some (.scrub, range)
      else if cmd = text "unlock" then some (.unlock, args)
      else if startsWith cmd "read" ∨ startsWith cmd "write" then
        match args with
        | addr :: off :: rest =>
            some
              (if startsWith cmd "read" then .read (simpleStrtoul addr 16).1
                else .write (simpleStrtoul addr 16).1,
              off :: rest)
        | _ => none
      else none

/-- `nand_info` after `arg_off_size` has found a range: `*nand = nand_info[idx]`. -/
def DeviceTable.redirect (t : DeviceTable) (mtd : MtdState × ℕ)
    (range : List (List UInt8)) : DeviceTable :=
  match range.head?.bind (namedPart mtd) with
  | some (dev, _) =>
      { t with nandInfo :=
          Function.update t.nandInfo t.curr (t.nandInfo dev.id.num) }
  | none => t

/-- The command goes on behind `arg_off_size`. -/
def NandCommand.goesOn (c : NandCommand) (kind : RangeKind) (range : OffSize) :
    Bool :=
  match kind with
  | .scrub => c.confirmed
  | .unlock => ¬(range.off = 0 ∧ range.size = 0)
  | _ => true

/-- `nand device`. -/
def DeviceTable.select (max : ℕ) (t : DeviceTable) :
    List (List UInt8) → DeviceTable
  | [] => t
  | number :: _ =>
      let dev := (simpleStrtoul number 10).1
      if max ≤ dev ∨ (t.nandInfo dev).name.isNone then t else { t with curr := dev }

/-- `do_nand` with `max` as `CFG_MAX_NAND_DEVICE`.  The commands that are not
followed neither call `arg_off_size` nor select a device. -/
def nandStep (max : ℕ) (t : DeviceTable) (c : NandCommand) :
    DeviceTable × List NandCall :=
  if c.argv.head? = some (text "device") then (t.select max c.argv.tail, [])
  else if ¬t.Available max then (t, [])
  else
    match rangeForm c.argv with
    | none => (t, [])
    | some (kind, range) =>
        match argOffSize c.mtd t.geometries t.curr range with
        | none => (t, [])
        | some found =>
            let next := t.redirect c.mtd range
            (next,
              if c.goesOn kind found then
                [⟨kind, next.nandInfo next.curr, found.off, found.size⟩]
              else [])

/-! ## What a command should act on -/

/-- The NAND device whose partition a range names; `none` for a range that is
given by an offset or is refused. -/
def namedDevice (mtd : MtdState × ℕ) (range : List (List UInt8)) : Option ℕ :=
  (range.head?.bind (namedPart mtd)).bind fun found =>
    if found.1.id.type = .nand ∧
        range.tail.head?.all (fun size => (str2long size).isSome) then
      some found.1.id.num
    else none

/-- The device a command should act on: the one of the partition it names, else
the selected one. -/
def DeviceTable.asked (t : DeviceTable) (c : NandCommand) : ℕ :=
  ((rangeForm c.argv).bind fun form => namedDevice c.mtd form.2).getD t.curr

/-- A command leaves the table as it was built, and acts on the device it asks
for. -/
structure ActsRight (max : ℕ) (built : ℕ → MtdInfo) (t : DeviceTable)
    (c : NandCommand) : Prop where
  table : (nandStep max t c).1.nandInfo = built
  call : ∀ call ∈ (nandStep max t c).2, call.nand = built (t.asked c)

/-- A command that works on a partition works on one of the selected device. -/
def NamesSelected (max : ℕ) (t : DeviceTable) (c : NandCommand) : Prop :=
  c.argv.head? ≠ some (text "device") → t.Available max →
    ∀ form ∈ rangeForm c.argv, ∀ num ∈ namedDevice c.mtd form.2, num = t.curr

/-! ## Ranges and the table -/

variable {mtd : MtdState × ℕ} {range : List (List UInt8)} {t : DeviceTable}
  {found : OffSize}

/-- The range that stands behind the name of a partition. -/
theorem argOffSize_named {nandInfo : ℕ → NandInfo} {curr : ℕ} {dev : MtdDevice}
    {part : PartInfo} (hname : range.head?.bind (namedPart mtd) = some (dev, part)) :
    argOffSize mtd nandInfo curr range =
      if dev.id.type = .nand then
        (requested part range.tail.head?).map fun len =>
          ⟨part.offset, len, Function.update nandInfo curr (nandInfo dev.id.num)⟩
      else none := by
  rw [argOffSize.eq_def, hname]
  dsimp only
  cases dev.id.type with
  | nor => rfl
  | nand =>
      rw [if_pos rfl]
      cases range.tail with
      | nil => rfl
      | cons size rest =>
          rw [List.head?_cons, requested, Option.map_map]
          rfl

theorem isSome_requested (part : PartInfo) (size : Option (List UInt8)) :
    (requested part size).isSome = size.all fun size => (str2long size).isSome := by
  cases size with
  | none => rfl
  | some size => rw [requested, Option.isSome_map, Option.all_some]

/-- The device a range names is the one of a partition whose range is found. -/
theorem namedDevice_of_named {dev : MtdDevice} {part : PartInfo}
    (hname : range.head?.bind (namedPart mtd) = some (dev, part)) :
    namedDevice mtd range =
      (argOffSize mtd t.geometries t.curr range).map fun _ => dev.id.num := by
  rw [namedDevice, hname, Option.bind_some, argOffSize_named hname]
  dsimp only
  by_cases htype : dev.id.type = .nand
  · rw [if_pos htype, Option.map_map, ← isSome_requested part]
    cases requested part range.tail.head? with
    | none => exact if_neg (by simp)
    | some len => exact if_pos ⟨htype, rfl⟩
  · rw [if_neg htype]
    exact if_neg fun h => htype h.1

/-- A range that is not found names no device. -/
theorem namedDevice_eq_none
    (hfound : argOffSize mtd t.geometries t.curr range = none) :
    namedDevice mtd range = none := by
  cases hname : range.head?.bind (namedPart mtd) with
  | none => rw [namedDevice, hname, Option.bind_none]
  | some named =>
      rw [namedDevice_of_named hname, hfound, Option.map_none]

/-- The record a range leaves in the selected entry. -/
theorem redirect_eq
    (hfound : argOffSize mtd t.geometries t.curr range = some found) :
    t.redirect mtd range =
      { t with
        nandInfo := Function.update t.nandInfo t.curr
          (t.nandInfo ((namedDevice mtd range).getD t.curr)) } := by
  cases hname : range.head?.bind (namedPart mtd) with
  | none =>
      rw [DeviceTable.redirect, namedDevice, hname, Option.bind_none,
        Option.getD_none, Function.update_eq_self]
  | some named =>
      rw [namedDevice_of_named hname, hfound, DeviceTable.redirect, hname]
      rfl

/-! ## One command -/

section Found

variable {max : ℕ} {c : NandCommand} {kind : RangeKind}
  (hdevice : c.argv.head? ≠ some (text "device")) (havail : t.Available max)
  (hform : rangeForm c.argv = some (kind, range))
  (hfound : argOffSize c.mtd t.geometries t.curr range = some found)
include hdevice havail hform hfound

/-- A command that finds a range. -/
theorem nandStep_eq_of_found :
    nandStep max t c =
      (t.redirect c.mtd range,
        if c.goesOn kind found then
          [⟨kind, (t.redirect c.mtd range).nandInfo (t.redirect c.mtd range).curr,
            found.off, found.size⟩]
        else []) := by
  rw [nandStep, if_neg hdevice, if_neg (not_not.mpr havail), hform]
  simp only [hfound]

/-- It writes the record of the device it asks for to the selected entry. -/
theorem nandStep_found :
    (nandStep max t c).1.nandInfo =
        Function.update t.nandInfo t.curr (t.nandInfo (t.asked c)) ∧
      ∀ call ∈ (nandStep max t c).2, call.nand = t.nandInfo (t.asked c) := by
  have hasked : t.asked c = (namedDevice c.mtd range).getD t.curr := by
    rw [DeviceTable.asked, hform, Option.bind_some]
  rw [nandStep_eq_of_found hdevice havail hform hfound, redirect_eq hfound, ← hasked]
  refine ⟨rfl, fun call hcall => ?_⟩
  dsimp only at hcall
  split at hcall
  · rw [List.mem_singleton.mp hcall, Function.update_self]
  · cases hcall

end Found

/-- What the commands leave alone that find no range. -/
theorem actsRight_of_unchanged {max : ℕ} {c : NandCommand}
    (htable : (nandStep max t c).1.nandInfo = t.nandInfo)
    (hcalls : (nandStep max t c).2 = []) : ActsRight max t.nandInfo t c :=
  ⟨htable, by rw [hcalls]; simp⟩

/-- A command is right exactly when a partition it works on is one of the selected
device. -/
theorem actsRight_iff (hdistinct : Function.Injective t.nandInfo) (max : ℕ)
    (c : NandCommand) : ActsRight max t.nandInfo t c ↔ NamesSelected max t c := by
  by_cases hdevice : c.argv.head? = some (text "device")
  · refine iff_of_true (actsRight_of_unchanged ?_ ?_) fun h => absurd hdevice h
    · rw [nandStep, if_pos hdevice]
      cases c.argv.tail with
      | nil => rfl
      | cons number rest =>
          simp only [DeviceTable.select]
          split <;> rfl
    · rw [nandStep, if_pos hdevice]
  by_cases havail : t.Available max
  · cases hform : rangeForm c.argv with
    | none =>
        refine iff_of_true (actsRight_of_unchanged ?_ ?_) fun _ _ form h => ?_
        · rw [nandStep, if_neg hdevice, if_neg (not_not.mpr havail), hform]
        · rw [nandStep, if_neg hdevice, if_neg (not_not.mpr havail), hform]
        · rw [hform] at h
          cases h
    | some form =>
        obtain ⟨kind, range⟩ := form
        have hasked : t.asked c = (namedDevice c.mtd range).getD t.curr := by
          rw [DeviceTable.asked, hform, Option.bind_some]
        cases hfound : argOffSize c.mtd t.geometries t.curr range with
        | none =>
            refine iff_of_true (actsRight_of_unchanged ?_ ?_) fun _ _ form h => ?_
            · rw [nandStep, if_neg hdevice, if_neg (not_not.mpr havail), hform]
              simp only [hfound]
            · rw [nandStep, if_neg hdevice, if_neg (not_not.mpr havail), hform]
              simp only [hfound]
            · rw [hform] at h
              cases h
              rw [namedDevice_eq_none hfound]
              simp
        | some found =>
            obtain ⟨htable, hcalls⟩ := nandStep_found hdevice havail hform hfound
            constructor
            · intro hright _ _ form h num hnum
              rw [hform] at h
              cases h
              rw [hnum, Option.getD_some] at hasked
              rw [← hasked]
              apply hdistinct
              have hsame := congrFun (htable.symm.trans hright.table) t.curr
              rwa [Function.update_self] at hsame
            · intro hnames
              have hsame : t.asked c = t.curr := by
                rw [hasked]
                cases hnum : namedDevice c.mtd range with
                | none => rfl
                | some num => exact hnames hdevice havail _ hform num hnum
              refine ⟨?_, hcalls⟩
              rw [htable, hsame, Function.update_eq_self]
  · refine iff_of_true (actsRight_of_unchanged ?_ ?_) fun _ h => absurd h havail
    · rw [nandStep, if_neg hdevice, if_pos havail]
    · rw [nandStep, if_neg hdevice, if_pos havail]

/-! ## Runs -/

/-- The chips behind the table that `nand_init` builds are pairwise different. -/
theorem nandInit_injective (scan : ℕ → Scanned) :
    Function.Injective (nandInit scan).nandInfo := fun _ _ h =>
  congrArg MtdInfo.priv h

/-- Along a run of commands the table keeps describing the devices, and each
command acts on the device it asks for, exactly when every partition a command
works on belongs to the device that is selected. -/
theorem nandRun_actsRight_iff (max : ℕ) (scan : ℕ → Scanned)
    (cs : List NandCommand) :
    StepsMeet (nandStep max) (ActsRight max (nandInit scan).nandInfo)
        (nandInit scan) cs ↔
      StepsMeet (nandStep max) (NamesSelected max) (nandInit scan) cs := by
  have hdistinct := nandInit_injective scan
  constructor
  · intro h
    refine StepsMeet.imp_of_invariant
      (P := fun t => t.nandInfo = (nandInit scan).nandInfo) ?_ h rfl
    intro t c hright htable
    rw [← htable] at hright hdistinct
    exact ⟨(actsRight_iff hdistinct max c).mp hright, hright.table.trans htable⟩
  · intro h
    refine StepsMeet.imp_of_invariant
      (P := fun t => t.nandInfo = (nandInit scan).nandInfo) ?_ h rfl
    intro t c hnames htable
    rw [← htable] at hdistinct
    have hright := (actsRight_iff hdistinct max c).mpr hnames
    exact ⟨htable ▸ hright, hright.table.trans htable⟩

/-! ## Two devices -/

/-- Two chips of one megabyte. -/
def twoChips (i : ℕ) : Scanned := ⟨i < 2, none, megabyte⟩

/-- A partition on the second one. -/
def secondParts : MtdState × ℕ :=
  mtdpartsInit smallNand
    [⟨.nand, 0, 2 ^ 20, mebibyte_lt, text "m"⟩, ⟨.nand, 1, 2 ^ 20, mebibyte_lt, text "n"⟩]
    (.start 0) (text "mtdparts=n:8k(a)")

/-- `nand erase nand1,0`. -/
def eraseSecond : NandCommand :=
  ⟨[text "erase", text "nand1,0"], secondParts, false⟩

/-- `nand erase 0 1000`. -/
def eraseOffset : NandCommand :=
  ⟨[text "erase", text "0", text "1000"], secondParts, false⟩

/-- With the first device selected, an erase of the partition on the second one
makes the next erase, at an offset of the first device, one of the second. -/
theorem eraseSecond_not_actsRight :
    ¬StepsMeet (nandStep 2) (ActsRight 2 (nandInit twoChips).nandInfo)
      (nandInit twoChips) [eraseSecond, eraseOffset] := by
  intro hmeet
  obtain ⟨-, hright, -⟩ := hmeet
  have hcall : ∃ call ∈ (nandStep 2 (nandStep 2 (nandInit twoChips) eraseSecond).1
      eraseOffset).2, call.nand.priv = 1 := by
    decide
  obtain ⟨call, hmem, hpriv⟩ := hcall
  have hasked : (nandStep 2 (nandInit twoChips) eraseSecond).1.asked eraseOffset
      = 0 := by
    decide
  rw [hright.call call hmem, hasked] at hpriv
  exact absurd hpriv (by decide)

end TateFirmware.Nand
