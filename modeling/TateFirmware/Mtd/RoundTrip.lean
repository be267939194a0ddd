import TateFirmware.Mtd.Invariant
import TateFirmware.Mtd.Generate
import TateFirmware.Support.SortedByKey

/-!
# Parsing generated `mtdparts` strings

The devices of a parsed `mtdparts` string are printed by `generate_mtdparts`
and parsed again.  What is parsed is each device with its partitions inserted
in the order of the list, so partitions that start at one offset change their
order.
-/

namespace TateFirmware.Mtd

open LibGeneric Support

/-! ## What parsing has made -/

/-- A partition of a device that has been parsed. -/
structure PartRead (flash : Flash) (id : MtdIds) (part : PartInfo) : Prop where
  inside : Inside id part
  fits : partFits flash id part = true
  size_lt : part.size < 2 ^ 32
  name : part.autoName = false → part.name ≠ [] ∧ ch ')' ∉ part.name
  maskFlags : part.maskFlags = 0 ∨ part.maskFlags = mtdWriteableCmd

/-- No two partitions start at offset zero. -/
def OneAtZero (parts : List PartInfo) : Prop :=
  parts.Pairwise fun p q => ¬ (p.offset = 0 ∧ q.offset = 0)

theorem PartRead.size_pos {flash : Flash} {id : MtdIds} {part : PartInfo}
    (h : PartRead flash id part) : 0 < part.size := by
  have hfits := h.fits
  have hinside := h.inside
  have hid := id.size_lt
  unfold partFits at hfits
  unfold Inside at hinside
  by_contra hzero
  rw [if_neg (by omega), if_pos (by omega)] at hfits
  exact absurd hfits (by decide)

theorem PartRead.named {flash : Flash} {id : MtdIds} {part : PartInfo}
    (h : PartRead flash id part) (hauto : part.autoName = false) :
    Named part where
  autoName := hauto
  name_ne := (h.name hauto).1
  name_notMem := (h.name hauto).2
  maskFlags := h.maskFlags
  size_pos := h.size_pos
  end_lt := lt_of_le_of_lt h.inside id.size_lt

theorem partName_read {p rest : List UInt8} {name : Option (List UInt8)}
    (h : partName p = some (name, rest)) :
    ∀ s, name = some s → s ≠ [] ∧ ch ')' ∉ s := by
  unfold partName at h
  split at h
  · split at h
    · exact absurd h (by simp)
    · split at h
      · exact absurd h (by simp)
      · rename_i hne
        obtain ⟨rfl, -⟩ := Prod.mk.inj (Option.some.inj h)
        rintro s hs
        obtain rfl := Option.some.inj hs
        refine ⟨hne, ?_⟩
        intro hmem
        have := List.mem_takeWhile_imp hmem
        simp at this
  · obtain ⟨rfl, -⟩ := Prod.mk.inj (Option.some.inj h)
    intro s hs
    exact absurd hs (by simp)

theorem partOptions_read (p : List UInt8) :
    (partOptions p).1 = 0 ∨ (partOptions p).1 = mtdWriteableCmd := by
  unfold partOptions
  split
  · exact Or.inr rfl
  · exact Or.inl rfl

/-- Validation fills in the size and leaves the rest. -/
theorem partValidate_fields {flash : Flash} {id : MtdIds}
    {part new : PartInfo} (h : partValidate flash id part = some new) :
    partFits flash id new = true ∧ new.name = part.name ∧
      new.autoName = part.autoName ∧ new.maskFlags = part.maskFlags := by
  unfold partValidate at h
  split at h
  · rename_i hfits
    obtain rfl := Option.some.inj h
    refine ⟨hfits, ?_⟩
    unfold fillUp
    split <;> exact ⟨rfl, rfl, rfl⟩
  · exact absurd h (by simp)

theorem newPart_read {addr size offset offset' maskFlags : ℕ}
    {name : Option (List UInt8)} {part : PartInfo}
    (hpart : part = newPart addr size offset name maskFlags) :
    (if part.offset = offsetNotSpecified then { part with offset := offset' }
        else part).name = part.name ∧
      (if part.offset = offsetNotSpecified then { part with offset := offset' }
        else part).autoName = name.isNone ∧
      (if part.offset = offsetNotSpecified then { part with offset := offset' }
        else part).maskFlags = maskFlags := by
  subst hpart
  split <;> exact ⟨rfl, rfl, rfl⟩

/-- A partition that has been read and found valid. -/
theorem partRead_of_parse {flash : Flash} {id : MtdIds} {p ret : List UInt8}
    {addr offset : ℕ} {part new : PartInfo}
    (hparse : partParse p addr = some (part, ret))
    (hvalid : partValidate flash id
      (if part.offset = offsetNotSpecified then { part with offset := offset }
        else part) = some new) : PartRead flash id new := by
  have hsize := (partParse_fields hparse).2.1
  have hinside := (partValidate_spec (by split <;> exact hsize) hvalid).1
  obtain ⟨size, rest, name, rest', -, hname, -, hpart⟩ :=
    partParse_cases hparse
  obtain ⟨hfits, hnewname, hauto, hflags⟩ := partValidate_fields hvalid
  obtain ⟨hpartname, hpartauto, hpartflags⟩ := newPart_read hpart
  rw [hpartname] at hnewname
  rw [hpartauto] at hauto
  rw [hpartflags] at hflags
  have hend : new.size ≤ id.size := by
    unfold Inside at hinside
    omega
  refine ⟨hinside, hfits, lt_of_le_of_lt hend id.size_lt, ?_, ?_⟩
  · intro hnot
    rw [hauto] at hnot
    cases name with
    | none => exact absurd hnot (by simp)
    | some s =>
        rw [hnewname, hpart]
        exact partName_read hname s rfl
  · rw [hflags]
    exact partOptions_read rest'

theorem partsParse_read {flash : Flash} {id : MtdIds} {k : ℕ}
    {p ret : List UInt8} {offset addr : ℕ} {parts : List PartInfo}
    (h : partsParse flash id k p offset addr = some (parts, ret)) :
    ∀ q ∈ parts, PartRead flash id q := by
  induction k generalizing p offset addr parts with
  | zero => exact absurd h (by simp [partsParse])
  | succ k ih =>
      rw [partsParse] at h
      split at h
      · obtain ⟨rfl, -⟩ := Prod.mk.inj (Option.some.inj h)
        simp
      · cases hparse : partParse p addr with
        | none =>
            rw [hparse] at h
            exact absurd h (by simp)
        | some parsed =>
            obtain ⟨part, rest⟩ := parsed
            rw [hparse] at h
            dsimp only at h
            cases hvalid : partValidate flash id
                (if part.offset = offsetNotSpecified then
                  { part with offset := offset } else part) with
            | none =>
                rw [hvalid] at h
                exact absurd h (by simp)
            | some new =>
                rw [hvalid] at h
                obtain ⟨⟨qs, ret'⟩, hqs, heq⟩ := Option.map_eq_some_iff.mp h
                obtain ⟨rfl, rfl⟩ := Prod.mk.inj heq
                intro q hq
                rcases List.mem_cons.mp hq with rfl | hq
                · exact partRead_of_parse hparse hvalid
                · exact ih hqs q hq

/-! ## Inserting all partitions -/

theorem sortInsert_eq {currPi : Option PartInfo} {new : PartInfo}
    {parts parts' : List PartInfo} {up : Bool}
    (h : sortInsert currPi new parts = some (parts', up)) :
    parts' = insertByKey PartInfo.offset new parts := by
  induction parts generalizing parts' up with
  | nil => exact (Prod.mk.inj (Option.some.inj h)).1.symm
  | cons pi ps ih =>
      rw [sortInsert] at h
      unfold insertByKey
      rw [List.orderedInsert_cons]
      split at h
      · exact absurd h (by simp)
      · split at h
        · rename_i hle
          rw [if_pos hle]
          exact (Prod.mk.inj (Option.some.inj h)).1.symm
        · rename_i hle
          obtain ⟨⟨qs, up'⟩, hqs, heq⟩ := Option.map_eq_some_iff.mp h
          rw [if_neg hle, ← (Prod.mk.inj heq).1, ih hqs]
          rfl

theorem oneAtZero_cons {new : PartInfo} {parts : List PartInfo}
    (h : OneAtZero parts) : OneAtZero (new :: parts) ↔
      ¬ SecondAtZero new parts := by
  unfold OneAtZero at h ⊢
  unfold SecondAtZero
  rw [List.pairwise_cons, and_iff_left h]
  constructor
  · rintro hall ⟨hnew, p, hp, hpzero⟩
    exact hall p hp ⟨hnew, hpzero⟩
  · rintro hno p hp ⟨hnew, hpzero⟩
    exact hno ⟨hnew, p, hp, hpzero⟩

theorem OneAtZero.perm {parts parts' : List PartInfo}
    (h : OneAtZero parts) (hperm : parts.Perm parts') : OneAtZero parts' := by
  refine (hperm.pairwise_iff ?_).mp h
  rintro p q hpq ⟨hq, hp⟩
  exact hpq ⟨hp, hq⟩

/-- Moving partitions to a device succeeds exactly when no two of them all
start at zero, and inserts them one after the other. -/
theorem sortAddAll_eq {dev : MtdDevice} {parts : List PartInfo}
    (hsorted : Sorted dev.parts) (hzero : OneAtZero dev.parts) :
    (OneAtZero (parts ++ dev.parts) → (sortAddAll dev parts).isSome) ∧
      ∀ dev', sortAddAll dev parts = some dev' →
        OneAtZero dev'.parts ∧
          dev'.parts = insertAllByKey PartInfo.offset dev.parts parts := by
  induction parts generalizing dev with
  | nil =>
      refine ⟨fun _ => rfl, ?_⟩
      intro dev' h
      obtain rfl := Option.some.inj h
      exact ⟨hzero, rfl⟩
  | cons part parts ih =>
      rw [sortAddAll]
      cases hadd : partSortAdd none dev part with
      | none =>
          refine ⟨?_, fun dev' h => absurd h (by simp)⟩
          intro hall
          have hsecond := (sortInsert_eq_none_iff hsorted).mp
            (Option.map_eq_none_iff.mp hadd)
          have hpart : OneAtZero (part :: dev.parts) := by
            refine (hall.perm List.perm_middle.symm).sublist ?_
            exact List.sublist_append_right parts (part :: dev.parts)
          exact absurd hsecond ((oneAtZero_cons hzero).mp hpart)
      | some added =>
          obtain ⟨mid, up⟩ := added
          obtain ⟨⟨qs, up'⟩, hqs, heq⟩ := Option.map_eq_some_iff.mp hadd
          obtain ⟨rfl, -⟩ := Prod.mk.inj heq
          have hperm := sortInsert_perm hqs
          have hsecond : ¬ SecondAtZero part dev.parts := by
            intro hsecond
            rw [(sortInsert_eq_none_iff hsorted).mpr hsecond] at hqs
            exact absurd hqs (by simp)
          have hmid : OneAtZero qs :=
            ((oneAtZero_cons hzero).mpr hsecond).perm hperm.symm
          obtain ⟨hsome, hresult⟩ := @ih
            { dev with numParts := (dev.numParts + 1) % 2 ^ 16, parts := qs }
            (sortInsert_sorted hsorted hqs) hmid
          refine ⟨?_, ?_⟩
          · intro hall
            apply hsome
            refine hall.perm ?_
            exact (List.perm_middle.symm).trans (hperm.symm.append_left parts)
          · intro dev' h
            obtain ⟨hone, hparts⟩ := hresult dev' h
            refine ⟨hone, ?_⟩
            rw [hparts, insertAllByKey]
            dsimp only
            rw [sortInsert_eq hqs]

/-! ## Devices that have been parsed -/

/-- A device of the list that `parse_mtdparts` has made. -/
structure DeviceRead (flash : Flash) (mtdids : List MtdIds)
    (d : MtdDevice) : Prop where
  ok : DeviceOk d
  found : idFindByMtdId mtdids d.id.mtdId = some d.id
  colon : ch ':' ∉ d.id.mtdId
  start : peek (d.id.mtdId ++ text ":") ≠ 0
  read : ∀ p ∈ d.parts, PartRead flash d.id p
  oneAtZero : OneAtZero d.parts

theorem deviceParse_read {flash : Flash} {mtdids : List MtdIds}
    {devices : List MtdDevice} {brk : ℕ} {mtdDev ret : List UInt8}
    {dev : MtdDevice} (hlength : mtdDev.length < 2 ^ 16)
    (hpeek : peek mtdDev ≠ 0)
    (h : deviceParse flash mtdids devices brk mtdDev = some (dev, ret)) :
    DeviceRead flash mtdids dev := by
  have hok := (deviceParse_spec hlength h).1
  obtain ⟨c, p, id, parts, rest, hcolon, hid, hparts, -, hdev, -⟩ :=
    deviceParse_cases h
  have hempty : Sorted
      (MtdDevice.mk (brk + parts.length) id 0 []).parts :=
    List.Pairwise.nil
  obtain ⟨-, hperm, -, -, -, hdevid⟩ := sortAddAll_spec hempty hdev
  have hone := ((sortAddAll_eq hempty List.Pairwise.nil).2 dev hdev).1
  rw [List.append_nil] at hperm
  have hname : id.mtdId = mtdDev.takeWhile (· ≠ ch ':') := by
    simpa [idFindByMtdId] using List.find?_some hid
  have hid' : dev.id = id := hdevid
  have hsplit := List.takeWhile_append_dropWhile
    (p := fun c => decide (c ≠ ch ':')) (l := mtdDev)
  rw [hcolon, ← hname] at hsplit
  constructor
  · exact hok
  · rw [hid', hname]
    exact hid
  · rw [hid', hname]
    intro hmem
    have := List.mem_takeWhile_imp hmem
    simp at this
  · rw [hid']
    cases hlist : id.mtdId with
    | nil => exact (by decide : ch ':' ≠ 0)
    | cons a as =>
        rw [hlist] at hsplit
        rw [← hsplit] at hpeek
        exact hpeek
  · intro q hq
    rw [hid']
    exact partsParse_read hparts q (hperm.subset hq)
  · exact hone

/-- Two devices are of different type or number. -/
def Differ (d d' : MtdDevice) : Prop :=
  ¬ (d.id.type = d'.id.type ∧ d.id.num = d'.id.num)

theorem deviceFind_eq_none_iff {devices : List MtdDevice} {dev : MtdDevice} :
    deviceFind devices dev.id.type dev.id.num = none ↔
      ∀ d ∈ devices, Differ d dev := by
  simp [deviceFind, Differ]

theorem devicesParse_read {flash : Flash} {mtdids : List MtdIds} {k : ℕ}
    {devices devices' : List MtdDevice} {brk brk' : ℕ} {p : List UInt8}
    (hlength : p.length < 2 ^ 16)
    (hread : ∀ d ∈ devices, DeviceRead flash mtdids d)
    (hdiffer : devices.Pairwise Differ)
    (h : devicesParse flash mtdids k devices brk p = some (devices', brk')) :
    (∀ d ∈ devices', DeviceRead flash mtdids d) ∧
      devices'.Pairwise Differ := by
  induction k generalizing devices brk p with
  | zero => exact absurd h (by simp [devicesParse])
  | succ k ih =>
      rw [devicesParse] at h
      split at h
      · obtain ⟨rfl, -⟩ := Prod.mk.inj (Option.some.inj h)
        exact ⟨hread, hdiffer⟩
      · rename_i hpeek
        cases hparse : deviceParse flash mtdids devices brk p with
        | none =>
            rw [hparse] at h
            exact absurd h (by simp)
        | some parsed =>
            obtain ⟨dev, ret⟩ := parsed
            rw [hparse] at h
            dsimp only at h
            have hret := (deviceParse_spec hlength hparse).2.2.2
            split at h
            · exact absurd h (by simp)
            · rename_i hfind
              have hnone : deviceFind devices dev.id.type dev.id.num =
                  none := by
                simpa using hfind
              refine ih (by omega) ?_ ?_ h
              · intro d hd
                rcases List.mem_append.mp hd with hd | hd
                · exact hread d hd
                · rw [List.mem_singleton.mp hd]
                  exact deviceParse_read hlength hpeek hparse
              · rw [List.pairwise_append]
                refine ⟨hdiffer, List.pairwise_singleton _ _, ?_⟩
                intro d hd d' hd'
                rw [List.mem_singleton.mp hd']
                exact deviceFind_eq_none_iff.mp hnone d hd

/-- The devices of a string that has been accepted. -/
theorem parseMtdparts_read {flash : Flash} {mtdids : List MtdIds} {brk brk' : ℕ}
    {mtdparts : List UInt8} {devices : List MtdDevice}
    (hlength : mtdparts.length < 2 ^ 16)
    (h : parseMtdparts flash mtdids brk mtdparts = some (devices, brk')) :
    (∀ d ∈ devices, DeviceRead flash mtdids d) ∧ devices.Pairwise Differ ∧
      devices ≠ [] := by
  unfold parseMtdparts at h
  split at h
  · rename_i hstart
    have hlt : (mtdparts.drop 9).length < 2 ^ 16 := by
      rw [List.length_drop]
      omega
    obtain ⟨hread, hdiffer⟩ :=
      devicesParse_read hlt (by simp) List.Pairwise.nil h
    obtain ⟨-, -, hne⟩ :=
      devicesParse_spec hlt (devicesOk_nil brk brk) (le_refl _) h
    exact ⟨hread, hdiffer, hne (Or.inr hstart.2)⟩
  · exact absurd h (by simp)

/-! ## Parsing printed partitions -/

/-- What two partitions have in common when they are the same. -/
structure PartData where
  size : ℕ
  offset : ℕ
  name : List UInt8
  readOnly : Bool
deriving DecidableEq

def PartInfo.data (part : PartInfo) : PartData where
  size := part.size
  offset := part.offset
  name := part.name
  readOnly := part.maskFlags ≠ 0

/-- Sizes that `part_parse` takes as they are: not too small, and the one that
stands for what remains only at the end. -/
def SizesReadable (parts : List PartInfo) : Prop :=
  (∀ p ∈ parts, minPartSize ≤ p.size) ∧
    ∀ p ∈ parts.dropLast, p.size ≠ sizeRemaining

theorem sizesReadable_cons {part : PartInfo} {parts : List PartInfo} :
    SizesReadable (part :: parts) ↔
      ¬ (part.size < minPartSize ∨ parts ≠ [] ∧ part.size = sizeRemaining) ∧
        SizesReadable parts := by
  unfold SizesReadable
  cases parts with
  | nil => simp
  | cons q qs =>
      rw [List.dropLast_cons_cons, List.forall_mem_cons, List.forall_mem_cons,
        List.forall_mem_cons]
      simp only [not_or, not_lt, not_and, ne_eq, reduceCtorEq,
        not_false_eq_true, forall_true_left]
      tauto

/-- Where the parser expects the next partition. -/
def runningOffset : Option PartInfo → ℕ
  | none => 0
  | some prev => (prev.offset + prev.size) % 2 ^ 32

theorem hasGap_iff {prevPart : Option PartInfo} {part : PartInfo} :
    hasGap prevPart part = true ↔ part.offset ≠ runningOffset prevPart := by
  cases prevPart with
  | none => simp [hasGap, runningOffset]
  | some prev =>
      simp only [hasGap, runningOffset, decide_eq_true_eq]
      exact ne_comm

/-- A partition that has been valid once is valid again at another address. -/
theorem partValidate_again {flash : Flash} {id : MtdIds} {part : PartInfo}
    (h : PartRead flash id part) (addr : ℕ) :
    partValidate flash id { part with addr := addr } =
      some { part with addr := addr } := by
  have hinside := h.inside
  have hid := id.size_lt
  unfold Inside at hinside
  have hfill : fillUp id { part with addr := addr } =
      { part with addr := addr } := by
    unfold fillUp
    split
    · rename_i hsize
      have hsize : part.size = sizeRemaining := hsize
      have hvalue : (id.size + 2 ^ 32 - part.offset) % 2 ^ 32 = part.size := by
        unfold sizeRemaining at hsize
        omega
      dsimp only
      rw [hvalue]
    · rfl
  unfold partValidate
  rw [hfill]
  exact if_pos h.fits

/-- The printed partitions of a device are parsed to the same partitions, if
their sizes are readable; otherwise they are rejected. -/
theorem partsParse_print {flash : Flash} {id : MtdIds} {numParts k : ℕ}
    {partCnt addr : ℕ} {prevPart : Option PartInfo} {parts : List PartInfo}
    {rest : List UInt8} (hread : ∀ p ∈ parts, PartRead flash id p)
    (hauto : ∀ p ∈ parts, p.autoName = false) (hsorted : Sorted parts)
    (hone : OneAtZero parts)
    (hprev : prevPart ≠ none → ∀ p ∈ parts, p.offset ≠ 0)
    (hcnt : partCnt + parts.length = numParts) (hrest : EndsParts rest)
    (hk : parts.length < k) :
    (SizesReadable parts → ∃ parts',
        partsParse flash id k
          ((partsPieces numParts prevPart partCnt parts).flatten ++ rest)
          (runningOffset prevPart) addr = some (parts', rest) ∧
        parts'.map PartInfo.data = parts.map PartInfo.data) ∧
      (¬ SizesReadable parts →
        partsParse flash id k
          ((partsPieces numParts prevPart partCnt parts).flatten ++ rest)
          (runningOffset prevPart) addr = none) := by
  induction parts generalizing k partCnt prevPart addr with
  | nil =>
      obtain ⟨k, rfl⟩ := Nat.exists_eq_succ_of_ne_zero (by omega : k ≠ 0)
      refine ⟨fun _ => ⟨[], ?_, rfl⟩, fun h => absurd ⟨by simp, by simp⟩ h⟩
      exact if_pos hrest
  | cons part parts ih =>
      obtain ⟨k, rfl⟩ := Nat.exists_eq_succ_of_ne_zero (by omega : k ≠ 0)
      obtain ⟨hpart, hsorted⟩ := List.pairwise_cons.mp hsorted
      obtain ⟨hzero, hone⟩ := List.pairwise_cons.mp hone
      rw [List.forall_mem_cons] at hread hauto
      rw [List.length_cons] at hcnt hk
      have hnamed := hread.1.named hauto.1
      have hmore : (decide (partCnt + 1 < numParts) = true) ↔ parts ≠ [] := by
        rw [decide_eq_true_iff, ← List.length_pos_iff]
        omega
      have hgap : hasGap prevPart part → part.offset ≠ 0 := by
        intro hgap
        cases prevPart with
        | none => exact hasGap_iff.mp hgap
        | some prev => exact hprev (by simp) part (by simp)
      have hends : decide (partCnt + 1 < numParts) = false →
          EndsParts ((partsPieces numParts (some part) (partCnt + 1)
            parts).flatten ++ rest) := by
        intro hno
        have hnil : parts = [] := by
          by_contra hne
          rw [hmore.mpr hne] at hno
          exact absurd hno (by decide)
        subst hnil
        exact hrest
      have hparse := partParse_print hnamed hgap hends addr
      have htext : (partsPieces numParts prevPart partCnt
          (part :: parts)).flatten ++ rest =
          (partPieces prevPart part
            (decide (partCnt + 1 < numParts))).flatten ++
            ((partsPieces numParts (some part) (partCnt + 1) parts).flatten ++
              rest) := by
        rw [partsPieces, List.flatten_append, List.append_assoc]
      have hpeek : ¬ (peek ((partPieces prevPart part
          (decide (partCnt + 1 < numParts))).flatten ++
            ((partsPieces numParts (some part) (partCnt + 1) parts).flatten ++
              rest)) = 0 ∨ peek ((partPieces prevPart part
          (decide (partCnt + 1 < numParts))).flatten ++
            ((partsPieces numParts (some part) (partCnt + 1) parts).flatten ++
              rest)) = ch ';') := by
        rw [partPieces_flatten hnamed]
        exact not_or.mpr ⟨peek_memsizeFormat_ne (by decide) _ _,
          peek_memsizeFormat_ne (by decide) _ _⟩
      rw [htext, partsParse, if_neg hpeek, hparse, sizesReadable_cons]
      by_cases hbad : part.size < minPartSize ∨
          decide (partCnt + 1 < numParts) = true ∧ part.size = sizeRemaining
      · rw [if_pos hbad]
        rw [hmore] at hbad
        exact ⟨fun h => absurd hbad h.1, fun _ => rfl⟩
      · rw [if_neg hbad]
        rw [hmore] at hbad
        dsimp only
        have hoffset : part.offset ≠ offsetNotSpecified := by
          have := hnamed.end_lt
          have := hnamed.size_pos
          unfold offsetNotSpecified
          omega
        have hsame : (if (PartInfo.mk addr part.name part.autoName part.size
              (if hasGap prevPart part = true then part.offset
                else offsetNotSpecified) part.maskFlags).offset =
              offsetNotSpecified then
            PartInfo.mk addr part.name part.autoName part.size
              (runningOffset prevPart) part.maskFlags
            else PartInfo.mk addr part.name part.autoName part.size
              (if hasGap prevPart part = true then part.offset
                else offsetNotSpecified) part.maskFlags) =
            { part with addr := addr } := by
          by_cases hgap' : hasGap prevPart part = true
          · simp only [if_pos hgap', if_neg hoffset]
          · have heq : runningOffset prevPart = part.offset := by
              by_contra hne
              exact hgap' (hasGap_iff.mpr (Ne.symm hne))
            simp only [if_neg hgap', if_true, heq]
        rw [hsame, partValidate_again hread.1 addr]
        dsimp only
        have hbehind : some part ≠ none → ∀ p ∈ parts, p.offset ≠ 0 := by
          intro _ p hp hpzero
          have := hpart p hp
          exact hzero p hp ⟨by omega, hpzero⟩
        obtain ⟨hgood, hfails⟩ := @ih k (partCnt + 1) (addr + 1) (some part)
          hread.2 hauto.2 hsorted hone hbehind (by omega) (by omega)
        constructor
        · rintro ⟨-, hsizes⟩
          obtain ⟨parts', hparts', hdata⟩ := hgood hsizes
          refine ⟨{ part with addr := addr } :: parts', ?_, ?_⟩
          · exact Option.map_eq_some_iff.mpr ⟨_, hparts', rfl⟩
          · rw [List.map_cons, hdata]
            rfl
        · intro hno
          have hsizes : ¬ SizesReadable parts := fun h => hno ⟨hbad, h⟩
          exact Option.map_eq_none_iff.mpr (hfails hsizes)

/-! ## Parsing printed devices -/

theorem length_le_partsPieces (numParts : ℕ) (prevPart : Option PartInfo)
    (partCnt : ℕ) (parts : List PartInfo) :
    parts.length ≤
      (partsPieces numParts prevPart partCnt parts).flatten.length := by
  induction parts generalizing prevPart partCnt with
  | nil => exact Nat.zero_le _
  | cons part parts ih =>
      have hne : memsizeFormat part.size ≠ [] := by
        intro hnil
        have := isdigit_peek_memsizeFormat part.size []
        rw [hnil] at this
        exact absurd this (by decide)
      have hpos := List.length_pos_iff.mpr hne
      have := ih (some part) (partCnt + 1)
      rw [partsPieces, List.flatten_append, List.length_append, partPieces]
      simp only [List.flatten_append, List.length_append, List.flatten_cons,
        List.flatten_nil, List.append_nil, List.length_cons]
      omega

theorem oneAtZero_of_data {parts parts' : List PartInfo}
    (hdata : parts'.map PartInfo.data = parts.map PartInfo.data)
    (h : OneAtZero parts) : OneAtZero parts' := by
  have hmap : ∀ {ps : List PartInfo}, OneAtZero ps ↔
      (ps.map PartInfo.data).Pairwise
        fun p q => ¬ (p.offset = 0 ∧ q.offset = 0) := by
    intro ps
    rw [List.pairwise_map]
    rfl
  rw [hmap, hdata]
  exact hmap.mp h

/-- What is printed for a device, in front of the separator. -/
def deviceText (d : MtdDevice) : List UInt8 :=
  d.id.mtdId ++ text ":" ++ (partsPieces d.numParts none 0 d.parts).flatten

/-- A printed device is parsed to a device with its partitions inserted one
after the other. -/
theorem deviceParse_print {flash : Flash} {mtdids : List MtdIds}
    {devices : List MtdDevice} {d : MtdDevice} {rest : List UInt8}
    (hd : DeviceRead flash mtdids d) (hauto : ∀ p ∈ d.parts, p.autoName = false)
    (hfind : deviceFind devices d.id.type d.id.num = none)
    (hrest : EndsParts rest) (brk : ℕ) :
    (SizesReadable d.parts → ∃ d',
        deviceParse flash mtdids devices brk (deviceText d ++ rest) =
          some (d', if peek rest = ch ';' then rest.tail else rest) ∧
        d'.id = d.id ∧ d'.parts.map PartInfo.data =
          insertAllByKey PartData.offset [] (d.parts.map PartInfo.data)) ∧
      (¬ SizesReadable d.parts →
        deviceParse flash mtdids devices brk (deviceText d ++ rest) = none) := by
  have htext : deviceText d ++ rest = d.id.mtdId ++ ch ':' ::
      ((partsPieces d.numParts none 0 d.parts).flatten ++ rest) := by
    unfold deviceText
    rw [List.append_assoc, List.append_assoc]
    rfl
  have hne : ∀ c ∈ d.id.mtdId, decide (c ≠ ch ':') = true := by
    intro c hc
    rw [decide_eq_true_iff]
    rintro rfl
    exact hd.colon hc
  have htake : (deviceText d ++ rest).takeWhile (· ≠ ch ':') = d.id.mtdId := by
    rw [htext, List.takeWhile_append_of_pos hne, List.takeWhile_cons]
    simp
  have hdrop : (deviceText d ++ rest).dropWhile (· ≠ ch ':') =
      ch ':' :: ((partsPieces d.numParts none 0 d.parts).flatten ++ rest) := by
    rw [htext, List.dropWhile_append_of_pos hne, List.dropWhile_cons]
    simp
  have hstart : startOffset devices d.id = runningOffset none := by
    unfold startOffset
    rw [hfind]
    rfl
  have hfuel : d.parts.length <
      ((partsPieces d.numParts none 0 d.parts).flatten ++ rest).length + 1 := by
    have := length_le_partsPieces d.numParts none 0 d.parts
    rw [List.length_append]
    omega
  have hcnt : 0 + d.parts.length = d.numParts := by
    rw [Nat.zero_add]
    exact hd.ok.counted.symm
  obtain ⟨hgood, hfails⟩ :=
    @partsParse_print flash d.id d.numParts _ 0 brk none d.parts rest hd.read
      hauto hd.ok.sorted hd.oneAtZero (fun h => absurd rfl h) hcnt hrest hfuel
  unfold deviceParse
  rw [hdrop, htake, hd.found]
  dsimp only
  rw [hstart]
  constructor
  · intro hsizes
    obtain ⟨parts', hparts', hdata⟩ := hgood hsizes
    have hlength : parts'.length = d.parts.length := by
      simpa using congrArg List.length hdata
    have hcount : ¬ parts'.length % 2 ^ 16 = 0 := by
      have := hd.ok.count_lt
      have := List.length_pos_iff.mpr hd.ok.nonempty
      omega
    have hone : OneAtZero (parts' ++ []) := by
      rw [List.append_nil]
      exact oneAtZero_of_data hdata hd.oneAtZero
    have hempty : Sorted
        (MtdDevice.mk (brk + parts'.length) d.id 0 []).parts :=
      List.Pairwise.nil
    obtain ⟨hsome, hresult⟩ := sortAddAll_eq hempty List.Pairwise.nil
    obtain ⟨d', hd'⟩ := Option.isSome_iff_exists.mp (hsome hone)
    obtain ⟨-, -, -, -, -, hid⟩ := sortAddAll_spec hempty hd'
    refine ⟨d', ?_, hid, ?_⟩
    · rw [hparts']
      dsimp only
      rw [if_neg hcount, hd']
      rfl
    · have hoffset : ∀ p : PartInfo, p.data.offset = p.offset := fun _ => rfl
      have hmap : (insertAllByKey PartInfo.offset [] parts').map
            PartInfo.data =
          insertAllByKey PartData.offset [] (parts'.map PartInfo.data) :=
        map_insertAllByKey hoffset [] parts'
      rw [(hresult d' hd').2, ← hdata]
      exact hmap
  · intro hsizes
    rw [hfails hsizes]

/-- What is printed for the devices is the devices with separators. -/
theorem devicesPieces_flatten (d : MtdDevice) (ds : List MtdDevice) :
    (devicesPieces (d :: ds)).flatten =
      deviceText d ++ ((if ds ≠ [] then text ";" else []) ++
        (devicesPieces ds).flatten) := by
  unfold deviceText
  rw [devicesPieces]
  split <;> simp

theorem peek_deviceText {flash : Flash} {mtdids : List MtdIds} {d : MtdDevice}
    (hd : DeviceRead flash mtdids d) (rest : List UInt8) :
    peek (deviceText d ++ rest) ≠ 0 := by
  have hstart := hd.start
  unfold deviceText
  cases hid : d.id.mtdId with
  | nil => exact (by decide : ch ':' ≠ 0)
  | cons a as =>
      rw [hid] at hstart
      exact hstart

/-- The printed devices are parsed to devices with their partitions inserted
one after the other, if all sizes are readable; otherwise they are
rejected. -/
theorem devicesParse_print {flash : Flash} {mtdids : List MtdIds} {k brk : ℕ}
    {acc ds : List MtdDevice} (hread : ∀ d ∈ ds, DeviceRead flash mtdids d)
    (hauto : ∀ d ∈ ds, ∀ p ∈ d.parts, p.autoName = false)
    (hdiffer : ds.Pairwise Differ)
    (hacc : ∀ a ∈ acc, ∀ d ∈ ds, Differ a d) (hk : ds.length < k) :
    ((∀ d ∈ ds, SizesReadable d.parts) → ∃ ds' brk',
        devicesParse flash mtdids k acc brk (devicesPieces ds).flatten =
          some (acc ++ ds', brk') ∧
        List.Forall₂ (fun d d' => d'.id = d.id ∧
          d'.parts.map PartInfo.data = insertAllByKey PartData.offset []
            (d.parts.map PartInfo.data)) ds ds') ∧
      (¬ (∀ d ∈ ds, SizesReadable d.parts) →
        devicesParse flash mtdids k acc brk (devicesPieces ds).flatten =
          none) := by
  induction ds generalizing k brk acc with
  | nil =>
      obtain ⟨k, rfl⟩ := Nat.exists_eq_succ_of_ne_zero (by omega : k ≠ 0)
      refine ⟨fun _ => ⟨[], brk, ?_, List.Forall₂.nil⟩,
        fun h => absurd (by simp) h⟩
      rw [List.append_nil]
      exact if_pos rfl
  | cons d ds ih =>
      obtain ⟨k, rfl⟩ := Nat.exists_eq_succ_of_ne_zero (by omega : k ≠ 0)
      obtain ⟨hdd, hds⟩ := List.pairwise_cons.mp hdiffer
      rw [List.forall_mem_cons] at hread hauto
      rw [List.length_cons] at hk
      have hfind : deviceFind acc d.id.type d.id.num = none :=
        deviceFind_eq_none_iff.mpr fun a ha => hacc a ha d (by simp)
      have hrest : EndsParts ((if ds ≠ [] then text ";" else []) ++
          (devicesPieces ds).flatten) := by
        split
        · exact Or.inr rfl
        · rename_i hnil
          rw [not_not.mp hnil]
          exact Or.inl rfl
      have hret : (if peek ((if ds ≠ [] then text ";" else []) ++
            (devicesPieces ds).flatten) = ch ';' then
            ((if ds ≠ [] then text ";" else []) ++
              (devicesPieces ds).flatten).tail
          else (if ds ≠ [] then text ";" else []) ++
            (devicesPieces ds).flatten) = (devicesPieces ds).flatten := by
        by_cases hnil : ds = []
        · rw [hnil]
          rfl
        · rw [if_pos hnil]
          exact if_pos rfl
      obtain ⟨hgood, hfails⟩ :=
        deviceParse_print hread.1 hauto.1 hfind hrest brk
      rw [hret] at hgood
      rw [devicesPieces_flatten, devicesParse,
        if_neg (peek_deviceText hread.1 _), List.forall_mem_cons]
      by_cases hsizes : SizesReadable d.parts
      · obtain ⟨d', hd', hid, hdata⟩ := hgood hsizes
        rw [hd']
        dsimp only
        have hnone : ¬ (deviceFind acc d'.id.type d'.id.num).isSome = true := by
          rw [hid, hfind]
          decide
        rw [if_neg hnone]
        have hacc' : ∀ a ∈ acc ++ [d'], ∀ e ∈ ds, Differ a e := by
          intro a ha e he
          rcases List.mem_append.mp ha with ha | ha
          · exact hacc a ha e (List.mem_cons_of_mem _ he)
          · rw [List.mem_singleton.mp ha]
            have := hdd e he
            unfold Differ at this ⊢
            rw [hid]
            exact this
        obtain ⟨hgood', hfails'⟩ := @ih k (d'.addr + 1) (acc ++ [d']) hread.2
          hauto.2 hds hacc' (by omega)
        constructor
        · rintro ⟨-, hall⟩
          obtain ⟨ds', brk', hds', hforall⟩ := hgood' hall
          refine ⟨d' :: ds', brk', ?_, List.Forall₂.cons ⟨hid, hdata⟩ hforall⟩
          rw [hds', List.append_assoc]
          rfl
        · intro hno
          exact hfails' fun hall => hno ⟨hsizes, hall⟩
      · rw [hfails hsizes]
        exact ⟨fun h => absurd h.1 hsizes, fun _ => rfl⟩

/-! ## The round trip -/

/-- What two devices have in common when they are the same. -/
def MtdDevice.data (d : MtdDevice) : MtdIds × List PartData :=
  (d.id, d.parts.map PartInfo.data)

/-- The condition on a device for its text to be parsed to the same device:
readable sizes, and the partitions of each offset are the same in both
directions. -/
def Reparses (d : MtdDevice) : Prop :=
  SizesReadable d.parts ∧
    ∀ offset, (ofKey PartData.offset offset (d.parts.map PartInfo.data)).reverse =
      ofKey PartData.offset offset (d.parts.map PartInfo.data)

theorem sortedByKey_data {parts : List PartInfo} (h : Sorted parts) :
    SortedByKey PartData.offset (parts.map PartInfo.data) := by
  unfold SortedByKey
  rw [List.pairwise_map]
  exact h

theorem length_le_devicesPieces {flash : Flash} {mtdids : List MtdIds}
    {ds : List MtdDevice} (hread : ∀ d ∈ ds, DeviceRead flash mtdids d) :
    ds.length ≤ (devicesPieces ds).flatten.length := by
  induction ds with
  | nil => exact Nat.zero_le _
  | cons d ds ih =>
      rw [List.forall_mem_cons] at hread
      have := ih hread.2
      have hpos : 0 < (deviceText d).length := by
        unfold deviceText text
        simp only [List.length_append, List.length_map]
        have : (":".toList).length = 1 := rfl
        omega
      rw [devicesPieces_flatten, List.length_append, List.length_append,
        List.length_cons]
      omega

/-- Inserting the partitions one after the other gives the same devices exactly
when each device meets the condition. -/
theorem data_eq_iff {ds ds' : List MtdDevice}
    (h : List.Forall₂ (fun d d' => d'.id = d.id ∧
      d'.parts.map PartInfo.data = insertAllByKey PartData.offset []
        (d.parts.map PartInfo.data)) ds ds')
    (hsorted : ∀ d ∈ ds, Sorted d.parts)
    (hsizes : ∀ d ∈ ds, SizesReadable d.parts) :
    ds'.map MtdDevice.data = ds.map MtdDevice.data ↔
      ∀ d ∈ ds, Reparses d := by
  induction h with
  | nil => simp
  | @cons d d' ds ds' hd _ ih =>
      rw [List.forall_mem_cons] at hsorted hsizes
      obtain ⟨hid, hdata⟩ := hd
      have hhead : d'.data = d.data ↔ Reparses d := by
        unfold MtdDevice.data Reparses
        rw [Prod.mk.injEq, and_iff_right hid, and_iff_right hsizes.1, hdata]
        exact insertAllByKey_eq_self_iff (sortedByKey_data hsorted.1)
      rw [List.map_cons, List.map_cons, List.cons.injEq, List.forall_mem_cons,
        hhead, ih hsorted.2 hsizes.2]

/-- The devices of an accepted string, all partitions of which have a name
given, are printed to a string that is parsed to the same devices exactly when
each device meets the condition.  (`mtdparts_init` passes strings of at most 511
characters.) -/
theorem mtdparts_roundTrip_iff (flash : Flash) (mtdids : List MtdIds)
    (brk brk' buflen : ℕ) (mtdparts t : List UInt8) (devices : List MtdDevice)
    (hlength : mtdparts.length < 2 ^ 16)
    (hparse : parseMtdparts flash mtdids brk mtdparts = some (devices, brk'))
    (hauto : ∀ d ∈ devices, ∀ p ∈ d.parts, p.autoName = false)
    (hgenerate : generateMtdparts devices buflen = some t) (newBrk : ℕ) :
    (parseMtdparts flash mtdids newBrk t).map
        (fun r => r.1.map MtdDevice.data) = some (devices.map MtdDevice.data) ↔
      ∀ d ∈ devices, Reparses d := by
  obtain ⟨hread, hdiffer, hne⟩ := parseMtdparts_read hlength hparse
  unfold generateMtdparts at hgenerate
  rw [if_neg hne] at hgenerate
  obtain ⟨body, hbody, rfl⟩ := Option.map_eq_some_iff.mp hgenerate
  obtain rfl := putPieces_eq hbody
  have hstart : startsWith (text "mtdparts=" ++ (devicesPieces devices).flatten)
      "mtdparts=" = true :=
    List.isPrefixOf_iff_prefix.mpr ⟨_, rfl⟩
  have hdrop : (text "mtdparts=" ++ (devicesPieces devices).flatten).drop 9 =
      (devicesPieces devices).flatten := rfl
  have hpeek : peek (devicesPieces devices).flatten ≠ 0 := by
    obtain ⟨d, ds, rfl⟩ := List.exists_cons_of_ne_nil hne
    rw [devicesPieces_flatten]
    exact peek_deviceText (hread d (by simp)) _
  have hk : devices.length <
      (text "mtdparts=" ++ (devicesPieces devices).flatten).length + 1 := by
    have := length_le_devicesPieces hread
    rw [List.length_append]
    omega
  unfold parseMtdparts
  rw [hdrop, if_pos ⟨hstart, hpeek⟩]
  obtain ⟨hgood, hfails⟩ := @devicesParse_print flash mtdids _ newBrk []
    devices hread hauto hdiffer (by simp) hk
  by_cases hsizes : ∀ d ∈ devices, SizesReadable d.parts
  · obtain ⟨ds', brk'', hds', hforall⟩ := hgood hsizes
    rw [hds', List.nil_append, Option.map_some, Option.some.injEq]
    exact data_eq_iff hforall (fun d hd => (hread d hd).ok.sorted) hsizes
  · rw [hfails hsizes]
    constructor
    · intro h
      exact absurd h (by simp)
    · intro h
      exact absurd (fun d hd => (h d hd).1) hsizes

/-- Partitions of different offsets are the same in both directions. -/
theorem reparses_of_nodup {d : MtdDevice} (hsizes : SizesReadable d.parts)
    (hoffsets : (d.parts.map PartInfo.offset).Nodup) : Reparses d := by
  refine ⟨hsizes, reverse_ofKey_of_nodup ?_⟩
  rw [List.map_map]
  exact hoffsets

/-- A device of the small chip with two partitions. -/
def twoParts (a b : PartInfo) : MtdDevice :=
  ⟨2, ⟨.nand, 0, 2 ^ 20, mebibyte_lt, text "m"⟩, 2, [a, b]⟩

theorem mtdparts_roundTrip_twoParts :
    (parseMtdparts smallNand smallIds 0
        (text "mtdparts=m:4k(a),8k@64k(b)ro")).map
      (fun r => r.1.map MtdDevice.data) =
    some ([twoParts ⟨0, text "a", false, 4096, 0, 0⟩
      ⟨1, text "b", false, 8192, 65536, 1⟩].map MtdDevice.data) := by
  refine (mtdparts_roundTrip_iff smallNand smallIds 0 3 512
    (text "mtdparts=m:4k(a),8k@64k(b)ro") _ _ (by decide) (by decide)
    (by decide) (by decide) 0).mpr ?_
  intro d hd
  rw [List.mem_singleton.mp hd]
  refine reparses_of_nodup ⟨?_, ?_⟩ ?_
  · decide
  · decide
  · decide

/-- Two partitions at one offset change their order. -/
theorem not_mtdparts_roundTrip :
    ¬ ∀ (flash : Flash) (mtdids : List MtdIds) (brk brk' buflen : ℕ)
      (mtdparts t : List UInt8) (devices : List MtdDevice),
      mtdparts.length < 2 ^ 16 →
      parseMtdparts flash mtdids brk mtdparts = some (devices, brk') →
      (∀ d ∈ devices, ∀ p ∈ d.parts, p.autoName = false) →
      generateMtdparts devices buflen = some t →
      (parseMtdparts flash mtdids brk t).map
        (fun r => r.1.map MtdDevice.data) =
          some (devices.map MtdDevice.data) := by
  intro h
  have hround := h smallNand smallIds 0 3 512
    (text "mtdparts=m:4k@8k(a),4k@8k(b)")
    (text "mtdparts=m:4k@8k(b),4k@8k(a)")
    [twoParts ⟨1, text "b", false, 4096, 8192, 0⟩
      ⟨0, text "a", false, 4096, 8192, 0⟩]
    (by decide) (by decide) (by decide) (by decide)
  exact absurd hround (by decide)

end TateFirmware.Mtd
