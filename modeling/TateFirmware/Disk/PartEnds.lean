import Mathlib.Data.FinEnum
import TateFirmware.Disk.PartNumbers
import TateFirmware.Support.Acyclic

/-!
# Where the walks along DOS partition tables end

The listing goes from a table to the tables of all its extended entries, the lookup
to that of the first one.  Where a walk goes on depends on the sector of a table and
on the sector its entries are relative to, so a walk ends exactly if it does not come
back to such a pair.  Nothing in the source keeps it from coming back.
-/

namespace TateFirmware.Disk

open LibGeneric Support

/-- The sector of a table, and the sector that its extended entries are relative
to. -/
abbrev Place := UInt32 × UInt32

/-- The place that an extended entry leads to. -/
def Place.next (p : Place) (pt : DosPartition) : Place :=
  (nextSector pt p.2, nextRelative pt p.1 p.2)

/-- The listing goes on from one place at another. -/
def ListStep (devDesc : BlockDevDesc) (p q : Place) : Prop :=
  ∃ buffer, devDesc.table p.1 = some buffer ∧ ¬ IsPbr buffer ∧
    ∃ pt ∈ extendedEntries buffer, q = p.next pt

/-- The lookup goes on from one place at another. -/
def LookStep (devDesc : BlockDevDesc) (p q : Place) : Prop :=
  ∃ buffer, devDesc.table p.1 = some buffer ∧
    ∃ pt, (extendedEntries buffer).head? = some pt ∧ q = p.next pt

/-- Both recursions end: the listing, and the lookup of every number. -/
structure Ends (devDesc : BlockDevDesc) : Prop where
  print : ∃ rows, Returns (printPartDos devDesc) rows
  get : ∀ part, ∃ info, Returns (getPartitionInfoDos devDesc part) info

variable {devDesc : BlockDevDesc}

/-- A walk that has got to a place without a table ends there. -/
theorem endsWithin_of_none {r : Place → Place → Prop} {p : Place}
    (hr : ∀ q, r p q → ∃ buffer, devDesc.table p.1 = some buffer)
    (h : devDesc.table p.1 = none) (fuel : ℕ) : EndsWithin r (fuel + 1) p := by
  intro q hq
  obtain ⟨buffer, htable⟩ := hr q hq
  rw [h] at htable
  cases htable

/-! ## The listing -/

theorem isSome_foldl_rows (rest : List (Option (List Row))) (rows : Option (List Row)) :
    (rest.foldl (fun rows more => rows.bind fun rows => more.map (rows ++ ·))
      rows).isSome ↔ rows.isSome ∧ ∀ more ∈ rest, more.isSome := by
  induction rest generalizing rows with
  | nil => simp
  | cons more rest ih =>
      rw [List.foldl_cons, ih]
      cases rows <;> simp

theorem listStep_iff {p q : Place} {buffer : Memory UInt8}
    (h : devDesc.table p.1 = some buffer) :
    ListStep devDesc p q ↔
      ¬ IsPbr buffer ∧ ∃ pt ∈ extendedEntries buffer, q = p.next pt := by
  constructor
  · rintro ⟨buffer', htable, hstep⟩
    rw [h] at htable
    obtain rfl := Option.some.inj htable
    exact hstep
  · exact fun hstep => ⟨buffer, h, hstep⟩

/-- The listing needs as many rounds as the longest walk. -/
theorem print_isSome_iff (fuel : ℕ) (p : Place) (num : ℕ) :
    (printPartitionExtended devDesc fuel p.1 p.2 num).isSome ↔
      EndsWithin (ListStep devDesc) fuel p := by
  induction fuel generalizing p num with
  | zero => simp [printPartitionExtended, EndsWithin]
  | succ fuel ih =>
      cases htable : devDesc.table p.1 with
      | none =>
          rw [print_of_none htable]
          refine iff_of_true rfl (endsWithin_of_none ?_ htable fuel)
          rintro q ⟨buffer, hsome, -⟩
          exact ⟨buffer, hsome⟩
      | some buffer =>
          rw [print_succ htable]
          simp only [EndsWithin, listStep_iff htable]
          split_ifs with hpbr
          · simp [hpbr]
          · rw [isSome_foldl_rows]
            simp only [Option.isSome_some, true_and, List.forall_mem_map, hpbr,
              not_false_eq_true, forall_exists_index, and_imp]
            constructor
            · rintro h q pt hpt rfl
              exact (ih _ _).mp (h pt hpt)
            · exact fun h pt hpt => (ih (p.next pt) _).mpr (h _ pt hpt rfl)

theorem print_ends_iff :
    (∃ rows, Returns (printPartDos devDesc) rows) ↔
      Acyclic (ListStep devDesc) (0, 0) := by
  rw [← endsWithin_iff_acyclic]
  simp only [← print_isSome_iff _ _ 1, Option.isSome_iff_exists]
  exact exists_comm

/-! ## The lookup -/

theorem lookStep_iff {p q : Place} {buffer : Memory UInt8}
    (h : devDesc.table p.1 = some buffer) :
    LookStep devDesc p q ↔
      ∃ pt, (extendedEntries buffer).head? = some pt ∧ q = p.next pt := by
  constructor
  · rintro ⟨buffer', htable, hstep⟩
    rw [h] at htable
    obtain rfl := Option.some.inj htable
    exact hstep
  · exact fun hstep => ⟨buffer, h, hstep⟩

/-- What the walk needs is enough for the lookup of every number. -/
theorem get_isSome_of_endsWithin {fuel : ℕ} {p : Place}
    (h : EndsWithin (LookStep devDesc) fuel p) (which num : ℕ) :
    (getPartitionInfoExtended devDesc which fuel p.1 p.2 num).isSome := by
  induction fuel generalizing p num with
  | zero => exact h.elim
  | succ fuel ih =>
      cases htable : devDesc.table p.1 with
      | none =>
          rw [get_of_none htable]
          rfl
      | some buffer =>
          rw [get_succ htable]
          split
          · rfl
          · cases hext : (extendedEntries buffer).head? with
            | none => rfl
            | some pt =>
                exact ih (h _ ((lookStep_iff htable).mpr ⟨pt, hext, rfl⟩)) _

/-- The number `0` is looked up along the whole walk. -/
theorem endsWithin_of_get_zero {fuel num : ℕ} {p : Place} (hnum : 0 < num)
    (h : (getPartitionInfoExtended devDesc 0 fuel p.1 p.2 num).isSome) :
    EndsWithin (LookStep devDesc) fuel p := by
  induction fuel generalizing p num with
  | zero => simp [getPartitionInfoExtended] at h
  | succ fuel ih =>
      cases htable : devDesc.table p.1 with
      | none =>
          refine endsWithin_of_none ?_ htable fuel
          rintro q ⟨buffer, hsome, -⟩
          exact ⟨buffer, hsome⟩
      | some buffer =>
          intro q hq
          obtain ⟨pt, hext, rfl⟩ := (lookStep_iff htable).mp hq
          have hfind : (partsOf p.1 (entries buffer) num).find?
              (fun p => p.num = 0) = none := by
            refine List.find?_eq_none.mpr fun part hpart => ?_
            have hlow := (partsOf_bounds hpart).1
            simp only [decide_eq_true_eq]
            omega
          rw [get_succ htable, hfind, hext] at h
          exact ih (hnum.trans_le (le_lastNum _ _ _)) h

theorem get_ends_iff :
    (∀ part, ∃ info, Returns (getPartitionInfoDos devDesc part) info) ↔
      Acyclic (LookStep devDesc) (0, 0) := by
  rw [← endsWithin_iff_acyclic]
  constructor
  · intro h
    obtain ⟨info, fuel, hget⟩ := h 0
    refine ⟨fuel, endsWithin_of_get_zero Nat.one_pos ?_⟩
    exact Option.isSome_iff_exists.mpr ⟨info, hget⟩
  · rintro ⟨fuel, h⟩ part
    obtain ⟨info, hget⟩ :=
      Option.isSome_iff_exists.mp (get_isSome_of_endsWithin h part 1)
    exact ⟨info, fuel, hget⟩

/-- Both recursions end if and only if neither walk comes back to a place. -/
theorem ends_iff_acyclic (devDesc : BlockDevDesc) :
    Ends devDesc ↔
      Acyclic (ListStep devDesc) (0, 0) ∧ Acyclic (LookStep devDesc) (0, 0) :=
  ⟨fun h => ⟨print_ends_iff.mp h.print, get_ends_iff.mp h.get⟩,
    fun h => ⟨print_ends_iff.mpr h.1, get_ends_iff.mpr h.2⟩⟩

/-- A table whose extended partition starts at sector `0`. -/
def backSector : Memory UInt8 :=
  let m : Memory UInt8 := fun _ => 0
  (m.copyIn (dosPartTblOffset + 4) [0x5]).copyIn dosPartMagicOffset [0x55, 0xaa]

/-- The extended entry leads back to its own table. -/
theorem backSector_not_ends : ¬ Ends (singleTable backSector) := by
  intro h
  have htable : (singleTable backSector).table 0 = some backSector :=
    Option.filter_eq_some_iff.mpr ⟨rfl, by decide⟩
  have hback : (extendedEntries backSector).head?.map (Place.next (0, 0)) =
      some (0, 0) := by decide
  obtain ⟨pt, hext, hnext⟩ := Option.map_eq_some_iff.mp hback
  have hstep : LookStep (singleTable backSector) (0, 0) (0, 0) :=
    ⟨backSector, htable, pt, hext, hnext.symm⟩
  exact get_ends_iff.mp h.get (0, 0) .refl (.single hstep)

end TateFirmware.Disk
