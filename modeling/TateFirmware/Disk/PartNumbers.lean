import Mathlib.Data.Finset.Insert
import Mathlib.Data.Fintype.EquivFin
import TateFirmware.Disk.PartDos

/-!
# The numbers of DOS partitions

A chain of tables gives its data partitions their numbers.  The lookup returns the
partition of the chain with the number asked for.  The listing shows the same
partitions, but it ends at a sector that looks like the boot record of a partition,
where the lookup goes on, and it prints sectors and sizes as signed numbers.
-/

namespace TateFirmware.Disk

open LibGeneric Support

/-! ## Chains -/

/-- A sector that holds a table. -/
structure Table where
  sector : UInt32
  buffer : Memory UInt8

/-- The sector read, if it is signed. -/
def BlockDevDesc.table (devDesc : BlockDevDesc) (sector : UInt32) :
    Option (Memory UInt8) :=
  (devDesc.blockRead sector).filter fun buffer => Signed buffer

/-- The tables that the first extended entries lead to, from a sector on. -/
inductive Chain (devDesc : BlockDevDesc) : UInt32 → UInt32 → List Table → Prop
  | none {sector relative : UInt32} (htable : devDesc.table sector = none) :
      Chain devDesc sector relative []
  | last {sector relative : UInt32} {buffer : Memory UInt8}
      (htable : devDesc.table sector = some buffer)
      (hext : (extendedEntries buffer).head? = Option.none) :
      Chain devDesc sector relative [⟨sector, buffer⟩]
  | next {sector relative : UInt32} {buffer : Memory UInt8} {pt : DosPartition}
      {tables : List Table} (htable : devDesc.table sector = some buffer)
      (hext : (extendedEntries buffer).head? = some pt)
      (hrest : Chain devDesc (nextSector pt relative)
        (nextRelative pt sector relative) tables) :
      Chain devDesc sector relative (⟨sector, buffer⟩ :: tables)

/-- The walk gets to a sector. -/
inductive Reached (devDesc : BlockDevDesc) : UInt32 → UInt32 → Prop
  | start : Reached devDesc 0 0
  | next {sector relative : UInt32} {buffer : Memory UInt8} {pt : DosPartition}
      (h : Reached devDesc sector relative)
      (htable : devDesc.table sector = some buffer)
      (hext : (extendedEntries buffer).head? = some pt) :
      Reached devDesc (nextSector pt relative) (nextRelative pt sector relative)

/-- No table of the chain has more than one extended entry. -/
def OneExtended (devDesc : BlockDevDesc) : Prop :=
  ∀ sector relative buffer, Reached devDesc sector relative →
    devDesc.table sector = some buffer → ¬ IsPbr buffer →
      (extendedEntries buffer).length ≤ 1

/-! ## Numbers -/

/-- A data partition with its number. -/
structure Part where
  num : ℕ
  sysInd : UInt8
  start : UInt32
  size : UInt32

/-- What the lookup stores for a partition. -/
def Part.info (devDesc : BlockDevDesc) (p : Part) : DiskPartition where
  start := p.start.toNat
  size := p.size.toNat
  blksz := 512
  name := partName devDesc p.num
  type := text "U-Boot"

/-- The line of a partition. -/
def Part.row (p : Part) : Row := ⟨p.num, asInt p.start, asInt p.size, p.sysInd, false⟩

/-- The number behind some entries. -/
def lastNum (sector : UInt32) (pts : List DosPartition) (num : ℕ) : ℕ :=
  pts.foldl (fun num pt => nextNum sector pt num) num

/-- The data partitions among some entries. -/
def partsOf (sector : UInt32) : List DosPartition → ℕ → List Part
  | [], _ => []
  | pt :: pts, num =>
      let rest := partsOf sector pts (nextNum sector pt num)
      if pt.sysInd ≠ 0 ∧ ¬ IsExtended pt.sysInd then
        ⟨num, pt.sysInd, sector + le32ToInt pt.start4, le32ToInt pt.size4⟩ :: rest
      else rest

/-- The number behind some tables. -/
def chainNum (tables : List Table) (num : ℕ) : ℕ :=
  tables.foldl (fun num t => lastNum t.sector (entries t.buffer) num) num

/-- The data partitions of some tables. -/
def chainParts : List Table → ℕ → List Part
  | [], _ => []
  | t :: tables, num =>
      partsOf t.sector (entries t.buffer) num ++
        chainParts tables (lastNum t.sector (entries t.buffer) num)

attribute [grind =] chainParts

/-- The tables in front of the first boot record. -/
def beforePbr (tables : List Table) : List Table :=
  tables.takeWhile fun t => ¬ IsPbr t.buffer

/-- The tables from the first boot record on. -/
def fromPbr (tables : List Table) : List Table :=
  tables.dropWhile fun t => ¬ IsPbr t.buffer

/-- The line that ends the listing at a boot record. -/
def pbrRow (devDesc : BlockDevDesc) (buffer : Memory UInt8) : Row :=
  ⟨1, 0, asInt devDesc.lba, buffer dosPbrMediaTypeOffset, false⟩

/-- The listing of a chain. -/
def chainRows (devDesc : BlockDevDesc) : List Table → ℕ → List Row
  | [], _ => []
  | t :: tables, num =>
      if IsPbr t.buffer then [pbrRow devDesc t.buffer]
      else
        (printLoop t.sector (entries t.buffer) num).1 ++
          chainRows devDesc tables (lastNum t.sector (entries t.buffer) num)

/-! ## The numbers of a chain -/

theorem nextNum_of_data {sector : UInt32} {pt : DosPartition}
    (h : pt.sysInd ≠ 0 ∧ ¬ IsExtended pt.sysInd) (num : ℕ) :
    nextNum sector pt num = num + 1 := if_pos (Or.inr h)

theorem le_nextNum (sector : UInt32) (pt : DosPartition) (num : ℕ) :
    num ≤ nextNum sector pt num := by
  unfold nextNum
  split <;> omega

theorem le_lastNum (sector : UInt32) (pts : List DosPartition) (num : ℕ) :
    num ≤ lastNum sector pts num := by
  induction pts generalizing num with
  | nil => exact le_rfl
  | cons pt pts ih => exact (le_nextNum sector pt num).trans (ih _)

theorem partsOf_bounds {sector : UInt32} {pts : List DosPartition} {num : ℕ}
    {p : Part} (hp : p ∈ partsOf sector pts num) :
    num ≤ p.num ∧ p.num < lastNum sector pts num := by
  induction pts generalizing num with
  | nil => simp [partsOf] at hp
  | cons pt pts ih =>
      have hle := le_nextNum sector pt num
      rw [partsOf] at hp
      have hrest : p ∈ partsOf sector pts (nextNum sector pt num) →
          num ≤ p.num ∧ p.num < lastNum sector (pt :: pts) num := by
        intro h
        obtain ⟨hlow, hhigh⟩ := ih h
        exact ⟨hle.trans hlow, hhigh⟩
      split at hp
      · rename_i hdata
        rcases List.mem_cons.mp hp with rfl | hp
        · have hlast := le_lastNum sector pts (nextNum sector pt num)
          rw [nextNum_of_data hdata] at hlast
          refine ⟨le_rfl, ?_⟩
          rw [lastNum, List.foldl_cons, nextNum_of_data hdata]
          exact hlast
        · exact hrest hp
      · exact hrest hp

theorem partsOf_pairwise (sector : UInt32) (pts : List DosPartition) (num : ℕ) :
    (partsOf sector pts num).Pairwise fun p q => p.num < q.num := by
  induction pts generalizing num with
  | nil => exact List.Pairwise.nil
  | cons pt pts ih =>
      rw [partsOf]
      split
      · rename_i hdata
        refine List.Pairwise.cons ?_ (ih _)
        intro q hq
        have hlow := (partsOf_bounds hq).1
        rw [nextNum_of_data hdata] at hlow
        exact hlow
      · exact ih _

theorem le_of_mem_chainParts {tables : List Table} {num : ℕ} {p : Part}
    (hp : p ∈ chainParts tables num) : num ≤ p.num := by
  induction tables generalizing num with
  | nil => simp [chainParts] at hp
  | cons t tables ih =>
      rcases List.mem_append.mp hp with hp | hp
      · exact (partsOf_bounds hp).1
      · exact (le_lastNum _ _ _).trans (ih hp)

/-- Each number is given to one partition. -/
theorem chainParts_pairwise (tables : List Table) (num : ℕ) :
    (chainParts tables num).Pairwise fun p q => p.num < q.num := by
  induction tables generalizing num with
  | nil => exact List.Pairwise.nil
  | cons t tables ih =>
      refine List.pairwise_append.mpr ⟨partsOf_pairwise _ _ _, ih _, ?_⟩
      intro p hp q hq
      exact (partsOf_bounds hp).2.trans_le (le_of_mem_chainParts hq)

theorem chainParts_append (xs ys : List Table) (num : ℕ) :
    chainParts (xs ++ ys) num =
      chainParts xs num ++ chainParts ys (chainNum xs num) := by
  induction xs generalizing num with
  | nil => rfl
  | cons t xs ih =>
      rw [List.cons_append, chainParts, ih, chainParts, List.append_assoc]
      rfl

theorem beforePbr_append_fromPbr (tables : List Table) :
    beforePbr tables ++ fromPbr tables = tables := List.takeWhile_append_dropWhile

/-! ## The lookup -/

theorem table_eq_some {devDesc : BlockDevDesc} {sector : UInt32} {buffer : Memory UInt8}
    (h : devDesc.table sector = some buffer) :
    devDesc.blockRead sector = some buffer ∧ Signed buffer := by
  obtain ⟨hread, hsigned⟩ := Option.filter_eq_some_iff.mp h
  exact ⟨hread, of_decide_eq_true hsigned⟩

theorem not_signed_of_table {devDesc : BlockDevDesc} {sector : UInt32}
    {buffer : Memory UInt8} (h : devDesc.table sector = none)
    (hread : devDesc.blockRead sector = some buffer) : ¬ Signed buffer := by
  intro hsigned
  have htable : devDesc.table sector = some buffer :=
    Option.filter_eq_some_iff.mpr ⟨hread, decide_eq_true hsigned⟩
  rw [h] at htable
  cases htable

/-- The first loop finds the partition of the table with the number. -/
theorem getLoop_eq (devDesc : BlockDevDesc) (sector : UInt32) (which : ℕ)
    (pts : List DosPartition) (num : ℕ) :
    getLoop devDesc sector which pts num =
      match (partsOf sector pts num).find? fun p => p.num = which with
      | some p => .inl (p.info devDesc)
      | none => .inr (lastNum sector pts num) := by
  induction pts generalizing num with
  | nil => rfl
  | cons pt pts ih =>
      rw [getLoop, partsOf, ih]
      by_cases hdata : pt.sysInd ≠ 0 ∧ ¬ IsExtended pt.sysInd
      · rw [if_pos hdata]
        by_cases hnum : num = which
        · rw [if_pos ⟨hdata.1, hnum, hdata.2⟩, List.find?_cons_of_pos (by simpa using hnum)]
          rfl
        · rw [if_neg fun h => hnum h.2.1, List.find?_cons_of_neg (by simpa using hnum)]
          rfl
      · rw [if_neg hdata, if_neg fun h => hdata ⟨h.1, h.2.2⟩]
        rfl

variable {devDesc : BlockDevDesc}

theorem get_of_none {sector : UInt32} (h : devDesc.table sector = none)
    (which fuel : ℕ) (relative : UInt32) (num : ℕ) :
    getPartitionInfoExtended devDesc which (fuel + 1) sector relative num =
      some none := by
  rw [getPartitionInfoExtended]
  split
  · rfl
  · rename_i hread
    rw [if_pos (not_signed_of_table h hread)]

theorem returns_get_of_none {sector relative : UInt32} {num which : ℕ}
    (h : devDesc.table sector = none) {x : Option DiskPartition} :
    Returns (fun fuel => getPartitionInfoExtended devDesc which fuel sector relative num)
      x ↔ x = none := by
  rw [returns_of_succ rfl (fun fuel => get_of_none h which fuel relative num),
    returns_some, eq_comm]

/-- The lookup in a table goes on where the partition is not found. -/
theorem get_succ {sector : UInt32} {buffer : Memory UInt8}
    (h : devDesc.table sector = some buffer) (which fuel : ℕ) (relative : UInt32)
    (num : ℕ) :
    getPartitionInfoExtended devDesc which (fuel + 1) sector relative num =
      match (partsOf sector (entries buffer) num).find? fun p => p.num = which with
      | some p => some (some (p.info devDesc))
      | none =>
          match (extendedEntries buffer).head? with
          | none => some none
          | some pt =>
              getPartitionInfoExtended devDesc which fuel
                (nextSector pt relative) (nextRelative pt sector relative)
                (lastNum sector (entries buffer) num) := by
  obtain ⟨hread, hsigned⟩ := table_eq_some h
  simp only [getPartitionInfoExtended, hread, hsigned, getLoop_eq, not_true_eq_false,
    if_false]
  cases (partsOf sector (entries buffer) num).find? fun p => p.num = which with
  | some p => rfl
  | none => cases (extendedEntries buffer).head? <;> rfl

/-- The lookup in a table, and the one behind it. -/
theorem returns_get_of_some {sector relative : UInt32} {num which : ℕ}
    {buffer : Memory UInt8} (h : devDesc.table sector = some buffer)
    {x : Option DiskPartition} :
    Returns (fun fuel => getPartitionInfoExtended devDesc which fuel sector relative num)
      x ↔
    match (partsOf sector (entries buffer) num).find? fun p => p.num = which with
    | some p => x = some (p.info devDesc)
    | none =>
        match (extendedEntries buffer).head? with
        | none => x = none
        | some pt =>
            Returns (fun fuel => getPartitionInfoExtended devDesc which fuel
              (nextSector pt relative) (nextRelative pt sector relative)
              (lastNum sector (entries buffer) num)) x := by
  rw [returns_of_succ rfl (fun fuel => get_succ h which fuel relative num)]
  cases (partsOf sector (entries buffer) num).find? fun p => p.num = which with
  | some p => rw [returns_some, eq_comm]
  | none =>
      cases (extendedEntries buffer).head? with
      | none => rw [returns_some, eq_comm]
      | some pt => rfl

/-- The lookup finds the partition of the chain with the number. -/
theorem returns_get_iff {sector relative : UInt32} {tables : List Table}
    (hchain : Chain devDesc sector relative tables) (num which : ℕ)
    {x : Option DiskPartition} :
    Returns (fun fuel => getPartitionInfoExtended devDesc which fuel sector relative num)
      x ↔
    x = ((chainParts tables num).find? fun p => p.num = which).map
      (Part.info devDesc) := by
  induction hchain generalizing num with
  | none htable => exact returns_get_of_none htable
  | last htable hext =>
      rename_i sector relative buffer
      rw [returns_get_of_some htable, hext, chainParts, chainParts, List.append_nil]
      cases (partsOf sector (entries buffer) num).find? fun p => p.num = which <;> rfl
  | next htable hext _ ih =>
      rename_i sector relative buffer pt tables _
      rw [returns_get_of_some htable, hext, chainParts, List.find?_append]
      cases (partsOf sector (entries buffer) num).find? fun p => p.num = which with
      | some p => rfl
      | none => exact ih _

/-- A lookup that fails ends, and so does the chain. -/
theorem chain_of_get {fuel num which : ℕ} {sector relative : UInt32}
    (h : getPartitionInfoExtended devDesc which fuel sector relative num = some none) :
    ∃ tables, Chain devDesc sector relative tables := by
  induction fuel generalizing sector relative num with
  | zero => cases h
  | succ fuel ih =>
      cases htable : devDesc.table sector with
      | none => exact ⟨[], .none htable⟩
      | some buffer =>
          obtain ⟨hread, hsigned⟩ := table_eq_some htable
          cases hext : (extendedEntries buffer).head? with
          | none => exact ⟨_, .last htable hext⟩
          | some pt =>
              simp only [getPartitionInfoExtended, hread, hsigned, not_true_eq_false,
                if_false, hext] at h
              split at h
              · cases h
              · obtain ⟨tables, hrest⟩ := ih h
                exact ⟨_, .next htable hext hrest⟩

/-! ## The listing -/

theorem printLoop_snd (sector : UInt32) (pts : List DosPartition) (num : ℕ) :
    (printLoop sector pts num).2 = lastNum sector pts num := by
  induction pts generalizing num with
  | nil => rfl
  | cons pt pts ih =>
      rw [printLoop]
      dsimp only
      split <;> exact ih _

/-- The lines of data partitions that a table adds to the listing. -/
theorem mem_printLoop_iff {sector : UInt32} {pts : List DosPartition} {num : ℕ}
    {row : Row} :
    (row ∈ (printLoop sector pts num).1 ∧ row.extd = false) ↔
      ∃ p ∈ partsOf sector pts num, p.row = row := by
  induction pts generalizing num with
  | nil => simp [printLoop, partsOf]
  | cons pt pts ih =>
      rw [printLoop, partsOf]
      dsimp only
      by_cases hdata : pt.sysInd ≠ 0 ∧ ¬ IsExtended pt.sysInd
      · have hrow : printOnePart pt sector num =
            (⟨num, pt.sysInd, sector + le32ToInt pt.start4, le32ToInt pt.size4⟩ :
              Part).row := by
          rw [printOnePart, Part.row, decide_eq_false hdata.2]
        rw [if_pos hdata, if_pos ⟨hdata.1, Or.inr hdata.2⟩, hrow,
          List.exists_mem_cons_iff, ← ih, List.mem_cons, or_and_right]
        refine or_congr ?_ Iff.rfl
        constructor
        · rintro ⟨rfl, -⟩
          rfl
        · rintro rfl
          exact ⟨rfl, rfl⟩
      · rw [if_neg hdata, ← ih]
        split
        · rename_i hshown
          have hext : IsExtended pt.sysInd := by
            by_contra hext
            exact hdata ⟨hshown.1, hext⟩
          rw [List.mem_cons, or_and_right, or_iff_right]
          rintro ⟨rfl, hrow⟩
          simp [printOnePart, hext] at hrow
        · rfl

/-- The tables that the listing follows have at most one extended entry. -/
def ChainOne (tables : List Table) : Prop :=
  ∀ t ∈ tables, ¬ IsPbr t.buffer → (extendedEntries t.buffer).length ≤ 1

theorem chainOne_of_reached {sector relative : UInt32} {tables : List Table}
    (hone : OneExtended devDesc) (hchain : Chain devDesc sector relative tables)
    (hreached : Reached devDesc sector relative) : ChainOne tables := by
  induction hchain with
  | none _ =>
      intro t ht
      cases ht
  | last htable _ =>
      intro t ht
      rw [List.mem_singleton.mp ht]
      exact hone _ _ _ hreached htable
  | next htable hext _ ih =>
      intro t ht
      rcases List.mem_cons.mp ht with rfl | ht
      · exact hone _ _ _ hreached htable
      · exact ih (hreached.next htable hext) t ht

theorem print_of_none {sector : UInt32} (h : devDesc.table sector = none)
    (fuel : ℕ) (relative : UInt32) (num : ℕ) :
    printPartitionExtended devDesc (fuel + 1) sector relative num = some [] := by
  rw [printPartitionExtended]
  split
  · rfl
  · rename_i hread
    rw [testBlockType, if_pos (not_signed_of_table h hread)]

theorem returns_print_of_none {sector relative : UInt32} {num : ℕ}
    (h : devDesc.table sector = none) {rows : List Row} :
    Returns (fun fuel => printPartitionExtended devDesc fuel sector relative num) rows ↔
      rows = [] := by
  rw [returns_of_succ rfl (fun fuel => print_of_none h fuel relative num), returns_some,
    eq_comm]

/-- The listing from a table on. -/
theorem print_succ {sector : UInt32} {buffer : Memory UInt8}
    (h : devDesc.table sector = some buffer) (fuel : ℕ) (relative : UInt32) (num : ℕ) :
    printPartitionExtended devDesc (fuel + 1) sector relative num =
      if IsPbr buffer then some [pbrRow devDesc buffer]
      else
        ((extendedEntries buffer).map fun pt =>
          printPartitionExtended devDesc fuel (nextSector pt relative)
            (nextRelative pt sector relative)
            (lastNum sector (entries buffer) num)).foldl
          (fun rows more => rows.bind fun rows => more.map (rows ++ ·))
          (some (printLoop sector (entries buffer) num).1) := by
  obtain ⟨hread, hsigned⟩ := table_eq_some h
  rw [printPartitionExtended, hread]
  dsimp only
  rw [testBlockType, if_neg (not_not_intro hsigned), ← printLoop_snd]
  by_cases hpbr : IsPbr buffer
  · rw [if_pos hpbr, if_pos hpbr]
    rfl
  · rw [if_neg hpbr, if_neg hpbr]

/-- The listing of a chain. -/
theorem returns_print_iff {sector relative : UInt32} {tables : List Table}
    (hchain : Chain devDesc sector relative tables) (hone : ChainOne tables) (num : ℕ)
    {rows : List Row} :
    Returns (fun fuel => printPartitionExtended devDesc fuel sector relative num) rows ↔
      rows = chainRows devDesc tables num := by
  induction hchain generalizing num rows with
  | none htable => exact returns_print_of_none htable
  | last htable hext =>
      rename_i sector relative buffer
      rw [returns_of_succ rfl (fun fuel => print_succ htable fuel relative num),
        chainRows, chainRows, List.append_nil, List.head?_eq_none_iff.mp hext]
      by_cases hpbr : IsPbr buffer
      · simp only [hpbr, if_true, returns_some, eq_comm]
      · simp only [hpbr, if_false, List.map_nil, List.foldl_nil, returns_some, eq_comm]
  | next htable hext _ ih =>
      rename_i sector relative buffer pt tables _
      rw [returns_of_succ rfl (fun fuel => print_succ htable fuel relative num), chainRows]
      by_cases hpbr : IsPbr buffer
      · simp only [hpbr, if_true, returns_some, eq_comm]
      · have hsingle : extendedEntries buffer = [pt] := by
          have hlen := hone _ List.mem_cons_self hpbr
          cases hentries : extendedEntries buffer with
          | nil =>
              rw [hentries] at hext
              cases hext
          | cons pt' pts =>
              rw [hentries] at hext hlen
              cases pts with
              | nil => rw [Option.some.inj hext]
              | cons _ _ => simp at hlen
        have hrest : ChainOne tables := fun t ht => hone t (List.mem_cons_of_mem _ ht)
        simp only [hpbr, if_false, hsingle, List.map_cons, List.map_nil,
          List.foldl_cons, List.foldl_nil, Option.bind_some]
        rw [returns_map]
        constructor
        · rintro ⟨more, hmore, rfl⟩
          rw [(ih hrest _).mp hmore]
        · rintro rfl
          exact ⟨_, (ih hrest _).mpr rfl, rfl⟩

/-- The lines of data partitions in the listing: those of the tables in front of the
first boot record, and the line of the boot record. -/
theorem mem_chainRows_iff {tables : List Table} {num : ℕ} {row : Row} :
    (row ∈ chainRows devDesc tables num ∧ row.extd = false) ↔
      (∃ p ∈ chainParts (beforePbr tables) num, p.row = row) ∨
        ∃ t, (fromPbr tables).head? = some t ∧ pbrRow devDesc t.buffer = row := by
  induction tables generalizing num with
  | nil => simp [chainRows, beforePbr, fromPbr, chainParts]
  | cons t tables ih =>
      rw [chainRows]
      by_cases hpbr : IsPbr t.buffer
      · have hbefore : beforePbr (t :: tables) = [] :=
          List.takeWhile_cons_of_neg (by simpa using hpbr)
        have hfrom : fromPbr (t :: tables) = t :: tables :=
          List.dropWhile_cons_of_neg (by simpa using hpbr)
        rw [if_pos hpbr, hbefore, hfrom, List.mem_singleton]
        constructor
        · rintro ⟨rfl, -⟩
          exact Or.inr ⟨t, rfl, rfl⟩
        · rintro (⟨p, hp, -⟩ | ⟨t', ht, rfl⟩)
          · cases hp
          · rw [← Option.some.inj ht]
            exact ⟨rfl, rfl⟩
      · have hbefore : beforePbr (t :: tables) = t :: beforePbr tables :=
          List.takeWhile_cons_of_pos (by simpa using hpbr)
        have hfrom : fromPbr (t :: tables) = fromPbr tables :=
          List.dropWhile_cons_of_pos (by simpa using hpbr)
        rw [if_neg hpbr, hbefore, hfrom, chainParts, List.mem_append, or_and_right,
          mem_printLoop_iff, ih, ← or_assoc]
        refine or_congr ?_ Iff.rfl
        simp only [List.mem_append, or_and_right, exists_or]

/-! ## Listing and lookup -/

/-- The listing ends, the lookup finds each data partition that it shows, with the
start and the size it shows, and fails for the other numbers. -/
def SameNumbers (devDesc : BlockDevDesc) : Prop :=
  ∃ rows, Returns (printPartDos devDesc) rows ∧
    (∀ row ∈ rows, row.extd = false → ∃ info : DiskPartition,
      Returns (getPartitionInfoDos devDesc row.partNum) (some info) ∧
        (info.start : ℤ) = row.lbaStart ∧ (info.size : ℤ) = row.lbaSize) ∧
    ∀ n, 1 ≤ n → (∀ row ∈ rows, row.extd = false → row.partNum ≠ n) →
      Returns (getPartitionInfoDos devDesc n) none

/-- The partitions that are shown have starts and sizes below `2 ^ 31`, and no sector
of the chain looks like the boot record of a partition, unless the partition `1` is
the whole device and no other one is found from that sector on. -/
structure Consistent (devDesc : BlockDevDesc) (tables : List Table) : Prop where
  small : ∀ p ∈ chainParts (beforePbr tables) 1,
    p.start.toNat < 2 ^ 31 ∧ p.size.toNat < 2 ^ 31
  pbr : fromPbr tables = [] ∨
    devDesc.lba.toNat < 2 ^ 31 ∧
      (∃ p ∈ chainParts tables 1, p.num = 1 ∧ p.start = 0 ∧ p.size = devDesc.lba) ∧
      ∀ p ∈ chainParts (fromPbr tables) (chainNum (beforePbr tables) 1), p.num = 1

theorem natCast_eq_asInt {w : UInt32} : (w.toNat : ℤ) = asInt w ↔ w.toNat < 2 ^ 31 := by
  unfold asInt
  split
  · rename_i h
    exact iff_of_true rfl h
  · rename_i h
    exact iff_of_false (by omega) h

/-- A number finds its partition. -/
theorem find_of_mem {parts : List Part} (hparts : parts.Pairwise fun p q => p.num < q.num)
    {p : Part} (hp : p ∈ parts) : (parts.find? fun q => q.num = p.num) = some p := by
  induction hparts with
  | nil => cases hp
  | cons hfirst _ ih =>
      rename_i q parts _
      rcases List.mem_cons.mp hp with rfl | hp
      · exact List.find?_cons_of_pos (by simp)
      · have hlt := hfirst p hp
        rw [List.find?_cons_of_neg (by simpa using hlt.ne), ih hp]

theorem mem_chainParts_iff {tables : List Table} {p : Part} :
    p ∈ chainParts tables 1 ↔ p ∈ chainParts (beforePbr tables) 1 ∨
      p ∈ chainParts (fromPbr tables) (chainNum (beforePbr tables) 1) := by
  rw [← List.mem_append, ← chainParts_append, beforePbr_append_fromPbr]

/-- The partitions in front of a boot record have smaller numbers. -/
theorem num_lt_of_mem {tables : List Table} {p q : Part}
    (hp : p ∈ chainParts (beforePbr tables) 1)
    (hq : q ∈ chainParts (fromPbr tables) (chainNum (beforePbr tables) 1)) :
    p.num < q.num := by
  have hpairwise := chainParts_pairwise (beforePbr tables ++ fromPbr tables) 1
  rw [chainParts_append] at hpairwise
  exact (List.pairwise_append.mp hpairwise).2.2 p hp q hq

section Walks

variable {tables : List Table}

theorem get_some_iff (hchain : Chain devDesc 0 0 tables) {n : ℕ} {info : DiskPartition} :
    Returns (getPartitionInfoDos devDesc n) (some info) ↔
      ∃ p ∈ chainParts tables 1, p.num = n ∧ p.info devDesc = info := by
  have hget : Returns (getPartitionInfoDos devDesc n) (some info) ↔ _ :=
    returns_get_iff hchain 1 n
  rw [hget, eq_comm, Option.map_eq_some_iff]
  constructor
  · rintro ⟨p, hfind, hinfo⟩
    have hnum := List.find?_some hfind
    exact ⟨p, List.mem_of_find?_eq_some hfind, by simpa using hnum, hinfo⟩
  · rintro ⟨p, hp, rfl, hinfo⟩
    exact ⟨p, find_of_mem (chainParts_pairwise tables 1) hp, hinfo⟩

theorem get_none_iff (hchain : Chain devDesc 0 0 tables) {n : ℕ} :
    Returns (getPartitionInfoDos devDesc n) none ↔
      ∀ p ∈ chainParts tables 1, p.num ≠ n := by
  have hget : Returns (getPartitionInfoDos devDesc n) none ↔ _ :=
    returns_get_iff hchain 1 n
  rw [hget, eq_comm, Option.map_eq_none_iff, List.find?_eq_none]
  simp

/-- The partition found for the number of a shown partition is that partition. -/
theorem eq_of_num {p q : Part} (hp : p ∈ chainParts tables 1)
    (hq : q ∈ chainParts tables 1) (hnum : q.num = p.num) : q = p := by
  have hp' := find_of_mem (chainParts_pairwise tables 1) hp
  have hq' := find_of_mem (chainParts_pairwise tables 1) hq
  rw [hnum] at hq'
  exact Option.some.inj (hq'.symm.trans hp')

/-- A listing that agrees with the lookup shows no sector above `2 ^ 31`, and a boot
record only as far as the lookup bears it out. -/
theorem consistent_of_same (hchain : Chain devDesc 0 0 tables)
    (hfound : ∀ row ∈ chainRows devDesc tables 1, row.extd = false →
      ∃ info : DiskPartition,
        Returns (getPartitionInfoDos devDesc row.partNum) (some info) ∧
          (info.start : ℤ) = row.lbaStart ∧ (info.size : ℤ) = row.lbaSize)
    (hother : ∀ n, 1 ≤ n →
      (∀ row ∈ chainRows devDesc tables 1, row.extd = false → row.partNum ≠ n) →
        Returns (getPartitionInfoDos devDesc n) none) : Consistent devDesc tables := by
  constructor
  · intro p hp
    have hshown : p.row ∈ chainRows devDesc tables 1 ∧ p.row.extd = false :=
      mem_chainRows_iff.mpr (Or.inl ⟨p, hp, rfl⟩)
    obtain ⟨info, hget, hstart, hsize⟩ := hfound p.row hshown.1 hshown.2
    obtain ⟨q, hq, hnum, rfl⟩ := (get_some_iff hchain).mp hget
    rw [eq_of_num (mem_chainParts_iff.mpr (Or.inl hp)) hq hnum] at hstart hsize
    exact ⟨natCast_eq_asInt.mp hstart, natCast_eq_asInt.mp hsize⟩
  · cases hfrom : fromPbr tables with
    | nil => exact Or.inl rfl
    | cons t rest =>
        right
        have hshown : pbrRow devDesc t.buffer ∈ chainRows devDesc tables 1 ∧
            (pbrRow devDesc t.buffer).extd = false :=
          mem_chainRows_iff.mpr (Or.inr ⟨t, by rw [hfrom]; rfl, rfl⟩)
        obtain ⟨info, hget, hstart, hsize⟩ := hfound _ hshown.1 hshown.2
        obtain ⟨p, hp, hnum, rfl⟩ := (get_some_iff hchain).mp hget
        have hzero : (p.start.toNat : ℤ) = 0 := hstart
        have hlba : (p.size.toNat : ℤ) = asInt devDesc.lba := hsize
        have hsmall : devDesc.lba.toNat < 2 ^ 31 := by
          have hbound := devDesc.lba.toNat_lt
          unfold asInt at hlba
          split at hlba <;> omega
        rw [← natCast_eq_asInt.mpr hsmall] at hlba
        refine ⟨hsmall, ⟨p, hp, hnum, UInt32.toNat_inj.mp ?_, UInt32.toNat_inj.mp ?_⟩, ?_⟩
        · exact Int.natCast_inj.mp hzero
        · exact Int.natCast_inj.mp hlba
        · intro q hq
          by_contra hone
          -- no line shows the number of `q`, but the lookup finds it
          have hpos : 1 ≤ q.num :=
            le_of_mem_chainParts (mem_chainParts_iff.mpr (Or.inr (hfrom ▸ hq)))
          refine (get_none_iff hchain).mp (hother q.num hpos ?_) q
            (mem_chainParts_iff.mpr (Or.inr (hfrom ▸ hq))) rfl
          intro row hrow hdata
          rcases mem_chainRows_iff.mp ⟨hrow, hdata⟩ with ⟨p', hp', rfl⟩ | ⟨t', -, rfl⟩
          · exact (num_lt_of_mem hp' (hfrom ▸ hq)).ne
          · exact Ne.symm hone

/-- On a consistent chain the listing agrees with the lookup. -/
theorem same_of_consistent (hchain : Chain devDesc 0 0 tables)
    (h : Consistent devDesc tables) :
    (∀ row ∈ chainRows devDesc tables 1, row.extd = false → ∃ info : DiskPartition,
      Returns (getPartitionInfoDos devDesc row.partNum) (some info) ∧
        (info.start : ℤ) = row.lbaStart ∧ (info.size : ℤ) = row.lbaSize) ∧
    ∀ n, 1 ≤ n →
      (∀ row ∈ chainRows devDesc tables 1, row.extd = false → row.partNum ≠ n) →
        Returns (getPartitionInfoDos devDesc n) none := by
  constructor
  · intro row hrow hdata
    rcases mem_chainRows_iff.mp ⟨hrow, hdata⟩ with ⟨p, hp, rfl⟩ | ⟨t, ht, rfl⟩
    · obtain ⟨hstart, hsize⟩ := h.small p hp
      exact ⟨p.info devDesc,
        (get_some_iff hchain).mpr ⟨p, mem_chainParts_iff.mpr (Or.inl hp), rfl, rfl⟩,
        natCast_eq_asInt.mpr hstart, natCast_eq_asInt.mpr hsize⟩
    · rcases h.pbr with hnil | ⟨hsmall, ⟨p, hp, hnum, hstart, hsize⟩, -⟩
      · rw [hnil] at ht
        cases ht
      · refine ⟨p.info devDesc, (get_some_iff hchain).mpr ⟨p, hp, hnum, rfl⟩, ?_, ?_⟩
        · change (p.start.toNat : ℤ) = 0
          rw [hstart]
          rfl
        · change (p.size.toNat : ℤ) = asInt devDesc.lba
          rw [hsize]
          exact natCast_eq_asInt.mpr hsmall
  · intro n _ hnone
    refine (get_none_iff hchain).mpr ?_
    intro p hp
    rcases mem_chainParts_iff.mp hp with hp | hp
    · have hshown : p.row ∈ chainRows devDesc tables 1 ∧ p.row.extd = false :=
        mem_chainRows_iff.mpr (Or.inl ⟨p, hp, rfl⟩)
      exact hnone p.row hshown.1 hshown.2
    · cases hfrom : fromPbr tables with
      | nil =>
          rw [hfrom] at hp
          cases hp
      | cons t rest =>
          rcases h.pbr with hnil | ⟨-, -, hone⟩
          · rw [hfrom] at hnil
            cases hnil
          · have hshown : pbrRow devDesc t.buffer ∈ chainRows devDesc tables 1 ∧
                (pbrRow devDesc t.buffer).extd = false :=
              mem_chainRows_iff.mpr (Or.inr ⟨t, by rw [hfrom]; rfl, rfl⟩)
            rw [hone p hp]
            exact hnone _ hshown.1 hshown.2

end Walks

/-- A number that a listing does not show. -/
theorem exists_num (rows : List Row) : ∃ n, 1 ≤ n ∧ ∀ row ∈ rows, row.partNum ≠ n := by
  obtain ⟨n, hn⟩ :=
    Infinite.exists_notMem_finset (insert 0 (rows.map Row.partNum).toFinset)
  simp only [Finset.mem_insert, List.mem_toFinset, List.mem_map, not_or, not_exists,
    not_and] at hn
  exact ⟨n, Nat.one_le_iff_ne_zero.mpr hn.1, hn.2⟩

/-- Where no table has more than one extended entry, listing and lookup agree exactly
if the chain of the tables ends and is consistent. -/
theorem sameNumbers_iff {devDesc : BlockDevDesc} (hone : OneExtended devDesc) :
    SameNumbers devDesc ↔
      ∃ tables, Chain devDesc 0 0 tables ∧ Consistent devDesc tables := by
  have hrows : ∀ {tables rows}, Chain devDesc 0 0 tables →
      (Returns (printPartDos devDesc) rows ↔ rows = chainRows devDesc tables 1) :=
    fun hchain => returns_print_iff hchain (chainOne_of_reached hone hchain .start) 1
  constructor
  · rintro ⟨rows, hprint, hfound, hother⟩
    obtain ⟨n, hpos, hn⟩ := exists_num rows
    obtain ⟨fuel, hget⟩ := hother n hpos fun row hrow _ => hn row hrow
    obtain ⟨tables, hchain⟩ := chain_of_get hget
    obtain rfl := (hrows hchain).mp hprint
    exact ⟨tables, hchain, consistent_of_same hchain hfound hother⟩
  · rintro ⟨tables, hchain, hconsistent⟩
    exact ⟨_, (hrows hchain).mpr rfl, same_of_consistent hchain hconsistent⟩

/-- A device with a table in its first sector only. -/
def singleTable (buffer : Memory UInt8) : BlockDevDesc where
  ifType := .usb
  dev := 0
  lba := 1000
  blockRead := fun sector => if sector = 0 then some buffer else none

theorem oneExtended_singleTable {buffer : Memory UInt8}
    (h : (extendedEntries buffer).length ≤ 1) : OneExtended (singleTable buffer) := by
  intro sector relative buffer' _ htable _
  have hread := (table_eq_some htable).1
  simp only [singleTable] at hread
  split at hread
  · rwa [← Option.some.inj hread]
  · cases hread

theorem chain_singleTable {buffer : Memory UInt8} (hsigned : Signed buffer)
    (hext : (extendedEntries buffer).head? = none) :
    Chain (singleTable buffer) 0 0 [⟨0, buffer⟩] :=
  .last (Option.filter_eq_some_iff.mpr ⟨rfl, decide_eq_true hsigned⟩) hext

/-- A table with an entry filled in. -/
def withEntry (m : Memory UInt8) (i : ℕ) (sysInd : UInt8) (start size : ℕ) :
    Memory UInt8 :=
  let pt := dosPartTblOffset + 16 * i
  ((m.copyIn (pt + 4) [sysInd]).copyIn (pt + 8) (leBytes start)).copyIn (pt + 12)
    (leBytes size)

/-- A table with one Linux partition of 100 sectors. -/
def linuxSector : Memory UInt8 :=
  withEntry (Memory.copyIn (fun _ => 0) dosPartMagicOffset [0x55, 0xaa]) 0 0x83 63 100

/-- The same with an extended partition. -/
def extendedSector (start : ℕ) : Memory UInt8 := withEntry linuxSector 1 0x05 start 2000

/-- A partition in the first sector and two in a chain of extended partitions. -/
def chainedDisk : BlockDevDesc where
  ifType := .usb
  dev := 0
  lba := 4000
  blockRead := fun sector =>
    if sector = 0 then some (extendedSector 1000)
    else if sector = 1000 then some (extendedSector 500)
    else if sector = 1500 then some linuxSector
    else none

theorem chain_chainedDisk : Chain chainedDisk 0 0
    [⟨0, extendedSector 1000⟩, ⟨1000, extendedSector 500⟩, ⟨1500, linuxSector⟩] :=
  .next rfl rfl (.next rfl rfl (.last rfl rfl))

theorem oneExtended_chainedDisk : OneExtended chainedDisk := by
  intro sector relative buffer _ htable _
  have hread := (table_eq_some htable).1
  simp only [chainedDisk] at hread
  split_ifs at hread
  · rw [← Option.some.inj hread]
    decide
  · rw [← Option.some.inj hread]
    decide
  · rw [← Option.some.inj hread]
    decide

theorem sameNumbers_iff_chainedDisk : SameNumbers chainedDisk :=
  (sameNumbers_iff oneExtended_chainedDisk).mpr
    ⟨_, chain_chainedDisk, by decide +kernel, Or.inl rfl⟩

/-- The first sector of a FAT file system without a partition table. -/
def floppySector : Memory UInt8 :=
  let m : Memory UInt8 := fun _ => 0
  ((m.copyIn dosPbrMediaTypeOffset [0xf8]).copyIn dosPbrFstypeOffset
    (text "FAT16   ")).copyIn dosPartMagicOffset [0x55, 0xaa]

/-- The listing shows the file system as partition `1`, which the lookup does not
find. -/
theorem not_sameNumbers_floppySector :
    ¬ ∀ devDesc, OneExtended devDesc → SameNumbers devDesc := by
  intro hall
  have hone : OneExtended (singleTable floppySector) :=
    oneExtended_singleTable (by decide)
  have hchain : Chain (singleTable floppySector) 0 0 [⟨0, floppySector⟩] :=
    chain_singleTable (by decide) (by decide)
  obtain ⟨rows, hprint, hfound, -⟩ := hall _ hone
  obtain rfl :=
    (returns_print_iff hchain (chainOne_of_reached hone hchain .start) 1).mp hprint
  have hrows : chainRows (singleTable floppySector) [⟨0, floppySector⟩] 1 =
      [pbrRow (singleTable floppySector) floppySector] :=
    if_pos (by decide)
  obtain ⟨info, hget, -, -⟩ := hfound _ (hrows ▸ List.mem_singleton_self _) rfl
  obtain ⟨p, hp, -, -⟩ := (get_some_iff hchain).mp hget
  have hparts : (chainParts [⟨0, floppySector⟩] 1).length = 0 := by decide
  rw [List.length_eq_zero_iff.mp hparts] at hp
  cases hp

end TateFirmware.Disk
