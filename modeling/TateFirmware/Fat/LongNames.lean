import TateFirmware.Fat.Directory

/-!
# Long names

`get_vfatname` puts a long name together from the slots in front of its entry, the last
slot of the row first.  It takes a slot of the row with the flag of a first slot for the
end of the name, leaves out the last slot of a cluster that the row reaches the end of,
and treats the first character as one of a short name.
-/

namespace TateFirmware.Fat

open LibGeneric Support

/-! ## The row of a name -/

/-- The flag of a slot that starts a name. -/
def flagged (slot : Memory UInt8) : Bool := slot 0 &&& 0x40 ≠ 0

/-- The number of a slot, without the flag. -/
def slotNumber (slot : Memory UInt8) : ℕ := (slot 0 &&& 0xbf).toNat

/-- The characters of slots up to the terminator; the slots stand last one first. -/
def charsOf (slots : List (Memory UInt8)) : List UInt8 :=
  (slots.flatMap slotChars).takeWhile (· ≠ 0)

/-- `k` slots from the slot `retdent` of a cluster on, last one first. -/
def slotRow (slotAt : ℕ → Memory UInt8) : ℕ → List (Memory UInt8)
  | 0 => []
  | k + 1 => slotAt k :: slotRow slotAt k

/-- The slot so many places behind the slot `retdent`; behind the cluster the next one
follows. -/
def slotBehind (cluster next : Memory UInt8) (last retdent i : ℕ) : Memory UInt8 :=
  if retdent + i < last then entryAt cluster (retdent + i)
  else entryAt next (retdent + i - last)

/-- What is read of the cluster that follows. -/
def nextCluster (v : Volume) (dev : Device) (vfatBlock : Memory UInt8)
    (curclust : UInt32) : Memory UInt8 × Bool :=
  v.getCluster dev (v.fatent dev curclust) vfatBlock 0 v.clustBytes

/-- `get_vfatname` stays inside its buffers.  If it succeeds, the slots are numbered from
the number of the first one down to 1, the entry behind them is put over the first slot,
and the name is the lower-case one of the slots. -/
def NamesSlots (v : Volume) (dev : Device) (vfatBlock : Memory UInt8)
    (curclust : UInt32) (cluster : Memory UInt8) (retdent : ℕ) : Prop :=
  match getVfatname v dev vfatBlock curclust cluster retdent with
  | none => False
  | some none => True
  | some (some (cluster', lName)) =>
      let slotAt := slotBehind cluster
        (nextCluster v dev vfatBlock curclust).1 v.direntsPerClust retdent
      let k := slotNumber (entryAt cluster retdent)
      0 < k ∧ (∀ i < k, slotNumber (slotAt i) = k - i) ∧
        cluster' = cluster.copyIn (direntSize * retdent)
          ((slotAt k).read 0 direntSize) ∧
        lName = downcase (charsOf (slotRow slotAt k))

/-! ## When it does -/

/-- Where a slot in between has the flag, the name has ended, or the slots in front of it
add no character. -/
def EndsAtFlag : List (Memory UInt8) → Prop
  | [] => True
  | slot :: rest =>
      (0 : UInt8) ∈ slotChars slot ∨
        if flagged slot then charsOf rest = [] else EndsAtFlag rest

/-- The name fits into 256 bytes with its terminator, and its first character is not one
that is replaced. -/
def IsPlainName (name : List UInt8) : Prop :=
  name.length < 256 ∧ name.head? ≠ some 0xe5 ∧ name.head? ≠ some 0x05

/-- The row of a name and its entry stand in the cluster. -/
structure RowInside (v : Volume) (cluster : Memory UInt8) (retdent : ℕ) : Prop where
  nonempty : 0 < slotNumber (entryAt cluster retdent)
  inside : retdent + slotNumber (entryAt cluster retdent) < v.direntsPerClust
  ends : EndsAtFlag (slotRow (fun i => entryAt cluster (retdent + i))
    (slotNumber (entryAt cluster retdent)))
  plain : IsPlainName (charsOf (slotRow (fun i => entryAt cluster (retdent + i))
    (slotNumber (entryAt cluster retdent))))

/-- So many slots of a cluster are numbered down to 1. -/
def Numbered (cluster : Memory UInt8) (last k retdent : ℕ) : Prop :=
  ∀ i < k, retdent + i < last → slotNumber (entryAt cluster (retdent + i)) = k - i

/-- A slot has another number, or the row reaches the end of the cluster and there is no
next one, or the row and its entry are inside the cluster. -/
def NameReadable (v : Volume) (dev : Device) (curclust : UInt32)
    (cluster : Memory UInt8) (retdent : ℕ) : Prop :=
  ¬ Numbered cluster v.direntsPerClust (slotNumber (entryAt cluster retdent)) retdent ∨
    (v.direntsPerClust ≤ retdent + slotNumber (entryAt cluster retdent) ∧
      checkClust v.fatsize (v.fatent dev curclust) = true) ∨
    RowInside v cluster retdent

/-! ## Counting the slots -/

variable {cluster : Memory UInt8}

theorem numbered_succ_iff {last k slotptr : ℕ} (hlt : slotptr < last) :
    Numbered cluster last (k + 1) slotptr ↔
      slotNumber (entryAt cluster slotptr) = k + 1 ∧
        Numbered cluster last k (slotptr + 1) := by
  constructor
  · intro h
    refine ⟨h 0 (by omega) hlt, ?_⟩
    intro i hi hin
    have hnext := h (i + 1) (by omega) (by omega)
    rw [Nat.add_right_comm, Nat.add_assoc, hnext]
    omega
  · rintro ⟨hfirst, hrest⟩ i hi hin
    cases i with
    | zero => exact hfirst
    | succ i =>
        have hnext := hrest i (by omega) (by omega)
        rw [Nat.add_right_comm, Nat.add_assoc] at hnext
        rw [hnext]
        omega

/-- The loop stops behind the row, or at the end of the cluster. -/
theorem countSlots_numbered {last : ℕ} (k slotptr : ℕ)
    (h : Numbered cluster last k slotptr) :
    countSlots cluster last k slotptr =
      some (max slotptr (min (slotptr + k) last)) := by
  induction k generalizing slotptr with
  | zero =>
      rw [countSlots]
      congr 1
      omega
  | succ k ih =>
      rw [countSlots]
      split_ifs with hlt hnumber
      · exact absurd ((numbered_succ_iff hlt).mp h).1 hnumber
      · rw [ih (slotptr + 1) ((numbered_succ_iff hlt).mp h).2]
        congr 1
        omega
      · congr 1
        omega

theorem countSlots_misnumbered {last : ℕ} (k slotptr : ℕ)
    (h : ¬ Numbered cluster last k slotptr) :
    countSlots cluster last k slotptr = none := by
  induction k generalizing slotptr with
  | zero => exact absurd (fun i hi => absurd hi (by omega)) h
  | succ k ih =>
      rw [countSlots]
      split_ifs with hlt hnumber
      · rfl
      · apply ih
        intro hrest
        exact h ((numbered_succ_iff hlt).mpr ⟨not_not.mp hnumber, hrest⟩)
      · exact absurd (fun i _ hin => absurd hin (by omega)) h

/-! ## Reading the slots back -/

/-- The characters that the last loop takes of slots. -/
def textBack : List (Memory UInt8) → List UInt8
  | [] => []
  | slot :: rest =>
      (slotChars slot).takeWhile (· ≠ 0) ++
        if (0 : UInt8) ∈ slotChars slot ∨ flagged slot then [] else textBack rest

theorem slot2str_terminated {slot : Memory UInt8} {lName : List UInt8} :
    (slot2str slot lName).2 = true ↔ (0 : UInt8) ∈ slotChars slot := by
  simp [slot2str]

theorem flagged_iff {slot : Memory UInt8} : flagged slot = true ↔ slot 0 &&& 0x40 ≠ 0 :=
  decide_eq_true_iff

/-- Where the first slot of the row has the flag, the loop stops there at the latest. -/
theorem slotsBack_row {retdent : ℕ} (hflag : flagged (entryAt cluster retdent) = true)
    (k : ℕ) (lName : List UInt8) :
    slotsBack cluster (retdent + (k + 1)) lName = some
      (lName ++ textBack (slotRow (fun i => entryAt cluster (retdent + i)) (k + 1))) := by
  induction k generalizing lName with
  | zero =>
      rw [Nat.zero_add, slotsBack, slotRow, textBack, Nat.add_zero]
      dsimp only
      rw [if_pos (Or.inr (flagged_iff.mp hflag)), if_pos (Or.inr hflag),
        List.append_nil]
      rfl
  | succ k ih =>
      rw [← Nat.add_assoc, slotsBack, slotRow, textBack]
      dsimp only
      by_cases hstop : (0 : UInt8) ∈ slotChars (entryAt cluster (retdent + (k + 1))) ∨
          flagged (entryAt cluster (retdent + (k + 1))) = true
      · rw [if_pos hstop, if_pos (hstop.imp slot2str_terminated.mpr flagged_iff.mp),
          List.append_nil]
        rfl
      · rw [if_neg hstop,
          if_neg (mt (Or.imp slot2str_terminated.mp flagged_iff.mpr) hstop), ih,
          ← List.append_assoc]
        rfl

theorem charsOf_cons (slot : Memory UInt8) (rest : List (Memory UInt8)) :
    charsOf (slot :: rest) = (slotChars slot).takeWhile (· ≠ 0) ++
      if (0 : UInt8) ∈ slotChars slot then [] else charsOf rest := by
  rw [charsOf, List.flatMap_cons, List.takeWhile_append]
  split_ifs with hall hzero hzero
  · have hlong := List.takeWhile_eq_self_iff.mp (List.takeWhile_prefix _ |>.eq_of_length hall)
    exact absurd (hlong 0 hzero) (by decide)
  · rw [List.takeWhile_prefix _ |>.eq_of_length hall]
    rfl
  · rw [List.append_nil]
  · have hself : (slotChars slot).takeWhile (· ≠ 0) = slotChars slot := by
      rw [List.takeWhile_eq_self_iff]
      intro c hc
      exact decide_eq_true fun h => hzero (h ▸ hc)
    exact absurd (congrArg List.length hself) hall

theorem textBack_prefix (slots : List (Memory UInt8)) : textBack slots <+: charsOf slots := by
  induction slots with
  | nil => exact List.prefix_rfl
  | cons slot rest ih =>
      rw [textBack, charsOf_cons]
      apply List.prefix_append_right_inj _ |>.mpr
      split_ifs with hstop hzero hzero
      · exact List.nil_prefix
      · exact List.nil_prefix
      · exact absurd (Or.inl hzero) hstop
      · exact ih

theorem textBack_eq_iff (slots : List (Memory UInt8)) :
    textBack slots = charsOf slots ↔ EndsAtFlag slots := by
  induction slots with
  | nil => exact iff_of_true rfl trivial
  | cons slot rest ih =>
      rw [textBack, charsOf_cons, EndsAtFlag, List.append_cancel_left_eq]
      by_cases hzero : (0 : UInt8) ∈ slotChars slot
      · rw [if_pos (Or.inl hzero), if_pos hzero]
        exact iff_of_true rfl (Or.inl hzero)
      · rw [if_neg hzero]
        refine Iff.trans ?_ (or_iff_right hzero).symm
        by_cases hflag : flagged slot = true
        · rw [if_pos (Or.inr hflag), if_pos hflag]
          exact eq_comm
        · rw [if_neg (not_or.mpr ⟨hzero, hflag⟩), if_neg hflag]
          exact ih

/-! ## The first character -/

theorem length_downcase (s : List UInt8) : (downcase s).length = s.length :=
  List.length_map _

/-- A name that is cut off or replaced is not the one of the slots. -/
theorem fixName_eq_iff {text name : List UInt8} (h : text <+: name) :
    fixName text = downcase name ↔
      text = name ∧ name.head? ≠ some 0xe5 ∧ name.head? ≠ some 0x05 := by
  cases text with
  | nil =>
      rw [fixName]
      constructor
      · intro hempty
        have hname : name = [] := by
          rw [← List.length_eq_zero_iff, ← length_downcase, ← hempty, List.length_nil]
        rw [hname]
        exact ⟨rfl, by simp, by simp⟩
      · rintro ⟨rfl, -, -⟩
        rfl
  | cons c text =>
      obtain ⟨more, rfl⟩ := h
      rw [List.cons_append, fixName, List.head?_cons, ne_eq, ne_eq, Option.some_inj,
        Option.some_inj]
      by_cases hdeleted : c = 0xe5
      · rw [if_pos hdeleted]
        constructor
        · intro hempty
          exact absurd hempty (by simp [downcase])
        · rintro ⟨-, hne, -⟩
          exact absurd hdeleted hne
      · rw [if_neg hdeleted]
        by_cases haring : c = 0x05
        · rw [if_pos haring, haring]
          constructor
          · intro hsame
            exact absurd (congrArg List.head? hsame) (by simp [downcase]; decide)
          · rintro ⟨-, -, hne⟩
            exact absurd rfl hne
        · rw [if_neg haring, and_iff_left ⟨hdeleted, haring⟩]
          constructor
          · intro hsame
            have hlen := congrArg List.length hsame
            rw [length_downcase, length_downcase] at hlen
            exact (List.prefix_append (c :: text) more).eq_of_length hlen
          · intro hsame
            rw [← hsame]

/-! ## The name -/

variable {v : Volume} {dev : Device} {vfatBlock : Memory UInt8} {curclust : UInt32}
  {retdent : ℕ}

theorem getVfatname_misnumbered
    (h : ¬ Numbered cluster v.direntsPerClust (slotNumber (entryAt cluster retdent))
      retdent) :
    getVfatname v dev vfatBlock curclust cluster retdent = some none := by
  have hcount := countSlots_misnumbered _ _ h
  unfold slotNumber at hcount
  unfold getVfatname
  dsimp only
  rw [hcount]

/-- Where the row reaches the end of the last cluster, nothing more is read. -/
theorem getVfatname_fails
    (hnumbered : Numbered cluster v.direntsPerClust
      (slotNumber (entryAt cluster retdent)) retdent)
    (hlong : v.direntsPerClust ≤ retdent + slotNumber (entryAt cluster retdent))
    (hcheck : checkClust v.fatsize (v.fatent dev curclust) = true) :
    getVfatname v dev vfatBlock curclust cluster retdent = some none := by
  have hcount := countSlots_numbered _ _ hnumbered
  rw [min_eq_right hlong] at hcount
  unfold slotNumber at hcount
  unfold getVfatname
  dsimp only
  rw [hcount]
  dsimp only
  rw [if_neg (not_lt.mpr (le_max_right _ _)), if_pos hcheck]

/-- Where the entry stands in the cluster, the slots in front of it are read back. -/
theorem getVfatname_inside (v : Volume) (dev : Device) (vfatBlock : Memory UInt8)
    (curclust : UInt32)
    (hnumbered : Numbered cluster v.direntsPerClust
      (slotNumber (entryAt cluster retdent)) retdent)
    (hin : retdent + slotNumber (entryAt cluster retdent) < v.direntsPerClust) :
    getVfatname v dev vfatBlock curclust cluster retdent =
      finishName cluster retdent (retdent + slotNumber (entryAt cluster retdent)) []
        (entryAt cluster (retdent + slotNumber (entryAt cluster retdent))) := by
  have hcount := countSlots_numbered _ _ hnumbered
  rw [min_eq_left hin.le, max_eq_right (Nat.le_add_right _ _)] at hcount
  unfold slotNumber at hcount hin ⊢
  unfold getVfatname
  dsimp only
  rw [hcount]
  dsimp only
  rw [if_pos hin]

theorem slotRow_congr {slotAt slotAt' : ℕ → Memory UInt8} {k : ℕ}
    (h : ∀ i < k, slotAt i = slotAt' i) : slotRow slotAt k = slotRow slotAt' k := by
  induction k with
  | zero => rfl
  | succ k ih => rw [slotRow, slotRow, h k (by omega), ih fun i hi => h i (by omega)]

theorem slotBehind_inside {next : Memory UInt8} {last i : ℕ} (h : retdent + i < last) :
    slotBehind cluster next last retdent i = entryAt cluster (retdent + i) :=
  if_pos h

/-- A slot that starts no row: the entries in front of it are read. -/
theorem not_namesSlots_zero (hlt : retdent < v.direntsPerClust)
    (hzero : slotNumber (entryAt cluster retdent) = 0) :
    ¬ NamesSlots v dev vfatBlock curclust cluster retdent := by
  have hname := getVfatname_inside v dev vfatBlock curclust
    (by rw [hzero]; exact fun i hi => absurd hi (Nat.not_lt_zero i))
    (by rw [hzero]; exact hlt)
  unfold NamesSlots
  rw [hname, finishName]
  split
  · exact not_false
  · next hsome =>
      split at hsome
      · cases hsome
      · split at hsome
        · cases hsome
        · cases hsome
  · dsimp only
    rw [hzero]
    exact fun h => absurd h.1 (lt_irrefl 0)

/-- A row with its entry in the cluster. -/
theorem namesSlots_inside_iff
    (hflag : flagged (entryAt cluster retdent) = true)
    (hpos : 0 < slotNumber (entryAt cluster retdent))
    (hnumbered : Numbered cluster v.direntsPerClust
      (slotNumber (entryAt cluster retdent)) retdent)
    (hin : retdent + slotNumber (entryAt cluster retdent) < v.direntsPerClust) :
    NamesSlots v dev vfatBlock curclust cluster retdent ↔
      RowInside v cluster retdent := by
  obtain ⟨k, hk⟩ : ∃ k, slotNumber (entryAt cluster retdent) = k + 1 :=
    ⟨slotNumber (entryAt cluster retdent) - 1, by omega⟩
  have hname := getVfatname_inside v dev vfatBlock curclust hnumbered hin
  have hback := slotsBack_row hflag k []
  have hbehind : ∀ next, ∀ i ≤ k + 1,
      slotBehind cluster next v.direntsPerClust retdent i =
        entryAt cluster (retdent + i) :=
    fun next i hi => slotBehind_inside (by omega)
  have hrow : ∀ next, slotRow (slotBehind cluster next v.direntsPerClust retdent) (k + 1) =
      slotRow (fun i => entryAt cluster (retdent + i)) (k + 1) :=
    fun next => slotRow_congr fun i hi => hbehind next i hi.le
  have hprefix := textBack_prefix (slotRow (fun i => entryAt cluster (retdent + i)) (k + 1))
  have hends := textBack_eq_iff (slotRow (fun i => entryAt cluster (retdent + i)) (k + 1))
  unfold NamesSlots
  rw [hname, finishName, hk, hback, List.nil_append]
  dsimp only
  split_ifs with hfits
  · dsimp only
    rw [hrow, hbehind _ _ le_rfl, fixName_eq_iff hprefix]
    constructor
    · rintro ⟨-, -, -, hwhole, hplain⟩
      refine ⟨hpos, hin, ?_, ?_⟩
      · rw [hk]
        exact hends.mp hwhole
      · rw [hk]
        exact ⟨hwhole ▸ hfits, hplain⟩
    · intro h
      have hwhole := h.ends
      have hplain := h.plain
      rw [hk] at hwhole hplain
      refine ⟨by omega, ?_, rfl, hends.mpr hwhole, hplain.2⟩
      intro i hi
      rw [hbehind _ i hi.le, ← hk]
      exact hnumbered i (by omega) (by omega)
  · refine iff_of_false not_false ?_
    intro h
    have hwhole := h.ends
    have hplain := h.plain
    rw [hk] at hwhole hplain
    rw [hends.mpr hwhole] at hfits
    exact hfits hplain.1

/-- The name of a flagged slot is the one of its row where `NameReadable` holds, and
nowhere else as long as the row and its entry stand in the cluster. -/
theorem getVfatname_names (v : Volume) (dev : Device) (vfatBlock : Memory UInt8)
    (curclust : UInt32) (cluster : Memory UInt8) (retdent : ℕ)
    (hflag : flagged (entryAt cluster retdent) = true) :
    (NameReadable v dev curclust cluster retdent →
        NamesSlots v dev vfatBlock curclust cluster retdent) ∧
      (retdent + slotNumber (entryAt cluster retdent) < v.direntsPerClust →
        NamesSlots v dev vfatBlock curclust cluster retdent →
        NameReadable v dev curclust cluster retdent) := by
  by_cases hnumbered : Numbered cluster v.direntsPerClust
    (slotNumber (entryAt cluster retdent)) retdent
  · constructor
    · rintro (hmis | ⟨hlong, hcheck⟩ | hrow)
      · exact absurd hnumbered hmis
      · unfold NamesSlots
        rw [getVfatname_fails hnumbered hlong hcheck]
        trivial
      · exact (namesSlots_inside_iff hflag hrow.nonempty hnumbered hrow.inside).mpr hrow
    · intro hin hnames
      by_cases hpos : 0 < slotNumber (entryAt cluster retdent)
      · exact Or.inr (Or.inr
          ((namesSlots_inside_iff hflag hpos hnumbered hin).mp hnames))
      · exact absurd hnames (not_namesSlots_zero (by omega) (by omega))
  · refine ⟨fun _ => ?_, fun _ _ => Or.inl hnumbered⟩
    unfold NamesSlots
    rw [getVfatname_misnumbered hnumbered]
    trivial

/-- A cluster with a slot for the name `a`. -/
def oneSlot : Memory UInt8 := (Memory.store (fun _ => 0) 0 0x41).store 1 (ch 'a')

theorem getVfatname_names_oneSlot :
    NamesSlots smallVolume smallDevice (fun _ => 0) 0 oneSlot 0 :=
  (getVfatname_names smallVolume smallDevice (fun _ => 0) 0 oneSlot 0
    (by decide)).1 <| Or.inr <| Or.inr
      { nonempty := by decide
        inside := by decide
        ends := Or.inl (by decide)
        plain := ⟨by decide, by decide, by decide⟩ }

/-- A cluster that starts with the volume label `@`. -/
def atLabel : Memory UInt8 := (Memory.store (fun _ => 0) 0 (ch '@')).store 11 8

/-- The label is taken for a row without slots, and what stands in front of the cluster
is read. -/
theorem atLabel_not_named :
    0 < smallVolume.direntsPerClust ∧ flagged (entryAt atLabel 0) = true ∧
      ¬ NamesSlots smallVolume smallDevice (fun _ => 0) 0 atLabel 0 :=
  ⟨by decide, by decide, not_namesSlots_zero (by decide) (by decide)⟩

end TateFirmware.Fat
