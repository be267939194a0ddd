import TateFirmware.Mtd.Devices
import Mathlib.Data.List.Pairwise

/-!
# Reading and ordering partitions

What one call of the functions that read a definition can return, and what
`part_sort_add` does to a sorted list: it inserts the partition before the
first one that does not start earlier, and tells whether that was at or before
the current one.
-/

namespace TateFirmware.Mtd

open LibGeneric Support

/-! ## What is read is consumed -/

theorem strtoulLoop_length (base result : ℕ) (cp : List UInt8) :
    (strtoulLoop base result cp).2.length ≤ cp.length ∧
      ((strtoulLoop base result cp).2.length = cp.length →
        (strtoulLoop base result cp).1 = result) := by
  induction cp generalizing result with
  | nil => exact ⟨le_refl _, fun _ => rfl⟩
  | cons c cp ih =>
      rw [strtoulLoop]
      split
      · have := (ih ((result * base + digitValue c) % 2 ^ 32)).1
        rw [List.length_cons]
        exact ⟨by omega, fun h => by omega⟩
      · exact ⟨le_refl _, fun _ => rfl⟩

theorem length_tail_le (p : List UInt8) : p.tail.length ≤ p.length := by
  simp

theorem length_tail_lt {p : List UInt8} {c : UInt8} (hc : c ≠ 0)
    (h : peek p = c) : p.tail.length < p.length := by
  cases p with
  | nil => exact absurd h.symm hc
  | cons a p => simp

/-- A number is read without its digits being consumed only if it is zero. -/
theorem simpleStrtoul_length (cp : List UInt8) (base : ℕ) :
    (simpleStrtoul cp base).2.length ≤ cp.length ∧
      ((simpleStrtoul cp base).2.length = cp.length →
        (simpleStrtoul cp base).1 = 0) := by
  unfold simpleStrtoul
  split
  · rename_i hzero
    have htail := length_tail_lt (by decide) hzero
    dsimp only
    split
    · have := (strtoulLoop_length 16 0 cp.tail.tail).1
      have := length_tail_le cp.tail
      exact ⟨by omega, fun h => by omega⟩
    · have := (strtoulLoop_length (if base = 0 then 8 else base) 0 cp.tail).1
      exact ⟨by omega, fun h => by omega⟩
  · exact strtoulLoop_length _ 0 cp

theorem memsizeParse_length (ptr : List UInt8) :
    (memsizeParse ptr).2.length ≤ ptr.length ∧
      ((memsizeParse ptr).2.length = ptr.length → (memsizeParse ptr).1 = 0) := by
  obtain ⟨hle, heq⟩ := simpleStrtoul_length ptr 0
  have htail := length_tail_le (simpleStrtoul ptr 0).2
  unfold memsizeParse
  dsimp only
  have hzero : ∀ n, (simpleStrtoul ptr 0).2.tail.length = ptr.length →
      (simpleStrtoul ptr 0).1 * n % 2 ^ 32 = 0 := by
    intro n h
    rw [heq (by omega), Nat.zero_mul, Nat.zero_mod]
  split
  · exact ⟨le_trans htail hle, hzero _⟩
  · split
    · exact ⟨le_trans htail hle, hzero _⟩
    · split
      · exact ⟨le_trans htail hle, hzero _⟩
      · exact ⟨hle, heq⟩

theorem memsizeParse_lt (ptr : List UInt8) : (memsizeParse ptr).1 < 2 ^ 32 := by
  unfold memsizeParse
  dsimp only
  split
  · exact Nat.mod_lt _ (by decide)
  · split
    · exact Nat.mod_lt _ (by decide)
    · split
      · exact Nat.mod_lt _ (by decide)
      · exact simpleStrtoul_lt ptr 0

theorem partSize_spec {p rest : List UInt8} {size : ℕ}
    (h : partSize p = some (size, rest)) :
    rest.length < p.length ∧ size < 2 ^ 32 ∧ minPartSize ≤ size := by
  unfold partSize at h
  split at h
  · rename_i hminus
    obtain ⟨rfl, rfl⟩ := Prod.mk.inj (Option.some.inj h)
    exact ⟨length_tail_lt (by decide) hminus, by decide, by decide⟩
  · split at h
    · exact absurd h (by simp)
    · rename_i hmin
      obtain ⟨hle, heq⟩ := memsizeParse_length p
      have hlt := memsizeParse_lt p
      rw [Option.some.inj h] at hmin hle heq hlt
      refine ⟨?_, hlt, by omega⟩
      rcases Nat.lt_or_eq_of_le hle with hlt | heq'
      · exact hlt
      · have := heq heq'
        simp only at this hmin
        exact absurd (by rw [this]; decide) hmin

theorem partOffset_spec (p : List UInt8) :
    (partOffset p).2.length ≤ p.length ∧ (partOffset p).1 < 2 ^ 32 := by
  unfold partOffset
  split
  · have := (memsizeParse_length p.tail).1
    have := length_tail_le p
    exact ⟨by omega, memsizeParse_lt _⟩
  · have hlt : offsetNotSpecified < 2 ^ 32 := by decide
    exact ⟨le_refl _, hlt⟩

theorem partName_length {p rest : List UInt8} {name : Option (List UInt8)}
    (h : partName p = some (name, rest)) : rest.length ≤ p.length := by
  unfold partName at h
  split at h
  · have hle := (List.dropWhile_suffix (l := p.tail)
      (fun c => decide (c ≠ ch ')'))).length_le
    have := length_tail_le p
    split at h
    · exact absurd h (by simp)
    · rename_i hdrop
      rw [hdrop, List.length_cons] at hle
      split at h
      · exact absurd h (by simp)
      · obtain ⟨-, rfl⟩ := Prod.mk.inj (Option.some.inj h)
        omega
  · obtain ⟨-, rfl⟩ := Prod.mk.inj (Option.some.inj h)
    exact le_refl _

theorem partOptions_length (p : List UInt8) :
    (partOptions p).2.length ≤ p.length := by
  unfold partOptions
  split
  · simp
  · exact le_refl _

theorem partEnd_length {size : ℕ} {p ret : List UInt8}
    (h : partEnd size p = some ret) : ret.length ≤ p.length := by
  unfold partEnd at h
  split at h
  · split at h
    · exact absurd h (by simp)
    · rw [← Option.some.inj h]
      exact length_tail_le p
  · split at h
    · rw [← Option.some.inj h]
    · exact absurd h (by simp)

/-- What a partition definition gives, and where it ends. -/
theorem partParse_cases {p ret : List UInt8} {addr : ℕ} {part : PartInfo}
    (h : partParse p addr = some (part, ret)) :
    ∃ size rest name rest', partSize p = some (size, rest) ∧
      partName (partOffset rest).2 = some (name, rest') ∧
      partEnd size (partOptions rest').2 = some ret ∧
      part = newPart addr size (partOffset rest).1 name
        (partOptions rest').1 := by
  unfold partParse at h
  cases hsize : partSize p with
  | none =>
      rw [hsize] at h
      exact absurd h (by simp)
  | some sized =>
      obtain ⟨size, rest⟩ := sized
      rw [hsize] at h
      dsimp only at h
      cases hname : partName (partOffset rest).2 with
      | none =>
          rw [hname] at h
          exact absurd h (by simp)
      | some named =>
          obtain ⟨name, rest'⟩ := named
          rw [hname] at h
          dsimp only at h
          cases hend : partEnd size (partOptions rest').2 with
          | none =>
              rw [hend] at h
              exact absurd h (by simp)
          | some ret' =>
              rw [hend] at h
              obtain ⟨rfl, rfl⟩ := Prod.mk.inj (Option.some.inj h)
              exact ⟨size, rest, name, rest', rfl, hname, hend, rfl⟩

theorem partParse_length {p ret : List UInt8} {addr : ℕ} {part : PartInfo}
    (h : partParse p addr = some (part, ret)) : ret.length < p.length := by
  obtain ⟨size, rest, name, rest', hsize, hname, hend, -⟩ := partParse_cases h
  have h1 := (partSize_spec hsize).1
  have h2 := (partOffset_spec rest).1
  have h3 := partName_length hname
  have h4 := partOptions_length rest'
  have h5 := partEnd_length hend
  omega

/-- The fields of a partition that has been read. -/
theorem partParse_fields {p ret : List UInt8} {addr : ℕ} {part : PartInfo}
    (h : partParse p addr = some (part, ret)) :
    part.addr = addr ∧ part.size < 2 ^ 32 ∧ part.offset < 2 ^ 32 := by
  obtain ⟨size, rest, name, rest', hsize, -, -, rfl⟩ := partParse_cases h
  exact ⟨rfl, (partSize_spec hsize).2.1, (partOffset_spec rest).2⟩

/-! ## Inserting into a sorted list -/

/-- Partitions in the order of their offsets. -/
def Sorted (parts : List PartInfo) : Prop :=
  parts.Pairwise fun p q => p.offset ≤ q.offset

/-- A second partition at offset zero is rejected. -/
def SecondAtZero (new : PartInfo) (parts : List PartInfo) : Prop :=
  new.offset = 0 ∧ ∃ p ∈ parts, p.offset = 0

theorem sortInsert_eq_none_iff {currPi : Option PartInfo} {new : PartInfo}
    {parts : List PartInfo} (hsorted : Sorted parts) :
    sortInsert currPi new parts = none ↔ SecondAtZero new parts := by
  induction parts with
  | nil => simp [sortInsert, SecondAtZero]
  | cons pi ps ih =>
      obtain ⟨hpi, hps⟩ := List.pairwise_cons.mp hsorted
      rw [sortInsert]
      split
      · rename_i hzero
        refine ⟨fun _ => ⟨by omega, pi, by simp, hzero.2⟩, fun _ => rfl⟩
      · rename_i hzero
        split
        · rename_i hle
          refine ⟨fun h => absurd h (by simp), ?_⟩
          rintro ⟨hnew, q, hq, hqzero⟩
          rcases List.mem_cons.mp hq with rfl | hq
          · exact absurd ⟨by omega, hqzero⟩ hzero
          · have := hpi q hq
            exact absurd ⟨by omega, by omega⟩ hzero
        · rename_i hle
          rw [Option.map_eq_none_iff, ih hps]
          constructor
          · rintro ⟨hnew, q, hq, hqzero⟩
            exact ⟨hnew, q, List.mem_cons_of_mem _ hq, hqzero⟩
          · rintro ⟨hnew, -⟩
            omega

theorem sortInsert_perm {currPi : Option PartInfo} {new : PartInfo}
    {parts parts' : List PartInfo} {up : Bool}
    (h : sortInsert currPi new parts = some (parts', up)) :
    parts'.Perm (new :: parts) := by
  induction parts generalizing parts' up with
  | nil =>
      obtain ⟨rfl, -⟩ := Prod.mk.inj (Option.some.inj h)
      exact List.Perm.refl _
  | cons pi ps ih =>
      rw [sortInsert] at h
      split at h
      · exact absurd h (by simp)
      · split at h
        · obtain ⟨rfl, -⟩ := Prod.mk.inj (Option.some.inj h)
          exact List.Perm.refl _
        · obtain ⟨⟨qs, up'⟩, hqs, heq⟩ := Option.map_eq_some_iff.mp h
          obtain ⟨rfl, -⟩ := Prod.mk.inj heq
          exact ((ih hqs).cons pi).trans (List.Perm.swap new pi ps)

theorem sortInsert_sorted {currPi : Option PartInfo} {new : PartInfo}
    {parts parts' : List PartInfo} {up : Bool} (hsorted : Sorted parts)
    (h : sortInsert currPi new parts = some (parts', up)) :
    Sorted parts' := by
  induction parts generalizing parts' up with
  | nil =>
      obtain ⟨rfl, -⟩ := Prod.mk.inj (Option.some.inj h)
      exact List.pairwise_singleton _ _
  | cons pi ps ih =>
      obtain ⟨hpi, hps⟩ := List.pairwise_cons.mp hsorted
      rw [sortInsert] at h
      split at h
      · exact absurd h (by simp)
      · split at h
        · rename_i hle
          obtain ⟨rfl, -⟩ := Prod.mk.inj (Option.some.inj h)
          refine List.pairwise_cons.mpr ⟨?_, hsorted⟩
          intro q hq
          rcases List.mem_cons.mp hq with rfl | hq
          · exact hle
          · exact le_trans hle (hpi q hq)
        · rename_i hgt
          obtain ⟨⟨qs, up'⟩, hqs, heq⟩ := Option.map_eq_some_iff.mp h
          obtain ⟨rfl, -⟩ := Prod.mk.inj heq
          refine List.pairwise_cons.mpr ⟨?_, ih hps hqs⟩
          intro q hq
          rcases List.mem_cons.mp ((sortInsert_perm hqs).subset hq) with
            rfl | hq
          · omega
          · exact hpi q hq

/-- Whether `current_partnum` goes up: exactly when the new partition does not
start behind the current one. -/
theorem sortInsert_up {curr new : PartInfo} {parts parts' : List PartInfo}
    {up : Bool} (hsorted : Sorted parts) (hcurr : curr ∈ parts)
    (h : sortInsert (some curr) new parts = some (parts', up)) :
    up = decide (new.offset ≤ curr.offset) := by
  have hbehind : ∀ {parts parts' : List PartInfo} {up : Bool},
      curr.offset < new.offset →
      sortInsert (some curr) new parts = some (parts', up) → up = false := by
    intro parts
    induction parts with
    | nil =>
        intro parts' up _ h
        exact (Prod.mk.inj (Option.some.inj h)).2.symm
    | cons pi ps ih =>
        intro parts' up hlt h
        rw [sortInsert] at h
        split at h
        · exact absurd h (by simp)
        · split at h
          · rw [← (Prod.mk.inj (Option.some.inj h)).2]
            simp only [Option.any_some, decide_eq_false_iff_not]
            omega
          · obtain ⟨⟨qs, up'⟩, hqs, heq⟩ := Option.map_eq_some_iff.mp h
            rw [← (Prod.mk.inj heq).2]
            exact ih hlt hqs
  by_cases hle : new.offset ≤ curr.offset
  · rw [decide_eq_true hle]
    induction parts generalizing parts' up with
    | nil => exact absurd hcurr (by simp)
    | cons pi ps ih =>
        obtain ⟨hpi, hps⟩ := List.pairwise_cons.mp hsorted
        rw [sortInsert] at h
        split at h
        · exact absurd h (by simp)
        · split at h
          · rw [← (Prod.mk.inj (Option.some.inj h)).2]
            rcases List.mem_cons.mp hcurr with rfl | hcurr
            · simp
            · simpa using hpi curr hcurr
          · rename_i hgt
            obtain ⟨⟨qs, up'⟩, hqs, heq⟩ := Option.map_eq_some_iff.mp h
            rw [← (Prod.mk.inj heq).2]
            refine ih hps ((List.mem_cons.mp hcurr).resolve_left ?_) hqs
            rintro rfl
            exact hgt hle
  · rw [decide_eq_false hle]
    exact hbehind (by omega) h

/-- Where the partition that stood at index `j` goes. -/
theorem sortInsert_getElem {curr new : PartInfo} {parts parts' : List PartInfo}
    {up : Bool} {j : ℕ} (hsorted : Sorted parts) (hj : parts[j]? = some curr)
    (h : sortInsert (some curr) new parts = some (parts', up)) :
    parts'[if up then j + 1 else j]? = some curr := by
  induction parts generalizing parts' up j with
  | nil => exact absurd hj (by simp)
  | cons pi ps ih =>
      have hup := sortInsert_up hsorted (List.mem_of_getElem? hj) h
      obtain ⟨hpi, hps⟩ := List.pairwise_cons.mp hsorted
      rw [sortInsert] at h
      split at h
      · exact absurd h (by simp)
      · split at h
        · rename_i hle
          have hcurr : pi.offset ≤ curr.offset := by
            rcases List.mem_cons.mp (List.mem_of_getElem? hj) with rfl | hmem
            · exact le_refl _
            · exact hpi curr hmem
          rw [decide_eq_true (le_trans hle hcurr)] at hup
          subst hup
          obtain ⟨rfl, -⟩ := Prod.mk.inj (Option.some.inj h)
          simpa using hj
        · rename_i hgt
          obtain ⟨⟨qs, up'⟩, hqs, heq⟩ := Option.map_eq_some_iff.mp h
          obtain ⟨rfl, rfl⟩ := Prod.mk.inj heq
          cases j with
          | zero =>
              obtain rfl : pi = curr := by simpa using hj
              have hup : up' = false := by
                simpa [decide_eq_false hgt] using hup
              subst hup
              rfl
          | succ k =>
              have hk : ps[k]? = some curr := by simpa using hj
              have := ih hps hk hqs
              cases up' <;> simpa using this

/-! ## Devices that have been read -/

/-- A partition lies inside its device. -/
def Inside (id : MtdIds) (part : PartInfo) : Prop :=
  part.offset + part.size ≤ id.size

/-- What every device of the list is. -/
structure DeviceOk (d : MtdDevice) : Prop where
  sorted : Sorted d.parts
  counted : d.numParts = d.parts.length
  count_lt : d.parts.length < 2 ^ 16
  nonempty : d.parts ≠ []
  inside : ∀ p ∈ d.parts, Inside d.id p
  distinct : (d.parts.map PartInfo.addr).Nodup

theorem DeviceOk.nodup {d : MtdDevice} (h : DeviceOk d) : d.parts.Nodup :=
  h.distinct.of_map

/-- A valid partition lies inside its device, and only its size may have been
filled in. -/
theorem partValidate_spec {flash : Flash} {id : MtdIds} {part new : PartInfo}
    (hsize : part.size < 2 ^ 32) (h : partValidate flash id part = some new) :
    Inside id new ∧ new.addr = part.addr ∧ new.offset = part.offset := by
  unfold partValidate at h
  split at h
  · rename_i hfits
    obtain rfl := Option.some.inj h
    have hoffset : (fillUp id part).offset = part.offset := by
      unfold fillUp
      split <;> rfl
    have haddr : (fillUp id part).addr = part.addr := by
      unfold fillUp
      split <;> rfl
    have hlt : (fillUp id part).size < 2 ^ 32 := by
      unfold fillUp
      split
      · exact Nat.mod_lt _ (by decide)
      · exact hsize
    refine ⟨?_, haddr, hoffset⟩
    have hid := id.size_lt
    unfold partFits at hfits
    unfold Inside
    split at hfits
    · exact absurd hfits (by decide)
    · split at hfits
      · exact absurd hfits (by decide)
      · split at hfits
        · exact absurd hfits (by decide)
        · omega
  · exact absurd h (by simp)

theorem partsParse_spec {flash : Flash} {id : MtdIds} {k : ℕ}
    {p ret : List UInt8} {offset addr : ℕ} {parts : List PartInfo}
    (h : partsParse flash id k p offset addr = some (parts, ret)) :
    (∀ q ∈ parts, Inside id q) ∧
      parts.map PartInfo.addr = List.range' addr parts.length ∧
      parts.length + ret.length ≤ p.length := by
  induction k generalizing p offset addr parts with
  | zero => exact absurd h (by simp [partsParse])
  | succ k ih =>
      rw [partsParse] at h
      split at h
      · obtain ⟨rfl, rfl⟩ := Prod.mk.inj (Option.some.inj h)
        exact ⟨by simp, rfl, by simp⟩
      · cases hparse : partParse p addr with
        | none =>
            rw [hparse] at h
            exact absurd h (by simp)
        | some parsed =>
            obtain ⟨part, rest⟩ := parsed
            rw [hparse] at h
            dsimp only at h
            obtain ⟨haddr, hsize, -⟩ := partParse_fields hparse
            have hrest := partParse_length hparse
            cases hvalid : partValidate flash id
                (if part.offset = offsetNotSpecified then
                  { part with offset := offset } else part) with
            | none =>
                rw [hvalid] at h
                exact absurd h (by simp)
            | some new =>
                rw [hvalid] at h
                obtain ⟨⟨qs, ret'⟩, hqs, heq⟩ := Option.map_eq_some_iff.mp h
                obtain ⟨rfl, rfl⟩ := Prod.mk.inj heq
                obtain ⟨hinside, haddrs, hlength⟩ := ih hqs
                obtain ⟨hnew, hnewaddr, -⟩ := partValidate_spec
                  (by split <;> exact hsize) hvalid
                have hpartaddr : new.addr = addr := by
                  rw [hnewaddr, ← haddr]
                  split <;> rfl
                refine ⟨?_, ?_, ?_⟩
                · intro q hq
                  rcases List.mem_cons.mp hq with rfl | hq
                  · exact hnew
                  · exact hinside q hq
                · rw [List.map_cons, haddrs, hpartaddr, List.length_cons,
                    List.range'_succ]
                · dsimp only at hlength ⊢
                  rw [List.length_cons]
                  omega

/-- Moving partitions to a device leaves it sorted with all of them. -/
theorem sortAddAll_spec {dev dev' : MtdDevice} {parts : List PartInfo}
    (hsorted : Sorted dev.parts) (h : sortAddAll dev parts = some dev') :
    Sorted dev'.parts ∧ dev'.parts.Perm (parts ++ dev.parts) ∧
      dev'.numParts % 2 ^ 16 = (dev.numParts + parts.length) % 2 ^ 16 ∧
      (parts ≠ [] → dev'.numParts < 2 ^ 16) ∧ dev'.addr = dev.addr ∧
      dev'.id = dev.id := by
  induction parts generalizing dev with
  | nil =>
      obtain rfl := Option.some.inj h
      exact ⟨hsorted, List.Perm.refl _, rfl, by simp, rfl, rfl⟩
  | cons part parts ih =>
      rw [sortAddAll] at h
      cases hadd : partSortAdd none dev part with
      | none =>
          rw [hadd] at h
          exact absurd h (by simp)
      | some added =>
          obtain ⟨mid, up⟩ := added
          rw [hadd] at h
          obtain ⟨⟨qs, up'⟩, hqs, heq⟩ := Option.map_eq_some_iff.mp hadd
          obtain ⟨rfl, -⟩ := Prod.mk.inj heq
          obtain ⟨hsorted', hperm, hnum, hlt, haddr, hid⟩ :=
            ih (sortInsert_sorted hsorted hqs) h
          refine ⟨hsorted', ?_, ?_, ?_, haddr, hid⟩
          · refine hperm.trans ?_
            refine ((sortInsert_perm hqs).append_left parts).trans ?_
            exact List.perm_middle
          · rw [hnum, List.length_cons]
            dsimp only
            omega
          · intro _
            cases parts with
            | nil =>
                obtain rfl := Option.some.inj h
                exact Nat.mod_lt _ (by decide)
            | cons q qs => exact hlt (by simp)

/-- How a device definition is read. -/
theorem deviceParse_cases {flash : Flash} {mtdids : List MtdIds}
    {devices : List MtdDevice} {brk : ℕ} {mtdDev ret : List UInt8}
    {dev : MtdDevice}
    (h : deviceParse flash mtdids devices brk mtdDev = some (dev, ret)) :
    ∃ c p id parts rest, mtdDev.dropWhile (· ≠ ch ':') = c :: p ∧
      idFindByMtdId mtdids (mtdDev.takeWhile (· ≠ ch ':')) = some id ∧
      partsParse flash id (p.length + 1) p (startOffset devices id) brk =
        some (parts, rest) ∧
      parts.length % 2 ^ 16 ≠ 0 ∧
      sortAddAll ⟨brk + parts.length, id, 0, []⟩ parts = some dev ∧
      ret = if peek rest = ch ';' then rest.tail else rest := by
  unfold deviceParse at h
  cases hcolon : mtdDev.dropWhile (· ≠ ch ':') with
  | nil =>
      rw [hcolon] at h
      exact absurd h (by simp)
  | cons c p =>
      rw [hcolon] at h
      dsimp only at h
      cases hid : idFindByMtdId mtdids (mtdDev.takeWhile (· ≠ ch ':')) with
      | none =>
          rw [hid] at h
          exact absurd h (by simp)
      | some id =>
          rw [hid] at h
          dsimp only at h
          cases hparts : partsParse flash id (p.length + 1) p
              (startOffset devices id) brk with
          | none =>
              rw [hparts] at h
              exact absurd h (by simp)
          | some parsed =>
              obtain ⟨parts, rest⟩ := parsed
              rw [hparts] at h
              dsimp only at h
              split at h
              · exact absurd h (by simp)
              · rename_i hcount
                obtain ⟨dev', hdev, heq⟩ := Option.map_eq_some_iff.mp h
                obtain ⟨rfl, rfl⟩ := Prod.mk.inj heq
                exact ⟨c, p, id, parts, rest, rfl, rfl, hparts, hcount, hdev,
                  rfl⟩

/-- A device that has been read. -/
theorem deviceParse_spec {flash : Flash} {mtdids : List MtdIds}
    {devices : List MtdDevice} {brk : ℕ} {mtdDev ret : List UInt8}
    {dev : MtdDevice} (hlength : mtdDev.length < 2 ^ 16)
    (h : deviceParse flash mtdids devices brk mtdDev = some (dev, ret)) :
    DeviceOk dev ∧ brk ≤ dev.addr ∧
      (∀ p ∈ dev.parts, brk ≤ p.addr ∧ p.addr < dev.addr) ∧
      ret.length < mtdDev.length := by
  obtain ⟨c, p, id, parts, rest, hcolon, hid, hparts, hcount, hdev, rfl⟩ :=
    deviceParse_cases h
  have hdrop := (List.dropWhile_suffix (l := mtdDev)
    (fun c => decide (c ≠ ch ':'))).length_le
  rw [hcolon, List.length_cons] at hdrop
  obtain ⟨hinside, haddrs, hle⟩ := partsParse_spec hparts
  have hempty : Sorted
      (MtdDevice.mk (brk + parts.length) id 0 []).parts :=
    List.Pairwise.nil
  obtain ⟨hsorted, hperm, hnum, hlt, haddr, hdevid⟩ :=
    sortAddAll_spec hempty hdev
  rw [List.append_nil] at hperm
  have hne : parts ≠ [] := by
    rintro rfl
    exact hcount rfl
  have hrange : ∀ q ∈ dev.parts,
      brk ≤ q.addr ∧ q.addr < brk + parts.length := by
    intro q hq
    have hmem : q.addr ∈ parts.map PartInfo.addr :=
      List.mem_map_of_mem (hperm.subset hq)
    rw [haddrs, List.mem_range'_1] at hmem
    exact hmem
  have hok : DeviceOk dev := by
    constructor
    · exact hsorted
    · have hnum' := hlt hne
      rw [hperm.length_eq]
      dsimp only at hnum
      omega
    · rw [hperm.length_eq]
      omega
    · intro hnil
      rw [hnil] at hperm
      exact hne hperm.symm.eq_nil
    · intro q hq
      rw [hdevid]
      exact hinside q (hperm.subset hq)
    · rw [(hperm.map PartInfo.addr).nodup_iff, haddrs]
      exact List.nodup_range'
  dsimp only at haddr
  refine ⟨hok, by omega, ?_, ?_⟩
  · intro q hq
    have := hrange q hq
    omega
  · have := length_tail_le rest
    split <;> omega

end TateFirmware.Mtd
