import TateFirmware.Mtd.Invariant

/-!
# MTD partition operations over runs

Each operation keeps the invariant of the device list and, unless it selects
another one, the current partition; so does every run whose operations meet
the conditions that the widths of the counters and the comparison in
`part_del` impose.
-/

namespace TateFirmware.Mtd

open LibGeneric Support

/-! ## Adding devices -/

theorem Inv.brk {m : MtdState} {brk : ℕ} (h : Inv m) (hbrk : m.brk ≤ brk) :
    Inv { m with brk := brk } :=
  ⟨h.devices.mono (le_refl _) hbrk, h.current, h.index, h.partnum_lt⟩

/-- A device that was allocated behind all records is added. -/
theorem deviceAdd_step {m : MtdState} {dev : MtdDevice} (h : Inv m)
    (hdev : DeviceOk dev) (haddr : m.brk ≤ dev.addr)
    (hparts : ∀ p ∈ dev.parts, m.brk ≤ p.addr ∧ p.addr < dev.addr) :
    Inv (deviceAdd { m with brk := dev.addr + 1 } dev) ∧
      Kept m (deviceAdd { m with brk := dev.addr + 1 } dev) := by
  have hdevices : DevicesOk 0 (dev.addr + 1) (m.devices ++ [dev]) := by
    refine h.devices.append hdev (Nat.zero_le _) ⟨haddr, by omega⟩ ?_
    intro p hp
    have := hparts p hp
    omega
  unfold deviceAdd
  dsimp only
  split
  · rename_i hnil
    rw [hnil, List.nil_append] at hdevices
    refine ⟨inv_currentSave ⟨hdevices, by simp, ?_, (by decide : 0 < 2 ^ 8)⟩,
      kept_of ?_⟩
    · intro a ha
      refine ⟨dev, by simp, Option.some.inj ha, ?_⟩
      exact List.length_pos_of_ne_nil hdev.nonempty
    · intro p hp
      obtain ⟨d, hd, -, -⟩ := currentPart_cases hp
      rw [hnil] at hd
      exact absurd hd (List.not_mem_nil)
  · rename_i hne
    have hinv : Inv { m with
        devices := m.devices ++ [dev], brk := dev.addr + 1 } := by
      refine ⟨hdevices, ?_, ?_, h.partnum_lt⟩
      · rw [h.current]
        simp [hne]
      · intro a ha
        obtain ⟨d, hd, haddr, hlt⟩ := h.index a ha
        exact ⟨d, List.mem_append_left _ hd, haddr, hlt⟩
    refine ⟨inv_indexPartitions hinv, kept_of ?_⟩
    intro p hp
    obtain ⟨d, hd, hcur, hget⟩ := currentPart_cases hp
    exact Or.inl ((hinv.currentPart_eq (List.mem_append_left _ hd) hcur).trans
      hget)

/-- A partition that is not added changes nothing. -/
theorem partAdd_rejects {flash : Flash} {m : MtdState} {dev : MtdDevice}
    {part : PartInfo} (h : (partAdd flash m dev part).2 ≠ 0) :
    (partAdd flash m dev part).1 = m := by
  unfold partAdd at h ⊢
  cases hvalid : partValidate flash dev.id part with
  | none => rfl
  | some new =>
      rw [hvalid] at h
      dsimp only at h ⊢
      cases hadd : partSortAdd (m.currPi dev) dev new with
      | none => rfl
      | some added =>
          obtain ⟨dev', up⟩ := added
          rw [hadd] at h
          cases up <;> exact absurd rfl h

/-- The partition a description defines finds room where it is merged with an
existing device, and the description fits its buffer. -/
def AddMeets (flash : Flash) (mtdids : List MtdIds) (m : MtdState)
    (mtdDev : List UInt8) : Prop :=
  mtdDev.length < partAddDescMaxlen ∧
    ∀ dev ret, deviceParse flash mtdids m.devices m.brk mtdDev =
        some (dev, ret) →
      ∀ devTmp, deviceFind m.devices dev.id.type dev.id.num = some devTmp →
        ∀ part ∈ dev.parts.head?, PartAddMeets flash m devTmp part

theorem addPartition_step {flash : Flash} {mtdids : List MtdIds}
    {m : MtdState} {mtdDev : List UInt8} (h : Inv m)
    (hmeets : AddMeets flash mtdids m mtdDev) :
    Inv (addPartition flash mtdids m mtdDev).1 ∧
      Kept m (addPartition flash mtdids m mtdDev).1 := by
  obtain ⟨hlength, hroom⟩ := hmeets
  unfold addPartition
  cases hparse : deviceParse flash mtdids m.devices m.brk mtdDev with
  | none => exact ⟨h, Kept.refl m⟩
  | some parsed =>
      obtain ⟨dev, ret⟩ := parsed
      have hlength' : mtdDev.length < 2 ^ 16 := lt_trans hlength (by decide)
      obtain ⟨hdev, haddr, hparts, -⟩ := deviceParse_spec hlength' hparse
      have hbrk : Inv { m with brk := dev.addr + 1 } := h.brk (by omega)
      dsimp only
      cases hfind : deviceFind m.devices dev.id.type dev.id.num with
      | none => exact deviceAdd_step h hdev haddr hparts
      | some devTmp =>
          cases hlist : dev.parts with
          | nil => exact absurd hlist hdev.nonempty
          | cons part rest =>
              have hmem : part ∈ dev.parts := by
                rw [hlist]
                exact List.mem_cons_self
              have hpart := hparts part hmem
              have hsize : part.size < 2 ^ 32 := by
                have := hdev.inside part hmem
                have := dev.id.size_lt
                unfold Inside at *
                omega
              have hfresh : ∀ d ∈ m.devices, ∀ q ∈ d.parts,
                  q.addr ≠ part.addr := by
                intro d hd q hq
                have := ((h.devices.range d hd).2.2 q hq).2
                omega
              have hstep := partAdd_step hbrk
                (List.mem_of_find?_eq_some hfind)
                (show part.addr < dev.addr + 1 by omega) hfresh hsize
                (hroom dev ret hparse devTmp hfind part (by simp [hlist]))
              have hrejects : (partAdd flash { m with brk := dev.addr + 1 }
                    devTmp part).2 ≠ 0 →
                  (partAdd flash { m with brk := dev.addr + 1 } devTmp
                    part).1 = { m with brk := dev.addr + 1 } :=
                partAdd_rejects
              dsimp only
              cases hadd : partAdd flash { m with brk := dev.addr + 1 } devTmp
                  part with
              | mk m' rcode =>
                  rw [hadd] at hstep hrejects
                  cases rcode with
                  | zero => exact hstep
                  | succ n =>
                      obtain rfl := hrejects (Nat.succ_ne_zero n)
                      exact deviceDel_step hbrk dev

/-! ## Reading an `mtdparts` string -/

theorem mtdpartsInit_step {flash : Flash} {mtdids : List MtdIds}
    {m : MtdState} (h : Inv m) (mtdparts : List UInt8) :
    Inv (mtdpartsInit flash mtdids m mtdparts).1 ∧
      Kept m (mtdpartsInit flash mtdids m mtdparts).1 := by
  unfold mtdpartsInit
  split
  · exact ⟨h, Kept.refl m⟩
  · rename_i hlength
    cases hparse : parseMtdparts flash mtdids m.brk mtdparts with
    | none =>
        refine ⟨⟨devicesOk_nil _ _, ?_, ?_, h.partnum_lt⟩, kept_of ?_⟩
        · exact ⟨fun _ => rfl, fun _ => rfl⟩
        · intro a ha
          exact absurd (show none = some a from ha) (by simp)
        · intro p hp
          exact Or.inr ⟨fun d hd => absurd hd (List.not_mem_nil),
            fun hne => absurd rfl hne⟩
    | some parsed =>
        obtain ⟨devices, brk⟩ := parsed
        unfold parseMtdparts at hparse
        split at hparse
        · rename_i hstart
          have hlt : (mtdparts.drop 9).length < 2 ^ 16 := by
            rw [List.length_drop]
            unfold mtdpartsMaxlen at hlength
            omega
          obtain ⟨hok, hle, hne⟩ := devicesParse_spec hlt
            (devicesOk_nil m.brk m.brk) (le_refl _) hparse
          obtain ⟨d, ds, rfl⟩ := List.exists_cons_of_ne_nil
            (hne (Or.inr hstart.2))
          refine ⟨inv_currentSave ⟨hok.mono (Nat.zero_le _) (le_refl _), ?_,
            ?_, (by decide : 0 < 2 ^ 8)⟩, kept_of ?_⟩
          · simp
          · intro a ha
            refine ⟨d, by simp, Option.some.inj ha, ?_⟩
            exact List.length_pos_of_ne_nil
              (hok.device d (by simp)).nonempty
          · intro p hp
            refine Or.inr ⟨?_, fun _ => rfl⟩
            intro d' hd' hmem
            obtain ⟨d₀, hd₀, -, hget⟩ := currentPart_cases hp
            have := ((hok.range d' hd').2.2 p hmem).1
            have := ((h.devices.range d₀ hd₀).2.2 p
              (List.mem_of_getElem? hget)).2
            omega
        · exact absurd hparse (by simp)

/-! ## Steps -/

/-- The conditions on an operation. -/
def Meets (flash : Flash) (mtdids : List MtdIds) (m : MtdState) : Op → Prop
  | .add type num args =>
      ∀ id, idFind mtdids type num = some id →
        args.len id < partAddDescMaxlen →
        AddMeets flash mtdids m (args.desc id)
  | .partAdd type num part =>
      ∀ dev, deviceFind m.devices type num = some dev →
        PartAddMeets flash m dev (part.alloc m.brk)
  | .partDel type num pnum =>
      ∀ dev part, findDevAndPart m type num (pnum % 2 ^ 8) = some (dev, part) →
        PartDelMeets m dev (pnum % 2 ^ 8) part
  | _ => True

/-- The operations that do not select another partition. -/
def Op.keeps : Op → Bool
  | .chpart _ _ _ => false
  | _ => true

theorem findDevAndPart_cases {m : MtdState} {type : DevType} {num pnum : ℕ}
    {dev : MtdDevice} {part : PartInfo}
    (h : findDevAndPart m type num pnum = some (dev, part)) :
    dev ∈ m.devices ∧ dev.parts[pnum]? = some part := by
  obtain ⟨d, hd, hmap⟩ := Option.bind_eq_some_iff.mp h
  obtain ⟨p, hp, heq⟩ := Option.map_eq_some_iff.mp hmap
  obtain ⟨rfl, rfl⟩ := Prod.mk.inj heq
  refine ⟨List.mem_of_find?_eq_some hd, ?_⟩
  unfold jffs2PartInfo at hp
  split at hp
  · exact hp
  · exact absurd hp (by simp)

/-- Selecting a partition keeps the invariant. -/
theorem chpart_inv {m : MtdState} {dev : MtdDevice} {pnum : ℕ} (h : Inv m)
    (hdev : dev ∈ m.devices) (hlt : pnum < dev.parts.length)
    (hpnum : pnum < 2 ^ 8) :
    Inv { m with currentDev := some dev.addr, currentPartnum := pnum } := by
  refine ⟨h.devices, ?_, ?_, hpnum⟩
  · simp only [reduceCtorEq, false_iff]
    exact List.ne_nil_of_mem hdev
  · intro a ha
    exact ⟨dev, hdev, Option.some.inj ha, hlt⟩

theorem step_inv {flash : Flash} {mtdids : List MtdIds} {m : MtdState}
    {op : Op} (hmeets : Meets flash mtdids m op) (h : Inv m) :
    Inv (step flash mtdids m op).1 ∧
      (op.keeps → Kept m (step flash mtdids m op).1) := by
  cases op with
  | parse mtdparts =>
      obtain ⟨hinv, hkept⟩ := mtdpartsInit_step h mtdparts
      exact ⟨hinv, fun _ => hkept⟩
  | add type num args =>
      have hadd : Inv (mtdpartsAdd flash mtdids m type num args).1 ∧
          Kept m (mtdpartsAdd flash mtdids m type num args).1 := by
        unfold mtdpartsAdd
        cases hid : idFind mtdids type num with
        | none => exact ⟨h, Kept.refl m⟩
        | some id =>
            dsimp only
            split
            · exact ⟨h, Kept.refl m⟩
            · rename_i hlen
              exact addPartition_step h (hmeets id hid (by omega))
      exact ⟨hadd.1, fun _ => hadd.2⟩
  | partAdd type num part =>
      simp only [step]
      cases hfind : deviceFind m.devices type num with
      | none => exact ⟨h, fun _ => Kept.refl m⟩
      | some dev =>
          have hfresh : ∀ d ∈ m.devices, ∀ q ∈ d.parts,
              q.addr ≠ (part.alloc m.brk).addr := by
            intro d hd q hq
            exact Nat.ne_of_lt ((h.devices.range d hd).2.2 q hq).2
          obtain ⟨hinv, hkept⟩ := partAdd_step
            (h.brk (Nat.le_succ m.brk)) (List.mem_of_find?_eq_some hfind)
            (Nat.lt_succ_self m.brk) hfresh (Nat.mod_lt _ (by decide))
            (hmeets dev hfind)
          exact ⟨hinv, fun _ => hkept⟩
  | partDel type num pnum =>
      simp only [step]
      cases hfind : findDevAndPart m type num (pnum % 2 ^ 8) with
      | none => exact ⟨h, fun _ => Kept.refl m⟩
      | some found =>
          obtain ⟨dev, part⟩ := found
          obtain ⟨hdev, hpart⟩ := findDevAndPart_cases hfind
          obtain ⟨hinv, hkept⟩ :=
            partDel_step h hdev hpart (hmeets dev part hfind)
          exact ⟨hinv, fun _ => hkept⟩
  | deviceDel type num =>
      simp only [step]
      cases hfind : deviceFind m.devices type num with
      | none => exact ⟨h, fun _ => Kept.refl m⟩
      | some dev =>
          obtain ⟨hinv, hkept⟩ := deviceDel_step h dev
          exact ⟨hinv, fun _ => hkept⟩
  | chpart type num pnum =>
      refine ⟨?_, fun hkeeps => absurd hkeeps Bool.false_ne_true⟩
      simp only [step]
      cases hfind : findDevAndPart m type num (pnum % 2 ^ 8) with
      | none => exact h
      | some found =>
          obtain ⟨dev, part⟩ := found
          obtain ⟨hdev, hpart⟩ := findDevAndPart_cases hfind
          exact inv_currentSave (chpart_inv h hdev
            (List.getElem?_eq_some_iff.mp hpart).1 (Nat.mod_lt _ (by decide)))

/-! ## Runs -/

/-- In a run whose operations meet the conditions the invariant holds in every
state, and every operation that does not select a partition keeps the current
one. -/
theorem mtd_run (flash : Flash) (mtdids : List MtdIds) (brk : ℕ) (ops : List Op)
    (hmeet : StepsMeet (step flash mtdids) (Meets flash mtdids) (.start brk)
      ops) :
    Inv (run (step flash mtdids) (.start brk) ops).1 ∧
      ∀ op, Meets flash mtdids (run (step flash mtdids) (.start brk) ops).1 op →
        op.keeps →
        Kept (run (step flash mtdids) (.start brk) ops).1
          (step flash mtdids (run (step flash mtdids) (.start brk) ops).1
            op).1 := by
  have hinv : Inv (run (step flash mtdids) (.start brk) ops).1 :=
    run_invariant_of_stepsMeet (P := Inv)
      (fun m op hop hm => (step_inv hop hm).1) (inv_start brk) hmeet
  exact ⟨hinv, fun op hop => (step_inv hop hinv).2⟩

/-- Two partitions that start at the same offset; the second one read is the
current one. -/
def twoAtOnePlace : Op := .parse (text "mtdparts=m:4k@8k(a),4k@8k(b)")

theorem mtd_run_delete_current :
    Inv (run (step smallNand smallIds) (.start 0)
      [twoAtOnePlace, .partDel .nand 0 0]).1 := by
  have hmeet : StepsMeet (step smallNand smallIds) (Meets smallNand smallIds)
      (.start 0) [twoAtOnePlace, .partDel .nand 0 0] := by
    refine ⟨trivial, ?_, trivial⟩
    intro dev part _ _ hlt
    exact absurd hlt (Nat.not_lt_zero _)
  exact (mtd_run smallNand smallIds 0 _ hmeet).1

/-- Deleting the second of two partitions at one place makes the index of the
first one 255. -/
theorem not_inv_delete_behind :
    ¬ ∀ (flash : Flash) (mtdids : List MtdIds) (brk : ℕ) (ops : List Op),
      Inv (run (step flash mtdids) (.start brk) ops).1 := by
  intro h
  have hinv := h smallNand smallIds 0 [twoAtOnePlace, .partDel .nand 0 1]
  have hrun : (run (step smallNand smallIds) (.start 0)
      [twoAtOnePlace, .partDel .nand 0 1]).1.currentPartnum = 255 ∧
      (run (step smallNand smallIds) (.start 0)
        [twoAtOnePlace, .partDel .nand 0 1]).1.currentDev ≠ none ∧
      ∀ d ∈ (run (step smallNand smallIds) (.start 0)
        [twoAtOnePlace, .partDel .nand 0 1]).1.devices,
        d.parts.length = 1 := by
    decide
  obtain ⟨hindex, hdev, hlength⟩ := hrun
  obtain ⟨a, ha⟩ := Option.ne_none_iff_exists'.mp hdev
  obtain ⟨d, hd, -, hlt⟩ := hinv.index a ha
  rw [hindex, hlength d hd] at hlt
  exact absurd hlt (by decide)

end TateFirmware.Mtd
