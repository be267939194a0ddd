import TateFirmware.Mtd.SortAdd

/-!
# The invariant of the MTD device list

Every operation keeps the devices sorted, counted and inside their flash, and
the current partition designated by its index, unless the index leaves its
eight bits, the number of partitions its sixteen, or a partition is deleted
that stands behind the current one and starts where it does.
-/

namespace TateFirmware.Mtd

open LibGeneric Support

/-! ## Devices -/

/-- Devices whose records lie at different addresses between `lo` and `hi`. -/
structure DevicesOk (lo hi : ℕ) (devices : List MtdDevice) : Prop where
  device : ∀ d ∈ devices, DeviceOk d
  range : ∀ d ∈ devices, lo ≤ d.addr ∧ d.addr < hi ∧
    ∀ p ∈ d.parts, lo ≤ p.addr ∧ p.addr < hi
  uniqueDevice : ∀ d ∈ devices, ∀ d' ∈ devices, d.addr = d'.addr → d = d'
  uniquePart : ∀ d ∈ devices, ∀ d' ∈ devices, ∀ p ∈ d.parts, ∀ p' ∈ d'.parts,
    p.addr = p'.addr → d = d'

theorem devicesOk_nil (lo hi : ℕ) : DevicesOk lo hi [] := by
  constructor <;> simp

theorem DevicesOk.mono {lo lo' hi hi' : ℕ} {devices : List MtdDevice}
    (h : DevicesOk lo hi devices) (hlo : lo' ≤ lo) (hhi : hi ≤ hi') :
    DevicesOk lo' hi' devices := by
  refine ⟨h.device, ?_, h.uniqueDevice, h.uniquePart⟩
  intro d hd
  obtain ⟨hl, hr, hparts⟩ := h.range d hd
  refine ⟨by omega, by omega, ?_⟩
  intro p hp
  have := hparts p hp
  omega

theorem DevicesOk.subset {lo hi : ℕ} {devices devices' : List MtdDevice}
    (h : DevicesOk lo hi devices) (hsub : devices' ⊆ devices) :
    DevicesOk lo hi devices' where
  device := fun d hd => h.device d (hsub hd)
  range := fun d hd => h.range d (hsub hd)
  uniqueDevice := fun d hd d' hd' => h.uniqueDevice d (hsub hd) d' (hsub hd')
  uniquePart := fun d hd d' hd' => h.uniquePart d (hsub hd) d' (hsub hd')

/-- A device that was allocated behind the others joins them. -/
theorem DevicesOk.append {lo hi hi' : ℕ} {devices : List MtdDevice}
    {dev : MtdDevice} (h : DevicesOk lo hi devices) (hdev : DeviceOk dev)
    (hlo : lo ≤ hi) (haddr : hi ≤ dev.addr ∧ dev.addr < hi')
    (hparts : ∀ p ∈ dev.parts, hi ≤ p.addr ∧ p.addr < hi') :
    DevicesOk lo hi' (devices ++ [dev]) := by
  have hmem : ∀ {d}, d ∈ devices ++ [dev] → d ∈ devices ∨ d = dev := by
    intro d hd
    simpa using hd
  constructor
  · intro d hd
    rcases hmem hd with hin | rfl
    · exact h.device d hin
    · exact hdev
  · intro d hd
    rcases hmem hd with hin | rfl
    · obtain ⟨hl, hr, hps⟩ := h.range d hin
      refine ⟨hl, by omega, ?_⟩
      intro p hp
      have := hps p hp
      omega
    · refine ⟨by omega, haddr.2, ?_⟩
      intro p hp
      have := hparts p hp
      omega
  · intro d hd d' hd' heq
    rcases hmem hd with hin | rfl
    · rcases hmem hd' with hin' | rfl
      · exact h.uniqueDevice d hin d' hin' heq
      · have := (h.range d hin).2.1
        omega
    · rcases hmem hd' with hin' | rfl
      · have := (h.range d' hin').2.1
        omega
      · rfl
  · intro d hd d' hd' p hp p' hp' heq
    rcases hmem hd with hin | rfl
    · rcases hmem hd' with hin' | rfl
      · exact h.uniquePart d hin d' hin' p hp p' hp' heq
      · have := (h.range d hin).2.2 p hp
        have := hparts p' hp'
        omega
    · rcases hmem hd' with hin' | rfl
      · have := (h.range d' hin').2.2 p' hp'
        have := hparts p hp
        omega
      · rfl

/-- A device is written back with other partitions, all of them its own or at
a new address. -/
theorem DevicesOk.put {hi hi' : ℕ} {devices : List MtdDevice}
    {dev dev' : MtdDevice} (h : DevicesOk 0 hi devices) (hdev : dev ∈ devices)
    (hok : DeviceOk dev') (haddr : dev'.addr = dev.addr) (hhi : hi ≤ hi')
    (hparts : ∀ p ∈ dev'.parts, p ∈ dev.parts ∨ p.addr < hi' ∧
      ∀ d ∈ devices, ∀ q ∈ d.parts, q.addr ≠ p.addr) :
    DevicesOk 0 hi'
      (devices.map fun d => if d.addr = dev'.addr then dev' else d) := by
  have hmem : ∀ {d}, d ∈ devices.map
      (fun d => if d.addr = dev'.addr then dev' else d) →
      d = dev' ∨ d ∈ devices ∧ d.addr ≠ dev.addr := by
    intro d hd
    obtain ⟨d₀, hd₀, rfl⟩ := List.mem_map.mp hd
    split
    · exact Or.inl rfl
    · rename_i hne
      exact Or.inr ⟨hd₀, by rwa [haddr] at hne⟩
  have hrange := h.range dev hdev
  constructor
  · intro d hd
    rcases hmem hd with rfl | ⟨hin, -⟩
    · exact hok
    · exact h.device d hin
  · intro d hd
    rcases hmem hd with rfl | ⟨hin, -⟩
    · refine ⟨Nat.zero_le _, by omega, ?_⟩
      intro p hp
      rcases hparts p hp with hp | ⟨hlt, -⟩
      · have := hrange.2.2 p hp
        omega
      · omega
    · obtain ⟨-, hr, hps⟩ := h.range d hin
      refine ⟨Nat.zero_le _, by omega, ?_⟩
      intro p hp
      have := hps p hp
      omega
  · intro d hd d' hd' heq
    rcases hmem hd with rfl | ⟨hin, hne⟩
    · rcases hmem hd' with rfl | ⟨hin', hne'⟩
      · rfl
      · exact absurd (heq.symm.trans haddr) hne'
    · rcases hmem hd' with rfl | ⟨hin', hne'⟩
      · exact absurd (heq.trans haddr) hne
      · exact h.uniqueDevice d hin d' hin' heq
  · have hclash : ∀ {d p p'}, d ∈ devices → d.addr ≠ dev.addr → p ∈ d.parts →
        p' ∈ dev'.parts → p.addr ≠ p'.addr := by
      intro d p p' hd hne hp hp' heq
      rcases hparts p' hp' with hp' | ⟨-, hfresh⟩
      · exact hne (by rw [h.uniquePart d hd dev hdev p hp p' hp' heq])
      · exact hfresh d hd p hp heq
    intro d hd d' hd' p hp p' hp' heq
    rcases hmem hd with rfl | ⟨hin, hne⟩
    · rcases hmem hd' with rfl | ⟨hin', hne'⟩
      · rfl
      · exact absurd heq.symm (hclash hin' hne' hp' hp)
    · rcases hmem hd' with rfl | ⟨hin', hne'⟩
      · exact absurd heq (hclash hin hne hp hp')
      · exact h.uniquePart d hin d' hin' p hp p' hp' heq

/-- The devices of an `mtdparts` string. -/
theorem devicesParse_spec {flash : Flash} {mtdids : List MtdIds} {k lo : ℕ}
    {devices devices' : List MtdDevice} {brk brk' : ℕ} {p : List UInt8}
    (hlength : p.length < 2 ^ 16) (hdevices : DevicesOk lo brk devices)
    (hlo : lo ≤ brk)
    (h : devicesParse flash mtdids k devices brk p = some (devices', brk')) :
    DevicesOk lo brk' devices' ∧ brk ≤ brk' ∧
      (devices ≠ [] ∨ peek p ≠ 0 → devices' ≠ []) := by
  induction k generalizing devices brk p with
  | zero => exact absurd h (by simp [devicesParse])
  | succ k ih =>
      rw [devicesParse] at h
      split at h
      · rename_i hend
        obtain ⟨rfl, rfl⟩ := Prod.mk.inj (Option.some.inj h)
        exact ⟨hdevices, le_refl _, fun hne => hne.resolve_right
          (fun hpeek => hpeek hend)⟩
      · cases hparse : deviceParse flash mtdids devices brk p with
        | none =>
            rw [hparse] at h
            exact absurd h (by simp)
        | some parsed =>
            obtain ⟨dev, ret⟩ := parsed
            rw [hparse] at h
            dsimp only at h
            obtain ⟨hdev, haddr, hparts, hret⟩ :=
              deviceParse_spec hlength hparse
            split at h
            · exact absurd h (by simp)
            · have hdevices' : DevicesOk lo (dev.addr + 1)
                  (devices ++ [dev]) := by
                refine hdevices.append hdev hlo ⟨haddr, by omega⟩ ?_
                intro q hq
                have := hparts q hq
                omega
              obtain ⟨hok, hle, hne⟩ := ih (by omega) hdevices' (by omega) h
              exact ⟨hok, by omega, fun _ => hne (Or.inl (by simp))⟩

theorem find_device {lo hi : ℕ} {devices : List MtdDevice} {dev : MtdDevice}
    (h : DevicesOk lo hi devices) (hdev : dev ∈ devices) :
    devices.find? (fun d => d.addr = dev.addr) = some dev := by
  cases hfind : devices.find? (fun d => d.addr = dev.addr) with
  | none =>
      have := List.find?_eq_none.mp hfind dev hdev
      simp at this
  | some d =>
      have haddr : d.addr = dev.addr := by
        simpa using List.find?_some hfind
      rw [h.uniqueDevice d (List.mem_of_find?_eq_some hfind) dev hdev haddr]

/-! ## The invariant -/

/-- What holds of the device list and the current partition. -/
structure Inv (m : MtdState) : Prop where
  devices : DevicesOk 0 m.brk m.devices
  current : m.currentDev = none ↔ m.devices = []
  index : ∀ a, m.currentDev = some a →
    ∃ d ∈ m.devices, d.addr = a ∧ m.currentPartnum < d.parts.length
  partnum_lt : m.currentPartnum < 2 ^ 8

/-- The current partition is still the current one, unless it is gone; then
the index is zero. -/
def Kept (m m' : MtdState) : Prop :=
  ∀ p, m.currentPart = some p →
    ((∃ d ∈ m'.devices, p ∈ d.parts) → m'.currentPart = some p) ∧
      ((∀ d ∈ m'.devices, p ∉ d.parts) → m'.devices ≠ [] →
        m'.currentPartnum = 0)

theorem inv_indexPartitions {m : MtdState} (h : Inv m) :
    Inv (indexPartitions m) :=
  ⟨h.devices, h.current, h.index, h.partnum_lt⟩

theorem inv_currentSave {m : MtdState} (h : Inv m) : Inv (currentSave m) :=
  ⟨h.devices, h.current, h.index, h.partnum_lt⟩

theorem inv_start (brk : ℕ) : Inv (.start brk) where
  devices := devicesOk_nil _ _
  current := by simp [MtdState.start]
  index := by simp [MtdState.start]
  partnum_lt := by simp [MtdState.start]

theorem currentPart_cases {m : MtdState} {p : PartInfo}
    (h : m.currentPart = some p) :
    ∃ d ∈ m.devices, m.currentDev = some d.addr ∧
      d.parts[m.currentPartnum]? = some p := by
  obtain ⟨d, hdev, hpart⟩ := Option.bind_eq_some_iff.mp h
  obtain ⟨a, hcur, hfind⟩ := Option.bind_eq_some_iff.mp hdev
  have haddr : d.addr = a := by simpa using List.find?_some hfind
  refine ⟨d, List.mem_of_find?_eq_some hfind, by rw [haddr]; exact hcur, ?_⟩
  unfold jffs2PartInfo at hpart
  split at hpart
  · exact hpart
  · exact absurd hpart (by simp)

theorem kept_of {m m' : MtdState}
    (h : ∀ p, m.currentPart = some p → m'.currentPart = some p ∨
      (∀ d ∈ m'.devices, p ∉ d.parts) ∧
        (m'.devices ≠ [] → m'.currentPartnum = 0)) : Kept m m' := by
  intro p hp
  rcases h p hp with hsame | ⟨hgone, hzero⟩
  · refine ⟨fun _ => hsame, fun hgone => ?_⟩
    obtain ⟨d, hd, -, hget⟩ := currentPart_cases hsame
    exact absurd (List.mem_of_getElem? hget) (hgone d hd)
  · refine ⟨?_, fun _ => hzero⟩
    rintro ⟨d, hd, hmem⟩
    exact absurd hmem (hgone d hd)

theorem Kept.refl (m : MtdState) : Kept m m := kept_of fun _ hp => Or.inl hp

/-- The current partition of a state, found by the current device and index. -/
theorem Inv.currentPart_eq {m : MtdState} (h : Inv m) {d : MtdDevice}
    (hd : d ∈ m.devices) (hcur : m.currentDev = some d.addr) :
    m.currentPart = d.parts[m.currentPartnum]? := by
  have hlt : m.currentPartnum < d.numParts := by
    obtain ⟨d', hd', haddr, hlt⟩ := h.index _ hcur
    obtain rfl := h.devices.uniqueDevice d' hd' d hd haddr
    rw [(h.devices.device d' hd').counted]
    exact hlt
  unfold MtdState.currentPart MtdState.currentDevice
  rw [hcur, Option.bind_some, find_device h.devices hd, Option.bind_some,
    jffs2PartInfo, if_pos hlt]

/-! ## Writing a device back -/

theorem mem_putDevice {m : MtdState} {dev dev' : MtdDevice}
    (hdev : dev ∈ m.devices) (haddr : dev'.addr = dev.addr) :
    dev' ∈ (m.putDevice dev').devices :=
  List.mem_map.mpr ⟨dev, hdev, if_pos haddr.symm⟩

theorem mem_putDevice_of_ne {m : MtdState} {d dev' : MtdDevice}
    (hd : d ∈ m.devices) (hne : d.addr ≠ dev'.addr) :
    d ∈ (m.putDevice dev').devices :=
  List.mem_map.mpr ⟨d, hd, if_neg hne⟩

/-- The invariant after a device has been written back and the index set. -/
theorem Inv.put {m : MtdState} {dev dev' : MtdDevice} {n : ℕ} (h : Inv m)
    (hdev : dev ∈ m.devices) (hok : DeviceOk dev')
    (haddr : dev'.addr = dev.addr)
    (hparts : ∀ p ∈ dev'.parts, p ∈ dev.parts ∨ p.addr < m.brk ∧
      ∀ d ∈ m.devices, ∀ q ∈ d.parts, q.addr ≠ p.addr)
    (hn : n < 2 ^ 8)
    (hcur : m.currentDev = some dev.addr → n < dev'.parts.length)
    (hother : m.currentDev ≠ some dev.addr → n = m.currentPartnum) :
    Inv { m.putDevice dev' with currentPartnum := n } where
  devices := h.devices.put hdev hok haddr (le_refl _) hparts
  current := by
    show m.currentDev = none ↔ m.devices.map _ = []
    rw [h.current, List.map_eq_nil_iff]
  index := by
    intro a ha
    obtain ⟨d, hd, rfl, hlt⟩ := h.index a ha
    by_cases hsame : d.addr = dev.addr
    · obtain rfl := h.devices.uniqueDevice d hd dev hdev hsame
      exact ⟨dev', mem_putDevice hdev haddr, haddr, hcur ha⟩
    · have hne : m.currentDev ≠ some dev.addr := by
        rw [show m.currentDev = some d.addr from ha]
        simpa using hsame
      refine ⟨d, mem_putDevice_of_ne hd (by rwa [haddr]), rfl, ?_⟩
      show n < d.parts.length
      rw [hother hne]
      exact hlt
  partnum_lt := hn

/-- What is current after a device has been written back. -/
theorem currentPart_put {m : MtdState} {dev dev' : MtdDevice} {n : ℕ}
    (h : Inv m) (hdev : dev ∈ m.devices) (haddr : dev'.addr = dev.addr)
    (hput : Inv { m.putDevice dev' with currentPartnum := n })
    (hother : m.currentDev ≠ some dev.addr → n = m.currentPartnum) :
    (MtdState.currentPart { m.putDevice dev' with currentPartnum := n }) =
      if m.currentDev = some dev.addr then dev'.parts[n]?
      else m.currentPart := by
  split
  · rename_i hcur
    exact hput.currentPart_eq (mem_putDevice hdev haddr)
      (hcur.trans (by rw [haddr]))
  · rename_i hcur
    cases hnone : m.currentDev with
    | none =>
        unfold MtdState.currentPart MtdState.currentDevice
        simp only [MtdState.putDevice, hnone, Option.bind_none]
    | some a =>
        obtain ⟨d, hd, rfl, hlt⟩ := h.index a hnone
        have hne : d.addr ≠ dev'.addr := by
          rw [haddr]
          rintro heq
          exact hcur (by rw [hnone, heq])
        rw [h.currentPart_eq hd hnone,
          hput.currentPart_eq (mem_putDevice_of_ne hd hne) hnone]
        show d.parts[n]? = _
        rw [hother hcur]

/-- Writing a device back keeps the invariant and the current partition, when
the index still finds it, or is zero and the partition is gone. -/
theorem put_step {m : MtdState} {dev dev' : MtdDevice} {n : ℕ} (h : Inv m)
    (hdev : dev ∈ m.devices) (hok : DeviceOk dev')
    (haddr : dev'.addr = dev.addr)
    (hparts : ∀ p ∈ dev'.parts, p ∈ dev.parts ∨ p.addr < m.brk ∧
      ∀ d ∈ m.devices, ∀ q ∈ d.parts, q.addr ≠ p.addr)
    (hn : n < 2 ^ 8)
    (hother : m.currentDev ≠ some dev.addr → n = m.currentPartnum)
    (hcur : ∀ curr, m.currentDev = some dev.addr →
      m.currentPart = some curr →
      dev'.parts[n]? = some curr ∨ curr ∉ dev'.parts ∧ n = 0) :
    Inv { m.putDevice dev' with currentPartnum := n } ∧
      Kept m { m.putDevice dev' with currentPartnum := n } := by
  have hcurr : m.currentDev = some dev.addr →
      ∃ curr ∈ dev.parts, m.currentPart = some curr := by
    intro hdevcur
    obtain ⟨d, hd, hdaddr, hlt⟩ := h.index _ hdevcur
    obtain rfl := h.devices.uniqueDevice d hd dev hdev hdaddr
    refine ⟨d.parts[m.currentPartnum], List.getElem_mem hlt, ?_⟩
    rw [h.currentPart_eq hd hdevcur, List.getElem?_eq_getElem hlt]
  have hput : Inv { m.putDevice dev' with currentPartnum := n } := by
    apply h.put hdev hok haddr hparts hn _ hother
    intro hdevcur
    obtain ⟨curr, -, hpart⟩ := hcurr hdevcur
    rcases hcur curr hdevcur hpart with hget | ⟨-, rfl⟩
    · exact (List.getElem?_eq_some_iff.mp hget).1
    · exact List.length_pos_of_ne_nil hok.nonempty
  refine ⟨hput, kept_of ?_⟩
  intro p hp
  rw [currentPart_put h hdev haddr hput hother]
  split
  · rename_i hdevcur
    rcases hcur p hdevcur hp with hget | ⟨hgone, hzero⟩
    · exact Or.inl hget
    · refine Or.inr ⟨?_, fun _ => hzero⟩
      obtain ⟨curr, hmem, hpart⟩ := hcurr hdevcur
      obtain rfl : p = curr := Option.some.inj (hp.symm.trans hpart)
      intro d hd hpd
      obtain ⟨d₀, hd₀, rfl⟩ := List.mem_map.mp hd
      split at hpd
      · exact hgone hpd
      · rename_i hne
        have := h.devices.uniquePart d₀ hd₀ dev hdev p hpd p hmem rfl
        rw [this, haddr] at hne
        exact hne rfl
  · exact Or.inl hp

/-! ## Adding a partition -/

theorem sortInsert_none_up {new : PartInfo} {parts parts' : List PartInfo}
    {up : Bool} (h : sortInsert none new parts = some (parts', up)) :
    up = false := by
  induction parts generalizing parts' up with
  | nil => exact (Prod.mk.inj (Option.some.inj h)).2.symm
  | cons pi ps ih =>
      rw [sortInsert] at h
      split at h
      · exact absurd h (by simp)
      · split at h
        · exact (Prod.mk.inj (Option.some.inj h)).2.symm
        · obtain ⟨⟨qs, up'⟩, hqs, heq⟩ := Option.map_eq_some_iff.mp h
          rw [← (Prod.mk.inj heq).2]
          exact ih hqs

/-- A partition that is accepted finds room: the number of partitions stays in
sixteen bits, and the current index in eight if it goes up. -/
def PartAddMeets (flash : Flash) (m : MtdState) (dev : MtdDevice)
    (part : PartInfo) : Prop :=
  ∀ new, partValidate flash dev.id part = some new →
    ¬ SecondAtZero new dev.parts →
    dev.parts.length + 1 < 2 ^ 16 ∧
      (m.currentDev = some dev.addr → ∀ curr, m.currentPart = some curr →
        new.offset ≤ curr.offset → m.currentPartnum + 1 < 2 ^ 8)

theorem Inv.currPi_eq {m : MtdState} (h : Inv m) {dev : MtdDevice}
    (hdev : dev ∈ m.devices) :
    m.currPi dev = if m.currentDev = some dev.addr then m.currentPart
      else none := by
  unfold MtdState.currPi
  split
  · rename_i hcur
    unfold MtdState.currentPart MtdState.currentDevice
    rw [hcur, Option.bind_some, find_device h.devices hdev, Option.bind_some]
  · rfl

/-- The device with a partition inserted. -/
theorem deviceOk_insert {m : MtdState} {dev : MtdDevice} {new : PartInfo}
    {parts : List PartInfo} {up : Bool} {currPi : Option PartInfo}
    (hok : DeviceOk dev) (hdev : dev ∈ m.devices)
    (hinside : Inside dev.id new)
    (hfresh : ∀ d ∈ m.devices, ∀ q ∈ d.parts, q.addr ≠ new.addr)
    (hroom : dev.parts.length + 1 < 2 ^ 16)
    (hinsert : sortInsert currPi new dev.parts = some (parts, up)) :
    DeviceOk { dev with
      numParts := (dev.numParts + 1) % 2 ^ 16, parts := parts } := by
  have hperm := sortInsert_perm hinsert
  constructor
  · exact sortInsert_sorted hok.sorted hinsert
  · show (dev.numParts + 1) % 2 ^ 16 = parts.length
    rw [hperm.length_eq, List.length_cons, hok.counted]
    exact Nat.mod_eq_of_lt hroom
  · show parts.length < 2 ^ 16
    rw [hperm.length_eq, List.length_cons]
    exact hroom
  · rintro rfl
    exact absurd hperm.symm.eq_nil (by simp)
  · intro q hq
    rcases List.mem_cons.mp (hperm.subset hq) with rfl | hq
    · exact hinside
    · exact hok.inside q hq
  · show (parts.map PartInfo.addr).Nodup
    rw [(hperm.map PartInfo.addr).nodup_iff, List.map_cons]
    refine List.nodup_cons.mpr ⟨?_, hok.distinct⟩
    intro hmem
    obtain ⟨q, hq, heq⟩ := List.mem_map.mp hmem
    exact hfresh dev hdev q hq heq

theorem partAdd_step {flash : Flash} {m : MtdState} {dev : MtdDevice}
    {part : PartInfo} (h : Inv m) (hdev : dev ∈ m.devices)
    (haddr : part.addr < m.brk)
    (hfresh : ∀ d ∈ m.devices, ∀ q ∈ d.parts, q.addr ≠ part.addr)
    (hsize : part.size < 2 ^ 32) (hmeets : PartAddMeets flash m dev part) :
    Inv (partAdd flash m dev part).1 ∧ Kept m (partAdd flash m dev part).1 := by
  have hok := h.devices.device dev hdev
  unfold partAdd
  cases hvalid : partValidate flash dev.id part with
  | none => exact ⟨h, Kept.refl m⟩
  | some new =>
      dsimp only
      obtain ⟨hinside, hnewaddr, -⟩ := partValidate_spec hsize hvalid
      rw [← hnewaddr] at haddr hfresh
      cases hadd : partSortAdd (m.currPi dev) dev new with
      | none => exact ⟨h, Kept.refl m⟩
      | some added =>
          obtain ⟨⟨parts, up⟩, hinsert, rfl⟩ := Option.map_eq_some_iff.mp hadd
          have hzero : ¬ SecondAtZero new dev.parts := by
            rw [← sortInsert_eq_none_iff hok.sorted, hinsert]
            simp
          obtain ⟨hroom, hbound⟩ := hmeets new hvalid hzero
          have hdev' := deviceOk_insert hok hdev hinside hfresh hroom hinsert
          have hother : m.currentDev ≠ some dev.addr → up = false := by
            intro hne
            rw [h.currPi_eq hdev, if_neg hne] at hinsert
            exact sortInsert_none_up hinsert
          have hstep : Inv { m.putDevice { dev with
                numParts := (dev.numParts + 1) % 2 ^ 16, parts := parts } with
                currentPartnum := if up then (m.currentPartnum + 1) % 2 ^ 8
                  else m.currentPartnum } ∧
              Kept m { m.putDevice { dev with
                numParts := (dev.numParts + 1) % 2 ^ 16, parts := parts } with
                currentPartnum := if up then (m.currentPartnum + 1) % 2 ^ 8
                  else m.currentPartnum } := by
            apply put_step h hdev hdev' rfl
            · intro q hq
              rcases List.mem_cons.mp ((sortInsert_perm hinsert).subset hq) with
                rfl | hq
              · exact Or.inr ⟨haddr, hfresh⟩
              · exact Or.inl hq
            · have := h.partnum_lt
              split
              · exact Nat.mod_lt _ (by decide)
              · exact this
            · intro hne
              rw [hother hne]
              rfl
            · intro curr hcur hcurr
              rw [h.currPi_eq hdev, if_pos hcur, hcurr] at hinsert
              have hindex := hcurr
              rw [h.currentPart_eq hdev hcur] at hindex
              have hget := sortInsert_getElem hok.sorted hindex hinsert
              have hup := sortInsert_up hok.sorted
                (List.mem_of_getElem? hindex) hinsert
              left
              cases up with
              | false => exact hget
              | true =>
                  have hlt := hbound hcur curr hcurr
                    (of_decide_eq_true hup.symm)
                  rw [if_pos rfl, Nat.mod_eq_of_lt hlt]
                  exact hget
          cases up with
          | false =>
              exact ⟨inv_indexPartitions hstep.1, hstep.2⟩
          | true =>
              exact ⟨inv_currentSave hstep.1, hstep.2⟩

/-! ## Deleting a partition -/

/-- No partition is deleted that stands behind the current one and starts where
it does. -/
def PartDelMeets (m : MtdState) (dev : MtdDevice) (pnum : ℕ)
    (part : PartInfo) : Prop :=
  m.currentDev = some dev.addr → m.currentPartnum < pnum →
    ∀ curr, m.currentPart = some curr → part.offset ≠ curr.offset

theorem mem_without {devices : List MtdDevice} {a : ℕ} {d : MtdDevice} :
    d ∈ devices.filter (fun d => d.addr ≠ a) ↔ d ∈ devices ∧ d.addr ≠ a := by
  simp

/-- Deleting a device, also one that is not in the list. -/
theorem deviceDel_step {m : MtdState} (h : Inv m) (dev : MtdDevice) :
    Inv (deviceDel m dev) ∧ Kept m (deviceDel m dev) := by
  have hsub : m.devices.filter (fun d => d.addr ≠ dev.addr) ⊆ m.devices :=
    fun d hd => (mem_without.mp hd).1
  have hdevices := h.devices.subset hsub
  have hgone : ∀ p, m.currentPart = some p → m.currentDev = some dev.addr →
      ∀ d ∈ m.devices.filter (fun d => d.addr ≠ dev.addr), p ∉ d.parts := by
    intro p hp hcur d hd hmem
    obtain ⟨d₀, hd₀, hcur₀, hget⟩ := currentPart_cases hp
    obtain ⟨hd, hne⟩ := mem_without.mp hd
    have := h.devices.uniquePart d hd d₀ hd₀ p hmem p
      (List.mem_of_getElem? hget) rfl
    subst this
    exact hne (Option.some.inj (hcur₀.symm.trans hcur))
  unfold deviceDel
  split
  · rename_i hcur
    cases hrest : m.devices.filter (fun d => d.addr ≠ dev.addr) with
    | nil =>
        refine ⟨inv_currentSave ⟨?_, ?_, ?_, h.partnum_lt⟩, kept_of ?_⟩
        · exact devicesOk_nil _ _
        · simp
        · simp
        · intro p hp
          exact Or.inr ⟨fun d hd => absurd hd (List.not_mem_nil),
            fun hne => absurd rfl hne⟩
    | cons d ds =>
        rw [hrest] at hdevices hgone
        refine ⟨inv_currentSave ⟨hdevices, by simp, ?_,
          (by decide : 0 < 2 ^ 8)⟩, kept_of ?_⟩
        · intro a ha
          refine ⟨d, by simp, Option.some.inj ha, ?_⟩
          exact List.length_pos_of_ne_nil
            (hdevices.device d (by simp)).nonempty
        · intro p hp
          exact Or.inr ⟨hgone p hp hcur, fun _ => rfl⟩
  · rename_i hcur
    have hkeep : ∀ d ∈ m.devices, m.currentDev = some d.addr →
        d ∈ m.devices.filter (fun d => d.addr ≠ dev.addr) := by
      intro d hd hdcur
      refine mem_without.mpr ⟨hd, ?_⟩
      intro heq
      exact hcur (by rw [hdcur, heq])
    have hinv : Inv { m with
        devices := m.devices.filter fun d => d.addr ≠ dev.addr } := by
      refine ⟨hdevices, ?_, ?_, h.partnum_lt⟩
      · rw [h.current]
        constructor
        · intro hnil
          show m.devices.filter _ = []
          rw [hnil, List.filter_nil]
        · intro hnil
          by_contra hne
          obtain ⟨a, ha⟩ := Option.ne_none_iff_exists'.mp
            (fun hnone => hne (h.current.mp hnone))
          obtain ⟨d, hd, rfl, -⟩ := h.index a ha
          have := hkeep d hd ha
          rw [show m.devices.filter _ = [] from hnil] at this
          exact absurd this (List.not_mem_nil)
      · intro a ha
        obtain ⟨d, hd, rfl, hlt⟩ := h.index a ha
        exact ⟨d, hkeep d hd ha, rfl, hlt⟩
    refine ⟨inv_indexPartitions hinv, kept_of ?_⟩
    intro p hp
    obtain ⟨d, hd, hdcur, hget⟩ := currentPart_cases hp
    exact Or.inl ((hinv.currentPart_eq (hkeep d hd hdcur) hdcur).trans hget)

theorem deviceOk_erase {dev : MtdDevice} {part : PartInfo} (hok : DeviceOk dev)
    (hpart : part ∈ dev.parts) (hne : dev.numParts ≠ 1) :
    DeviceOk { dev with
      numParts := (dev.numParts + (2 ^ 16 - 1)) % 2 ^ 16
      parts := dev.parts.erase part } := by
  have hlength := List.length_erase_of_mem hpart
  have hpos := List.length_pos_of_mem hpart
  have hcount := hok.counted
  have hlen := hok.count_lt
  constructor
  · exact hok.sorted.sublist List.erase_sublist
  · show (dev.numParts + (2 ^ 16 - 1)) % 2 ^ 16 = (dev.parts.erase part).length
    omega
  · show (dev.parts.erase part).length < 2 ^ 16
    omega
  · intro hnil
    have hzero : (dev.parts.erase part).length = 0 := by
      rw [show dev.parts.erase part = [] from hnil, List.length_nil]
    omega
  · intro q hq
    exact hok.inside q (List.mem_of_mem_erase hq)
  · exact hok.distinct.sublist (List.erase_sublist.map _)

/-- Where the current partition stands after another one has been deleted. -/
theorem erase_getElem_current {parts : List PartInfo} {part curr : PartInfo}
    {i j : ℕ} (hsorted : Sorted parts) (hnodup : parts.Nodup)
    (hi : parts[i]? = some part) (hj : parts[j]? = some curr)
    (hne : curr ≠ part) (hbehind : j < i → part.offset ≠ curr.offset) :
    (parts.erase part)[if part.offset ≤ curr.offset then j - 1 else j]? =
      some curr ∧ (part.offset ≤ curr.offset → 0 < j) := by
  obtain ⟨hilt, hieq⟩ := List.getElem?_eq_some_iff.mp hi
  obtain ⟨hjlt, hjeq⟩ := List.getElem?_eq_some_iff.mp hj
  have herase : parts.erase part = parts.eraseIdx i := by
    rw [← hieq]
    exact hnodup.erase_getElem i hilt
  have hij : i ≠ j := by
    rintro rfl
    exact hne (hjeq.symm.trans hieq)
  have horder := List.pairwise_iff_getElem.mp hsorted
  rw [herase]
  rcases Nat.lt_or_gt_of_ne hij with hlt | hgt
  · have hle : part.offset ≤ curr.offset := by
      have := horder i j hilt hjlt hlt
      rwa [hieq, hjeq] at this
    rw [if_pos hle, List.getElem?_eraseIdx_of_ge (by omega),
      Nat.sub_add_cancel (by omega)]
    exact ⟨hj, fun _ => by omega⟩
  · have hnle : ¬ part.offset ≤ curr.offset := by
      have hle := horder j i hjlt hilt hgt
      rw [hieq, hjeq] at hle
      have := hbehind hgt
      omega
    rw [if_neg hnle, List.getElem?_eraseIdx_of_lt hgt]
    exact ⟨hj, fun hle => absurd hle hnle⟩

theorem partDel_step {m : MtdState} {dev : MtdDevice} {part : PartInfo}
    {pnum : ℕ} (h : Inv m) (hdev : dev ∈ m.devices)
    (hpart : dev.parts[pnum]? = some part)
    (hmeets : PartDelMeets m dev pnum part) :
    Inv (partDel m dev part) ∧ Kept m (partDel m dev part) := by
  have hok := h.devices.device dev hdev
  have hmem := List.mem_of_getElem? hpart
  unfold partDel
  split
  · exact deviceDel_step h dev
  · rename_i hone
    have hdev' := deviceOk_erase hok hmem hone
    have hparts : ∀ q ∈ dev.parts.erase part, q ∈ dev.parts ∨
        q.addr < m.brk ∧ ∀ d ∈ m.devices, ∀ r ∈ d.parts, r.addr ≠ q.addr :=
      fun q hq => Or.inl (List.mem_of_mem_erase hq)
    rw [h.currPi_eq hdev]
    by_cases hcur : m.currentDev = some dev.addr
    · rw [if_pos hcur]
      obtain ⟨d, hd, hdaddr, hlt⟩ := h.index _ hcur
      obtain rfl := h.devices.uniqueDevice d hd dev hdev hdaddr
      have hget := List.getElem?_eq_getElem hlt
      have hcurr := h.currentPart_eq hd hcur
      rw [hget] at hcurr
      rw [hcurr]
      dsimp only
      have hbound := h.partnum_lt
      have hstep := put_step (n := if d.parts[m.currentPartnum] = part then 0
          else if part.offset ≤ d.parts[m.currentPartnum].offset then
            (m.currentPartnum + (2 ^ 8 - 1)) % 2 ^ 8
          else m.currentPartnum) h hdev hdev' rfl hparts
        (by split_ifs <;> omega) (fun hne => absurd hcur hne) (by
          intro curr _ hpartcurr
          obtain rfl : d.parts[m.currentPartnum] = curr :=
            Option.some.inj (hcurr.symm.trans hpartcurr)
          by_cases hsame : d.parts[m.currentPartnum] = part
          · right
            rw [if_pos hsame, hsame]
            exact ⟨hok.nodup.not_mem_erase, rfl⟩
          · left
            obtain ⟨hindex, hpos⟩ := erase_getElem_current hok.sorted hok.nodup
              hpart hget hsame
              (fun hbehind => hmeets hcur hbehind _ hpartcurr)
            rw [if_neg hsame]
            convert hindex using 2
            split_ifs with hle
            · have := hpos hle
              omega
            · rfl)
      exact ⟨inv_currentSave hstep.1, hstep.2⟩
    · rw [if_neg hcur]
      have hstep := put_step (n := m.currentPartnum) h hdev hdev' rfl hparts
        h.partnum_lt (fun _ => rfl) (fun _ hcur' => absurd hcur' hcur)
      exact ⟨inv_indexPartitions hstep.1, hstep.2⟩

end TateFirmware.Mtd
