import TateFirmware.LibGeneric.CString
import TateFirmware.Support.Memory

/-!
# The identification data in the boot partition

`common/cmd_idme.c` keeps named variables at fixed places behind a magic
number, in an area of 16 KB at the start of the boot partition.  The eMMC
device is its two partitions, the one it gives access to, and a report for
every coming command; when the reports run out the commands complete.  The
device also keeps the history of the blocks written.

The functions of `cpu/omap4/mmc.c` do not tell every error: a command that is
refused returns the low byte of `STAT`, which may be `1` like a success, and a
write that fails in its data phase returns `1`.
-/

namespace TateFirmware.Idme

open LibGeneric Support

/-! ## The device -/

/-- `CONFIG_MMC_BLOCK_SIZE`. -/
def mmcBlockSize : ℕ := 512

inductive Partition where
  | user
  | boot
deriving DecidableEq, Repr

/-- One block stored by the device. -/
structure BlockWrite where
  part : Partition
  block : ℕ
  data : List UInt8

/-- The bytes of both partitions. -/
structure Disk where
  user : Memory UInt8
  boot : Memory UInt8

/-- The bytes of a partition. -/
def Disk.area (disk : Disk) : Partition → Memory UInt8
  | .user => disk.user
  | .boot => disk.boot

/-- Store one block. -/
def Disk.store (disk : Disk) (w : BlockWrite) : Disk :=
  match w.part with
  | .user =>
      { disk with user := disk.user.copyIn (w.block * mmcBlockSize) w.data }
  | .boot =>
      { disk with boot := disk.boot.copyIn (w.block * mmcBlockSize) w.data }

@[simp] theorem store_boot (disk : Disk) (block : ℕ) (data : List UInt8) :
    disk.store ⟨.boot, block, data⟩ =
      ⟨disk.user, disk.boot.copyIn (block * mmcBlockSize) data⟩ := rfl

@[simp] theorem store_user (disk : Disk) (block : ℕ) (data : List UInt8) :
    disk.store ⟨.user, block, data⟩ =
      ⟨disk.user.copyIn (block * mmcBlockSize) data, disk.boot⟩ := rfl

/-- How the data phase of a command ends. -/
inductive DataPhase where
  | done
  /-- With an error: the low byte of `STAT`, and whether the block has gone through the
  data register before. -/
  | failed (stat : UInt8) (moved : Bool)
deriving DecidableEq, Repr

/-- How a command ends: the low byte of `STAT` if it is refused with an error, and its
data phase, if the driver goes on to it.  A card that is not initialised is one whose
commands are refused with `1` and move no block. -/
structure Report where
  refusal : Option UInt8
  data : DataPhase
deriving DecidableEq, Repr

namespace Report

/-- A command that completes. -/
def done : Report := ⟨none, .done⟩

/-- A command that is refused; the error stays in `STAT`. -/
def refused (stat : UInt8) : Report := ⟨some stat, .failed stat false⟩

/-- `mmc_send_cmd` returns `1`. -/
def accepted (r : Report) : Bool := r.refusal.getD 1 = 1

/-- A block goes through the data register. -/
def moves (r : Report) : Bool :=
  r.accepted && match r.data with
    | .done => true
    | .failed _ moved => moved

/-- The value of `omap_mmc_read_sect` for one block. -/
def readStatus (r : Report) : UInt8 :=
  if r.accepted = false then r.refusal.getD 1
  else match r.data with
    | .done => 1
    | .failed stat _ => stat

/-- The command completes or is refused with another value than `1`. -/
def Honest (r : Report) : Prop := r = done ∨ r.accepted = false

instance (r : Report) : Decidable r.Honest := inferInstanceAs (Decidable (_ ∨ _))

theorem done_honest : done.Honest := Or.inl rfl

theorem Honest.eq_done {r : Report} (h : r.Honest) (haccepted : r.accepted = true) :
    r = done := by
  rcases h with rfl | hrefused
  · rfl
  · rw [hrefused] at haccepted
    cases haccepted

theorem moves_of_refused {r : Report} (h : r.accepted = false) : r.moves = false := by
  rw [moves, h, Bool.false_and]

theorem readStatus_of_refused {r : Report} (h : r.accepted = false) :
    r.readStatus ≠ 1 := by
  rw [readStatus, if_pos h]
  simpa [accepted] using h

theorem refusal_of_refused {r : Report} (h : r.accepted = false) : r.refusal ≠ none := by
  intro hnone
  rw [accepted, hnone] at h
  simp at h

theorem Honest.readStatus_eq_one {r : Report} (h : r.Honest) :
    r.readStatus = 1 ↔ r = done := by
  constructor
  · intro hstatus
    apply h.eq_done
    by_contra hrefused
    exact readStatus_of_refused (Bool.eq_false_of_not_eq_true hrefused) hstatus
  · rintro rfl
    rfl

end Report

structure Emmc where
  disk : Disk
  access : Partition
  reports : List Report
  written : List BlockWrite

/-- The report of the coming command. -/
def Emmc.report (dev : Emmc) : Report := dev.reports.headD .done

/-- The device behind a command. -/
def Emmc.next (dev : Emmc) : Emmc := { dev with reports := dev.reports.tail }

/-- `mmc_sw_part`: whether it returns `1`. -/
def mmcSwPart (part : Partition) (dev : Emmc) : Bool × Emmc :=
  (dev.report.accepted,
    { dev.next with
      access := if dev.report.refusal = none then part else dev.access })

/-- `mmc_read` of one block: its value, and the block if it is stored to `dst`. -/
def mmcRead (block : ℕ) (dev : Emmc) : UInt8 × Option (List UInt8) × Emmc :=
  (dev.report.readStatus,
    if dev.report.moves then
      some ((dev.disk.area dev.access).read (block * mmcBlockSize) mmcBlockSize)
    else none,
    dev.next)

/-- `mmc_write` of one block: whether it returns `1`.  An error in the data phase is
not told. -/
def mmcWrite (block : ℕ) (data : List UInt8) (dev : Emmc) : Bool × Emmc :=
  (dev.report.accepted,
    if dev.report.moves then
      { dev.next with
        disk := dev.disk.store ⟨dev.access, block, data⟩
        written := dev.written ++ [⟨dev.access, block, data⟩] }
    else dev.next)

/-! ## The variables -/

/-- `nvram_t`. -/
structure NvramT where
  name : List UInt8
  offset : ℕ
  size : ℕ
deriving DecidableEq, Repr

/-- `IDME_BASE_ADDR`. -/
def idmeBaseAddr : ℕ := 8

/-- `CONFIG_IDME_SIZE`. -/
def configIdmeSize : ℕ := 0x4000

/-- `nvram_info`. -/
def nvramInfo : List NvramT :=
  [⟨text "version", 0, 4⟩,
    ⟨text "boardid", 4, 16⟩,
    ⟨text "serial", 20, 16⟩,
    ⟨text "mac", 36, 16⟩,
    ⟨text "sec", 52, 32⟩,
    ⟨text "bt", 84, 16⟩,
    ⟨text "pid", 0x200, 32⟩,
    ⟨text "pid2", 0x220, 32⟩,
    ⟨text "bootmode", 0x1000, 16⟩,
    ⟨text "postmode", 0x1010, 16⟩,
    ⟨text "gyrocal", 100, 36⟩,
    ⟨text "camcal", 0x1020, 2560⟩,
    ⟨text "mfg", 0x1a20, 512⟩]

/-- `idme_find_var`. -/
def idmeFindVar (name : List UInt8) : Option NvramT :=
  nvramInfo.find? fun nv => nv.name = name

/-! ## Reading and writing the whole area -/

/-- The block the area starts at. -/
def areaBlock : Partition → ℕ
  | .user => 0x80000 / mmcBlockSize
  | .boot => 0

/-- The read loop of `idme_read`, with `n` blocks to go. -/
def readBlocks : ℕ → ℕ → ℕ → Memory UInt8 → Emmc →
    Option (Memory UInt8) × Emmc
  | 0, _, _, pbuf, dev => (some pbuf, dev)
  | n + 1, len, block, pbuf, dev =>
      match mmcRead block dev with
      | (status, data, dev) =>
          let pbuf := data.elim pbuf (pbuf.copyIn len)
          if status ≠ 1 then (none, dev)
          else readBlocks n (len + mmcBlockSize) (block + 1) pbuf dev

attribute [grind =] readBlocks

/-- `idme_read`: `none` is the return value `-1`. -/
def idmeRead (part : Partition) (pbuf : Memory UInt8) (dev : Emmc) :
    Option (Memory UInt8) × Emmc :=
  match part with
  | .user =>
      readBlocks (configIdmeSize / mmcBlockSize) 0 (areaBlock .user) pbuf dev
  | .boot =>
      match mmcSwPart .boot dev with
      | (false, dev) => (none, dev)
      | (true, dev) =>
          let (read, dev) :=
            readBlocks (configIdmeSize / mmcBlockSize) 0 (areaBlock .boot)
              pbuf dev
          match mmcSwPart .user dev with
          | (false, dev) => (none, dev)
          | (true, dev) => (read, dev)

/-- The write loop of `idme_write`, with `n` blocks to go. -/
def writeBlocks (pbuf : Memory UInt8) : ℕ → ℕ → ℕ → Emmc → Bool × Emmc
  | 0, _, _, dev => (true, dev)
  | n + 1, len, block, dev =>
      match mmcWrite block (pbuf.read len mmcBlockSize) dev with
      | (false, dev) => (false, dev)
      | (true, dev) =>
          writeBlocks pbuf n (len + mmcBlockSize) (block + 1) dev

attribute [grind =] writeBlocks

/-- `idme_write`: whether it returns `0`. -/
def idmeWrite (pbuf : Memory UInt8) (part : Partition) (dev : Emmc) :
    Bool × Emmc :=
  match part with
  | .user =>
      writeBlocks pbuf (configIdmeSize / mmcBlockSize) 0 (areaBlock .user) dev
  | .boot =>
      match mmcSwPart .boot dev with
      | (false, dev) => (false, dev)
      | (true, dev) =>
          let (ok, dev) :=
            writeBlocks pbuf (configIdmeSize / mmcBlockSize) 0
              (areaBlock .boot) dev
          match mmcSwPart .user dev with
          | (false, dev) => (false, dev)
          | (true, dev) => (ok, dev)

/-! ## Reading one variable -/

/-- What the readers of a variable return. -/
inductive GetVar where
  /-- The return value `-1`. -/
  | error
  /-- The return value of the failed `mmc_read`. -/
  | failed (status : UInt8)
  /-- A longer buffer is needed. -/
  | tooSmall (needed : ℕ)
  | value (buf : List UInt8)
deriving DecidableEq, Repr

/-- The return value of a reader. -/
def GetVar.ret : GetVar → ℤ
  | .error => -1
  | .failed status => status.toNat
  | .tooSmall needed => needed
  | .value _ => 0

/-- `idme_get_var_ex`. -/
def idmeGetVarEx (pbuf : Memory UInt8) (name : List UInt8) (buflen : ℕ) :
    GetVar :=
  match idmeFindVar name with
  | none => .error
  | some nv =>
      if nv.size + 1 > buflen then .tooSmall (nv.size + 1)
      else .value (pbuf.read nv.offset nv.size)

/-! ## Honest devices -/

/-- No coming command returns `1` without being carried out. -/
def Emmc.Honest (dev : Emmc) : Prop := ∀ r ∈ dev.reports, r.Honest

theorem Emmc.Honest.report {dev : Emmc} (h : dev.Honest) : dev.report.Honest := by
  unfold Emmc.report
  cases hreports : dev.reports with
  | nil => exact Report.done_honest
  | cons r rs => exact h r (by rw [hreports]; exact List.mem_cons_self)

theorem Emmc.Honest.next {dev : Emmc} (h : dev.Honest) : dev.next.Honest :=
  fun r hr => h r (List.mem_of_mem_tail hr)

theorem Emmc.honest_of_reports {dev : Emmc} (h : dev.reports = []) : dev.Honest := by
  intro r hr
  rw [h] at hr
  cases hr

theorem Emmc.report_of_reports {dev : Emmc} (h : dev.reports = []) :
    dev.report = .done := by
  rw [Emmc.report, h]
  rfl

theorem Emmc.next_reports {dev : Emmc} (h : dev.reports = []) :
    dev.next.reports = [] := by
  rw [Emmc.next, h]
  rfl

/-- A command leaves an honest device honest. -/
theorem Emmc.Honest.of_reports {dev dev' : Emmc} (h : dev.Honest)
    (hreports : dev'.reports = dev.reports.tail) : dev'.Honest := by
  intro r hr
  rw [hreports] at hr
  exact h r (List.mem_of_mem_tail hr)

/-! ## What the readers see -/

theorem mmcRead_of_done {block : ℕ} {dev : Emmc} (h : dev.report = .done) :
    mmcRead block dev =
      (1, some ((dev.disk.area dev.access).read (block * mmcBlockSize) mmcBlockSize),
        dev.next) := by
  rw [mmcRead, h]
  rfl

theorem mmcSwPart_of_done {part : Partition} {dev : Emmc} (h : dev.report = .done) :
    mmcSwPart part dev = (true, { dev.next with access := part }) := by
  rw [mmcSwPart, h]
  rfl

theorem mmcSwPart_of_true {part : Partition} {dev dev' : Emmc} (hhonest : dev.Honest)
    (h : mmcSwPart part dev = (true, dev')) :
    dev' = { dev.next with access := part } := by
  have haccepted : dev.report.accepted = true := congrArg Prod.fst h
  rw [mmcSwPart_of_done (hhonest.report.eq_done haccepted)] at h
  exact (Prod.mk.inj h).2.symm

/-- Nothing is written by reading. -/
def Emmc.SameStore (dev dev' : Emmc) : Prop :=
  dev'.disk = dev.disk ∧ dev'.written = dev.written

theorem Emmc.SameStore.trans {dev dev' dev'' : Emmc}
    (h : dev.SameStore dev') (h' : dev'.SameStore dev'') :
    dev.SameStore dev'' :=
  ⟨h'.1.trans h.1, h'.2.trans h.2⟩

theorem next_sameStore (dev : Emmc) : dev.SameStore dev.next := ⟨rfl, rfl⟩

theorem mmcSwPart_sameStore (part : Partition) (dev : Emmc) :
    dev.SameStore (mmcSwPart part dev).2 := ⟨rfl, rfl⟩

theorem readBlocks_sameStore (n len block : ℕ) (pbuf : Memory UInt8)
    (dev : Emmc) : dev.SameStore (readBlocks n len block pbuf dev).2 := by
  induction n generalizing len block pbuf dev with
  | zero => exact ⟨rfl, rfl⟩
  | succ n ih =>
      rw [readBlocks, mmcRead]
      dsimp only
      split
      · exact next_sameStore dev
      · exact (next_sameStore dev).trans (ih _ _ _ _)

theorem readBlocks_honest (n len block : ℕ) (pbuf : Memory UInt8) {dev : Emmc}
    (h : dev.Honest) : (readBlocks n len block pbuf dev).2.Honest := by
  induction n generalizing len block pbuf dev with
  | zero => exact h
  | succ n ih =>
      rw [readBlocks, mmcRead]
      dsimp only
      split
      · exact h.next
      · exact ih _ _ _ h.next

/-- The blocks read stand in the buffer. -/
theorem readBlocks_of_some {n len block : ℕ} {pbuf pbuf' : Memory UInt8}
    {dev dev' : Emmc} (hhonest : dev.Honest)
    (h : readBlocks n len block pbuf dev = (some pbuf', dev')) (k : ℕ) :
    pbuf' k = if len ≤ k ∧ k < len + n * mmcBlockSize then
        dev.disk.area dev.access (block * mmcBlockSize + (k - len))
      else pbuf k := by
  induction n generalizing len block pbuf dev with
  | zero =>
      obtain ⟨hbuf, -⟩ := Prod.mk.inj h
      rw [Option.some.inj hbuf, if_neg (by omega)]
  | succ n ih =>
      rw [readBlocks] at h
      by_cases hdone : dev.report = .done
      · rw [mmcRead_of_done hdone] at h
        simp only [ne_eq, not_true_eq_false, if_false, Option.elim] at h
        have hsize : mmcBlockSize = 512 := rfl
        rw [ih hhonest.next h]
        simp only [Emmc.next, Memory.copyIn, Nat.add_one_mul]
        by_cases hlow : k < len
        · rw [if_neg (by omega), if_pos hlow, if_neg (by omega)]
        · by_cases hfirst : k < len + mmcBlockSize
          · have hlen : k - len <
                ((dev.disk.area dev.access).read (block * mmcBlockSize)
                  mmcBlockSize).length := by
              rw [Memory.read_length]
              omega
            rw [if_neg (by omega), if_neg hlow, if_pos (by omega),
              List.getD_eq_getElem _ _ hlen, Memory.read_getElem]
          · have hlen : ((dev.disk.area dev.access).read
                (block * mmcBlockSize) mmcBlockSize).length ≤ k - len := by
              rw [Memory.read_length]
              omega
            rw [if_neg hlow, List.getD_eq_default _ _ hlen]
            have hplace : block * mmcBlockSize + mmcBlockSize +
                (k - (len + mmcBlockSize)) =
                  block * mmcBlockSize + (k - len) := by omega
            rw [hplace]
            by_cases hlast : k < len + (n * mmcBlockSize + mmcBlockSize)
            · rw [if_pos (by omega), if_pos (by omega)]
            · rw [if_neg (by omega), if_neg (by omega)]
      · have hstatus : dev.report.readStatus ≠ 1 :=
          mt hhonest.report.readStatus_eq_one.mp hdone
        rw [mmcRead] at h
        dsimp only at h
        rw [if_pos hstatus] at h
        cases (Prod.mk.inj h).1

theorem readBlocks_of_reports (n len block : ℕ) (pbuf : Memory UInt8)
    {dev : Emmc} (h : dev.reports = []) :
    ∃ pbuf', (readBlocks n len block pbuf dev).1 = some pbuf' ∧
      (readBlocks n len block pbuf dev).2.reports = [] := by
  induction n generalizing len block pbuf dev with
  | zero => exact ⟨pbuf, rfl, h⟩
  | succ n ih =>
      rw [readBlocks, mmcRead_of_done (Emmc.report_of_reports h)]
      exact ih _ _ _ (Emmc.next_reports h)

theorem readBlocks_access (n len block : ℕ) (pbuf : Memory UInt8)
    (dev : Emmc) : (readBlocks n len block pbuf dev).2.access = dev.access := by
  induction n generalizing len block pbuf dev with
  | zero => rfl
  | succ n ih =>
      rw [readBlocks, mmcRead]
      dsimp only
      split
      · rfl
      · rw [ih]
        rfl

theorem idmeRead_sameStore (part : Partition) (pbuf : Memory UInt8)
    (dev : Emmc) : dev.SameStore (idmeRead part pbuf dev).2 := by
  cases part with
  | user => exact readBlocks_sameStore _ _ _ _ _
  | boot =>
      have hto := mmcSwPart_sameStore .boot dev
      unfold idmeRead
      dsimp only
      split
      · rename_i heq
        rwa [heq] at hto
      · rename_i dev₁ heq
        rw [heq] at hto
        have hread := readBlocks_sameStore (configIdmeSize / mmcBlockSize) 0
          (areaBlock .boot) pbuf dev₁
        have hback := mmcSwPart_sameStore .user
          (readBlocks (configIdmeSize / mmcBlockSize) 0 (areaBlock .boot) pbuf
            dev₁).2
        split
        · rename_i heq'
          rw [heq'] at hback
          exact hto.trans (hread.trans hback)
        · rename_i heq'
          rw [heq'] at hback
          exact hto.trans (hread.trans hback)

theorem mmcSwPart_honest (part : Partition) {dev : Emmc} (h : dev.Honest) :
    (mmcSwPart part dev).2.Honest := h.of_reports rfl

theorem idmeRead_honest (part : Partition) (pbuf : Memory UInt8) {dev : Emmc}
    (h : dev.Honest) : (idmeRead part pbuf dev).2.Honest := by
  cases part with
  | user => exact readBlocks_honest _ _ _ _ h
  | boot =>
      have hto := mmcSwPart_honest .boot h
      unfold idmeRead
      dsimp only
      split
      · rename_i heq
        rwa [heq] at hto
      · rename_i dev₁ heq
        rw [heq] at hto
        have hback := mmcSwPart_honest .user (readBlocks_honest
          (configIdmeSize / mmcBlockSize) 0 (areaBlock .boot) pbuf hto)
        split
        · rename_i heq'
          rwa [heq'] at hback
        · rename_i heq'
          rwa [heq'] at hback

/-- The area read stands in the buffer, and the user partition is accessed
again. -/
theorem idmeRead_of_some {part : Partition} {pbuf pbuf' : Memory UInt8}
    {dev dev' : Emmc} (hhonest : dev.Honest) (haccess : part = .user → dev.access = .user)
    (h : idmeRead part pbuf dev = (some pbuf', dev')) :
    dev'.access = .user ∧ ∀ k, pbuf' k = if k < configIdmeSize then
        dev.disk.area part (areaBlock part * mmcBlockSize + k)
      else pbuf k := by
  have hsize : configIdmeSize / mmcBlockSize * mmcBlockSize =
      configIdmeSize := by decide
  cases part with
  | user =>
      have hread : readBlocks (configIdmeSize / mmcBlockSize) 0
          (areaBlock .user) pbuf dev = (some pbuf', dev') := h
      have hbuf := readBlocks_of_some hhonest hread
      have hacc := readBlocks_access (configIdmeSize / mmcBlockSize) 0
        (areaBlock .user) pbuf dev
      rw [hread] at hacc
      refine ⟨hacc.trans (haccess rfl), ?_⟩
      intro k
      rw [hbuf, hsize, haccess rfl, Nat.sub_zero, Nat.zero_add]
      simp only [Nat.zero_le, true_and]
  | boot =>
      unfold idmeRead at h
      dsimp only at h
      split at h
      · simp at h
      · rename_i dev₁ heq
        have hdev₁ := mmcSwPart_of_true hhonest heq
        have hhonest₁ : dev₁.Honest := hhonest.of_reports (by rw [hdev₁]; rfl)
        split at h
        · simp at h
        · rename_i dev₂ heq'
          obtain ⟨hread, rfl⟩ := Prod.mk.inj h
          refine ⟨?_, ?_⟩
          · rw [mmcSwPart_of_true (readBlocks_honest _ _ _ _ hhonest₁) heq']
          · intro k
            rw [readBlocks_of_some hhonest₁ (Prod.ext hread rfl), hsize, hdev₁,
              Nat.sub_zero, Nat.zero_add]
            simp only [Nat.zero_le, true_and]
            rfl

theorem mmcSwPart_of_reports (part : Partition) {dev : Emmc}
    (h : dev.reports = []) :
    ∃ dev', mmcSwPart part dev = (true, dev') ∧ dev'.reports = [] :=
  ⟨_, mmcSwPart_of_done (Emmc.report_of_reports h), Emmc.next_reports h⟩

/-- A device that answers is read. -/
theorem idmeRead_of_reports (part : Partition) (pbuf : Memory UInt8)
    {dev : Emmc} (h : dev.reports = []) :
    ∃ pbuf' dev', idmeRead part pbuf dev = (some pbuf', dev') ∧
      dev'.reports = [] := by
  cases part with
  | user =>
      obtain ⟨pbuf', hread, hrest⟩ := readBlocks_of_reports
        (configIdmeSize / mmcBlockSize) 0 (areaBlock .user) pbuf h
      exact ⟨pbuf', _, Prod.ext hread rfl, hrest⟩
  | boot =>
      obtain ⟨dev₁, hto, hnext₁⟩ := mmcSwPart_of_reports .boot h
      obtain ⟨pbuf', hread, hrest⟩ := readBlocks_of_reports
        (configIdmeSize / mmcBlockSize) 0 (areaBlock .boot) pbuf hnext₁
      obtain ⟨dev₂, hback, hnext₂⟩ := mmcSwPart_of_reports .user hrest
      unfold idmeRead
      dsimp only
      rw [hto]
      dsimp only
      rw [hback, hread]
      exact ⟨pbuf', dev₂, rfl, hnext₂⟩

end TateFirmware.Idme
