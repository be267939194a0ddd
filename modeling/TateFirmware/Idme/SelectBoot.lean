import TateFirmware.Idme.UpdateRecord
import TateFirmware.Idme.UpdateVar
import TateFirmware.Support.Records

/-!
# Selecting the image to boot

`idmeSelectBootImage` reads the boot area, copies it to the user area, stores the
boot count and takes back a boot mode that is meant for one boot.  An area without
the magic number is first filled with defaults.  The module describes the disk it
leaves behind, on a device whose commands complete or are refused with another
value than `1`.
-/

namespace TateFirmware.Idme

open LibGeneric Support

/-! ## The selection -/

/-- `IDME_VERSION_STR`. -/
def idmeVersionStr : List UInt8 := text "1.2"

/-- `nvram_info[i].offset`. -/
def nvramOffset (i : ℕ) : ℕ := (nvramInfo.map NvramT.offset).getD i 0

/-- The loop body of `idme_generate_default_vars`. -/
def defaultVar (pbuf : Memory UInt8) (nv : NvramT) : Memory UInt8 :=
  if strncmp nv.name (text "bootmode") 8 = 0 then
    pbuf.copyIn (idmeBaseAddr + nv.offset) (text "2")
  else if strncmp nv.name (text "postmode") 8 = 0 then
    pbuf.fill (idmeBaseAddr + nv.offset) nv.size 0
  else pbuf.fill (idmeBaseAddr + nv.offset) nv.size (ch '0')

/-- `idme_generate_default_vars`. -/
def idmeGenerateDefaultVars (pbuf : Memory UInt8) : Memory UInt8 :=
  let pbuf := pbuf.fill 0 configIdmeSize 0
  let pbuf := pbuf.copyIn 0 idmeMagicNumber
  let pbuf := pbuf.copyIn (idmeBaseAddr + nvramOffset 0) idmeVersionStr
  let pbuf := pbuf.copyIn (idmeBaseAddr + nvramOffset 1) (text "0000400000000000")
  (nvramInfo.drop 2).foldl defaultVar pbuf

/-- The locals of `idme_select_boot_image` with the state they act on.  The array
`bootmode` is the memory from its first byte on, as its last store is behind its
end. -/
structure Selection where
  st : IdmeState
  buffer : Memory UInt8
  bootmode : Memory UInt8

/-- The loop body of `idme_select_boot_image`.  The boot count read is only
printed. -/
def selectVar (s : Selection) (nv : NvramT) : Selection :=
  let p := idmeBaseAddr + nv.offset
  if strncmp nv.name (text "bootmode") 8 = 0 then
    { s with
      bootmode := (s.bootmode.copyIn 0 (s.buffer.read p nv.size)).store
        (nv.size + 1) 0 }
  else if strncmp nv.name (text "postmode") 8 = 0 then
    let buffer := s.buffer.copyIn p (leBytes 1)
    -- the value is the string at `p`
    let value := cstr (buffer.read p (configIdmeSize - p))
    { s with
      buffer := buffer
      st := (idmeUpdateVar (text "postmode") (some value) s.st).2 }
  else s

/-- The `switch` on the boot mode: the partition to boot and the state behind. -/
def selectMode (ptn : List UInt8) (s : Selection) : List UInt8 × IdmeState :=
  if s.bootmode 0 = ch '1' then (ptn, s.st)
  else if s.bootmode 0 = ch '2' then (text "dkernel", s.st)
  else if s.bootmode 0 = ch '3' then (text "recovery", s.st)
  else if s.bootmode 0 = ch '6' then (text "dkernel", s.st)
  else if s.bootmode 0 = ch '7' then
    (text "recovery", (idmeUpdateVar (text "bootmode") (some (text "1")) s.st).2)
  else (ptn, s.st)

/-- The pins of the volume keys, `0` while the key is pressed. -/
structure Keys where
  volUp : ℤ
  volDown : ℤ

/-- `idme_select_bootmode_by_key`. -/
def idmeSelectBootmodeByKey (keys : Keys) (ptn : List UInt8) : List UInt8 :=
  if keys.volUp = 0 ∧ keys.volDown ≠ 0 then text "recovery" else ptn

/-- `idme_select_boot_image` behind its read.  The cells of `bootmode` are those
of the stack. -/
def selectFrom (keys : Keys) (stack : Memory UInt8) (ptn : List UInt8)
    (buffer : Memory UInt8) (st : IdmeState) : List UInt8 × IdmeState :=
  let dev := (idmeWrite buffer .user st.dev).2
  let s := nvramInfo.foldl selectVar
    ⟨{ st with dev := dev }, buffer, stack.fill 0 16 0⟩
  let (ptn, st) := selectMode ptn s
  (idmeSelectBootmodeByKey keys ptn, st)

/-- `idme_select_boot_image`: `none` is the return value `-1`. -/
def idmeSelectBootImage (keys : Keys) (stack : Memory UInt8) (ptn : List UInt8)
    (st : IdmeState) : Option (List UInt8) × IdmeState :=
  match idmeRead .boot (fun _ => 0) st.dev with
  | (none, dev) => (none, { st with dev := dev })
  | (some buffer, dev) =>
      if buffer.read 0 idmeMagicNumber.length ≠ idmeMagicNumber then
        let buffer := idmeGenerateDefaultVars buffer
        let dev := (idmeWrite buffer .boot dev).2
        let (ptn, st) := selectFrom keys stack ptn buffer { st with dev := dev }
        (some ptn, st)
      else
        let (ptn, st) := selectFrom keys stack ptn buffer { st with dev := dev }
        (some ptn, st)

/-! ## What the selection is for -/

/-- `nvram_info` of the boot mode. -/
def bootmodeInfo : NvramT := ⟨text "bootmode", 0x1000, 16⟩

/-- `nvram_info` of the boot count. -/
def postmodeInfo : NvramT := ⟨text "postmode", 0x1010, 16⟩

/-- Where a variable starts in the boot partition. -/
def NvramT.start (nv : NvramT) : ℕ := idmeBaseAddr + nv.offset

/-- A place in the boot partition that belongs to a variable. -/
def NvramT.Contains (nv : NvramT) (k : ℕ) : Prop :=
  nv.start ≤ k ∧ k < nv.start + nv.size

/-- Where the copy starts in the user partition. -/
def userArea : ℕ := areaBlock .user * mmcBlockSize

/-- The boot partition holds an identification record. -/
def HasMagic (disk : Disk) : Prop :=
  disk.boot.read 0 idmeMagicNumber.length = idmeMagicNumber

instance (disk : Disk) : Decidable (HasMagic disk) :=
  inferInstanceAs (Decidable (_ = _))

/-- The boot partition, with the defaults if it has no record. -/
def Disk.record (disk : Disk) : Memory UInt8 :=
  if HasMagic disk then disk.boot
  else overlay disk.boot (idmeGenerateDefaultVars (readArea disk .boot)) 0
    configIdmeSize

/-- The stored boot mode. -/
def Disk.mode (disk : Disk) : UInt8 := disk.record bootmodeInfo.start

/-- Against the record, only the field of the boot count and a boot mode meant for
one boot change in the boot partition, and in the user partition only the copy of
the record. -/
structure SelectFrame (disk disk' : Disk) : Prop where
  boot : ∀ k, disk'.boot k ≠ disk.record k →
    postmodeInfo.Contains k ∨ disk.mode = ch '7' ∧ bootmodeInfo.Contains k
  user : ∀ k, disk'.user k ≠ disk.user k →
    ∃ i < configIdmeSize, k = userArea + i ∧ disk'.user k = disk.record i

/-- The boot count is stored, the boot mode meant for one boot is taken back and
the user area is a copy of the record. -/
structure Selected (disk disk' : Disk) : Prop where
  bootCount : disk'.boot.leWord postmodeInfo.start = 1
  bootmode : disk.mode = ch '7' →
    disk'.boot.read bootmodeInfo.start bootmodeInfo.size =
      padded bootmodeInfo (text "1")
  copy : ∀ i < configIdmeSize, disk'.user (userArea + i) = disk.record i

/-- Nothing but the four bytes of the boot count and a boot mode meant for one
boot changes on the disk. -/
def KeepsAllBut (disk disk' : Disk) : Prop :=
  (∀ k, disk'.user k = disk.user k) ∧
    ∀ k, disk'.boot k ≠ disk.boot k →
      (postmodeInfo.start ≤ k ∧ k < postmodeInfo.start + 4) ∨
        disk.boot bootmodeInfo.start = ch '7' ∧ bootmodeInfo.Contains k

/-! ## The commands -/

/-- The boot partition with a value put into a variable. -/
def NvramT.put (nv : NvramT) (value : List UInt8) (boot : Memory UInt8) :
    Memory UInt8 :=
  fun k => if k < nv.start ∨ nv.start + nv.size ≤ k then boot k
    else value.getD (k - nv.start) 0

theorem put_of_not_contains {nv : NvramT} {k : ℕ} (h : ¬ nv.Contains k)
    (value : List UInt8) (boot : Memory UInt8) : nv.put value boot k = boot k := by
  unfold NvramT.Contains at h
  rw [NvramT.put, if_pos (by omega)]

theorem put_start_add {nv : NvramT} {i : ℕ} (hi : i < nv.size)
    (value : List UInt8) (boot : Memory UInt8) :
    nv.put value boot (nv.start + i) = value.getD i 0 := by
  rw [NvramT.put, if_neg (by omega), Nat.add_sub_cancel_left]

/-- The boot partition with the block of an update stored into it. -/
theorem copyIn_prepared {nv : NvramT} {value : List UInt8} {boot buff : Memory UInt8}
    (gb : Memory UInt8)
    (hin : nv.inBlock + nv.size ≤ mmcBlockSize)
    (hbuff : ∀ k, buff k =
      if k < nv.inBlock ∨ nv.inBlock + nv.size ≤ k then
        gb.copyIn 0 (boot.read (nv.block * mmcBlockSize) mmcBlockSize) k
      else value.getD (k - nv.inBlock) 0) :
    boot.copyIn (nv.block * mmcBlockSize) (buff.read 0 mmcBlockSize) =
      nv.put value boot := by
  have hplace := nv.place
  funext k
  rw [copyIn_block hbuff, NvramT.put, NvramT.start]
  by_cases hout : k < nv.block * mmcBlockSize ∨
      nv.block * mmcBlockSize + mmcBlockSize ≤ k
  · rw [if_pos hout, if_pos (by omega)]
  · rw [if_neg hout]
    by_cases hvar : k < idmeBaseAddr + nv.offset ∨ idmeBaseAddr + nv.offset + nv.size ≤ k
    · have hlen : k - nv.block * mmcBlockSize <
          (boot.read (nv.block * mmcBlockSize) mmcBlockSize).length := by
        rw [Memory.read_length]
        omega
      have hcopy := Memory.copyIn_add (m := gb) (p := 0) hlen
      rw [Nat.zero_add, Memory.read_getElem, Nat.add_sub_cancel' (by omega)] at hcopy
      rw [if_pos hvar, if_pos hvar, hcopy]
    · rw [if_neg hvar, if_neg hvar]

theorem report_honest {st : IdmeState} (h : st.dev.Honest) (n : ℕ) :
    (st.report n).Honest := by
  unfold IdmeState.report
  cases hrest : st.dev.reports.drop n with
  | nil => exact Report.done_honest
  | cons r rs =>
      exact h r (List.mem_of_mem_drop (by rw [hrest]; exact List.mem_cons_self))

/-- An update is made or leaves the disk as it was, on a device that is honest and stays
so. -/
theorem idmeUpdateVar_disk {nv : NvramT} {value : List UInt8} {st : IdmeState}
    (hhonest : st.dev.Honest) (hnv : nv ∈ nvramInfo) (hvalue : value.length ≤ nv.size)
    (hin : nv.inBlock + nv.size ≤ mmcBlockSize) :
    (idmeUpdateVar nv.name (some value) st).2.dev.disk = st.dev.disk ∨
      (idmeUpdateVar nv.name (some value) st).2.dev.disk =
        ⟨st.dev.disk.user, nv.put value st.dev.disk.boot⟩ := by
  rw [idmeUpdateVar_eq hnv]
  split
  · exact Or.inl rfl
  · rename_i hfirst
    split
    · left
      rw [swPart_disk, readBlock_dev]
      rfl
    · rename_i hsecond
      have hto : st.report 0 = .done :=
        (report_honest hhonest 0).eq_done (by simpa using hfirst)
      have hread : st.report 1 = .done :=
        (report_honest hhonest 1).readStatus_eq_one.mp (not_not.mp hsecond)
      have hreached : st.reached = .boot := by
        rw [IdmeState.reached, hto]
        rfl
      have hfetched : st.fetched nv.block = st.gblockBuff.copyIn 0
          (st.dev.disk.boot.read (nv.block * mmcBlockSize) mmcBlockSize) := by
        rw [IdmeState.fetched, hread, hreached]
        rfl
      rw [swPart_disk, writeBlock_disk, prepared_report, prepared_access, prepared_disk,
        hreached]
      split
      · right
        rw [store_boot, copyIn_prepared st.gblockBuff hin]
        intro k
        rw [prepared_gblockBuff _ hvalue, hfetched]
      · exact Or.inl rfl

theorem idmeUpdateVar_reports {nv : NvramT} (hnv : nv ∈ nvramInfo) (value : List UInt8)
    (st : IdmeState) :
    ∃ n, (idmeUpdateVar nv.name (some value) st).2.dev.reports = st.dev.reports.drop n := by
  have hswitch : ∀ (part : Partition) (st : IdmeState),
      (swPart part st).2.dev.reports = st.dev.reports.tail := fun _ _ => rfl
  have hwrite : ∀ (block : ℕ) (st : IdmeState),
      (writeBlock block st).2.dev.reports = st.dev.reports.tail :=
    fun block st => mmcWrite_reports block (st.gblockBuff.read 0 mmcBlockSize) st.dev
  rw [idmeUpdateVar_eq hnv]
  split
  · exact ⟨1, by rw [hswitch, List.drop_one]⟩
  · split
    · refine ⟨3, ?_⟩
      rw [hswitch, readBlock_dev, Emmc.next, hswitch, ← List.drop_one, ← List.drop_one,
        ← List.drop_one, List.drop_drop, List.drop_drop]
    · refine ⟨4, ?_⟩
      rw [hswitch, hwrite, NvramT.prepared, putValue_dev, readBlock_dev, Emmc.next, hswitch,
        ← List.drop_one, ← List.drop_one, ← List.drop_one, ← List.drop_one,
        List.drop_drop, List.drop_drop, List.drop_drop]

theorem idmeUpdateVar_honest {nv : NvramT} (hnv : nv ∈ nvramInfo) (value : List UInt8)
    {st : IdmeState} (h : st.dev.Honest) :
    (idmeUpdateVar nv.name (some value) st).2.dev.Honest := by
  obtain ⟨n, hreports⟩ := idmeUpdateVar_reports hnv value st
  intro r hr
  rw [hreports] at hr
  exact h r (List.mem_of_mem_drop hr)

/-- A device that answers makes the update. -/
theorem idmeUpdateVar_of_reports (nv : NvramT) (value : List UInt8)
    (st : IdmeState) (hnv : nv ∈ nvramInfo) (hvalue : value.length ≤ nv.size)
    (hin : nv.inBlock + nv.size ≤ mmcBlockSize) (h : st.dev.reports = []) :
    (idmeUpdateVar nv.name (some value) st).2.dev.disk =
        ⟨st.dev.disk.user, nv.put value st.dev.disk.boot⟩ ∧
      (idmeUpdateVar nv.name (some value) st).2.dev.reports = [] := by
  obtain ⟨n, hreports⟩ := idmeUpdateVar_reports hnv value st
  rw [h, List.drop_nil] at hreports
  refine ⟨?_, hreports⟩
  have haccepted : Report.done.accepted = true := by decide
  have hstatus : Report.done.readStatus = 1 := by decide
  have hmoves : Report.done.moves = true := by decide
  rw [idmeUpdateVar_eq hnv]
  simp only [report_of_reports h, haccepted, hstatus, Bool.true_eq_false, ne_eq,
    not_true_eq_false, if_false]
  rw [swPart_disk, writeBlock_disk, prepared_report, report_of_reports h, prepared_access,
    prepared_disk, reached_of_reports h, if_pos hmoves, store_boot,
    copyIn_prepared st.gblockBuff hin]
  intro k
  rw [prepared_gblockBuff _ hvalue, fetched_of_reports h]

/-- An update leaves everything but its variable alone. -/
theorem idmeUpdateVar_frame (nv : NvramT) (value : List UInt8) {st : IdmeState}
    (hhonest : st.dev.Honest) (hnv : nv ∈ nvramInfo) (hvalue : value.length ≤ nv.size)
    (hin : nv.inBlock + nv.size ≤ mmcBlockSize) :
    (idmeUpdateVar nv.name (some value) st).2.dev.disk.user = st.dev.disk.user ∧
      ∀ k, ¬ nv.Contains k →
        (idmeUpdateVar nv.name (some value) st).2.dev.disk.boot k =
          st.dev.disk.boot k := by
  rcases idmeUpdateVar_disk hhonest hnv hvalue hin with hdisk | hdisk
  · rw [hdisk]
    exact ⟨rfl, fun _ _ => rfl⟩
  · rw [hdisk]
    exact ⟨rfl, fun k hk => put_of_not_contains hk value _⟩

/-- The copy to the user area, up to the block at which it fails. -/
theorem idmeWrite_user_disk (pbuf : Memory UInt8) {dev : Emmc} (hhonest : dev.Honest)
    (haccess : dev.access = .user) :
    ∃ m ≤ areaBlocks,
      (idmeWrite pbuf .user dev).2.disk =
        ⟨overlay dev.disk.user pbuf userArea (m * mmcBlockSize), dev.disk.boot⟩ ∧
      (dev.reports = [] → m = areaBlocks) := by
  obtain ⟨m, hm, hwrote, hall⟩ := idmeWrite_wrote pbuf .user hhonest (fun _ => haccess)
  refine ⟨m, hm, ?_, ?_⟩
  · rw [hwrote.1, storeAll_userWrites]
    rfl
  · intro hreports
    exact (hall (idmeWrite_of_reports pbuf .user hreports).1).1

/-- A device that answers writes the whole boot area. -/
theorem idmeWrite_boot_disk (pbuf : Memory UInt8) {dev : Emmc}
    (hreports : dev.reports = []) :
    (idmeWrite pbuf .boot dev).2.disk =
        ⟨dev.disk.user, overlay dev.disk.boot pbuf 0 configIdmeSize⟩ ∧
      (idmeWrite pbuf .boot dev).2.access = .user := by
  obtain ⟨m, -, hwrote, hall⟩ :=
    idmeWrite_wrote pbuf .boot (Emmc.honest_of_reports hreports) (by simp)
  obtain ⟨rfl, haccess⟩ := hall (idmeWrite_of_reports pbuf .boot hreports).1
  refine ⟨?_, haccess⟩
  rw [hwrote.1, storeAll_bootWrites, areaBlocks_mul]

/-! ## The loop over the variables -/

theorem selectVar_of_other {nv : NvramT}
    (hboot : strncmp nv.name (text "bootmode") 8 ≠ 0)
    (hpost : strncmp nv.name (text "postmode") 8 ≠ 0) (s : Selection) :
    selectVar s nv = s := by
  unfold selectVar
  rw [if_neg hboot, if_neg hpost]

theorem foldl_selectVar_of_others {nvs : List NvramT}
    (h : ∀ nv ∈ nvs, strncmp nv.name (text "bootmode") 8 ≠ 0 ∧
      strncmp nv.name (text "postmode") 8 ≠ 0) (s : Selection) :
    nvs.foldl selectVar s = s := by
  induction nvs with
  | nil => rfl
  | cons nv nvs ih =>
      obtain ⟨hboot, hpost⟩ := h nv List.mem_cons_self
      rw [List.foldl_cons, selectVar_of_other hboot hpost]
      exact ih fun nv' hnv' => h nv' (List.mem_cons_of_mem _ hnv')

theorem selectVar_bootmode (s : Selection) :
    selectVar s bootmodeInfo =
      { s with
        bootmode := (s.bootmode.copyIn 0
          (s.buffer.read bootmodeInfo.start 16)).store 17 0 } := by
  unfold selectVar
  rw [if_pos (by decide)]
  rfl

/-- The string at the boot count ends behind its first byte. -/
theorem cstr_bootCount (buffer : Memory UInt8) (n : ℕ) :
    cstr ((buffer.copyIn postmodeInfo.start (leBytes 1)).read postmodeInfo.start
      (4 + n)) = [1] := by
  have hcount := (Memory.holds_copyIn buffer postmodeInfo.start (leBytes 1)).read_eq
  rw [leBytes_length] at hcount
  rw [Memory.read_add, hcount]
  rfl

theorem selectVar_postmode (s : Selection) :
    selectVar s postmodeInfo =
      { s with
        buffer := s.buffer.copyIn postmodeInfo.start (leBytes 1)
        st := (idmeUpdateVar postmodeInfo.name (some [1]) s.st).2 } := by
  have hrest : configIdmeSize - postmodeInfo.start = 4 + 12260 := by decide
  unfold selectVar
  rw [if_neg (by decide), if_pos (by decide)]
  dsimp only
  rw [← NvramT.start, hrest, cstr_bootCount]
  rfl

/-- The loop fetches the boot mode and updates the boot count with one byte. -/
theorem selectLoop (s : Selection) :
    (nvramInfo.foldl selectVar s).bootmode 0 = s.buffer bootmodeInfo.start ∧
      (nvramInfo.foldl selectVar s).st =
        (idmeUpdateVar postmodeInfo.name (some [1]) s.st).2 := by
  have hsplit : nvramInfo = nvramInfo.take 8 ++
      bootmodeInfo :: postmodeInfo :: nvramInfo.drop 10 := by decide
  have hbefore : (nvramInfo.take 8).foldl selectVar s = s :=
    foldl_selectVar_of_others (by decide) s
  have hbehind : ∀ s', (nvramInfo.drop 10).foldl selectVar s' = s' :=
    foldl_selectVar_of_others (by decide)
  have hfirst : s.bootmode.copyIn 0 (s.buffer.read bootmodeInfo.start 16) 0 =
      s.buffer bootmodeInfo.start := by
    rw [Memory.copyIn, if_neg (by decide),
      List.getD_eq_getElem _ _ (by rw [Memory.read_length]; decide),
      Memory.read_getElem]
    rfl
  rw [hsplit, List.foldl_append, List.foldl_cons, List.foldl_cons, hbefore,
    selectVar_bootmode, selectVar_postmode, hbehind]
  refine ⟨?_, rfl⟩
  dsimp only
  rw [Memory.store_of_ne _ (by decide), hfirst]

/-- Only the mode `7` updates the boot mode. -/
theorem selectMode_snd (ptn : List UInt8) (s : Selection) :
    (selectMode ptn s).2 =
      if s.bootmode 0 = ch '7' then
        (idmeUpdateVar bootmodeInfo.name (some (text "1")) s.st).2
      else s.st := by
  have hother : ∀ c, c ≠ ch '7' → s.bootmode 0 = c →
      s.bootmode 0 ≠ ch '7' := by
    rintro c hc rfl
    exact hc
  unfold selectMode
  split
  · rename_i h
    rw [if_neg (hother _ (by decide) h)]
  · split
    · rename_i h
      rw [if_neg (hother _ (by decide) h)]
    · split
      · rename_i h
        rw [if_neg (hother _ (by decide) h)]
      · split
        · rename_i h
          rw [if_neg (hother _ (by decide) h)]
        · split
          · rfl
          · rfl

/-! ## The disk behind a selection -/

/-- The updates behind the copy to the user area. -/
theorem selectFrom_snd (keys : Keys) (stack : Memory UInt8) (ptn : List UInt8)
    (buffer : Memory UInt8) (st : IdmeState) :
    (selectFrom keys stack ptn buffer st).2 =
      let st₁ := (idmeUpdateVar postmodeInfo.name (some [1])
        { st with dev := (idmeWrite buffer .user st.dev).2 }).2
      if buffer bootmodeInfo.start = ch '7' then
        (idmeUpdateVar bootmodeInfo.name (some (text "1")) st₁).2
      else st₁ := by
  unfold selectFrom
  dsimp only
  rw [selectMode_snd, (selectLoop _).1, (selectLoop _).2]

theorem selectFrom_frame (keys : Keys) (stack : Memory UInt8) (ptn : List UInt8)
    (buffer : Memory UInt8) {st : IdmeState} (hhonest : st.dev.Honest)
    (haccess : st.dev.access = .user) :
    (∃ m ≤ areaBlocks, (selectFrom keys stack ptn buffer st).2.dev.disk.user =
      overlay st.dev.disk.user buffer userArea (m * mmcBlockSize)) ∧
    ∀ k, ¬ postmodeInfo.Contains k →
      ¬ (buffer bootmodeInfo.start = ch '7' ∧ bootmodeInfo.Contains k) →
        (selectFrom keys stack ptn buffer st).2.dev.disk.boot k =
          st.dev.disk.boot k := by
  obtain ⟨m, hm, hcopy, -⟩ := idmeWrite_user_disk buffer hhonest haccess
  rw [selectFrom_snd]
  dsimp only
  generalize hst₀ : ({ st with dev := (idmeWrite buffer .user st.dev).2 } :
    IdmeState) = st₀
  have hdisk₀ : st₀.dev.disk = ⟨overlay st.dev.disk.user buffer userArea
      (m * mmcBlockSize), st.dev.disk.boot⟩ := by rw [← hst₀, ← hcopy]
  have hhonest₀ : st₀.dev.Honest := by
    rw [← hst₀]
    exact idmeWrite_honest buffer .user hhonest
  obtain ⟨huser₁, hboot₁⟩ := idmeUpdateVar_frame postmodeInfo [1] hhonest₀
    (by decide) (by decide) (by decide)
  have hpostmode : postmodeInfo ∈ nvramInfo := by decide
  have hhonest₁ := idmeUpdateVar_honest hpostmode [1] hhonest₀
  generalize hst₁ : (idmeUpdateVar postmodeInfo.name (some [1]) st₀).2 = st₁ at *
  obtain ⟨huser₂, hboot₂⟩ := idmeUpdateVar_frame bootmodeInfo
    (text "1") hhonest₁ (by decide) (by decide) (by decide)
  rw [hdisk₀] at huser₁ hboot₁
  split
  · rename_i hmode
    refine ⟨⟨m, hm, huser₂.trans huser₁⟩, ?_⟩
    intro k hpost hboot
    have hout : ¬ bootmodeInfo.Contains k := fun h => hboot ⟨hmode, h⟩
    exact (hboot₂ k hout).trans (hboot₁ k hpost)
  · exact ⟨⟨m, hm, huser₁⟩, fun k hpost _ => hboot₁ k hpost⟩

theorem selectFrom_of_reports (keys : Keys) (stack : Memory UInt8)
    (ptn : List UInt8) (buffer : Memory UInt8) (st : IdmeState)
    (haccess : st.dev.access = .user) (hreports : st.dev.reports = []) :
    (selectFrom keys stack ptn buffer st).2.dev.disk =
      ⟨overlay st.dev.disk.user buffer userArea configIdmeSize,
        let boot := postmodeInfo.put [1] st.dev.disk.boot
        if buffer bootmodeInfo.start = ch '7' then bootmodeInfo.put (text "1") boot
        else boot⟩ := by
  obtain ⟨m, -, hcopy, hall⟩ :=
    idmeWrite_user_disk buffer (Emmc.honest_of_reports hreports) haccess
  have hnext₀ := (idmeWrite_of_reports buffer .user hreports).2
  rw [hall hreports, areaBlocks_mul] at hcopy
  rw [selectFrom_snd]
  dsimp only
  obtain ⟨hdisk₁, hnext₁⟩ := idmeUpdateVar_of_reports postmodeInfo
    [1] { st with dev := (idmeWrite buffer .user st.dev).2 }
    (by decide) (by decide) (by decide) hnext₀
  rw [hcopy] at hdisk₁
  split
  · obtain ⟨hdisk₂, -⟩ := idmeUpdateVar_of_reports bootmodeInfo
      (text "1") _ (by decide) (by decide) (by decide) hnext₁
    rw [hdisk₂, hdisk₁]
  · exact hdisk₁

theorem hasMagic_iff (disk : Disk) :
    (readArea disk .boot).read 0 idmeMagicNumber.length = idmeMagicNumber ↔
      HasMagic disk := by
  have hread : (readArea disk .boot).read 0 idmeMagicNumber.length =
      disk.boot.read 0 idmeMagicNumber.length := by
    apply Memory.read_congr
    intro k hk
    have hlen : idmeMagicNumber.length = 8 := rfl
    have hsize : configIdmeSize = 0x4000 := rfl
    rw [readArea, if_pos (by omega), areaBlock, Nat.zero_mul, Nat.zero_add]
    rfl
  rw [hread, HasMagic]

theorem readArea_boot (disk : Disk) {i : ℕ} (hi : i < configIdmeSize) :
    readArea disk .boot i = disk.boot i := by
  rw [readArea, if_pos hi, areaBlock, Nat.zero_mul, Nat.zero_add]
  rfl

/-- Behind its read the selection goes on from the record, unless a device without
one fails. -/
theorem idmeSelectBootImage_cases (keys : Keys) (stack : Memory UInt8)
    (ptn : List UInt8) {st : IdmeState} (hhonest : st.dev.Honest)
    (h : HasMagic st.dev.disk ∨ st.dev.reports = []) :
    (HasMagic st.dev.disk ∧ st.dev.reports ≠ [] ∧
      (idmeSelectBootImage keys stack ptn st).2.dev.disk = st.dev.disk) ∨
    ∃ buffer dev, dev.access = .user ∧ dev.Honest ∧
      dev.disk = ⟨st.dev.disk.user, st.dev.disk.record⟩ ∧
      (st.dev.reports = [] → dev.reports = []) ∧
      (∀ i < configIdmeSize, buffer i = st.dev.disk.record i) ∧
      (idmeSelectBootImage keys stack ptn st).2 =
        (selectFrom keys stack ptn buffer { st with dev := dev }).2 := by
  have hsame := idmeRead_sameStore .boot (fun _ => 0) st.dev
  have hreads := idmeRead_honest .boot (fun _ => 0) hhonest
  have hreports : st.dev.reports = [] → _ :=
    idmeRead_of_reports .boot (fun _ => 0)
  unfold idmeSelectBootImage
  split
  · rename_i dev heq
    rw [heq] at hsame hreports
    have hfails : st.dev.reports ≠ [] := by
      intro hnone
      obtain ⟨_, _, hsome, -⟩ := hreports hnone
      simp at hsome
    exact Or.inl ⟨h.resolve_right hfails, hfails, hsame.1⟩
  · rename_i buffer dev heq
    right
    rw [heq] at hsame hreports hreads
    obtain ⟨haccess, hread⟩ := idmeRead_of_some hhonest (by simp) heq
    have hbuffer : buffer = readArea st.dev.disk .boot := funext hread
    have hnext : st.dev.reports = [] → dev.reports = [] := by
      intro hnone
      obtain ⟨_, dev', hpair, hnil⟩ := hreports hnone
      rw [(Prod.mk.inj hpair).2]
      exact hnil
    by_cases hmagic : HasMagic st.dev.disk
    · have hrecord : st.dev.disk.record = st.dev.disk.boot := if_pos hmagic
      rw [if_neg (by rw [hbuffer]; exact not_not.mpr ((hasMagic_iff _).mpr hmagic))]
      refine ⟨buffer, dev, haccess, hreads, ?_, hnext, ?_, rfl⟩
      · rw [hsame.1, hrecord]
      · intro i hi
        rw [hbuffer, hrecord, readArea_boot _ hi]
    · have hrecord : st.dev.disk.record = overlay st.dev.disk.boot
          (idmeGenerateDefaultVars (readArea st.dev.disk .boot)) 0 configIdmeSize :=
        if_neg hmagic
      have hnone := h.resolve_left hmagic
      rw [if_pos (by
        rw [hbuffer]
        exact fun hread => hmagic ((hasMagic_iff _).mp hread))]
      obtain ⟨hdisk, huser⟩ :=
        idmeWrite_boot_disk (idmeGenerateDefaultVars buffer) (hnext hnone)
      have hlast := (idmeWrite_of_reports (idmeGenerateDefaultVars buffer) .boot
        (hnext hnone)).2
      refine ⟨idmeGenerateDefaultVars buffer,
        (idmeWrite (idmeGenerateDefaultVars buffer) .boot dev).2, huser,
        idmeWrite_honest _ .boot hreads, ?_, fun _ => hlast, ?_, rfl⟩
      · rw [hdisk, hsame.1, hrecord, hbuffer]
      · intro i hi
        rw [hrecord, overlay, if_pos (by omega), hbuffer, Nat.sub_zero]

/-- The frame of a selection. -/
theorem selectFrame_of (keys : Keys) (stack : Memory UInt8) (ptn : List UInt8)
    {st : IdmeState} (hhonest : st.dev.Honest)
    (h : HasMagic st.dev.disk ∨ st.dev.reports = []) :
    SelectFrame st.dev.disk (idmeSelectBootImage keys stack ptn st).2.dev.disk := by
  rcases idmeSelectBootImage_cases keys stack ptn hhonest h with
    ⟨hmagic, -, hdisk⟩ | ⟨buffer, dev, haccess, hstays, hdev, -, hbuffer, hst⟩
  · have hrecord : st.dev.disk.record = st.dev.disk.boot := if_pos hmagic
    rw [hdisk]
    refine ⟨fun k hk => absurd ?_ hk, fun k hk => absurd rfl hk⟩
    rw [hrecord]
  · obtain ⟨⟨m, hm, huser⟩, hboot⟩ := selectFrom_frame keys stack ptn buffer
      (show ({ st with dev := dev } : IdmeState).dev.Honest from hstays) haccess
    have hmode : buffer bootmodeInfo.start = st.dev.disk.mode :=
      hbuffer _ (by decide)
    rw [← hst] at huser hboot
    dsimp only at huser hboot
    rw [hdev] at huser hboot
    rw [hmode] at hboot
    constructor
    · intro k hk
      by_contra hout
      rw [not_or] at hout
      exact hk (hboot k hout.1 hout.2)
    · intro k hk
      have hbound := Nat.mul_le_mul_right mmcBlockSize hm
      rw [areaBlocks_mul] at hbound
      rw [huser, overlay] at hk ⊢
      by_cases hin : userArea ≤ k ∧ k < userArea + m * mmcBlockSize
      · refine ⟨k - userArea, by omega, by omega, ?_⟩
        rw [if_pos hin, hbuffer _ (by omega)]
      · rw [if_neg hin] at hk
        exact absurd rfl hk

theorem not_contains_bootmode {k : ℕ} (h : postmodeInfo.Contains k) :
    ¬ bootmodeInfo.Contains k := by
  have hstart : bootmodeInfo.start + bootmodeInfo.size = postmodeInfo.start := rfl
  unfold NvramT.Contains at h ⊢
  omega

/-- What a device that answers holds behind a selection. -/
theorem idmeSelectBootImage_of_reports (keys : Keys) (stack : Memory UInt8)
    (ptn : List UInt8) {st : IdmeState} (hreports : st.dev.reports = []) :
    ∃ buffer, (∀ i < configIdmeSize, buffer i = st.dev.disk.record i) ∧
      (idmeSelectBootImage keys stack ptn st).2.dev.disk =
        ⟨overlay st.dev.disk.user buffer userArea configIdmeSize,
          let boot := postmodeInfo.put [1] st.dev.disk.record
          if st.dev.disk.mode = ch '7' then bootmodeInfo.put (text "1") boot
          else boot⟩ := by
  rcases idmeSelectBootImage_cases keys stack ptn (Emmc.honest_of_reports hreports)
    (Or.inr hreports) with
    ⟨-, hfails, -⟩ | ⟨buffer, dev, haccess, -, hdev, hnext, hbuffer, hst⟩
  · exact absurd hreports hfails
  · have hdisk := selectFrom_of_reports keys stack ptn buffer
      { st with dev := dev } haccess (hnext hreports)
    have hmode : buffer bootmodeInfo.start = st.dev.disk.mode :=
      hbuffer _ (by decide)
    rw [← hst] at hdisk
    dsimp only at hdisk
    rw [hdev, hmode] at hdisk
    exact ⟨buffer, hbuffer, hdisk⟩

/-- The whole field of the boot count is cleared, and its first byte set. -/
theorem postmode_of_reports (keys : Keys) (stack : Memory UInt8) (ptn : List UInt8)
    {st : IdmeState} (hreports : st.dev.reports = []) {i : ℕ}
    (hi : i < postmodeInfo.size) :
    (idmeSelectBootImage keys stack ptn st).2.dev.disk.boot (postmodeInfo.start + i) =
      [(1 : UInt8)].getD i 0 := by
  obtain ⟨buffer, -, hdisk⟩ :=
    idmeSelectBootImage_of_reports keys stack ptn hreports
  rw [hdisk]
  dsimp only
  split
  · have hin : postmodeInfo.Contains (postmodeInfo.start + i) :=
      ⟨Nat.le_add_right _ _, by omega⟩
    rw [put_of_not_contains (not_contains_bootmode hin), put_start_add hi]
  · exact put_start_add hi _ _

/-- A device that answers stores the boot count, takes back the mode `7` and gets
its copy. -/
theorem selected_of_reports (keys : Keys) (stack : Memory UInt8) (ptn : List UInt8)
    {st : IdmeState} (hreports : st.dev.reports = []) :
    Selected st.dev.disk (idmeSelectBootImage keys stack ptn st).2.dev.disk := by
  have hpostmode : ∀ i, i < postmodeInfo.size → _ :=
    fun i hi => postmode_of_reports keys stack ptn hreports hi
  obtain ⟨buffer, hbuffer, hdisk⟩ :=
    idmeSelectBootImage_of_reports keys stack ptn hreports
  have hcount : Memory.Holds
      (idmeSelectBootImage keys stack ptn st).2.dev.disk.boot postmodeInfo.start
      (leBytes 1) := by
    intro i hi
    have hlen : (leBytes 1).length ≤ postmodeInfo.size := by decide
    have hbyte : ∀ j (hj : j < (leBytes 1).length),
        [(1 : UInt8)].getD j 0 = (leBytes 1)[j] := by decide
    rw [hpostmode i (by omega), hbyte i hi]
  refine ⟨hcount.leWord, ?_, ?_⟩
  · intro hseven
    rw [hdisk]
    dsimp only
    rw [if_pos hseven, padded_getD (by decide), Memory.read]
    apply List.map_congr_left
    intro i hi
    exact put_start_add (List.mem_range.mp hi) _ _
  · intro i hi
    rw [hdisk]
    dsimp only
    rw [overlay, if_pos (by omega), Nat.add_sub_cancel_left, hbuffer i hi]

/-- The bytes behind the boot count are kept exactly if they are zero. -/
theorem postmode_kept_iff (keys : Keys) (stack : Memory UInt8) (ptn : List UInt8)
    {st : IdmeState} (hreports : st.dev.reports = []) :
    (∀ i, 4 ≤ i → i < postmodeInfo.size →
      (idmeSelectBootImage keys stack ptn st).2.dev.disk.boot
        (postmodeInfo.start + i) = st.dev.disk.record (postmodeInfo.start + i)) ↔
    ∀ i, 4 ≤ i → i < postmodeInfo.size →
      st.dev.disk.record (postmodeInfo.start + i) = 0 := by
  refine forall_congr' fun i => forall_congr' fun hfour => forall_congr' fun hi => ?_
  have hcleared : [(1 : UInt8)].getD i 0 = 0 :=
    List.getD_eq_default _ _ (by rw [List.length_singleton]; omega)
  rw [postmode_of_reports keys stack ptn hreports hi, hcleared]
  exact eq_comm

/-- A selection changes nothing in the boot partition but the field of the boot
count and a boot mode meant for one boot, and in the user partition it only makes a
copy of the record, whichever of its commands are refused, as long as none of them is
refused with `1`; only where there is no record the device has to answer, so that the
defaults are stored first.  A device that answers gets the boot count, the boot mode
and the copy. -/
theorem idmeSelectBootImage_frame (keys : Keys) (stack : Memory UInt8)
    (ptn : List UInt8) (st : IdmeState) :
    (st.dev.Honest → HasMagic st.dev.disk ∨ st.dev.reports = [] →
      SelectFrame st.dev.disk (idmeSelectBootImage keys stack ptn st).2.dev.disk) ∧
    (st.dev.reports = [] →
      Selected st.dev.disk (idmeSelectBootImage keys stack ptn st).2.dev.disk) :=
  ⟨selectFrame_of keys stack ptn, selected_of_reports keys stack ptn⟩

/-- A record with the boot mode `1` and the boot count `3`. -/
def factoryRecord : Memory UInt8 :=
  let m : Memory UInt8 := fun _ => 0
  ((m.copyIn 0 idmeMagicNumber).copyIn bootmodeInfo.start (text "1")).copyIn
    postmodeInfo.start (leBytes 3)

/-- A board with this record in its boot partition, before its first boot. -/
def factoryBoard : IdmeState where
  dev := ⟨⟨fun _ => 0, factoryRecord⟩, .user, [], []⟩
  gblockBuff := fun _ => 0
  high := 0

/-- The disk behind the first boot of the board, with no key pressed. -/
def factoryBooted : Disk :=
  (idmeSelectBootImage ⟨1, 1⟩ (fun _ => 0) (text "boot") factoryBoard).2.dev.disk

theorem idmeSelectBootImage_frame_factoryBoard :
    SelectFrame factoryBoard.dev.disk factoryBooted ∧
      Selected factoryBoard.dev.disk factoryBooted :=
  have hframe :=
    idmeSelectBootImage_frame ⟨1, 1⟩ (fun _ => 0) (text "boot") factoryBoard
  ⟨hframe.1 (Emmc.honest_of_reports rfl) (Or.inl (by decide)), hframe.2 rfl⟩

/-- The first boot of the board writes the copy to its user partition. -/
theorem factoryBoard_not_keepsAllBut :
    ¬ KeepsAllBut factoryBoard.dev.disk factoryBooted := by
  intro hkeeps
  have hselected : Selected factoryBoard.dev.disk factoryBooted :=
    selected_of_reports _ _ _ rfl
  have hcopy := hselected.copy 0 (by decide)
  rw [Nat.add_zero, hkeeps.1 userArea] at hcopy
  exact absurd hcopy (by decide)

end TateFirmware.Idme
