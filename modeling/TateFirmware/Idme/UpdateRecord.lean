import TateFirmware.Idme.Nvram

/-!
# Updating the boot area from the user area

A signed record in the user area asks for some variables to be copied into the
boot area, which `idmeUpdateVarsEx` does at boot.  The module compares it with
the list of block writes it makes, which only depends on what the partitions
hold, and shows that a run cut off behind any of its writes leaves behind a
disk on which the next run ends with the same boot area.  The commands of the
runs complete or are refused with another value than `1`.
-/

namespace TateFirmware.Idme

open LibGeneric Support

/-! ## The update -/

/-- `IDME_MAGIC_NUMBER`. -/
def idmeMagicNumber : List UInt8 := text "beefdeed"

/-- `nvram_sig`. -/
def nvramSig : List UInt8 := text "adbdefg12345"

/-- `nvram_sig_info`. -/
def nvramSigInfo : NvramT := ⟨text "writesig", 0x1f0, 12⟩

/-- `nvram_sig_info_bitmap`. -/
def nvramSigInfoBitmap : NvramT := ⟨text "writesig_bitmap", 0x1fc, 4⟩

/-- `*pbitmap`. -/
def bitmapOf (buffer : Memory UInt8) : ℕ :=
  let p := idmeBaseAddr + nvramSigInfoBitmap.offset
  (buffer p).toNat + (buffer (p + 1)).toNat * 2 ^ 8 +
    (buffer (p + 2)).toNat * 2 ^ 16 + (buffer (p + 3)).toNat * 2 ^ 24

/-- The loop that copies the variables whose bits are set. -/
def copyVars (bitmap : ℕ) (buffer : Memory UInt8) :
    ℕ → List NvramT → Memory UInt8 → Memory UInt8
  | _, [], bootBuffer => bootBuffer
  | i, nv :: nvs, bootBuffer =>
      copyVars bitmap buffer (i + 1) nvs
        (if bitmap.testBit i then
          bootBuffer.copyIn (idmeBaseAddr + nv.offset)
            (buffer.read (idmeBaseAddr + nv.offset) nv.size)
        else bootBuffer)

/-- The buffer with the signature and the bitmap zeroed out. -/
def clearSig (buffer : Memory UInt8) : Memory UInt8 :=
  (buffer.fill (idmeBaseAddr + nvramSigInfo.offset) nvramSigInfo.size 0).fill
    (idmeBaseAddr + nvramSigInfoBitmap.offset) nvramSigInfoBitmap.size 0

/-- `idme_update_vars_ex` behind its two reads. -/
def applyRecord (buffer bootBuffer : Memory UInt8) (dev : Emmc) :
    Bool × Emmc :=
  if buffer.read 0 idmeMagicNumber.length ≠ idmeMagicNumber then (false, dev)
  else if buffer.read (idmeBaseAddr + nvramSigInfo.offset)
      nvramSigInfo.size = nvramSig then
    match idmeWrite
        (copyVars (bitmapOf buffer) buffer 0 nvramInfo bootBuffer) .boot dev with
    | (false, dev) => (false, dev)
    | (true, dev) => idmeWrite (clearSig buffer) .user dev
  else (true, dev)

/-- `idme_update_vars_ex`: whether it returns `0`. -/
def idmeUpdateVarsEx (dev : Emmc) : Bool × Emmc :=
  match idmeRead .user (fun _ => 0) dev with
  | (none, dev) => (false, dev)
  | (some buffer, dev) =>
      match idmeRead .boot (fun _ => 0) dev with
      | (none, dev) => (false, dev)
      | (some bootBuffer, dev) => applyRecord buffer bootBuffer dev

/-! ## The writes of an update -/

/-- What `idme_read` puts into a cleared buffer. -/
def readArea (disk : Disk) (part : Partition) : Memory UInt8 :=
  fun k => if k < configIdmeSize then
      disk.area part (areaBlock part * mmcBlockSize + k)
    else 0

/-- The first `n` writes of a buffer to an area. -/
def areaWrites (part : Partition) (pbuf : Memory UInt8) (n : ℕ) :
    List BlockWrite :=
  (List.range n).map fun i =>
    ⟨part, areaBlock part + i, pbuf.read (i * mmcBlockSize) mmcBlockSize⟩

/-- The user area holds a signed record. -/
def Requested (disk : Disk) : Prop :=
  (readArea disk .user).read 0 idmeMagicNumber.length = idmeMagicNumber ∧
    (readArea disk .user).read (idmeBaseAddr + nvramSigInfo.offset)
      nvramSigInfo.size = nvramSig

instance (disk : Disk) : Decidable (Requested disk) :=
  inferInstanceAs (Decidable (_ ∧ _))

/-- The boot area with the selected variables taken from the record. -/
def merged (disk : Disk) : Memory UInt8 :=
  copyVars (bitmapOf (readArea disk .user)) (readArea disk .user) 0 nvramInfo
    (readArea disk .boot)

/-- The number of blocks of an area. -/
def areaBlocks : ℕ := configIdmeSize / mmcBlockSize

/-- The writes of an update, given what the partitions hold. -/
def updateWrites (disk : Disk) : List BlockWrite :=
  if Requested disk then
    areaWrites .boot (merged disk) areaBlocks ++
      areaWrites .user (clearSig (readArea disk .user)) areaBlocks
  else []

/-- A disk behind some writes. -/
def Disk.storeAll (disk : Disk) (ws : List BlockWrite) : Disk :=
  ws.foldl Disk.store disk

theorem storeAll_append (disk : Disk) (ws ws' : List BlockWrite) :
    disk.storeAll (ws ++ ws') = (disk.storeAll ws).storeAll ws' :=
  List.foldl_append

/-- A device got to `dev'` by the first `n` of some writes. -/
def Emmc.Wrote (dev dev' : Emmc) (ws : List BlockWrite) : Prop :=
  dev'.disk = dev.disk.storeAll ws ∧ dev'.written = dev.written ++ ws

theorem Emmc.SameStore.wrote {dev dev' : Emmc} (h : dev.SameStore dev') :
    dev.Wrote dev' [] := by
  refine ⟨h.1, ?_⟩
  rw [h.2, List.append_nil]

theorem Emmc.Wrote.trans {dev dev' dev'' : Emmc} {ws ws' : List BlockWrite}
    (h : dev.Wrote dev' ws) (h' : dev'.Wrote dev'' ws') :
    dev.Wrote dev'' (ws ++ ws') := by
  refine ⟨?_, ?_⟩
  · rw [h'.1, h.1, storeAll_append]
  · rw [h'.2, h.2, List.append_assoc]

theorem mmcWrite_of_done {block : ℕ} {data : List UInt8} {dev : Emmc}
    (h : dev.report = .done) :
    mmcWrite block data dev =
      (true, { dev.next with
        disk := dev.disk.store ⟨dev.access, block, data⟩
        written := dev.written ++ [⟨dev.access, block, data⟩] }) := by
  rw [mmcWrite, h]
  rfl

theorem mmcWrite_of_refused {block : ℕ} {data : List UInt8} {dev : Emmc}
    (h : dev.report.accepted = false) : mmcWrite block data dev = (false, dev.next) := by
  rw [mmcWrite, Report.moves_of_refused h, h]
  rfl

theorem mmcWrite_access (block : ℕ) (data : List UInt8) (dev : Emmc) :
    (mmcWrite block data dev).2.access = dev.access := by
  unfold mmcWrite
  dsimp only
  split <;> rfl

theorem mmcWrite_reports (block : ℕ) (data : List UInt8) (dev : Emmc) :
    (mmcWrite block data dev).2.reports = dev.reports.tail := by
  unfold mmcWrite
  dsimp only
  split <;> rfl

/-- The write loop makes some of its writes, in order, and all of them if it
succeeds. -/
theorem writeBlocks_wrote (pbuf : Memory UInt8) (n len block : ℕ)
    {dev : Emmc} (hhonest : dev.Honest) :
    ∃ m ≤ n,
      dev.Wrote (writeBlocks pbuf n len block dev).2
        ((List.range m).map fun i =>
          ⟨dev.access, block + i,
            pbuf.read (len + i * mmcBlockSize) mmcBlockSize⟩) ∧
      ((writeBlocks pbuf n len block dev).1 = true → m = n) := by
  induction n generalizing len block dev with
  | zero =>
      refine ⟨0, le_refl 0, ⟨rfl, ?_⟩, fun _ => rfl⟩
      simp [writeBlocks]
  | succ n ih =>
      rw [writeBlocks]
      rcases hhonest.report with hdone | hrefused
      · rw [mmcWrite_of_done hdone]
        dsimp only
        generalize hdev₁ : ({ dev.next with
          disk := dev.disk.store ⟨dev.access, block, pbuf.read len mmcBlockSize⟩
          written := dev.written ++
            [⟨dev.access, block, pbuf.read len mmcBlockSize⟩] } : Emmc) = dev₁
        have hhonest₁ : dev₁.Honest := hhonest.of_reports (by rw [← hdev₁]; rfl)
        obtain ⟨m, hm, hwrote, hall⟩ := ih (len + mmcBlockSize) (block + 1) hhonest₁
        have hfirst : dev.Wrote dev₁
            [⟨dev.access, block, pbuf.read len mmcBlockSize⟩] := by
          rw [← hdev₁]
          exact ⟨rfl, rfl⟩
        have haccess : dev₁.access = dev.access := by
          rw [← hdev₁]
          rfl
        refine ⟨m + 1, by omega, ?_, ?_⟩
        · have hrest : ((List.range m).map fun i =>
              (⟨dev₁.access, block + 1 + i,
                pbuf.read (len + mmcBlockSize + i * mmcBlockSize)
                  mmcBlockSize⟩ : BlockWrite)) =
              (List.range m).map fun i =>
                ⟨dev.access, block + (i + 1),
                  pbuf.read (len + (i + 1) * mmcBlockSize) mmcBlockSize⟩ := by
            apply List.map_congr_left
            intro i _
            have hblock : block + 1 + i = block + (i + 1) := by omega
            have hlen : len + mmcBlockSize + i * mmcBlockSize =
                len + (i + 1) * mmcBlockSize := by
              rw [Nat.add_one_mul]
              omega
            rw [haccess, hblock, hlen]
          rw [hrest] at hwrote
          have hboth := hfirst.trans hwrote
          rw [List.range_succ_eq_map, List.map_cons, List.map_map,
            Nat.zero_mul, Nat.add_zero, Nat.add_zero]
          exact hboth
        · intro hok
          rw [hall hok]
      · rw [mmcWrite_of_refused hrefused]
        exact ⟨0, Nat.zero_le _, ⟨rfl, by simp [Emmc.next]⟩, by simp⟩

theorem writeBlocks_access (pbuf : Memory UInt8) (n len block : ℕ)
    (dev : Emmc) :
    (writeBlocks pbuf n len block dev).2.access = dev.access := by
  induction n generalizing len block dev with
  | zero => rfl
  | succ n ih =>
      have hwrite := mmcWrite_access block (pbuf.read len mmcBlockSize) dev
      rw [writeBlocks]
      split
      · rename_i heq
        rwa [heq] at hwrite
      · rename_i heq
        rw [heq] at hwrite
        rw [ih, hwrite]

theorem writeBlocks_honest (pbuf : Memory UInt8) (n len block : ℕ) {dev : Emmc}
    (h : dev.Honest) : (writeBlocks pbuf n len block dev).2.Honest := by
  induction n generalizing len block dev with
  | zero => exact h
  | succ n ih =>
      have hwrite := h.of_reports
        (mmcWrite_reports block (pbuf.read len mmcBlockSize) dev)
      rw [writeBlocks]
      split
      · rename_i heq
        rwa [heq] at hwrite
      · rename_i heq
        rw [heq] at hwrite
        exact ih _ _ hwrite

theorem idmeWrite_honest (pbuf : Memory UInt8) (part : Partition) {dev : Emmc}
    (h : dev.Honest) : (idmeWrite pbuf part dev).2.Honest := by
  cases part with
  | user => exact writeBlocks_honest _ _ _ _ h
  | boot =>
      have hto := mmcSwPart_honest .boot h
      unfold idmeWrite
      dsimp only
      split
      · rename_i heq
        rwa [heq] at hto
      · rename_i dev₁ heq
        rw [heq] at hto
        have hback := mmcSwPart_honest .user (writeBlocks_honest pbuf
          (configIdmeSize / mmcBlockSize) 0 (areaBlock .boot) hto)
        split
        · rename_i heq'
          rwa [heq'] at hback
        · rename_i heq'
          rwa [heq'] at hback

/-- `idme_write` makes the first writes of its buffer, and all of them if it
succeeds. -/
theorem idmeWrite_wrote (pbuf : Memory UInt8) (part : Partition) {dev : Emmc}
    (hhonest : dev.Honest) (haccess : part = .user → dev.access = .user) :
    ∃ m ≤ areaBlocks,
      dev.Wrote (idmeWrite pbuf part dev).2 (areaWrites part pbuf m) ∧
      ((idmeWrite pbuf part dev).1 = true →
        m = areaBlocks ∧ (idmeWrite pbuf part dev).2.access = .user) := by
  cases part with
  | user =>
      obtain ⟨m, hm, hwrote, hall⟩ :=
        writeBlocks_wrote pbuf areaBlocks 0 (areaBlock .user) hhonest
      rw [haccess rfl] at hwrote
      simp only [Nat.zero_add] at hwrote
      refine ⟨m, hm, hwrote, ?_⟩
      intro hok
      refine ⟨hall hok, ?_⟩
      exact (writeBlocks_access _ _ _ _ _).trans (haccess rfl)
  | boot =>
      have hto := (mmcSwPart_sameStore .boot dev).wrote
      unfold idmeWrite
      dsimp only
      split
      · rename_i heq
        rw [heq] at hto
        exact ⟨0, Nat.zero_le _, hto, by simp⟩
      · rename_i dev₁ heq
        rw [heq] at hto
        have hdev₁ := mmcSwPart_of_true hhonest heq
        have hhonest₁ : dev₁.Honest := hhonest.of_reports (by rw [hdev₁]; rfl)
        obtain ⟨m, hm, hwrote, hall⟩ :=
          writeBlocks_wrote pbuf areaBlocks 0 (areaBlock .boot) hhonest₁
        have haccess₁ : dev₁.access = .boot := by rw [hdev₁]
        rw [haccess₁] at hwrote
        simp only [Nat.zero_add] at hwrote
        have hback := (mmcSwPart_sameStore .user
          (writeBlocks pbuf areaBlocks 0 (areaBlock .boot) dev₁).2).wrote
        have hboth := (hto.trans hwrote).trans hback
        rw [List.nil_append, List.append_nil] at hboth
        refine ⟨m, hm, ?_, ?_⟩
        · split
          · rename_i heq'
            rw [areaBlocks, heq'] at hboth
            exact hboth
          · rename_i heq'
            rw [areaBlocks, heq'] at hboth
            exact hboth
        · split
          · simp
          · rename_i heq'
            intro hok
            have hhonest₂ :=
              writeBlocks_honest pbuf areaBlocks 0 (areaBlock .boot) hhonest₁
            exact ⟨hall hok, by rw [mmcSwPart_of_true hhonest₂ heq']⟩

theorem writeBlocks_of_reports (pbuf : Memory UInt8) (n len block : ℕ)
    {dev : Emmc} (h : dev.reports = []) :
    (writeBlocks pbuf n len block dev).1 = true ∧
      (writeBlocks pbuf n len block dev).2.reports = [] := by
  induction n generalizing len block dev with
  | zero => exact ⟨rfl, h⟩
  | succ n ih =>
      rw [writeBlocks, mmcWrite_of_done (Emmc.report_of_reports h)]
      exact ih _ _ (Emmc.next_reports h)

/-- A device that answers is written. -/
theorem idmeWrite_of_reports (pbuf : Memory UInt8) (part : Partition)
    {dev : Emmc} (h : dev.reports = []) :
    (idmeWrite pbuf part dev).1 = true ∧
      (idmeWrite pbuf part dev).2.reports = [] := by
  cases part with
  | user => exact writeBlocks_of_reports _ _ _ _ h
  | boot =>
      obtain ⟨dev₁, hto, hnext₁⟩ := mmcSwPart_of_reports .boot h
      obtain ⟨hok, hnext₂⟩ := writeBlocks_of_reports pbuf
        (configIdmeSize / mmcBlockSize) 0 (areaBlock .boot) hnext₁
      obtain ⟨dev₃, hback, hnext₃⟩ := mmcSwPart_of_reports .user hnext₂
      unfold idmeWrite
      dsimp only
      rw [hto]
      dsimp only
      rw [hback, hok]
      exact ⟨rfl, hnext₃⟩

theorem areaWrites_take (part : Partition) (pbuf : Memory UInt8) {m n : ℕ}
    (hm : m ≤ n) :
    (areaWrites part pbuf n).take m = areaWrites part pbuf m := by
  rw [areaWrites, ← List.map_take, List.take_range, Nat.min_eq_left hm]
  rfl

theorem areaWrites_length (part : Partition) (pbuf : Memory UInt8) (n : ℕ) :
    (areaWrites part pbuf n).length = n := by
  rw [areaWrites, List.length_map, List.length_range]

theorem applyRecord_wrote {dev : Emmc} (hhonest : dev.Honest) :
    ∃ n, dev.Wrote
        (applyRecord (readArea dev.disk .user) (readArea dev.disk .boot) dev).2
        ((updateWrites dev.disk).take n) ∧
      (dev.reports = [] → (updateWrites dev.disk).length ≤ n) := by
  have hnothing : ¬ Requested dev.disk → updateWrites dev.disk = [] :=
    fun h => if_neg h
  have hnone : dev.Wrote dev [] := by
    refine ⟨rfl, ?_⟩
    rw [List.append_nil]
  unfold applyRecord
  by_cases hmagic : (readArea dev.disk .user).read 0 idmeMagicNumber.length =
      idmeMagicNumber
  · rw [if_neg (not_not_intro hmagic)]
    by_cases hsig : (readArea dev.disk .user).read
        (idmeBaseAddr + nvramSigInfo.offset) nvramSigInfo.size = nvramSig
    · rw [if_pos hsig, updateWrites, if_pos ⟨hmagic, hsig⟩]
      obtain ⟨m, hm, hwrote, hall⟩ :=
        idmeWrite_wrote (merged dev.disk) .boot hhonest (by simp)
      have hhonest₁ := idmeWrite_honest (merged dev.disk) .boot hhonest
      have hreports : dev.reports = [] → _ :=
        idmeWrite_of_reports (merged dev.disk) .boot
      rw [merged] at hwrote hall hreports hhonest₁
      split
      · rename_i dev₁ heq
        rw [heq] at hwrote
        refine ⟨m, ?_, ?_⟩
        · rw [List.take_append_of_le_length
            (by rw [areaWrites_length]; exact hm), areaWrites_take _ _ hm]
          exact hwrote
        · intro h
          have := (hreports h).1
          rw [heq] at this
          simp at this
      · rename_i dev₁ heq
        rw [heq] at hwrote hall hreports hhonest₁
        obtain ⟨rfl, haccess₁⟩ := hall rfl
        obtain ⟨m', hm', hwrote', hall'⟩ := idmeWrite_wrote
          (clearSig (readArea dev.disk .user)) .user hhonest₁ (fun _ => haccess₁)
        refine ⟨areaBlocks + m', ?_, ?_⟩
        · rw [List.take_append, areaWrites_length,
            List.take_of_length_le (by rw [areaWrites_length]; omega),
            Nat.add_sub_cancel_left, areaWrites_take _ _ hm']
          exact hwrote.trans hwrote'
        · intro h
          have hok := (idmeWrite_of_reports
            (clearSig (readArea dev.disk .user)) .user (hreports h).2).1
          rw [(hall' hok).1, List.length_append, areaWrites_length,
            areaWrites_length]
    · rw [if_neg hsig, hnothing fun h => hsig h.2]
      exact ⟨0, hnone, fun _ => Nat.zero_le _⟩
  · rw [if_pos hmagic, hnothing fun h => hmagic h.1]
    exact ⟨0, hnone, fun _ => Nat.zero_le _⟩

theorem Emmc.SameStore.wrote_trans {dev dev' dev'' : Emmc}
    {ws : List BlockWrite} (h : dev.SameStore dev')
    (h' : dev'.Wrote dev'' ws) : dev.Wrote dev'' ws := by
  have hboth := h.wrote.trans h'
  rwa [List.nil_append] at hboth

/-- A run makes the first of the update's writes, and all of them on a device
that answers. -/
theorem idmeUpdateVarsEx_wrote {dev : Emmc} (hhonest : dev.Honest)
    (haccess : dev.access = .user) :
    ∃ n, dev.Wrote (idmeUpdateVarsEx dev).2 ((updateWrites dev.disk).take n) ∧
      (dev.reports = [] → (updateWrites dev.disk).length ≤ n) := by
  unfold idmeUpdateVarsEx
  have huser := idmeRead_sameStore .user (fun _ => 0) dev
  have huserHonest := idmeRead_honest .user (fun _ => 0) hhonest
  have huserReports : dev.reports = [] → _ :=
    idmeRead_of_reports .user (fun _ => 0)
  split
  · rename_i dev₁ heq
    rw [heq] at huser huserReports
    exact ⟨0, huser.wrote, fun h => by simpa using huserReports h⟩
  · rename_i buffer dev₁ heq
    rw [heq] at huser huserReports huserHonest
    obtain ⟨haccess₁, hbuffer⟩ := idmeRead_of_some hhonest (fun _ => haccess) heq
    have hboot := idmeRead_sameStore .boot (fun _ => 0) dev₁
    have hbootHonest := idmeRead_honest .boot (fun _ => 0) huserHonest
    have hbootReports : dev₁.reports = [] → _ :=
      idmeRead_of_reports .boot (fun _ => 0)
    split
    · rename_i dev₂ heq'
      rw [heq'] at hboot hbootReports
      refine ⟨0, (huser.trans hboot).wrote, ?_⟩
      intro h
      obtain ⟨_, dev', hpair, hnext⟩ := huserReports h
      obtain ⟨-, rfl⟩ := Prod.mk.inj hpair
      simpa using hbootReports hnext
    · rename_i bootBuffer dev₂ heq'
      rw [heq'] at hboot hbootReports hbootHonest
      have hbootBuffer := (idmeRead_of_some huserHonest (by simp) heq').2
      have hstore := huser.trans hboot
      have hb : buffer = readArea dev₂.disk .user := by
        rw [hstore.1]
        exact funext hbuffer
      have hbb : bootBuffer = readArea dev₂.disk .boot := by
        rw [hboot.1]
        exact funext hbootBuffer
      obtain ⟨n, hwrote, hall⟩ := applyRecord_wrote hbootHonest
      rw [hb, hbb]
      rw [hstore.1] at hwrote hall ⊢
      refine ⟨n, hstore.wrote_trans hwrote, ?_⟩
      intro h
      obtain ⟨_, dev', hpair, hnext⟩ := huserReports h
      obtain ⟨-, rfl⟩ := Prod.mk.inj hpair
      obtain ⟨_, dev'', hpair', hnext'⟩ := hbootReports hnext
      obtain ⟨-, rfl⟩ := Prod.mk.inj hpair'
      exact hall hnext'

/-! ## What the update is for -/

/-- The byte at `k` of the area belongs to a variable whose bit is set. -/
def selectedAt (bitmap : ℕ) (nvs : List NvramT) (i k : ℕ) : Bool :=
  (nvs.zipIdx i).any fun p =>
    bitmap.testBit p.2 && (idmeBaseAddr + p.1.offset ≤ k &&
      k < idmeBaseAddr + p.1.offset + p.1.size)

/-- The boot partition with exactly the requested variables replaced. -/
def Disk.updated (disk : Disk) : Memory UInt8 :=
  fun k =>
    if Requested disk ∧
        selectedAt (bitmapOf (readArea disk .user)) nvramInfo 0 k = true then
      readArea disk .user k
    else disk.boot k

theorem copyVars_apply (bitmap : ℕ) (buffer : Memory UInt8) (i : ℕ)
    (nvs : List NvramT) (bootBuffer : Memory UInt8) (k : ℕ) :
    copyVars bitmap buffer i nvs bootBuffer k =
      if selectedAt bitmap nvs i k = true then buffer k else bootBuffer k := by
  induction nvs generalizing i bootBuffer with
  | nil => rfl
  | cons nv nvs ih =>
      have hcons : selectedAt bitmap (nv :: nvs) i k =
          ((bitmap.testBit i && (idmeBaseAddr + nv.offset ≤ k &&
            k < idmeBaseAddr + nv.offset + nv.size)) ||
              selectedAt bitmap nvs (i + 1) k) := by
        simp [selectedAt, List.zipIdx_cons]
      rw [copyVars, ih, hcons]
      by_cases hrest : selectedAt bitmap nvs (i + 1) k = true
      · rw [if_pos hrest, if_pos (by rw [hrest, Bool.or_true])]
      · rw [if_neg hrest]
        have hfalse : selectedAt bitmap nvs (i + 1) k = false := by
          simpa using hrest
        rw [hfalse, Bool.or_false]
        by_cases hbit : bitmap.testBit i = true
        · rw [if_pos hbit, hbit, Bool.true_and]
          by_cases hin : idmeBaseAddr + nv.offset ≤ k ∧
              k < idmeBaseAddr + nv.offset + nv.size
          · rw [if_pos (by simpa using hin)]
            have hlen : k - (idmeBaseAddr + nv.offset) <
                (buffer.read (idmeBaseAddr + nv.offset) nv.size).length := by
              rw [Memory.read_length]
              omega
            have hcopy := Memory.copyIn_add (m := bootBuffer)
              (p := idmeBaseAddr + nv.offset) hlen
            rw [Memory.read_getElem] at hcopy
            have hk : idmeBaseAddr + nv.offset +
                (k - (idmeBaseAddr + nv.offset)) = k := by omega
            rwa [hk] at hcopy
          · rw [if_neg (by simpa using hin)]
            rcases Nat.lt_or_ge k (idmeBaseAddr + nv.offset) with hlt | hge
            · exact Memory.copyIn_of_lt _ hlt
            · apply Memory.copyIn_of_ge
              rw [Memory.read_length]
              omega
        · rw [if_neg hbit]
          have hbit' : bitmap.testBit i = false := by simpa using hbit
          rw [hbit', Bool.false_and]
          rfl

/-- A selected byte is inside the area. -/
theorem selectedAt_lt {bitmap k : ℕ}
    (h : selectedAt bitmap nvramInfo 0 k = true) : k < configIdmeSize := by
  obtain ⟨p, hp, hin⟩ := List.any_eq_true.mp h
  have hall : ∀ p ∈ nvramInfo.zipIdx 0,
      idmeBaseAddr + p.1.offset + p.1.size ≤ configIdmeSize := by decide
  have hbound := hall p hp
  simp only [Bool.and_eq_true, decide_eq_true_eq] at hin
  omega

theorem areaWrites_succ (part : Partition) (pbuf : Memory UInt8) (n : ℕ) :
    areaWrites part pbuf (n + 1) = areaWrites part pbuf n ++
      [⟨part, areaBlock part + n,
        pbuf.read (n * mmcBlockSize) mmcBlockSize⟩] := by
  rw [areaWrites, List.range_succ, List.map_append, List.map_singleton]
  rfl

/-- Memory with the first `n` cells of a buffer from `base` on. -/
def overlay (m pbuf : Memory UInt8) (base n : ℕ) : Memory UInt8 :=
  fun k => if base ≤ k ∧ k < base + n then pbuf (k - base) else m k

theorem overlay_zero (m pbuf : Memory UInt8) (base : ℕ) :
    overlay m pbuf base 0 = m := by
  funext k
  rw [overlay, if_neg (by omega)]

/-- One more piece of the buffer. -/
theorem copyIn_overlay (m pbuf : Memory UInt8) (base n size : ℕ) :
    (overlay m pbuf base n).copyIn (base + n) (pbuf.read n size) =
      overlay m pbuf base (n + size) := by
  funext k
  rcases Nat.lt_or_ge k (base + n) with hlt | hge
  · rw [Memory.copyIn_of_lt _ hlt, overlay, overlay]
    by_cases hlow : base ≤ k
    · rw [if_pos ⟨hlow, hlt⟩, if_pos (by omega)]
    · rw [if_neg (by omega), if_neg (by omega)]
  · by_cases hin : k < base + n + size
    · have hlen : k - (base + n) < (pbuf.read n size).length := by
        rw [Memory.read_length]
        omega
      have hcopy := Memory.copyIn_add (m := overlay m pbuf base n)
        (p := base + n) hlen
      have hk : base + n + (k - (base + n)) = k := by omega
      have hbuf : n + (k - (base + n)) = k - base := by omega
      rw [Memory.read_getElem, hk, hbuf] at hcopy
      rw [hcopy, overlay, if_pos (by omega)]
    · rw [Memory.copyIn_of_ge (by rw [Memory.read_length]; omega), overlay,
        overlay, if_neg (by omega), if_neg (by omega)]

/-- The first writes of a buffer to the boot area. -/
theorem storeAll_bootWrites (disk : Disk) (pbuf : Memory UInt8) (n : ℕ) :
    disk.storeAll (areaWrites .boot pbuf n) =
      ⟨disk.user, overlay disk.boot pbuf 0 (n * mmcBlockSize)⟩ := by
  induction n with
  | zero =>
      rw [Nat.zero_mul, overlay_zero]
      rfl
  | succ n ih =>
      have hnext := copyIn_overlay disk.boot pbuf 0 (n * mmcBlockSize)
        mmcBlockSize
      rw [areaWrites_succ, storeAll_append, ih, Nat.add_one_mul, ← hnext]
      simp only [Disk.storeAll, List.foldl_cons, List.foldl_nil, store_boot,
        areaBlock, Nat.zero_add]

/-- The first writes of a buffer to the user area. -/
theorem storeAll_userWrites (disk : Disk) (pbuf : Memory UInt8) (n : ℕ) :
    disk.storeAll (areaWrites .user pbuf n) =
      ⟨overlay disk.user pbuf (areaBlock .user * mmcBlockSize)
        (n * mmcBlockSize), disk.boot⟩ := by
  induction n with
  | zero =>
      rw [Nat.zero_mul, overlay_zero]
      rfl
  | succ n ih =>
      have hnext := copyIn_overlay disk.user pbuf
        (areaBlock .user * mmcBlockSize) (n * mmcBlockSize) mmcBlockSize
      rw [← Nat.add_mul] at hnext
      rw [areaWrites_succ, storeAll_append, ih, Nat.add_one_mul, ← hnext]
      simp only [Disk.storeAll, List.foldl_cons, List.foldl_nil, store_user]

/-- What an update leaves in the boot partition, written up to its `n`th
block. -/
theorem overlay_merged (disk : Disk) (hrequested : Requested disk) {n k : ℕ}
    (hk : k < configIdmeSize) :
    overlay disk.boot (merged disk) 0 n k =
      if k < n then disk.updated k else disk.boot k := by
  have hboot : readArea disk .boot k = disk.boot k := by
    rw [readArea, if_pos hk, areaBlock, Nat.zero_mul, Nat.zero_add]
    rfl
  rw [overlay, Nat.zero_add, Nat.sub_zero, merged, copyVars_apply, hboot,
    Disk.updated]
  simp only [Nat.zero_le, true_and, hrequested]

theorem updated_of_not_requested {disk : Disk} (h : ¬ Requested disk) :
    disk.updated = disk.boot := by
  funext k
  rw [Disk.updated, if_neg (by tauto)]

/-- The boot partition only shows where nothing is selected. -/
theorem updated_of_user (disk : Disk) (boot : Memory UInt8) (k : ℕ) :
    (⟨disk.user, boot⟩ : Disk).updated k =
      if Requested disk ∧ selectedAt (bitmapOf (readArea disk .user))
          nvramInfo 0 k = true then readArea disk .user k
      else boot k := rfl

/-- Behind the area nothing is updated. -/
theorem updated_of_ge (disk : Disk) {k : ℕ} (hk : configIdmeSize ≤ k) :
    disk.updated k = disk.boot k := by
  rw [Disk.updated, if_neg]
  rintro ⟨-, hselected⟩
  have := selectedAt_lt hselected
  omega

theorem areaBlocks_mul : areaBlocks * mmcBlockSize = configIdmeSize := by
  decide

/-- All writes to the boot area bring it up to date. -/
theorem overlay_merged_all (disk : Disk) (hrequested : Requested disk) :
    overlay disk.boot (merged disk) 0 configIdmeSize = disk.updated := by
  funext k
  by_cases hk : k < configIdmeSize
  · rw [overlay_merged disk hrequested hk, if_pos hk]
  · rw [overlay, if_neg (by omega), updated_of_ge disk (by omega)]

/-- A user area that got its first block back without the signature requests
nothing. -/
theorem not_requested_of_cleared (disk : Disk) (boot : Memory UInt8) {m : ℕ}
    (hm : 0 < m) :
    ¬ Requested ⟨overlay disk.user (clearSig (readArea disk .user))
      (areaBlock .user * mmcBlockSize) (m * mmcBlockSize), boot⟩ := by
  rintro ⟨-, hsig⟩
  have hfirst := congrArg (fun l => l.getD 0 0) hsig
  have hlen : 0 < nvramSigInfo.size := by decide
  have hm' := Nat.mul_le_mul_right mmcBlockSize hm
  have hplace : idmeBaseAddr + nvramSigInfo.offset < m * mmcBlockSize := by
    have hlt : idmeBaseAddr + nvramSigInfo.offset < mmcBlockSize := by decide
    omega
  have hin : idmeBaseAddr + nvramSigInfo.offset < configIdmeSize := by decide
  rw [List.getD_eq_getElem _ _ (by rwa [Memory.read_length]),
    Memory.read_getElem, Nat.add_zero, readArea, if_pos hin] at hfirst
  simp only [Disk.area] at hfirst
  rw [overlay, if_pos (by omega), Nat.add_sub_cancel_left, clearSig,
    Memory.fill, if_neg (by decide), Memory.fill, if_pos (by decide)] at hfirst
  exact absurd hfirst (by decide)

theorem updateWrites_of_requested {disk : Disk} (h : Requested disk) :
    updateWrites disk = areaWrites .boot (merged disk) areaBlocks ++
      areaWrites .user (clearSig (readArea disk .user)) areaBlocks := if_pos h

/-- A cut update leaves the outcome of the next update as it was. -/
theorem updated_storeAll_take (disk : Disk) (n : ℕ) :
    (disk.storeAll ((updateWrites disk).take n)).updated = disk.updated := by
  by_cases hrequested : Requested disk
  · rw [updateWrites_of_requested hrequested]
    by_cases hn : n ≤ areaBlocks
    · -- the record is still there, and the boot area is partly up to date
      rw [List.take_append_of_le_length (by rw [areaWrites_length]; exact hn),
        areaWrites_take _ _ hn, storeAll_bootWrites]
      funext k
      by_cases hk : k < configIdmeSize
      · rw [updated_of_user, overlay_merged disk hrequested hk]
        by_cases hselected : Requested disk ∧ selectedAt
            (bitmapOf (readArea disk .user)) nvramInfo 0 k = true
        · rw [if_pos hselected, Disk.updated, if_pos hselected]
        · have hold : disk.updated k = disk.boot k := if_neg hselected
          rw [if_neg hselected, hold, ite_self]
      · have hbound := Nat.mul_le_mul_right mmcBlockSize hn
        rw [areaBlocks_mul] at hbound
        rw [updated_of_ge _ (by omega), updated_of_ge _ (by omega)]
        dsimp only
        rw [overlay, if_neg (by omega)]
    · -- the boot area is up to date, and the signature is gone
      obtain ⟨m, rfl⟩ := Nat.exists_eq_add_of_le (Nat.le_of_not_le hn)
      rw [List.take_append, areaWrites_length,
        List.take_of_length_le (by rw [areaWrites_length]; omega),
        Nat.add_sub_cancel_left, storeAll_append, storeAll_bootWrites,
        areaBlocks_mul, overlay_merged_all disk hrequested]
      rcases Nat.le_total m areaBlocks with hm | hm
      · rw [areaWrites_take _ _ hm, storeAll_userWrites]
        exact updated_of_not_requested
          (not_requested_of_cleared disk _ (by omega))
      · rw [List.take_of_length_le (by rw [areaWrites_length]; exact hm),
          storeAll_userWrites]
        exact updated_of_not_requested
          (not_requested_of_cleared disk _ (by decide))
  · rw [updateWrites, if_neg hrequested, List.take_nil]
    rfl

/-- A complete update brings the boot partition up to date. -/
theorem storeAll_updateWrites (disk : Disk) :
    (disk.storeAll (updateWrites disk)).boot = disk.updated := by
  by_cases hrequested : Requested disk
  · rw [updateWrites_of_requested hrequested, storeAll_append,
      storeAll_userWrites, storeAll_bootWrites, areaBlocks_mul,
      overlay_merged_all disk hrequested]
  · rw [updateWrites, if_neg hrequested, updated_of_not_requested hrequested]
    rfl

/-! ## Cut runs -/

/-- The device after power-on, with the outcomes of the coming commands. -/
def powerOn (disk : Disk) (reports : List Report) : Emmc :=
  ⟨disk, .user, reports, []⟩

/-- A run at boot that is cut off behind its first writes: the outcomes of its
commands and the number of its writes that are made. -/
def cutRun (disk : Disk) (cut : List Report × ℕ) : Disk :=
  disk.storeAll
    ((idmeUpdateVarsEx (powerOn disk cut.1)).2.written.take cut.2)

theorem updated_cutRun (disk : Disk) {cut : List Report × ℕ}
    (hcut : ∀ r ∈ cut.1, r.Honest) : (cutRun disk cut).updated = disk.updated := by
  obtain ⟨n, hwrote, -⟩ := idmeUpdateVarsEx_wrote
    (show (powerOn disk cut.1).Honest from hcut)
    (show (powerOn disk cut.1).access = .user from rfl)
  rw [cutRun, hwrote.2]
  simp only [powerOn, List.nil_append, List.take_take]
  exact updated_storeAll_take disk _

theorem updated_cutRuns (disk : Disk) {cuts : List (List Report × ℕ)}
    (hcuts : ∀ cut ∈ cuts, ∀ r ∈ cut.1, r.Honest) :
    (cuts.foldl cutRun disk).updated = disk.updated := by
  induction cuts generalizing disk with
  | nil => rfl
  | cons cut cuts ih =>
      rw [List.foldl_cons, ih _ fun c hc => hcuts c (List.mem_cons_of_mem _ hc),
        updated_cutRun disk (hcuts cut List.mem_cons_self)]

/-- After any number of runs that were cut off, or failed, anywhere, a run
that is not cut off leaves the boot partition with exactly the variables
replaced that the record had selected before the first of them. -/
theorem idmeUpdateVarsEx_cutRuns (disk : Disk) (cuts : List (List Report × ℕ))
    (hcuts : ∀ cut ∈ cuts, ∀ r ∈ cut.1, r.Honest) :
    (idmeUpdateVarsEx (powerOn (cuts.foldl cutRun disk) [])).2.disk.boot =
      disk.updated := by
  obtain ⟨n, hwrote, hall⟩ := idmeUpdateVarsEx_wrote
    (show (powerOn (cuts.foldl cutRun disk) []).Honest from by simp [powerOn, Emmc.Honest])
    (show (powerOn (cuts.foldl cutRun disk) []).access = .user from rfl)
  rw [hwrote.1, List.take_of_length_le (hall rfl)]
  simp only [powerOn]
  rw [storeAll_updateWrites, updated_cutRuns disk hcuts]

/-- A signed record that selects `bootmode`, with the value `4`. -/
def bootmodeRecord : Memory UInt8 :=
  let m : Memory UInt8 := fun _ => 0
  (((m.copyIn 0x80000 idmeMagicNumber).copyIn (0x80000 + 8 + 0x1f0)
    nvramSig).copyIn (0x80000 + 8 + 0x1fc) [0, 1]).copyIn
      (0x80000 + 8 + 0x1000) (text "4")

/-- The disk with the signed record. -/
def bootmodeDisk : Disk := ⟨bootmodeRecord, fun _ => 0⟩

example : bootmodeDisk.updated (8 + 0x1000) = ch '4' := by decide

/-- A run that is cut off behind nine of its writes, and one whose first write is
refused. -/
theorem idmeUpdateVarsEx_cutRuns_bootmode :
    (idmeUpdateVarsEx (powerOn
        ([([], 9), (List.replicate 67 .done ++ [.refused 0], 64)].foldl cutRun
          bootmodeDisk) [])).2.disk.boot =
      bootmodeDisk.updated :=
  idmeUpdateVarsEx_cutRuns bootmodeDisk _ (by decide)

end TateFirmware.Idme
