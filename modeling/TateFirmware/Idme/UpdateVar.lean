import TateFirmware.Idme.Nvram

/-!
# Updating one variable

`idmeUpdateVar` and `idmeGetVar` work on one block of the boot partition
through the buffer `gblock_buff`.  The buffer is modeled as the memory from its
first byte on, so that an access behind its end has an effect, together with
how far the accesses so far have reached.
-/

namespace TateFirmware.Idme

open LibGeneric Support

/-- The device and `gblock_buff`. -/
structure IdmeState where
  dev : Emmc
  gblockBuff : Memory UInt8
  /-- Every access to `gblock_buff` so far was to a byte below this one. -/
  high : ℕ

/-- An access to the `n` bytes of `gblock_buff` from `p` on. -/
def IdmeState.touch (st : IdmeState) (p n : ℕ) : IdmeState :=
  { st with high := if n = 0 then st.high else max st.high (p + n) }

/-- `mmc_read` of one block into `gblock_buff`, with its value. -/
def readBlock (block : ℕ) (st : IdmeState) : UInt8 × IdmeState :=
  match mmcRead block st.dev with
  | (status, none, dev) => (status, { st with dev := dev })
  | (status, some data, dev) =>
      (status,
        ({ st with dev := dev, gblockBuff := st.gblockBuff.copyIn 0 data }).touch
          0 mmcBlockSize)

/-- `mmc_write` of `gblock_buff` to a block; whether it returns `1`. -/
def writeBlock (block : ℕ) (st : IdmeState) : Bool × IdmeState :=
  let (ok, dev) := mmcWrite block (st.gblockBuff.read 0 mmcBlockSize) st.dev
  (ok, ({ st with dev := dev }).touch 0 mmcBlockSize)

/-- `mmc_sw_part`; whether it returns `1`. -/
def swPart (part : Partition) (st : IdmeState) : Bool × IdmeState :=
  let (ok, dev) := mmcSwPart part st.dev
  (ok, { st with dev := dev })

/-- `memset(gblock_buff + offset, 0, size)` and the copy of the value. -/
def putValue (offset size : ℕ) (value : Option (List UInt8)) (st : IdmeState) :
    IdmeState :=
  let st := ({ st with
    gblockBuff := st.gblockBuff.fill offset size 0 }).touch offset size
  match value with
  | none => st
  | some value =>
      ({ st with
        gblockBuff :=
          st.gblockBuff.copyIn offset (value.take size) }).touch offset
        (value.take size).length

/-- `idme_update_var`: whether it returns `1`. -/
def idmeUpdateVar (name : List UInt8) (value : Option (List UInt8))
    (st : IdmeState) : Bool × IdmeState :=
  match idmeFindVar name with
  | none => (false, st)
  | some nv =>
      let block := (nv.offset + idmeBaseAddr) / mmcBlockSize
      let offset := (nv.offset + idmeBaseAddr) % mmcBlockSize
      match swPart .boot st with
      | (false, st) => (false, st)
      | (true, st) =>
          match readBlock block st with
          | (status, st) =>
              if status ≠ 1 then (false, (swPart .user st).2)
              else
                match writeBlock block (putValue offset nv.size value st) with
                | (ok, st) =>
                    match swPart .user st with
                    | (back, st) => (back && ok, st)

/-- `idme_get_var`. -/
def idmeGetVar (name : List UInt8) (buflen : ℕ) (st : IdmeState) :
    GetVar × IdmeState :=
  match idmeFindVar name with
  | none => (.error, st)
  | some nv =>
      let block := (nv.offset + idmeBaseAddr) / mmcBlockSize
      let offset := (nv.offset + idmeBaseAddr) % mmcBlockSize
      match swPart .boot st with
      | (false, st) => (.error, st)
      | (true, st) =>
          match readBlock block st with
          | (status, st) =>
              match swPart .user st with
              | (false, st) => (.error, st)
              | (true, st) =>
                  if status ≠ 1 then (.failed status, st)
                  else if nv.size + 1 > buflen then (.tooSmall (nv.size + 1), st)
                  else (.value (st.gblockBuff.read offset nv.size),
                    st.touch offset nv.size)

/-- The state with other outcomes of the coming commands. -/
def IdmeState.withReports (st : IdmeState) (reports : List Report) : IdmeState :=
  { st with dev := { st.dev with reports := reports } }

/-- `idme_read` of the boot area and `idme_get_var_ex` from what it read. -/
def readVarEx (name : List UInt8) (buflen : ℕ) (dev : Emmc) : GetVar :=
  match (idmeRead .boot (fun _ => 0) dev).1 with
  | none => .error
  | some pbuf => idmeGetVarEx (pbuf.shift idmeBaseAddr) name buflen

/-! ## What an update does -/

/-- A value filled up to the size of its variable. -/
def padded (nv : NvramT) (value : List UInt8) : List UInt8 :=
  value ++ List.replicate (nv.size - value.length) 0

/-- The contract of an update, about the state before it: its accesses and
those of reading back stay inside the block buffer, both readers return the
new value, and the other variables read back as before. -/
def UpdateContract (nv : NvramT) (value : List UInt8) (st : IdmeState) : Prop :=
  let st' := (idmeUpdateVar nv.name (some value) st).2
  st'.high ≤ mmcBlockSize ∧
  (∀ buflen > nv.size,
    (idmeGetVar nv.name buflen (st'.withReports [])).1 =
      .value (padded nv value) ∧
    (idmeGetVar nv.name buflen (st'.withReports [])).2.high ≤ mmcBlockSize ∧
    readVarEx nv.name buflen (st'.withReports []).dev =
      .value (padded nv value)) ∧
  ∀ other ∈ nvramInfo, other ≠ nv → ∀ buflen,
    (idmeGetVar other.name buflen (st'.withReports [])).1 =
      (idmeGetVar other.name buflen (st.withReports [])).1 ∧
    readVarEx other.name buflen (st'.withReports []).dev =
      readVarEx other.name buflen (st.withReports []).dev

/-- The report of the command behind the coming `n`. -/
def IdmeState.report (st : IdmeState) (n : ℕ) : Report :=
  (st.dev.reports.drop n).headD .done

/-- The partition that is selected behind the switch of an operation. -/
def IdmeState.reached (st : IdmeState) : Partition :=
  if (st.report 0).refusal = none then .boot else st.dev.access

/-- What the read of an operation leaves in `gblock_buff`. -/
def IdmeState.fetched (st : IdmeState) (block : ℕ) : Memory UInt8 :=
  if (st.report 1).moves then
    st.gblockBuff.copyIn 0
      ((st.dev.disk.area st.reached).read (block * mmcBlockSize) mmcBlockSize)
  else st.gblockBuff

/-- The block of an update gets into the boot partition. -/
def IdmeState.StoresBoot (st : IdmeState) : Prop :=
  st.reached = .boot ∧ (st.report 2).moves = true

instance (st : IdmeState) : Decidable st.StoresBoot :=
  inferInstanceAs (Decidable (_ ∧ _))

/-- The block of a variable. -/
def NvramT.block (nv : NvramT) : ℕ := (nv.offset + idmeBaseAddr) / mmcBlockSize

/-- Where a variable starts in its block. -/
def NvramT.inBlock (nv : NvramT) : ℕ :=
  (nv.offset + idmeBaseAddr) % mmcBlockSize

theorem idmeFindVar_name {nv : NvramT} (hnv : nv ∈ nvramInfo) :
    idmeFindVar nv.name = some nv := by
  have hall : ∀ nv ∈ nvramInfo, idmeFindVar nv.name = some nv := by decide
  exact hall nv hnv

/-- The variables do not overlap. -/
theorem nvramInfo_disjoint {nv other : NvramT} (hnv : nv ∈ nvramInfo)
    (hother : other ∈ nvramInfo) (hne : other ≠ nv) :
    nv.offset + nv.size ≤ other.offset ∨
      other.offset + other.size ≤ nv.offset := by
  have hall : ∀ nv ∈ nvramInfo, ∀ other ∈ nvramInfo, other ≠ nv →
      nv.offset + nv.size ≤ other.offset ∨
        other.offset + other.size ≤ nv.offset := by decide
  exact hall nv hnv other hother hne

/-- Every variable but two lies in one block. -/
theorem nvramInfo_inBlock {nv : NvramT} (hnv : nv ∈ nvramInfo) :
    nv.inBlock + nv.size ≤ mmcBlockSize ↔
      nv.name ≠ text "camcal" ∧ nv.name ≠ text "mfg" := by
  have hall : ∀ nv ∈ nvramInfo, nv.inBlock + nv.size ≤ mmcBlockSize ↔
      nv.name ≠ text "camcal" ∧ nv.name ≠ text "mfg" := by decide
  exact hall nv hnv

/-- The area ends behind the variables. -/
theorem nvramInfo_bound {nv : NvramT} (hnv : nv ∈ nvramInfo) :
    0 < nv.size ∧ idmeBaseAddr + nv.offset + nv.size ≤ configIdmeSize := by
  have hall : ∀ nv ∈ nvramInfo, 0 < nv.size ∧
      idmeBaseAddr + nv.offset + nv.size ≤ configIdmeSize := by decide
  exact hall nv hnv

/-! ## The steps of an update -/

@[simp] theorem touch_dev (st : IdmeState) (p n : ℕ) :
    (st.touch p n).dev = st.dev := rfl

@[simp] theorem touch_gblockBuff (st : IdmeState) (p n : ℕ) :
    (st.touch p n).gblockBuff = st.gblockBuff := rfl

theorem touch_high (st : IdmeState) (p n : ℕ) :
    (st.touch p n).high = if n = 0 then st.high else max st.high (p + n) := rfl

theorem swPart_fst (part : Partition) (st : IdmeState) :
    (swPart part st).1 = (st.report 0).accepted := rfl

theorem swPart_disk (part : Partition) (st : IdmeState) :
    (swPart part st).2.dev.disk = st.dev.disk := rfl

theorem swPart_access (part : Partition) (st : IdmeState) :
    (swPart part st).2.dev.access =
      if (st.report 0).refusal = none then part else st.dev.access := rfl

theorem swPart_gblockBuff (part : Partition) (st : IdmeState) :
    (swPart part st).2.gblockBuff = st.gblockBuff := rfl

theorem swPart_high (part : Partition) (st : IdmeState) :
    (swPart part st).2.high = st.high := rfl

theorem report_succ {st st' : IdmeState} (h : st'.dev.reports = st.dev.reports.tail)
    (n : ℕ) : st'.report n = st.report (n + 1) := by
  rw [IdmeState.report, IdmeState.report, h, ← List.drop_one, List.drop_drop,
    Nat.add_comm]

theorem swPart_report (part : Partition) (st : IdmeState) (n : ℕ) :
    (swPart part st).2.report n = st.report (n + 1) := report_succ rfl n

section ReadBlock

variable (block : ℕ) (st : IdmeState)

/-- The two cases of a read. -/
theorem readBlock_eq :
    readBlock block st =
      ((st.report 0).readStatus,
        if (st.report 0).moves then
          ({ st with
            dev := st.dev.next
            gblockBuff := st.gblockBuff.copyIn 0
              ((st.dev.disk.area st.dev.access).read (block * mmcBlockSize)
                mmcBlockSize) }).touch 0 mmcBlockSize
        else { st with dev := st.dev.next }) := by
  have hreport : st.dev.report = st.report 0 := rfl
  unfold readBlock mmcRead
  rw [hreport]
  by_cases hmoves : (st.report 0).moves = true
  · rw [if_pos hmoves, if_pos hmoves]
  · rw [if_neg hmoves, if_neg hmoves]

theorem readBlock_fst : (readBlock block st).1 = (st.report 0).readStatus := by
  rw [readBlock_eq]

theorem readBlock_dev : (readBlock block st).2.dev = st.dev.next := by
  rw [readBlock_eq]
  dsimp only
  split <;> rfl

theorem readBlock_gblockBuff :
    (readBlock block st).2.gblockBuff =
      if (st.report 0).moves then
        st.gblockBuff.copyIn 0
          ((st.dev.disk.area st.dev.access).read (block * mmcBlockSize) mmcBlockSize)
      else st.gblockBuff := by
  rw [readBlock_eq]
  by_cases hmoves : (st.report 0).moves = true
  · rw [if_pos hmoves, if_pos hmoves, touch_gblockBuff]
  · rw [if_neg hmoves, if_neg hmoves]

theorem readBlock_high :
    (readBlock block st).2.high =
      if (st.report 0).moves then max st.high mmcBlockSize else st.high := by
  rw [readBlock_eq]
  dsimp only
  split
  · rw [touch_high, if_neg (by decide), Nat.zero_add]
  · rfl

theorem readBlock_report (n : ℕ) :
    (readBlock block st).2.report n = st.report (n + 1) :=
  report_succ (congrArg Emmc.reports (readBlock_dev block st)) n

theorem writeBlock_fst : (writeBlock block st).1 = (st.report 0).accepted := rfl

theorem writeBlock_disk :
    (writeBlock block st).2.dev.disk =
      if (st.report 0).moves then
        st.dev.disk.store ⟨st.dev.access, block, st.gblockBuff.read 0 mmcBlockSize⟩
      else st.dev.disk := by
  have hreport : st.dev.report = st.report 0 := rfl
  unfold writeBlock mmcWrite
  rw [hreport]
  dsimp only
  split <;> rfl

theorem writeBlock_gblockBuff :
    (writeBlock block st).2.gblockBuff = st.gblockBuff := rfl

theorem writeBlock_high :
    (writeBlock block st).2.high = max st.high mmcBlockSize := by
  unfold writeBlock
  dsimp only
  rw [touch_high, if_neg (by decide), Nat.zero_add]

theorem writeBlock_report (n : ℕ) :
    (writeBlock block st).2.report n = st.report (n + 1) := by
  refine report_succ ?_ n
  unfold writeBlock mmcWrite
  dsimp only
  split <;> rfl

end ReadBlock

/-- The buffer with a value put into it. -/
theorem putValue_gblockBuff {offset size : ℕ} {value : List UInt8}
    {st : IdmeState} (hvalue : value.length ≤ size) (k : ℕ) :
    (putValue offset size (some value) st).gblockBuff k =
      if k < offset ∨ offset + size ≤ k then st.gblockBuff k
      else value.getD (k - offset) 0 := by
  have htake : value.take size = value := List.take_of_length_le hvalue
  simp only [putValue, IdmeState.touch, htake, Memory.copyIn, Memory.fill]
  by_cases hlt : k < offset
  · rw [if_pos hlt, if_neg (by omega), if_pos (Or.inl hlt)]
  · rw [if_neg hlt]
    by_cases hge : offset + size ≤ k
    · rw [if_neg (by omega), if_pos (Or.inr hge),
        List.getD_eq_default _ _ (by omega)]
    · rw [if_pos (by omega), if_neg (by omega)]

theorem putValue_high {offset size : ℕ} {value : List UInt8}
    {st : IdmeState} (hsize : 0 < size) (hvalue : value.length ≤ size) :
    (putValue offset size (some value) st).high =
      max st.high (offset + size) := by
  have htake : value.take size = value := List.take_of_length_le hvalue
  simp only [putValue, IdmeState.touch, htake, if_neg (Nat.ne_of_gt hsize)]
  split <;> omega

@[simp] theorem putValue_dev (offset size : ℕ) (value : Option (List UInt8))
    (st : IdmeState) : (putValue offset size value st).dev = st.dev := by
  cases value <;> rfl

theorem putValue_report (offset size : ℕ) (value : Option (List UInt8))
    (st : IdmeState) (n : ℕ) : (putValue offset size value st).report n = st.report n := by
  rw [IdmeState.report, putValue_dev, IdmeState.report]

/-- The state of an update in front of its write. -/
def NvramT.prepared (nv : NvramT) (value : List UInt8) (st : IdmeState) : IdmeState :=
  putValue nv.inBlock nv.size (some value) (readBlock nv.block (swPart .boot st).2).2

section Prepared

variable {nv : NvramT} {value : List UInt8} (st : IdmeState)

theorem prepared_report (n : ℕ) :
    (nv.prepared value st).report n = st.report (n + 2) := by
  rw [NvramT.prepared, putValue_report, readBlock_report, swPart_report]

theorem prepared_disk : (nv.prepared value st).dev.disk = st.dev.disk := by
  rw [NvramT.prepared, putValue_dev, readBlock_dev, Emmc.next, swPart_disk]

theorem prepared_access : (nv.prepared value st).dev.access = st.reached := by
  rw [NvramT.prepared, putValue_dev, readBlock_dev, Emmc.next, swPart_access]
  rfl

theorem fetched_eq (block : ℕ) :
    (readBlock block (swPart .boot st).2).2.gblockBuff = st.fetched block := by
  rw [readBlock_gblockBuff, swPart_report, swPart_access, swPart_disk,
    swPart_gblockBuff]
  rfl

theorem prepared_gblockBuff (hvalue : value.length ≤ nv.size) (k : ℕ) :
    (nv.prepared value st).gblockBuff k =
      if k < nv.inBlock ∨ nv.inBlock + nv.size ≤ k then st.fetched nv.block k
      else value.getD (k - nv.inBlock) 0 := by
  rw [NvramT.prepared, putValue_gblockBuff hvalue, fetched_eq]

end Prepared

/-- An update fails at its switch or at its read, or gets to its write. -/
theorem idmeUpdateVar_eq {nv : NvramT} (hnv : nv ∈ nvramInfo) (value : List UInt8)
    (st : IdmeState) :
    idmeUpdateVar nv.name (some value) st =
      if (st.report 0).accepted = false then (false, (swPart .boot st).2)
      else if (st.report 1).readStatus ≠ 1 then
        (false, (swPart .user (readBlock nv.block (swPart .boot st).2).2).2)
      else
        ((st.report 3).accepted && (st.report 2).accepted,
          (swPart .user (writeBlock nv.block (nv.prepared value st)).2).2) := by
  have hblock : (nv.offset + idmeBaseAddr) / mmcBlockSize = nv.block := rfl
  have hin : (nv.offset + idmeBaseAddr) % mmcBlockSize = nv.inBlock := rfl
  have hto : swPart .boot st = ((st.report 0).accepted, (swPart .boot st).2) := rfl
  have hread : readBlock nv.block (swPart .boot st).2 =
      ((st.report 1).readStatus, (readBlock nv.block (swPart .boot st).2).2) :=
    Prod.ext (by rw [readBlock_fst, swPart_report]) rfl
  have hwrite : writeBlock nv.block (nv.prepared value st) =
      ((st.report 2).accepted, (writeBlock nv.block (nv.prepared value st)).2) :=
    Prod.ext (by rw [writeBlock_fst, prepared_report]) rfl
  have hback : swPart .user (writeBlock nv.block (nv.prepared value st)).2 =
      ((st.report 3).accepted,
        (swPart .user (writeBlock nv.block (nv.prepared value st)).2).2) :=
    Prod.ext (by rw [swPart_fst, writeBlock_report, prepared_report]) rfl
  unfold idmeUpdateVar
  simp only [idmeFindVar_name hnv, hblock, hin]
  rw [hto]
  cases haccepted : (st.report 0).accepted with
  | false => rw [if_pos rfl]
  | true =>
      rw [if_neg (by simp)]
      dsimp only
      rw [hread]
      dsimp only
      by_cases hstatus : (st.report 1).readStatus ≠ 1
      · rw [if_pos hstatus, if_pos hstatus]
      · rw [if_neg hstatus, if_neg hstatus, ← NvramT.prepared, hwrite]
        dsimp only
        rw [hback]

/-- What a successful update leaves behind. -/
theorem idmeUpdateVar_of_true {nv : NvramT} {value : List UInt8}
    {st st' : IdmeState} (hnv : nv ∈ nvramInfo)
    (hvalue : value.length ≤ nv.size)
    (h : idmeUpdateVar nv.name (some value) st = (true, st')) :
    (∀ k, st'.gblockBuff k =
      if k < nv.inBlock ∨ nv.inBlock + nv.size ≤ k then st.fetched nv.block k
      else value.getD (k - nv.inBlock) 0) ∧
    st'.dev.disk =
      (if (st.report 2).moves then
        st.dev.disk.store
          ⟨st.reached, nv.block, st'.gblockBuff.read 0 mmcBlockSize⟩
      else st.dev.disk) ∧
    st'.high = max (max st.high mmcBlockSize) (nv.inBlock + nv.size) := by
  rw [idmeUpdateVar_eq hnv] at h
  split at h
  · cases (Prod.mk.inj h).1
  · split at h
    · cases (Prod.mk.inj h).1
    · obtain rfl := (Prod.mk.inj h).2
      refine ⟨?_, ?_, ?_⟩
      · intro k
        rw [swPart_gblockBuff, writeBlock_gblockBuff, prepared_gblockBuff _ hvalue]
      · rw [swPart_disk, swPart_gblockBuff, writeBlock_gblockBuff, writeBlock_disk,
          prepared_report, prepared_access, prepared_disk]
      · rw [swPart_high, writeBlock_high, NvramT.prepared,
          putValue_high (nvramInfo_bound hnv).1 hvalue, readBlock_high, swPart_high]
        split <;> omega

/-- Where a variable lies in the boot partition. -/
theorem NvramT.place (nv : NvramT) :
    nv.block * mmcBlockSize + nv.inBlock = idmeBaseAddr + nv.offset := by
  have hdiv := Nat.div_add_mod (nv.offset + idmeBaseAddr) mmcBlockSize
  rw [NvramT.block, NvramT.inBlock]
  rw [Nat.mul_comm] at hdiv
  omega

/-- The block of a variable with a value put into it, stored into a partition. -/
theorem copyIn_block {nv : NvramT} {value : List UInt8} {boot src buff : Memory UInt8}
    (hbuff : ∀ k, buff k =
      if k < nv.inBlock ∨ nv.inBlock + nv.size ≤ k then src k
      else value.getD (k - nv.inBlock) 0) (k : ℕ) :
    boot.copyIn (nv.block * mmcBlockSize) (buff.read 0 mmcBlockSize) k =
      if k < nv.block * mmcBlockSize ∨ nv.block * mmcBlockSize + mmcBlockSize ≤ k then
        boot k
      else if k < idmeBaseAddr + nv.offset ∨
          idmeBaseAddr + nv.offset + nv.size ≤ k then
        src (k - nv.block * mmcBlockSize)
      else value.getD (k - (idmeBaseAddr + nv.offset)) 0 := by
  have hplace := nv.place
  have hsize : mmcBlockSize = 512 := rfl
  rw [Memory.copyIn]
  generalize hbase : nv.block * mmcBlockSize = base at *
  by_cases hlow : k < base
  · rw [if_pos hlow, if_pos (Or.inl hlow)]
  · rw [if_neg hlow]
    by_cases hhigh : base + mmcBlockSize ≤ k
    · rw [List.getD_eq_default _ _ (by rw [Memory.read_length]; omega),
        if_pos (Or.inr hhigh)]
    · have hlen : k - base < (buff.read 0 mmcBlockSize).length := by
        rw [Memory.read_length]
        omega
      have hinside : ¬ (k < base ∨ base + mmcBlockSize ≤ k) := by omega
      rw [List.getD_eq_getElem _ _ hlen, Memory.read_getElem, Nat.zero_add,
        hbuff, if_neg hinside]
      by_cases hout : k - base < nv.inBlock ∨
          nv.inBlock + nv.size ≤ k - base
      · rw [if_pos hout, if_pos (by omega)]
      · have hk : k - base - nv.inBlock =
            k - (idmeBaseAddr + nv.offset) := by omega
        rw [if_neg hout, if_neg (by omega), hk]

/-- What the boot partition holds after a successful update. -/
theorem idmeUpdateVar_boot {nv : NvramT} {value : List UInt8}
    {st st' : IdmeState} (hnv : nv ∈ nvramInfo)
    (hvalue : value.length ≤ nv.size)
    (h : idmeUpdateVar nv.name (some value) st = (true, st')) (k : ℕ) :
    st'.dev.disk.boot k =
      if ¬ st.StoresBoot ∨ k < nv.block * mmcBlockSize ∨
          nv.block * mmcBlockSize + mmcBlockSize ≤ k then st.dev.disk.boot k
      else if k < idmeBaseAddr + nv.offset ∨
          idmeBaseAddr + nv.offset + nv.size ≤ k then
        st.fetched nv.block (k - nv.block * mmcBlockSize)
      else value.getD (k - (idmeBaseAddr + nv.offset)) 0 := by
  obtain ⟨hbuff, hdisk, -⟩ := idmeUpdateVar_of_true hnv hvalue h
  by_cases hstores : st.StoresBoot
  · rw [if_pos hstores.2, hstores.1] at hdisk
    have hboot : st'.dev.disk.boot = st.dev.disk.boot.copyIn
        (nv.block * mmcBlockSize) (st'.gblockBuff.read 0 mmcBlockSize) := by
      rw [hdisk, store_boot]
    rw [hboot, copyIn_block hbuff]
    simp only [hstores, not_true_eq_false, false_or]
  · rw [if_pos (Or.inl hstores), hdisk]
    by_cases hmoves : (st.report 2).moves = true
    · have huser : st.reached = .user := by
        cases hreached : st.reached with
        | user => rfl
        | boot => exact absurd ⟨hreached, hmoves⟩ hstores
      rw [if_pos hmoves, huser, store_user]
    · rw [if_neg hmoves]

/-! ## What the readers return -/

/-- How a variable is read. -/
theorem idmeGetVar_eq {nv : NvramT} (hnv : nv ∈ nvramInfo) (buflen : ℕ)
    (st : IdmeState) :
    (idmeGetVar nv.name buflen st).1 =
        (if (st.report 0).accepted = false ∨ (st.report 2).accepted = false then .error
        else if (st.report 1).readStatus ≠ 1 then .failed (st.report 1).readStatus
        else if nv.size + 1 > buflen then .tooSmall (nv.size + 1)
        else .value ((st.fetched nv.block).read nv.inBlock nv.size)) ∧
      (idmeGetVar nv.name buflen st).2.high ≤
        max (max st.high mmcBlockSize) (nv.inBlock + nv.size) := by
  have hblock : (nv.offset + idmeBaseAddr) / mmcBlockSize = nv.block := rfl
  have hin : (nv.offset + idmeBaseAddr) % mmcBlockSize = nv.inBlock := rfl
  have hto : swPart .boot st = ((st.report 0).accepted, (swPart .boot st).2) := rfl
  have hread : readBlock nv.block (swPart .boot st).2 =
      ((st.report 1).readStatus, (readBlock nv.block (swPart .boot st).2).2) :=
    Prod.ext (by rw [readBlock_fst, swPart_report]) rfl
  have hback : swPart .user (readBlock nv.block (swPart .boot st).2).2 =
      ((st.report 2).accepted,
        (swPart .user (readBlock nv.block (swPart .boot st).2).2).2) :=
    Prod.ext (by rw [swPart_fst, readBlock_report, swPart_report]) rfl
  have hhigh : (swPart .user (readBlock nv.block (swPart .boot st).2).2).2.high ≤
      max st.high mmcBlockSize := by
    rw [swPart_high, readBlock_high, swPart_high]
    split <;> omega
  have hbuff : (swPart .user (readBlock nv.block (swPart .boot st).2).2).2.gblockBuff =
      st.fetched nv.block := by
    rw [swPart_gblockBuff, fetched_eq]
  unfold idmeGetVar
  simp only [idmeFindVar_name hnv, hblock, hin]
  rw [hto]
  cases hfirst : (st.report 0).accepted with
  | false =>
      rw [if_pos (Or.inl rfl)]
      refine ⟨rfl, ?_⟩
      dsimp only
      rw [swPart_high]
      omega
  | true =>
      dsimp only
      rw [hread]
      dsimp only
      rw [hback]
      cases hthird : (st.report 2).accepted with
      | false =>
          rw [if_pos (Or.inr rfl)]
          refine ⟨rfl, ?_⟩
          dsimp only
          omega
      | true =>
          rw [if_neg (by simp)]
          dsimp only
          by_cases hstatus : (st.report 1).readStatus ≠ 1
          · rw [if_pos hstatus, if_pos hstatus]
            refine ⟨rfl, ?_⟩
            dsimp only
            omega
          · rw [if_neg hstatus, if_neg hstatus]
            by_cases hlen : nv.size + 1 > buflen
            · rw [if_pos hlen, if_pos hlen]
              refine ⟨rfl, ?_⟩
              dsimp only
              omega
            · rw [if_neg hlen, if_neg hlen, hbuff]
              refine ⟨rfl, ?_⟩
              dsimp only
              rw [touch_high]
              split <;> omega

theorem report_of_reports {st : IdmeState} (h : st.dev.reports = []) (n : ℕ) :
    st.report n = .done := by
  rw [IdmeState.report, h, List.drop_nil]
  rfl

theorem reached_of_reports {st : IdmeState} (h : st.dev.reports = []) :
    st.reached = .boot := by
  rw [IdmeState.reached, report_of_reports h]
  rfl

theorem fetched_of_reports {st : IdmeState} (h : st.dev.reports = []) (block : ℕ) :
    st.fetched block = st.gblockBuff.copyIn 0
      (st.dev.disk.boot.read (block * mmcBlockSize) mmcBlockSize) := by
  rw [IdmeState.fetched, report_of_reports h, reached_of_reports h]
  rfl

/-- Reading a variable from a device that answers. -/
theorem idmeGetVar_of_reports {nv : NvramT} (hnv : nv ∈ nvramInfo)
    (buflen : ℕ) {st : IdmeState} (hreports : st.dev.reports = []) :
    (idmeGetVar nv.name buflen st).1 =
        (if nv.size + 1 > buflen then .tooSmall (nv.size + 1)
        else .value ((st.gblockBuff.copyIn 0
          (st.dev.disk.boot.read (nv.block * mmcBlockSize)
            mmcBlockSize)).read nv.inBlock nv.size)) ∧
      (idmeGetVar nv.name buflen st).2.high ≤
        max (max st.high mmcBlockSize) (nv.inBlock + nv.size) := by
  obtain ⟨hvalue, hhigh⟩ := idmeGetVar_eq hnv buflen st
  refine ⟨?_, hhigh⟩
  rw [hvalue, fetched_of_reports hreports]
  simp only [report_of_reports hreports]
  rfl

/-- Reading a variable out of the whole area. -/
theorem readVarEx_of_reports {nv : NvramT} (hnv : nv ∈ nvramInfo)
    (buflen : ℕ) {dev : Emmc} (hreports : dev.reports = []) :
    readVarEx nv.name buflen dev =
      if nv.size + 1 > buflen then .tooSmall (nv.size + 1)
      else .value (dev.disk.boot.read (idmeBaseAddr + nv.offset) nv.size) := by
  obtain ⟨pbuf, dev', hread, -⟩ :=
    idmeRead_of_reports .boot (fun _ => 0) hreports
  have hbuf := (idmeRead_of_some (Emmc.honest_of_reports hreports) (by simp) hread).2
  have hbound := (nvramInfo_bound hnv).2
  unfold readVarEx
  rw [hread]
  simp only [idmeGetVarEx, idmeFindVar_name hnv]
  by_cases hlen : nv.size + 1 > buflen
  · rw [if_pos hlen, if_pos hlen]
  · rw [if_neg hlen, if_neg hlen, Memory.read_shift]
    congr 1
    apply Memory.read_congr
    intro k hk
    rw [hbuf, if_pos (by omega), areaBlock, Nat.zero_mul, Nat.zero_add]
    rfl

/-! ## The contract -/

@[simp] theorem withReports_gblockBuff (st : IdmeState) (reports : List Report) :
    (st.withReports reports).gblockBuff = st.gblockBuff := rfl

@[simp] theorem withReports_disk (st : IdmeState) (reports : List Report) :
    (st.withReports reports).dev.disk = st.dev.disk := rfl

@[simp] theorem withReports_high (st : IdmeState) (reports : List Report) :
    (st.withReports reports).high = st.high := rfl

theorem padded_getD {nv : NvramT} {value : List UInt8}
    (hvalue : value.length ≤ nv.size) :
    padded nv value = (List.range nv.size).map fun k => value.getD k 0 := by
  apply List.ext_getElem
  · simp only [padded, List.length_append, List.length_replicate,
      List.length_map, List.length_range]
    omega
  · intro k hk hk'
    rw [List.getElem_map, List.getElem_range]
    rcases Nat.lt_or_ge k value.length with hlt | hge
    · rw [List.getD_eq_getElem _ _ hlt]
      exact List.getElem_append_left hlt
    · rw [List.getD_eq_default _ _ hge]
      simp only [padded]
      rw [List.getElem_append_right hge, List.getElem_replicate]

/-- The buffer holds the bytes of the block at the places of the other variables. -/
def NvramT.KeepsOthers (nv : NvramT) (st : IdmeState) : Prop :=
  ∀ other ∈ nvramInfo, other ≠ nv → ∀ k < other.size,
    nv.block * mmcBlockSize ≤ idmeBaseAddr + other.offset + k →
    idmeBaseAddr + other.offset + k < nv.block * mmcBlockSize + mmcBlockSize →
      st.fetched nv.block (idmeBaseAddr + other.offset + k - nv.block * mmcBlockSize) =
        st.dev.disk.boot (idmeBaseAddr + other.offset + k)

/-- What gets into the boot partition is the block with the value in it; where nothing
gets there, the value is there already. -/
def NvramT.Arrives (nv : NvramT) (value : List UInt8) (st : IdmeState) : Prop :=
  if st.StoresBoot then nv.KeepsOthers st
  else st.dev.disk.boot.read (idmeBaseAddr + nv.offset) nv.size = padded nv value

/-- The new value stands in its place. -/
theorem idmeUpdateVar_read {nv : NvramT} {value : List UInt8}
    {st st' : IdmeState} (hnv : nv ∈ nvramInfo)
    (hvalue : value.length ≤ nv.size)
    (hin : nv.inBlock + nv.size ≤ mmcBlockSize)
    (h : idmeUpdateVar nv.name (some value) st = (true, st'))
    (harrives : nv.Arrives value st) :
    st'.dev.disk.boot.read (idmeBaseAddr + nv.offset) nv.size =
      padded nv value := by
  have hplace := nv.place
  unfold NvramT.Arrives at harrives
  by_cases hstores : st.StoresBoot
  · rw [padded_getD hvalue, Memory.read]
    apply List.map_congr_left
    intro k hk
    rw [List.mem_range] at hk
    rw [idmeUpdateVar_boot hnv hvalue h, if_neg, if_neg (by omega),
      Nat.add_sub_cancel_left]
    rintro (hno | hout)
    · exact hno hstores
    · omega
  · rw [if_neg hstores] at harrives
    rw [← harrives]
    apply Memory.read_congr
    intro k _
    rw [idmeUpdateVar_boot hnv hvalue h, if_pos (Or.inl hstores)]

/-- The place of another variable is left alone. -/
theorem idmeUpdateVar_read_other {nv other : NvramT} {value : List UInt8}
    {st st' : IdmeState} (hnv : nv ∈ nvramInfo) (hother : other ∈ nvramInfo)
    (hne : other ≠ nv) (hvalue : value.length ≤ nv.size)
    (h : idmeUpdateVar nv.name (some value) st = (true, st'))
    (harrives : nv.Arrives value st) {k : ℕ} (hk : k < other.size) :
    st'.dev.disk.boot (idmeBaseAddr + other.offset + k) =
      st.dev.disk.boot (idmeBaseAddr + other.offset + k) := by
  have hdisjoint := nvramInfo_disjoint hnv hother hne
  rw [idmeUpdateVar_boot hnv hvalue h]
  split
  · rfl
  · rename_i hblock
    rw [not_or, not_not, not_or] at hblock
    unfold NvramT.Arrives at harrives
    rw [if_pos hblock.1] at harrives
    rw [if_pos (by omega)]
    exact harrives other hother hne k hk (by omega) (by omega)

/-- The block of a variable in the buffer. -/
theorem copyIn_block_read (nv : NvramT) (m boot : Memory UInt8) {k : ℕ}
    (hk : nv.inBlock + k < mmcBlockSize) :
    m.copyIn 0 (boot.read (nv.block * mmcBlockSize) mmcBlockSize)
        (nv.inBlock + k) = boot (idmeBaseAddr + nv.offset + k) := by
  have hlen : nv.inBlock + k <
      (boot.read (nv.block * mmcBlockSize) mmcBlockSize).length := by
    rwa [Memory.read_length]
  have hcopy := Memory.copyIn_add (m := m) (p := 0) hlen
  rw [Nat.zero_add, Memory.read_getElem, ← Nat.add_assoc, nv.place] at hcopy
  exact hcopy

/-- Behind its first 512 bytes `gblock_buff` is not read into. -/
theorem fetched_of_ge (st : IdmeState) (block : ℕ) {k : ℕ} (hk : mmcBlockSize ≤ k) :
    st.fetched block k = st.gblockBuff k := by
  unfold IdmeState.fetched
  split
  · exact Memory.copyIn_of_ge (by rw [Memory.read_length]; omega)
  · rfl

/-- For the variables that lie in one block the contract is kept if the block
arrives. -/
theorem updateContract_of_inBlock {nv : NvramT} {value : List UInt8}
    {st st' : IdmeState} (hnv : nv ∈ nvramInfo)
    (hvalue : value.length ≤ nv.size) (hhigh : st.high ≤ mmcBlockSize)
    (hin : nv.inBlock + nv.size ≤ mmcBlockSize)
    (h : idmeUpdateVar nv.name (some value) st = (true, st'))
    (harrives : nv.Arrives value st) : UpdateContract nv value st := by
  obtain ⟨hbuff, hdisk, hhigh'⟩ := idmeUpdateVar_of_true hnv hvalue h
  have hread := idmeUpdateVar_read hnv hvalue hin h harrives
  unfold UpdateContract
  rw [h]
  refine ⟨?_, ?_, ?_⟩
  · dsimp only
    omega
  · intro buflen hbuflen
    obtain ⟨hget, hgetHigh⟩ := idmeGetVar_of_reports hnv buflen
      (show (st'.withReports []).dev.reports = [] from rfl)
    have hlen : ¬ nv.size + 1 > buflen := by omega
    refine ⟨?_, ?_, ?_⟩
    · rw [hget, if_neg hlen, ← hread]
      apply congrArg GetVar.value
      apply Memory.read_congr
      intro k hk
      exact copyIn_block_read nv _ _ (by omega)
    · rw [withReports_high] at hgetHigh
      dsimp only
      omega
    · rw [readVarEx_of_reports hnv buflen rfl, if_neg hlen, withReports_disk,
        hread]
  · intro other hother hne buflen
    have hsame : ∀ k < other.size,
        st'.dev.disk.boot (idmeBaseAddr + other.offset + k) =
          st.dev.disk.boot (idmeBaseAddr + other.offset + k) :=
      fun k hk => idmeUpdateVar_read_other hnv hother hne hvalue h harrives hk
    constructor
    · have hcells : (st'.gblockBuff.copyIn 0 (st'.dev.disk.boot.read
            (other.block * mmcBlockSize) mmcBlockSize)).read
            other.inBlock other.size =
          (st.gblockBuff.copyIn 0 (st.dev.disk.boot.read
            (other.block * mmcBlockSize) mmcBlockSize)).read
            other.inBlock other.size := by
        apply Memory.read_congr
        intro k hk
        by_cases hblock : other.inBlock + k < mmcBlockSize
        · rw [copyIn_block_read other _ _ hblock,
            copyIn_block_read other _ _ hblock, hsame k hk]
        · rw [Memory.copyIn_of_ge (by rw [Memory.read_length]; omega),
            Memory.copyIn_of_ge (by rw [Memory.read_length]; omega), hbuff,
            if_pos (by omega), fetched_of_ge st _ (by omega)]
      rw [(idmeGetVar_of_reports hother buflen rfl).1,
        (idmeGetVar_of_reports hother buflen rfl).1]
      simp only [withReports_gblockBuff, withReports_disk, hcells]
    · rw [readVarEx_of_reports hother buflen rfl,
        readVarEx_of_reports hother buflen rfl]
      simp only [withReports_disk, Memory.read_congr hsame]

/-- A variable whose update keeps the contract lies in one block. -/
theorem UpdateContract.inBlock {nv : NvramT} {value : List UInt8}
    {st : IdmeState} (hnv : nv ∈ nvramInfo) (hvalue : value.length ≤ nv.size)
    (hok : (idmeUpdateVar nv.name (some value) st).1 = true)
    (hcontract : UpdateContract nv value st) :
    nv.inBlock + nv.size ≤ mmcBlockSize := by
  have h : idmeUpdateVar nv.name (some value) st =
      (true, (idmeUpdateVar nv.name (some value) st).2) := Prod.ext hok rfl
  have hreach := (idmeUpdateVar_of_true hnv hvalue h).2.2
  have hinside := hcontract.1
  omega

/-- What both readers see in the whole area tells that the block has arrived. -/
theorem UpdateContract.arrives {nv : NvramT} {value : List UInt8}
    {st : IdmeState} (hnv : nv ∈ nvramInfo) (hvalue : value.length ≤ nv.size)
    (hok : (idmeUpdateVar nv.name (some value) st).1 = true)
    (hcontract : UpdateContract nv value st) : nv.Arrives value st := by
  have h : idmeUpdateVar nv.name (some value) st =
      (true, (idmeUpdateVar nv.name (some value) st).2) := Prod.ext hok rfl
  have hboot := idmeUpdateVar_boot hnv hvalue h
  obtain ⟨-, hvalues, hothers⟩ := hcontract
  unfold NvramT.Arrives
  split
  · rename_i hstores
    intro other hother hne k hk hlow hhigh
    have hsame := (hothers other hother hne (other.size + 1)).2
    rw [readVarEx_of_reports hother _ rfl, readVarEx_of_reports hother _ rfl,
      if_neg (by omega), if_neg (by omega)] at hsame
    have hbytes := GetVar.value.inj hsame
    have hbyte := congrArg (fun l => l.getD k 0) hbytes
    rw [List.getD_eq_getElem _ _ (by rwa [Memory.read_length]),
      List.getD_eq_getElem _ _ (by rwa [Memory.read_length]), Memory.read_getElem,
      Memory.read_getElem, withReports_disk, withReports_disk, hboot, if_neg,
      if_pos] at hbyte
    · exact hbyte
    · have hdisjoint := nvramInfo_disjoint hnv hother hne
      omega
    · rintro (hno | hout)
      · exact hno hstores
      · omega
  · rename_i hstores
    have hread := (hvalues (nv.size + 1) (Nat.lt_succ_self _)).2.2
    rw [readVarEx_of_reports hnv _ rfl, if_neg (by omega)] at hread
    rw [← GetVar.value.inj hread]
    apply Memory.read_congr
    intro k _
    rw [withReports_disk, hboot, if_pos (Or.inl hstores)]

/-- The contract of an update is kept by every variable but `camcal` and
`mfg`, which go on behind the end of the block buffer, if the block arrives. -/
theorem updateContract_iff {nv : NvramT} {value : List UInt8}
    {st : IdmeState} (hnv : nv ∈ nvramInfo) (hvalue : value.length ≤ nv.size)
    (hhigh : st.high ≤ mmcBlockSize)
    (hok : (idmeUpdateVar nv.name (some value) st).1 = true) :
    UpdateContract nv value st ↔
      (nv.name ≠ text "camcal" ∧ nv.name ≠ text "mfg") ∧ nv.Arrives value st := by
  rw [← nvramInfo_inBlock hnv]
  constructor
  · intro hcontract
    exact ⟨hcontract.inBlock hnv hvalue hok, hcontract.arrives hnv hvalue hok⟩
  · rintro ⟨hin, harrives⟩
    exact updateContract_of_inBlock hnv hvalue hhigh hin (Prod.ext hok rfl) harrives

/-- A device that answers takes the block. -/
theorem arrives_of_reports (nv : NvramT) (value : List UInt8) {st : IdmeState}
    (h : st.dev.reports = []) : nv.Arrives value st := by
  have hstores : st.StoresBoot :=
    ⟨reached_of_reports h, by rw [report_of_reports h]; rfl⟩
  unfold NvramT.Arrives
  rw [if_pos hstores]
  intro other _ _ k _ hlow hhigh
  rw [fetched_of_reports h]
  generalize idmeBaseAddr + other.offset + k = p at *
  have hlen : p - nv.block * mmcBlockSize <
      (st.dev.disk.boot.read (nv.block * mmcBlockSize) mmcBlockSize).length := by
    rw [Memory.read_length]
    omega
  have hcopy := Memory.copyIn_add (m := st.gblockBuff) (p := 0) hlen
  rw [Nat.zero_add, Memory.read_getElem, Nat.add_sub_cancel' hlow] at hcopy
  exact hcopy

/-- A device with cleared partitions that fails no command. -/
def blankState : IdmeState where
  dev := ⟨⟨fun _ => 0, fun _ => 0⟩, .user, [], []⟩
  gblockBuff := fun _ => 0
  high := 0

theorem updateContract_iff_bootmode :
    UpdateContract ⟨text "bootmode", 0x1000, 16⟩ (text "4") blankState :=
  (updateContract_iff (by decide) (by decide) (by decide) (by decide)).mpr
    ⟨by decide, arrives_of_reports _ _ rfl⟩

/-- Storing one digit in `camcal` of a blank device breaks the contract. -/
theorem not_updateContract_camcal :
    ¬ ∀ nv ∈ nvramInfo, ∀ (value : List UInt8) (st : IdmeState),
      value.length ≤ nv.size → st.high ≤ mmcBlockSize →
        (idmeUpdateVar nv.name (some value) st).1 = true →
          UpdateContract nv value st := by
  intro hall
  have hok : (idmeUpdateVar (text "camcal") (some (text "1")) blankState).1 =
      true := by decide
  have hmem : (⟨text "camcal", 0x1020, 2560⟩ : NvramT) ∈ nvramInfo := by decide
  have hcontract := hall _ hmem (text "1") blankState (by decide) (by decide) hok
  have hinside := hcontract.inBlock hmem (by decide) hok
  exact absurd hinside (by decide)

end TateFirmware.Idme
