import TateFirmware.Mmc.Transfer
import TateFirmware.Support.Patch

/-!
# The sectors a write stores

A write of `n` sectors from sector `s` on stores exactly these sectors, in
order, when the controller reports no fault, and none outside of them as long
as the controller takes no more blocks than it has been told.  Sectors are
addressed with 32 bits, so the last of them has to be addressable.
-/

namespace TateFirmware.Mmc

open Support

/-- The number of sectors a command argument can address. -/
def sectorLimit (mode : Mode) : ℕ :=
  match mode with
  | .byteMode => 2 ^ 23
  | .sectorMode => 2 ^ 32

theorem sectorLimit_le (mode : Mode) : sectorLimit mode ≤ 2 ^ 32 := by
  cases mode <;> simp [sectorLimit]

theorem cardSector_sectorArgument {mode : Mode} {s : ℕ}
    (hs : s < sectorLimit mode) :
    cardSector mode (sectorArgument mode s) = s := by
  cases mode <;>
    simp only [sectorLimit] at hs <;>
    simp only [cardSector, sectorArgument, mmcsdSectorSize] <;> omega

/-- The argument of the next burst addresses the next sector. -/
theorem sectorArgument_add (mode : Mode) (s count : ℕ) :
    (sectorArgument mode s + secIncVal mode * count) % 2 ^ 32 =
      sectorArgument mode (s + count) := by
  cases mode with
  | byteMode =>
      simp only [sectorArgument, secIncVal, Nat.mod_add_mod, Nat.add_mul,
        Nat.mul_comm count]
  | sectorMode =>
      simp only [sectorArgument, secIncVal, Nat.mod_add_mod, one_mul]

theorem numSecVal_lt (numBytes : ℕ) : numSecVal numBytes < 2 ^ 23 := by
  unfold numSecVal mmcsdSectorSize
  omega

/-! ## Sectors of a transfer -/

theorem transferred_add (slot : Slot) (first a b : ℕ)
    (block : ℕ → List UInt8) :
    transferred slot first (a + b) block =
      transferred slot first a block ++
        transferred slot (first + a) b fun k => block (a + k) := by
  unfold transferred
  rw [List.range_add, List.map_append, List.map_map]
  congr 1
  apply List.map_congr_left
  intro k _
  simp [Nat.add_assoc]

theorem transferred_congr (slot : Slot) (first : ℕ) {count : ℕ}
    {block block' : ℕ → List UInt8} (h : ∀ k < count, block k = block' k) :
    transferred slot first count block =
      transferred slot first count block' := by
  unfold transferred
  apply List.map_congr_left
  intro k hk
  rw [h k (List.mem_range.mp hk)]

/-- The blocks behind a burst come from further up in the buffer. -/
theorem transferred_shift (slot : Slot) (first a b : ℕ) (m : Memory UInt8) :
    transferred slot first (a + b)
        (fun k => m.read (mmcsdSectorSize * k) mmcsdSectorSize) =
      transferred slot first a
          (fun k => m.read (mmcsdSectorSize * k) mmcsdSectorSize) ++
        transferred slot (first + a) b
          fun k => (m.shift (mmcsdSectorSize * a)).read (mmcsdSectorSize * k)
            mmcsdSectorSize := by
  have hblock : (fun k => m.read (mmcsdSectorSize * (a + k)) mmcsdSectorSize) =
      fun k => (m.shift (mmcsdSectorSize * a)).read (mmcsdSectorSize * k)
        mmcsdSectorSize := by
    funext k
    rw [Memory.read_shift, Nat.mul_add]
  rw [transferred_add, hblock]

theorem mem_transferred {slot : Slot} {first count : ℕ}
    {block : ℕ → List UInt8} {w : SectorWrite}
    (hw : w ∈ transferred slot first count block) :
    w.slot = slot ∧ first ≤ w.sector ∧ w.sector < first + count := by
  obtain ⟨k, hk, rfl⟩ := List.mem_map.mp hw
  have := List.mem_range.mp hk
  exact ⟨rfl, by simp, by simp [this]⟩

/-- The controller takes no more blocks than it has been told. -/
def Host.Disciplined (h : Host) : Prop :=
  ∀ report ∈ h.transferReports, ∀ n, (writeDataPoll n (report n) 0).2 ≤ n

/-- Sectors stored between two states of a host. -/
def StoresWithin (h h' : Host) (slot : Slot) (first count : ℕ) : Prop :=
  ∃ ws, h'.written = h.written ++ ws ∧
    ∀ w ∈ ws, w.slot = slot ∧ first ≤ w.sector ∧ w.sector < first + count

theorem StoresWithin.refl (h : Host) (slot : Slot) (first count : ℕ) :
    StoresWithin h h slot first count := ⟨[], by simp, by simp⟩

theorem StoresWithin.trans {h h' h'' : Host} {slot : Slot}
    {first count : ℕ} (a : StoresWithin h h' slot first count)
    (b : StoresWithin h' h'' slot first count) :
    StoresWithin h h'' slot first count := by
  obtain ⟨ws, heq, hws⟩ := a
  obtain ⟨ws', heq', hws'⟩ := b
  refine ⟨ws ++ ws', by rw [heq', heq, List.append_assoc], fun w hw => ?_⟩
  rcases List.mem_append.mp hw with hw | hw
  · exact hws w hw
  · exact hws' w hw

theorem StoresWithin.mono {h h' : Host} {slot : Slot}
    {first count first' count' : ℕ} (a : StoresWithin h h' slot first count)
    (hfirst : first' ≤ first) (hend : first + count ≤ first' + count') :
    StoresWithin h h' slot first' count' := by
  obtain ⟨ws, heq, hws⟩ := a
  refine ⟨ws, heq, fun w hw => ?_⟩
  obtain ⟨hslot, hlo, hhi⟩ := hws w hw
  exact ⟨hslot, by omega, by omega⟩

/-! ## One burst -/

theorem openBurst_written (blkCnt argument : ℕ) (h : Host) :
    (openBurst blkCnt argument h).2.written = h.written := by
  unfold openBurst
  split
  · dsimp only
    split <;> simp
  · simp

theorem openBurst_transferReports (blkCnt argument : ℕ) (h : Host) :
    (openBurst blkCnt argument h).2.transferReports = h.transferReports := by
  unfold openBurst
  split
  · dsimp only
    split <;> simp
  · simp

/-- The blocks a disciplined controller takes. -/
theorem writeDataPoll_le {h : Host} (hdisc : h.Disciplined) (blkCnt : ℕ) :
    (writeDataPoll blkCnt ((h.transferReports.headD fun _ => []) blkCnt)
      0).2 ≤ blkCnt := by
  cases hreports : h.transferReports with
  | nil => simp [writeDataPoll]
  | cons report rest =>
      exact hdisc report (by simp [hreports]) blkCnt

/-- What a burst from sector `s` on does with a disciplined controller. -/
theorem writeBurst_within {slot : Slot} (inputBuf : Memory UInt8)
    {s numSec : ℕ} {h : Host} (hdisc : h.Disciplined) (hne : numSec ≠ 0)
    (hfit : s + numSec ≤ sectorLimit (h.curCardData slot).mode) :
    match writeBurst slot inputBuf
      (sectorArgument (h.curCardData slot).mode s) numSec h with
    | .ret _ h' => StoresWithin h h' slot s numSec
    | .wrote count h' => StoresWithin h h' slot s count ∧
        count ≤ numSec ∧ h'.Disciplined := by
  have hcards := openBurst_sameCards (blkCntCurrentTns numSec)
    (sectorArgument (h.curCardData slot).mode s) h
  have hwritten := openBurst_written (blkCntCurrentTns numSec)
    (sectorArgument (h.curCardData slot).mode s) h
  have hreports := openBurst_transferReports (blkCntCurrentTns numSec)
    (sectorArgument (h.curCardData slot).mode s) h
  have haccepted := openBurst_accepted
    (sectorArgument (h.curCardData slot).mode s) h
    (blkCntCurrentTns_pos hne)
  have hle := writeDataPoll_le hdisc (blkCntCurrentTns numSec)
  have hblk := (blkCntCurrentTns_le numSec).1
  unfold writeBurst
  dsimp only
  generalize openBurst (blkCntCurrentTns numSec)
    (sectorArgument (h.curCardData slot).mode s) h = opened at *
  by_cases hok : opened.1 ≠ 1
  · simp only [if_pos hok]
    exact ⟨[], by simp [hwritten], by simp⟩
  · simp only [if_neg hok]
    obtain ⟨hopenBlk, hopenArg⟩ := haccepted (not_not.mp hok)
    have hpoll : (mmcWriteData slot inputBuf opened.2).2.written =
        h.written ++ transferred slot s
          (writeDataPoll (blkCntCurrentTns numSec)
            ((h.transferReports.headD fun _ => []) (blkCntCurrentTns numSec))
            0).2
          fun k => inputBuf.read (mmcsdSectorSize * k) mmcsdSectorSize := by
      simp only [mmcWriteData, transfer, hopenBlk, hopenArg, hwritten,
        hreports, hcards.curCardData_eq]
      rw [cardSector_sectorArgument (by omega)]
    generalize hpollEq : writeDataPoll (blkCntCurrentTns numSec)
      ((h.transferReports.headD fun _ => []) (blkCntCurrentTns numSec)) 0 =
        poll at *
    have hstores : ∀ n, poll.2 ≤ n →
        StoresWithin h (mmcWriteData slot inputBuf opened.2).2 slot s n := by
      intro n hn
      refine ⟨_, hpoll, fun w hw => ?_⟩
      obtain ⟨hslot, hlo, hhi⟩ := mem_transferred hw
      exact ⟨hslot, hlo, by omega⟩
    by_cases hneg : (mmcWriteData slot inputBuf opened.2).1 < 0
    · simp only [if_pos hneg]
      exact hstores numSec (by omega)
    · simp only [if_neg hneg]
      have hcount : (mmcWriteData slot inputBuf opened.2).1.toNat = poll.2 := by
        have hret : (mmcWriteData slot inputBuf opened.2).1 =
            if poll.1.isSome then -1 else (poll.2 : ℤ) := by
          simp only [mmcWriteData, transfer, hopenBlk, hreports, hpollEq]
        rw [hret] at hneg ⊢
        split at hneg
        · simp at hneg
        · rename_i hsome
          rw [if_neg hsome, Int.toNat_natCast]
      rw [hcount]
      refine ⟨hstores poll.2 le_rfl, by omega, fun report hreport n => ?_⟩
      have hmem : report ∈ opened.2.transferReports.tail := hreport
      exact hdisc report (hreports ▸ List.mem_of_mem_tail hmem) n

/-! ## Whole writes -/

/-- The write loop stores no sector outside its range. -/
theorem omapMmcWriteSectLoop_within (slot : Slot) (inputBuf : Memory UInt8)
    (argument numSec : ℕ) (h : Host) {mode : Mode} {s : ℕ}
    (hmode : (h.curCardData slot).mode = mode)
    (hargument : argument = sectorArgument mode s)
    (hdisc : h.Disciplined) (hfit : s + numSec ≤ sectorLimit mode)
    (hlt : numSec < 2 ^ 32) :
    StoresWithin h (omapMmcWriteSectLoop slot (secIncVal mode) inputBuf
      argument numSec h).2 slot s numSec := by
  induction inputBuf, argument, numSec, h using
    omapMmcWriteSectLoop.induct slot (secIncVal mode) generalizing s with
  | case1 inputBuf argument h =>
      rw [omapMmcWriteSectLoop_zero]
      exact StoresWithin.refl h slot s 0
  | case2 inputBuf argument numSec h hne err h' hb =>
      subst hargument
      subst hmode
      have hburst := writeBurst_within inputBuf hdisc hne hfit
      rw [hb] at hburst
      rw [omapMmcWriteSectLoop_of_ret hne hb]
      exact hburst
  | case3 inputBuf argument numSec h hne count h' hb ih =>
      subst hargument
      subst hmode
      have hburst := writeBurst_within inputBuf hdisc hne hfit
      have hcards := writeBurst_sameCards slot inputBuf
        (sectorArgument (h.curCardData slot).mode s) numSec h
      rw [hb] at hburst hcards
      obtain ⟨hstores, hcount, hdisc'⟩ := hburst
      have hleft := numSecLeft_eq hlt hcount
      rw [omapMmcWriteSectLoop_of_wrote hne hb]
      have hrest := ih (s := s + count) (by rw [hcards.curCardData_eq])
        (sectorArgument_add _ s count) hdisc'
        (by rw [hleft]; omega) (by rw [hleft]; omega)
      refine (hstores.mono le_rfl (by omega)).trans (hrest.mono (by omega) ?_)
      rw [hleft]
      omega

/-- `mmc_write` stores no sector outside its range. -/
theorem mmcWrite_within {slot : Slot} {h : Host} (hdisc : h.Disciplined)
    (src : Memory UInt8) {dst size : ℕ}
    (hfit : dst + numSecVal size ≤ sectorLimit (h.curCardData slot).mode) :
    StoresWithin h (mmcWrite slot src dst size h).2 slot dst
      (numSecVal size) := by
  unfold mmcWrite omapMmcWriteSect
  split
  · dsimp only
    split
    · exact StoresWithin.refl h slot dst _
    · refine omapMmcWriteSectLoop_within slot src _ _ h rfl rfl hdisc hfit ?_
      have := numSecVal_lt size
      omega
  · exact StoresWithin.refl h slot dst _

theorem mmcWrite_disciplined {slot : Slot} {h : Host}
    (hdisc : h.Disciplined) (src : Memory UInt8) (dst size : ℕ) :
    (mmcWrite slot src dst size h).2.Disciplined := by
  cases hdev : h.dev slot with
  | true =>
      obtain ⟨-, -, hreports⟩ := mmcWrite_follows hdev src dst size
      have htail := loopExchange_transfers (numSecVal size) h.reports
      rw [← hreports] at htail
      exact fun report hreport => hdisc report (htail.subset hreport)
  | false =>
      rw [mmcWrite, if_neg (Bool.eq_false_iff.mp hdev)]
      exact hdisc

/-! ## A controller without faults -/

/-- No reports are left for commands and transfers, so none fails. -/
def Host.Faultless (h : Host) : Prop :=
  h.commandReports = [] ∧ h.transferReports = []

/-- The host behind a transfer of `n` sectors without faults; the registers
are of no interest. -/
structure Stored (h h' : Host) (ws : List SectorWrite) : Prop where
  sameCards : SameCards h h'
  faultless : h'.Faultless
  written_eq : h'.written = h.written ++ ws
  errors_eq : h'.errors = h.errors

theorem Stored.refl {h : Host} (hfaultless : h.Faultless) : Stored h h [] :=
  ⟨SameCards.refl h, hfaultless, by simp, rfl⟩

theorem Stored.trans {h h' h'' : Host} {ws ws' : List SectorWrite}
    (a : Stored h h' ws) (b : Stored h' h'' ws') :
    Stored h h'' (ws ++ ws') where
  sameCards := a.sameCards.trans b.sameCards
  faultless := b.faultless
  written_eq := by rw [b.written_eq, a.written_eq, List.append_assoc]
  errors_eq := b.errors_eq.trans a.errors_eq

/-- A command without a fault succeeds. -/
theorem mmcSendCmd_of_nil (cmd : Command) (argument : ℕ) {h : Host}
    (hnil : h.commandReports = []) :
    (mmcSendCmd cmd argument h).1 = 1 ∧
      (mmcSendCmd cmd argument h).2.errors = h.errors := by
  rw [mmcSendCmd_ret, mmcSendCmd_errors, hnil]
  simp [sendCmdPoll]

theorem openBurst_faultless (blkCnt argument : ℕ) {h : Host}
    (hfaultless : h.Faultless) :
    (openBurst blkCnt argument h).1 = 1 ∧
      Stored h (openBurst blkCnt argument h).2 [] := by
  have hcards := openBurst_sameCards blkCnt argument h
  have hwritten := openBurst_written blkCnt argument h
  have hreports := openBurst_transferReports blkCnt argument h
  have hmain : (openBurst blkCnt argument h).1 = 1 ∧
      (openBurst blkCnt argument h).2.errors = h.errors ∧
      (openBurst blkCnt argument h).2.commandReports = [] := by
    unfold openBurst
    split
    · obtain ⟨hret, herrors⟩ := mmcSendCmd_of_nil .cmd23 blkCnt
        hfaultless.1
      dsimp only
      rw [if_neg (not_not.mpr hret)]
      have hnil : ({ (mmcSendCmd .cmd23 blkCnt h).2 with
          blk := blkCnt } : Host).commandReports = [] := by
        simp [hfaultless.1]
      obtain ⟨hret', herrors'⟩ := mmcSendCmd_of_nil .cmd25 argument hnil
      exact ⟨hret', herrors'.trans herrors, by simp [hfaultless.1]⟩
    · obtain ⟨hret, herrors⟩ := mmcSendCmd_of_nil .cmd24 argument
        hfaultless.1
      exact ⟨hret, herrors, by simp [hfaultless.1]⟩
  obtain ⟨hret, herrors, hcommands⟩ := hmain
  exact ⟨hret, hcards, ⟨hcommands, hreports.trans hfaultless.2⟩,
    by simpa using hwritten, herrors⟩

/-- A burst without faults writes all its blocks. -/
theorem writeBurst_faultless (slot : Slot) (inputBuf : Memory UInt8)
    {s numSec : ℕ} {h : Host} (hfaultless : h.Faultless) (hne : numSec ≠ 0)
    (hfit : s < sectorLimit (h.curCardData slot).mode) :
    ∃ h', writeBurst slot inputBuf
        (sectorArgument (h.curCardData slot).mode s) numSec h =
          .wrote (blkCntCurrentTns numSec) h' ∧
      Stored h h' (transferred slot s (blkCntCurrentTns numSec)
        fun k => inputBuf.read (mmcsdSectorSize * k) mmcsdSectorSize) := by
  obtain ⟨hret, hopen⟩ := openBurst_faultless
    (blkCntCurrentTns numSec) (sectorArgument (h.curCardData slot).mode s)
    hfaultless
  obtain ⟨hblk, harg⟩ := openBurst_accepted
    (sectorArgument (h.curCardData slot).mode s) h
    (blkCntCurrentTns_pos hne) hret
  unfold writeBurst
  dsimp only
  generalize openBurst (blkCntCurrentTns numSec)
    (sectorArgument (h.curCardData slot).mode s) h = opened at *
  obtain ⟨hcards, ⟨hcommands, hreports⟩, hwritten, herrors⟩ := hopen
  rw [if_neg (not_not.mpr hret)]
  have hcount : (mmcWriteData slot inputBuf opened.2).1 =
      blkCntCurrentTns numSec := by
    simp [mmcWriteData, transfer, hreports, writeDataPoll, hblk]
  have hpos : ¬ (mmcWriteData slot inputBuf opened.2).1 < 0 := by
    rw [hcount]
    omega
  rw [if_neg hpos, hcount, Int.toNat_natCast]
  refine ⟨_, rfl, hcards.trans ⟨rfl, rfl, rfl⟩, ⟨hcommands, ?_⟩, ?_, ?_⟩
  · simp [mmcWriteData, transfer, hreports]
  · simp only [mmcWriteData, transfer, hreports, hblk, harg,
      hcards.curCardData_eq, List.headD_nil, writeDataPoll, Nat.zero_max]
    rw [hwritten, cardSector_sectorArgument hfit, List.append_nil]
  · simp [mmcWriteData, transfer, hreports, writeDataPoll, herrors]

/-- Without faults the write loop stores its sectors in order. -/
theorem omapMmcWriteSectLoop_faultless (slot : Slot) (inputBuf : Memory UInt8)
    (argument numSec : ℕ) (h : Host) {mode : Mode} {s : ℕ}
    (hmode : (h.curCardData slot).mode = mode)
    (hargument : argument = sectorArgument mode s)
    (hfaultless : h.Faultless) (hfit : s + numSec ≤ sectorLimit mode)
    (hlt : numSec < 2 ^ 32) :
    (omapMmcWriteSectLoop slot (secIncVal mode) inputBuf
        argument numSec h).1 = 1 ∧
      Stored h (omapMmcWriteSectLoop slot (secIncVal mode) inputBuf
          argument numSec h).2
        (transferred slot s numSec
          fun k => inputBuf.read (mmcsdSectorSize * k) mmcsdSectorSize) := by
  induction inputBuf, argument, numSec, h using
    omapMmcWriteSectLoop.induct slot (secIncVal mode) generalizing s with
  | case1 inputBuf argument h =>
      rw [omapMmcWriteSectLoop_zero]
      exact ⟨rfl, by simpa [transferred] using Stored.refl hfaultless⟩
  | case2 inputBuf argument numSec h hne err h' hb =>
      subst hargument
      subst hmode
      obtain ⟨h'', hwrote, -⟩ := writeBurst_faultless slot inputBuf
        (s := s) hfaultless hne (by omega)
      rw [hb] at hwrote
      exact Burst.noConfusion hwrote
  | case3 inputBuf argument numSec h hne count h' hb ih =>
      subst hargument
      subst hmode
      obtain ⟨h'', hwrote, hstored⟩ := writeBurst_faultless slot inputBuf
        (s := s) hfaultless hne (by omega)
      rw [hb] at hwrote
      obtain ⟨rfl, rfl⟩ := Burst.wrote.inj hwrote
      have hle := (blkCntCurrentTns_le numSec).1
      have hleft := numSecLeft_eq hlt hle
      rw [omapMmcWriteSectLoop_of_wrote hne hb]
      obtain ⟨hret, hrest⟩ := ih (s := s + blkCntCurrentTns numSec)
        (by rw [hstored.sameCards.curCardData_eq])
        (sectorArgument_add _ s _) hstored.faultless
        (by rw [hleft]; omega) (by rw [hleft]; omega)
      refine ⟨hret, ?_⟩
      have hsplit : numSec = blkCntCurrentTns numSec +
          numSecLeft numSec (blkCntCurrentTns numSec) := by
        rw [hleft]
        omega
      have hwhole := hstored.trans hrest
      rw [← transferred_shift] at hwhole
      rwa [← hsplit] at hwhole

/-- Without faults, `mmc_write` to a configured card stores its sectors in
order and returns `1`. -/
theorem mmcWrite_faultless {slot : Slot} {h : Host} (hfaultless : h.Faultless)
    (hdev : h.dev slot = true) (src : Memory UInt8) {dst size : ℕ}
    (hfit : dst + numSecVal size ≤ sectorLimit (h.curCardData slot).mode) :
    (mmcWrite slot src dst size h).1 = 1 ∧
      Stored h (mmcWrite slot src dst size h).2
        (transferred slot dst (numSecVal size)
          fun k => src.read (mmcsdSectorSize * k) mmcsdSectorSize) := by
  rw [mmcWrite, if_pos hdev]
  unfold omapMmcWriteSect
  dsimp only
  split
  · rename_i hzero
    rw [hzero]
    exact ⟨rfl, by simpa [transferred] using Stored.refl hfaultless⟩
  · refine omapMmcWriteSectLoop_faultless slot src _ _ h rfl rfl hfaultless
      hfit ?_
    have := numSecVal_lt size
    omega

/-!
## The sectors of a request in bursts

A request is split into bursts of at most `0xFFFF` blocks, each with a command
argument of its own.  The sectors are the right ones as long as the last of the
bursts starts at a sector that an argument can address.
-/

/-- The sectors that `num_bytes` bytes take up. -/
def sectorCount (numBytes : ℕ) : ℕ :=
  (numBytes + (mmcsdSectorSize - 1)) / mmcsdSectorSize

theorem sectorCount_eq_zero (numBytes : ℕ) :
    sectorCount numBytes = 0 ↔ numBytes = 0 := by
  unfold sectorCount mmcsdSectorSize
  omega

theorem numSecVal_eq_iff (numBytes : ℕ) :
    numSecVal numBytes = sectorCount numBytes ↔
      numBytes + (mmcsdSectorSize - 1) < 2 ^ 32 := by
  unfold numSecVal sectorCount mmcsdSectorSize
  omega

/-- Where the last burst of a request starts. -/
def lastBurst (start numSec : ℕ) : ℕ := start + 0xFFFF * ((numSec - 1) / 0xFFFF)

/-- The sectors that the bursts of a request address. -/
def burstSectors (mode : Mode) (start numSec : ℕ) : List ℕ :=
  if _hne : numSec = 0 then []
  else
    (List.range (blkCntCurrentTns numSec)).map
        (fun k => cardSector mode (sectorArgument mode start) + k) ++
      burstSectors mode (start + blkCntCurrentTns numSec)
        (numSec - blkCntCurrentTns numSec)
termination_by numSec
decreasing_by
  have := blkCntCurrentTns_pos _hne
  omega

theorem burstSectors_zero (mode : Mode) (start : ℕ) :
    burstSectors mode start 0 = [] := by
  rw [burstSectors, dif_pos rfl]

theorem burstSectors_of_ne {mode : Mode} {start numSec : ℕ} (hne : numSec ≠ 0) :
    burstSectors mode start numSec =
      (List.range (blkCntCurrentTns numSec)).map
          (fun k => cardSector mode (sectorArgument mode start) + k) ++
        burstSectors mode (start + blkCntCurrentTns numSec)
          (numSec - blkCntCurrentTns numSec) := by
  rw [burstSectors, dif_neg hne]

theorem burstSectors_length (mode : Mode) (start numSec : ℕ) :
    (burstSectors mode start numSec).length = numSec := by
  induction numSec using Nat.strongRecOn generalizing start with
  | ind numSec ih =>
      by_cases hne : numSec = 0
      · rw [hne, burstSectors_zero]
        rfl
      · have hpos := blkCntCurrentTns_pos hne
        have hle := (blkCntCurrentTns_le numSec).1
        rw [burstSectors_of_ne hne, List.length_append, List.length_map,
          List.length_range, ih _ (by omega)]
        omega

theorem cardSector_lt (mode : Mode) (start : ℕ) :
    cardSector mode (sectorArgument mode start) < sectorLimit mode := by
  cases mode <;>
    simp only [cardSector, sectorArgument, sectorLimit, mmcsdSectorSize] <;>
    omega

/-- A burst starts at its sector if an argument can address it. -/
theorem cardSector_eq_iff (mode : Mode) (start : ℕ) :
    cardSector mode (sectorArgument mode start) = start ↔
      start < sectorLimit mode := by
  refine ⟨fun h => ?_, cardSector_sectorArgument⟩
  have hlt := cardSector_lt mode start
  rwa [h] at hlt

/-- The sectors of one burst. -/
theorem range_map_eq_iff {a b n : ℕ} (hpos : 0 < n) :
    (List.range n).map (fun k => a + k) = (List.range n).map (fun k => b + k) ↔
      a = b := by
  constructor
  · intro h
    have hfirst := List.map_inj_left.mp h 0 (List.mem_range.mpr hpos)
    simpa using hfirst
  · rintro rfl
    rfl

theorem range_map_add (s a b : ℕ) :
    (List.range (a + b)).map (fun k => s + k) =
      (List.range a).map (fun k => s + k) ++
        (List.range b).map (fun k => s + a + k) := by
  rw [List.range_add, List.map_append, List.map_map]
  simp only [Function.comp_def, Nat.add_assoc]

/-- The bursts address the sectors of the request in order. -/
theorem burstSectors_eq_iff (mode : Mode) (start numSec : ℕ) :
    burstSectors mode start numSec =
        (List.range numSec).map (fun k => start + k) ↔
      numSec = 0 ∨ lastBurst start numSec < sectorLimit mode := by
  induction numSec using Nat.strongRecOn generalizing start with
  | ind numSec ih =>
      by_cases hne : numSec = 0
      · subst hne
        simp [burstSectors_zero]
      · rw [burstSectors_of_ne hne, or_iff_right hne]
        have hpos := blkCntCurrentTns_pos hne
        have hle := (blkCntCurrentTns_le numSec).1
        have hsplit := range_map_add start (blkCntCurrentTns numSec)
          (numSec - blkCntCurrentTns numSec)
        rw [Nat.add_sub_cancel' hle] at hsplit
        have happend : ∀ {a b c d : List ℕ}, a.length = c.length →
            (a ++ b = c ++ d ↔ a = c ∧ b = d) := fun hlen =>
          ⟨fun h => List.append_inj h hlen, fun h => by rw [h.1, h.2]⟩
        rw [hsplit, happend (by simp), range_map_eq_iff hpos, cardSector_eq_iff,
          ih _ (by omega)]
        unfold lastBurst blkCntCurrentTns
        split <;> omega

/-! ## What a card holds

The bytes a card holds, counted from some sector on, as far as they are known
from the sectors written so far. -/

/-- The place of a write. -/
def SectorWrite.place (w : SectorWrite) : Slot × ℕ := (w.slot, w.sector)

/-- Byte `p` behind the start of sector `first`. -/
def byteAt (written : List SectorWrite) (slot : Slot) (first p : ℕ) :
    Option UInt8 :=
  (lastWrite SectorWrite.place written
    (slot, first + p / mmcsdSectorSize)).map
      fun w => w.data.getD (p % mmcsdSectorSize) 0

section Transferred

variable {written : List SectorWrite} {slot : Slot} {first sec count : ℕ}
  {buf : Memory UInt8} {p : ℕ}

/-- The blocks of a buffer, as a transfer takes them. -/
def blocks (buf : Memory UInt8) (k : ℕ) : List UInt8 :=
  buf.read (mmcsdSectorSize * k) mmcsdSectorSize

/-- A transfer leaves the bytes in front of it alone. -/
theorem byteAt_transferred_of_lt (hp : p / mmcsdSectorSize < sec) :
    byteAt (written ++ transferred slot (first + sec) count (blocks buf))
        slot first p =
      byteAt written slot first p := by
  unfold byteAt
  rw [lastWrite_append_of_ne]
  intro w hw heq
  obtain ⟨-, hlo, -⟩ := mem_transferred hw
  have : w.sector = first + p / mmcsdSectorSize := (Prod.mk.inj heq).2
  omega

/-- The bytes of a transfer are those of its buffer. -/
theorem byteAt_transferred (hlo : sec ≤ p / mmcsdSectorSize)
    (hhi : p / mmcsdSectorSize < sec + count) :
    byteAt (written ++ transferred slot (first + sec) count (blocks buf))
        slot first p =
      some (buf (p - sec * mmcsdSectorSize)) := by
  have hinj : ∀ i j, SectorWrite.place
      ⟨slot, first + sec + i, blocks buf i⟩ =
        SectorWrite.place ⟨slot, first + sec + j, blocks buf j⟩ → i = j := by
    intro i j heq
    have : first + sec + i = first + sec + j := (Prod.mk.inj heq).2
    omega
  have hlast := lastWrite_range SectorWrite.place hinj
    (n := count) (i := p / mmcsdSectorSize - sec) (by omega)
  have hplace : SectorWrite.place ⟨slot, first + sec +
      (p / mmcsdSectorSize - sec), blocks buf (p / mmcsdSectorSize - sec)⟩ =
        (slot, first + p / mmcsdSectorSize) := by
    simp only [SectorWrite.place, Prod.mk.injEq, true_and]
    omega
  rw [hplace] at hlast
  unfold byteAt
  rw [lastWrite_append, transferred, hlast, Option.some_or, Option.map_some,
    blocks, Memory.read_block buf 0 (by decide) hlo]

end Transferred

/-!
## Writes that the controller cuts short

What a write stores is told by the controller's reports: each burst stores the blocks
that its transfer takes, with an error or without one, and only the latter goes on.
-/

/-- The commands that open a burst of `blocks` blocks are answered with `1`. -/
def Reports.Opens (r : Reports) (blocks : ℕ) : Prop :=
  (sendCmdPoll (r.commands.headD [])).1 = 1 ∧
    (1 < blocks → (sendCmdPoll (r.commands.tail.headD [])).1 = 1)

/-- How the next transfer, of `blocks` blocks, ends, and the blocks it takes. -/
def Reports.move (r : Reports) (blocks : ℕ) : Option ℕ × ℕ :=
  writeDataPoll blocks ((r.transfers.headD fun _ => []) blocks) 0

/-- The reports behind a burst of `blocks` blocks. -/
def Reports.afterBurst (r : Reports) (blocks : ℕ) : Reports where
  commands := if 1 < blocks then r.commands.tail.tail else r.commands.tail
  transfers := r.transfers.tail

theorem Reports.move_of_nil {r : Reports} (h : r.transfers = []) (blocks : ℕ) :
    r.move blocks = (none, blocks) := by
  simp [Reports.move, h, writeDataPoll]

/-- The controller takes `numSec` blocks: each burst is opened, and its transfer takes
all that is left, or a part of it without an error. -/
def Reports.TakesAll (r : Reports) (numSec : ℕ) : Prop :=
  if _hne : numSec = 0 then True
  else
    r.Opens (blkCntCurrentTns numSec) ∧
      ((r.move (blkCntCurrentTns numSec)).2 = numSec ∨
        (r.move (blkCntCurrentTns numSec)).1 = none ∧
          (r.afterBurst (blkCntCurrentTns numSec)).TakesAll
            (numSec - (r.move (blkCntCurrentTns numSec)).2))
termination_by (r.transfers.length, numSec)
decreasing_by
  cases htransfers : r.transfers with
  | nil =>
      have hpos := blkCntCurrentTns_pos _hne
      rw [Reports.move_of_nil htransfers]
      simp only [Reports.afterBurst, htransfers, List.tail_nil, List.length_nil]
      exact Prod.Lex.right _ (by omega)
  | cons report rest =>
      simp only [Reports.afterBurst, htransfers, List.tail_cons, List.length_cons]
      exact Prod.Lex.left _ _ (Nat.lt_succ_self _)

@[simp] theorem Reports.takesAll_zero (r : Reports) : r.TakesAll 0 := by
  rw [Reports.TakesAll, dif_pos rfl]
  trivial

theorem Reports.takesAll_of_ne {r : Reports} {numSec : ℕ} (hne : numSec ≠ 0) :
    r.TakesAll numSec ↔ r.Opens (blkCntCurrentTns numSec) ∧
      ((r.move (blkCntCurrentTns numSec)).2 = numSec ∨
        (r.move (blkCntCurrentTns numSec)).1 = none ∧
          (r.afterBurst (blkCntCurrentTns numSec)).TakesAll
            (numSec - (r.move (blkCntCurrentTns numSec)).2)) := by
  rw [Reports.TakesAll, dif_neg hne]

/-- A burst is opened exactly if its commands are accepted. -/
theorem openBurst_opens (blocks argument : ℕ) (h : Host) :
    ((openBurst blocks argument h).1 = 1 ↔ h.reports.Opens blocks) ∧
      ((openBurst blocks argument h).1 = 1 →
        (openBurst blocks argument h).2.commandReports =
          (h.reports.afterBurst blocks).commands) := by
  unfold openBurst Reports.Opens Reports.afterBurst
  by_cases hmulti : 1 < blocks
  · simp only [if_pos hmulti, mmcSendCmd_ret, Host.reports]
    by_cases hfirst : (sendCmdPoll (h.commandReports.headD [])).1 ≠ 1
    · rw [if_pos hfirst]
      refine ⟨⟨fun hone => absurd hone ?_, fun hopens => absurd hopens.1 hfirst⟩,
        fun hone => absurd hone ?_⟩ <;>
      simpa only [mmcSendCmd_ret] using hfirst
    · rw [if_neg hfirst, mmcSendCmd_ret]
      simp only [mmcSendCmd_commandReports]
      exact ⟨⟨fun hone => ⟨not_not.mp hfirst, fun _ => hone⟩,
        fun hopens => hopens.2 hmulti⟩, fun _ => trivial⟩
  · simp only [if_neg hmulti, mmcSendCmd_ret, mmcSendCmd_commandReports]
    exact ⟨⟨fun hone => ⟨hone, fun hlt => absurd hlt hmulti⟩, fun hopens => hopens.1⟩,
      fun _ => rfl⟩

/-- What a burst stores, by the reports it meets. -/
theorem writeBurst_stored {slot : Slot} (buf : Memory UInt8) (numSec : ℕ) {s : ℕ}
    {h : Host} (hne : numSec ≠ 0)
    (hfit : s < sectorLimit (h.curCardData slot).mode) :
    match writeBurst slot buf
      (sectorArgument (h.curCardData slot).mode s) numSec h with
    | .ret _ h' =>
        (¬ h.reports.Opens (blkCntCurrentTns numSec) ∧ h'.written = h.written) ∨
          (h.reports.Opens (blkCntCurrentTns numSec) ∧
            (h.reports.move (blkCntCurrentTns numSec)).1 ≠ none ∧
            h'.written = h.written ++ transferred slot s
              (h.reports.move (blkCntCurrentTns numSec)).2 (blocks buf))
    | .wrote count h' =>
        h.reports.Opens (blkCntCurrentTns numSec) ∧
          (h.reports.move (blkCntCurrentTns numSec)).1 = none ∧
          count = (h.reports.move (blkCntCurrentTns numSec)).2 ∧
          h'.reports = h.reports.afterBurst (blkCntCurrentTns numSec) ∧
          h'.written = h.written ++ transferred slot s count (blocks buf) := by
  have hcards := openBurst_sameCards (blkCntCurrentTns numSec)
    (sectorArgument (h.curCardData slot).mode s) h
  have hwritten := openBurst_written (blkCntCurrentTns numSec)
    (sectorArgument (h.curCardData slot).mode s) h
  have hreports := openBurst_transferReports (blkCntCurrentTns numSec)
    (sectorArgument (h.curCardData slot).mode s) h
  have haccepted := openBurst_accepted
    (sectorArgument (h.curCardData slot).mode s) h (blkCntCurrentTns_pos hne)
  obtain ⟨hopens, hcommands⟩ := openBurst_opens (blkCntCurrentTns numSec)
    (sectorArgument (h.curCardData slot).mode s) h
  unfold writeBurst
  dsimp only
  generalize openBurst (blkCntCurrentTns numSec)
    (sectorArgument (h.curCardData slot).mode s) h = opened at *
  by_cases hok : opened.1 ≠ 1
  · simp only [if_pos hok]
    exact Or.inl ⟨fun h => hok (hopens.mpr h), hwritten⟩
  · simp only [if_neg hok]
    rw [not_ne_iff] at hok
    obtain ⟨hblk, harg⟩ := haccepted hok
    have hpoll : (transfer slot (blocks buf) opened.2).1 =
        h.reports.move (blkCntCurrentTns numSec) := by
      rw [transfer, hblk, hreports]
      rfl
    have hstored : (transfer slot (blocks buf) opened.2).2.written =
        h.written ++ transferred slot s
          (h.reports.move (blkCntCurrentTns numSec)).2 (blocks buf) := by
      simp only [transfer, hblk, harg, hwritten, hreports, hcards.curCardData_eq]
      rw [cardSector_sectorArgument hfit]
      rfl
    have hleft : (transfer slot (blocks buf) opened.2).2.reports =
        h.reports.afterBurst (blkCntCurrentTns numSec) := by
      rw [Host.reports, transfer, hcommands hok, hreports]
      rfl
    change match if (if (transfer slot (blocks buf) opened.2).1.1.isSome then (-1 : ℤ)
          else ((transfer slot (blocks buf) opened.2).1.2 : ℤ)) < 0 then
        Burst.ret 1 (transfer slot (blocks buf) opened.2).2
      else .wrote (if (transfer slot (blocks buf) opened.2).1.1.isSome then (-1 : ℤ)
          else ((transfer slot (blocks buf) opened.2).1.2 : ℤ)).toNat
        (transfer slot (blocks buf) opened.2).2 with
      | .ret _ h' => _
      | .wrote count h' => _
    rw [hpoll]
    cases herror : (h.reports.move (blkCntCurrentTns numSec)).1 with
    | some stat => exact Or.inr ⟨hopens.mp hok, by simp, hstored⟩
    | none =>
        have hpos : ¬ (((h.reports.move (blkCntCurrentTns numSec)).2 : ℕ) : ℤ) < 0 := by
          omega
        simp only [Option.isSome_none, Bool.false_eq_true, if_false, if_neg hpos,
          Int.toNat_natCast]
        exact ⟨hopens.mp hok, trivial, trivial, hleft, hstored⟩

/-- A write stores a first part of its sectors, all of them exactly if the controller
takes them. -/
theorem omapMmcWriteSectLoop_stored (slot : Slot) (buf : Memory UInt8)
    (argument numSec : ℕ) (h : Host) {mode : Mode} {s : ℕ}
    (hmode : (h.curCardData slot).mode = mode)
    (hargument : argument = sectorArgument mode s)
    (hdisc : h.Disciplined) (hfit : s + numSec ≤ sectorLimit mode)
    (hlt : numSec < 2 ^ 32) :
    ∃ n ≤ numSec, (n = numSec ↔ h.reports.TakesAll numSec) ∧
      (omapMmcWriteSectLoop slot (secIncVal mode) buf argument numSec h).2.written =
        h.written ++ transferred slot s n (blocks buf) := by
  induction buf, argument, numSec, h using
    omapMmcWriteSectLoop.induct slot (secIncVal mode) generalizing s with
  | case1 buf argument h =>
      rw [omapMmcWriteSectLoop_zero]
      exact ⟨0, le_rfl, by simp, by simp [transferred]⟩
  | case2 buf argument numSec h hne err h' hb =>
      subst hargument
      subst hmode
      have hburst := writeBurst_stored buf numSec hne
        (show s < sectorLimit (h.curCardData slot).mode by omega)
      have hle := writeDataPoll_le hdisc (blkCntCurrentTns numSec)
      have hblocks := (blkCntCurrentTns_le numSec).1
      rw [hb] at hburst
      rw [omapMmcWriteSectLoop_of_ret hne hb, Reports.takesAll_of_ne hne]
      rcases hburst with ⟨hclosed, hwritten⟩ | ⟨hopens, herror, hwritten⟩
      · refine ⟨0, Nat.zero_le _, ?_, by simpa [transferred] using hwritten⟩
        exact ⟨fun hzero => absurd hzero.symm hne, fun hall => absurd hall.1 hclosed⟩
      · refine ⟨_, hle.trans hblocks, ?_, hwritten⟩
        exact ⟨fun hall => ⟨hopens, Or.inl hall⟩,
          fun hall => hall.2.resolve_right fun hnone => herror hnone.1⟩
  | case3 buf argument numSec h hne count h' hb ih =>
      subst hargument
      subst hmode
      have hburst := writeBurst_stored buf numSec hne
        (show s < sectorLimit (h.curCardData slot).mode by omega)
      have hwithin := writeBurst_within buf hdisc hne hfit
      have hcards := writeBurst_sameCards slot buf
        (sectorArgument (h.curCardData slot).mode s) numSec h
      rw [hb] at hburst hwithin hcards
      obtain ⟨hopens, hnone, hcount, hreports, hwritten⟩ := hburst
      obtain ⟨-, hle, hdisc'⟩ := hwithin
      have hleft := numSecLeft_eq hlt hle
      obtain ⟨n, hn, hall, hrest⟩ := ih (s := s + count)
        (by rw [hcards.curCardData_eq]) (sectorArgument_add _ s count) hdisc'
        (by rw [hleft]; omega) (by rw [hleft]; omega)
      rw [hleft] at hn hall
      rw [hreports] at hall
      rw [omapMmcWriteSectLoop_of_wrote hne hb, Reports.takesAll_of_ne hne, ← hcount]
      refine ⟨count + n, by omega, ?_, ?_⟩
      · constructor
        · intro hsum
          exact ⟨hopens, Or.inr ⟨hnone, hall.mp (by omega)⟩⟩
        · rintro ⟨-, hdone | ⟨-, htakes⟩⟩
          · omega
          · have := hall.mpr htakes
            omega
      · rw [hrest, hwritten, List.append_assoc]
        have hsplit := transferred_shift slot s count n buf
        exact congrArg (h.written ++ ·) hsplit.symm

/-- No byte is known behind a transfer. -/
theorem byteAt_transferred_of_ge {slot : Slot} {dst n : ℕ} {buf : Memory UInt8} {p : ℕ}
    (hp : n ≤ p / mmcsdSectorSize) :
    byteAt (transferred slot dst n (blocks buf)) slot dst p = none := by
  unfold byteAt
  rw [← List.nil_append (transferred slot dst n (blocks buf)),
    lastWrite_append_of_ne]
  · rfl
  · intro w hw heq
    obtain ⟨-, -, hhi⟩ := mem_transferred hw
    have : w.sector = dst + p / mmcsdSectorSize := (Prod.mk.inj heq).2
    omega

/-- The bytes that a write has stored are those of its buffer up to where the controller
has stopped taking them. -/
theorem byteAt_transferred_iff {slot : Slot} {dst n count : ℕ} {buf : Memory UInt8}
    (hn : n ≤ count) :
    (∀ p < count * mmcsdSectorSize,
        byteAt (transferred slot dst n (blocks buf)) slot dst p = some (buf p)) ↔
      n = count := by
  have hsize : 0 < mmcsdSectorSize := by decide
  constructor
  · intro hall
    by_contra hne
    have hbehind := hall (n * mmcsdSectorSize)
      (Nat.mul_lt_mul_of_pos_right (by omega) hsize)
    have hnone := @byteAt_transferred_of_ge slot dst n buf (n * mmcsdSectorSize)
      (by rw [Nat.mul_div_cancel _ hsize])
    rw [hnone] at hbehind
    cases hbehind
  · rintro rfl p hp
    have hbyte := @byteAt_transferred [] slot dst 0 n buf p (Nat.zero_le _)
      (by rw [Nat.zero_add]; exact Nat.div_lt_of_lt_mul (by rwa [Nat.mul_comm]))
    simpa using hbyte

end TateFirmware.Mmc
