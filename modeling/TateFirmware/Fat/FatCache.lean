import TateFirmware.Fat.Fatent
import TateFirmware.Support.Run

/-!
# Runs of `get_fatent`

Over a run of calls the buffer holds the block with the number `fatbufnum`, as long
as every read that fails is reported as a negative result and leaves the buffer
alone.  Then each call returns the entry of the table.  `block_read` reports a failed
read as a smaller number of blocks, or as the state of the controller; such a block
is taken as read.
-/

namespace TateFirmware.Fat

open TateFirmware.Support

/-! ## Calls -/

/-- A call of `get_fatent`, with what the device does if it is read. -/
structure FatCall where
  entry : UInt32
  diskRead : DiskRead

/-- One call, with the value returned. -/
def fatStep (mydata : Fsdata) (call : FatCall) : Fsdata × List ℕ :=
  ((getFatent call.diskRead mydata call.entry).1,
    [(getFatent call.diskRead mydata call.entry).2])

/-- The block that an entry is in. -/
def bufnumOf (fatsize : FatSize) (entry : UInt32) : ℕ :=
  (fatBufEntries fatsize).elim 0 (entry.toNat / ·)

/-- The call reads its block. -/
def NeedsRead (mydata : Fsdata) (call : FatCall) : Prop :=
  bufnumOf mydata.fatsize call.entry ≠ mydata.fatbufnum

/-- What reading the block of a call does. -/
def outcomeOf (mydata : Fsdata) (call : FatCall) : ReadOutcome :=
  call.diskRead
    (fatStartblock mydata.fatSect (bufnumOf mydata.fatsize call.entry))
    (fatGetsize mydata.fatlength)

/-- The first byte of the table. -/
def fatStart (mydata : Fsdata) : ℕ := fsBlockSize * mydata.fatSect.toNat

/-- The read succeeds: the blocks asked for are in the buffer, and no error is
reported. -/
structure Succeeds (disk : Memory UInt8) (mydata : Fsdata) (call : FatCall) :
    Prop where
  result : 0 ≤ (outcomeOf mydata call).result
  written : (outcomeOf mydata call).written =
    disk.read (fsBlockSize *
        fatStartblock mydata.fatSect (bufnumOf mydata.fatsize call.entry))
      (fsBlockSize * fatGetsize mydata.fatlength)

/-- The read fails, which is reported and leaves the buffer alone. -/
structure Fails (mydata : Fsdata) (call : FatCall) : Prop where
  result : (outcomeOf mydata call).result < 0
  written : (outcomeOf mydata call).written = []

/-- A call returns the entry of the table unless its read fails. -/
def Right (disk : Memory UInt8) (mydata : Fsdata) (call : FatCall) : Prop :=
  (NeedsRead mydata call → Succeeds disk mydata call) →
    (getFatent call.diskRead mydata call.entry).2 =
      tableEntry disk mydata.fatsize (fatStart mydata) call.entry.toNat

/-- A call whose read succeeds or fails as above, for a table that is not empty, and
whose entry has no more than 28 bits. -/
structure Sound (disk : Memory UInt8) (mydata : Fsdata) (call : FatCall) :
    Prop where
  read : NeedsRead mydata call →
    (mydata.fatlength ≠ 0 ∧ Succeeds disk mydata call) ∨ Fails mydata call
  bits : mydata.fatsize = .fat32 →
    disk.leWord (fatStart mydata + 4 * call.entry.toNat) < 2 ^ 28

/-- The buffer holds the block with its number. -/
def Holding (disk : Memory UInt8) (mydata : Fsdata) : Prop :=
  mydata.fatbufnum ≠ noFatbuf → ∀ i < fatbufSize,
    mydata.fatbuf i =
      disk (fatStart mydata + mydata.fatbufnum * fatbufSize + i)

/-! ## One call -/

variable {disk : Memory UInt8} {mydata : Fsdata} {call : FatCall}

theorem bufnumOf_lt (fatsize : FatSize) (entry : UInt32) :
    bufnumOf fatsize entry * fatbufBlocks < 2 ^ 31 := by
  have hentry := entry.toNat_lt
  have hblocks : fatbufBlocks = 6 := rfl
  rw [hblocks]
  cases fatsize with
  | fat12 =>
      change entry.toNat / 2048 * 6 < _
      omega
  | fat16 =>
      change entry.toNat / 1536 * 6 < _
      omega
  | fat32 =>
      change entry.toNat / 768 * 6 < _
      omega
  | unsupported => exact Nat.two_pow_pos 31

theorem bufnumOf_ne (fatsize : FatSize) (entry : UInt32) :
    bufnumOf fatsize entry ≠ noFatbuf := by
  have hlt := bufnumOf_lt fatsize entry
  have hblocks : fatbufBlocks = 6 := rfl
  have hnone : noFatbuf = 2 ^ 32 - 1 := rfl
  rw [hblocks] at hlt
  omega

/-- The number of the first block does not overflow. -/
theorem fatStartblock_eq (fatSect : UInt16) (fatsize : FatSize) (entry : UInt32) :
    fatStartblock fatSect (bufnumOf fatsize entry) =
      bufnumOf fatsize entry * fatbufBlocks + fatSect.toNat := by
  have hlt := bufnumOf_lt fatsize entry
  have hsect := fatSect.toNat_lt
  exact Nat.mod_eq_of_lt (by omega)

theorem fatGetsize_eq {fatlength : UInt16} (h : fatlength ≠ 0) :
    fatGetsize fatlength = fatbufBlocks := by
  have hpos : fatlength.toNat ≠ 0 := fun hzero => h (UInt16.toNat_inj.mp hzero)
  have hbytes : ¬ fatbufSize / fsBlockSize > fatlength.toNat * fsBlockSize := by
    change ¬ 6 > fatlength.toNat * 512
    omega
  exact if_neg hbytes

/-- The offset of an entry in its block. -/
def offsetOf (fatsize : FatSize) (entries : ℕ) (entry : UInt32) : ℕ :=
  entry.toNat - bufnumOf fatsize entry * entries

theorem offsetOf_spec {fatsize : FatSize} {entries : ℕ}
    (h : fatBufEntries fatsize = some entries) (entry : UInt32) :
    offsetOf fatsize entries entry < entries ∧
      bufnumOf fatsize entry * entries + offsetOf fatsize entries entry =
        entry.toNat := by
  have hpos : 0 < entries := by
    cases fatsize with
    | fat12 => obtain rfl := Option.some.inj h; decide
    | fat16 => obtain rfl := Option.some.inj h; decide
    | fat32 => obtain rfl := Option.some.inj h; decide
    | unsupported => cases h
  have hdiv := Nat.div_add_mod entry.toNat entries
  have hmod := Nat.mod_lt entry.toNat hpos
  have hbufnum : bufnumOf fatsize entry = entry.toNat / entries := by
    rw [bufnumOf, h]
    rfl
  rw [Nat.mul_comm] at hdiv
  rw [offsetOf, hbufnum]
  omega

/-- The entry is in the buffer. -/
theorem getFatent_of_cached {entries : ℕ}
    (h : fatBufEntries mydata.fatsize = some entries)
    (hcached : ¬ NeedsRead mydata call) :
    getFatent call.diskRead mydata call.entry =
      (mydata, decodeEntry mydata.fatbuf mydata.fatsize
        (offsetOf mydata.fatsize entries call.entry)) := by
  rw [NeedsRead, bufnumOf, h] at hcached
  rw [getFatent, h, offsetOf, bufnumOf, h]
  exact if_neg hcached

/-- The block of the entry is read. -/
theorem getFatent_of_read {entries : ℕ}
    (h : fatBufEntries mydata.fatsize = some entries)
    (hread : NeedsRead mydata call) (hresult : 0 ≤ (outcomeOf mydata call).result) :
    let fatbuf := mydata.fatbuf.copyIn 0 (outcomeOf mydata call).written
    getFatent call.diskRead mydata call.entry =
      ({ mydata with fatbuf, fatbufnum := bufnumOf mydata.fatsize call.entry },
        decodeEntry fatbuf mydata.fatsize
          (offsetOf mydata.fatsize entries call.entry)) := by
  rw [NeedsRead, bufnumOf, h] at hread
  rw [outcomeOf, bufnumOf, h] at hresult
  rw [getFatent, h, outcomeOf, offsetOf, bufnumOf, h]
  dsimp only [Option.elim_some] at hread hresult ⊢
  rw [if_pos hread, if_neg (Int.not_lt.mpr hresult)]

/-- The block cannot be read. -/
theorem getFatent_of_failed {entries : ℕ}
    (h : fatBufEntries mydata.fatsize = some entries)
    (hread : NeedsRead mydata call) (hresult : (outcomeOf mydata call).result < 0) :
    getFatent call.diskRead mydata call.entry =
      ({ mydata with
          fatbuf := mydata.fatbuf.copyIn 0 (outcomeOf mydata call).written }, 0) := by
  rw [NeedsRead, bufnumOf, h] at hread
  rw [outcomeOf, bufnumOf, h] at hresult
  rw [getFatent, h, outcomeOf, bufnumOf, h]
  dsimp only [Option.elim_some] at hread hresult ⊢
  rw [if_pos hread, if_pos hresult]

/-- The entry of a block that is held is the entry of the table. -/
theorem decodeEntry_of_held {entries : ℕ} {fatbuf : Memory UInt8}
    (h : fatBufEntries mydata.fatsize = some entries)
    (hbits : mydata.fatsize = .fat32 →
      disk.leWord (fatStart mydata + 4 * call.entry.toNat) < 2 ^ 28)
    (hbuf : ∀ i < fatbufSize, fatbuf i = disk (fatStart mydata +
      bufnumOf mydata.fatsize call.entry * fatbufSize + i)) :
    decodeEntry fatbuf mydata.fatsize
        (offsetOf mydata.fatsize entries call.entry) =
      tableEntry disk mydata.fatsize (fatStart mydata) call.entry.toNat := by
  obtain ⟨hoffset, hentry⟩ := offsetOf_spec h call.entry
  rw [decodeEntry_eq, tableEntry_of_block h hoffset hbuf, hentry]
  intro hfat32
  rw [hfat32] at h
  obtain rfl : fat32BufSize = entries := Option.some.inj h
  rw [leWord_of_block hoffset hbuf, hentry]
  exact hbits hfat32

/-- The blocks that a read delivers are those of its number. -/
theorem copyIn_written (hlength : mydata.fatlength ≠ 0)
    (hsucceeds : Succeeds disk mydata call) {i : ℕ} (hi : i < fatbufSize) :
    mydata.fatbuf.copyIn 0 (outcomeOf mydata call).written i =
      disk (fatStart mydata +
        bufnumOf mydata.fatsize call.entry * fatbufSize + i) := by
  have hwritten := hsucceeds.written
  rw [fatStartblock_eq, fatGetsize_eq hlength] at hwritten
  have hlen : i < (outcomeOf mydata call).written.length := by
    rw [hwritten, Memory.read_length]
    exact hi
  have hcopied := Memory.copyIn_add (m := mydata.fatbuf) (p := 0) hlen
  rw [Nat.zero_add] at hcopied
  rw [hcopied, List.getElem_of_eq hwritten, Memory.read_getElem]
  congr 1
  have hblock : fsBlockSize = 512 := rfl
  have hblocks : fatbufBlocks = 6 := rfl
  have hsize : fatbufSize = 3072 := rfl
  rw [fatStart, hblock, hblocks, hsize]
  omega

/-- A sound call keeps the block with its number in the buffer, and returns the
entry of the table. -/
theorem getFatent_sound (hsize : mydata.fatsize ≠ .unsupported)
    (hsound : Sound disk mydata call) (hholding : Holding disk mydata) :
    Right disk mydata call ∧ Holding disk (fatStep mydata call).1 := by
  obtain ⟨entries, hentries⟩ :
      ∃ entries, fatBufEntries mydata.fatsize = some entries := by
    cases hfat : mydata.fatsize with
    | unsupported => exact absurd hfat hsize
    | _ => exact ⟨_, rfl⟩
  by_cases hread : NeedsRead mydata call
  · rcases hsound.read hread with ⟨hlength, hsucceeds⟩ | hfails
    · have hbuf := fun i => copyIn_written (i := i) hlength hsucceeds
      have hstep := getFatent_of_read hentries hread hsucceeds.result
      rw [Right, fatStep, hstep]
      exact ⟨fun _ => decodeEntry_of_held hentries hsound.bits hbuf, fun _ => hbuf⟩
    · have hstep := getFatent_of_failed hentries hread hfails.result
      rw [Right, fatStep, hstep, hfails.written]
      refine ⟨fun hsucceeds => ?_, ?_⟩
      · exact absurd (hsucceeds hread).result (Int.not_le.mpr hfails.result)
      · exact hholding
  · have hheld := not_not.mp hread
    have hbuf := hholding (hheld ▸ bufnumOf_ne _ _)
    rw [← hheld] at hbuf
    rw [Right, fatStep, getFatent_of_cached hentries hread]
    exact ⟨fun _ => decodeEntry_of_held hentries hsound.bits hbuf, hholding⟩

/-! ## Runs -/

theorem fatStep_fatsize (mydata : Fsdata) (call : FatCall) :
    (fatStep mydata call).1.fatsize = mydata.fatsize := by
  rw [fatStep, getFatent]
  cases fatBufEntries mydata.fatsize with
  | none => rfl
  | some entries =>
      dsimp only
      split_ifs <;> rfl

/-- Over every run of sound calls, each call returns the entry of the table unless
its own read fails. -/
theorem getFatent_right (disk : Memory UInt8) {mydata : Fsdata}
    (hsize : mydata.fatsize ≠ .unsupported) (hnew : mydata.fatbufnum = noFatbuf)
    {calls : List FatCall} (hsound : StepsMeet fatStep (Sound disk) mydata calls) :
    StepsMeet fatStep (Right disk) mydata calls := by
  have hinv : ∀ mydata call, Sound disk mydata call →
      mydata.fatsize ≠ .unsupported ∧ Holding disk mydata →
      Right disk mydata call ∧ (fatStep mydata call).1.fatsize ≠ .unsupported ∧
        Holding disk (fatStep mydata call).1 := by
    intro mydata call hcall ⟨hsize, hholding⟩
    obtain ⟨hright, hheld⟩ := getFatent_sound hsize hcall hholding
    exact ⟨hright, by rwa [fatStep_fatsize], hheld⟩
  exact hsound.imp_of_invariant hinv ⟨hsize, fun hheld => absurd hnew hheld⟩

/-- A new buffer for a table of 16-bit entries at sector `1`. -/
def newFat16 : Fsdata := ⟨.fat16, 9, 1, fun _ => 0, noFatbuf⟩

/-- A disk that delivers its blocks. -/
def delivers (disk : Memory UInt8) : DiskRead := fun startblock getsize =>
  ⟨getsize, disk.read (fsBlockSize * startblock) (fsBlockSize * getsize)⟩

theorem succeeds_delivers (disk : Memory UInt8) (mydata : Fsdata) (entry : UInt32) :
    Succeeds disk mydata ⟨entry, delivers disk⟩ := ⟨Int.natCast_nonneg _, rfl⟩

theorem getFatent_right_reread :
    StepsMeet fatStep (Right fun _ => 1) newFat16
      [⟨2, fun _ _ => ⟨-1, []⟩⟩, ⟨2, delivers fun _ => 1⟩] := by
  refine getFatent_right _ (by decide) rfl
    ⟨⟨fun _ => ?_, nofun⟩, ⟨fun _ => ?_, nofun⟩, trivial⟩
  · exact Or.inr ⟨by decide, rfl⟩
  · exact Or.inl ⟨by decide, succeeds_delivers _ _ _⟩

/-- A read that fails with a result of `0`, and another entry of its block. -/
theorem failedRead_not_right :
    ¬ StepsMeet fatStep (Right fun _ => 1) newFat16
      [⟨2, fun _ _ => ⟨0, []⟩⟩, ⟨3, fun _ _ => ⟨0, []⟩⟩] := by
  intro h
  have hsecond := h.2.1 fun hread => absurd rfl hread
  exact absurd hsecond (by decide)

end TateFirmware.Fat
