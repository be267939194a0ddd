import TateFirmware.Fastboot.EfiTable

/-!
# The `check` command

`do_check_crc` and `mmc_crc32_test` of `common/cmd_checkcrc.c` on a card that
answers each read with the bytes it holds.  An image is named by `EFI_NAMELEN`
characters at most, so that `strcmp` stays in an entry.  The variable `start`,
which is never set, is a parameter.
-/

namespace TateFirmware.Fastboot

open LibGeneric Support

/-- The bytes of the card, and `CRC32_BUFFER_SIZE`. -/
structure CrcBoard where
  card : Memory UInt8
  bufferSize : ℕ
  bufferSize_pos : 0 < bufferSize

/-- What the command comes to. -/
inductive CheckEnd where
  /-- An error in front of the check. -/
  | refused
  /-- A negative size: more is read than there is memory. -/
  | overrun
  /-- `FAIL`. -/
  | fails
  /-- `PASS`, with the sector and the bytes of the one write. -/
  | passes (sector : ℕ) (bytes : List UInt8)

namespace CrcBoard

variable (board : CrcBoard)

/-! ## The command -/

/-- `mmc_crc32_read`, the bytes it reads. -/
def mmcCrc32Read (src size : ℕ) : List UInt8 :=
  board.card.read (512 * (src % 2 ^ 32)) size

/-- The loop of `mmc_crc32_test`: the checksum, and `i`. -/
def crcLoop (start size : ℕ) (crcCac : UInt32) (i : ℕ) : UInt32 × ℕ :=
  if i + board.bufferSize < size then
    crcLoop start size
      (crc32NoComp crcCac (board.mmcCrc32Read (start + i) board.bufferSize))
      (i + board.bufferSize)
  else (crcCac, i)
termination_by size - i
decreasing_by
  have := board.bufferSize_pos
  omega

/-- `crc_cac` at the end of `mmc_crc32_test`. -/
def crcCac (start size : ℕ) : UInt32 :=
  let first := crc32NoComp 0xffffffff
    (board.mmcCrc32Read start (min size board.bufferSize))
  let rest := board.crcLoop start size first board.bufferSize
  let last :=
    if rest.2 < size then
      crc32NoComp rest.1 (board.mmcCrc32Read (start + rest.2) (size - rest.2))
    else rest.1
  last ^^^ 0xffffffff

/-- The sector `checkaddr + checksize - 512`. -/
def trailerSector (start checksize : ℕ) : ℕ := (start + checksize + 2 ^ 32 - 512) % 2 ^ 32

/-- The `struct crc_table_t` at the end of a block, behind bytes of 0xFF. -/
def crcTableBlock (size : ℕ) (crc : UInt32) : List UInt8 :=
  List.replicate 504 0xFF ++ leBytes size ++ leBytes crc.toNat

/-- The `struct crc_table_t` at the end of a sector: a size and a checksum. -/
def crcTable (sector : ℕ) : ℕ × UInt32 :=
  let block := board.card.shift (512 * sector)
  (block.leWord 504, UInt32.ofNat (block.leWord 508))

/-- `mmc_crc32_test`. -/
def mmcCrc32Test (start checksize : ℕ) (crc : UInt32) (readMmcCrc : Bool) : CheckEnd :=
  let table :=
    if readMmcCrc then board.crcTable (trailerSector start checksize) else (checksize, crc)
  if checksize < table.1 then .refused
  else if 2 ^ 31 ≤ table.1 then .overrun
  else if table.2 = board.crcCac start table.1 then
    .passes (trailerSector start checksize) (crcTableBlock table.1 table.2)
  else .fails

/-- The entries that are looked at, four in a sector. -/
def efiEntryList : List (Memory UInt8) :=
  (List.range (128 / 4)).flatMap fun n =>
    (List.range 4).map fun m => board.card.shift (512 * (1 + n) + efiEntrySize * m)

/-- The first entry whose name is the string `image`. -/
def findImage (image : List UInt8) : Option (Memory UInt8) :=
  board.efiEntryList.find? fun entry =>
    entry.read 56 image.length = image ∧ entry (56 + image.length) = 0

/-- `last_lba - first_lba` of an entry. -/
def lbaDifference (entry : Memory UInt8) : ℕ :=
  (entry.leWord64 40 + 2 ^ 64 - entry.leWord64 32) % 2 ^ 64

/-- An `int` of 32 bits as it is compared with a `u64`. -/
def intToU64 (size : ℕ) : ℕ := if size < 2 ^ 31 then size else size + (2 ^ 64 - 2 ^ 32)

/-- The entry of an image that is found and has room for the size. -/
def accepted (image : List UInt8) (size : ℕ) : Option (Memory UInt8) :=
  if board.card.read 512 8 ≠ text "EFI PART" then none
  else (board.findImage image).filter fun entry => intToU64 size ≤ lbaDifference entry

/-- `do_check_crc` behind the parsing of its arguments. -/
def checkCrc (start : ℕ) (image : List UInt8) (size : ℕ) (crc : UInt32) : CheckEnd :=
  match board.accepted image size with
  | none => .refused
  | some entry =>
      if crc = 1 ∧ size = 1 then
        board.mmcCrc32Test start (lbaDifference entry % 2 ^ 32) crc true
      else board.mmcCrc32Test start size crc false

/-- `do_check_crc`. -/
def doCheckCrc (start : ℕ) (argv : List (List UInt8)) : CheckEnd :=
  match argv with
  | [_, image, size, crc] =>
      board.checkCrc start image (simpleStrtoul size 16).1
        (UInt32.ofNat (simpleStrtoul crc 16).1)
  | _ => .refused

/-! ## The bytes that are taken -/

/-- From the byte `i` on: a buffer at a time, each from the sector that has the number
of its first byte behind `start`. -/
def takenFrom (start size i : ℕ) : List UInt8 :=
  if i < size then
    board.mmcCrc32Read (start + i) (min board.bufferSize (size - i)) ++
      takenFrom start size (i + board.bufferSize)
  else []
termination_by size - i
decreasing_by
  have := board.bufferSize_pos
  omega

/-- The bytes whose checksum is computed. -/
def taken (start size : ℕ) : List UInt8 := board.takenFrom start size 0

theorem takenFrom_of_lt {start size i : ℕ} (hlt : i < size) :
    board.takenFrom start size i =
      board.mmcCrc32Read (start + i) (min board.bufferSize (size - i)) ++
        board.takenFrom start size (i + board.bufferSize) := by
  rw [takenFrom, if_pos hlt]

theorem takenFrom_of_ge {start size i : ℕ} (hge : size ≤ i) :
    board.takenFrom start size i = [] := by
  rw [takenFrom, if_neg (Nat.not_lt.mpr hge)]

theorem crc32NoComp_append (c : UInt32) (l l' : List UInt8) :
    crc32NoComp c (l ++ l') = crc32NoComp (crc32NoComp c l) l' :=
  List.foldl_append

/-- The loop and the part behind it take the bytes from `i` on. -/
theorem crcLoop_rest (start size : ℕ) (c : UInt32) (i : ℕ) :
    (if (board.crcLoop start size c i).2 < size then
        crc32NoComp (board.crcLoop start size c i).1
          (board.mmcCrc32Read (start + (board.crcLoop start size c i).2)
            (size - (board.crcLoop start size c i).2))
      else (board.crcLoop start size c i).1) =
      crc32NoComp c (board.takenFrom start size i) := by
  fun_induction crcLoop board start size c i with
  | case1 c i hlt ih =>
      rw [ih, board.takenFrom_of_lt (i := i) (by omega), min_eq_left (by omega),
        crc32NoComp_append]
  | case2 c i hge =>
      split
      · rename_i hlt
        rw [board.takenFrom_of_lt hlt, min_eq_right (by omega),
          board.takenFrom_of_ge (by omega), List.append_nil]
      · rename_i hend
        rw [board.takenFrom_of_ge (by omega)]
        rfl

/-- The checksum that is computed is the one of the bytes taken. -/
theorem crcCac_eq (start size : ℕ) :
    board.crcCac start size = crc32 0 (board.taken start size) := by
  have hfirst : crc32NoComp 0xffffffff (board.taken start size) =
      crc32NoComp (crc32NoComp 0xffffffff
        (board.mmcCrc32Read start (min size board.bufferSize)))
        (board.takenFrom start size board.bufferSize) := by
    by_cases hzero : size = 0
    · subst hzero
      rw [taken, board.takenFrom_of_ge le_rfl, board.takenFrom_of_ge (Nat.zero_le _),
        Nat.zero_min]
      rfl
    · rw [taken, board.takenFrom_of_lt (Nat.pos_of_ne_zero hzero), crc32NoComp_append,
        Nat.add_zero, Nat.sub_zero, Nat.zero_add, Nat.min_comm]
  rw [crcCac, crcLoop_rest, ← hfirst]
  rfl

/-! ## Against the partition -/

/-- The checksum of the first bytes of a partition. -/
def ptnCrc (ptn : PtnCall) (size : ℕ) : UInt32 :=
  crc32 0 (board.card.read (512 * ptn.first) size)

/-- `PASS` is reported exactly if the partition has the checksum, and nothing is written
but the trailer in the last sector of the partition. -/
structure ChecksPartition (ptn : PtnCall) (size : ℕ) (crc : UInt32) (r : CheckEnd) :
    Prop where
  passes : (∃ sector bytes, r = .passes sector bytes) ↔ board.ptnCrc ptn size = crc
  writes : ∀ sector bytes, r = .passes sector bytes →
    sector = ptn.last ∧ bytes = crcTableBlock size crc
  inMemory : r ≠ .overrun

/-- The trailer at the end of `checksize` sectors is refused, or it has another
checksum than the bytes taken. -/
def TrailerFails (start checksize : ℕ) : Prop :=
  let table := board.crcTable (trailerSector start checksize)
  checksize < table.1 ∨
    table.1 < 2 ^ 31 ∧ crc32 0 (board.taken start table.1) ≠ table.2

/-- When a check is right: one that is refused if the partition has another checksum,
any other if the bytes taken have the checksum as the partition has, and the trailer
then comes to the partition's last sector. -/
def ChecksWhen (ptn : PtnCall) (start size : ℕ) (crc : UInt32) : Prop :=
  match board.accepted ptn.name size with
  | none => board.ptnCrc ptn size ≠ crc
  | some entry =>
      if crc = 1 ∧ size = 1 then
        board.TrailerFails start (lbaDifference entry % 2 ^ 32)
      else
        size < 2 ^ 31 ∧
          (crc32 0 (board.taken start size) = crc ↔ board.ptnCrc ptn size = crc) ∧
          (board.ptnCrc ptn size = crc → trailerSector start size = ptn.last)

/-- No single byte has the checksum 1. -/
theorem crc32_byte_ne_one (b : UInt8) : crc32 0 [b] ≠ 1 := by
  have hbytes : ∀ k < 256, crc32 0 [UInt8.ofNat k] ≠ 1 := by decide +kernel
  have hb := hbytes b.toNat b.toNat_lt
  rwa [UInt8.ofNat_toNat] at hb

/-- A check that does not pass is right if the partition has another checksum. -/
theorem checksPartition_of_not_passes {ptn : PtnCall} {size : ℕ} {crc : UInt32}
    {r : CheckEnd} (hr : r = .refused ∨ r = .fails) :
    board.ChecksPartition ptn size crc r ↔ board.ptnCrc ptn size ≠ crc := by
  have hnot : ¬ ∃ sector bytes, r = .passes sector bytes := by
    rintro ⟨sector, bytes, rfl⟩
    rcases hr with h | h <;> cases h
  constructor
  · exact fun h => mt h.passes.mpr hnot
  · refine fun hne => ⟨iff_of_false hnot hne, fun sector bytes h => ?_, ?_⟩
    · exact absurd ⟨sector, bytes, h⟩ hnot
    · rintro rfl
      rcases hr with h | h <;> cases h

/-- `mmc_crc32_test` with the checksum of the bytes taken. -/
theorem mmcCrc32Test_eq (start checksize : ℕ) (crc : UInt32) (readMmcCrc : Bool)
    {table : ℕ × UInt32}
    (htable : (if readMmcCrc = true then board.crcTable (trailerSector start checksize)
      else (checksize, crc)) = table) :
    board.mmcCrc32Test start checksize crc readMmcCrc =
      if checksize < table.1 then .refused
      else if 2 ^ 31 ≤ table.1 then .overrun
      else if crc32 0 (board.taken start table.1) = table.2 then
        .passes (trailerSector start checksize) (crcTableBlock table.1 table.2)
      else .fails := by
  unfold mmcCrc32Test
  rw [htable]
  simp only [crcCac_eq, eq_comm]

/-- A size and a checksum of 1 are those of no byte, so that no check of the trailer may
pass. -/
theorem checksPartition_trailer_iff (ptn : PtnCall) (start checksize : ℕ) :
    board.ChecksPartition ptn 1 1 (board.mmcCrc32Test start checksize 1 true) ↔
      board.TrailerFails start checksize := by
  have hne : board.ptnCrc ptn 1 ≠ 1 := crc32_byte_ne_one _
  rw [board.mmcCrc32Test_eq start checksize 1 true (if_pos rfl), TrailerFails]
  generalize board.crcTable (trailerSector start checksize) = table
  by_cases hsmall : checksize < table.1
  · rw [if_pos hsmall, board.checksPartition_of_not_passes (Or.inl rfl)]
    exact iff_of_true hne (Or.inl hsmall)
  rw [if_neg hsmall]
  by_cases hbig : 2 ^ 31 ≤ table.1
  · rw [if_pos hbig]
    refine iff_of_false (fun h => h.inMemory rfl) ?_
    rintro (h | h)
    · exact hsmall h
    · omega
  rw [if_neg hbig]
  by_cases hcrc : crc32 0 (board.taken start table.1) = table.2
  · rw [if_pos hcrc]
    refine iff_of_false (fun h => hne (h.passes.mp ⟨_, _, rfl⟩)) ?_
    rintro (h | h)
    · exact hsmall h
    · exact h.2 hcrc
  · rw [if_neg hcrc, board.checksPartition_of_not_passes (Or.inr rfl)]
    exact iff_of_true hne (Or.inr ⟨Nat.not_le.mp hbig, hcrc⟩)

/-- A check with a size and a checksum of its own. -/
theorem checksPartition_test_iff (ptn : PtnCall) (start size : ℕ) (crc : UInt32) :
    board.ChecksPartition ptn size crc (board.mmcCrc32Test start size crc false) ↔
      size < 2 ^ 31 ∧
        (crc32 0 (board.taken start size) = crc ↔ board.ptnCrc ptn size = crc) ∧
        (board.ptnCrc ptn size = crc → trailerSector start size = ptn.last) := by
  rw [board.mmcCrc32Test_eq start size crc false (if_neg Bool.false_ne_true),
    if_neg (Nat.lt_irrefl size)]
  by_cases hbig : 2 ^ 31 ≤ size
  · rw [if_pos hbig]
    exact iff_of_false (fun h => h.inMemory rfl) (fun h => absurd h.1 (by omega))
  rw [if_neg hbig]
  by_cases hcrc : crc32 0 (board.taken start size) = crc
  · rw [if_pos hcrc]
    constructor
    · intro h
      have hptn := h.passes.mp ⟨_, _, rfl⟩
      exact ⟨Nat.not_le.mp hbig, iff_of_true hcrc hptn, fun _ => (h.writes _ _ rfl).1⟩
    · rintro ⟨-, hsame, htrailer⟩
      have hptn := hsame.mp hcrc
      refine ⟨iff_of_true ⟨_, _, rfl⟩ hptn, fun sector bytes h => ?_, nofun⟩
      obtain ⟨rfl, rfl⟩ := CheckEnd.passes.inj h
      exact ⟨htrailer hptn, rfl⟩
  · rw [if_neg hcrc, board.checksPartition_of_not_passes (Or.inr rfl)]
    constructor
    · exact fun h => ⟨Nat.not_le.mp hbig, iff_of_false hcrc h, fun hptn => absurd hptn h⟩
    · exact fun h => mt h.2.1.mpr hcrc

/-- In entries whose names have units below 256 no name of two characters or more is
found. -/
theorem findImage_of_units {image : List UInt8}
    (hunits : ∀ entry ∈ board.efiEntryList, entry 57 = 0) (hlen : 2 ≤ image.length)
    (hzero : 0 ∉ image) : board.findImage image = none := by
  refine List.find?_eq_none.mpr fun entry hentry hfound => hzero ?_
  have hname := (of_decide_eq_true hfound).1
  have hone : 1 < (entry.read 56 image.length).length := by
    rw [Memory.read_length]
    omega
  have hsecond : image[1] = 0 := by
    rw [← List.getElem_of_eq hname hone, Memory.read_getElem]
    exact hunits entry hentry
  exact hsecond ▸ List.getElem_mem _

end CrcBoard

/-- A partition of ten sectors. -/
def kernelPtn : PtnCall := ⟨100, 109, text "kernel"⟩

/-- A card of zeros with the table of the partition. -/
def kernelBoard : CrcBoard where
  card := (Memory.ofList 0 (List.replicate 512 0 ++ text "EFI PART")).writeParts
    (entryOffset 0) [(0, partitionType), (32, leBytes64 kernelPtn.first),
      (40, leBytes64 kernelPtn.last), (56, nameUnits kernelPtn.name)]
  bufferSize := 0x1000000
  bufferSize_pos := by decide

end TateFirmware.Fastboot
