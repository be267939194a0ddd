import TateFirmware.Mmc.Sectors
import TateFirmware.Sparse.Calls

/-!
# Sparse images

A sparse image is a file header and a list of chunks, whose headers agree with
their data.  Its expansion is the list of sector writes that put the data of
each `RAW` chunk behind the blocks of the chunks in front of it.
-/

namespace TateFirmware.Sparse

open Support Mmc

/-! ## Chunks -/

/-- A chunk of an image with blocks of `blkSz` bytes. -/
structure Chunk (blkSz : ℕ) where
  header : List UInt8
  data : List UInt8
  header_length : header.length = sizeofChunkHeader
  size_lt : chunkSz (sectionPtr header) * blkSz < 2 ^ 32
  kind :
    (chunkType (sectionPtr header) = chunkTypeRaw ∧
      data.length = chunkSz (sectionPtr header) * blkSz ∧
      chunkTotalSz (sectionPtr header) = data.length + sizeofChunkHeader) ∨
    (chunkType (sectionPtr header) = chunkTypeDontCare ∧ data = [] ∧
      chunkTotalSz (sectionPtr header) = sizeofChunkHeader)

namespace Chunk

variable {blkSz : ℕ}

/-- The blocks of a chunk in the output image. -/
def blocks (c : Chunk blkSz) : ℕ := chunkSz (sectionPtr c.header)

def bytes (c : Chunk blkSz) : List UInt8 := c.header ++ c.data

/-- The sectors of a chunk in the output image. -/
def sectors (c : Chunk blkSz) : ℕ := c.blocks * blkSz / mmcsdSectorSize

/-- The writes of a chunk at some sector, from its `i`-th sector on. -/
def writesFrom (c : Chunk blkSz) (slot : Slot) (sector i : ℕ) :
    List SectorWrite :=
  transferred slot (sector + i) (c.data.length / mmcsdSectorSize - i)
    fun k => Mmc.blocks (sectionPtr c.data) (i + k)

theorem bytes_length (c : Chunk blkSz) :
    c.bytes.length = sizeofChunkHeader + c.data.length := by
  rw [bytes, List.length_append, c.header_length]

theorem data_length_le (c : Chunk blkSz) :
    c.data.length ≤ c.blocks * blkSz := by
  rcases c.kind with ⟨_, h, _⟩ | ⟨_, h, _⟩
  · exact le_of_eq h
  · rw [h]
    exact Nat.zero_le _

/-- The data of a chunk are whole sectors. -/
theorem data_length_mod (hblk : blkSz % mmcsdSectorSize = 0)
    (c : Chunk blkSz) : c.data.length % mmcsdSectorSize = 0 := by
  rcases c.kind with ⟨_, h, _⟩ | ⟨_, h, _⟩
  · rw [h, Nat.mul_mod, hblk, Nat.mul_zero, Nat.zero_mod]
  · rw [h]
    rfl

/-- The first sectors of what is still to be written. -/
theorem writesFrom_add (c : Chunk blkSz) (slot : Slot) (sector : ℕ) {i n : ℕ}
    (h : i + n ≤ c.data.length / mmcsdSectorSize) :
    c.writesFrom slot sector i =
      transferred slot (sector + i) n
          (fun k => Mmc.blocks (sectionPtr c.data) (i + k)) ++
        c.writesFrom slot sector (i + n) := by
  have hsplit : c.data.length / mmcsdSectorSize - i =
      n + (c.data.length / mmcsdSectorSize - (i + n)) := by omega
  unfold writesFrom
  rw [hsplit, transferred_add, Nat.add_assoc]
  simp only [Nat.add_assoc]

theorem writesFrom_of_le (c : Chunk blkSz) (slot : Slot) (sector : ℕ) {i : ℕ}
    (h : c.data.length / mmcsdSectorSize ≤ i) :
    c.writesFrom slot sector i = [] := by
  rw [writesFrom, Nat.sub_eq_zero_of_le h]
  rfl

end Chunk

/-! ## Images -/

/-- A sparse image the header check accepts. -/
structure Image where
  header : List UInt8
  blkSz : ℕ
  chunks : List (Chunk blkSz)
  header_length : header.length = sizeofSparseHeader
  magic_eq : headerMagic (sectionPtr header) = sparseHeaderMagic
  majorVersion_eq :
    headerMajorVersion (sectionPtr header) = sparseHeaderMajorVer
  fileHdrSz_eq : headerFileHdrSz (sectionPtr header) = sizeofSparseHeader
  chunkHdrSz_eq : headerChunkHdrSz (sectionPtr header) = sizeofChunkHeader
  blkSz_eq : headerBlkSz (sectionPtr header) = blkSz
  blkSz_pos : 0 < blkSz
  blkSz_mod : blkSz % mmcsdSectorSize = 0
  totalChunks_eq : headerTotalChunks (sectionPtr header) = chunks.length

namespace Image

def bytes (image : Image) : List UInt8 :=
  image.header ++ image.chunks.flatMap Chunk.bytes

/-- The blocks of the output image. -/
def blocks (image : Image) : ℕ := (image.chunks.map Chunk.blocks).sum

end Image

/-- The writes of some chunks with `before` blocks in front of them, in an
output image that starts at sector `start`. -/
def expansionFrom {blkSz : ℕ} (slot : Slot) (start : ℕ) :
    ℕ → List (Chunk blkSz) → List SectorWrite
  | _, [] => []
  | before, c :: chunks =>
      c.writesFrom slot (start + before * blkSz / mmcsdSectorSize) 0 ++
        expansionFrom slot start (before + c.blocks) chunks

/-- The expansion of an image at sector `start`. -/
def Image.expansion (image : Image) (slot : Slot) (start : ℕ) :
    List SectorWrite :=
  expansionFrom slot start 0 image.chunks

/-- The sectors `mmc_write` is asked to write by a call. -/
def WriteCall.sectorWrites (c : WriteCall) : List SectorWrite :=
  transferred c.slotNo c.sector (numSecVal c.len) (Mmc.blocks c.src)

/-! ## Positions in an image -/

/-- The bytes that complete the sector behind `seen` bytes of data. -/
def missingBehind (seen : ℕ) : ℕ :=
  if seen % mmcsdSectorSize = 0 then 0
  else mmcsdSectorSize - seen % mmcsdSectorSize

/-- Either none are missing or they end at the next sector. -/
theorem missingBehind_cases (seen : ℕ) :
    (missingBehind seen = 0 ∧
        seen = mmcsdSectorSize * (seen / mmcsdSectorSize)) ∨
      (0 < missingBehind seen ∧ seen + missingBehind seen =
        mmcsdSectorSize * (seen / mmcsdSectorSize + 1)) := by
  unfold missingBehind mmcsdSectorSize
  split <;> omega

theorem missingBehind_lt (seen : ℕ) : missingBehind seen < mmcsdSectorSize := by
  unfold missingBehind mmcsdSectorSize
  split <;> omega

/-- A position between two bytes of the chunks of an image: the chunks that
are not yet read, how far the first of them has been read, and the sector its
blocks start at. -/
structure Position (blkSz : ℕ) where
  sector : ℕ
  offset : ℕ
  chunks : List (Chunk blkSz)

namespace Position

variable {blkSz : ℕ}

/-- The bytes behind a position. -/
def rest (p : Position blkSz) : List UInt8 :=
  (p.chunks.flatMap Chunk.bytes).drop p.offset

/-- The data bytes of the first chunk in front of the position. -/
def seen (p : Position blkSz) : ℕ := p.offset - sizeofChunkHeader

/-- The bytes that complete the sector of `RAW` data the position is in. -/
def missing (p : Position blkSz) : ℕ := missingBehind p.seen

/-- The writes of whole chunks. -/
def chunkWrites (slot : Slot) : ℕ → List (Chunk blkSz) → List SectorWrite
  | _, [] => []
  | sector, c :: chunks =>
      c.writesFrom slot sector 0 ++ chunkWrites slot (sector + c.sectors) chunks

/-- The writes still to come at a position. -/
def todo (slot : Slot) (p : Position blkSz) : List SectorWrite :=
  match p.chunks with
  | [] => []
  | c :: chunks =>
      c.writesFrom slot p.sector (p.seen / mmcsdSectorSize) ++
        chunkWrites slot (p.sector + c.sectors) chunks

@[simp] theorem todo_nil (slot : Slot) (sector offset : ℕ) :
    todo slot (⟨sector, offset, []⟩ : Position blkSz) = [] := rfl

@[simp] theorem todo_cons (slot : Slot) (sector offset : ℕ) (c : Chunk blkSz)
    (chunks : List (Chunk blkSz)) :
    todo slot ⟨sector, offset, c :: chunks⟩ =
      c.writesFrom slot sector
          ((offset - sizeofChunkHeader) / mmcsdSectorSize) ++
        chunkWrites slot (sector + c.sectors) chunks := rfl

/-- At the start of a chunk all of its writes are to come. -/
theorem todo_zero (slot : Slot) (sector : ℕ) (chunks : List (Chunk blkSz)) :
    todo slot ⟨sector, 0, chunks⟩ = chunkWrites slot sector chunks := by
  cases chunks with
  | nil => rfl
  | cons c chunks =>
      rw [todo_cons, Nat.zero_sub, Nat.zero_div]
      rfl

@[simp] theorem rest_zero (sector : ℕ) (chunks : List (Chunk blkSz)) :
    rest ⟨sector, 0, chunks⟩ = chunks.flatMap Chunk.bytes := rfl

/-- Behind a position in its first chunk come the rest of that chunk and the
other chunks. -/
theorem rest_cons {sector offset : ℕ} {c : Chunk blkSz}
    {chunks : List (Chunk blkSz)} (h : offset ≤ c.bytes.length) :
    rest ⟨sector, offset, c :: chunks⟩ =
      c.bytes.drop offset ++ chunks.flatMap Chunk.bytes := by
  rw [rest, List.flatMap_cons, List.drop_append_of_le_length h]

end Position

/-- Whole chunks can be written sector by sector or block by block. -/
theorem expansionFrom_eq {blkSz : ℕ} (hblk : blkSz % mmcsdSectorSize = 0)
    (slot : Slot) (start before : ℕ) (chunks : List (Chunk blkSz)) :
    expansionFrom slot start before chunks =
      Position.chunkWrites slot (start + before * blkSz / mmcsdSectorSize)
        chunks := by
  induction chunks generalizing before with
  | nil => rfl
  | cons c chunks ih =>
      obtain ⟨k, hk⟩ := Nat.dvd_of_mod_eq_zero hblk
      have hsum : before * blkSz / mmcsdSectorSize + c.sectors =
          (before + c.blocks) * blkSz / mmcsdSectorSize := by
        have hmul : ∀ n, n * blkSz / mmcsdSectorSize = n * k := by
          intro n
          rw [hk, Nat.mul_left_comm, Nat.mul_div_cancel_left _ (by decide)]
        rw [Chunk.sectors, hmul, hmul, hmul, Nat.add_mul]
      rw [expansionFrom, Position.chunkWrites, ih, Nat.add_assoc, hsum]

end TateFirmware.Sparse
