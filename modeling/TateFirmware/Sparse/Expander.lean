import TateFirmware.Support.Memory
import TateFirmware.Mmc.Host

/-!
# The sparse image expander

A sparse image is a file header followed by chunks, each a chunk header with
or without data.  `cpu/omap4/sparse.c` expands an image that arrives in
pieces: the state between two pieces says how many chunks remain, how far the
current chunk (header included) has been read, and which bytes of a sector
that is not yet full have been seen.  The expander is generic in the function
`WRITE` that stores sectors, whose result it drops.
-/

namespace TateFirmware.Sparse

open Support

/-- A pointer to bytes. -/
abbrev Pointer := Memory UInt8

/-- `__le16` at an offset. -/
def le16 (m : Pointer) (p : ℕ) : ℕ := (m p).toNat + 256 * (m (p + 1)).toNat

/-- `__le32` at an offset. -/
def le32 (m : Pointer) (p : ℕ) : ℕ := le16 m p + 65536 * le16 m (p + 2)

def sparseHeaderMagic : ℕ := 0xed26ff3a

def sparseHeaderMajorVer : ℕ := 1

/-- `sizeof(sparse_header_t)`. -/
def sizeofSparseHeader : ℕ := 28

/-- `sizeof(chunk_header_t)`. -/
def sizeofChunkHeader : ℕ := 12

def chunkTypeRaw : ℕ := 0xCAC1

def chunkTypeDontCare : ℕ := 0xCAC3

/-! ## Field offsets of `sparse_header_t` and `chunk_header_t` -/

def headerMagic (m : Pointer) : ℕ := le32 m 0

def headerMajorVersion (m : Pointer) : ℕ := le16 m 4

def headerFileHdrSz (m : Pointer) : ℕ := le16 m 8

def headerChunkHdrSz (m : Pointer) : ℕ := le16 m 10

def headerBlkSz (m : Pointer) : ℕ := le32 m 12

def headerTotalChunks (m : Pointer) : ℕ := le32 m 20

def chunkType (m : Pointer) : ℕ := le16 m 0

def chunkSz (m : Pointer) : ℕ := le32 m 4

def chunkTotalSz (m : Pointer) : ℕ := le32 m 8

/-- `sparse_state_t`. -/
structure SparseState where
  remainingChunks : ℕ
  /-- Offset in the current chunk, header included. -/
  chunkOffset : ℕ
  sector : ℕ
  lastHeader : Pointer
  blockSize : ℕ
  slotNo : Mmc.Slot
  data : Pointer

/-- Return value and effects of one expander call: the rest of the section,
the state, and the world the sectors are written to. -/
structure Progress (W : Type*) where
  ret : ℕ
  source : List UInt8
  state : SparseState
  world : W

/-- The type of `WRITE(mmcc, src, sector, len)`. -/
abbrev Writer (W : Type*) := Mmc.Slot → Pointer → ℕ → ℕ → W → W

/-- A pointer to the first byte of a section. -/
def sectionPtr (source : List UInt8) : Pointer := Memory.ofList 0 source

/-- `_unsparse_read_header`: `none` is the return value `1`. -/
def unsparseReadHeader (source : List UInt8) (state : SparseState) :
    Option (List UInt8 × SparseState) :=
  let header := sectionPtr source
  if source.length < sizeofSparseHeader then none
  else if headerMagic header ≠ sparseHeaderMagic then none
  else if headerMajorVersion header ≠ sparseHeaderMajorVer ∨
      headerFileHdrSz header ≠ sizeofSparseHeader ∨
      headerChunkHdrSz header ≠ sizeofChunkHeader then none
  else
    some (source.drop sizeofSparseHeader,
      { state with
        remainingChunks := headerTotalChunks header
        chunkOffset := 0
        blockSize := headerBlkSz header })

/-- The first half of `_unsparse_process_chunk`: read what is missing of the
chunk header. -/
def readChunkHeader (source : List UInt8) (state : SparseState) :
    List UInt8 × SparseState :=
  if state.chunkOffset < sizeofChunkHeader then
    let available := min source.length (sizeofChunkHeader - state.chunkOffset)
    (source.drop available,
      { state with
        lastHeader :=
          state.lastHeader.copyIn state.chunkOffset (source.take available)
        chunkOffset := state.chunkOffset + available })
  else (source, state)

/-- `chunk_sz * block_size`, in 32 bits. -/
def SparseState.chunkSize (state : SparseState) : ℕ :=
  chunkSz state.lastHeader * state.blockSize % 2 ^ 32

/-- `chunk_cur_size`: the bytes of the current chunk's data seen so far. -/
def SparseState.chunkCurSize (state : SparseState) : ℕ :=
  state.chunkOffset - sizeofChunkHeader

/-- `chunk_rem_size`, in 32 bits. -/
def SparseState.chunkRemSize (state : SparseState) : ℕ :=
  (state.chunkSize + 2 ^ 32 - state.chunkCurSize) % 2 ^ 32

/-- `missing_bytes`: what the last, partly seen sector still lacks. -/
def SparseState.missingBytes (state : SparseState) : ℕ :=
  if state.chunkCurSize % 512 = 0 then 0 else 512 - state.chunkCurSize % 512

/-- `chunk_avl_size`: the bytes of the section that belong to the chunk. -/
def SparseState.chunkAvlSize (state : SparseState) (source : List UInt8) : ℕ :=
  if state.chunkRemSize ≤ source.length then state.chunkRemSize
  else source.length

/-- `state.sector += n`. -/
def SparseState.advance (state : SparseState) (n : ℕ) : SparseState :=
  { state with sector := (state.sector + n) % 2 ^ 32 }

/-- The current chunk is completed. -/
def SparseState.nextChunk (state : SparseState) : SparseState :=
  { state with
    chunkOffset := 0
    remainingChunks := state.remainingChunks - 1 }

section Expander

variable {W : Type*} (WRITE : Writer W)

/-- Fill the sector left over from the previous piece and write it. -/
def fillSector (source : List UInt8) (state : SparseState) (w : W) :
    List UInt8 × SparseState × W :=
  let missing := state.missingBytes
  if missing = 0 then (source, state, w)
  else
    let data := state.data.copyIn (state.chunkCurSize % 512)
      (source.take missing)
    (source.drop missing, { state with data := data }.advance 1,
      WRITE state.slotNo data state.sector 512 w)

/-- Read the chunk's share of the section: complete the sector left over from
the previous piece, write the whole sectors, and keep the rest for the next
piece. -/
def readRaw (source : List UInt8) (state : SparseState) (w : W) :
    Progress W :=
  let avail := state.chunkAvlSize source - state.missingBytes
  let copyLen := avail / 512 * 512
  let remData := avail - copyLen
  let (rest, st, w) := fillSector WRITE source state w
  let w := WRITE st.slotNo (sectionPtr rest) st.sector copyLen w
  let st := st.advance (copyLen / 512)
  let rest := rest.drop copyLen
  let st := { st with data := st.data.copyIn 0 (rest.take remData) }
  let rest := rest.drop remData
  if state.chunkRemSize ≤ source.length then ⟨0, rest, st.nextChunk, w⟩
  else
    ⟨0, rest,
      { st with
        chunkOffset :=
          (st.chunkOffset + state.chunkAvlSize source) % 2 ^ 32 }, w⟩

/-- The `CHUNK_TYPE_RAW` case of `_unsparse_process_chunk`. -/
def processRaw (source : List UInt8) (state : SparseState) (w : W) :
    Progress W :=
  if source = [] then ⟨0, source, state, w⟩
  else if chunkTotalSz state.lastHeader ≠
      (state.chunkSize + sizeofChunkHeader) % 2 ^ 32 then
    ⟨1, source, state, w⟩
  else if state.chunkAvlSize source < state.missingBytes then
    ⟨1, source, state, w⟩
  else readRaw WRITE source state w

/-- The `CHUNK_TYPE_DONT_CARE` case of `_unsparse_process_chunk`. -/
def processDontCare (source : List UInt8) (state : SparseState) (w : W) :
    Progress W :=
  if chunkTotalSz state.lastHeader ≠ sizeofChunkHeader then
    ⟨1, source, state, w⟩
  else ⟨0, source, (state.advance (state.chunkSize / 512)).nextChunk, w⟩

/-- `_unsparse_process_chunk`. -/
def unsparseProcessChunk (source : List UInt8) (state : SparseState) (w : W) :
    Progress W :=
  let (source, state) := readChunkHeader source state
  if state.chunkOffset < sizeofChunkHeader then ⟨0, source, state, w⟩
  else if chunkType state.lastHeader = chunkTypeRaw then
    processRaw WRITE source state w
  else if chunkType state.lastHeader = chunkTypeDontCare then
    processDontCare source state w
  else ⟨1, source, state, w⟩

end Expander

end TateFirmware.Sparse
