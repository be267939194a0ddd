import TateFirmware.Sparse.Image

/-!
# Passes over an image

Between two passes the expander stands at a position of the image.  A pass
over bytes that start there succeeds, if they complete the sector the position
is in, and moves the expander to a later position; the sectors it writes are
those that are no longer to be written there.
-/

namespace TateFirmware.Sparse

open Support Mmc

variable {blkSz : ℕ} {slot : Slot}

/-! ## Headers and sectors in memory -/

/-- The header of a chunk can be read from any memory that holds it. -/
theorem Chunk.header_congr (c : Chunk blkSz) {m : Pointer}
    (hm : Memory.Holds m 0 c.header) :
    chunkType m = chunkType (sectionPtr c.header) ∧
      chunkSz m = c.blocks ∧
      chunkTotalSz m = chunkTotalSz (sectionPtr c.header) := by
  have hcell : ∀ k, k < 12 → m k = sectionPtr c.header k := by
    intro k hk
    have hlen : k < c.header.length := by
      rw [c.header_length]
      exact hk
    have hget := hm k hlen
    rw [Nat.zero_add] at hget
    rw [hget, sectionPtr, Memory.ofList_apply hlen]
  exact ⟨le16_congr fun k _ hk => hcell k (by omega),
    le32_congr fun k _ hk => hcell k (by omega),
    le32_congr fun k _ hk => hcell k (by omega)⟩

/-- A call whose source holds data of a chunk writes sectors of the chunk. -/
theorem sectorWrites_of_holds (c : Chunk blkSz) {src : Pointer}
    {s len i n : ℕ}
    (hsrc : Memory.Holds src 0 ((c.data.drop (mmcsdSectorSize * i)).take
      (mmcsdSectorSize * n)))
    (hlen : numSecVal len = n)
    (hfit : mmcsdSectorSize * (i + n) ≤ c.data.length) :
    WriteCall.sectorWrites ⟨slot, src, s, len⟩ =
      transferred slot s n
        fun k => Mmc.blocks (sectionPtr c.data) (i + k) := by
  unfold WriteCall.sectorWrites
  dsimp only
  rw [hlen]
  apply transferred_congr
  intro k hk
  unfold Mmc.blocks
  apply Memory.read_congr
  intro j hj
  have hindex : mmcsdSectorSize * k + j < mmcsdSectorSize * n := by
    have := Nat.mul_le_mul_left mmcsdSectorSize hk
    rw [Nat.mul_succ] at this
    omega
  have hsum : mmcsdSectorSize * i + (mmcsdSectorSize * k + j) =
      mmcsdSectorSize * (i + k) + j := by rw [Nat.mul_add, Nat.add_assoc]
  have hdata : mmcsdSectorSize * (i + k) + j < c.data.length := by
    rw [Nat.mul_add] at hfit
    omega
  have hcell := hsrc (mmcsdSectorSize * k + j) (by
    rw [List.length_take, List.length_drop]
    omega)
  rw [Nat.zero_add, List.getElem_take, List.getElem_drop] at hcell
  rw [hcell, sectionPtr, Memory.ofList_apply hdata]
  simp only [hsum]

/-! ## The expander at a position -/

/-- The expander is in the middle of a chunk, `offset` bytes behind its
start. -/
structure Chunk.Inside (c : Chunk blkSz) (offset : ℕ) (st : SparseState) :
    Prop where
  offset_le : offset ≤ c.bytes.length
  header_holds : Memory.Holds st.lastHeader 0 (c.header.take offset)
  data_holds : Memory.Holds st.data 0
    ((c.data.drop ((offset - sizeofChunkHeader) / mmcsdSectorSize *
      mmcsdSectorSize)).take ((offset - sizeofChunkHeader) % mmcsdSectorSize))

/-- The expander is at a position, and everything behind it can be
addressed. -/
structure At (slot : Slot) (p : Position blkSz) (st : SparseState) :
    Prop where
  remainingChunks : st.remainingChunks = p.chunks.length
  blockSize : st.blockSize = blkSz
  slotNo : st.slotNo = slot
  chunkOffset : st.chunkOffset = p.offset
  sector : st.sector = (p.sector + p.seen / mmcsdSectorSize) % 2 ^ 32
  fits : p.sector + (p.chunks.map Chunk.sectors).sum ≤ 2 ^ 32
  offset_eq : p.chunks = [] → p.offset = 0
  inside : ∀ c ∈ p.chunks.head?, c.Inside p.offset st

/-- What a stretch of the image brings about: the expander has moved from one
position to another, and the writes in between have been called. -/
structure Moves (slot : Slot) (p p' : Position blkSz) (later : List UInt8)
    (calls : List WriteCall) (r : Progress (List WriteCall)) : Prop where
  ret : r.ret = 0
  at_ : At slot p' r.state
  rest : r.source ++ later = p'.rest
  suffix : p'.chunks <:+ p.chunks
  writes : ∃ new, r.world = calls ++ new ∧
    new.flatMap WriteCall.sectorWrites ++ p'.todo slot = p.todo slot

theorem Moves.trans {p p' p'' : Position blkSz} {later : List UInt8}
    {calls : List WriteCall} {r r' : Progress (List WriteCall)}
    (a : Moves slot p p' later calls r)
    (b : Moves slot p' p'' later r.world r') :
    Moves slot p p'' later calls r' where
  ret := b.ret
  at_ := b.at_
  rest := b.rest
  suffix := b.suffix.trans a.suffix
  writes := by
    obtain ⟨new, hworld, htodo⟩ := a.writes
    obtain ⟨new', hworld', htodo'⟩ := b.writes
    refine ⟨new ++ new', ?_, ?_⟩
    · rw [hworld', hworld, List.append_assoc]
    · rw [List.flatMap_append, List.append_assoc, htodo', htodo]

/-! ## Chunk headers -/

/-- What a section starts with. -/
theorem take_drop_of_append {src later rest : List UInt8} {n : ℕ}
    (hrest : src ++ later = rest) (hn : n ≤ src.length) :
    src.take n = rest.take n ∧ src.drop n ++ later = rest.drop n := by
  rw [← hrest, List.take_append_of_le_length hn,
    List.drop_append_of_le_length hn]
  exact ⟨rfl, rfl⟩

/-- At the start of a chunk nothing has been read. -/
theorem Chunk.inside_zero (c : Chunk blkSz) (st : SparseState) :
    c.Inside 0 st where
  offset_le := Nat.zero_le _
  header_holds := Memory.holds_nil _ _
  data_holds := by
    rw [Nat.zero_sub, Nat.zero_mod, List.take_zero]
    exact Memory.holds_nil _ _

section Chunk

variable {sector offset : ℕ} {c : Chunk blkSz} {chunks : List (Chunk blkSz)}
  {src later : List UInt8} {st : SparseState} {calls : List WriteCall}

theorem At.inside_head (hat : At slot ⟨sector, offset, c :: chunks⟩ st) :
    c.Inside offset st := hat.inside c rfl

/-- Reading what is missing of a chunk header, or as much as there is. -/
theorem readChunkHeader_at (hat : At slot ⟨sector, offset, c :: chunks⟩ st)
    (hrest : src ++ later = Position.rest ⟨sector, offset, c :: chunks⟩) :
    ∃ offset', At slot ⟨sector, offset', c :: chunks⟩
        (readChunkHeader src st).2 ∧
      (readChunkHeader src st).1 ++ later =
        Position.rest ⟨sector, offset', c :: chunks⟩ ∧
      Position.todo slot ⟨sector, offset', c :: chunks⟩ =
        Position.todo slot ⟨sector, offset, c :: chunks⟩ ∧
      ((offset' < sizeofChunkHeader ∧ (readChunkHeader src st).1 = []) ∨
        (offset' = max offset sizeofChunkHeader ∧
          (readChunkHeader src st).1 =
            src.drop (sizeofChunkHeader - offset))) := by
  have hinside := hat.inside_head
  have hoffset := hat.chunkOffset
  dsimp only at hoffset
  unfold readChunkHeader
  rw [hoffset]
  by_cases hlt : offset < sizeofChunkHeader
  · rw [if_pos hlt]
    dsimp only
    generalize havail : min src.length (sizeofChunkHeader - offset) = avail
    have hle : avail ≤ src.length := by omega
    have hseen : offset - sizeofChunkHeader = 0 := by omega
    have hseen' : offset + avail - sizeofChunkHeader = 0 := by omega
    obtain ⟨htake, hdrop⟩ := take_drop_of_append hrest hle
    have hheader : src.take avail = (c.header.drop offset).take avail := by
      rw [htake, Position.rest_cons hinside.offset_le, Chunk.bytes,
        List.drop_append_of_le_length (by rw [c.header_length]; omega),
        List.append_assoc, List.take_append_of_le_length]
      rw [List.length_drop, c.header_length]
      omega
    refine ⟨offset + avail, ?_, ?_, ?_, ?_⟩
    · exact
        { remainingChunks := hat.remainingChunks
          blockSize := hat.blockSize
          slotNo := hat.slotNo
          chunkOffset := rfl
          sector := by
            have hsector := hat.sector
            simp only [Position.seen, hseen] at hsector
            simp only [Position.seen, hseen']
            exact hsector
          fits := hat.fits
          offset_eq := fun h => by simp at h
          inside := by
            intro c' hc'
            obtain rfl : c = c' := by simpa using hc'
            refine ⟨?_, ?_, ?_⟩
            · rw [c.bytes_length]
              dsimp only
              omega
            · have hlen : (c.header.take offset).length = offset := by
                rw [List.length_take, c.header_length]
                omega
              have hheld := hinside.header_holds.append_copyIn (src.take avail)
              rw [hlen, Nat.zero_add, hheader, ← List.take_add] at hheld
              rw [hheader]
              exact hheld
            · dsimp only
              rw [hseen', Nat.zero_mod, List.take_zero]
              exact Memory.holds_nil _ _ }
    · rw [hdrop, Position.rest, Position.rest, List.drop_drop]
    · simp only [Position.todo_cons, hseen, hseen']
    · rcases Nat.lt_or_ge src.length (sizeofChunkHeader - offset) with hs | hs
      · refine Or.inl ⟨by omega, List.drop_eq_nil_of_le (by omega)⟩
      · refine Or.inr ⟨by omega, ?_⟩
        rw [← havail, Nat.min_eq_right hs]
  · rw [if_neg hlt]
    refine ⟨offset, hat, hrest, rfl, Or.inr ⟨by omega, ?_⟩⟩
    rw [Nat.sub_eq_zero_of_le (by omega), List.drop_zero]

/-! ## `DONT_CARE` chunks -/

/-- The complete header of the current chunk. -/
theorem At.header (hat : At slot ⟨sector, offset, c :: chunks⟩ st)
    (hoffset : sizeofChunkHeader ≤ offset) :
    chunkType st.lastHeader = chunkType (sectionPtr c.header) ∧
      chunkSz st.lastHeader = c.blocks ∧
      chunkTotalSz st.lastHeader = chunkTotalSz (sectionPtr c.header) := by
  apply c.header_congr
  have hholds := hat.inside_head.header_holds
  rwa [List.take_of_length_le (by rw [c.header_length]; exact hoffset)]
    at hholds

/-- The expander behind the current chunk. -/
theorem At.next (hat : At slot ⟨sector, offset, c :: chunks⟩ st)
    {st' : SparseState} (hremaining : st'.remainingChunks = chunks.length)
    (hblock : st'.blockSize = blkSz) (hslot : st'.slotNo = slot)
    (hoffset : st'.chunkOffset = 0)
    (hsector : st'.sector = (sector + c.sectors) % 2 ^ 32) :
    At slot ⟨sector + c.sectors, 0, chunks⟩ st' where
  remainingChunks := hremaining
  blockSize := hblock
  slotNo := hslot
  chunkOffset := hoffset
  sector := by
    rw [hsector]
    simp [Position.seen]
  fits := by
    have hfits := hat.fits
    simp only [List.map_cons, List.sum_cons] at hfits
    dsimp only
    omega
  offset_eq _ := rfl
  inside c' _ := c'.inside_zero st'

theorem At.chunkSize (hat : At slot ⟨sector, offset, c :: chunks⟩ st)
    (hoffset : sizeofChunkHeader ≤ offset) :
    st.chunkSize = c.blocks * blkSz := by
  rw [SparseState.chunkSize, (hat.header hoffset).2.1, hat.blockSize]
  exact Nat.mod_eq_of_lt c.size_lt

/-- A `DONT_CARE` chunk is skipped. -/
theorem processDontCare_at
    (htype : chunkType (sectionPtr c.header) = chunkTypeDontCare)
    (hat : At slot ⟨sector, sizeofChunkHeader, c :: chunks⟩ st)
    (hrest : src ++ later =
      Position.rest ⟨sector, sizeofChunkHeader, c :: chunks⟩) :
    Moves slot ⟨sector, sizeofChunkHeader, c :: chunks⟩
      ⟨sector + c.sectors, 0, chunks⟩ later calls
      (processDontCare src st calls) := by
  have hraw : chunkTypeDontCare ≠ chunkTypeRaw := by decide
  obtain ⟨hdata, htotal⟩ : c.data = [] ∧
      chunkTotalSz (sectionPtr c.header) = sizeofChunkHeader := by
    rcases c.kind with ⟨h, -, -⟩ | ⟨-, hdata, htotal⟩
    · exact absurd (htype.symm.trans h) hraw
    · exact ⟨hdata, htotal⟩
  have hsize := hat.chunkSize (le_refl _)
  unfold processDontCare
  rw [if_neg (by rw [(hat.header (le_refl _)).2.2, htotal]; simp)]
  refine ⟨rfl, ?_, ?_, List.suffix_cons c chunks, [], by simp, ?_⟩
  · apply hat.next
    · simp [SparseState.advance, SparseState.nextChunk, hat.remainingChunks]
    · exact hat.blockSize
    · exact hat.slotNo
    · rfl
    · have hsector := hat.sector
      simp only [Position.seen, Nat.sub_self, Nat.zero_div, Nat.add_zero]
        at hsector
      simp only [SparseState.advance, SparseState.nextChunk, hsize, hsector,
        Nat.mod_add_mod]
      rfl
  · rw [hrest, Position.rest_cons (by rw [c.bytes_length]; omega),
      Position.rest_zero, Chunk.bytes, hdata, List.append_nil,
      List.drop_of_length_le (le_of_eq c.header_length), List.nil_append]
  · rw [Position.todo_zero, Position.todo_cons, c.writesFrom_of_le]
    · rfl
    · rw [hdata]
      exact Nat.zero_le _

end Chunk

end TateFirmware.Sparse
