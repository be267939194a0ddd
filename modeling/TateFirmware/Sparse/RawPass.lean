import TateFirmware.Sparse.ChunkSizes

/-!
# Passes over `RAW` data

A pass over `RAW` data completes the sector the position is in, writes the whole
sectors and keeps the bytes behind them.  What it writes are the sectors of the
chunk between the two positions.
-/

namespace TateFirmware.Sparse

open Support Mmc

variable {blkSz : ℕ} {slot : Slot}

/-! ## Sizes -/

section Sizes

variable {sector offset : ℕ} {c : Chunk blkSz} {chunks : List (Chunk blkSz)}
  {st : SparseState}

/-- A chunk that is not `DONT_CARE`. -/
theorem Chunk.raw_sizes (c : Chunk blkSz)
    (htype : chunkType (sectionPtr c.header) = chunkTypeRaw) :
    c.data.length = c.blocks * blkSz ∧
      chunkTotalSz (sectionPtr c.header) = c.data.length + sizeofChunkHeader := by
  rcases c.kind with ⟨-, hlen, htotal⟩ | ⟨hcare, -, -⟩
  · exact ⟨hlen, htotal⟩
  · rw [htype] at hcare
    exact absurd hcare (by decide)

/-- The data of a chunk end at a sector in front of `2 ^ 32`. -/
theorem Chunk.data_length_lt (hblk : blkSz % mmcsdSectorSize = 0)
    (c : Chunk blkSz) : c.data.length + mmcsdSectorSize ≤ 2 ^ 32 := by
  have hmod := c.data_length_mod hblk
  have hlt : c.data.length < 2 ^ 32 :=
    Nat.lt_of_le_of_lt c.data_length_le c.size_lt
  unfold mmcsdSectorSize at *
  omega

theorem Chunk.Inside.seen_le {c : Chunk blkSz} (h : c.Inside offset st) :
    offset - sizeofChunkHeader ≤ c.data.length := by
  have hle := h.offset_le
  rw [c.bytes_length] at hle
  omega

/-- The sizes that the expander computes are the exact ones. -/
theorem At.sizes (hblk : blkSz % mmcsdSectorSize = 0)
    (htype : chunkType (sectionPtr c.header) = chunkTypeRaw)
    (hat : At slot ⟨sector, offset, c :: chunks⟩ st)
    (hoffset : sizeofChunkHeader ≤ offset) :
    st.chunkCurSize = offset - sizeofChunkHeader ∧
      st.chunkRemSize = c.data.length - (offset - sizeofChunkHeader) ∧
      st.missingBytes = missingBehind (offset - sizeofChunkHeader) ∧
      chunkTotalSz st.lastHeader =
        (st.chunkSize + sizeofChunkHeader) % 2 ^ 32 := by
  obtain ⟨hlen, htotal⟩ := c.raw_sizes htype
  have hlt := c.data_length_lt hblk
  have hseen := hat.inside_head.seen_le
  have hsize : st.chunkSize = c.data.length := by
    rw [hat.chunkSize hoffset, hlen]
  have hcur : st.chunkCurSize = offset - sizeofChunkHeader := by
    rw [SparseState.chunkCurSize, hat.chunkOffset]
  refine ⟨hcur, ?_, ?_, ?_⟩
  · rw [SparseState.chunkRemSize, hsize, hcur]
    unfold mmcsdSectorSize at hlt
    omega
  · rw [SparseState.missingBytes, hcur]
    rfl
  · rw [(hat.header hoffset).2.2, htotal, hsize]
    unfold mmcsdSectorSize at hlt
    rw [Nat.mod_eq_of_lt]
    unfold sizeofChunkHeader
    omega

end Sizes

/-! ## The first sector -/

section Raw

variable {sector offset : ℕ} {c : Chunk blkSz} {chunks : List (Chunk blkSz)}
  {src later : List UInt8} {st : SparseState} {calls : List WriteCall}

/-- Behind the header come the rest of the data and the other chunks. -/
theorem At.rest_eq (hat : At slot ⟨sector, offset, c :: chunks⟩ st)
    (hoffset : sizeofChunkHeader ≤ offset) :
    Position.rest ⟨sector, offset, c :: chunks⟩ =
      c.data.drop (offset - sizeofChunkHeader) ++ chunks.flatMap Chunk.bytes := by
  rw [Position.rest_cons hat.inside_head.offset_le, Chunk.bytes, List.drop_append,
    List.drop_of_length_le (by rw [c.header_length]; exact hoffset),
    List.nil_append, c.header_length]

/-- What is left of the current chunk is in front of the section. -/
theorem take_section (hat : At slot ⟨sector, offset, c :: chunks⟩ st)
    (hoffset : sizeofChunkHeader ≤ offset)
    (hrest : src ++ later = Position.rest ⟨sector, offset, c :: chunks⟩) {n : ℕ}
    (hsrc : n ≤ src.length)
    (hdata : n ≤ c.data.length - (offset - sizeofChunkHeader)) :
    src.take n = (c.data.drop (offset - sizeofChunkHeader)).take n := by
  rw [(take_drop_of_append hrest hsrc).1, hat.rest_eq hoffset,
    List.take_append_of_le_length]
  rw [List.length_drop]
  exact hdata

/-- Data in front of the next sector are whole sectors of the chunk. -/
theorem Chunk.sectors_of_raw (hblk : blkSz % mmcsdSectorSize = 0)
    (c : Chunk blkSz) (htype : chunkType (sectionPtr c.header) = chunkTypeRaw) :
    c.data.length = mmcsdSectorSize * c.sectors := by
  have hmod := c.data_length_mod hblk
  rw [Chunk.sectors, ← (c.raw_sizes htype).1]
  exact (Nat.mul_div_cancel' (Nat.dvd_of_mod_eq_zero hmod)).symm

/-- The bytes that were kept and those that were missing make up a sector. -/
theorem join_sector {data : List UInt8} {seen : ℕ} (hpos : 0 < missingBehind seen) :
    (data.drop (seen / mmcsdSectorSize * mmcsdSectorSize)).take
          (seen % mmcsdSectorSize) ++
        (data.drop seen).take (missingBehind seen) =
      (data.drop (mmcsdSectorSize * (seen / mmcsdSectorSize))).take
        (mmcsdSectorSize * 1) := by
  have hcut := Nat.div_add_mod seen mmcsdSectorSize
  have hfull : mmcsdSectorSize * 1 =
      seen % mmcsdSectorSize + missingBehind seen := by
    rcases missingBehind_cases seen with ⟨hzero, -⟩ | ⟨-, hnext⟩
    · omega
    · rw [Nat.mul_succ] at hnext
      omega
  rw [hfull, List.take_add, List.drop_drop, hcut, Nat.mul_comm]

/-- The sector that was not full in front of the section is completed. -/
theorem fillSector_at (hblk : blkSz % mmcsdSectorSize = 0)
    (htype : chunkType (sectionPtr c.header) = chunkTypeRaw)
    (hat : At slot ⟨sector, offset, c :: chunks⟩ st)
    (hoffset : sizeofChunkHeader ≤ offset)
    (hrest : src ++ later = Position.rest ⟨sector, offset, c :: chunks⟩)
    {seen : ℕ} (hseen : seen = offset - sizeofChunkHeader)
    (hmissing : missingBehind seen ≤ src.length) :
    ∃ new, (fillSector recordCall src st calls).2.2 = calls ++ new ∧
      (fillSector recordCall src st calls).2.1.slotNo = slot ∧
      (fillSector recordCall src st calls).2.1.sector =
        (sector + (seen + missingBehind seen) / mmcsdSectorSize) % 2 ^ 32 ∧
      new.flatMap WriteCall.sectorWrites =
        transferred slot (sector + seen / mmcsdSectorSize)
          ((seen + missingBehind seen) / mmcsdSectorSize - seen / mmcsdSectorSize)
          fun k => Mmc.blocks (sectionPtr c.data) (seen / mmcsdSectorSize + k) := by
  obtain ⟨hcur, hrem, hmiss, -⟩ := hat.sizes hblk htype hoffset
  have hle := hat.inside_head.seen_le
  have hlen := c.sectors_of_raw hblk htype
  have hsector := hat.sector
  have hfits := hat.fits
  have hheld := hat.inside_head.data_holds
  simp only [Position.seen, List.map_cons, List.sum_cons] at hsector hfits
  have htake := @take_section blkSz slot sector offset c chunks src later st hat
    hoffset hrest (missingBehind seen) hmissing
  rw [← hseen] at hcur hmiss hle hsector hheld htake
  unfold fillSector
  rw [hmiss]
  dsimp only
  rcases missingBehind_cases seen with ⟨hzero, -⟩ | ⟨hpos, hnext⟩
  · rw [if_pos hzero, hzero, Nat.add_zero, Nat.sub_self]
    exact ⟨[], (List.append_nil _).symm, hat.slotNo, hsector, rfl⟩
  · rw [if_neg (Nat.ne_of_gt hpos)]
    have hdiv : (seen + missingBehind seen) / mmcsdSectorSize =
        seen / mmcsdSectorSize + 1 := by
      rw [hnext]
      exact Nat.mul_div_cancel_left _ (by decide)
    have hin : seen / mmcsdSectorSize + 1 ≤ c.sectors := by
      have hsmall := missingBehind_lt seen
      unfold mmcsdSectorSize at *
      omega
    have hroom : mmcsdSectorSize * (seen / mmcsdSectorSize + 1) ≤
        c.data.length := by
      rw [hlen]
      exact Nat.mul_le_mul_left _ hin
    have hst : st.sector = sector + seen / mmcsdSectorSize := by
      rw [hsector]
      exact Nat.mod_eq_of_lt (by omega)
    have hbytes := htake (by omega)
    refine ⟨_, rfl, hat.slotNo, ?_, ?_⟩
    · simp only [SparseState.advance, hst, hdiv, Nat.add_assoc]
    · have hjoined := hheld.append_copyIn (src.take (missingBehind seen))
      have hkept : ((c.data.drop (seen / mmcsdSectorSize * mmcsdSectorSize)).take
          (seen % mmcsdSectorSize)).length = seen % mmcsdSectorSize := by
        rw [List.length_take, List.length_drop]
        unfold mmcsdSectorSize at *
        omega
      rw [hkept, Nat.zero_add, hbytes, join_sector hpos] at hjoined
      have hcall := @sectorWrites_of_holds blkSz slot c _
        (sector + seen / mmcsdSectorSize) 512 (seen / mmcsdSectorSize) 1 hjoined
        rfl hroom
      rw [List.flatMap_singleton, hdiv, Nat.add_sub_cancel_left, hst, hcur, hbytes,
        hat.slotNo]
      exact hcall

/-! ## The whole sectors -/

/-- The bytes of the section that belong to the chunk. -/
theorem chunkAvlSize_at (hblk : blkSz % mmcsdSectorSize = 0)
    (htype : chunkType (sectionPtr c.header) = chunkTypeRaw)
    (hat : At slot ⟨sector, offset, c :: chunks⟩ st)
    (hoffset : sizeofChunkHeader ≤ offset) {seen : ℕ}
    (hseen : seen = offset - sizeofChunkHeader) :
    st.chunkAvlSize src = min (c.data.length - seen) src.length := by
  rw [SparseState.chunkAvlSize, (hat.sizes hblk htype hoffset).2.1, ← hseen]
  split <;> omega

theorem missingBehind_le_avl (hblk : blkSz % mmcsdSectorSize = 0)
    (htype : chunkType (sectionPtr c.header) = chunkTypeRaw) {seen n : ℕ}
    (hle : seen ≤ c.data.length) (hmissing : missingBehind seen ≤ n) :
    missingBehind seen ≤ min (c.data.length - seen) n := by
  have hlen := c.sectors_of_raw hblk htype
  have hsmall := missingBehind_lt seen
  rcases missingBehind_cases seen with ⟨hzero, -⟩ | ⟨hpos, hnext⟩
  · omega
  · unfold mmcsdSectorSize at *
    omega

/-- Where the sectors end that are written. -/
theorem sectors_written {seen avl : ℕ} (hmissing : missingBehind seen ≤ avl) :
    (seen + avl) / mmcsdSectorSize =
        (seen + missingBehind seen) / mmcsdSectorSize +
          (avl - missingBehind seen) / mmcsdSectorSize ∧
      mmcsdSectorSize * ((seen + missingBehind seen) / mmcsdSectorSize) =
        seen + missingBehind seen := by
  have hcases := missingBehind_cases seen
  unfold mmcsdSectorSize at *
  omega

/-- A pass over `RAW` data writes the sectors it completes. -/
theorem readRaw_writes (hblk : blkSz % mmcsdSectorSize = 0)
    (htype : chunkType (sectionPtr c.header) = chunkTypeRaw)
    (hat : At slot ⟨sector, offset, c :: chunks⟩ st)
    (hoffset : sizeofChunkHeader ≤ offset)
    (hrest : src ++ later = Position.rest ⟨sector, offset, c :: chunks⟩)
    {seen avl : ℕ} (hseen : seen = offset - sizeofChunkHeader)
    (havl : avl = min (c.data.length - seen) src.length)
    (hmissing : missingBehind seen ≤ avl) :
    ∃ new, (readRaw recordCall src st calls).world = calls ++ new ∧
      new.flatMap WriteCall.sectorWrites =
        transferred slot (sector + seen / mmcsdSectorSize)
          ((seen + avl) / mmcsdSectorSize - seen / mmcsdSectorSize)
          fun k => Mmc.blocks (sectionPtr c.data) (seen / mmcsdSectorSize + k) := by
  obtain ⟨-, -, hmiss, -⟩ := hat.sizes hblk htype hoffset
  obtain ⟨hsum, hwhole⟩ := sectors_written hmissing
  obtain ⟨first, hworld, hslot, hsector, hfirst⟩ := @fillSector_at blkSz slot sector
    offset c chunks src later st calls hblk htype hat hoffset hrest seen hseen
    (by omega)
  have hle := hat.inside_head.seen_le
  have hlen := c.sectors_of_raw hblk htype
  have hlt := c.data_length_lt hblk
  have hfits := hat.fits
  simp only [List.map_cons, List.sum_cons] at hfits
  have havl' : st.chunkAvlSize src = avl := by
    rw [chunkAvlSize_at hblk htype hat hoffset hseen, havl]
  rw [← hseen] at hmiss hle
  set j := (seen + missingBehind seen) / mmcsdSectorSize with hj
  set n := (avl - missingBehind seen) / mmcsdSectorSize with hn
  have hroom : mmcsdSectorSize * (j + n) ≤ c.data.length := by
    rw [Nat.mul_add, hwhole, hn]
    unfold mmcsdSectorSize
    omega
  have hcount : n * 512 + missingBehind seen ≤ avl := by
    rw [hn]
    unfold mmcsdSectorSize
    omega
  have hbytes := @take_section blkSz slot sector offset c chunks src later st hat
    hoffset hrest (missingBehind seen + mmcsdSectorSize * n)
    (by unfold mmcsdSectorSize; omega) (by unfold mmcsdSectorSize; omega)
  have hheld : Memory.Holds (sectionPtr (src.drop (missingBehind seen))) 0
      ((c.data.drop (mmcsdSectorSize * j)).take (mmcsdSectorSize * n)) := by
    have hcut : (src.drop (missingBehind seen)).take (mmcsdSectorSize * n) =
        (c.data.drop (mmcsdSectorSize * j)).take (mmcsdSectorSize * n) := by
      have hdrop := congrArg (List.drop (missingBehind seen)) hbytes
      rw [List.drop_take, List.drop_take, Nat.add_sub_cancel_left, List.drop_drop,
        ← hseen, ← hwhole] at hdrop
      exact hdrop
    have hall := Memory.holds_ofList 0 (src.drop (missingBehind seen))
    rw [← List.take_append_drop (mmcsdSectorSize * n)
      (src.drop (missingBehind seen)), Memory.holds_append,
      List.take_append_drop] at hall
    rw [← hcut]
    exact hall.1
  have hsecs : numSecVal (n * 512) = n := by
    unfold numSecVal mmcsdSectorSize at *
    omega
  have hcall := @sectorWrites_of_holds blkSz slot c _ ((sector + j) % 2 ^ 32)
    (n * 512) j n hheld hsecs hroom
  have hstart : transferred slot ((sector + j) % 2 ^ 32) n
      (fun k => Mmc.blocks (sectionPtr c.data) (j + k)) =
        transferred slot (sector + j) n
          fun k => Mmc.blocks (sectionPtr c.data) (j + k) := by
    rcases Nat.eq_zero_or_pos n with hzero | hpos
    · rw [hzero]
      rfl
    · have hin : j + n ≤ c.sectors := by
        rw [hlen] at hroom
        exact Nat.le_of_mul_le_mul_left hroom (by decide)
      rw [Nat.mod_eq_of_lt (by omega)]
  refine ⟨first ++ [⟨slot, sectionPtr (src.drop (missingBehind seen)),
    (sector + j) % 2 ^ 32, n * 512⟩], ?_, ?_⟩
  · rw [readRaw_world, hworld, hslot, hsector, fillSector_source, hmiss, havl',
      show (avl - missingBehind seen) / 512 = n from rfl, recordCall,
      List.append_assoc]
  · have hi : seen / mmcsdSectorSize ≤ j := Nat.div_le_div_right (Nat.le_add_right _ _)
    have hsplit : (seen + avl) / mmcsdSectorSize - seen / mmcsdSectorSize =
        (j - seen / mmcsdSectorSize) + n := by omega
    rw [List.flatMap_append, List.flatMap_singleton, hfirst, hcall, hstart, hsplit,
      transferred_add]
    have hsum' : sector + seen / mmcsdSectorSize + (j - seen / mmcsdSectorSize) =
        sector + j := by omega
    have hblocks : (fun k => Mmc.blocks (sectionPtr c.data) (seen / mmcsdSectorSize +
        (j - seen / mmcsdSectorSize + k))) =
          fun k => Mmc.blocks (sectionPtr c.data) (j + k) := by
      funext k
      congr 1
      omega
    rw [hsum', hblocks]

/-! ## The state behind a pass -/

theorem advance_slotNo (st : SparseState) (n : ℕ) :
    (st.advance n).slotNo = st.slotNo := rfl

theorem advance_data (st : SparseState) (n : ℕ) :
    (st.advance n).data = st.data := rfl

theorem nextChunk_slotNo (st : SparseState) :
    st.nextChunk.slotNo = st.slotNo := rfl

theorem nextChunk_data (st : SparseState) : st.nextChunk.data = st.data := rfl

theorem readRaw_slotNo (src : List UInt8) (st : SparseState)
    (calls : List WriteCall) :
    (readRaw recordCall src st calls).state.slotNo =
      (fillSector recordCall src st calls).2.1.slotNo := by
  by_cases hend : st.chunkRemSize ≤ src.length
  · simp only [readRaw, if_pos hend]
    rw [nextChunk_slotNo]
    dsimp only
    rw [advance_slotNo]
  · simp only [readRaw, if_neg hend]
    rw [advance_slotNo]

/-- The bytes behind the last whole sector are kept. -/
theorem readRaw_data (src : List UInt8) (st : SparseState)
    (calls : List WriteCall) :
    (readRaw recordCall src st calls).state.data =
      (fillSector recordCall src st calls).2.1.data.copyIn 0
        (((fillSector recordCall src st calls).1.drop
          ((st.chunkAvlSize src - st.missingBytes) / 512 * 512)).take
            (st.chunkAvlSize src - st.missingBytes -
              (st.chunkAvlSize src - st.missingBytes) / 512 * 512)) := by
  by_cases hend : st.chunkRemSize ≤ src.length
  · simp only [readRaw, if_pos hend]
    rw [nextChunk_data]
    dsimp only
    rw [advance_data]
  · simp only [readRaw, if_neg hend]
    rw [advance_data]

/-- The sector behind a pass. -/
theorem readRaw_sector (hblk : blkSz % mmcsdSectorSize = 0)
    (htype : chunkType (sectionPtr c.header) = chunkTypeRaw)
    (hat : At slot ⟨sector, offset, c :: chunks⟩ st)
    (hoffset : sizeofChunkHeader ≤ offset) {seen avl : ℕ}
    (hseen : seen = offset - sizeofChunkHeader)
    (havl : avl = min (c.data.length - seen) src.length)
    (hmissing : missingBehind seen ≤ avl) :
    (readRaw recordCall src st calls).state.sector =
      (sector + (seen + avl) / mmcsdSectorSize) % 2 ^ 32 := by
  obtain ⟨-, -, -, hsector⟩ := readRaw_state recordCall src st calls
  obtain ⟨-, -, hmiss, -⟩ := hat.sizes hblk htype hoffset
  have hst := hat.sector
  simp only [Position.seen] at hst
  rw [← hseen] at hmiss hst
  rw [hsector, hmiss, chunkAvlSize_at hblk htype hat hoffset hseen, ← havl, hst]
  have hcases := missingBehind_cases seen
  unfold mmcsdSectorSize at *
  split_ifs <;> omega

/-- The chunk is completed. -/
theorem readRaw_completed (hblk : blkSz % mmcsdSectorSize = 0)
    (htype : chunkType (sectionPtr c.header) = chunkTypeRaw)
    (hat : At slot ⟨sector, offset, c :: chunks⟩ st)
    (hoffset : sizeofChunkHeader ≤ offset)
    (hrest : src ++ later = Position.rest ⟨sector, offset, c :: chunks⟩)
    {seen : ℕ} (hseen : seen = offset - sizeofChunkHeader)
    (hmissing : missingBehind seen ≤ src.length)
    (hend : c.data.length - seen ≤ src.length) :
    Moves slot ⟨sector, offset, c :: chunks⟩ ⟨sector + c.sectors, 0, chunks⟩ later
      calls (readRaw recordCall src st calls) := by
  obtain ⟨-, hrem, hmiss, -⟩ := hat.sizes hblk htype hoffset
  obtain ⟨-, hblock, hoffset', -⟩ := readRaw_state recordCall src st calls
  have hle := hat.inside_head.seen_le
  have hlen := c.sectors_of_raw hblk htype
  rw [← hseen] at hrem hmiss hle
  have havl : c.data.length - seen = min (c.data.length - seen) src.length :=
    (Nat.min_eq_left hend).symm
  have hmissing' : missingBehind seen ≤ c.data.length - seen := by
    have h := missingBehind_le_avl hblk htype hle hmissing
    rwa [← havl] at h
  have havl' : st.chunkAvlSize src = c.data.length - seen := by
    rw [chunkAvlSize_at hblk htype hat hoffset hseen, ← havl]
  have hall : seen + (c.data.length - seen) = c.data.length :=
    Nat.add_sub_cancel' hle
  have hsectors : c.data.length / mmcsdSectorSize = c.sectors := by
    rw [hlen]
    exact Nat.mul_div_cancel_left _ (by decide)
  obtain ⟨new, hworld, hnew⟩ := @readRaw_writes blkSz slot sector offset c chunks
    src later st calls hblk htype hat hoffset hrest seen _ hseen havl hmissing'
  rw [hall] at hnew
  refine ⟨readRaw_ret .., ?_, ?_, List.suffix_cons c chunks, new, hworld, ?_⟩
  · refine hat.next ?_ ?_ ?_ ?_ ?_
    · rw [readRaw_remainingChunks, if_pos (by rw [hrem]; exact hend),
        hat.remainingChunks]
      rfl
    · rw [hblock, hat.blockSize]
    · rw [readRaw_slotNo]
      obtain ⟨-, -, hslot, -⟩ := @fillSector_at blkSz slot sector offset c chunks src
        later st calls hblk htype hat hoffset hrest seen hseen hmissing
      exact hslot
    · rw [hoffset', if_pos (by rw [hrem]; exact hend)]
    · rw [readRaw_sector hblk htype hat hoffset hseen havl hmissing', hall, hsectors]
  · rw [readRaw_source recordCall (by rw [hmiss, havl']; exact hmissing'), havl',
      (take_drop_of_append hrest hend).2, Position.rest_zero, hat.rest_eq hoffset,
      ← hseen, List.drop_append, List.drop_of_length_le (by rw [List.length_drop]),
      List.nil_append, List.length_drop, Nat.sub_self, List.drop_zero]
  · rw [hnew, Position.todo_zero, Position.todo_cons, ← hseen, ← hsectors]
    rfl

/-- The bytes that are kept are those of the sector that has been begun. -/
theorem kept_bytes {data src : List UInt8} {seen : ℕ}
    (hbytes : src = (data.drop seen).take src.length)
    (hmissing : missingBehind seen ≤ src.length) :
    ((src.drop (missingBehind seen)).drop
        ((src.length - missingBehind seen) / 512 * 512)).take
          (src.length - missingBehind seen -
            (src.length - missingBehind seen) / 512 * 512) =
      (data.drop ((seen + src.length) / mmcsdSectorSize * mmcsdSectorSize)).take
        ((seen + src.length) % mmcsdSectorSize) := by
  obtain ⟨hsum, hwhole⟩ := sectors_written hmissing
  generalize src.length = n at *
  have hx : seen + (missingBehind seen + (n - missingBehind seen) / 512 * 512) =
      (seen + n) / mmcsdSectorSize * mmcsdSectorSize := by
    rw [hsum]
    unfold mmcsdSectorSize at *
    omega
  have hr : min (n - missingBehind seen - (n - missingBehind seen) / 512 * 512)
      (n - (missingBehind seen + (n - missingBehind seen) / 512 * 512)) =
        (seen + n) % mmcsdSectorSize := by
    unfold mmcsdSectorSize at *
    omega
  rw [hbytes, List.drop_drop, List.drop_take, List.take_take, List.drop_drop, hx, hr]

/-- The section ends inside the chunk. -/
theorem readRaw_interrupted (hblk : blkSz % mmcsdSectorSize = 0)
    (htype : chunkType (sectionPtr c.header) = chunkTypeRaw)
    (hat : At slot ⟨sector, offset, c :: chunks⟩ st)
    (hoffset : sizeofChunkHeader ≤ offset)
    (hrest : src ++ later = Position.rest ⟨sector, offset, c :: chunks⟩)
    {seen : ℕ} (hseen : seen = offset - sizeofChunkHeader)
    (hmissing : missingBehind seen ≤ src.length)
    (hend : src.length < c.data.length - seen) :
    Moves slot ⟨sector, offset, c :: chunks⟩
        ⟨sector, offset + src.length, c :: chunks⟩ later calls
        (readRaw recordCall src st calls) ∧
      (readRaw recordCall src st calls).source = [] := by
  obtain ⟨-, hrem, hmiss, -⟩ := hat.sizes hblk htype hoffset
  obtain ⟨hheader, hblock, hoffset', -⟩ := readRaw_state recordCall src st calls
  obtain ⟨-, -, hslot, -⟩ := @fillSector_at blkSz slot sector offset c chunks src
    later st calls hblk htype hat hoffset hrest seen hseen hmissing
  have hle := hat.inside_head.seen_le
  have hlt := c.data_length_lt hblk
  have hlen := c.sectors_of_raw hblk htype
  rw [← hseen] at hrem hmiss hle
  have havl : src.length = min (c.data.length - seen) src.length :=
    (Nat.min_eq_right (Nat.le_of_lt hend)).symm
  have havl' : st.chunkAvlSize src = src.length := by
    rw [chunkAvlSize_at hblk htype hat hoffset hseen, ← havl]
  obtain ⟨hsum, hwhole⟩ := sectors_written hmissing
  obtain ⟨new, hworld, hnew⟩ := @readRaw_writes blkSz slot sector offset c chunks
    src later st calls hblk htype hat hoffset hrest seen _ hseen havl hmissing
  have hsource : (readRaw recordCall src st calls).source = [] := by
    rw [readRaw_source recordCall (by rw [hmiss, havl']; exact hmissing), havl']
    exact List.drop_length
  have hoff : (readRaw recordCall src st calls).state.chunkOffset =
      offset + src.length := by
    rw [hoffset', if_neg (by rw [hrem]; omega), havl', hat.chunkOffset]
    refine Nat.mod_eq_of_lt ?_
    unfold mmcsdSectorSize sizeofChunkHeader at *
    dsimp only
    omega
  have hseen' : offset + src.length - sizeofChunkHeader = seen + src.length := by
    omega
  refine ⟨⟨readRaw_ret .., ?_, ?_, List.suffix_refl _, new, hworld, ?_⟩, hsource⟩
  · exact
      { remainingChunks := by
          rw [readRaw_remainingChunks, if_neg (by rw [hrem]; omega)]
          exact hat.remainingChunks
        blockSize := by rw [hblock, hat.blockSize]
        slotNo := by rw [readRaw_slotNo, hslot]
        chunkOffset := hoff
        sector := by
          rw [readRaw_sector hblk htype hat hoffset hseen havl hmissing]
          simp only [Position.seen, hseen']
        fits := hat.fits
        offset_eq := fun h => by cases h
        inside := by
          intro c' hc'
          obtain rfl : c = c' := by simpa using hc'
          refine ⟨?_, ?_, ?_⟩
          · rw [c.bytes_length]
            dsimp only
            omega
          · rw [hheader]
            have hholds := hat.inside_head.header_holds
            rw [List.take_of_length_le (by rw [c.header_length]; exact hoffset)]
              at hholds
            rw [List.take_of_length_le (by
              rw [c.header_length]
              dsimp only
              omega)]
            exact hholds
          · dsimp only
            rw [hseen', readRaw_data, fillSector_source, hmiss,
              havl']
            have hbytes := @take_section blkSz slot sector offset c chunks src later
              st hat hoffset hrest src.length le_rfl (by rw [← hseen]; omega)
            rw [List.take_length, ← hseen] at hbytes
            rw [kept_bytes hbytes hmissing]
            exact Memory.holds_copyIn _ _ _ }
  · have hlater := (take_drop_of_append hrest le_rfl).2
    rw [List.drop_length, List.nil_append] at hlater
    rw [hsource, List.nil_append, hlater, Position.rest, Position.rest,
      List.drop_drop]
  · rw [hnew, Position.todo_cons, Position.todo_cons, ← hseen, hseen',
      ← List.append_assoc]
    congr 1
    have hmono : seen / mmcsdSectorSize ≤ (seen + src.length) / mmcsdSectorSize :=
      Nat.div_le_div_right (Nat.le_add_right _ _)
    have hfit : seen / mmcsdSectorSize + ((seen + src.length) / mmcsdSectorSize -
        seen / mmcsdSectorSize) ≤ c.data.length / mmcsdSectorSize := by
      rw [Nat.add_sub_cancel' hmono]
      exact Nat.div_le_div_right (by omega)
    rw [c.writesFrom_add slot sector hfit, Nat.add_sub_cancel' hmono]

end Raw

end TateFirmware.Sparse
