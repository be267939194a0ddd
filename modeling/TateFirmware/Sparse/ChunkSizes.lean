import TateFirmware.Sparse.Passes

/-!
# The sizes of a chunk

The expander multiplies the number of blocks of a chunk by the block size in 32
bits, and counts sectors and bytes in 32 bits.  A chunk is fed to it in pieces,
and what it takes of them and how far it moves the output are compared with the
exact product.
-/

namespace TateFirmware.Sparse

open Support

/-! ## Feeding a chunk -/

/-- What has become of a chunk; the bytes taken are counted from its header
on. -/
inductive Fed where
  | rejected
  | pending (consumed : ℕ)
  /-- `sector` is where the output stands behind the chunk. -/
  | completed (consumed sector : ℕ)

section Feed

variable {W : Type*} (WRITE : Writer W)

/-- One chunk, in pieces: `_unsparse` calls `_unsparse_process_chunk` on each
piece that is not empty. -/
def feedChunk : List (List UInt8) → ℕ → SparseState → W → Fed
  | [], consumed, _, _ => .pending consumed
  | piece :: pieces, consumed, st, w =>
      if piece = [] then feedChunk pieces consumed st w
      else
        let p := unsparseProcessChunk WRITE piece st w
        let consumed := consumed + (piece.length - p.source.length)
        if p.ret ≠ 0 then .rejected
        else if p.state.remainingChunks < st.remainingChunks then
          .completed consumed p.state.sector
        else feedChunk pieces consumed p.state p.world

end Feed

/-! ## The exact sizes -/

/-- `chunk_sz * blk_sz`, not reduced. -/
def chunkProduct (header : List UInt8) (blkSz : ℕ) : ℕ :=
  chunkSz (sectionPtr header) * blkSz

/-- The data behind the header. -/
def rawLength (header : List UInt8) (blkSz : ℕ) : ℕ :=
  if chunkType (sectionPtr header) = chunkTypeRaw then chunkProduct header blkSz
  else 0

/-- The output is moved and the input is taken by the exact amounts, or the
chunk is rejected. -/
def ExactSizes (header : List UInt8) (blkSz sector : ℕ) : Fed → Prop
  | .rejected => True
  | .pending consumed => consumed ≤ sizeofChunkHeader + rawLength header blkSz
  | .completed consumed sector' =>
      sector' = sector + chunkProduct header blkSz / 512 ∧
        consumed = sizeofChunkHeader + rawLength header blkSz

/-- The check of `total_sz`. -/
def totalSzOk (header : List UInt8) (blkSz : ℕ) : Prop :=
  if chunkType (sectionPtr header) = chunkTypeRaw then
    chunkTotalSz (sectionPtr header) =
      (chunkProduct header blkSz % 2 ^ 32 + sizeofChunkHeader) % 2 ^ 32
  else chunkTotalSz (sectionPtr header) = sizeofChunkHeader

/-- The sizes of the chunk, and the sector behind it, fit in 32 bits. -/
structure SizesFit (header : List UInt8) (blkSz sector : ℕ) : Prop where
  product_lt : chunkProduct header blkSz < 2 ^ 32
  total_le : chunkType (sectionPtr header) = chunkTypeRaw →
    chunkProduct header blkSz + sizeofChunkHeader ≤ 2 ^ 32
  sector_lt : sector + chunkProduct header blkSz / 512 < 2 ^ 32

/-! ## What a pass over `RAW` data does to the state -/

section Pass

variable {W : Type*} (WRITE : Writer W)

/-- A pass leaves no more of the section than there was. -/
theorem unsparseProcessChunk_source_le (source : List UInt8)
    (state : SparseState) (w : W) :
    (unsparseProcessChunk WRITE source state w).source.length ≤
      source.length := by
  have hlen := readChunkHeader_length source state
  unfold unsparseProcessChunk
  dsimp only
  generalize readChunkHeader source state = read at *
  split
  · dsimp only
    omega
  · split
    · rcases processRaw_cases WRITE read.1 read.2 w with
        ⟨_, heq⟩ | ⟨_, heq⟩ | ⟨_, _, hmissing, heq⟩
      · rw [heq]
        dsimp only
        omega
      · rw [heq]
        dsimp only
        omega
      · rw [heq, readRaw_source WRITE hmissing, List.length_drop]
        omega
    · split
      · unfold processDontCare
        split
        · dsimp only
          omega
        · dsimp only
          omega
      · dsimp only
        omega

end Pass

/-! ## Inside a chunk -/

/-- `n` bytes of the chunk, header included, have been taken; `start` is where
the output stood in front of it. -/
structure Midway (header : List UInt8) (blkSz start remaining n : ℕ)
    (st : SparseState) : Prop where
  remainingChunks : st.remainingChunks = remaining
  blockSize : st.blockSize = blkSz
  chunkOffset : st.chunkOffset = n
  sector : st.sector = start + (n - sizeofChunkHeader) / 512
  holds : Memory.Holds st.lastHeader 0 (header.take n)

section Midway

variable {W : Type*} {WRITE : Writer W} {header : List UInt8}
  {blkSz start remaining n : ℕ} {st : SparseState} {src : List UInt8} {w : W}

/-- The header can be read once it is complete. -/
theorem Midway.header_eq (hmid : Midway header blkSz start remaining n st)
    (hlen : header.length = sizeofChunkHeader) (hn : sizeofChunkHeader ≤ n) :
    chunkType st.lastHeader = chunkType (sectionPtr header) ∧
      st.chunkSize = chunkProduct header blkSz % 2 ^ 32 ∧
      chunkTotalSz st.lastHeader = chunkTotalSz (sectionPtr header) := by
  have hholds := hmid.holds
  rw [List.take_of_length_le (by rw [hlen]; exact hn)] at hholds
  have hcell : ∀ k, k < 12 → st.lastHeader k = sectionPtr header k := by
    intro k hk
    have hlt : k < header.length := by
      rw [hlen]
      exact hk
    have hget := hholds k hlt
    rw [Nat.zero_add] at hget
    rw [hget, sectionPtr, Memory.ofList_apply hlt]
  have hsz : chunkSz st.lastHeader = chunkSz (sectionPtr header) :=
    le32_congr fun k _ hk => hcell k (by omega)
  refine ⟨le16_congr fun k _ hk => hcell k (by omega), ?_,
    le32_congr fun k _ hk => hcell k (by omega)⟩
  rw [SparseState.chunkSize, hsz, hmid.blockSize, chunkProduct]

/-- Reading what is missing of the header, or as much as there is. -/
theorem Midway.readChunkHeader_mid
    (hmid : Midway header blkSz start remaining n st)
    (hlen : header.length = sizeofChunkHeader)
    (hpre : header.drop n <+: src ∨ src <+: header.drop n) :
    ∃ n', Midway header blkSz start remaining n'
        (readChunkHeader src st).2 ∧
      n' + (readChunkHeader src st).1.length = n + src.length ∧
      ((n' < sizeofChunkHeader ∧ (readChunkHeader src st).1 = []) ∨
        n' = max n sizeofChunkHeader) := by
  unfold readChunkHeader
  rw [hmid.chunkOffset]
  by_cases hlt : n < sizeofChunkHeader
  · rw [if_pos hlt]
    dsimp only
    generalize havail : min src.length (sizeofChunkHeader - n) = avail
    have htake : src.take avail = (header.drop n).take avail := by
      rcases hpre with ⟨t, ht⟩ | ⟨t, ht⟩
      · rw [← ht, List.take_append_of_le_length]
        rw [List.length_drop, hlen]
        omega
      · rw [← ht, List.take_append_of_le_length (by omega)]
    refine ⟨n + avail, ⟨hmid.remainingChunks, hmid.blockSize, rfl, ?_, ?_⟩,
      ?_, ?_⟩
    · have hsector := hmid.sector
      rw [Nat.sub_eq_zero_of_le (by omega)] at hsector ⊢
      exact hsector
    · have hlen' : (header.take n).length = n := by
        rw [List.length_take, hlen]
        omega
      have hheld := hmid.holds.append_copyIn (src.take avail)
      rw [hlen', Nat.zero_add, htake, ← List.take_add] at hheld
      rw [htake]
      exact hheld
    · rw [List.length_drop]
      omega
    · rcases Nat.lt_or_ge src.length (sizeofChunkHeader - n) with hs | hs
      · refine Or.inl ⟨by omega, List.drop_eq_nil_of_le (by omega)⟩
      · exact Or.inr (by omega)
  · rw [if_neg hlt]
    exact ⟨n, hmid, rfl, Or.inr (by omega)⟩

/-- More of the chunk is to come. -/
def Unfinished (header : List UInt8) (blkSz n : ℕ) : Prop :=
  n < sizeofChunkHeader ∨
    (chunkType (sectionPtr header) = chunkTypeRaw ∧
      (n = sizeofChunkHeader ∨
        n < sizeofChunkHeader + chunkProduct header blkSz))

/-- The chunk is completed exactly, or what there was has been taken and there
is `More` to come. -/
structure PassesExactly (More : ℕ → Prop) (header : List UInt8)
    (blkSz start remaining n : ℕ) (p : Progress W) : Prop where
  completes : p.state.remainingChunks < remaining →
    p.state.sector = start + chunkProduct header blkSz / 512 ∧
      n - p.source.length = sizeofChunkHeader + rawLength header blkSz
  continues : ¬ p.state.remainingChunks < remaining →
    p.source = [] ∧ Midway header blkSz start remaining n p.state ∧ More n

/-- A pass over `RAW` data; `n` bytes have been taken in front of them. -/
theorem Midway.processRaw_mid
    (hmid : Midway header blkSz start remaining n st)
    (hlen : header.length = sizeofChunkHeader)
    (htype : chunkType (sectionPtr header) = chunkTypeRaw)
    (hfit : SizesFit header blkSz start) (hremaining : 0 < remaining)
    (hn : n = sizeofChunkHeader ∨ sizeofChunkHeader < n ∧
      n < sizeofChunkHeader + chunkProduct header blkSz)
    (hret : (processRaw WRITE src st w).ret = 0) :
    PassesExactly (Unfinished header blkSz) header blkSz start remaining
      (n + src.length)
      (processRaw WRITE src st w) := by
  have hraw : rawLength header blkSz = chunkProduct header blkSz :=
    if_pos htype
  have hproduct := hfit.product_lt
  have htotal := hfit.total_le htype
  have hsectors := hfit.sector_lt
  have hheader := hmid.header_eq hlen (by omega)
  have hsize : st.chunkSize = chunkProduct header blkSz := by
    rw [hheader.2.1, Nat.mod_eq_of_lt hproduct]
  have hcur : st.chunkCurSize = n - sizeofChunkHeader := by
    rw [SparseState.chunkCurSize, hmid.chunkOffset]
  have hrem : st.chunkRemSize =
      chunkProduct header blkSz - (n - sizeofChunkHeader) := by
    rw [SparseState.chunkRemSize, hsize, hcur]
    omega
  generalize hsz : chunkProduct header blkSz = product at *
  have hheaderSize : sizeofChunkHeader = 12 := rfl
  rcases processRaw_cases WRITE src st w with
    ⟨hnil, heq⟩ | ⟨-, heq⟩ | ⟨-, -, hmissing, heq⟩
  · rw [heq, hnil]
    refine ⟨fun h => ?_, fun _ => ⟨rfl, ?_, ?_⟩⟩
    · exact absurd h (by rw [hmid.remainingChunks]; exact Nat.lt_irrefl _)
    · exact hmid
    · refine Or.inr ⟨htype, ?_⟩
      rw [hsz]
      exact hn.imp_right And.right
  · rw [heq] at hret
    cases hret
  · obtain ⟨hlast, hblock, hoffset, hsector⟩ := readRaw_state WRITE src st w
    have hchunks := readRaw_remainingChunks WRITE src st w
    have hsource := @readRaw_source W WRITE src st w hmissing
    have hstart := hmid.sector
    have hmiss : st.missingBytes =
        if (n - sizeofChunkHeader) % 512 = 0 then 0
        else 512 - (n - sizeofChunkHeader) % 512 := by
      rw [SparseState.missingBytes, hcur]
    have havl : st.chunkAvlSize src =
        if st.chunkRemSize ≤ src.length then st.chunkRemSize
        else src.length := rfl
    -- the sectors of the share end with the ones in front of it
    have hcount : st.sector + (if st.missingBytes = 0 then 0 else 1) +
        (st.chunkAvlSize src - st.missingBytes) / 512 =
          start + (n - sizeofChunkHeader + st.chunkAvlSize src) / 512 := by
      rw [hstart]
      split at hmiss
      · rw [if_pos hmiss]
        omega
      · rw [if_neg (by omega)]
        omega
    rw [heq]
    by_cases hend : st.chunkRemSize ≤ src.length
    · rw [if_pos hend] at havl hchunks hoffset
      have hall : n - sizeofChunkHeader + st.chunkAvlSize src = product := by
        omega
      rw [hcount, hall, Nat.mod_eq_of_lt hsectors] at hsector
      refine ⟨fun _ => ⟨hsz ▸ hsector, ?_⟩, fun h => absurd ?_ h⟩
      · rw [hsource, List.length_drop, hraw, havl, hrem]
        omega
      · rw [hchunks, hmid.remainingChunks]
        omega
    · rw [if_neg hend] at havl hchunks hoffset
      have hmore : n - sizeofChunkHeader + src.length < product := by omega
      refine ⟨fun h => ?_, fun _ => ⟨?_, ?_, ?_⟩⟩
      · rw [hchunks, hmid.remainingChunks] at h
        exact absurd h (Nat.lt_irrefl _)
      · rw [hsource, havl, List.drop_length]
      · refine ⟨hchunks.trans hmid.remainingChunks,
          hblock.trans hmid.blockSize, ?_, ?_, ?_⟩
        · rw [hoffset, hmid.chunkOffset, havl]
          exact Nat.mod_eq_of_lt (by omega)
        · have hle : (n - sizeofChunkHeader + src.length) / 512 ≤
              product / 512 := Nat.div_le_div_right (by omega)
          rw [hsector, hcount, havl, Nat.mod_eq_of_lt (by omega)]
          congr 2
          omega
        · have hholds := hmid.holds
          rw [List.take_of_length_le (by omega)] at hholds ⊢
          rw [hlast]
          exact hholds
      · refine Or.inr ⟨htype, Or.inr ?_⟩
        rw [hsz]
        omega

/-- A pass, when nothing wraps around. -/
theorem Midway.pass (hmid : Midway header blkSz start remaining n st)
    (hlen : header.length = sizeofChunkHeader)
    (htype : chunkType (sectionPtr header) = chunkTypeRaw ∨
      chunkType (sectionPtr header) = chunkTypeDontCare)
    (hfit : SizesFit header blkSz start) (hremaining : 0 < remaining)
    (hn : Unfinished header blkSz n)
    (hpre : header.drop n <+: src ∨ src <+: header.drop n)
    (hret : (unsparseProcessChunk WRITE src st w).ret = 0) :
    PassesExactly (Unfinished header blkSz) header blkSz start remaining
      (n + src.length)
      (unsparseProcessChunk WRITE src st w) := by
  have hne : chunkTypeDontCare ≠ chunkTypeRaw := by decide
  obtain ⟨n', hmid', hcount, hcases⟩ := hmid.readChunkHeader_mid hlen hpre
  unfold unsparseProcessChunk at hret ⊢
  generalize hread : readChunkHeader src st = read at *
  obtain ⟨rest, st'⟩ := read
  dsimp only at hmid' hcount hcases hret ⊢
  rw [hmid'.chunkOffset] at hret ⊢
  by_cases hshort : n' < sizeofChunkHeader
  · have hnil : rest = [] := by
      rcases hcases with ⟨-, hnil⟩ | hmax
      · exact hnil
      · omega
    rw [hnil, List.length_nil, Nat.add_zero] at hcount
    rw [if_pos hshort, hnil, ← hcount]
    refine ⟨fun h => ?_, fun _ => ⟨rfl, hmid', Or.inl hshort⟩⟩
    rw [hmid'.remainingChunks] at h
    exact absurd h (Nat.lt_irrefl _)
  · rw [if_neg hshort] at hret ⊢
    have hmax : n' = max n sizeofChunkHeader := by
      rcases hcases with ⟨h, -⟩ | h
      · exact absurd h hshort
      · exact h
    have hheader := hmid'.header_eq hlen (by omega)
    rw [hheader.1] at hret ⊢
    rw [← hcount]
    rcases htype with hraw | hdc
    · rw [if_pos hraw] at hret ⊢
      refine hmid'.processRaw_mid hlen hraw hfit hremaining ?_ hret
      rcases hn with hlt | ⟨-, rfl | hlt⟩
      · exact Or.inl (by omega)
      · exact Or.inl (by omega)
      · omega
    · have hnotRaw : chunkType (sectionPtr header) ≠ chunkTypeRaw :=
        hdc.symm ▸ hne
      rw [if_neg hnotRaw, if_pos hdc] at hret ⊢
      have hn' : n' = sizeofChunkHeader := by
        rcases hn with hlt | ⟨hraw, -⟩
        · omega
        · exact absurd hraw hnotRaw
      have hsectors := hfit.sector_lt
      have hstart := hmid'.sector
      unfold processDontCare at hret ⊢
      by_cases htotal : chunkTotalSz st'.lastHeader ≠ sizeofChunkHeader
      · rw [if_pos htotal] at hret
        cases hret
      · rw [if_neg htotal]
        refine ⟨fun _ => ⟨?_, ?_⟩, fun h => absurd ?_ h⟩
        · simp only [SparseState.advance, SparseState.nextChunk, hheader.2.1,
            Nat.mod_eq_of_lt hfit.product_lt, hstart, hn', Nat.sub_self,
            Nat.zero_div, Nat.add_zero]
          exact Nat.mod_eq_of_lt hsectors
        · rw [rawLength, if_neg hnotRaw]
          dsimp only
          omega
        · simp only [SparseState.advance, SparseState.nextChunk,
            hmid'.remainingChunks]
          omega

/-- Only the header has been taken. -/
def HeaderOnly (header : List UInt8) (n : ℕ) : Prop :=
  n < sizeofChunkHeader ∨
    (chunkType (sectionPtr header) = chunkTypeRaw ∧ n = sizeofChunkHeader)

/-- A pass over a chunk with a wrong `total_sz`. -/
theorem Midway.pass_of_not_totalSzOk
    (hmid : Midway header blkSz start remaining n st)
    (hlen : header.length = sizeofChunkHeader)
    (hbad : ¬ totalSzOk header blkSz) (hn : HeaderOnly header n)
    (hpre : header.drop n <+: src ∨ src <+: header.drop n)
    (hret : (unsparseProcessChunk WRITE src st w).ret = 0) :
    PassesExactly (HeaderOnly header) header blkSz start remaining
      (n + src.length) (unsparseProcessChunk WRITE src st w) := by
  obtain ⟨n', hmid', hcount, hcases⟩ := hmid.readChunkHeader_mid hlen hpre
  unfold unsparseProcessChunk at hret ⊢
  generalize hread : readChunkHeader src st = read at *
  obtain ⟨rest, st'⟩ := read
  dsimp only at hmid' hcount hcases hret ⊢
  rw [hmid'.chunkOffset] at hret ⊢
  by_cases hshort : n' < sizeofChunkHeader
  · have hnil : rest = [] := by
      rcases hcases with ⟨-, hnil⟩ | hmax
      · exact hnil
      · omega
    rw [hnil, List.length_nil, Nat.add_zero] at hcount
    rw [if_pos hshort, hnil, ← hcount]
    refine ⟨fun h => ?_, fun _ => ⟨rfl, hmid', Or.inl hshort⟩⟩
    rw [hmid'.remainingChunks] at h
    exact absurd h (Nat.lt_irrefl _)
  · rw [if_neg hshort] at hret ⊢
    have hn' : n' = sizeofChunkHeader := by
      rcases hcases with ⟨h, -⟩ | hmax
      · exact absurd h hshort
      · rcases hn with hlt | ⟨-, rfl⟩ <;> omega
    have hheader := hmid'.header_eq hlen (by omega)
    rw [hheader.1] at hret ⊢
    unfold totalSzOk at hbad
    by_cases hraw : chunkType (sectionPtr header) = chunkTypeRaw
    · rw [if_pos hraw] at hbad hret ⊢
      rcases processRaw_cases WRITE rest st' w with
        ⟨hnil, heq⟩ | ⟨-, heq⟩ | ⟨-, htotal, -, -⟩
      · rw [hnil, List.length_nil, Nat.add_zero] at hcount
        rw [heq, hnil, ← hcount]
        refine ⟨fun h => ?_, fun _ => ⟨rfl, hmid', Or.inr ⟨hraw, hn'⟩⟩⟩
        rw [hmid'.remainingChunks] at h
        exact absurd h (Nat.lt_irrefl _)
      · rw [heq] at hret
        cases hret
      · rw [hheader.2.1, hheader.2.2] at htotal
        exact absurd htotal hbad
    · rw [if_neg hraw] at hbad hret
      split at hret
      · unfold processDontCare at hret
        rw [hheader.2.2, if_pos hbad] at hret
        cases hret
      · cases hret

/-- Passes that are exact make the whole chunk exact. -/
theorem feedChunk_exact (More : ℕ → Prop)
    (hmore : ∀ n, More n → n ≤ sizeofChunkHeader + rawLength header blkSz)
    (hpass : ∀ {n : ℕ} {st : SparseState} {src : List UInt8} {w : W},
      Midway header blkSz start remaining n st → More n →
      (header.drop n <+: src ∨ src <+: header.drop n) →
      (unsparseProcessChunk WRITE src st w).ret = 0 →
      PassesExactly More header blkSz start remaining (n + src.length)
        (unsparseProcessChunk WRITE src st w))
    {pieces : List (List UInt8)}
    (hpre : header.drop n <+: pieces.flatten ∨ pieces.flatten <+: header.drop n)
    (hmid : Midway header blkSz start remaining n st) (hn : More n) :
    ExactSizes header blkSz start (feedChunk WRITE pieces n st w) := by
  induction pieces generalizing n st w with
  | nil => exact hmore n hn
  | cons piece pieces ih =>
      rw [feedChunk]
      rw [List.flatten_cons] at hpre
      by_cases hnil : piece = []
      · rw [if_pos hnil]
        rw [hnil, List.nil_append] at hpre
        exact ih hpre hmid hn
      · rw [if_neg hnil]
        dsimp only
        by_cases hret : (unsparseProcessChunk WRITE piece st w).ret = 0
        · have hpiece : header.drop n <+: piece ∨ piece <+: header.drop n := by
            rcases hpre with h | h
            · exact List.prefix_or_prefix_of_prefix h
                (List.prefix_append piece _)
            · exact Or.inr ((List.prefix_append piece _).trans h)
          have hexact := hpass hmid hn hpiece hret (w := w)
          rw [if_neg (not_not.mpr hret), hmid.remainingChunks]
          by_cases hdone :
              (unsparseProcessChunk WRITE piece st w).state.remainingChunks <
                remaining
          · obtain ⟨hsector, hconsumed⟩ := hexact.completes hdone
            have hsource := unsparseProcessChunk_source_le WRITE piece st w
            rw [if_pos hdone]
            exact ⟨hsector, by omega⟩
          · obtain ⟨hsource, hmid', hn'⟩ := hexact.continues hdone
            have hdrop : header.drop (n + piece.length) <+: pieces.flatten ∨
                pieces.flatten <+: header.drop (n + piece.length) := by
              rw [← List.drop_drop]
              rcases hpre with h | h
              · have := h.drop piece.length
                rw [List.drop_left] at this
                exact Or.inl this
              · have := h.drop piece.length
                rw [List.drop_left] at this
                exact Or.inr this
            rw [if_neg hdone, hsource, List.length_nil, Nat.sub_zero]
            exact ih hdrop hmid' hn'
        · rw [if_pos hret]
          trivial

end Midway

/-! ## Chunks that do not fit -/

section Wrapped

variable {W : Type*} {WRITE : Writer W} {header data : List UInt8}
  {st : SparseState} {w : W}

/-- In front of a chunk. -/
theorem midway_zero (header : List UInt8) (hoffset : st.chunkOffset = 0) :
    Midway header st.blockSize st.sector st.remainingChunks 0 st where
  remainingChunks := rfl
  blockSize := rfl
  chunkOffset := hoffset
  sector := rfl
  holds := Memory.holds_nil _ _

/-- What one pass over a header and some data does. -/
structure RawPass (size length : ℕ) (st : SparseState) (p : Progress W) :
    Prop where
  ret : p.ret = 0
  source : p.source.length = length - size
  blockSize : p.state.blockSize = st.blockSize
  remainingChunks : p.state.remainingChunks =
    if size ≤ length then st.remainingChunks - 1 else st.remainingChunks
  sector : size ≤ length →
    p.state.sector = (st.sector + size / 512) % 2 ^ 32
  chunkOffset : length < size →
    p.state.chunkOffset = (sizeofChunkHeader + length) % 2 ^ 32

theorem rawPass (hlen : header.length = sizeofChunkHeader)
    (hraw : chunkType (sectionPtr header) = chunkTypeRaw)
    (hok : totalSzOk header st.blockSize) (hoffset : st.chunkOffset = 0)
    (hdata : data ≠ []) :
    RawPass (chunkProduct header st.blockSize % 2 ^ 32) data.length st
      (unsparseProcessChunk WRITE (header ++ data) st w) := by
  obtain ⟨n', hmid, hcount, hcases⟩ := (midway_zero header
    hoffset).readChunkHeader_mid hlen (Or.inl (List.prefix_append header data))
  have hpos := List.length_pos_of_ne_nil hdata
  have hheaderSize : sizeofChunkHeader = 12 := rfl
  rw [totalSzOk, if_pos hraw] at hok
  rw [List.length_append, hlen] at hcount
  unfold unsparseProcessChunk
  generalize readChunkHeader (header ++ data) st = read at *
  obtain ⟨rest, st'⟩ := read
  dsimp only at hmid hcount hcases ⊢
  have hn' : n' = sizeofChunkHeader := by
    rcases hcases with ⟨hlt, hnil⟩ | hmax
    · rw [hnil, List.length_nil] at hcount
      omega
    · omega
  have hrest : rest.length = data.length := by omega
  have hheader := hmid.header_eq hlen (by omega)
  rw [hmid.chunkOffset, if_neg (by omega), hheader.1, if_pos hraw]
  generalize hsize : chunkProduct header st.blockSize % 2 ^ 32 = size at *
  have hlt : size < 2 ^ 32 := by
    rw [← hsize]
    exact Nat.mod_lt _ (by decide)
  have hcur : st'.chunkCurSize = 0 := by
    rw [SparseState.chunkCurSize, hmid.chunkOffset, hn', Nat.sub_self]
  have hrem : st'.chunkRemSize = size := by
    rw [SparseState.chunkRemSize, hheader.2.1, hcur, Nat.sub_zero,
      Nat.add_mod_right, Nat.mod_eq_of_lt hlt]
  have hmiss : st'.missingBytes = 0 := by
    rw [SparseState.missingBytes, hcur]
    rfl
  have havl : st'.chunkAvlSize rest = min size data.length := by
    rw [SparseState.chunkAvlSize, hrem, hrest]
    split <;> omega
  have heq : processRaw WRITE rest st' w = readRaw WRITE rest st' w := by
    rcases processRaw_cases WRITE rest st' w with
      ⟨hnil, -⟩ | ⟨hne, -⟩ | ⟨-, -, -, heq⟩
    · rw [hnil, List.length_nil] at hrest
      omega
    · rw [processRaw, if_neg hne, if_neg, if_neg]
      · rw [hmiss]
        exact Nat.not_lt_zero _
      · rw [hheader.2.1, hheader.2.2]
        exact not_not.mpr hok
    · exact heq
  obtain ⟨-, hblock, hnext, hsector⟩ := readRaw_state WRITE rest st' w
  have hchunks := readRaw_remainingChunks WRITE rest st' w
  have hsource := @readRaw_source W WRITE rest st' w
    (hmiss.symm ▸ Nat.zero_le _)
  rw [hrem, hrest] at hnext hchunks
  rw [hmiss, if_pos rfl, havl, Nat.sub_zero, Nat.add_zero] at hsector
  rw [heq]
  refine ⟨readRaw_ret .., ?_, hblock.trans hmid.blockSize, ?_, ?_, ?_⟩
  · rw [hsource, havl, List.length_drop]
    omega
  · rw [hchunks, hmid.remainingChunks]
  · intro hle
    rw [hsector, hmid.sector, Nat.min_eq_left hle, hn', Nat.sub_self,
      Nat.zero_div, Nat.add_zero]
  · intro hlt
    rw [hnext, if_neg (by omega), hmid.chunkOffset, hn', havl,
      Nat.min_eq_right (by omega)]

/-- A chunk and more behind it, in one piece. -/
theorem feedChunk_raw (hlen : header.length = sizeofChunkHeader)
    (hraw : chunkType (sectionPtr header) = chunkTypeRaw)
    (hok : totalSzOk header st.blockSize) (hoffset : st.chunkOffset = 0)
    (hremaining : 0 < st.remainingChunks) (hdata : data ≠ [])
    (hle : chunkProduct header st.blockSize % 2 ^ 32 ≤ data.length)
    (consumed : ℕ) (pieces : List (List UInt8)) :
    feedChunk WRITE ((header ++ data) :: pieces) consumed st w =
      .completed
        (consumed + (sizeofChunkHeader +
          chunkProduct header st.blockSize % 2 ^ 32))
        ((st.sector + chunkProduct header st.blockSize % 2 ^ 32 / 512) %
          2 ^ 32) := by
  have hpass := @rawPass W WRITE header data st w hlen hraw hok hoffset hdata
  rw [feedChunk, if_neg (by simp [hdata])]
  dsimp only
  rw [if_neg (not_not.mpr hpass.ret), hpass.remainingChunks, if_pos hle,
    if_pos (by omega), hpass.source, hpass.sector hle, List.length_append, hlen]
  congr 1
  omega

theorem feedChunk_dontCare (hlen : header.length = sizeofChunkHeader)
    (hdc : chunkType (sectionPtr header) = chunkTypeDontCare)
    (hok : totalSzOk header st.blockSize) (hoffset : st.chunkOffset = 0)
    (hremaining : 0 < st.remainingChunks) :
    feedChunk WRITE [header] 0 st w =
      .completed sizeofChunkHeader
        ((st.sector + chunkProduct header st.blockSize % 2 ^ 32 / 512) %
          2 ^ 32) := by
  have hraw : chunkType (sectionPtr header) ≠ chunkTypeRaw := by
    rw [hdc]
    decide
  obtain ⟨n', hmid, hcount, hcases⟩ := (midway_zero header
    hoffset).readChunkHeader_mid hlen (Or.inl (List.prefix_refl header))
  have hheaderSize : sizeofChunkHeader = 12 := rfl
  have hne : header ≠ [] := by
    rintro rfl
    cases hlen
  rw [totalSzOk, if_neg hraw] at hok
  have hpass : ∃ rest, unsparseProcessChunk WRITE header st w =
      ⟨0, rest, ((readChunkHeader header st).2.advance
        ((readChunkHeader header st).2.chunkSize / 512)).nextChunk, w⟩ ∧
        rest.length = 0 ∧ n' = sizeofChunkHeader := by
    have hn' : n' = sizeofChunkHeader := by
      rcases hcases with ⟨hlt, hnil⟩ | hmax
      · rw [hnil, List.length_nil] at hcount
        omega
      · omega
    have hheader := hmid.header_eq hlen (by omega)
    refine ⟨(readChunkHeader header st).1, ?_, by omega, hn'⟩
    unfold unsparseProcessChunk
    dsimp only
    rw [hmid.chunkOffset, if_neg (by omega), hheader.1, if_neg hraw,
      if_pos hdc, processDontCare, if_neg (by rw [hheader.2.2]; simpa using hok)]
  obtain ⟨rest, heq, hnil, hn'⟩ := hpass
  have hheader := hmid.header_eq hlen (by omega)
  rw [feedChunk, if_neg hne]
  dsimp only
  rw [heq]
  simp only [SparseState.advance, SparseState.nextChunk, hmid.remainingChunks,
    hheader.2.1, hmid.sector, hn', hnil, hlen, Nat.sub_self, Nat.zero_div,
    Nat.add_zero, Nat.sub_zero, Nat.zero_add]
  rw [if_neg (by simp), if_pos (by omega)]

end Wrapped

/-! ## Exactness -/

section Exactness

variable {W : Type*} {WRITE : Writer W} {header : List UInt8}
  {st : SparseState} {w : W}

theorem exists_length (n : ℕ) : ∃ l : List UInt8, l.length = n :=
  ⟨List.replicate n 0, List.length_replicate⟩

/-- Chunks that are exact in one piece have sizes below `2 ^ 32`. -/
theorem product_lt_of_exact (hlen : header.length = sizeofChunkHeader)
    (htype : chunkType (sectionPtr header) = chunkTypeRaw ∨
      chunkType (sectionPtr header) = chunkTypeDontCare)
    (hok : totalSzOk header st.blockSize) (hoffset : st.chunkOffset = 0)
    (hremaining : 0 < st.remainingChunks)
    (hexact : ∀ pieces, header <+: pieces.flatten →
      ExactSizes header st.blockSize st.sector
        (feedChunk WRITE pieces 0 st w)) :
    chunkProduct header st.blockSize < 2 ^ 32 ∧
      st.sector + chunkProduct header st.blockSize / 512 < 2 ^ 32 := by
  have hmod : ∀ k, k % 2 ^ 32 < 2 ^ 32 := fun k => Nat.mod_lt _ (by decide)
  rcases htype with hraw | hdc
  · obtain ⟨data, hdata⟩ :=
      exists_length (chunkProduct header st.blockSize % 2 ^ 32 + 1)
    have h := hexact [header ++ data]
      (by rw [List.flatten_singleton]; exact List.prefix_append header data)
    rw [feedChunk_raw hlen hraw hok hoffset hremaining
      (List.ne_nil_of_length_pos (by omega)) (by omega)] at h
    obtain ⟨hsector, hconsumed⟩ := h
    rw [rawLength, if_pos hraw] at hconsumed
    have hlt := hmod (chunkProduct header st.blockSize)
    have hsec := hmod (st.sector +
      chunkProduct header st.blockSize % 2 ^ 32 / 512)
    rw [hsector] at hsec
    exact ⟨by omega, hsec⟩
  · have h := hexact [header]
      (by rw [List.flatten_singleton])
    rw [feedChunk_dontCare hlen hdc hok hoffset hremaining] at h
    have hsector := h.1
    have hle := Nat.mod_le (st.sector +
      chunkProduct header st.blockSize % 2 ^ 32 / 512) (2 ^ 32)
    have hsec := hmod (st.sector +
      chunkProduct header st.blockSize % 2 ^ 32 / 512)
    rw [hsector] at hle hsec
    exact ⟨by omega, hsec⟩

/-- With a `RAW` chunk so long that the offset in it wraps around, the header is
read again. -/
theorem total_le_of_exact (hlen : header.length = sizeofChunkHeader)
    (hraw : chunkType (sectionPtr header) = chunkTypeRaw)
    (hok : totalSzOk header st.blockSize) (hoffset : st.chunkOffset = 0)
    (hremaining : 0 < st.remainingChunks)
    (hlt : chunkProduct header st.blockSize < 2 ^ 32)
    (hexact : ∀ pieces, header <+: pieces.flatten →
      ExactSizes header st.blockSize st.sector
        (feedChunk WRITE pieces 0 st w)) :
    chunkProduct header st.blockSize + sizeofChunkHeader ≤ 2 ^ 32 := by
  have hheaderSize : sizeofChunkHeader = 12 := rfl
  by_contra hgt
  generalize hsize : chunkProduct header st.blockSize = size at *
  obtain ⟨front, hfront⟩ := exists_length 4294967284
  obtain ⟨data, hdata⟩ := exists_length (size + 1)
  have hne : front ≠ [] := List.ne_nil_of_length_pos (by omega)
  have h := hexact [header ++ front, header ++ data]
    (by rw [List.flatten_cons, List.append_assoc]; exact List.prefix_append ..)
  have hpass := @rawPass W WRITE header front st w hlen hraw hok hoffset hne
  rw [hsize, Nat.mod_eq_of_lt hlt] at hpass
  have hnext : (unsparseProcessChunk WRITE (header ++ front)
      st w).state.chunkOffset = 0 := by
    rw [hpass.chunkOffset (by omega)]
    omega
  have hrem := hpass.remainingChunks
  rw [if_neg (by omega)] at hrem
  rw [feedChunk, if_neg (by simp [hne])] at h
  dsimp only at h
  rw [if_neg (not_not.mpr hpass.ret), hrem, if_neg (Nat.lt_irrefl _)] at h
  have hblock := hpass.blockSize
  generalize unsparseProcessChunk WRITE (header ++ front) st w = p at *
  rw [← hblock] at hok hsize h
  rw [feedChunk_raw hlen hraw hok hnext (by omega)
    (List.ne_nil_of_length_pos (by omega))
    (by rw [hsize, Nat.mod_eq_of_lt hlt, hdata]; omega), hsize,
    Nat.mod_eq_of_lt hlt] at h
  have hconsumed := h.2
  rw [rawLength, if_pos hraw, hsize, hpass.source, List.length_append, hlen]
    at hconsumed
  omega

end Exactness

/-- However a chunk is cut into pieces, it moves the output and takes of the
input exactly what the product says or is rejected, if and only if its
`total_sz` is wrong or the sizes fit in 32 bits. -/
theorem chunk_exact_iff {W : Type*} (WRITE : Writer W) (w : W)
    (st : SparseState) (header : List UInt8)
    (hlen : header.length = sizeofChunkHeader)
    (htype : chunkType (sectionPtr header) = chunkTypeRaw ∨
      chunkType (sectionPtr header) = chunkTypeDontCare)
    (hoffset : st.chunkOffset = 0) (hremaining : 0 < st.remainingChunks) :
    (∀ pieces, header <+: pieces.flatten →
        ExactSizes header st.blockSize st.sector
          (feedChunk WRITE pieces 0 st w)) ↔
      ¬ totalSzOk header st.blockSize ∨
        SizesFit header st.blockSize st.sector := by
  constructor
  · intro hexact
    by_cases hok : totalSzOk header st.blockSize
    · obtain ⟨hproduct, hsector⟩ :=
        product_lt_of_exact hlen htype hok hoffset hremaining hexact
      exact Or.inr ⟨hproduct, fun hraw => total_le_of_exact hlen hraw hok
        hoffset hremaining hproduct hexact, hsector⟩
    · exact Or.inl hok
  · rintro (hbad | hfit) pieces hpre
    · refine feedChunk_exact (HeaderOnly header) ?_ ?_ (Or.inl hpre)
        (midway_zero header hoffset) (Or.inl (by decide))
      · rintro n (hlt | ⟨-, rfl⟩) <;> omega
      · intro n st src w hmid hn hpre hret
        exact hmid.pass_of_not_totalSzOk hlen hbad hn hpre hret
    · refine feedChunk_exact (Unfinished header st.blockSize) ?_ ?_
        (Or.inl hpre) (midway_zero header hoffset) (Or.inl (by decide))
      · rintro n (hlt | ⟨hraw, rfl | hlt⟩)
        · omega
        · omega
        · rw [rawLength, if_pos hraw]
          omega
      · intro n st' src w hmid hn hpre hret
        exact hmid.pass hlen htype hfit hremaining hn hpre hret

local instance slotNeZero : NeZero 2 := ⟨two_ne_zero⟩

/-- A state in front of a chunk. -/
def freshState (blkSz : ℕ) : SparseState :=
  ⟨1, 0, 0, fun _ => 0, blkSz, 0, fun _ => 0⟩

/-- A `DONT_CARE` chunk of `2 ^ 20` blocks. -/
def holeHeader : List UInt8 := [0xC3, 0xCA, 0, 0, 0, 0, 0x10, 0, 12, 0, 0, 0]

theorem chunk_exact_iff_hole :
    (∀ pieces, holeHeader <+: pieces.flatten →
        ExactSizes holeHeader 512 0
          (feedChunk recordCall pieces 0 (freshState 512) [])) ↔
      ¬ totalSzOk holeHeader 512 ∨ SizesFit holeHeader 512 0 :=
  chunk_exact_iff recordCall [] (freshState 512) holeHeader rfl
    (Or.inr (by decide)) rfl (by decide)

/-- A hole of `2 ^ 20` blocks of 4096 bytes does not move the output. -/
theorem not_chunk_exact :
    ¬ ∀ pieces, holeHeader <+: pieces.flatten →
      ExactSizes holeHeader 4096 0
        (feedChunk recordCall pieces 0 (freshState 4096) []) := by
  intro h
  have hproduct := (@product_lt_of_exact _ recordCall holeHeader
    (freshState 4096) [] rfl (Or.inr (by decide)) (by unfold totalSzOk; decide)
    rfl (by decide) h).1
  exact absurd hproduct (by decide)

end TateFirmware.Sparse
