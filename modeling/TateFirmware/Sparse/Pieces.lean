import TateFirmware.Mmc.EraseCheck
import TateFirmware.Sparse.RawPass

/-!
# An image in pieces

The bytes of an image arrive in pieces, each of which is given to
`do_unsparse_process`.  A piece succeeds exactly when it holds the rest of the file
header or of the sector of `RAW` data in which it starts, and if all of them do the
sectors written are those of the expansion.
-/

namespace TateFirmware.Sparse

open Support Mmc

variable {blkSz : ℕ} {slot : Slot}

/-! ## One pass -/

section Pass

variable {p : Position blkSz} {sector offset : ℕ} {c : Chunk blkSz}
  {chunks : List (Chunk blkSz)} {src later : List UInt8} {st : SparseState}
  {calls : List WriteCall}

theorem Moves.refl (hat : At slot p st) (hrest : src ++ later = p.rest) :
    Moves slot p p later calls ⟨0, src, st, calls⟩ where
  ret := rfl
  at_ := hat
  rest := hrest
  suffix := List.suffix_refl _
  writes := ⟨[], (List.append_nil _).symm, rfl⟩

/-- At the start of a chunk no byte of a sector is missing. -/
@[simp] theorem missing_zero (sector : ℕ) (chunks : List (Chunk blkSz)) :
    Position.missing ⟨sector, 0, chunks⟩ = 0 := rfl

/-- The data of a chunk whose header is complete. -/
theorem processRaw_at (hblk : blkSz % mmcsdSectorSize = 0)
    (htype : chunkType (sectionPtr c.header) = chunkTypeRaw)
    (hat : At slot ⟨sector, offset, c :: chunks⟩ st)
    (hoffset : sizeofChunkHeader ≤ offset)
    (hrest : src ++ later = Position.rest ⟨sector, offset, c :: chunks⟩)
    (hmissing : src = [] ∨ Position.missing ⟨sector, offset, c :: chunks⟩ ≤
      src.length) :
    ∃ p', Moves slot ⟨sector, offset, c :: chunks⟩ p' later calls
        (processRaw recordCall src st calls) ∧
      ((processRaw recordCall src st calls).source = [] ∨ p'.missing = 0) := by
  obtain ⟨-, hrem, hmiss, htotal⟩ := hat.sizes hblk htype hoffset
  by_cases hsrc : src = []
  · rw [processRaw, if_pos hsrc]
    exact ⟨_, Moves.refl hat hrest, Or.inl hsrc⟩
  · have hmissing' : missingBehind (offset - sizeofChunkHeader) ≤ src.length :=
      hmissing.resolve_left hsrc
    have havl := @chunkAvlSize_at blkSz slot sector offset c chunks src st hblk htype
      hat hoffset _ rfl
    have hle := missingBehind_le_avl hblk htype hat.inside_head.seen_le hmissing'
    rw [processRaw, if_neg hsrc, if_neg (not_not.mpr htotal),
      if_neg (by rw [havl, hmiss]; exact not_lt.mpr hle)]
    rcases Nat.lt_or_ge src.length
      (c.data.length - (offset - sizeofChunkHeader)) with hlt | hge
    · obtain ⟨hmoves, hsource⟩ := @readRaw_interrupted blkSz slot sector offset c
        chunks src later st calls hblk htype hat hoffset hrest _ rfl hmissing' hlt
      exact ⟨_, hmoves, Or.inl hsource⟩
    · exact ⟨_, readRaw_completed hblk htype hat hoffset hrest rfl hmissing' hge,
        Or.inr rfl⟩

/-- A pass succeeds and ends at a later position. -/
theorem unsparseProcessChunk_at (hblk : blkSz % mmcsdSectorSize = 0)
    (hat : At slot ⟨sector, offset, c :: chunks⟩ st)
    (hrest : src ++ later = Position.rest ⟨sector, offset, c :: chunks⟩)
    (hmissing : Position.missing ⟨sector, offset, c :: chunks⟩ ≤ src.length) :
    ∃ p', Moves slot ⟨sector, offset, c :: chunks⟩ p' later calls
        (unsparseProcessChunk recordCall src st calls) ∧
      ((unsparseProcessChunk recordCall src st calls).source = [] ∨
        p'.missing = 0) := by
  obtain ⟨offset', hat', hrest', htodo, hcases⟩ := readChunkHeader_at hat hrest
  have hheader : Moves slot ⟨sector, offset, c :: chunks⟩
      ⟨sector, offset', c :: chunks⟩ later calls
      ⟨0, (readChunkHeader src st).1, (readChunkHeader src st).2, calls⟩ :=
    ⟨rfl, hat', hrest', List.suffix_refl _, [], (List.append_nil _).symm, htodo⟩
  have hoffset := hat'.chunkOffset
  dsimp only at hoffset
  have hmissing' : (readChunkHeader src st).1 = [] ∨
      Position.missing ⟨sector, offset', c :: chunks⟩ ≤
        (readChunkHeader src st).1.length := by
    rcases hcases with ⟨-, hnil⟩ | ⟨hmax, hdrop⟩
    · exact Or.inl hnil
    · right
      rcases Nat.lt_or_ge offset sizeofChunkHeader with hlt | hge
      · have hzero : offset' - sizeofChunkHeader = 0 := by omega
        rw [Position.missing, Position.seen, hzero]
        exact Nat.zero_le _
      · rw [hmax, hdrop, Nat.max_eq_left hge, Nat.sub_eq_zero_of_le hge,
          List.drop_zero]
        exact hmissing
  unfold unsparseProcessChunk
  dsimp only
  generalize readChunkHeader src st = read at *
  split
  · rename_i hshort
    rw [hoffset] at hshort
    rcases hcases with ⟨-, hnil⟩ | ⟨hmax, -⟩
    · exact ⟨_, hheader, Or.inl hnil⟩
    · omega
  · rename_i hlong
    rw [hoffset, not_lt] at hlong
    obtain ⟨htypes, -, -⟩ := hat'.header hlong
    rw [htypes]
    rcases c.kind with ⟨hraw, -, -⟩ | ⟨hcare, hdata, -⟩
    · rw [if_pos hraw]
      obtain ⟨p', hmoves, hend⟩ := processRaw_at hblk hraw hat' hlong hrest' hmissing'
      exact ⟨p', hheader.trans hmoves, hend⟩
    · have hexact : offset' = sizeofChunkHeader := by
        have hle := hat'.inside_head.offset_le
        rw [c.bytes_length, hdata] at hle
        exact Nat.le_antisymm hle hlong
      subst hexact
      rw [if_neg (by rw [hcare]; decide), if_pos hcare]
      exact ⟨_, hheader.trans (processDontCare_at hcare hat' hrest'), Or.inr rfl⟩

end Pass

/-! ## The loop -/

/-- Behind the last chunk nothing is left. -/
theorem rest_of_nil {p : Position blkSz} (h : p.chunks = []) : p.rest = [] := by
  rw [Position.rest, h]
  exact List.drop_nil

/-- The loop takes the whole section. -/
theorem unsparseLoop_at (hblk : blkSz % mmcsdSectorSize = 0) {later : List UInt8}
    (src : List UInt8) (st : SparseState) (calls : List WriteCall)
    (p : Position blkSz) (hat : At slot p st) (hrest : src ++ later = p.rest)
    (hmissing : src = [] ∨ p.missing ≤ src.length) :
    ∃ p', Moves slot p p' later calls (unsparseLoop recordCall src st calls) ∧
      (unsparseLoop recordCall src st calls).source = [] := by
  induction src, st, calls using unsparseLoop.induct recordCall generalizing p with
  | case1 src st calls hmore r hret ih =>
      rw [unsparseLoop_of_ok recordCall hmore hret]
      obtain ⟨sector, offset, chunks⟩ := p
      cases chunks with
      | nil => exact absurd hat.remainingChunks hmore.1
      | cons c chunks =>
          obtain ⟨p', hmoves, hend⟩ := @unsparseProcessChunk_at blkSz slot sector
            offset c chunks src later st calls hblk hat hrest
            (hmissing.resolve_left hmore.2)
          obtain ⟨p'', hmoves', hsource⟩ := ih p' hmoves.at_ hmoves.rest
            (hend.imp_right fun h => by rw [h]; exact Nat.zero_le _)
          exact ⟨p'', hmoves.trans hmoves', hsource⟩
  | case2 src st calls hmore r hret =>
      obtain ⟨sector, offset, chunks⟩ := p
      cases chunks with
      | nil => exact absurd hat.remainingChunks hmore.1
      | cons c chunks =>
          obtain ⟨p', hmoves, -⟩ := @unsparseProcessChunk_at blkSz slot sector
            offset c chunks src later st calls hblk hat hrest
            (hmissing.resolve_left hmore.2)
          exact absurd hmoves.ret hret
  | case3 src st calls hmore =>
      rw [unsparseLoop_of_done recordCall hmore]
      refine ⟨p, Moves.refl hat hrest, ?_⟩
      by_contra hsrc
      have hchunks : p.chunks = [] := by
        by_contra hne
        refine hmore ⟨?_, hsrc⟩
        rw [hat.remainingChunks]
        exact Nat.ne_of_gt (List.length_pos_of_ne_nil hne)
      rw [rest_of_nil hchunks] at hrest
      exact hsrc (List.append_eq_nil_iff.mp hrest).1

/-- A piece that does not complete the sector it starts in is refused. -/
theorem unsparseLoop_small {p : Position blkSz} {src later : List UInt8}
    {st : SparseState} {calls : List WriteCall} (hblk : blkSz % mmcsdSectorSize = 0)
    (hat : At slot p st) (hrest : src ++ later = p.rest) (hsrc : src ≠ [])
    (hmissing : src.length < p.missing) :
    (unsparseLoop recordCall src st calls).ret ≠ 0 := by
  obtain ⟨sector, offset, chunks⟩ := p
  cases chunks with
  | nil =>
      rw [rest_of_nil rfl] at hrest
      exact absurd (List.append_eq_nil_iff.mp hrest).1 hsrc
  | cons c chunks =>
      have hseen : sizeofChunkHeader ≤ offset := by
        by_contra hlt
        have hzero : offset - sizeofChunkHeader = 0 := by omega
        rw [Position.missing, Position.seen, hzero] at hmissing
        exact absurd hmissing (Nat.not_lt_zero _)
      have hcomplete : sizeofChunkHeader ≤ st.chunkOffset := by
        rw [hat.chunkOffset]
        exact hseen
      have hraw : chunkType (sectionPtr c.header) = chunkTypeRaw := by
        rcases c.kind with ⟨hraw, -, -⟩ | ⟨-, hdata, -⟩
        · exact hraw
        · have hle := hat.inside_head.seen_le
          rw [hdata] at hle
          rw [Position.missing, Position.seen, Nat.le_zero.mp hle] at hmissing
          exact absurd hmissing (Nat.not_lt_zero _)
      obtain ⟨-, -, hmiss, htotal⟩ := hat.sizes hblk hraw hseen
      have hpass : unsparseProcessChunk recordCall src st calls =
          ⟨1, src, st, calls⟩ := by
        unfold unsparseProcessChunk
        rw [readChunkHeader_of_complete hcomplete]
        dsimp only
        rw [if_neg (not_lt.mpr hcomplete), (hat.header hseen).1, if_pos hraw,
          processRaw, if_neg hsrc, if_neg (not_not.mpr htotal), if_pos]
        rw [hmiss]
        exact Nat.lt_of_le_of_lt (chunkAvlSize_le st src) hmissing
      have hmore : st.remainingChunks ≠ 0 ∧ src ≠ [] := by
        refine ⟨?_, hsrc⟩
        rw [hat.remainingChunks]
        exact Nat.succ_ne_zero _
      have hret : (unsparseProcessChunk recordCall src st calls).ret ≠ 0 := by
        rw [hpass]
        exact Nat.one_ne_zero
      rw [unsparseLoop_of_failed recordCall hmore hret]
      exact hret

/-! ## Where a piece starts -/

/-- The bytes that complete the sector of `RAW` data in which byte `n` of some chunks
stands. -/
def missingFrom : List (Chunk blkSz) → ℕ → ℕ
  | [], _ => 0
  | c :: chunks, n =>
      if n < c.bytes.length then missingBehind (n - sizeofChunkHeader)
      else missingFrom chunks (n - c.bytes.length)

/-- The bytes that a piece has to hold that starts at byte `n` of the image: the rest
of the file header or of a sector of `RAW` data. -/
def Image.missing (image : Image) (n : ℕ) : ℕ :=
  if n < sizeofSparseHeader then sizeofSparseHeader - n
  else missingFrom image.chunks (n - sizeofSparseHeader)

/-- Each of the pieces, the first of which starts at byte `n`, holds these bytes. -/
def Image.CutAt (image : Image) : ℕ → List (List UInt8) → Prop
  | _, [] => True
  | n, piece :: pieces =>
      image.missing n ≤ piece.length ∧ image.CutAt (n + piece.length) pieces

theorem chunk_bytes_pos (c : Chunk blkSz) : 0 < c.bytes.length := by
  rw [c.bytes_length]
  exact Nat.add_pos_left (by decide) _

theorem missingFrom_zero (chunks : List (Chunk blkSz)) :
    missingFrom chunks 0 = 0 := by
  cases chunks with
  | nil => rfl
  | cons c chunks =>
      rw [missingFrom, if_pos (chunk_bytes_pos c)]
      rfl

theorem missingFrom_append (done chunks : List (Chunk blkSz)) (n : ℕ) :
    missingFrom (done ++ chunks) ((done.flatMap Chunk.bytes).length + n) =
      missingFrom chunks n := by
  induction done with
  | nil =>
      rw [List.flatMap_nil, List.length_nil, Nat.zero_add]
      rfl
  | cons c done ih =>
      rw [List.flatMap_cons, List.length_append, Nat.add_assoc, List.cons_append,
        missingFrom, if_neg (by omega), Nat.add_sub_cancel_left, ih]

/-- In the first chunk, up to its end. -/
theorem missingFrom_cons (hblk : blkSz % mmcsdSectorSize = 0) {c : Chunk blkSz}
    {chunks : List (Chunk blkSz)} {offset : ℕ} (h : offset ≤ c.bytes.length) :
    missingFrom (c :: chunks) offset =
      missingBehind (offset - sizeofChunkHeader) := by
  rcases Nat.eq_or_lt_of_le h with rfl | hlt
  · rw [missingFrom, if_neg (lt_irrefl _), Nat.sub_self, missingFrom_zero,
      c.bytes_length, Nat.add_sub_cancel_left, missingBehind,
      if_pos (c.data_length_mod hblk)]
  · rw [missingFrom, if_pos hlt]

theorem Image.bytes_length (image : Image) :
    image.bytes.length =
      sizeofSparseHeader + (image.chunks.flatMap Chunk.bytes).length := by
  rw [Image.bytes, List.length_append, image.header_length]

/-- The position whose rest starts at byte `n`. -/
theorem Image.missing_eq (image : Image) {p : Position image.blkSz}
    {st : SparseState} (hat : At slot p st) (hsuffix : p.chunks <:+ image.chunks)
    {n : ℕ} (hn : n + p.rest.length = image.bytes.length) :
    image.missing n = p.missing := by
  obtain ⟨done, hdone⟩ := hsuffix
  obtain ⟨sector, offset, chunks⟩ := p
  dsimp only at hdone
  have hoffset : offset ≤ (chunks.flatMap Chunk.bytes).length := by
    cases chunks with
    | nil =>
        rw [show offset = 0 from hat.offset_eq rfl]
        exact Nat.zero_le _
    | cons c chunks =>
        rw [List.flatMap_cons, List.length_append]
        exact Nat.le_add_right_of_le hat.inside_head.offset_le
  have hplace : n = sizeofSparseHeader +
      ((done.flatMap Chunk.bytes).length + offset) := by
    rw [image.bytes_length, ← hdone, List.flatMap_append, List.length_append,
      Position.rest, List.length_drop] at hn
    dsimp only at hn
    omega
  rw [Image.missing, if_neg (by omega), hplace, Nat.add_sub_cancel_left, ← hdone,
    missingFrom_append]
  cases chunks with
  | nil =>
      rw [show offset = 0 from hat.offset_eq rfl]
      rfl
  | cons c chunks =>
      exact missingFrom_cons image.blkSz_mod hat.inside_head.offset_le

/-! ## All pieces -/

/-- `do_unsparse_process` on each piece. -/
def processPieces : List (List UInt8) → SparseState → Host → List ℕ × Host
  | [], _, h => ([], h)
  | piece :: pieces, st, h =>
      let (ret, st, h) := doUnsparseProcess piece st h
      let rest := processPieces pieces st h
      (ret :: rest.1, rest.2)

/-- The calls are made on a host. -/
def makeCalls (h : Host) (calls : List WriteCall) : Host :=
  calls.foldl (WriteCall.make mmcWriter) h

theorem doUnsparseProcess_eq (piece : List UInt8) (st : SparseState) (h : Host) :
    doUnsparseProcess piece st h =
      (if (unsparse recordCall piece st []).ret ≠ 0 then 1 else 0,
        (unsparse recordCall piece st []).state,
        makeCalls h (unsparse recordCall piece st []).world) := by
  unfold doUnsparseProcess
  rw [unsparse_eq_calls]
  rfl

/-- The pieces behind a position. -/
structure Processed (ok : Prop) (todo : List SectorWrite) (h : Host)
    (r : List ℕ × Host) : Prop where
  all_zero : (∀ ret ∈ r.1, ret = 0) ↔ ok
  writes : ok → ∃ calls, r.2 = makeCalls h calls ∧
    calls.flatMap WriteCall.sectorWrites = todo

/-- One more piece, which has succeeded. -/
theorem Processed.cons {ok : Prop} {todo todo' : List SectorWrite} {h : Host}
    {new : List WriteCall} {piece : List UInt8} {pieces : List (List UInt8)}
    {st : SparseState} (hret : (unsparse recordCall piece st []).ret = 0)
    (hworld : (unsparse recordCall piece st []).world = new)
    (htodo : new.flatMap WriteCall.sectorWrites ++ todo' = todo)
    (hrest : Processed ok todo' (makeCalls h new) (processPieces pieces
      (unsparse recordCall piece st []).state (makeCalls h new))) :
    Processed ok todo h (processPieces (piece :: pieces) st h) := by
  have hstep : processPieces (piece :: pieces) st h =
      (0 :: (processPieces pieces (unsparse recordCall piece st []).state
          (makeCalls h new)).1,
        (processPieces pieces (unsparse recordCall piece st []).state
          (makeCalls h new)).2) := by
    rw [processPieces, doUnsparseProcess_eq, hret, hworld]
    rfl
  rw [hstep]
  refine ⟨?_, fun hok => ?_⟩
  · rw [← hrest.all_zero, List.forall_mem_cons]
    exact and_iff_right rfl
  · obtain ⟨calls, hcalls, hwrites⟩ := hrest.writes hok
    refine ⟨new ++ calls, ?_, ?_⟩
    · exact hcalls.trans (List.foldl_append ..).symm
    · rw [List.flatMap_append, hwrites, htodo]

/-- A piece that fails. -/
theorem Processed.failed {ok : Prop} {todo : List SectorWrite} {h : Host}
    {piece : List UInt8} {pieces : List (List UInt8)} {st : SparseState}
    (hret : (unsparse recordCall piece st []).ret ≠ 0) (hok : ¬ ok) :
    Processed ok todo h (processPieces (piece :: pieces) st h) := by
  refine ⟨⟨fun hall => ?_, fun hok' => absurd hok' hok⟩, fun hok' => absurd hok' hok⟩
  have hfirst : (processPieces (piece :: pieces) st h).1.head? = some 1 := by
    rw [processPieces, doUnsparseProcess_eq, if_pos hret]
    rfl
  exact absurd (hall 1 (List.mem_of_mem_head? hfirst)) Nat.one_ne_zero

/-- At the end of the image nothing is left to be written. -/
theorem todo_of_rest_nil {p : Position blkSz} {st : SparseState}
    (hat : At slot p st) (hrest : p.rest = []) :
    p.todo slot = [] := by
  obtain ⟨sector, offset, chunks⟩ := p
  cases chunks with
  | nil => rfl
  | cons c chunks =>
      have hle := hat.inside_head.offset_le
      rw [Position.rest_cons hle] at hrest
      obtain ⟨hdrop, hchunks⟩ := List.append_eq_nil_iff.mp hrest
      have hend : offset = c.bytes.length :=
        Nat.le_antisymm hle (List.drop_eq_nil_iff.mp hdrop)
      have hnone : chunks = [] := by
        cases chunks with
        | nil => rfl
        | cons d chunks =>
            have hpos := chunk_bytes_pos d
            rw [List.flatMap_cons, List.append_eq_nil_iff] at hchunks
            rw [hchunks.1] at hpos
            exact absurd hpos (lt_irrefl _)
      rw [Position.todo_cons, hnone, hend, c.bytes_length, Nat.add_sub_cancel_left,
        c.writesFrom_of_le slot sector le_rfl]
      rfl

/-- From a position inside the image on. -/
theorem processPieces_at (image : Image) (pieces : List (List UInt8)) (n : ℕ)
    (p : Position image.blkSz) (st : SparseState) (h : Host) (hat : At slot p st)
    (hsuffix : p.chunks <:+ image.chunks)
    (hn : n + p.rest.length = image.bytes.length) (hflat : pieces.flatten = p.rest)
    (hne : ∀ piece ∈ pieces, piece ≠ []) :
    Processed (image.CutAt n pieces) (p.todo slot) h
      (processPieces pieces st h) := by
  induction pieces generalizing n p st h with
  | nil =>
      refine ⟨⟨fun _ => trivial, fun _ ret hret => ?_⟩, fun _ => ⟨[], rfl, ?_⟩⟩
      · cases hret
      · exact (todo_of_rest_nil hat hflat.symm).symm
  | cons piece pieces ih =>
      have hpiece := hne piece List.mem_cons_self
      rw [List.flatten_cons] at hflat
      have hmissing := image.missing_eq hat hsuffix hn
      have hremaining : st.remainingChunks ≠ 0 := by
        rw [hat.remainingChunks]
        intro hzero
        rw [rest_of_nil (List.length_eq_zero_iff.mp hzero)] at hflat
        exact hpiece (List.append_eq_nil_iff.mp hflat).1
      have hloop : unsparse recordCall piece st [] =
          unsparseLoop recordCall piece st [] := by
        rw [unsparse, if_neg hremaining]
      rw [Image.CutAt, hmissing]
      rcases Nat.lt_or_ge piece.length p.missing with hlt | hge
      · refine Processed.failed ?_ fun hok => absurd hok.1 (not_le.mpr hlt)
        rw [hloop]
        exact unsparseLoop_small image.blkSz_mod hat hflat hpiece hlt
      · obtain ⟨p', hmoves, hsource⟩ := unsparseLoop_at image.blkSz_mod piece st [] p
          hat hflat (Or.inr hge)
        rw [← hloop] at hmoves hsource
        obtain ⟨new, hworld, htodo⟩ := hmoves.writes
        have hrest := hmoves.rest
        rw [hsource, List.nil_append] at hrest
        have hn' : n + piece.length + p'.rest.length = image.bytes.length := by
          rw [← hn, ← hflat, ← hrest, List.length_append, Nat.add_assoc]
        have hnext := ih (n + piece.length) p' _ (makeCalls h new) hmoves.at_
          (hmoves.suffix.trans hsuffix) hn' hrest
          fun q hq => hne q (List.mem_cons_of_mem _ hq)
        have hall := Processed.cons hmoves.ret (hworld.trans (List.nil_append new))
          htodo hnext
        rwa [show (p.missing ≤ piece.length ∧
          image.CutAt (n + piece.length) pieces) =
            image.CutAt (n + piece.length) pieces from
              propext (and_iff_right hge)]

/-! ## The whole image -/

theorem sum_sectors (hblk : blkSz % mmcsdSectorSize = 0)
    (chunks : List (Chunk blkSz)) :
    (chunks.map Chunk.sectors).sum =
      (chunks.map Chunk.blocks).sum * blkSz / mmcsdSectorSize := by
  obtain ⟨k, hk⟩ := Nat.dvd_of_mod_eq_zero hblk
  have hmul : ∀ n, n * blkSz / mmcsdSectorSize = n * k := by
    intro n
    rw [hk, Nat.mul_left_comm, Nat.mul_div_cancel_left _ (by decide)]
  rw [hmul]
  induction chunks with
  | nil => exact (Nat.zero_mul k).symm
  | cons c chunks ih =>
      rw [List.map_cons, List.map_cons, List.sum_cons, List.sum_cons, ih,
        Chunk.sectors, hmul, Nat.add_mul]

/-- The file header of an image is accepted. -/
theorem unsparseReadHeader_image (image : Image) {piece later : List UInt8}
    (hflat : piece ++ later = image.bytes) (hlen : sizeofSparseHeader ≤ piece.length)
    (st : SparseState) :
    unsparseReadHeader piece st = some (piece.drop sizeofSparseHeader,
      { st with
        remainingChunks := image.chunks.length
        chunkOffset := 0
        blockSize := image.blkSz }) := by
  have hcell : ∀ k, k < sizeofSparseHeader →
      sectionPtr piece k = sectionPtr image.header k := by
    intro k hk
    have hget : (piece ++ later)[k]? = (image.header ++
        image.chunks.flatMap Chunk.bytes)[k]? := by rw [hflat]; rfl
    rw [List.getElem?_append_left (by omega), List.getElem?_append_left
      (by rw [image.header_length]; exact hk)] at hget
    rw [sectionPtr, sectionPtr, Memory.ofList, Memory.ofList, List.getD, List.getD,
      hget]
  have hmagic : headerMagic (sectionPtr piece) = sparseHeaderMagic := by
    rw [← image.magic_eq]
    exact le32_congr fun k _ hk => hcell k (by unfold sizeofSparseHeader; omega)
  have hmajor : headerMajorVersion (sectionPtr piece) = sparseHeaderMajorVer := by
    rw [← image.majorVersion_eq]
    exact le16_congr fun k _ hk => hcell k (by unfold sizeofSparseHeader; omega)
  have hfile : headerFileHdrSz (sectionPtr piece) = sizeofSparseHeader := by
    rw [← image.fileHdrSz_eq]
    exact le16_congr fun k _ hk => hcell k (by unfold sizeofSparseHeader; omega)
  have hchunk : headerChunkHdrSz (sectionPtr piece) = sizeofChunkHeader := by
    rw [← image.chunkHdrSz_eq]
    exact le16_congr fun k _ hk => hcell k (by unfold sizeofSparseHeader; omega)
  have htotal : headerTotalChunks (sectionPtr piece) = image.chunks.length := by
    rw [← image.totalChunks_eq]
    exact le32_congr fun k _ hk => hcell k (by unfold sizeofSparseHeader; omega)
  have hblk : headerBlkSz (sectionPtr piece) = image.blkSz := by
    rw [← image.blkSz_eq]
    exact le32_congr fun k _ hk => hcell k (by unfold sizeofSparseHeader; omega)
  unfold unsparseReadHeader
  dsimp only
  rw [if_neg (not_lt.mpr hlen), if_neg (not_not.mpr hmagic), if_neg, htotal, hblk]
  rintro (h | h | h)
  · exact h hmajor
  · exact h hfile
  · exact h hchunk

/-- All pieces of an image. -/
theorem processPieces_image (image : Image) (slot : Slot) {start : ℕ}
    (hstart : start < 2 ^ 32)
    (hfits : start + image.blocks * image.blkSz / mmcsdSectorSize ≤ 2 ^ 32)
    {pieces : List (List UInt8)} (hflat : pieces.flatten = image.bytes)
    (hne : ∀ piece ∈ pieces, piece ≠ []) (state : SparseState) (h : Host) :
    Processed (image.CutAt 0 pieces) (image.expansion slot start) h
      (processPieces pieces (doUnsparseStart start slot state) h) := by
  have hpos : 0 < image.bytes.length := by
    rw [image.bytes_length]
    exact Nat.add_pos_left (by decide) _
  cases pieces with
  | nil =>
      rw [← hflat] at hpos
      exact absurd hpos (lt_irrefl 0)
  | cons piece pieces =>
      rw [List.flatten_cons] at hflat
      have hfirst : image.missing 0 = sizeofSparseHeader := rfl
      have hstarted : (doUnsparseStart start slot state).remainingChunks = 0 := rfl
      rw [Image.CutAt, hfirst]
      rcases Nat.lt_or_ge piece.length sizeofSparseHeader with hlt | hge
      · refine Processed.failed ?_ fun hok => absurd hok.1 (not_le.mpr hlt)
        have hnone : unsparseReadHeader piece (doUnsparseStart start slot state) =
            none := if_pos hlt
        rw [unsparse, if_pos hstarted, hnone]
        exact Nat.one_ne_zero
      · have hheader := unsparseReadHeader_image image hflat hge
          (doUnsparseStart start slot state)
        set st : SparseState := { doUnsparseStart start slot state with
          remainingChunks := image.chunks.length
          chunkOffset := 0
          blockSize := image.blkSz } with hst
        have hloop : unsparse recordCall piece (doUnsparseStart start slot state) [] =
            unsparseLoop recordCall (piece.drop sizeofSparseHeader) st [] := by
          rw [unsparse, if_pos hstarted, hheader]
        have hat : At slot ⟨start, 0, image.chunks⟩ st :=
          { remainingChunks := rfl
            blockSize := rfl
            slotNo := rfl
            chunkOffset := rfl
            sector := by
              dsimp only [Position.seen]
              rw [Nat.zero_sub, Nat.zero_div, Nat.add_zero]
              exact (Nat.mod_eq_of_lt hstart).symm
            fits := by
              rw [sum_sectors image.blkSz_mod]
              exact hfits
            offset_eq := fun _ => rfl
            inside := fun c _ => c.inside_zero st }
        have hrest : piece.drop sizeofSparseHeader ++ pieces.flatten =
            Position.rest ⟨start, 0, image.chunks⟩ := by
          rw [← List.drop_append_of_le_length hge, hflat, Position.rest_zero,
            Image.bytes, ← image.header_length, List.drop_left]
        obtain ⟨p', hmoves, hsource⟩ := unsparseLoop_at image.blkSz_mod
          (piece.drop sizeofSparseHeader) st [] ⟨start, 0, image.chunks⟩ hat hrest
          (Or.inr (Nat.zero_le _))
        rw [← hloop] at hmoves hsource
        obtain ⟨new, hworld, htodo⟩ := hmoves.writes
        have hlater := hmoves.rest
        rw [hsource, List.nil_append] at hlater
        have hn : 0 + piece.length + p'.rest.length = image.bytes.length := by
          rw [← hflat, ← hlater, List.length_append, Nat.zero_add]
        have hnext := processPieces_at image pieces (0 + piece.length) p' _
          (makeCalls h new) hmoves.at_ hmoves.suffix hn hlater
          fun q hq => hne q (List.mem_cons_of_mem _ hq)
        have htodo' : new.flatMap WriteCall.sectorWrites ++ p'.todo slot =
            image.expansion slot start := by
          rw [htodo, Position.todo_zero, Image.expansion,
            expansionFrom_eq image.blkSz_mod, Nat.zero_mul, Nat.zero_div,
            Nat.add_zero]
        have hall := Processed.cons hmoves.ret (hworld.trans (List.nil_append new))
          htodo' hnext
        rwa [show (sizeofSparseHeader ≤ piece.length ∧
          image.CutAt (0 + piece.length) pieces) =
            image.CutAt (0 + piece.length) pieces from
              propext (and_iff_right hge)]

/-- Cutting an image into pieces: all of them succeed if and only if each holds the
rest of the file header or of the sector of `RAW` data in which it starts.  Then the
sectors written are those of the expansion, as they are for the image in one piece. -/
theorem processPieces_expansion (image : Image) (slot : Slot) {start : ℕ}
    (hstart : start < 2 ^ 32)
    (hfits : start + image.blocks * image.blkSz / mmcsdSectorSize ≤ 2 ^ 32)
    {pieces : List (List UInt8)} (hflat : pieces.flatten = image.bytes)
    (hne : ∀ piece ∈ pieces, piece ≠ []) (state : SparseState) (h : Host) :
    ((∀ ret ∈ (processPieces pieces (doUnsparseStart start slot state) h).1,
        ret = 0) ↔ image.CutAt 0 pieces) ∧
      (image.CutAt 0 pieces → ∃ calls,
        (processPieces pieces (doUnsparseStart start slot state) h).2 =
            makeCalls h calls ∧
          calls.flatMap WriteCall.sectorWrites = image.expansion slot start) ∧
      (∀ ret ∈ (processPieces [image.bytes] (doUnsparseStart start slot state) h).1,
        ret = 0) ∧
      ∃ calls, (processPieces [image.bytes] (doUnsparseStart start slot state) h).2 =
            makeCalls h calls ∧
          calls.flatMap WriteCall.sectorWrites = image.expansion slot start := by
  have hwhole : image.CutAt 0 [image.bytes] := by
    refine ⟨?_, trivial⟩
    rw [image.bytes_length]
    exact Nat.le_add_right _ _
  have hbytes : ∀ piece ∈ [image.bytes], piece ≠ [] := by
    intro piece hpiece hnil
    rw [List.mem_singleton.mp hpiece] at hnil
    have hlen := image.bytes_length
    rw [hnil] at hlen
    exact absurd hlen.symm (Nat.ne_of_gt (Nat.add_pos_left (by decide) _))
  have hcut := processPieces_image image slot hstart hfits hflat hne state h
  have hone := processPieces_image image slot hstart hfits (List.flatten_singleton ..)
    hbytes state h
  exact ⟨hcut.all_zero, hcut.writes, hone.all_zero.mpr hwhole, hone.writes hwhole⟩

/-- A file header for one chunk with blocks of 512 bytes. -/
def oneChunkHeader : List UInt8 :=
  [0x3a, 0xff, 0x26, 0xed, 1, 0, 0, 0, 28, 0, 12, 0, 0, 2, 0, 0, 1, 0, 0, 0, 1, 0, 0, 0,
    0, 0, 0, 0]

/-- A `RAW` chunk of one block. -/
def oneBlock : Chunk 512 where
  header := [0xC1, 0xCA, 0, 0, 1, 0, 0, 0, 12, 2, 0, 0]
  data := List.replicate 512 7
  header_length := rfl
  size_lt := by decide
  kind := Or.inl ⟨by decide, by decide +kernel, by decide +kernel⟩

def oneBlockImage : Image where
  header := oneChunkHeader
  blkSz := 512
  chunks := [oneBlock]
  header_length := rfl
  magic_eq := by decide
  majorVersion_eq := by decide
  fileHdrSz_eq := by decide
  chunkHdrSz_eq := by decide
  blkSz_eq := by decide
  blkSz_pos := by decide
  blkSz_mod := by decide
  totalChunks_eq := by decide

local instance pieceSlotNeZero : NeZero 2 := ⟨two_ne_zero⟩

/-- What `do_unsparse_process` returns for the pieces between the cuts. -/
def returnsOf (pieces : List (List UInt8)) : List ℕ :=
  (processPieces pieces (doUnsparseStart 0 0 (freshState 0))
    (hostWith ⟨.sectorMode, 0⟩)).1

/-- The image is cut behind 60 bytes of the data. -/
theorem processPieces_expansion_oneBlock :
    (returnsOf [oneBlockImage.bytes.take 100, oneBlockImage.bytes.drop 100]).all
      (fun ret => ret = 0) = true := by
  have hall : ∀ ret ∈ returnsOf
      [oneBlockImage.bytes.take 100, oneBlockImage.bytes.drop 100], ret = 0 :=
    (processPieces_expansion oneBlockImage 0 (by decide) (by decide)
      (by simp) (by decide) (freshState 0)
      (hostWith ⟨.sectorMode, 0⟩)).1.mpr
        ⟨by decide +kernel, by decide +kernel, trivial⟩
  exact List.all_eq_true.mpr fun ret hret => decide_eq_true (hall ret hret)

/-- A cut inside the file header, and a piece inside a sector of the data. -/
theorem not_anyCut_succeeds :
    (¬ ∀ ret ∈ returnsOf
        [oneBlockImage.bytes.take 10, oneBlockImage.bytes.drop 10], ret = 0) ∧
      ¬ ∀ ret ∈ returnsOf
        [oneBlockImage.bytes.take 100, (oneBlockImage.bytes.drop 100).take 100,
          oneBlockImage.bytes.drop 200], ret = 0 := by
  constructor
  · intro hall
    have hcut := (processPieces_image oneBlockImage 0 (by decide) (by decide)
      (by simp) (by decide) (freshState 0)
      (hostWith ⟨.sectorMode, 0⟩)).all_zero.mp hall
    exact absurd hcut.1 (by decide)
  · intro hall
    have hcut := (processPieces_image oneBlockImage 0 (by decide) (by decide)
      (by decide +kernel) (by decide +kernel) (freshState 0)
      (hostWith ⟨.sectorMode, 0⟩)).all_zero.mp hall
    exact absurd hcut.2.1 (by decide +kernel)

end TateFirmware.Sparse
