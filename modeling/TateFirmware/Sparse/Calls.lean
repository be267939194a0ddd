import TateFirmware.Sparse.Expansion

/-!
# The sector writes of an expansion

The expander drops the result of `WRITE`, so what it does does not depend on
what its writes do: an expansion is a list of calls of `WRITE`, fixed by the
section and the state, and the calls are then made in order.
-/

namespace TateFirmware.Sparse

open Support

/-- One call of `WRITE`. -/
structure WriteCall where
  slotNo : Mmc.Slot
  src : Pointer
  sector : ℕ
  len : ℕ

/-- Make a call. -/
def WriteCall.make {W : Type*} (WRITE : Writer W) (w : W) (c : WriteCall) : W :=
  WRITE c.slotNo c.src c.sector c.len w

/-- The `WRITE` that only records its calls. -/
def recordCall : Writer (List WriteCall) :=
  fun slotNo src sector len calls => calls ++ [⟨slotNo, src, sector, len⟩]

/-- Progress in another world. -/
def Progress.map {W V : Type*} (f : W → V) (p : Progress W) : Progress V where
  ret := p.ret
  source := p.source
  state := p.state
  world := f p.world

section Map

variable {W V : Type*} {WRITE : Writer W} {WRITE' : Writer V} {f : W → V}
  (hf : ∀ slotNo src sector len w,
    f (WRITE slotNo src sector len w) = WRITE' slotNo src sector len (f w))

include hf

theorem fillSector_map (source : List UInt8) (state : SparseState) (w : W) :
    fillSector WRITE' source state (f w) =
      ((fillSector WRITE source state w).1,
        (fillSector WRITE source state w).2.1,
        f (fillSector WRITE source state w).2.2) := by
  unfold fillSector
  dsimp only
  split
  · rfl
  · rw [hf]

theorem readRaw_map (source : List UInt8) (state : SparseState) (w : W) :
    readRaw WRITE' source state (f w) =
      (readRaw WRITE source state w).map f := by
  unfold readRaw
  simp only [fillSector_map hf]
  split <;> simp only [Progress.map, hf]

theorem processRaw_map (source : List UInt8) (state : SparseState) (w : W) :
    processRaw WRITE' source state (f w) =
      (processRaw WRITE source state w).map f := by
  unfold processRaw
  split
  · rfl
  · split
    · rfl
    · split
      · rfl
      · exact readRaw_map hf source state w

theorem unsparseProcessChunk_map (source : List UInt8) (state : SparseState)
    (w : W) :
    unsparseProcessChunk WRITE' source state (f w) =
      (unsparseProcessChunk WRITE source state w).map f := by
  unfold unsparseProcessChunk
  dsimp only
  split
  · rfl
  · split
    · exact processRaw_map hf _ _ w
    · split
      · unfold processDontCare
        split <;> rfl
      · rfl

theorem unsparseLoop_map (source : List UInt8) (state : SparseState) (w : W) :
    unsparseLoop WRITE' source state (f w) =
      (unsparseLoop WRITE source state w).map f := by
  induction source, state, w using unsparseLoop.induct WRITE with
  | case1 source state w hmore p hret ih =>
      have hpass := unsparseProcessChunk_map hf source state w
      have hret' : (unsparseProcessChunk WRITE' source state (f w)).ret = 0 := by
        rw [hpass]
        exact hret
      rw [unsparseLoop_of_ok WRITE hmore hret,
        unsparseLoop_of_ok WRITE' hmore hret', hpass]
      exact ih
  | case2 source state w hmore p hret =>
      have hpass := unsparseProcessChunk_map hf source state w
      have hret' : (unsparseProcessChunk WRITE' source state (f w)).ret ≠ 0 := by
        rw [hpass]
        exact hret
      rw [unsparseLoop_of_failed WRITE hmore hret,
        unsparseLoop_of_failed WRITE' hmore hret', hpass]
  | case3 source state w hmore =>
      rw [unsparseLoop_of_done WRITE hmore, unsparseLoop_of_done WRITE' hmore]
      rfl

/-- An expansion does the same in two worlds with corresponding writes. -/
theorem unsparse_map (source : List UInt8) (state : SparseState) (w : W) :
    unsparse WRITE' source state (f w) =
      (unsparse WRITE source state w).map f := by
  unfold unsparse
  split
  · cases unsparseReadHeader source state with
    | none => rfl
    | some r => exact unsparseLoop_map hf r.1 r.2 w
  · exact unsparseLoop_map hf source state w

end Map

/-- The calls of `WRITE` an expansion makes, in order. -/
def expansionCalls (source : List UInt8) (state : SparseState) :
    List WriteCall :=
  (unsparse recordCall source state []).world

/-- An expansion makes its calls; its other results do not depend on what they
do. -/
theorem unsparse_eq_calls {W : Type*} (WRITE : Writer W)
    (source : List UInt8) (state : SparseState) (w : W) :
    unsparse WRITE source state w =
      (unsparse recordCall source state []).map
        fun calls => calls.foldl (WriteCall.make WRITE) w :=
  unsparse_map (f := fun calls => calls.foldl (WriteCall.make WRITE) w)
    (fun slotNo src sector len calls => by
      simp [recordCall, WriteCall.make]) source state []

theorem unsparse_world {W : Type*} (WRITE : Writer W)
    (source : List UInt8) (state : SparseState) (w : W) :
    (unsparse WRITE source state w).world =
      (expansionCalls source state).foldl (WriteCall.make WRITE) w := by
  rw [unsparse_eq_calls]
  rfl

theorem unsparse_ret {W : Type*} (WRITE : Writer W)
    (source : List UInt8) (state : SparseState) (w : W) :
    (unsparse WRITE source state w).ret =
      (unsparse recordCall source state []).ret := by
  rw [unsparse_eq_calls]
  rfl

theorem unsparse_state {W : Type*} (WRITE : Writer W)
    (source : List UInt8) (state : SparseState) (w : W) :
    (unsparse WRITE source state w).state =
      (unsparse recordCall source state []).state := by
  rw [unsparse_eq_calls]
  rfl

/-! ## The slot of the calls -/

/-- The expansion stays on the slot of its state. -/
def OnSlot (slot : Mmc.Slot) (state : SparseState) (calls : List WriteCall) :
    Prop :=
  state.slotNo = slot ∧ ∀ c ∈ calls, c.slotNo = slot

variable {slot : Mmc.Slot} {source : List UInt8} {state : SparseState}
  {calls : List WriteCall}

theorem recordCall_slot {src : Pointer} {sector len : ℕ}
    (h : ∀ c ∈ calls, c.slotNo = slot) :
    ∀ c ∈ recordCall slot src sector len calls, c.slotNo = slot := by
  intro c hc
  rcases List.mem_append.mp hc with hc | hc
  · exact h c hc
  · rw [List.mem_singleton.mp hc]

theorem fillSector_onSlot (source : List UInt8) (h : OnSlot slot state calls) :
    OnSlot slot (fillSector recordCall source state calls).2.1
      (fillSector recordCall source state calls).2.2 := by
  unfold fillSector
  dsimp only
  split
  · exact h
  · refine ⟨h.1, ?_⟩
    rw [h.1]
    exact recordCall_slot h.2

theorem readRaw_onSlot (h : OnSlot slot state calls) :
    OnSlot slot (readRaw recordCall source state calls).state
      (readRaw recordCall source state calls).world := by
  obtain ⟨hslot, hcalls⟩ := fillSector_onSlot source h
  by_cases hend : state.chunkRemSize ≤ source.length
  · simp only [readRaw, if_pos hend, SparseState.nextChunk,
      SparseState.advance, OnSlot, hslot]
    exact ⟨trivial, recordCall_slot hcalls⟩
  · simp only [readRaw, if_neg hend, SparseState.advance, OnSlot, hslot]
    exact ⟨trivial, recordCall_slot hcalls⟩

theorem unsparseProcessChunk_onSlot (h : OnSlot slot state calls) :
    OnSlot slot (unsparseProcessChunk recordCall source state calls).state
      (unsparseProcessChunk recordCall source state calls).world := by
  have hread : OnSlot slot (readChunkHeader source state).2 calls := by
    unfold readChunkHeader
    split
    · exact ⟨h.1, h.2⟩
    · exact h
  unfold unsparseProcessChunk
  dsimp only
  generalize readChunkHeader source state = read at *
  split
  · exact hread
  · split
    · rcases processRaw_cases recordCall read.1 read.2 calls with
        ⟨_, heq⟩ | ⟨_, heq⟩ | ⟨_, _, _, heq⟩
      · rw [heq]
        exact hread
      · rw [heq]
        exact hread
      · rw [heq]
        exact readRaw_onSlot hread
    · split
      · unfold processDontCare
        split
        · exact hread
        · exact ⟨hread.1, hread.2⟩
      · exact hread

theorem unsparseLoop_onSlot (source : List UInt8) (state : SparseState)
    (calls : List WriteCall) (h : OnSlot slot state calls) :
    OnSlot slot (unsparseLoop recordCall source state calls).state
      (unsparseLoop recordCall source state calls).world := by
  induction source, state, calls using unsparseLoop.induct recordCall with
  | case1 source state calls hmore p hret ih =>
      rw [unsparseLoop_of_ok recordCall hmore hret]
      exact ih (unsparseProcessChunk_onSlot h)
  | case2 source state calls hmore p hret =>
      rw [unsparseLoop_of_failed recordCall hmore hret]
      exact unsparseProcessChunk_onSlot h
  | case3 source state calls hmore =>
      rw [unsparseLoop_of_done recordCall hmore]
      exact h

/-- All calls of an expansion, and the state behind it, are for its slot. -/
theorem unsparse_onSlot (source : List UInt8) (state : SparseState) :
    OnSlot state.slotNo (unsparse recordCall source state []).state
      (unsparse recordCall source state []).world := by
  have hstart : OnSlot state.slotNo state [] := ⟨rfl, by simp⟩
  unfold unsparse
  split
  · cases hheader : unsparseReadHeader source state with
    | none => exact hstart
    | some r =>
        apply unsparseLoop_onSlot
        refine ⟨?_, by simp⟩
        unfold unsparseReadHeader at hheader
        dsimp only at hheader
        split at hheader
        · simp at hheader
        · split at hheader
          · simp at hheader
          · split at hheader
            · simp at hheader
            · obtain rfl := Option.some.inj hheader
              rfl
  · exact unsparseLoop_onSlot source state [] hstart

/-!
## What the headers say

Which chunks of a section are refused, and which sectors its `RAW` chunks cover, can be
read off the headers: each of them stands behind the data of the chunk in front of it.
-/

/-- The size of a chunk in the output image, in 32 bits. -/
def chunkOutput (blkSz : ℕ) (header : Pointer) : ℕ :=
  chunkSz header * blkSz % 2 ^ 32

/-- The size of a chunk's data in the section. -/
def chunkData (blkSz : ℕ) (header : Pointer) : ℕ :=
  if chunkType header = chunkTypeRaw then chunkOutput blkSz header else 0

/-- The chunk is of one of the two kinds, and `total_sz` is what it has to be. -/
def TotalOk (blkSz : ℕ) (header : Pointer) : Prop :=
  (chunkType header = chunkTypeRaw ∧
      chunkTotalSz header = (chunkOutput blkSz header + sizeofChunkHeader) % 2 ^ 32) ∨
    (chunkType header = chunkTypeDontCare ∧ chunkTotalSz header = sizeofChunkHeader)

instance (blkSz : ℕ) (header : Pointer) : Decidable (TotalOk blkSz header) :=
  inferInstanceAs (Decidable (_ ∨ _))

/-- The headers of the next `n` chunks, from the front of `bytes` on, are right as far as
they are there; that of a `RAW` chunk is looked at with the first byte of its data. -/
def HeadersOk (blkSz : ℕ) : ℕ → List UInt8 → Prop
  | 0, _ => True
  | n + 1, bytes =>
      bytes.length < sizeofChunkHeader ∨
        (chunkType (sectionPtr bytes) = chunkTypeRaw ∧
          bytes.length = sizeofChunkHeader) ∨
        (TotalOk blkSz (sectionPtr bytes) ∧
          HeadersOk blkSz n
            (bytes.drop (sizeofChunkHeader + chunkData blkSz (sectionPtr bytes))))

/-- The file header is one that is accepted. -/
def FileHeaderOk (source : List UInt8) : Prop :=
  sizeofSparseHeader ≤ source.length ∧
    headerMagic (sectionPtr source) = sparseHeaderMagic ∧
    headerMajorVersion (sectionPtr source) = sparseHeaderMajorVer ∧
    headerFileHdrSz (sectionPtr source) = sizeofSparseHeader ∧
    headerChunkHdrSz (sectionPtr source) = sizeofChunkHeader

instance (source : List UInt8) : Decidable (FileHeaderOk source) :=
  inferInstanceAs (Decidable (_ ∧ _))

/-- The current chunk, of which the header has been read, can go on: its `total_sz` is
right, and a sector that was left over can be filled. -/
def CurrentOk (state : SparseState) (source : List UInt8) : Prop :=
  TotalOk state.blockSize state.lastHeader ∧
    (chunkType state.lastHeader = chunkTypeRaw →
      state.missingBytes ≤ min state.chunkRemSize source.length)

/-- The bytes of the section that belong to the current chunk. -/
def currentData (state : SparseState) : ℕ :=
  if chunkType state.lastHeader = chunkTypeRaw then state.chunkRemSize else 0

/-- The bytes of a header that has not been completed, and the section behind them. -/
def withHeld (state : SparseState) (source : List UInt8) : List UInt8 :=
  state.lastHeader.read 0 state.chunkOffset ++ source

/-- The section is one that the expander accepts: behind the file header, or behind what
has been read of the current chunk, its chunk headers are right. -/
def SectionOk (source : List UInt8) (state : SparseState) : Prop :=
  if state.remainingChunks = 0 then
    FileHeaderOk source ∧
      HeadersOk (headerBlkSz (sectionPtr source)) (headerTotalChunks (sectionPtr source))
        (source.drop sizeofSparseHeader)
  else if state.chunkOffset < sizeofChunkHeader then
    HeadersOk state.blockSize state.remainingChunks (withHeld state source)
  else
    source = [] ∨
      (CurrentOk state source ∧
        HeadersOk state.blockSize (state.remainingChunks - 1)
          (source.drop (currentData state)))

/-! ### One pass -/

theorem le16_congr {m m' : Pointer} {p : ℕ}
    (h : ∀ k, p ≤ k → k < p + 2 → m k = m' k) : le16 m p = le16 m' p := by
  rw [le16, le16, h p (by omega) (by omega), h (p + 1) (by omega) (by omega)]

theorem le32_congr {m m' : Pointer} {p : ℕ}
    (h : ∀ k, p ≤ k → k < p + 4 → m k = m' k) : le32 m p = le32 m' p := by
  rw [le32, le32, le16_congr fun k hlo hhi => h k hlo (by omega),
    le16_congr fun k hlo hhi => h k (by omega) (by omega)]

section OnePass

variable {W : Type*} (WRITE : Writer W) {w : W}

/-- The state between two chunks. -/
structure Between (state : SparseState) (next : ℕ) (st : SparseState) : Prop where
  chunkOffset : st.chunkOffset = 0
  remainingChunks : st.remainingChunks = state.remainingChunks - 1
  blockSize : st.blockSize = state.blockSize
  sector : st.sector = next % 2 ^ 32

/-- The sectors that a pass over the current chunk stores. -/
def currentSectors (state : SparseState) (source : List UInt8) : ℕ :=
  (if state.missingBytes = 0 then 0 else 1) +
    (min state.chunkRemSize source.length - state.missingBytes) / 512

theorem chunkAvlSize_eq (state : SparseState) (source : List UInt8) :
    state.chunkAvlSize source = min state.chunkRemSize source.length := by
  unfold SparseState.chunkAvlSize
  split <;> omega

theorem fillSector_state (source : List UInt8) (state : SparseState) (w : W) :
    (fillSector WRITE source state w).2.1.lastHeader = state.lastHeader ∧
      (fillSector WRITE source state w).2.1.blockSize = state.blockSize ∧
      (fillSector WRITE source state w).2.1.chunkOffset = state.chunkOffset ∧
      ((fillSector WRITE source state w).2.1.sector) % 2 ^ 32 =
        (state.sector + if state.missingBytes = 0 then 0 else 1) % 2 ^ 32 := by
  unfold fillSector
  dsimp only
  split
  · exact ⟨rfl, rfl, rfl, rfl⟩
  · exact ⟨rfl, rfl, rfl, Nat.mod_mod _ _⟩

theorem readRaw_state (source : List UInt8) (state : SparseState) (w : W) :
    (readRaw WRITE source state w).state.lastHeader = state.lastHeader ∧
      (readRaw WRITE source state w).state.blockSize = state.blockSize ∧
      (readRaw WRITE source state w).state.chunkOffset =
        (if state.chunkRemSize ≤ source.length then 0
        else (state.chunkOffset + state.chunkAvlSize source) % 2 ^ 32) ∧
      (readRaw WRITE source state w).state.sector =
        (state.sector + (if state.missingBytes = 0 then 0 else 1) +
          (state.chunkAvlSize source - state.missingBytes) / 512) %
            2 ^ 32 := by
  obtain ⟨hheader, hblock, hoffset, hsector⟩ :=
    fillSector_state WRITE source state w
  have hcopy : (state.chunkAvlSize source - state.missingBytes) / 512 * 512 /
      512 = (state.chunkAvlSize source - state.missingBytes) / 512 :=
    Nat.mul_div_cancel _ (by decide)
  have hsum : ((fillSector WRITE source state w).2.1.sector +
      (state.chunkAvlSize source - state.missingBytes) / 512) % 2 ^ 32 =
        (state.sector + (if state.missingBytes = 0 then 0 else 1) +
          (state.chunkAvlSize source - state.missingBytes) / 512) %
            2 ^ 32 := by
    rw [Nat.add_mod, hsector, ← Nat.add_mod]
  by_cases hend : state.chunkRemSize ≤ source.length
  · simp only [readRaw, if_pos hend, SparseState.advance, SparseState.nextChunk,
      hcopy]
    exact ⟨hheader, hblock, trivial, hsum⟩
  · simp only [readRaw, if_neg hend, SparseState.advance, hcopy, hoffset]
    exact ⟨hheader, hblock, trivial, hsum⟩

/-- A RAW chunk can be taken if it has its length, and the sector left over is filled. -/
theorem currentOk_raw_iff {source : List UInt8} {state : SparseState}
    (hraw : chunkType state.lastHeader = chunkTypeRaw) :
    CurrentOk state source ↔
      chunkTotalSz state.lastHeader = (state.chunkSize + sizeofChunkHeader) % 2 ^ 32 ∧
        state.missingBytes ≤ state.chunkAvlSize source := by
  have hkinds : chunkTypeRaw ≠ chunkTypeDontCare := by decide
  have htotal : TotalOk state.blockSize state.lastHeader ↔
      chunkTotalSz state.lastHeader =
        (state.chunkSize + sizeofChunkHeader) % 2 ^ 32 := by
    unfold TotalOk
    rw [hraw]
    simp only [true_and, hkinds, false_and, or_false]
    exact Iff.rfl
  rw [CurrentOk, htotal, chunkAvlSize_eq]
  exact and_congr_right fun _ => ⟨fun h => h hraw, fun h _ => h⟩

theorem currentOk_dontCare_iff {source : List UInt8} {state : SparseState}
    (hcare : chunkType state.lastHeader = chunkTypeDontCare) :
    CurrentOk state source ↔ chunkTotalSz state.lastHeader = sizeofChunkHeader := by
  have hkinds : chunkTypeDontCare ≠ chunkTypeRaw := by decide
  simp only [CurrentOk, TotalOk, hcare, hkinds, false_and, false_or, true_and,
    IsEmpty.forall_iff, and_true]

/-- The data of a RAW chunk is taken out of the section, as far as it is there. -/
theorem readRaw_dropped {source : List UInt8} {state : SparseState}
    (hraw : chunkType state.lastHeader = chunkTypeRaw)
    (hmissing : state.missingBytes ≤ state.chunkAvlSize source) (w : W) :
    (readRaw WRITE source state w).source = source.drop (currentData state) := by
  rw [readRaw_source WRITE hmissing, currentData, if_pos hraw, chunkAvlSize_eq]
  rcases Nat.le_total state.chunkRemSize source.length with hle | hle
  · rw [Nat.min_eq_left hle]
  · rw [Nat.min_eq_right hle, List.drop_length, List.drop_of_length_le hle]

/-- A pass over a chunk whose header has been read waits for the data, refuses the chunk,
or takes what there is of it. -/
theorem unsparseProcessChunk_complete (source : List UInt8) {state : SparseState}
    (hoff : sizeofChunkHeader ≤ state.chunkOffset) (w : W) :
    (chunkType state.lastHeader = chunkTypeRaw ∧ source = [] ∧
        unsparseProcessChunk WRITE source state w = ⟨0, source, state, w⟩) ∨
      (¬ (chunkType state.lastHeader = chunkTypeRaw ∧ source = []) ∧
        ¬ CurrentOk state source ∧
        (unsparseProcessChunk WRITE source state w).ret = 1 ∧
        (unsparseProcessChunk WRITE source state w).world = w) ∨
      (CurrentOk state source ∧
        (unsparseProcessChunk WRITE source state w).ret = 0 ∧
        (unsparseProcessChunk WRITE source state w).source =
          source.drop (currentData state) ∧
        ((unsparseProcessChunk WRITE source state w).source ≠ [] →
          Between state (state.sector +
            if chunkType state.lastHeader = chunkTypeRaw then
              currentSectors state source
            else state.chunkSize / 512)
            (unsparseProcessChunk WRITE source state w).state) ∧
        (unsparseProcessChunk WRITE source state w).world =
          if chunkType state.lastHeader = chunkTypeRaw then
            (readRaw WRITE source state w).world
          else w) := by
  unfold unsparseProcessChunk
  simp only [readChunkHeader_of_complete hoff, if_neg (not_lt.mpr hoff)]
  by_cases hraw : chunkType state.lastHeader = chunkTypeRaw
  · simp only [if_pos hraw]
    have hcurrent := @currentOk_raw_iff source state hraw
    by_cases hnil : source = []
    · left
      exact ⟨hraw, hnil, if_pos hnil⟩
    right
    by_cases hok : CurrentOk state source
    · right
      obtain ⟨heq, hmissing⟩ := hcurrent.mp hok
      have hpass : processRaw WRITE source state w = readRaw WRITE source state w := by
        rw [processRaw, if_neg hnil, if_neg (not_not.mpr heq),
          if_neg (not_lt.mpr hmissing)]
      have hsource := readRaw_dropped WRITE hraw hmissing w
      rw [hpass]
      refine ⟨hok, readRaw_ret .., hsource, fun hne => ?_, rfl⟩
      have hend : state.chunkRemSize ≤ source.length := by
        by_contra hlt
        rw [hsource, currentData, if_pos hraw] at hne
        exact hne (List.drop_of_length_le (by omega))
      obtain ⟨-, hblock, hoffset, hsector⟩ := readRaw_state WRITE source state w
      refine ⟨by rw [hoffset, if_pos hend], ?_, hblock, ?_⟩
      · rw [readRaw_remainingChunks, if_pos hend]
      · rw [hsector, chunkAvlSize_eq, currentSectors, Nat.add_assoc]
    · left
      refine ⟨fun h => hnil h.2, hok, ?_⟩
      rcases processRaw_cases WRITE source state w with
        ⟨h, -⟩ | ⟨-, heq⟩ | ⟨-, htot, hmissing, -⟩
      · exact absurd h hnil
      · rw [heq]
        exact ⟨rfl, rfl⟩
      · exact absurd (hcurrent.mpr ⟨htot, hmissing⟩) hok
  · right
    simp only [hraw, false_and, not_false_eq_true, true_and, if_false]
    by_cases hcare : chunkType state.lastHeader = chunkTypeDontCare
    · simp only [if_pos hcare]
      have hcurrent := @currentOk_dontCare_iff source state hcare
      rw [processDontCare]
      by_cases hok : CurrentOk state source
      · right
        rw [if_neg (not_not.mpr (hcurrent.mp hok)), currentData, if_neg hraw]
        exact ⟨hok, rfl, rfl, fun _ => ⟨rfl, rfl, rfl, rfl⟩, rfl⟩
      · left
        rw [if_pos fun h => hok (hcurrent.mpr h)]
        exact ⟨hok, rfl, rfl⟩
    · left
      rw [if_neg hcare]
      refine ⟨fun h => ?_, rfl, rfl⟩
      rcases h.1 with ⟨hkind, -⟩ | ⟨hkind, -⟩
      · exact hraw hkind
      · exact hcare hkind

/-- What reading a header leaves, as far as the pass needs it. -/
theorem readChunkHeader_withHeld (source : List UInt8) {state : SparseState}
    (hoff : state.chunkOffset < sizeofChunkHeader) :
    (readChunkHeader source state).1 =
        (withHeld state source).drop sizeofChunkHeader ∧
      (readChunkHeader source state).2.chunkOffset =
        min (withHeld state source).length sizeofChunkHeader ∧
      (readChunkHeader source state).2.sector = state.sector ∧
      (readChunkHeader source state).2.blockSize = state.blockSize ∧
      (readChunkHeader source state).2.slotNo = state.slotNo ∧
      (sizeofChunkHeader ≤ (withHeld state source).length →
        ∀ k < sizeofChunkHeader,
          (readChunkHeader source state).2.lastHeader k =
            sectionPtr (withHeld state source) k) := by
  have hlen : (withHeld state source).length = state.chunkOffset + source.length := by
    rw [withHeld, List.length_append, Memory.read_length]
  have hheld : (state.lastHeader.read 0 state.chunkOffset).length = state.chunkOffset :=
    Memory.read_length ..
  rw [readChunkHeader, if_pos hoff, hlen]
  refine ⟨?_, by dsimp only; omega, rfl, rfl, rfl, ?_⟩
  · dsimp only
    have hfront : (state.lastHeader.read 0 state.chunkOffset).drop sizeofChunkHeader = [] :=
      List.drop_of_length_le (by rw [hheld]; omega)
    rw [withHeld, List.drop_append, hheld, hfront, List.nil_append]
    rcases Nat.le_total source.length (sizeofChunkHeader - state.chunkOffset) with hle | hle
    · rw [Nat.min_eq_left hle, List.drop_length, List.drop_of_length_le hle]
    · rw [Nat.min_eq_right hle]
  · intro hfull k hk
    dsimp only
    rw [sectionPtr, Memory.ofList, withHeld]
    rcases Nat.lt_or_ge k state.chunkOffset with hlt | hge
    · rw [Memory.copyIn_of_lt _ hlt, List.getD_append _ _ _ _ (by rwa [hheld]),
        List.getD_eq_getElem _ _ (by rwa [hheld]), Memory.read_getElem, Nat.zero_add]
    · obtain ⟨j, rfl⟩ := Nat.exists_eq_add_of_le hge
      have hin : j < (source.take (min source.length
          (sizeofChunkHeader - state.chunkOffset))).length := by
        rw [List.length_take]
        omega
      rw [Memory.copyIn_add hin, List.getElem_take,
        List.getD_append_right _ _ _ _ (by rw [hheld]; omega), hheld,
        Nat.add_sub_cancel_left, List.getD_eq_getElem]

/-- The write of a pass that has no sector to fill. -/
theorem readRaw_world_of_zero {source : List UInt8} {state : SparseState}
    (h : state.missingBytes = 0) (w : W) :
    (readRaw WRITE source state w).world =
      WRITE state.slotNo (sectionPtr source) state.sector
        (min state.chunkRemSize source.length / 512 * 512) w := by
  have hfill : fillSector WRITE source state w = (source, state, w) := if_pos h
  by_cases hend : state.chunkRemSize ≤ source.length
  · simp only [readRaw, hfill, if_pos hend, h, chunkAvlSize_eq, Nat.sub_zero]
  · simp only [readRaw, hfill, if_neg hend, h, chunkAvlSize_eq, Nat.sub_zero]

/-- The sizes of a chunk of which only the header has been read. -/
theorem sizes_of_header {state : SparseState} (h : state.chunkOffset = sizeofChunkHeader) :
    state.missingBytes = 0 ∧ state.chunkRemSize = state.chunkSize := by
  have hlt : state.chunkSize < 2 ^ 32 := Nat.mod_lt _ (by decide)
  have hcur : state.chunkCurSize = 0 := by
    rw [SparseState.chunkCurSize, h, Nat.sub_self]
  constructor
  · rw [SparseState.missingBytes, hcur, if_pos (Nat.zero_mod _)]
  · rw [SparseState.chunkRemSize, hcur, Nat.sub_zero, Nat.add_mod_right,
      Nat.mod_eq_of_lt hlt]

/-- A chunk of which only the header has been read. -/
structure FreshChunk (blockSize : ℕ) (header : Memory UInt8) (state : SparseState)
    (source : List UInt8) : Prop where
  type : chunkType state.lastHeader = chunkType header
  missing : state.missingBytes = 0
  size : state.chunkSize = chunkOutput blockSize header
  rem : state.chunkRemSize = chunkOutput blockSize header
  ok : CurrentOk state source ↔ TotalOk blockSize header
  data : currentData state = chunkData blockSize header

/-- The fields of a header that is read are those of the bytes it is read from. -/
theorem freshChunk_of_cells {blockSize : ℕ} {header : Memory UInt8} {state : SparseState}
    (source : List UInt8) (hoff : state.chunkOffset = sizeofChunkHeader)
    (hblock : state.blockSize = blockSize)
    (hcells : ∀ k < sizeofChunkHeader, state.lastHeader k = header k) :
    FreshChunk blockSize header state source := by
  have htype : chunkType state.lastHeader = chunkType header :=
    le16_congr fun k _ hk => hcells k (hk.trans (by decide))
  have hsize : chunkSz state.lastHeader = chunkSz header :=
    le32_congr fun k _ hk => hcells k (hk.trans (by decide))
  have htotal : chunkTotalSz state.lastHeader = chunkTotalSz header :=
    le32_congr fun k _ hk => hcells k (hk.trans_le (by decide))
  have hout : state.chunkSize = chunkOutput blockSize header := by
    rw [SparseState.chunkSize, hsize, hblock]
    rfl
  obtain ⟨hmissing, hrem⟩ := sizes_of_header hoff
  have htotalOk : TotalOk state.blockSize state.lastHeader ↔
      TotalOk blockSize header := by
    unfold TotalOk chunkOutput
    rw [htype, htotal, hsize, hblock]
  refine ⟨htype, hmissing, hout, hrem.trans hout, ?_, ?_⟩
  · rw [CurrentOk, htotalOk, hmissing]
    exact and_iff_left fun _ => Nat.zero_le _
  · rw [currentData, chunkData, htype, hrem, hout]

/-- What a pass makes of a chunk whose header has not been read yet, or in part. -/
theorem unsparseProcessChunk_header {source : List UInt8} {state : SparseState}
    (hoff : state.chunkOffset < sizeofChunkHeader) (w : W) {bytes : List UInt8}
    (hbytes : withHeld state source = bytes) :
    ((bytes.length < sizeofChunkHeader ∨
          chunkType (sectionPtr bytes) = chunkTypeRaw ∧
            bytes.length = sizeofChunkHeader) ∧
        (unsparseProcessChunk WRITE source state w).ret = 0 ∧
        (unsparseProcessChunk WRITE source state w).source = [] ∧
        (unsparseProcessChunk WRITE source state w).world = w) ∨
      (sizeofChunkHeader ≤ bytes.length ∧
        ¬ (chunkType (sectionPtr bytes) = chunkTypeRaw ∧
          bytes.length = sizeofChunkHeader) ∧
        ¬ TotalOk state.blockSize (sectionPtr bytes) ∧
        (unsparseProcessChunk WRITE source state w).ret = 1 ∧
        (unsparseProcessChunk WRITE source state w).world = w) ∨
      (sizeofChunkHeader ≤ bytes.length ∧
        TotalOk state.blockSize (sectionPtr bytes) ∧
        (unsparseProcessChunk WRITE source state w).ret = 0 ∧
        (unsparseProcessChunk WRITE source state w).source =
          bytes.drop (sizeofChunkHeader +
            chunkData state.blockSize (sectionPtr bytes)) ∧
        ((unsparseProcessChunk WRITE source state w).source ≠ [] →
          Between state (state.sector +
            chunkOutput state.blockSize (sectionPtr bytes) / 512)
            (unsparseProcessChunk WRITE source state w).state) ∧
        (unsparseProcessChunk WRITE source state w).world =
          if chunkType (sectionPtr bytes) = chunkTypeRaw then
            WRITE state.slotNo (sectionPtr (bytes.drop sizeofChunkHeader)) state.sector
              (min (chunkOutput state.blockSize (sectionPtr bytes))
                (bytes.length - sizeofChunkHeader) / 512 * 512) w
          else w) := by
  obtain ⟨hrest, hnext, hsector, hblock, hslot, hheader⟩ :=
    readChunkHeader_withHeld source hoff
  rw [hbytes] at hrest hnext hheader
  have hremaining := readChunkHeader_remainingChunks source state
  rcases Nat.lt_or_ge bytes.length sizeofChunkHeader with hshort | hfull
  · have hpass : unsparseProcessChunk WRITE source state w =
        ⟨0, (readChunkHeader source state).1, (readChunkHeader source state).2, w⟩ := by
      have hshort' : (readChunkHeader source state).2.chunkOffset < sizeofChunkHeader := by
        rw [hnext]
        omega
      unfold unsparseProcessChunk
      dsimp only
      rw [if_pos hshort']
    left
    rw [hpass, hrest]
    exact ⟨Or.inl hshort, rfl, List.drop_of_length_le hshort.le, rfl⟩
  · have hread : unsparseProcessChunk WRITE source state w =
        unsparseProcessChunk WRITE (readChunkHeader source state).1
          (readChunkHeader source state).2 w := by
      have hcomplete : readChunkHeader (readChunkHeader source state).1
          (readChunkHeader source state).2 = readChunkHeader source state :=
        readChunkHeader_of_complete (by rw [hnext]; omega)
      unfold unsparseProcessChunk
      rw [hcomplete]
    have hcells := hheader hfull
    generalize readChunkHeader source state = read at *
    obtain ⟨rest, st⟩ := read
    dsimp only at hrest hnext hsector hblock hslot hcells hremaining hread
    have hoffset : st.chunkOffset = sizeofChunkHeader := by omega
    obtain ⟨htype, hmissing, hout, hrem, hcurrent, hdata⟩ :=
      freshChunk_of_cells rest hoffset hblock hcells
    have hnil : rest = [] ↔ bytes.length = sizeofChunkHeader := by
      rw [hrest, List.drop_eq_nil_iff]
      omega
    rw [hread]
    rcases unsparseProcessChunk_complete WRITE rest hoffset.ge w with
      ⟨hraw, hempty, hpass⟩ | ⟨hnot, hbad, hret, hworld⟩ |
        ⟨hok, hret, hsource, hbetween, hworld⟩
    · left
      rw [hpass]
      exact ⟨Or.inr ⟨htype ▸ hraw, hnil.mp hempty⟩, rfl, hempty, rfl⟩
    · right; left
      rw [htype, hnil] at hnot
      exact ⟨hfull, hnot, fun h => hbad (hcurrent.mpr h), hret, hworld⟩
    · right; right
      have hdrop : rest.drop (currentData st) = bytes.drop (sizeofChunkHeader +
          chunkData state.blockSize (sectionPtr bytes)) := by
        rw [hdata, hrest, List.drop_drop]
      rw [hdrop] at hsource
      refine ⟨hfull, hcurrent.mp hok, hret, hsource, fun hne => ?_, ?_⟩
      · obtain ⟨hoff', hrem', hblock', hsector'⟩ := hbetween hne
        refine ⟨hoff', by rw [hrem', hremaining], by rw [hblock', hblock], ?_⟩
        rw [hsector', hsector, ← hout]
        split
        · rename_i hraw
          rw [hsource, ne_eq, List.drop_eq_nil_iff, chunkData,
            if_pos (htype ▸ hraw)] at hne
          have hrestlen : rest.length = bytes.length - sizeofChunkHeader := by
            rw [hrest, List.length_drop]
          rw [currentSectors, hmissing, if_pos rfl, hrem, hrestlen,
            Nat.min_eq_left (by omega), Nat.sub_zero, Nat.zero_add, hout]
        · rfl
      · rw [hworld, htype]
        split
        · have hrestlen : rest.length = bytes.length - sizeofChunkHeader := by
            rw [hrest, List.length_drop]
          rw [readRaw_world_of_zero WRITE hmissing, hslot, hsector, hrem, hrestlen, hrest]
        · rfl

end OnePass

/-! ### A whole section -/

section WholeSection

variable {W : Type*} (WRITE : Writer W) {source : List UInt8} {state : SparseState}

@[simp] theorem headersOk_nil (blkSz n : ℕ) : HeadersOk blkSz n [] := by
  cases n with
  | zero => trivial
  | succ n => exact Or.inl (by decide)

theorem Between.withHeld {next : ℕ} {st : SparseState} (h : Between state next st)
    (source : List UInt8) : withHeld st source = source := by
  rw [Sparse.withHeld, h.chunkOffset]
  rfl

/-- From a chunk header on, the loop fails exactly at a header that is wrong. -/
theorem unsparseLoop_headers (hoff : state.chunkOffset < sizeofChunkHeader) (w : W)
    {n : ℕ} (hn : state.remainingChunks = n) :
    (unsparseLoop WRITE source state w).ret = 0 ↔
      HeadersOk state.blockSize n (withHeld state source) := by
  induction n generalizing source state w with
  | zero =>
      rw [unsparseLoop_of_done WRITE fun h => h.1 hn]
      exact ⟨fun _ => trivial, fun _ => rfl⟩
  | succ n ih =>
      by_cases hnil : source = []
      · have hshort : (withHeld state source).length < sizeofChunkHeader := by
          rw [withHeld, hnil, List.append_nil, Memory.read_length]
          exact hoff
        rw [unsparseLoop_of_done WRITE fun h => h.2 hnil]
        exact ⟨fun _ => Or.inl hshort, fun _ => rfl⟩
      · have hmore : state.remainingChunks ≠ 0 ∧ source ≠ [] :=
          ⟨by rw [hn]; exact Nat.succ_ne_zero n, hnil⟩
        generalize hbytes : withHeld state source = bytes
        rcases unsparseProcessChunk_header WRITE hoff w hbytes with
          ⟨hwaits, hret, hsource, -⟩ | ⟨hfull, hnot, hbad, hret, -⟩ |
            ⟨hfull, hok, hret, hsource, hbetween, -⟩
        · rw [unsparseLoop_of_ok WRITE hmore hret, hsource,
            unsparseLoop_of_done WRITE fun h => h.2 rfl]
          refine ⟨fun _ => ?_, fun _ => rfl⟩
          exact hwaits.imp_right Or.inl
        · rw [unsparseLoop_of_failed WRITE hmore (by rw [hret]; decide), hret]
          refine ⟨fun h => absurd h (by decide), fun h => ?_⟩
          rcases h with hshort | hraw | ⟨hok, -⟩
          · omega
          · exact absurd hraw hnot
          · exact absurd hok hbad
        · have hrest : HeadersOk state.blockSize (n + 1) bytes ↔
              HeadersOk state.blockSize n (bytes.drop (sizeofChunkHeader +
                chunkData state.blockSize (sectionPtr bytes))) := by
            refine ⟨fun h => ?_, fun h => Or.inr (Or.inr ⟨hok, h⟩)⟩
            rcases h with hshort | ⟨-, hend⟩ | ⟨-, h⟩
            · omega
            · rw [List.drop_of_length_le (by omega)]
              exact headersOk_nil _ _
            · exact h
          rw [unsparseLoop_of_ok WRITE hmore hret, hrest, ← hsource]
          by_cases hdone : (unsparseProcessChunk WRITE source state w).source = []
          · rw [unsparseLoop_of_done WRITE fun h => h.2 hdone, hdone]
            exact ⟨fun _ => headersOk_nil _ _, fun _ => rfl⟩
          · have hnext := hbetween hdone
            have hzero : (unsparseProcessChunk WRITE source state w).state.chunkOffset <
                sizeofChunkHeader := by
              rw [hnext.chunkOffset]
              decide
            rw [ih hzero _ (by rw [hnext.remainingChunks, hn]; rfl), hnext.blockSize,
              hnext.withHeld]

theorem unsparseReadHeader_eq (source : List UInt8) (state : SparseState) :
    unsparseReadHeader source state =
      if FileHeaderOk source then
        some (source.drop sizeofSparseHeader,
          { state with
            remainingChunks := headerTotalChunks (sectionPtr source)
            chunkOffset := 0
            blockSize := headerBlkSz (sectionPtr source) })
      else none := by
  unfold unsparseReadHeader
  dsimp only
  by_cases hlen : source.length < sizeofSparseHeader
  · rw [if_pos hlen, if_neg fun h => absurd h.1 (not_le.mpr hlen)]
  rw [if_neg hlen]
  by_cases hmagic : headerMagic (sectionPtr source) ≠ sparseHeaderMagic
  · rw [if_pos hmagic, if_neg fun h => hmagic h.2.1]
  rw [if_neg hmagic]
  by_cases hformat : headerMajorVersion (sectionPtr source) ≠ sparseHeaderMajorVer ∨
      headerFileHdrSz (sectionPtr source) ≠ sizeofSparseHeader ∨
      headerChunkHdrSz (sectionPtr source) ≠ sizeofChunkHeader
  · rw [if_pos hformat, if_neg]
    rintro ⟨-, -, hmajor, hfile, hchunk⟩
    rcases hformat with h | h | h
    exacts [h hmajor, h hfile, h hchunk]
  · rw [if_neg hformat, if_pos]
    simp only [not_or, not_ne_iff] at hformat
    exact ⟨not_lt.mp hlen, not_ne_iff.mp hmagic, hformat.1, hformat.2.1, hformat.2.2⟩

/-- `_unsparse` succeeds exactly on the sections it accepts. -/
theorem unsparse_ret_iff (source : List UInt8) (state : SparseState) (w : W) :
    (unsparse WRITE source state w).ret = 0 ↔ SectionOk source state := by
  unfold unsparse SectionOk
  by_cases hfresh : state.remainingChunks = 0
  · rw [if_pos hfresh, if_pos hfresh, unsparseReadHeader_eq]
    by_cases hheader : FileHeaderOk source
    · rw [if_pos hheader]
      dsimp only
      rw [unsparseLoop_headers WRITE (Nat.zero_lt_succ _) w rfl]
      exact ⟨fun h => ⟨hheader, h⟩, fun h => h.2⟩
    · rw [if_neg hheader]
      exact ⟨fun h => absurd h one_ne_zero, fun h => absurd h.1 hheader⟩
  · rw [if_neg hfresh, if_neg hfresh]
    by_cases hoff : state.chunkOffset < sizeofChunkHeader
    · rw [if_pos hoff, unsparseLoop_headers WRITE hoff w rfl]
    · rw [if_neg hoff]
      by_cases hnil : source = []
      · rw [unsparseLoop_of_done WRITE fun h => h.2 hnil]
        exact ⟨fun _ => Or.inl hnil, fun _ => rfl⟩
      · rcases unsparseProcessChunk_complete WRITE source (not_lt.mp hoff) w with
          ⟨-, hempty, -⟩ | ⟨-, hbad, hret, -⟩ | ⟨hok, hret, hsource, hbetween, -⟩
        · exact absurd hempty hnil
        · rw [unsparseLoop_of_failed WRITE ⟨hfresh, hnil⟩ (by rw [hret]; decide), hret]
          simp only [one_ne_zero, hnil, hbad, false_and, or_self]
        · rw [unsparseLoop_of_ok WRITE ⟨hfresh, hnil⟩ hret]
          simp only [hnil, hok, true_and, false_or, ← hsource]
          by_cases hdone : (unsparseProcessChunk WRITE source state w).source = []
          · rw [unsparseLoop_of_done WRITE fun h => h.2 hdone, hdone]
            exact ⟨fun _ => headersOk_nil _ _, fun _ => rfl⟩
          · have hnext := hbetween hdone
            have hzero : (unsparseProcessChunk WRITE source state w).state.chunkOffset <
                sizeofChunkHeader := by
              rw [hnext.chunkOffset]
              decide
            rw [unsparseLoop_headers WRITE hzero _ hnext.remainingChunks, hnext.blockSize,
              hnext.withHeld]

end WholeSection

/-! ### The sectors of a section -/

instance (state : SparseState) (source : List UInt8) : Decidable (CurrentOk state source) :=
  inferInstanceAs (Decidable (_ ∧ (_ → _)))

/-- The sectors that the data of the next `n` chunks cover, from the front of `bytes` on:
for each `RAW` chunk that is not refused its first sector, and how many whole sectors of
it there are.  A chunk of any kind moves the sector on by its size. -/
def headerSectors (blkSz : ℕ) : ℕ → ℕ → List UInt8 → List (ℕ × ℕ)
  | 0, _, _ => []
  | n + 1, sector, bytes =>
      if sizeofChunkHeader ≤ bytes.length ∧ TotalOk blkSz (sectionPtr bytes) then
        (if chunkType (sectionPtr bytes) = chunkTypeRaw then
          [(sector, min (chunkOutput blkSz (sectionPtr bytes))
            (bytes.length - sizeofChunkHeader) / 512)]
        else []) ++
        headerSectors blkSz n
          ((sector + chunkOutput blkSz (sectionPtr bytes) / 512) % 2 ^ 32)
          (bytes.drop (sizeofChunkHeader + chunkData blkSz (sectionPtr bytes)))
      else []

/-- The sectors that a section covers, with the rest of the current chunk first. -/
def sectionSectors (source : List UInt8) (state : SparseState) : List (ℕ × ℕ) :=
  if state.remainingChunks = 0 then
    if FileHeaderOk source then
      headerSectors (headerBlkSz (sectionPtr source))
        (headerTotalChunks (sectionPtr source)) state.sector
        (source.drop sizeofSparseHeader)
    else []
  else if state.chunkOffset < sizeofChunkHeader then
    headerSectors state.blockSize state.remainingChunks state.sector
      (withHeld state source)
  else if source ≠ [] ∧ CurrentOk state source then
    (if chunkType state.lastHeader = chunkTypeRaw then
      [(state.sector, currentSectors state source)]
    else []) ++
    headerSectors state.blockSize (state.remainingChunks - 1)
      ((state.sector + if chunkType state.lastHeader = chunkTypeRaw then
          currentSectors state source
        else state.chunkSize / 512) % 2 ^ 32)
      (source.drop (currentData state))
  else []

/-- The sectors of a call, if there are any, are among those listed. -/
def WriteCall.Covered (c : WriteCall) (sectors : List (ℕ × ℕ)) : Prop :=
  Mmc.numSecVal c.len ≠ 0 → ∃ x ∈ sectors, x.1 ≤ c.sector ∧
    c.sector + Mmc.numSecVal c.len ≤ x.1 + x.2

theorem WriteCall.Covered.append_left {c : WriteCall} {xs : List (ℕ × ℕ)}
    (h : c.Covered xs) (ys : List (ℕ × ℕ)) : c.Covered (xs ++ ys) := by
  intro hne
  obtain ⟨x, hx, hin⟩ := h hne
  exact ⟨x, List.mem_append_left ys hx, hin⟩

theorem WriteCall.Covered.append_right {c : WriteCall} {ys : List (ℕ × ℕ)}
    (h : c.Covered ys) (xs : List (ℕ × ℕ)) : c.Covered (xs ++ ys) := by
  intro hne
  obtain ⟨x, hx, hin⟩ := h hne
  exact ⟨x, List.mem_append_right xs hx, hin⟩

theorem numSecVal_sectors {n : ℕ} (h : n < 2 ^ 32) :
    Mmc.numSecVal (n / 512 * 512) = n / 512 := by
  unfold Mmc.numSecVal Mmc.mmcsdSectorSize
  omega

theorem mem_recordCall {c : WriteCall} {slot : Mmc.Slot} {src : Pointer}
    {sector len : ℕ} {calls : List WriteCall}
    (hc : c ∈ recordCall slot src sector len calls) :
    c ∈ calls ∨ c = ⟨slot, src, sector, len⟩ := by
  rcases List.mem_append.mp hc with hc | hc
  · exact Or.inl hc
  · exact Or.inr (List.mem_singleton.mp hc)

section Covered

variable {source : List UInt8} {state : SparseState} {calls : List WriteCall}
  {c : WriteCall}

/-- The last call of a pass over `RAW` data. -/
theorem readRaw_world (src : List UInt8) (st : SparseState)
    (calls : List WriteCall) :
    (readRaw recordCall src st calls).world =
      recordCall (fillSector recordCall src st calls).2.1.slotNo
        (sectionPtr (fillSector recordCall src st calls).1)
        (fillSector recordCall src st calls).2.1.sector
        ((st.chunkAvlSize src - st.missingBytes) / 512 * 512)
        (fillSector recordCall src st calls).2.2 := by
  by_cases hend : st.chunkRemSize ≤ src.length
  · simp only [readRaw, if_pos hend]
  · simp only [readRaw, if_neg hend]

/-- The calls of a pass over the data of the current chunk. -/
theorem readRaw_covered (hfit : currentSectors state source ≠ 0 →
      state.sector + currentSectors state source ≤ 2 ^ 32)
    (hc : c ∈ (readRaw recordCall source state calls).world) :
    c ∈ calls ∨ c.Covered [(state.sector, currentSectors state source)] := by
  have hlt : state.chunkRemSize < 2 ^ 32 := Nat.mod_lt _ (by decide)
  have hone : Mmc.numSecVal 512 = 1 := by decide
  have hwhole : Mmc.numSecVal ((state.chunkAvlSize source - state.missingBytes) / 512 *
      512) = (state.chunkAvlSize source - state.missingBytes) / 512 :=
    numSecVal_sectors (by rw [chunkAvlSize_eq]; omega)
  have hcount : currentSectors state source =
      (if state.missingBytes = 0 then 0 else 1) +
        (state.chunkAvlSize source - state.missingBytes) / 512 := by
    rw [currentSectors, chunkAvlSize_eq]
  rw [readRaw_world] at hc
  rcases mem_recordCall hc with hc | rfl
  · unfold fillSector at hc
    dsimp only at hc
    split at hc
    · exact Or.inl hc
    · rename_i hmissing
      rw [if_neg hmissing] at hcount
      rcases mem_recordCall hc with hc | rfl
      · exact Or.inl hc
      · right
        intro _
        refine ⟨_, List.mem_singleton_self _, le_rfl, ?_⟩
        dsimp only
        omega
  · right
    intro hne
    dsimp only at hne ⊢
    refine ⟨_, List.mem_singleton_self _, ?_⟩
    dsimp only
    rw [hwhole] at hne ⊢
    unfold fillSector
    dsimp only
    split
    · rename_i hmissing
      rw [if_pos hmissing] at hcount
      dsimp only
      exact ⟨le_rfl, by omega⟩
    · rename_i hmissing
      rw [if_neg hmissing] at hcount
      have hnext : (state.sector + 1) % 2 ^ 32 = state.sector + 1 :=
        Nat.mod_eq_of_lt (by omega)
      simp only [SparseState.advance, hnext]
      exact ⟨Nat.le_succ _, by omega⟩

/-- From a chunk header on, the calls of the loop are for the sectors that the headers
say. -/
theorem unsparseLoop_covered (hoff : state.chunkOffset < sizeofChunkHeader) {n : ℕ}
    (hn : state.remainingChunks = n)
    (hc : c ∈ (unsparseLoop recordCall source state calls).world) :
    c ∈ calls ∨
      c.Covered (headerSectors state.blockSize n state.sector (withHeld state source)) := by
  induction n generalizing source state calls with
  | zero =>
      rw [unsparseLoop_of_done recordCall fun h => h.1 hn] at hc
      exact Or.inl hc
  | succ n ih =>
      by_cases hnil : source = []
      · rw [unsparseLoop_of_done recordCall fun h => h.2 hnil] at hc
        exact Or.inl hc
      · have hmore : state.remainingChunks ≠ 0 ∧ source ≠ [] :=
          ⟨by rw [hn]; exact Nat.succ_ne_zero n, hnil⟩
        generalize hbytes : withHeld state source = bytes
        rcases unsparseProcessChunk_header recordCall hoff calls hbytes with
          ⟨-, hret, hsource, hworld⟩ | ⟨-, -, -, hret, hworld⟩ |
            ⟨hfull, hok, hret, hsource, hbetween, hworld⟩
        · rw [unsparseLoop_of_ok recordCall hmore hret, hsource,
            unsparseLoop_of_done recordCall fun h => h.2 rfl, hworld] at hc
          exact Or.inl hc
        · rw [unsparseLoop_of_failed recordCall hmore (by rw [hret]; decide),
            hworld] at hc
          exact Or.inl hc
        · rw [headerSectors, if_pos ⟨hfull, hok⟩]
          -- The call of this pass, or one of a later pass.
          have hlater : c ∈ (unsparseProcessChunk recordCall source state calls).world ∨
              c.Covered (headerSectors state.blockSize n
                ((state.sector + chunkOutput state.blockSize (sectionPtr bytes) / 512) %
                  2 ^ 32)
                (bytes.drop (sizeofChunkHeader +
                  chunkData state.blockSize (sectionPtr bytes)))) := by
            rw [unsparseLoop_of_ok recordCall hmore hret] at hc
            by_cases hdone :
                (unsparseProcessChunk recordCall source state calls).source = []
            · rw [unsparseLoop_of_done recordCall fun h => h.2 hdone] at hc
              exact Or.inl hc
            · have hnext := hbetween hdone
              have hzero : (unsparseProcessChunk recordCall source state
                  calls).state.chunkOffset < sizeofChunkHeader := by
                rw [hnext.chunkOffset]
                decide
              have hrest := ih hzero (by rw [hnext.remainingChunks, hn]; rfl) hc
              rwa [hnext.blockSize, hnext.withHeld, hnext.sector, hsource] at hrest
          rcases hlater with hthis | hlater
          · rw [hworld] at hthis
            split at hthis
            · rename_i hraw
              rw [if_pos hraw]
              rcases mem_recordCall hthis with hthis | rfl
              · exact Or.inl hthis
              · right
                refine WriteCall.Covered.append_left ?_ _
                intro _
                have hlt : chunkOutput state.blockSize (sectionPtr bytes) < 2 ^ 32 :=
                  Nat.mod_lt _ (by decide)
                refine ⟨_, List.mem_singleton_self _, le_rfl, ?_⟩
                dsimp only
                rw [numSecVal_sectors (by omega)]
            · exact Or.inl hthis
          · exact Or.inr (hlater.append_right _)

/-- The calls of an expansion are for the sectors that the headers of the section say, as
long as the numbers of these do not overflow. -/
theorem expansionCalls_covered
    (hfit : ∀ x ∈ sectionSectors source state, x.2 ≠ 0 → x.1 + x.2 ≤ 2 ^ 32)
    (hc : c ∈ expansionCalls source state) :
    c.Covered (sectionSectors source state) := by
  unfold expansionCalls unsparse at hc
  unfold sectionSectors at hfit ⊢
  have hnew : ∀ {xs}, c ∈ ([] : List WriteCall) ∨ c.Covered xs → c.Covered xs :=
    fun h => h.resolve_left List.not_mem_nil
  by_cases hfresh : state.remainingChunks = 0
  · rw [if_pos hfresh, unsparseReadHeader_eq] at hc
    rw [if_pos hfresh]
    by_cases hheader : FileHeaderOk source
    · rw [if_pos hheader] at hc ⊢
      exact hnew (unsparseLoop_covered (Nat.zero_lt_succ _) rfl hc)
    · rw [if_neg hheader] at hc
      exact absurd hc List.not_mem_nil
  · rw [if_neg hfresh] at hc hfit ⊢
    by_cases hoff : state.chunkOffset < sizeofChunkHeader
    · rw [if_pos hoff]
      exact hnew (unsparseLoop_covered hoff rfl hc)
    · rw [if_neg hoff] at hfit ⊢
      by_cases hnil : source = []
      · rw [unsparseLoop_of_done recordCall fun h => h.2 hnil] at hc
        exact absurd hc List.not_mem_nil
      · have hmore : state.remainingChunks ≠ 0 ∧ source ≠ [] := ⟨hfresh, hnil⟩
        rcases unsparseProcessChunk_complete recordCall source (not_lt.mp hoff) [] with
          ⟨-, hempty, -⟩ | ⟨-, hbad, hret, hworld⟩ |
            ⟨hok, hret, hsource, hbetween, hworld⟩
        · exact absurd hempty hnil
        · rw [unsparseLoop_of_failed recordCall hmore (by rw [hret]; decide), hworld] at hc
          exact absurd hc List.not_mem_nil
        · rw [if_pos ⟨hnil, hok⟩] at hfit ⊢
          rw [unsparseLoop_of_ok recordCall hmore hret] at hc
          have hlater : c ∈ (unsparseProcessChunk recordCall source state []).world ∨
              c.Covered (headerSectors state.blockSize (state.remainingChunks - 1)
                ((state.sector + if chunkType state.lastHeader = chunkTypeRaw then
                    currentSectors state source
                  else state.chunkSize / 512) % 2 ^ 32)
                (source.drop (currentData state))) := by
            by_cases hdone :
                (unsparseProcessChunk recordCall source state []).source = []
            · rw [unsparseLoop_of_done recordCall fun h => h.2 hdone] at hc
              exact Or.inl hc
            · have hnext := hbetween hdone
              have hzero : (unsparseProcessChunk recordCall source state
                  []).state.chunkOffset < sizeofChunkHeader := by
                rw [hnext.chunkOffset]
                decide
              have hrest := unsparseLoop_covered hzero hnext.remainingChunks hc
              rwa [hnext.blockSize, hnext.withHeld, hnext.sector, hsource] at hrest
          rcases hlater with hthis | hlater
          · rw [hworld] at hthis
            split at hthis
            · rename_i hraw
              rw [if_pos hraw] at hfit ⊢
              have hfirst := hfit (state.sector, currentSectors state source)
                (List.mem_append_left _ (List.mem_singleton_self _))
              exact (hnew (readRaw_covered hfirst hthis)).append_left _
            · exact absurd hthis List.not_mem_nil
          · exact hlater.append_right _

end Covered

end TateFirmware.Sparse
