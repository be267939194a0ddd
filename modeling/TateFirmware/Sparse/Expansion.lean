import TateFirmware.Sparse.Expander
import TateFirmware.Mmc.Transfer

/-!
# Running the expander

The loop of `_unsparse` processes as many chunks as the section holds.  Every
pass either completes a chunk, which leaves one chunk fewer, or consumes part
of the section, so the loop ends after at most as many passes as there are
remaining chunks and section bytes together.
-/

namespace TateFirmware.Sparse

open Support

section Expander

variable {W : Type*} (WRITE : Writer W)

/-! ## What one pass does -/

theorem readChunkHeader_of_complete {source : List UInt8} {state : SparseState}
    (h : sizeofChunkHeader ≤ state.chunkOffset) :
    readChunkHeader source state = (source, state) := by
  rw [readChunkHeader, if_neg (not_lt.mpr h)]

@[simp] theorem readChunkHeader_remainingChunks (source : List UInt8)
    (state : SparseState) :
    (readChunkHeader source state).2.remainingChunks =
      state.remainingChunks := by
  unfold readChunkHeader
  split <;> rfl

theorem readChunkHeader_length (source : List UInt8) (state : SparseState) :
    (readChunkHeader source state).1.length =
      source.length - (sizeofChunkHeader - state.chunkOffset) := by
  unfold readChunkHeader
  split
  · simp only [List.length_drop]
    omega
  · dsimp only
    omega

/-- A header that is still incomplete has taken the whole section. -/
theorem readChunkHeader_incomplete (source : List UInt8) (state : SparseState)
    (h : (readChunkHeader source state).2.chunkOffset < sizeofChunkHeader) :
    (readChunkHeader source state).1 = [] := by
  unfold readChunkHeader at h ⊢
  split
  · rename_i hlt
    rw [if_pos hlt] at h
    dsimp only at h ⊢
    apply List.drop_eq_nil_of_le
    omega
  · rename_i hge
    rw [if_neg hge] at h
    exact absurd h hge

@[simp] theorem fillSector_source (source : List UInt8) (state : SparseState)
    (w : W) :
    (fillSector WRITE source state w).1 = source.drop state.missingBytes := by
  unfold fillSector
  dsimp only
  split
  · rename_i h
    simp [h]
  · rfl

@[simp] theorem fillSector_remainingChunks (source : List UInt8)
    (state : SparseState) (w : W) :
    (fillSector WRITE source state w).2.1.remainingChunks =
      state.remainingChunks := by
  unfold fillSector
  dsimp only
  split <;> rfl

@[simp] theorem readRaw_ret (source : List UInt8) (state : SparseState)
    (w : W) : (readRaw WRITE source state w).ret = 0 := by
  simp only [readRaw]
  split <;> rfl

/-- The chunk takes its share of the section and no more. -/
theorem readRaw_source {source : List UInt8} {state : SparseState} {w : W}
    (h : state.missingBytes ≤ state.chunkAvlSize source) :
    (readRaw WRITE source state w).source =
      source.drop (state.chunkAvlSize source) := by
  simp only [readRaw, fillSector_source]
  have hsum : state.missingBytes +
      (state.chunkAvlSize source - state.missingBytes) / 512 * 512 +
        (state.chunkAvlSize source - state.missingBytes -
          (state.chunkAvlSize source - state.missingBytes) / 512 * 512) =
      state.chunkAvlSize source := by omega
  split <;> simp only [List.drop_drop, hsum]

theorem readRaw_remainingChunks (source : List UInt8) (state : SparseState)
    (w : W) :
    (readRaw WRITE source state w).state.remainingChunks =
      if state.chunkRemSize ≤ source.length then state.remainingChunks - 1
      else state.remainingChunks := by
  have hfill := fillSector_remainingChunks WRITE source state w
  by_cases hend : state.chunkRemSize ≤ source.length
  · simp only [readRaw, SparseState.advance, SparseState.nextChunk, if_pos hend,
      hfill]
  · simp only [readRaw, SparseState.advance, if_neg hend, hfill]

theorem chunkAvlSize_le (state : SparseState) (source : List UInt8) :
    state.chunkAvlSize source ≤ source.length := by
  unfold SparseState.chunkAvlSize
  split <;> omega

/-- The ways a `CHUNK_TYPE_RAW` pass can go. -/
theorem processRaw_cases (source : List UInt8) (state : SparseState) (w : W) :
    (source = [] ∧ processRaw WRITE source state w = ⟨0, source, state, w⟩) ∨
      (source ≠ [] ∧ processRaw WRITE source state w = ⟨1, source, state, w⟩) ∨
      (source ≠ [] ∧
        chunkTotalSz state.lastHeader =
          (state.chunkSize + sizeofChunkHeader) % 2 ^ 32 ∧
        state.missingBytes ≤ state.chunkAvlSize source ∧
        processRaw WRITE source state w = readRaw WRITE source state w) := by
  unfold processRaw
  by_cases hnil : source = []
  · exact Or.inl ⟨hnil, if_pos hnil⟩
  · rw [if_neg hnil]
    by_cases htotal : chunkTotalSz state.lastHeader ≠
        (state.chunkSize + sizeofChunkHeader) % 2 ^ 32
    · exact Or.inr (Or.inl ⟨hnil, if_pos htotal⟩)
    · rw [if_neg htotal]
      by_cases hsmall : state.chunkAvlSize source < state.missingBytes
      · exact Or.inr (Or.inl ⟨hnil, if_pos hsmall⟩)
      · exact Or.inr (Or.inr ⟨hnil, not_not.mp htotal, not_lt.mp hsmall,
          if_neg hsmall⟩)

theorem processRaw_progress {source : List UInt8} {state : SparseState} {w : W}
    (hsource : source ≠ []) (hrem : state.remainingChunks ≠ 0)
    (hret : (processRaw WRITE source state w).ret = 0) :
    (processRaw WRITE source state w).state.remainingChunks +
        (processRaw WRITE source state w).source.length <
      state.remainingChunks + source.length := by
  rcases processRaw_cases WRITE source state w with
    ⟨hnil, _⟩ | ⟨_, heq⟩ | ⟨_, _, hmissing, heq⟩
  · exact absurd hnil hsource
  · rw [heq] at hret
    simp at hret
  · rw [heq, readRaw_source WRITE hmissing, readRaw_remainingChunks,
      List.length_drop]
    have hpos : 0 < source.length := List.length_pos_of_ne_nil hsource
    have havl : state.chunkAvlSize source =
        if state.chunkRemSize ≤ source.length then state.chunkRemSize
        else source.length := rfl
    split at havl
    · rename_i hend
      rw [if_pos hend]
      omega
    · rename_i hend
      rw [if_neg hend]
      omega

/-- A pass that succeeds on a section that is not empty makes progress. -/
theorem unsparseProcessChunk_progress {source : List UInt8}
    {state : SparseState} {w : W}
    (hsource : source ≠ []) (hrem : state.remainingChunks ≠ 0)
    (hret : (unsparseProcessChunk WRITE source state w).ret = 0) :
    (unsparseProcessChunk WRITE source state w).state.remainingChunks +
        (unsparseProcessChunk WRITE source state w).source.length <
      state.remainingChunks + source.length := by
  have hpos : 0 < source.length := List.length_pos_of_ne_nil hsource
  have hlen := readChunkHeader_length source state
  have hrem' := readChunkHeader_remainingChunks source state
  unfold unsparseProcessChunk at hret ⊢
  generalize hread : readChunkHeader source state = read at *
  obtain ⟨rest, st⟩ := read
  simp only at hlen hrem' hret ⊢
  split
  · rename_i hshort
    have hnil : rest = [] := by
      have := readChunkHeader_incomplete source state
        (by rw [hread]; exact hshort)
      rwa [hread] at this
    simp only [hnil, List.length_nil]
    omega
  · rename_i hdone
    rw [if_neg hdone] at hret
    split
    · rename_i hraw
      rw [if_pos hraw] at hret
      by_cases hrest : rest = []
      · simp only [processRaw, if_pos hrest]
        have : state.chunkOffset < sizeofChunkHeader := by
          by_contra hge
          rw [readChunkHeader_of_complete (not_lt.mp hge)] at hread
          exact hsource ((Prod.mk.inj hread).1.trans hrest)
        omega
      · have := processRaw_progress WRITE hrest (by omega) hret
        omega
    · rename_i hraw
      rw [if_neg hraw] at hret
      split
      · rename_i hdc
        rw [if_pos hdc] at hret
        unfold processDontCare at hret ⊢
        split
        · rename_i hbad
          rw [if_pos hbad] at hret
          simp at hret
        · simp only [SparseState.advance, SparseState.nextChunk]
          omega
      · rename_i hdc
        rw [if_neg hdc] at hret
        simp at hret

/-! ## The loop -/

/-- The loop of `_unsparse`. -/
def unsparseLoop (source : List UInt8) (state : SparseState) (w : W) :
    Progress W :=
  if _hmore : state.remainingChunks ≠ 0 ∧ source ≠ [] then
    let p := unsparseProcessChunk WRITE source state w
    if _hret : p.ret = 0 then unsparseLoop p.source p.state p.world
    else p
  else ⟨0, source, state, w⟩
termination_by state.remainingChunks + source.length
decreasing_by exact unsparseProcessChunk_progress WRITE _hmore.2 _hmore.1 _hret

theorem unsparseLoop_of_done {source : List UInt8} {state : SparseState}
    {w : W} (hdone : ¬ (state.remainingChunks ≠ 0 ∧ source ≠ [])) :
    unsparseLoop WRITE source state w = ⟨0, source, state, w⟩ := by
  rw [unsparseLoop, dif_neg hdone]

theorem unsparseLoop_of_ok {source : List UInt8} {state : SparseState} {w : W}
    (hmore : state.remainingChunks ≠ 0 ∧ source ≠ [])
    (hret : (unsparseProcessChunk WRITE source state w).ret = 0) :
    unsparseLoop WRITE source state w =
      unsparseLoop WRITE (unsparseProcessChunk WRITE source state w).source
        (unsparseProcessChunk WRITE source state w).state
        (unsparseProcessChunk WRITE source state w).world := by
  rw [unsparseLoop, dif_pos hmore, dif_pos hret]

theorem unsparseLoop_of_failed {source : List UInt8} {state : SparseState}
    {w : W} (hmore : state.remainingChunks ≠ 0 ∧ source ≠ [])
    (hret : (unsparseProcessChunk WRITE source state w).ret ≠ 0) :
    unsparseLoop WRITE source state w =
      unsparseProcessChunk WRITE source state w := by
  rw [unsparseLoop, dif_pos hmore, dif_neg hret]

/-- `_unsparse`. -/
def unsparse (source : List UInt8) (state : SparseState) (w : W) :
    Progress W :=
  if state.remainingChunks = 0 then
    match unsparseReadHeader source state with
    | none => ⟨1, source, state, w⟩
    | some (source, state) => unsparseLoop WRITE source state w
  else unsparseLoop WRITE source state w

/-! ## The loop ends -/

/-- The loop of `_unsparse` as it is written, with at most `fuel` tests of its
condition; `none` if it has not ended by then. -/
def unsparseWhile : ℕ → Progress W → Option (Progress W)
  | 0, _ => none
  | fuel + 1, p =>
      if p.state.remainingChunks ≠ 0 ∧ p.source ≠ [] ∧ p.ret = 0 then
        unsparseWhile fuel (unsparseProcessChunk WRITE p.source p.state p.world)
      else some p

/-- `_unsparse` with the same limit on its loop. -/
def unsparseWithin (fuel : ℕ) (source : List UInt8) (state : SparseState)
    (w : W) : Option (Progress W) :=
  if state.remainingChunks = 0 then
    match unsparseReadHeader source state with
    | none => some ⟨1, source, state, w⟩
    | some (source, state) => unsparseWhile WRITE fuel ⟨0, source, state, w⟩
  else unsparseWhile WRITE fuel ⟨0, source, state, w⟩

/-- The ways a call can end: it fails, all chunks are finished, or the section
is consumed. -/
def Progress.Ended (p : Progress W) : Prop :=
  p.ret ≠ 0 ∨ p.state.remainingChunks = 0 ∨ p.source = []

theorem unsparseWhile_of_ended {fuel : ℕ} {p : Progress W} (hfuel : 0 < fuel)
    (hended : p.Ended) : unsparseWhile WRITE fuel p = some p := by
  obtain ⟨fuel, rfl⟩ := Nat.exists_eq_succ_of_ne_zero hfuel.ne'
  refine if_neg fun ⟨hrem, hsource, hret⟩ => ?_
  rcases hended with h | h | h
  exacts [h hret, hrem h, hsource h]

/-- Every pass that does not fail leaves a chunk or a byte of the section less,
so there is one test for each of them and one more. -/
theorem unsparseWhile_eq (source : List UInt8) (state : SparseState) (w : W)
    (fuel : ℕ) :
    state.remainingChunks + source.length < fuel →
      unsparseWhile WRITE fuel ⟨0, source, state, w⟩ =
        some (unsparseLoop WRITE source state w) := by
  revert fuel
  induction source, state, w using unsparseLoop.induct WRITE with
  | case1 source state w hmore p hret ih =>
      intro fuel hfuel
      obtain ⟨fuel, rfl⟩ := Nat.exists_eq_succ_of_ne_zero (by omega : fuel ≠ 0)
      have hstep : unsparseWhile WRITE (fuel + 1) ⟨0, source, state, w⟩ =
          unsparseWhile WRITE fuel (unsparseProcessChunk WRITE source state w) :=
        if_pos ⟨hmore.1, hmore.2, rfl⟩
      have hless : p.state.remainingChunks + p.source.length <
          state.remainingChunks + source.length :=
        unsparseProcessChunk_progress WRITE hmore.2 hmore.1 hret
      rw [hstep, unsparseLoop_of_ok WRITE hmore hret, ← ih fuel (by omega), ← hret]
  | case2 source state w hmore p hret =>
      intro fuel hfuel
      obtain ⟨fuel, rfl⟩ := Nat.exists_eq_succ_of_ne_zero (by omega : fuel ≠ 0)
      have hstep : unsparseWhile WRITE (fuel + 1) ⟨0, source, state, w⟩ =
          unsparseWhile WRITE fuel (unsparseProcessChunk WRITE source state w) :=
        if_pos ⟨hmore.1, hmore.2, rfl⟩
      have hfuel' : 0 < fuel := by
        have := List.length_pos_of_ne_nil hmore.2
        omega
      rw [hstep, unsparseLoop_of_failed WRITE hmore hret]
      exact unsparseWhile_of_ended WRITE hfuel' (Or.inl hret)
  | case3 source state w hmore =>
      intro fuel hfuel
      rw [unsparseLoop_of_done WRITE hmore]
      refine unsparseWhile_of_ended WRITE (by omega) (Or.inr ?_)
      by_contra hnot
      exact hmore (not_or.mp hnot)

theorem unsparseWhile_ended {fuel : ℕ} {p p' : Progress W}
    (h : unsparseWhile WRITE fuel p = some p') : p'.Ended := by
  induction fuel generalizing p with
  | zero => cases h
  | succ fuel ih =>
      rw [unsparseWhile] at h
      split at h
      · exact ih h
      · rename_i hstop
        obtain rfl := Option.some.inj h
        by_contra hnot
        simp only [Progress.Ended, not_or, not_not] at hnot
        exact hstop ⟨hnot.2.1, hnot.2.2, hnot.1⟩

/-- Enough tests of the condition for a call of `_unsparse`. -/
theorem exists_unsparseWithin (source : List UInt8) (state : SparseState)
    (w : W) :
    ∃ fuel, unsparseWithin WRITE fuel source state w =
      some (unsparse WRITE source state w) := by
  unfold unsparseWithin unsparse
  by_cases hrem : state.remainingChunks = 0
  · simp only [if_pos hrem]
    cases hread : unsparseReadHeader source state with
    | none => exact ⟨0, rfl⟩
    | some r => exact ⟨_, unsparseWhile_eq WRITE r.1 r.2 w _ (Nat.lt_succ_self _)⟩
  · simp only [if_neg hrem]
    exact ⟨_, unsparseWhile_eq WRITE source state w _ (Nat.lt_succ_self _)⟩

theorem unsparseWithin_ended {fuel : ℕ} {source : List UInt8}
    {state : SparseState} {w : W} {p : Progress W}
    (h : unsparseWithin WRITE fuel source state w = some p) : p.Ended := by
  unfold unsparseWithin at h
  split at h
  · split at h
    · obtain rfl := Option.some.inj h
      exact Or.inl one_ne_zero
    · exact unsparseWhile_ended WRITE h
  · exact unsparseWhile_ended WRITE h

/-- The loop of `_unsparse` ends from every chunk state on every section, after
at most as many passes as there are remaining chunks and bytes, and so does
every call. -/
theorem unsparse_terminates (source : List UInt8) (state : SparseState) (w : W) :
    (∃ p, unsparseWhile WRITE (state.remainingChunks + source.length + 1)
        ⟨0, source, state, w⟩ = some p ∧ p.Ended) ∧
      (∃ fuel, unsparseWithin WRITE fuel source state w =
        some (unsparse WRITE source state w)) ∧
      (unsparse WRITE source state w).Ended := by
  have hloop := unsparseWhile_eq WRITE source state w _ (Nat.lt_succ_self _)
  obtain ⟨fuel, hcall⟩ := exists_unsparseWithin WRITE source state w
  exact ⟨⟨_, hloop, unsparseWhile_ended WRITE hloop⟩, ⟨fuel, hcall⟩,
    unsparseWithin_ended WRITE hcall⟩

end Expander

/-! ## The interface of `sparse.c` -/

/-- `mmc_write` as the expander's `WRITE`. -/
def mmcWriter : Writer Mmc.Host :=
  fun slot src sector len h => (Mmc.mmcWrite slot src sector len h).2

/-- `do_unsparse_process`: `0` for success. -/
def doUnsparseProcess (source : List UInt8) (state : SparseState)
    (h : Mmc.Host) : ℕ × SparseState × Mmc.Host :=
  let p := unsparse mmcWriter source state h
  (if p.ret ≠ 0 then 1 else 0, p.state, p.world)

/-- `do_unsparse_start`. -/
def doUnsparseStart (sector : ℕ) (slotNo : Mmc.Slot) (state : SparseState) :
    SparseState :=
  { state with
    remainingChunks := 0
    chunkOffset := 0
    sector := sector
    slotNo := slotNo }

end TateFirmware.Sparse
