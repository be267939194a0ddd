import TateFirmware.Support.Reading

/-!
# The audio capabilities of an HDMI sink

`hdmi_query_audio_caps` of `hdmi_audio_utils.c` looks in the EDID for the first CEA
extension block of revision 3 and walks over its data blocks up to the offset byte
`d`.  Neither `d` nor the size of a data block is compared with the 128 bytes of the
extension block or with the buffer.

Offsets of data blocks count from the start of the extension block.
-/

namespace TateFirmware.Audio

open Support Support.Reading

/-! ## The source -/

/-- `HDMI_MAX_EDID`. -/
def hdmiMaxEdid : ℕ := 512

/-- `EDID_BLOCK_SIZE`. -/
def edidBlockSize : ℕ := 128

/-- `EDID_BLOCK_MAP_ID`. -/
def edidBlockMapId : UInt8 := 0xF0

/-- `EDID_BLOCK_CEA_ID`. -/
def edidBlockCeaId : UInt8 := 0x02

/-- `EDID_BLOCK_CEA_REV_3`. -/
def edidBlockCeaRev3 : UInt8 := 0x03

/-- `CEA_TAG_MASK`. -/
def ceaTagMask : UInt8 := 0xE0

/-- `CEA_SIZE_MASK`. -/
def ceaSizeMask : UInt8 := 0x1F

/-- `CEA_TAG_AUDIO`. -/
def ceaTagAudio : UInt8 := 0x20

/-- `CEA_TAG_SPKRS`. -/
def ceaTagSpkrs : UInt8 := 0x80

/-- `CEA_BIT_AUDIO`. -/
def ceaBitAudio : UInt8 := 0x40

/-- `hdmi_audio_caps_t`. -/
structure HdmiAudioCaps where
  hasAudio : Bool
  speakerAlloc : ℕ
deriving DecidableEq, Repr

/-- The array `edid` after the file has been read into it; what lies `beyond` its
end is unknown. -/
def edidBuffer (contents : List UInt8) (beyond : Memory UInt8) : Memory UInt8 :=
  fun k => if k < hdmiMaxEdid then contents.getD k 0 else beyond k

/-- The loop of `hdmi_dump_short_audio_descriptor_block` over `size` bytes at `p`,
three of them at a time. -/
def dumpLoop (edid : Memory UInt8) : ℕ → ℕ → Reading Unit
  | 0, _ => pure ()
  | 1, p => do
      let _ ← bytes edid p 3
      pure ()
  | 2, p => do
      let _ ← bytes edid p 3
      pure ()
  | size + 3, p => do
      let _ ← bytes edid p 3
      dumpLoop edid size (p + 3)

/-- `hdmi_dump_short_audio_descriptor_block`. -/
def hdmiDumpShortAudioDescriptorBlock (edid : Memory UInt8) (mem : ℕ) :
    Reading Unit := do
  let header ← byte edid mem
  dumpLoop edid (header &&& ceaSizeMask).toNat (mem + 1)

/-- One round of the loop over the data blocks, from `n` and `speaker_alloc`. -/
def collectionRound (edid : Memory UInt8) (index d : ℕ) :
    ℕ × ℕ → Reading (ℕ ⊕ (ℕ × ℕ))
  | (n, speakerAlloc) =>
      if n < d then do
        let header ← byte edid (index + n)
        let tag := header &&& ceaTagMask
        let size := (header &&& ceaSizeMask).toNat
        if tag = ceaTagAudio then do
          hdmiDumpShortAudioDescriptorBlock edid (index + n)
          pure (.inr (n + 1 + size, speakerAlloc))
        else if tag = ceaTagSpkrs then do
          let alloc ← byte edid (index + (n + 1))
          pure (.inr (n + 1 + size, alloc.toNat))
        else pure (.inr (n + 1 + size, speakerAlloc))
      else pure (.inl speakerAlloc)

/-- The loop over the extension blocks at the offsets given. -/
def extensionLoop (edid : Memory UInt8) (rounds : ℕ) :
    List ℕ → Reading HdmiAudioCaps
  | [] => pure ⟨false, 0⟩
  | index :: rest => do
      let id ← byte edid index
      if id = edidBlockCeaId then do
        let revision ← byte edid (index + 1)
        if revision = edidBlockCeaRev3 then do
          let d ← byte edid (index + 2)
          let flags ← byte edid (index + 3)
          if flags &&& ceaBitAudio ≠ 0 then do
            let speakerAlloc ←
              loop (collectionRound edid index d.toNat) rounds (4, 0)
            pure ⟨true, speakerAlloc⟩
          else pure ⟨false, 0⟩
        else extensionLoop edid rounds rest
      else extensionLoop edid rounds rest

/-- The offsets of the extension blocks below `edid_size`. -/
def extensionOffsets (nblocks : ℕ) : List ℕ :=
  let edidSize := edidBlockSize * (nblocks + 1)
  let edidSize := if edidSize > hdmiMaxEdid then hdmiMaxEdid else edidSize
  [edidBlockSize, 2 * edidBlockSize, 3 * edidBlockSize].filter (· < edidSize)

/-- `hdmi_query_audio_caps` with the EDID in its array. -/
def hdmiQueryAudioCaps (edid : Memory UInt8) (rounds : ℕ) :
    Reading HdmiAudioCaps := do
  let count ← byte edid 0x7E
  let first ← byte edid edidBlockSize
  extensionLoop edid rounds (extensionOffsets
    (if first = edidBlockMapId then count.toNat + 1 else count.toNat))

/-! ## What it is for -/

/-- A data block: its offset, and what its header says. -/
structure DataBlock where
  offset : ℕ
  tag : UInt8
  size : ℕ
deriving DecidableEq, Repr

/-- The data block with its header at an offset. -/
def dataBlockAt (edid : Memory UInt8) (index n : ℕ) : DataBlock where
  offset := n
  tag := edid (index + n) &&& ceaTagMask
  size := (edid (index + n) &&& ceaSizeMask).toNat

/-- The offset behind a data block. -/
def DataBlock.stop (b : DataBlock) : ℕ := b.offset + 1 + b.size

/-- The block lies before the offset byte `d` and inside the extension block. -/
def DataBlock.Whole (d : ℕ) (b : DataBlock) : Prop :=
  b.stop ≤ d ∧ b.stop ≤ edidBlockSize

instance (d : ℕ) (b : DataBlock) : Decidable (b.Whole d) :=
  inferInstanceAs (Decidable (_ ∧ _))

/-- The data blocks of the collection, each of them whole. -/
def wholeBlocks (edid : Memory UInt8) (index d n : ℕ) : List DataBlock :=
  let b := dataBlockAt edid index n
  if _h : b.Whole d then b :: wholeBlocks edid index d b.stop else []
termination_by d - n
decreasing_by
  obtain ⟨hd, -⟩ := _h
  simp only [DataBlock.stop, b, dataBlockAt] at hd ⊢
  omega

/-- The last speaker allocation block. -/
def lastSpeaker : List DataBlock → Option DataBlock
  | [] => none
  | b :: bs => (lastSpeaker bs).or (if b.tag = ceaTagSpkrs then some b else none)

/-- The first byte behind the header of a block. -/
def firstByte (edid : Memory UInt8) (index : ℕ) (b : DataBlock) : ℕ :=
  (edid (index + (b.offset + 1))).toNat

/-- The speaker allocation byte of the collection: the first byte of its last
speaker allocation block that has one. -/
def speakerByte (edid : Memory UInt8) (index d : ℕ) : ℕ :=
  ((lastSpeaker ((wholeBlocks edid index d 4).filter fun b => 0 < b.size)).map
    (firstByte edid index)).getD 0

/-- The extension block at an offset is a CEA block of revision 3. -/
def isCeaBlock (edid : Memory UInt8) (index : ℕ) : Bool :=
  edid index = edidBlockCeaId && edid (index + 1) = edidBlockCeaRev3

/-- The offset of the first CEA block of revision 3 among the extension blocks. -/
def firstCeaBlock (edid : Memory UInt8) : Option ℕ :=
  let count := (edid 0x7E).toNat
  (extensionOffsets (if edid edidBlockSize = edidBlockMapId then count + 1 else
    count)).find? (isCeaBlock edid)

/-- The audio flag of an extension block. -/
def audioFlag (edid : Memory UInt8) (index : ℕ) : Bool :=
  edid (index + 3) &&& ceaBitAudio ≠ 0

/-- The capabilities that the EDID states; a block without audio has no speaker
allocation. -/
def statedCaps (edid : Memory UInt8) : HdmiAudioCaps :=
  match firstCeaBlock edid with
  | none => ⟨false, 0⟩
  | some index =>
      if audioFlag edid index then
        ⟨true, speakerByte edid index (edid (index + 2)).toNat⟩
      else ⟨false, 0⟩

/-! ## The walk -/

/-- The data blocks that the walk meets, whole or not. -/
def metBlocks (edid : Memory UInt8) (index d n : ℕ) : List DataBlock :=
  let b := dataBlockAt edid index n
  if _h : n < d then b :: metBlocks edid index d b.stop else []
termination_by d - n
decreasing_by
  simp only [DataBlock.stop, dataBlockAt]
  omega

/-- The offset behind the last byte that is read for a block: short audio
descriptors are read three bytes at a time, and of a speaker allocation block the
byte behind the header. -/
def DataBlock.readStop (b : DataBlock) : ℕ :=
  if b.tag = ceaTagAudio then b.offset + 1 + (b.size + 2) / 3 * 3
  else if b.tag = ceaTagSpkrs then b.offset + 2
  else b.offset + 1

theorem DataBlock.offset_lt_readStop (b : DataBlock) : b.offset < b.readStop := by
  unfold DataBlock.readStop
  split_ifs <;> omega

/-- What the walk over a collection needs: every block it meets is read inside the
buffer, and the last speaker allocation block it meets is whole and not empty, or
the byte behind its header happens to be the right one. -/
structure CollectionFits (edid : Memory UInt8) (index d : ℕ) : Prop where
  inside : ∀ b ∈ metBlocks edid index d 4, index + b.readStop ≤ hdmiMaxEdid
  last : ∀ b, lastSpeaker (metBlocks edid index d 4) = some b →
    (b.Whole d ∧ 0 < b.size) ∨
      firstByte edid index b = speakerByte edid index d

theorem dataBlockAt_stop (edid : Memory UInt8) (index n : ℕ) :
    n < (dataBlockAt edid index n).stop := by
  simp only [DataBlock.stop, dataBlockAt]
  omega

theorem metBlocks_of_lt {edid : Memory UInt8} {index d n : ℕ} (h : n < d) :
    metBlocks edid index d n = dataBlockAt edid index n ::
      metBlocks edid index d (dataBlockAt edid index n).stop := by
  rw [metBlocks]
  exact dif_pos h

theorem metBlocks_of_le {edid : Memory UInt8} {index d n : ℕ} (h : d ≤ n) :
    metBlocks edid index d n = [] := by
  rw [metBlocks]
  exact dif_neg (Nat.not_lt.mpr h)

theorem dumpLoop_within (edid : Memory UInt8) (size : ℕ) {p : ℕ}
    (hp : p ≤ hdmiMaxEdid) :
    (dumpLoop edid size p).Within hdmiMaxEdid ↔
      p + (size + 2) / 3 * 3 ≤ hdmiMaxEdid := by
  induction size using Nat.strong_induction_on generalizing p with
  | h size ih =>
      match size with
      | 0 => simpa [dumpLoop] using hp
      | 1 => simp [dumpLoop]
      | 2 => simp [dumpLoop]
      | size + 3 =>
          simp only [dumpLoop, within_bind, within_bytes, value_bytes,
            Option.some.injEq, forall_eq']
          have hdiv : (size + 3 + 2) / 3 * 3 = (size + 2) / 3 * 3 + 3 := by omega
          rw [hdiv]
          constructor
          · rintro ⟨hthree, hrest⟩
            have := (ih size (by omega) (by omega)).mp hrest
            omega
          · intro h
            refine ⟨by omega, (ih size (by omega) (by omega)).mpr (by omega)⟩

theorem dumpLoop_value (edid : Memory UInt8) (size p : ℕ) :
    (dumpLoop edid size p).value = some () := by
  induction size using Nat.strong_induction_on generalizing p with
  | h size ih =>
      match size with
      | 0 => rfl
      | 1 => rfl
      | 2 => rfl
      | size + 3 => simpa [dumpLoop] using ih size (by omega) (p + 3)

/-- One round reads as far as `readStop`. -/
theorem collectionRound_within {edid : Memory UInt8} {index d n : ℕ} (h : n < d)
    (speakerAlloc : ℕ) :
    (collectionRound edid index d (n, speakerAlloc)).Within hdmiMaxEdid ↔
      index + (dataBlockAt edid index n).readStop ≤ hdmiMaxEdid := by
  rw [collectionRound, if_pos h]
  simp only [within_bind, within_byte, value_byte, Option.some.injEq, forall_eq']
  have hreadStop : (dataBlockAt edid index n).readStop =
      if edid (index + n) &&& ceaTagMask = ceaTagAudio then
        n + 1 + ((edid (index + n) &&& ceaSizeMask).toNat + 2) / 3 * 3
      else if edid (index + n) &&& ceaTagMask = ceaTagSpkrs then n + 2
      else n + 1 := rfl
  rw [hreadStop]
  by_cases haudio : edid (index + n) &&& ceaTagMask = ceaTagAudio
  · simp only [if_pos haudio, within_bind, within_pure, implies_true, and_true,
      hdmiDumpShortAudioDescriptorBlock, within_byte, value_byte,
      Option.some.injEq, forall_eq']
    constructor
    · rintro ⟨hheader, -, hdump⟩
      have := (dumpLoop_within edid _ (by omega)).mp hdump
      omega
    · intro hstop
      refine ⟨by omega, by omega, (dumpLoop_within edid _ (by omega)).mpr (by omega)⟩
  · by_cases hspkrs : edid (index + n) &&& ceaTagMask = ceaTagSpkrs
    · simp only [if_neg haudio, if_pos hspkrs, within_bind, within_pure,
        implies_true, and_true, within_byte]
      omega
    · simp only [if_neg haudio, if_neg hspkrs, within_pure, and_true]
      omega

/-- It leaves the place behind the block, and the byte of a speaker allocation
block. -/
theorem collectionRound_value {edid : Memory UInt8} {index d n : ℕ} (h : n < d)
    (speakerAlloc : ℕ) :
    (collectionRound edid index d (n, speakerAlloc)).value =
      some (.inr ((dataBlockAt edid index n).stop,
        if (dataBlockAt edid index n).tag = ceaTagSpkrs then
          firstByte edid index (dataBlockAt edid index n) else speakerAlloc)) := by
  have htag : (dataBlockAt edid index n).tag = edid (index + n) &&& ceaTagMask := rfl
  have hne : ceaTagAudio ≠ ceaTagSpkrs := by decide
  rw [collectionRound, if_pos h, htag]
  by_cases haudio : edid (index + n) &&& ceaTagMask = ceaTagAudio
  · simp [haudio, hne, hdmiDumpShortAudioDescriptorBlock, dumpLoop_value,
      DataBlock.stop, dataBlockAt]
  · by_cases hspkrs : edid (index + n) &&& ceaTagMask = ceaTagSpkrs
    · simp [hspkrs, hne.symm, DataBlock.stop, dataBlockAt, firstByte]
    · simp [haudio, hspkrs, DataBlock.stop, dataBlockAt]

/-- The walk ends, with the byte of the last speaker allocation block that it
meets. -/
theorem completes_collection {edid : Memory UInt8} {index d : ℕ} (n speakerAlloc a : ℕ) :
    Completes (fun rounds =>
        loop (collectionRound edid index d) rounds (n, speakerAlloc)) hdmiMaxEdid a ↔
      (∀ b ∈ metBlocks edid index d n, index + b.readStop ≤ hdmiMaxEdid) ∧
        a = ((lastSpeaker (metBlocks edid index d n)).map
          (firstByte edid index)).getD speakerAlloc := by
  induction hleft : d - n using Nat.strong_induction_on generalizing n speakerAlloc with
  | h left ih =>
      rw [completes_loop]
      by_cases hlt : n < d
      · have hstop := dataBlockAt_stop edid index n
        have hrest := ih (d - (dataBlockAt edid index n).stop) (by omega)
          (dataBlockAt edid index n).stop
          (if (dataBlockAt edid index n).tag = ceaTagSpkrs then
            firstByte edid index (dataBlockAt edid index n) else speakerAlloc) rfl
        rw [collectionRound_within hlt, collectionRound_value hlt,
          metBlocks_of_lt hlt, List.forall_mem_cons, and_assoc]
        refine and_congr_right fun _ => ?_
        simp only [Option.some.injEq, reduceCtorEq, false_or, Sum.inr.injEq,
          exists_eq_left', hrest]
        refine and_congr_right fun _ => ?_
        rw [lastSpeaker]
        cases hlast : lastSpeaker (metBlocks edid index d
            (dataBlockAt edid index n).stop) with
        | some b => rfl
        | none => split_ifs <;> rfl
      · have hround : collectionRound edid index d (n, speakerAlloc) =
            pure (.inl speakerAlloc) := by
          rw [collectionRound, if_neg hlt]
        rw [hround, metBlocks_of_le (Nat.not_lt.mp hlt)]
        simp [lastSpeaker, eq_comm]

/-! ## Whole blocks -/

theorem offset_le_of_mem {edid : Memory UInt8} {index d : ℕ} {b : DataBlock} (n : ℕ)
    (hb : b ∈ metBlocks edid index d n) : n ≤ b.offset := by
  induction hleft : d - n using Nat.strong_induction_on generalizing n with
  | h left ih =>
      by_cases hlt : n < d
      · have hstop := dataBlockAt_stop edid index n
        rw [metBlocks_of_lt hlt] at hb
        rcases List.mem_cons.mp hb with rfl | hb
        · exact le_refl n
        · exact hstop.le.trans (ih _ (by omega) _ hb rfl)
      · rw [metBlocks_of_le (Nat.not_lt.mp hlt)] at hb
        cases hb

theorem wholeBlocks_of_whole {edid : Memory UInt8} {index d n : ℕ}
    (h : (dataBlockAt edid index n).Whole d) :
    wholeBlocks edid index d n = dataBlockAt edid index n ::
      wholeBlocks edid index d (dataBlockAt edid index n).stop := by
  rw [wholeBlocks]
  exact dif_pos h

theorem wholeBlocks_of_not {edid : Memory UInt8} {index d n : ℕ}
    (h : ¬ (dataBlockAt edid index n).Whole d) :
    wholeBlocks edid index d n = [] := by
  rw [wholeBlocks]
  exact dif_neg h

/-- The whole blocks are met. -/
theorem wholeBlocks_subset {edid : Memory UInt8} {index d : ℕ} (n : ℕ) :
    wholeBlocks edid index d n ⊆ metBlocks edid index d n := by
  induction hleft : d - n using Nat.strong_induction_on generalizing n with
  | h left ih =>
      by_cases hwhole : (dataBlockAt edid index n).Whole d
      · have hstop := dataBlockAt_stop edid index n
        have hlt : n < d := hstop.trans_le hwhole.1
        rw [wholeBlocks_of_whole hwhole, metBlocks_of_lt hlt]
        exact List.cons_subset_cons _ (ih _ (by omega) _ rfl)
      · rw [wholeBlocks_of_not hwhole]
        exact List.nil_subset _

theorem lastSpeaker_eq_none_iff {bs : List DataBlock} :
    lastSpeaker bs = none ↔ ∀ b ∈ bs, b.tag ≠ ceaTagSpkrs := by
  induction bs with
  | nil => simp [lastSpeaker]
  | cons b bs ih =>
      rw [lastSpeaker, Option.or_eq_none_iff, ih, List.forall_mem_cons, and_comm]
      simp

theorem mem_of_lastSpeaker {bs : List DataBlock} {b : DataBlock}
    (h : lastSpeaker bs = some b) : b ∈ bs := by
  induction bs with
  | nil => cases h
  | cons c bs ih =>
      rw [lastSpeaker] at h
      cases hrest : lastSpeaker bs with
      | some b' =>
          rw [hrest, Option.some_or] at h
          exact List.mem_cons_of_mem c (ih (hrest.trans h))
      | none =>
          rw [hrest, Option.none_or] at h
          split_ifs at h
          obtain rfl := Option.some.inj h
          exact List.mem_cons_self

/-- The last speaker allocation block that is met is the last one of the whole
blocks, if it is one of them. -/
theorem lastSpeaker_whole {edid : Memory UInt8} {index d : ℕ} {b : DataBlock} (n : ℕ)
    (hlast : lastSpeaker (metBlocks edid index d n) = some b) (hwhole : b.Whole d)
    (hsize : 0 < b.size) :
    lastSpeaker ((wholeBlocks edid index d n).filter fun b => 0 < b.size) =
      some b := by
  induction hleft : d - n using Nat.strong_induction_on generalizing n with
  | h left ih =>
      have hlt : n < d := by
        by_contra hge
        rw [metBlocks_of_le (Nat.not_lt.mp hge)] at hlast
        cases hlast
      have hstop := dataBlockAt_stop edid index n
      rw [metBlocks_of_lt hlt, lastSpeaker] at hlast
      cases hrest : lastSpeaker (metBlocks edid index d
          (dataBlockAt edid index n).stop) with
      | some b' =>
          rw [hrest, Option.some_or] at hlast
          obtain rfl := Option.some.inj hlast
          -- a block in front of a whole one is whole
          have hbehind := offset_le_of_mem _ (mem_of_lastSpeaker hrest)
          have hfirst : (dataBlockAt edid index n).Whole d := by
            obtain ⟨hd, hblock⟩ := hwhole
            unfold DataBlock.stop at hd hblock
            exact ⟨by omega, by omega⟩
          have hnext := ih _ (by omega) _ hrest rfl
          rw [wholeBlocks_of_whole hfirst, List.filter_cons]
          split
          · rw [lastSpeaker, hnext, Option.some_or]
          · exact hnext
      | none =>
          rw [hrest, Option.none_or] at hlast
          split_ifs at hlast with htag
          obtain rfl := Option.some.inj hlast
          have hnone : lastSpeaker ((wholeBlocks edid index d
              (dataBlockAt edid index n).stop).filter fun b => 0 < b.size) = none := by
            rw [lastSpeaker_eq_none_iff] at hrest ⊢
            intro c hc
            exact hrest c (wholeBlocks_subset _ (List.mem_of_mem_filter hc))
          rw [wholeBlocks_of_whole hwhole, List.filter_cons,
            if_pos (by simpa using hsize), lastSpeaker, hnone, Option.none_or,
            if_pos htag]

/-- The walk over a collection ends inside the buffer with the byte of the
collection exactly if the collection fits. -/
theorem completes_collection_iff {edid : Memory UInt8} {index d : ℕ} :
    Completes (fun rounds => loop (collectionRound edid index d) rounds (4, 0))
        hdmiMaxEdid (speakerByte edid index d) ↔ CollectionFits edid index d := by
  rw [completes_collection]
  constructor
  · rintro ⟨hinside, hbyte⟩
    refine ⟨hinside, fun b hlast => Or.inr ?_⟩
    rw [hbyte, hlast]
    rfl
  · rintro ⟨hinside, hlast⟩
    refine ⟨hinside, ?_⟩
    cases hmet : lastSpeaker (metBlocks edid index d 4) with
    | none =>
        have hnone : lastSpeaker ((wholeBlocks edid index d 4).filter
            fun b => 0 < b.size) = none := by
          rw [lastSpeaker_eq_none_iff] at hmet ⊢
          intro c hc
          exact hmet c (wholeBlocks_subset _ (List.mem_of_mem_filter hc))
        rw [speakerByte, hnone]
    | some b =>
        rcases hlast b hmet with ⟨hwhole, hsize⟩ | hbyte
        · rw [speakerByte, lastSpeaker_whole 4 hmet hwhole hsize]
        · exact hbyte.symm

/-! ## The extension blocks -/

/-- What comes after the extension block that the loop has found. -/
theorem completes_extensionLoop {edid : Memory UInt8} {offsets : List ℕ}
    (hoffsets : ∀ i ∈ offsets, i + edidBlockSize ≤ hdmiMaxEdid)
    (caps : HdmiAudioCaps) :
    Completes (fun rounds => extensionLoop edid rounds offsets) hdmiMaxEdid caps ↔
      match offsets.find? (isCeaBlock edid) with
      | none => caps = ⟨false, 0⟩
      | some index =>
          if audioFlag edid index then
            ∃ a, Completes (fun rounds => loop
                (collectionRound edid index (edid (index + 2)).toNat) rounds (4, 0))
              hdmiMaxEdid a ∧ caps = ⟨true, a⟩
          else caps = ⟨false, 0⟩ := by
  induction offsets with
  | nil => simp [extensionLoop, completes_const, eq_comm]
  | cons index rest ih =>
      rw [List.forall_mem_cons] at hoffsets
      have hindex := hoffsets.1
      have hsize : edidBlockSize = 128 := rfl
      have hrest := ih hoffsets.2
      simp only [extensionLoop]
      rw [completes_bind, List.find?_cons]
      simp only [within_byte, value_byte, Option.some.injEq, exists_eq_left']
      rw [and_iff_right (by omega)]
      by_cases hid : edid index = edidBlockCeaId
      · simp only [if_pos hid]
        rw [completes_bind]
        simp only [within_byte, value_byte, Option.some.injEq, exists_eq_left']
        rw [and_iff_right (by omega)]
        by_cases hrevision : edid (index + 1) = edidBlockCeaRev3
        · have hcea : isCeaBlock edid index = true := by
            simp [isCeaBlock, hid, hrevision]
          simp only [if_pos hrevision, hcea]
          rw [completes_bind]
          simp only [within_byte, value_byte, Option.some.injEq, exists_eq_left']
          rw [and_iff_right (by omega), completes_bind]
          simp only [within_byte, value_byte, Option.some.injEq, exists_eq_left']
          rw [and_iff_right (by omega)]
          by_cases haudio : edid (index + 3) &&& ceaBitAudio ≠ 0
          · have hflag : audioFlag edid index = true := by
              simpa [audioFlag] using haudio
            simp only [if_pos haudio, hflag, if_true]
            exact completes_map
          · have hflag : ¬ audioFlag edid index = true := by
              simpa [audioFlag] using haudio
            simp only [if_neg haudio, if_neg hflag, completes_const, within_pure,
              value_pure, Option.some.injEq, true_and]
            exact eq_comm
        · have hcea : isCeaBlock edid index = false := by
            simp [isCeaBlock, hrevision]
          simp only [if_neg hrevision, hcea]
          exact hrest
      · have hcea : isCeaBlock edid index = false := by
          simp [isCeaBlock, hid]
        simp only [if_neg hid, hcea]
        exact hrest

theorem extensionOffsets_le {nblocks : ℕ} :
    ∀ i ∈ extensionOffsets nblocks, i + edidBlockSize ≤ hdmiMaxEdid := by
  intro i hi
  have hmem := List.mem_of_mem_filter hi
  simp only [List.mem_cons, List.not_mem_nil, or_false] at hmem
  rcases hmem with rfl | rfl | rfl <;> decide

/-- `hdmi_query_audio_caps` ends, reads the array only and returns the capabilities
that the EDID states. -/
def CapsRight (edid : Memory UInt8) : Prop :=
  Completes (hdmiQueryAudioCaps edid) hdmiMaxEdid (statedCaps edid)

theorem capsRight_iff_fits (edid : Memory UInt8) :
    CapsRight edid ↔ ∀ index, firstCeaBlock edid = some index →
      audioFlag edid index = true →
        CollectionFits edid index (edid (index + 2)).toNat := by
  have hquery : CapsRight edid ↔ Completes (fun rounds => extensionLoop edid rounds
      (extensionOffsets (if edid edidBlockSize = edidBlockMapId then
        (edid 0x7E).toNat + 1 else (edid 0x7E).toNat))) hdmiMaxEdid
        (statedCaps edid) := by
    show Completes (fun rounds => hdmiQueryAudioCaps edid rounds) _ _ ↔ _
    simp only [hdmiQueryAudioCaps]
    rw [completes_bind]
    simp only [within_byte, value_byte, Option.some.injEq, exists_eq_left']
    rw [and_iff_right (by decide), completes_bind]
    simp only [within_byte, value_byte, Option.some.injEq, exists_eq_left']
    rw [and_iff_right (by decide)]
  rw [hquery, completes_extensionLoop extensionOffsets_le, statedCaps]
  have hfirst : firstCeaBlock edid = (extensionOffsets
      (if edid edidBlockSize = edidBlockMapId then (edid 0x7E).toNat + 1
        else (edid 0x7E).toNat)).find? (isCeaBlock edid) := rfl
  rw [← hfirst]
  cases firstCeaBlock edid with
  | none => simp
  | some index =>
      simp only [Option.some.injEq, forall_eq']
      split
      · rename_i haudio
        simp only [HdmiAudioCaps.mk.injEq, true_and, exists_eq_right']
        rw [completes_collection_iff]
        exact (imp_iff_right haudio).symm
      · rename_i haudio
        exact iff_of_true rfl fun h => absurd h haudio

/-- For every EDID `hdmi_query_audio_caps` does what it is for if and only if the
collection of the first CEA block of revision 3, where that block has audio, fits. -/
theorem capsRight_iff (contents : List UInt8) (beyond : Memory UInt8) :
    CapsRight (edidBuffer contents beyond) ↔
      ∀ index, firstCeaBlock (edidBuffer contents beyond) = some index →
        audioFlag (edidBuffer contents beyond) index = true →
        CollectionFits (edidBuffer contents beyond) index
          (edidBuffer contents beyond (index + 2)).toNat :=
  capsRight_iff_fits _

/-- An EDID with three extension blocks, of which the last one is a CEA block with
the offset byte 255 and four data blocks that fill it up. -/
def fullBlockEdid : List UInt8 :=
  List.replicate 126 0 ++ [3, 0] ++ List.replicate 256 0 ++ [2, 3, 255, 0x40] ++
    (List.replicate 4 (0x1F :: List.replicate 31 0)).flatten

/-- The walk goes on behind the last extension block and leaves the buffer. -/
theorem not_capsRight_fullBlock :
    ¬ ∀ (contents : List UInt8) (beyond : Memory UInt8),
      CapsRight (edidBuffer contents beyond) := by
  intro h
  have hfits := (capsRight_iff_fits _).mp (h fullBlockEdid fun _ => 0) 384
    (by decide) (by decide)
  set edid := edidBuffer fullBlockEdid fun _ => 0 with hedid
  have hd : (edid (384 + 2)).toNat = 255 := by decide
  have hblock : ∀ n ∈ [4, 36, 68, 100], dataBlockAt edid 384 n = ⟨n, 0, 31⟩ := by
    decide +kernel
  have hnext : ∀ n ∈ [4, 36, 68, 100], ∀ b ∈ metBlocks edid 384 255 (n + 32),
      b ∈ metBlocks edid 384 255 n := by
    intro n hn b hb
    have hlt : n < 255 := by
      simp only [List.mem_cons, List.not_mem_nil, or_false] at hn
      omega
    rw [metBlocks_of_lt hlt, hblock n hn]
    exact List.mem_cons_of_mem _ hb
  have hmem : dataBlockAt edid 384 132 ∈ metBlocks edid 384 255 4 := by
    refine hnext 4 (by decide) _ (hnext 36 (by decide) _ (hnext 68 (by decide) _
      (hnext 100 (by decide) _ ?_)))
    rw [metBlocks_of_lt (by decide)]
    exact List.mem_cons_self
  rw [hd] at hfits
  have hinside := hfits.inside _ hmem
  have hstop : 132 < (dataBlockAt edid 384 132).readStop :=
    (dataBlockAt edid 384 132).offset_lt_readStop
  have hmax : hdmiMaxEdid = 512 := rfl
  omega

end TateFirmware.Audio
