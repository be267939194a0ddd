import Mathlib.Data.FinEnum
import TateFirmware.Jffs2.Lookup
import TateFirmware.LibGeneric.Crc32
import TateFirmware.Support.Records
import TateFirmware.Support.Rounds

/-!
# The scan of a partition

The loop of `jffs2_1pass_build_lists` over flash, with `jffs2_scan_empty`, from
`fs/jffs2/jffs2_1pass.c`.  The scan goes on behind a node by the length in the
header, so that a header of length zero, whose checksum is right, is read for
ever.  The offsets that the scan goes through make a walk on the 32-bit numbers,
and the scan ends if and only if the walk does not come back.
-/

namespace TateFirmware.Jffs2

open LibGeneric Relation Support

/-! ## Nodes in flash -/

/-- `get_fl_mem` and `get_node_mem` of a NOR device, whose memory from `start[0]` on is
`flash`. -/
def getFlMem (flash : Memory UInt8) (off : UInt32) : Memory UInt8 :=
  flash.wrap.shift off.toNat

section Node

variable (node : Memory UInt8)

/-- The field `magic`. -/
def nodeMagic : ℕ := node.leHalf 0

/-- The field `nodetype`. -/
def nodeType : ℕ := node.leHalf 2

/-- The field `totlen`. -/
def nodeTotlen : UInt32 := UInt32.ofNat (node.leWord 4)

/-- `JFFS2_MAGIC_BITMASK`. -/
def jffs2MagicBitmask : ℕ := 0x1985

/-- `JFFS2_EMPTY_BITMASK`. -/
def jffs2EmptyBitmask : ℕ := 0xffff

/-- `JFFS2_NODETYPE_DIRENT`. -/
def jffs2NodetypeDirent : ℕ := 0xe001

/-- `JFFS2_NODETYPE_INODE`. -/
def jffs2NodetypeInode : ℕ := 0xe002

/-- A checksum over `n` bytes from `p` on stands at `q`. -/
def crcAt (q p n : ℕ) : Bool :=
  node.leWord q = (crc32NoComp 0 (node.read p n)).toNat

/-- `hdr_crc`. -/
def hdrCrc : Bool := crcAt node 8 0 8

/-- `inode_crc`. -/
def inodeCrc : Bool := crcAt node 64 0 60

/-- `data_crc`, over `csize` bytes behind the inode. -/
def dataCrc : Bool := crcAt node 60 68 (node.leWord 48)

/-- `dirent_crc`. -/
def direntCrc : Bool := crcAt node 32 0 32

/-- `dirent_name_crc`, over `nsize` bytes. -/
def direntNameCrc : Bool := crcAt node 36 40 (node 28).toNat

/-- The header of a node, with its checksum. -/
def isNode : Bool := nodeMagic node = jffs2MagicBitmask && hdrCrc node

/-- A node for the list of fragments. -/
def isInode : Bool :=
  nodeType node = jffs2NodetypeInode && inodeCrc node && dataCrc node

/-- A node for the list of directory entries. -/
def isDirent : Bool :=
  nodeType node = jffs2NodetypeDirent && direntCrc node && direntNameCrc node

/-- Erased flash. -/
def isEmpty : Bool :=
  nodeMagic node = jffs2EmptyBitmask && nodeType node = jffs2EmptyBitmask

/-- `struct jffs2_raw_inode` in flash. -/
def rawInode : RawInode where
  ino := node.leWord 12
  version := node.leWord 16
  isize := node.leWord 28
  offset := node.leWord 44
  csize := node.leWord 48
  dsize := node.leWord 52
  compr := node 56
  src := node.shift 68

/-- `struct jffs2_raw_dirent` in flash. -/
def rawDirent : RawDirent where
  pino := node.leWord 12
  version := node.leWord 16
  ino := node.leWord 20
  name := node.read 40 (node 28).toNat
  name_length := by
    rw [Memory.read_length]
    exact (node 28).toNat_lt

end Node

/-! ## The scan -/

/-- `struct part_info`, as far as the scan reads it. -/
structure PartInfo where
  offset : UInt32
  size : UInt32

/-- `sizeof(struct jffs2_raw_inode)`. -/
def sizeofRawInode : UInt32 := 68

/-- `SPIN_BLKSIZE`. -/
def spinBlksize : UInt32 := 18

/-- The two lists and the offset of the scan; a node is kept by its offset in
flash. -/
structure Scan where
  offset : UInt32
  dir : BList UInt32
  frag : BList UInt32

/-- Before the first node. -/
def Scan.start : Scan := ⟨0, BList.empty, BList.empty⟩

section Scan

variable (flash : Memory UInt8) (part : PartInfo) (sortFragments : Bool)

-- whether `add_node` gets memory, from the lengths of the two lists
variable (room : ℕ → ℕ → Bool)

/-- The local `max`. -/
def PartInfo.max : UInt32 := part.size - sizeofRawInode

/-- The node that is looked at. -/
def nodeAt (offset : UInt32) : Memory UInt8 :=
  getFlMem flash (part.offset + offset)

/-- A round of `jffs2_scan_empty`, on the pointer `offset`. -/
def scanEmptyRound (offset : UInt32) : UInt32 ⊕ UInt32 :=
  if offset < part.offset + part.size - sizeofRawInode ∧
      (getFlMem flash offset).leWord 0 = 0xffffffff then
    if (offset + 4) &&& (((1 : UInt32) <<< spinBlksize) - 1) = 0 then .inl (offset + 4)
    else .inr (offset + 4)
  else .inl offset

/-- `jffs2_scan_empty`. -/
def jffs2ScanEmpty (startOffset : UInt32) (fuel : ℕ) : Option UInt32 :=
  (roundLoop (scanEmptyRound flash part) fuel (part.offset + startOffset)).map
    fun offset => offset - part.offset

/-- `insert_node` into the list of fragments. -/
def insertFrag (frag : BList UInt32) (off : UInt32) : BList UInt32 :=
  frag.insertNode
    (listCompare sortFragments fun new old =>
      compareInodes (rawInode (getFlMem flash new)) (rawInode (getFlMem flash old)))
    off

/-- `insert_node` into the list of directory entries. -/
def insertDir (dir : BList UInt32) (off : UInt32) : BList UInt32 :=
  dir.insertNode
    (listCompare sortFragments fun new old =>
      compareDirents (rawDirent (getFlMem flash new)) (rawDirent (getFlMem flash old)))
    off

/-- The insertion of a node that is looked at; `none` if `insert_node` fails. -/
def insertFound (s : Scan) : Option Scan :=
  let off := part.offset + s.offset
  let node := nodeAt flash part s.offset
  if isInode node then
    if room s.frag.nodes.length s.dir.nodes.length then
      some { s with frag := insertFrag flash sortFragments s.frag off }
    else none
  else if isDirent node then
    if room s.frag.nodes.length s.dir.nodes.length then
      some { s with dir := insertDir flash sortFragments s.dir off }
    else none
  else some s

/-- A round of `jffs2_1pass_build_lists`.  It ends with the lists, or with `none` where
the function returns 0. -/
def buildRound (s : Scan) (fuel : ℕ) : Option (Option Scan ⊕ Scan) :=
  let node := nodeAt flash part s.offset
  if s.offset < part.max then
    if isNode node then
      match insertFound flash part sortFragments room s with
      | none => some (.inl none)
      | some s' =>
          some (.inr { s' with
            offset := s.offset + ((nodeTotlen node + 3) &&& ~~~3) })
    else if isEmpty node then
      (jffs2ScanEmpty flash part s.offset fuel).map fun offset =>
        .inr { s with offset := offset }
    else some (.inr { s with offset := s.offset + 4 })
  else some (.inl (some s))

/-- The scan of `jffs2_1pass_build_lists`. -/
def jffs21passScan (fuel : ℕ) : Option (Option Scan) :=
  fuelLoop (buildRound flash part sortFragments room) fuel Scan.start

end Scan

/-! ## The walk of the scan -/

section Walk

variable (flash : Memory UInt8) (part : PartInfo)

/-- The scan goes on from one offset at another. -/
def ScanNext (offset next : UInt32) : Prop :=
  offset < part.max ∧
    if isNode (nodeAt flash part offset) then
      next = offset + ((nodeTotlen (nodeAt flash part offset) + 3) &&& ~~~3)
    else if isEmpty (nodeAt flash part offset) then
      Returns (jffs2ScanEmpty flash part offset) next
    else next = offset + 4

/-- An offset that the scan looks at. -/
def Visited (offset : UInt32) : Prop :=
  ReflTransGen (ScanNext flash part) 0 offset ∧ offset < part.max

/-- An empty area at an offset ends for `jffs2_scan_empty`. -/
def EmptyEnds (offset : UInt32) : Prop :=
  offset < part.max → isNode (nodeAt flash part offset) = false →
    isEmpty (nodeAt flash part offset) = true →
      Acyclic (RoundNext (scanEmptyRound flash part)) (part.offset + offset)

/-- The scan does not come back to an offset it was at, nor `jffs2_scan_empty` to a
pointer. -/
structure GoesOn : Prop where
  walk : Acyclic (ScanNext flash part) 0
  empty : ∀ offset, ReflTransGen (ScanNext flash part) 0 offset →
    EmptyEnds flash part offset

/-- The scan ends, and its lists have each node at an offset it looked at once. -/
structure ScansOnce (sortFragments : Bool) : Prop where
  ends : ∀ room, ∃ result,
    Returns (jffs21passScan flash part sortFragments room) result
  once : ∀ room s, Returns (jffs21passScan flash part sortFragments room) (some s) →
    ∃ visited : List UInt32, visited.Nodup ∧
      (∀ offset, offset ∈ visited ↔ Visited flash part offset) ∧
      s.frag.nodes.Perm ((visited.filter fun offset =>
        isNode (nodeAt flash part offset) && isInode (nodeAt flash part offset)).map
          fun offset => part.offset + offset) ∧
      s.dir.nodes.Perm ((visited.filter fun offset =>
        isNode (nodeAt flash part offset) && isDirent (nodeAt flash part offset)).map
          fun offset => part.offset + offset)

end Walk

/-! ## The rounds follow the walk -/

section Rounds

variable {flash : Memory UInt8} {part : PartInfo} {sortFragments : Bool}
  {room : ℕ → ℕ → Bool}

theorem jffs2ScanEmpty_stable (offset : UInt32) :
    Stable (jffs2ScanEmpty flash part offset) :=
  (roundLoop_stable (scanEmptyRound flash part) _).map _

theorem buildRound_stable (s : Scan) :
    Stable (buildRound flash part sortFragments room s) := by
  intro fuel next h
  unfold buildRound at h ⊢
  dsimp only at h ⊢
  split_ifs at h ⊢ with hmax hnode hempty
  · exact h
  · exact (jffs2ScanEmpty_stable s.offset).map _ fuel next h
  · exact h
  · exact h

/-- An empty area ends exactly if the pointer does not come back. -/
theorem jffs2ScanEmpty_ends_iff (offset : UInt32) :
    (∃ next, Returns (jffs2ScanEmpty flash part offset) next) ↔
      Acyclic (RoundNext (scanEmptyRound flash part)) (part.offset + offset) := by
  rw [← roundLoop_ends_iff_acyclic (fun p : UInt32 => p)
    (fun s q => ⟨fun h => ⟨q, h, rfl⟩, fun ⟨_, h, hq⟩ => hq ▸ h⟩)]
  unfold jffs2ScanEmpty
  simp only [returns_map]
  constructor
  · rintro ⟨next, p, hp, -⟩
    exact ⟨p, hp⟩
  · rintro ⟨p, hp⟩
    exact ⟨_, p, hp, rfl⟩

theorem scanNext_unique {offset a b : UInt32} (ha : ScanNext flash part offset a)
    (hb : ScanNext flash part offset b) : a = b := by
  obtain ⟨-, ha⟩ := ha
  obtain ⟨-, hb⟩ := hb
  split at ha
  next hnode => rw [if_pos hnode] at hb; rw [ha, hb]
  next hnode =>
    rw [if_neg hnode] at hb
    split at ha
    next hempty =>
      rw [if_pos hempty] at hb
      exact ha.unique (jffs2ScanEmpty_stable offset) hb
    next hempty =>
      rw [if_neg hempty] at hb
      rw [ha, hb]

/-- What the insertion of a node does to the lists. -/
theorem insertFound_spec {s s' : Scan}
    (h : insertFound flash part sortFragments room s = some s') :
    s'.frag.nodes.Perm ((if isInode (nodeAt flash part s.offset)
        then [part.offset + s.offset] else []) ++ s.frag.nodes) ∧
      s'.dir.nodes.Perm ((if isDirent (nodeAt flash part s.offset)
        then [part.offset + s.offset] else []) ++ s.dir.nodes) := by
  have hapart : isInode (nodeAt flash part s.offset) = true →
      isDirent (nodeAt flash part s.offset) = false := by
    intro hinode
    simp only [isInode, isDirent, Bool.and_eq_true, decide_eq_true_eq] at hinode ⊢
    simp [hinode.1.1, jffs2NodetypeInode, jffs2NodetypeDirent]
  unfold insertFound at h
  dsimp only at h
  split_ifs at h with hinode hroom hdirent hroom
  · obtain rfl := Option.some.inj h
    rw [if_pos hinode, if_neg (by simp [hapart hinode])]
    exact ⟨insertNode_perm _ _ _, List.Perm.refl _⟩
  · obtain rfl := Option.some.inj h
    rw [if_neg hinode, if_pos hdirent]
    exact ⟨List.Perm.refl _, insertNode_perm _ _ _⟩
  · obtain rfl := Option.some.inj h
    rw [if_neg hinode, if_neg hdirent]
    exact ⟨List.Perm.refl _, List.Perm.refl _⟩

/-- What a round that goes on does. -/
theorem buildRound_next {s s' : Scan}
    (h : FuelNext (buildRound flash part sortFragments room) s s') :
    ScanNext flash part s.offset s'.offset ∧
      s'.frag.nodes.Perm ((if isNode (nodeAt flash part s.offset) &&
          isInode (nodeAt flash part s.offset)
        then [part.offset + s.offset] else []) ++ s.frag.nodes) ∧
      s'.dir.nodes.Perm ((if isNode (nodeAt flash part s.offset) &&
          isDirent (nodeAt flash part s.offset)
        then [part.offset + s.offset] else []) ++ s.dir.nodes) := by
  obtain ⟨fuel, h⟩ := h
  unfold buildRound at h
  dsimp only at h
  unfold ScanNext
  split_ifs at h with hmax hnode hempty
  · rw [if_pos hnode, hnode, Bool.true_and, Bool.true_and]
    cases hinsert : insertFound flash part sortFragments room s with
    | none => rw [hinsert] at h; cases h
    | some inserted =>
        rw [hinsert] at h
        obtain rfl := Sum.inr.inj (Option.some.inj h)
        obtain ⟨hfrag, hdir⟩ := insertFound_spec hinsert
        exact ⟨⟨hmax, rfl⟩, hfrag, hdir⟩
  · obtain ⟨offset, hscan, hs'⟩ := Option.map_eq_some_iff.mp h
    obtain rfl := Sum.inr.inj hs'
    rw [if_neg hnode, if_pos hempty, Bool.eq_false_iff.mpr hnode]
    exact ⟨⟨hmax, fuel, hscan⟩, List.Perm.refl _, List.Perm.refl _⟩
  · obtain rfl := Sum.inr.inj (Option.some.inj h)
    rw [if_neg hnode, if_neg hempty, Bool.eq_false_iff.mpr hnode]
    exact ⟨⟨hmax, rfl⟩, List.Perm.refl _, List.Perm.refl _⟩
  · cases Option.some.inj h

/-- The lists are returned where the scan is at its end. -/
theorem buildRound_end {s s' : Scan}
    (h : Returns (buildRound flash part sortFragments room s) (.inl (some s'))) :
    s' = s ∧ ¬ s.offset < part.max := by
  obtain ⟨fuel, h⟩ := h
  unfold buildRound at h
  dsimp only at h
  split_ifs at h with hmax hnode hempty
  · split at h <;> simp at h
  · obtain ⟨offset, _, hs'⟩ := Option.map_eq_some_iff.mp h
    cases hs'
  · cases h
  · obtain rfl := Option.some.inj (Sum.inl.inj (Option.some.inj h))
    exact ⟨rfl, hmax⟩

/-- A round returns where the empty area ends. -/
theorem buildRound_returns {s : Scan} (hempty : EmptyEnds flash part s.offset) :
    ∃ x, Returns (buildRound flash part sortFragments room s) x := by
  by_cases hscan : s.offset < part.max ∧
      isNode (nodeAt flash part s.offset) = false ∧
      isEmpty (nodeAt flash part s.offset) = true
  · obtain ⟨hmax, hnode, hisEmpty⟩ := hscan
    obtain ⟨next, fuel, hnext⟩ :=
      (jffs2ScanEmpty_ends_iff s.offset).mpr (hempty hmax hnode hisEmpty)
    refine ⟨.inr { s with offset := next }, fuel, ?_⟩
    unfold buildRound
    dsimp only
    rw [if_pos hmax, if_neg (by simp [hnode]), if_pos hisEmpty, hnext]
    rfl
  · have hsome : (buildRound flash part sortFragments room s 0).isSome := by
      unfold buildRound
      dsimp only
      split_ifs with hmax hnode hisEmpty
      · split <;> rfl
      · exact absurd ⟨hmax, Bool.eq_false_iff.mpr hnode, hisEmpty⟩ hscan
      · rfl
      · rfl
    obtain ⟨x, hx⟩ := Option.isSome_iff_exists.mp hsome
    exact ⟨x, 0, hx⟩

/-- With memory for every node the rounds go wherever the walk goes. -/
theorem buildRound_follows (s : Scan) (next : UInt32)
    (h : ScanNext flash part s.offset next) :
    ∃ s', FuelNext (buildRound flash part sortFragments fun _ _ => true) s s' ∧
      s'.offset = next := by
  obtain ⟨hmax, h⟩ := h
  suffices hround : ∃ s', (∃ fuel, buildRound flash part sortFragments
      (fun _ _ => true) s fuel = some (.inr s')) ∧ s'.offset = next from hround
  unfold buildRound
  dsimp only
  simp only [if_pos hmax]
  split_ifs at h ⊢ with hnode hempty
  · obtain ⟨inserted, hinsert⟩ : ∃ inserted, insertFound flash part sortFragments
        (fun _ _ => true) s = some inserted := by
      unfold insertFound
      simp only [if_true]
      split_ifs <;> exact ⟨_, rfl⟩
    rw [hinsert]
    exact ⟨_, ⟨0, rfl⟩, h.symm⟩
  · obtain ⟨fuel, hscan⟩ := h
    exact ⟨{ s with offset := next }, ⟨fuel, by rw [hscan]; rfl⟩, rfl⟩
  · exact ⟨_, ⟨0, rfl⟩, h.symm⟩

theorem emptyEnds_of_returns {s : Scan} {x : Option Scan ⊕ Scan}
    (h : Returns (buildRound flash part sortFragments room s) x) :
    EmptyEnds flash part s.offset := by
  intro hmax hnode hisEmpty
  obtain ⟨fuel, h⟩ := h
  unfold buildRound at h
  dsimp only at h
  rw [if_pos hmax, if_neg (by simp [hnode]), if_pos hisEmpty] at h
  obtain ⟨next, hnext, -⟩ := Option.map_eq_some_iff.mp h
  exact (jffs2ScanEmpty_ends_iff s.offset).mp ⟨next, fuel, hnext⟩

end Rounds

/-! ## What the lists hold -/

section Lists

variable {flash : Memory UInt8} {part : PartInfo} {sortFragments : Bool}
  {room : ℕ → ℕ → Bool}

/-- The lists hold the nodes at the offsets behind the scan, each one once. -/
structure ScanInv (flash : Memory UInt8) (part : PartInfo) (s : Scan)
    (seen : List UInt32) : Prop where
  nodup : seen.Nodup
  reached : ReflTransGen (ScanNext flash part) 0 s.offset
  behind : ∀ offset ∈ seen, Visited flash part offset ∧
    TransGen (ScanNext flash part) offset s.offset
  ahead : ∀ offset, ReflTransGen (ScanNext flash part) 0 offset →
    offset ∈ seen ∨ ReflTransGen (ScanNext flash part) s.offset offset
  frag : s.frag.nodes.Perm ((seen.filter fun offset =>
    isNode (nodeAt flash part offset) && isInode (nodeAt flash part offset)).map
      fun offset => part.offset + offset)
  dir : s.dir.nodes.Perm ((seen.filter fun offset =>
    isNode (nodeAt flash part offset) && isDirent (nodeAt flash part offset)).map
      fun offset => part.offset + offset)

theorem scanInv_start : ScanInv flash part Scan.start [] where
  nodup := List.nodup_nil
  reached := .refl
  behind := by simp
  ahead := fun _ h => Or.inr h
  frag := List.Perm.refl _
  dir := List.Perm.refl _

theorem scanInv_next (hacyclic : Acyclic (ScanNext flash part) 0) {s s' : Scan}
    {seen : List UInt32} (hinv : ScanInv flash part s seen)
    (h : FuelNext (buildRound flash part sortFragments room) s s') :
    ScanInv flash part s' (s.offset :: seen) := by
  obtain ⟨hnext, hfrag, hdir⟩ := buildRound_next h
  have hlist : ∀ (p : UInt32 → Bool) (l l' : List UInt32),
      l'.Perm ((if p s.offset then [part.offset + s.offset] else []) ++ l) →
      l.Perm ((seen.filter p).map fun offset => part.offset + offset) →
      l'.Perm (((s.offset :: seen).filter p).map
        fun offset => part.offset + offset) := by
    intro p l l' hl' hl
    refine hl'.trans ?_
    cases hp : p s.offset with
    | true =>
        rw [List.filter_cons_of_pos hp]
        exact hl.cons _
    | false =>
        rw [List.filter_cons_of_neg (by simp [hp])]
        exact hl
  exact
    { nodup := by
        refine List.nodup_cons.mpr ⟨fun hmem => ?_, hinv.nodup⟩
        exact hacyclic _ hinv.reached (hinv.behind _ hmem).2
      reached := hinv.reached.tail hnext
      behind := by
        intro offset hmem
        rcases List.mem_cons.mp hmem with rfl | hmem
        · exact ⟨⟨hinv.reached, hnext.1⟩, .single hnext⟩
        · exact ⟨(hinv.behind _ hmem).1, (hinv.behind _ hmem).2.tail hnext⟩
      ahead := by
        intro offset hreach
        rcases hinv.ahead offset hreach with hmem | hahead
        · exact Or.inl (List.mem_cons_of_mem _ hmem)
        · rcases ReflTransGen.cases_head hahead with rfl | ⟨c, hc, hrest⟩
          · exact Or.inl List.mem_cons_self
          · obtain rfl := scanNext_unique hnext hc
            exact Or.inr hrest
      frag := hlist _ _ _ hfrag hinv.frag
      dir := hlist _ _ _ hdir hinv.dir }

theorem scanInv_run (hacyclic : Acyclic (ScanNext flash part) 0) {s s' : Scan}
    {seen : List UInt32} (hinv : ScanInv flash part s seen)
    (h : ReflTransGen (FuelNext (buildRound flash part sortFragments room)) s s') :
    ∃ seen', ScanInv flash part s' seen' := by
  induction h with
  | refl => exact ⟨seen, hinv⟩
  | tail _ hstep ih =>
      obtain ⟨seen', hinv'⟩ := ih
      exact ⟨_, scanInv_next hacyclic hinv' hstep⟩

/-- The scan ends with each node it looked at in its list once, if and only if it does
not come back to an offset. -/
theorem scansOnce_iff (flash : Memory UInt8) (part : PartInfo)
    (sortFragments : Bool) :
    ScansOnce flash part sortFragments ↔ GoesOn flash part := by
  constructor
  · intro h
    obtain ⟨result, hresult⟩ := h.ends fun _ _ => true
    obtain ⟨hwalk, hempty⟩ := acyclic_of_fuelLoop_ends buildRound_stable
      Scan.offset (EmptyEnds flash part) buildRound_follows
      (fun _ _ => emptyEnds_of_returns) hresult
    exact ⟨hwalk, hempty⟩
  · intro h
    refine ⟨fun room => ?_, fun room s hs => ?_⟩
    · exact fuelLoop_ends_of_acyclic buildRound_stable
        Scan.offset (EmptyEnds flash part) (fun _ _ hnext => (buildRound_next hnext).1)
        (fun _ => buildRound_returns) h.walk h.empty
    · obtain ⟨s', hreach, hend⟩ :=
        (fuelLoop_returns_iff buildRound_stable).mp hs
      obtain ⟨rfl, hmax⟩ := buildRound_end hend
      obtain ⟨seen, hinv⟩ := scanInv_run h.walk scanInv_start hreach
      refine ⟨seen, hinv.nodup, fun offset => ⟨fun hmem =>
        (hinv.behind _ hmem).1, fun hvisited => ?_⟩, hinv.frag, hinv.dir⟩
      rcases hinv.ahead offset hvisited.1 with hmem | hahead
      · exact hmem
      · rcases ReflTransGen.cases_head hahead with rfl | ⟨c, hc, -⟩
        · exact absurd hvisited.2 hmax
        · exact absurd hc.1 hmax

end Lists

/-! ## Lengths that lead on -/

section Lengths

variable {flash : Memory UInt8} {part : PartInfo}

theorem toNat_lt_add {a b : UInt32} (hb : 0 < b.toNat)
    (hfits : a.toNat + b.toNat < 2 ^ 32) : a.toNat < (a + b).toNat := by
  rw [UInt32.toNat_add, Nat.mod_eq_of_lt hfits]
  omega

theorem toNat_lt_add_four {a : UInt32} (hfits : a.toNat + 4 < 2 ^ 32) :
    a.toNat < (a + 4).toNat := toNat_lt_add (by decide) hfits

/-- `max` of a partition that has room for an inode. -/
theorem PartInfo.max_toNat (hsize : 68 ≤ part.size.toNat) :
    part.max.toNat = part.size.toNat - 68 :=
  UInt32.toNat_sub_of_le _ _ (UInt32.le_iff_toNat_le.mpr hsize)

/-- The pointer `max` of `jffs2_scan_empty`. -/
theorem scanEmpty_max_toNat (hsize : 68 ≤ part.size.toNat)
    (hfits : part.offset.toNat + part.size.toNat < 2 ^ 32) :
    (part.offset + part.size - sizeofRawInode).toNat =
      part.offset.toNat + part.size.toNat - 68 := by
  have hadd : (part.offset + part.size).toNat =
      part.offset.toNat + part.size.toNat := by
    rw [UInt32.toNat_add, Nat.mod_eq_of_lt hfits]
  have hle : sizeofRawInode ≤ part.offset + part.size := by
    rw [UInt32.le_iff_toNat_le, hadd]
    exact hsize.trans (Nat.le_add_left _ _)
  rw [UInt32.toNat_sub_of_le _ _ hle, hadd]
  rfl

/-- The pointer of `jffs2_scan_empty` moves up. -/
theorem scanEmptyRound_lt (hsize : 68 ≤ part.size.toNat)
    (hfits : part.offset.toNat + part.size.toNat < 2 ^ 32) {p q : UInt32}
    (h : scanEmptyRound flash part p = .inr q) : p.toNat < q.toNat := by
  unfold scanEmptyRound at h
  split_ifs at h with hgo hspin
  have hlt := UInt32.lt_iff_toNat_lt.mp hgo.1
  rw [scanEmpty_max_toNat hsize hfits] at hlt
  obtain rfl := Sum.inr.inj h
  exact toNat_lt_add_four (by omega)

/-- It stops where it is only where the flash is not empty. -/
theorem scanEmptyRound_end (hsize : 68 ≤ part.size.toNat)
    (hfits : part.offset.toNat + part.size.toNat < 2 ^ 32) {p q : UInt32}
    (h : scanEmptyRound flash part p = .inl q) :
    q = p ∧ ¬ (p < part.offset + part.size - sizeofRawInode ∧
      (getFlMem flash p).leWord 0 = 0xffffffff) ∨ p.toNat < q.toNat := by
  unfold scanEmptyRound at h
  split_ifs at h with hgo hspin
  · have hlt := UInt32.lt_iff_toNat_lt.mp hgo.1
    rw [scanEmpty_max_toNat hsize hfits] at hlt
    obtain rfl := Sum.inl.inj h
    exact Or.inr (toNat_lt_add_four (by omega))
  · obtain rfl := Sum.inl.inj h
    exact Or.inl ⟨rfl, hgo⟩

theorem scanEmpty_reach_le (hsize : 68 ≤ part.size.toNat)
    (hfits : part.offset.toNat + part.size.toNat < 2 ^ 32) {p q : UInt32}
    (h : ReflTransGen (RoundNext (scanEmptyRound flash part)) p q) :
    p.toNat ≤ q.toNat := by
  induction h with
  | refl => exact Nat.le_refl _
  | tail _ hstep ih =>
      exact ih.trans (scanEmptyRound_lt hsize hfits hstep).le

/-- Behind an empty word. -/
theorem jffs2ScanEmpty_lt (hsize : 68 ≤ part.size.toNat)
    (hfits : part.offset.toNat + part.size.toNat < 2 ^ 32)
    {offset next : UInt32} (hlt : offset < part.max)
    (hempty : isEmpty (nodeAt flash part offset) = true)
    (h : Returns (jffs2ScanEmpty flash part offset) next) :
    offset.toNat < next.toNat := by
  have hmax := PartInfo.max_toNat hsize
  have hltNat := UInt32.lt_iff_toNat_lt.mp hlt
  have hstart : (part.offset + offset).toNat =
      part.offset.toNat + offset.toNat := by
    rw [UInt32.toNat_add, Nat.mod_eq_of_lt (by omega)]
  have hword : (getFlMem flash (part.offset + offset)).leWord 0 = 0xffffffff := by
    rw [isEmpty, Bool.and_eq_true, decide_eq_true_eq, decide_eq_true_eq] at hempty
    simp only [nodeMagic, nodeType, nodeAt, jffs2EmptyBitmask,
      Memory.leHalf, Nat.zero_add, Nat.reduceAdd] at hempty
    simp only [Memory.leWord, Nat.zero_add]
    omega
  obtain ⟨q, hq, rfl⟩ := returns_map.mp h
  obtain ⟨p, hreach, hend⟩ := roundLoop_returns_iff.mp hq
  -- the pointer has moved at least once
  have hmoved : (part.offset + offset).toNat < q.toNat := by
    have hlast := scanEmptyRound_end hsize hfits hend
    rcases ReflTransGen.cases_head hreach with rfl | ⟨c, hc, hrest⟩
    · rcases hlast with ⟨-, hstop⟩ | hmoved
      · refine absurd ⟨?_, hword⟩ hstop
        rw [UInt32.lt_iff_toNat_lt, scanEmpty_max_toNat hsize hfits, hstart]
        omega
      · exact hmoved
    · have hfirst := scanEmptyRound_lt hsize hfits hc
      have hle := scanEmpty_reach_le hsize hfits hrest
      rcases hlast with ⟨rfl, -⟩ | hlast
      · exact hfirst.trans_le hle
      · omega
  rw [hstart] at hmoved
  rw [UInt32.toNat_sub_of_le _ _ (UInt32.le_iff_toNat_le.mpr (by omega))]
  omega

/-- A partition inside the 32-bit numbers, in which the length of each node leads
on. -/
theorem goesOn_of_lengths (hsize : 68 ≤ part.size.toNat)
    (hfits : part.offset.toNat + part.size.toNat < 2 ^ 32)
    (hlengths : ∀ offset, Visited flash part offset →
      isNode (nodeAt flash part offset) = true →
      offset < offset + ((nodeTotlen (nodeAt flash part offset) + 3) &&& ~~~3)) :
    GoesOn flash part := by
  have hmax := PartInfo.max_toNat hsize
  constructor
  · refine acyclic_of_measure (fun offset => 2 ^ 32 - offset.toNat) ?_
    intro offset next hreach hnext
    have hup : offset.toNat < next.toNat := by
      obtain ⟨hlt, hnext⟩ := hnext
      have hltNat := UInt32.lt_iff_toNat_lt.mp hlt
      split_ifs at hnext with hnode hempty
      · rw [hnext]
        exact UInt32.lt_iff_toNat_lt.mp (hlengths offset ⟨hreach, hlt⟩ hnode)
      · exact jffs2ScanEmpty_lt hsize hfits hlt hempty hnext
      · rw [hnext]
        exact toNat_lt_add_four (by omega)
    have hbound := next.toNat_lt
    omega
  · intro offset _ _ _ _
    refine acyclic_of_measure (fun p => 2 ^ 32 - p.toNat) ?_
    intro p q _ hnext
    have hup := scanEmptyRound_lt hsize hfits hnext
    have hbound := q.toNat_lt
    omega

end Lengths

/-- A clean marker of length zero, with the checksum of its header. -/
def zeroLength : Memory UInt8 :=
  Memory.ofList 0 [0x85, 0x19, 0x03, 0x20, 0, 0, 0, 0, 9, 15, 200, 174]

/-- The scan looks at the marker for ever. -/
theorem zeroLength_not_scansOnce : ¬ ScansOnce zeroLength ⟨0, 0x1000⟩ false := by
  rw [scansOnce_iff]
  intro h
  refine h.walk 0 .refl (.single ⟨by decide, ?_⟩)
  have hnode : isNode (nodeAt zeroLength ⟨0, 0x1000⟩ 0) = true := by decide
  rw [if_pos hnode]
  decide

end TateFirmware.Jffs2
