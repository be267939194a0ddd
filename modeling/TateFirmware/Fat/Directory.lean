import TateFirmware.Fat.Volume
import TateFirmware.Support.Rounds

/-!
# Directories of a volume

`do_fat_read` looks for the first name of a path sector by sector from `rootdir_sect`
on, and for the further ones in the clusters of directories (`get_dentfromdir`).  A long
name is put together from slots by `get_vfatname`, which writes the entry that belongs
to it over its first slot.

The static buffers of the source keep what was in them behind the part that a read
overwrites.  A long name that leads out of the clusters that have been read, or out of
the 256 bytes for a name, is `outside`: the source goes on with other memory there.
-/

namespace TateFirmware.Fat

open LibGeneric Support

/-! ## Names -/

/-- `sizeof(dir_entry)`. -/
def direntSize : ℕ := 32

/-- The entry or slot of a number in a buffer. -/
def entryAt (m : Memory UInt8) (k : ℕ) : Memory UInt8 := m.shift (direntSize * k)

/-- `TOLOWER` of each byte. -/
def downcase (s : List UInt8) : List UInt8 :=
  s.map fun c => if ch 'A' ≤ c ∧ c ≤ ch 'Z' then c + (ch 'a' - ch 'A') else c

/-- The marks `DELETED_FLAG` and `aRING` at the start of a name are replaced. -/
def fixName : List UInt8 → List UInt8
  | [] => []
  | c :: rest => if c = 0xe5 then [] else downcase ((if c = 0x05 then 0xe5 else c) :: rest)

/-- `get_name`. -/
def getName (dirent : Memory UInt8) : List UInt8 :=
  let upToBlank := List.takeWhile fun c : UInt8 => c ≠ 0 ∧ c ≠ ch ' '
  let name := upToBlank (dirent.read 0 8)
  let ext := dirent.read 8 3
  fixName (if peek ext ≠ 0 ∧ peek ext ≠ ch ' ' then name ++ ch '.' :: upToBlank ext
    else name)

/-- The characters of a slot, of which the lower byte is used. -/
def slotChars (slot : Memory UInt8) : List UInt8 :=
  [1, 3, 5, 7, 9, 14, 16, 18, 20, 22, 24, 28, 30].map slot

/-- `slot2str` behind what `l_name` holds, and whether the terminator is found. -/
def slot2str (slot : Memory UInt8) (lName : List UInt8) : List UInt8 × Bool :=
  (lName ++ (slotChars slot).takeWhile (· ≠ 0), (slotChars slot).any (· = 0))

/-- The first loop of `get_vfatname`, over slots below `last`: the slot it stops at, or
none if a slot has another number than the counter. -/
def countSlots (cluster : Memory UInt8) (last : ℕ) : ℕ → ℕ → Option ℕ
  | 0, slotptr => some slotptr
  | counter + 1, slotptr =>
      if slotptr < last then
        if (entryAt cluster slotptr 0 &&& 0xbf).toNat ≠ counter + 1 then none
        else countSlots cluster last counter (slotptr + 1)
      else some slotptr

/-- The first slot with an `id` of at most `1`; none if the walk leaves the slots that
are left. -/
def lastSlot (block : Memory UInt8) : ℕ → ℕ → Option ℕ
  | 0, _ => none
  | left + 1, slotptr =>
      if 0x01 < entryAt block slotptr 0 then lastSlot block left (slotptr + 1)
      else some slotptr

/-- The slots of the second cluster, from a slot back to the first one. -/
def nameBack (block : Memory UInt8) : ℕ → List UInt8 → List UInt8
  | 0, lName => (slot2str (entryAt block 0) lName).1
  | slotptr + 1, lName =>
      nameBack block slotptr (slot2str (entryAt block (slotptr + 1)) lName).1

/-- The last loop of `get_vfatname`, in front of a slot; none if it leaves the
cluster. -/
def slotsBack (cluster : Memory UInt8) : ℕ → List UInt8 → Option (List UInt8)
  | 0, _ => none
  | slotptr + 1, lName =>
      let (lName, terminated) := slot2str (entryAt cluster slotptr) lName
      if terminated ∨ entryAt cluster slotptr 0 &&& 0x40 ≠ 0 then some lName
      else slotsBack cluster slotptr lName

/-- `DIRENTSPERCLUST`. -/
def Volume.direntsPerClust (v : Volume) : ℕ := v.clustBytes / direntSize

/-- `DIRENTSPERBLOCK`. -/
def direntsPerBlock : ℕ := fsBlockSize / direntSize

/-- The end of `get_vfatname`: the slots in front of `slotptr` are put behind what is
there of the name, and the entry is written over the slot `retdent`. -/
def finishName (cluster : Memory UInt8) (retdent slotptr : ℕ) (lName : List UInt8)
    (realdent : Memory UInt8) : Option (Option (Memory UInt8 × List UInt8)) :=
  match slotsBack cluster slotptr lName with
  | none => none
  | some lName =>
      if lName.length < 256 then
        some (some (cluster.copyIn (direntSize * retdent) (realdent.read 0 direntSize),
          fixName lName))
      else none

/-- `get_vfatname` of the slot `retdent` in a cluster: none if it leaves its buffers;
otherwise none if it fails, or the cluster afterwards and the name. -/
def getVfatname (v : Volume) (dev : Device) (vfatBlock : Memory UInt8)
    (curclust : UInt32) (cluster : Memory UInt8) (retdent : ℕ) :
    Option (Option (Memory UInt8 × List UInt8)) :=
  let last := v.direntsPerClust
  match countSlots cluster last (entryAt cluster retdent 0 &&& 0xbf).toNat retdent with
  | none => some none
  | some slotptr =>
      if slotptr < last then
        finishName cluster retdent slotptr [] (entryAt cluster slotptr)
      else
        let curclust := v.fatent dev curclust
        if checkClust v.fatsize curclust then some none
        else
          match v.getCluster dev curclust vfatBlock 0 v.clustBytes with
          | (_, false) => some none
          | (block, true) =>
              match lastSlot block last 0 with
              | none => none
              | some slotptr2 =>
                  if slotptr2 + 1 < last then
                    finishName cluster retdent (slotptr - 1) (nameBack block slotptr2 [])
                      (entryAt block (slotptr2 + 1))
                  else none

/-! ## Entries -/

/-- Attributes of an entry. -/
def attr (dirent : Memory UInt8) : UInt8 := dirent 11

/-- `START`. -/
def Volume.start (v : Volume) (dirent : Memory UInt8) : UInt32 :=
  UInt32.ofNat (dirent.leHalf 26 +
    if v.fatsize = .fat32 then dirent.leHalf 20 * 2 ^ 16 else 0)

/-- What the search makes of an entry, or of the entries of a buffer. -/
inductive Scan where
  /-- A long name leads out of the buffers. -/
  | outside
  /-- The entry is passed over. -/
  | pass
  /-- The search ends without an entry. -/
  | stop
  | found (dirent : Memory UInt8)

/-- Entries one after the other, where each may change the buffer. -/
def scanEntries (entry : Memory UInt8 → ℕ → Memory UInt8 × Scan) :
    ℕ → ℕ → Memory UInt8 → Scan
  | 0, _, _ => .pass
  | left + 1, i, block =>
      match entry block i with
      | (block, .pass) => scanEntries entry left (i + 1) block
      | (_, verdict) => verdict

/-- The static buffers. -/
structure Buffers where
  doFatReadBlock : Memory UInt8
  getDentfromdirBlock : Memory UInt8
  getVfatnameBlock : Memory UInt8

/-- `LS_ROOT`. -/
def lsRoot : ℕ := 2

variable (v : Volume) (dev : Device) (bufs : Buffers)

/-- An entry with the attribute `ATTR_VOLUME`, which may be the first slot of a long
name; `next` goes on with the buffer and the name. -/
def volumeEntry (curclust : UInt32) (block : Memory UInt8) (i : ℕ)
    (next : Memory UInt8 → List UInt8 → Memory UInt8 × Scan) : Memory UInt8 × Scan :=
  let dirent := entryAt block i
  if attr dirent &&& 0x0f ≠ 0 ∧ dirent 0 &&& 0x40 ≠ 0 then
    match getVfatname v dev bufs.getVfatnameBlock curclust block i with
    | none => (block, .outside)
    | some none => next block []
    | some (some (block, lName)) => next block lName
  else (block, .pass)

/-- One entry in `get_dentfromdir`; what is printed is left out, and with it the check
sum of short names. -/
def dirEntry (name : List UInt8) (dols : ℕ) (curclust : UInt32) (block : Memory UInt8)
    (i : ℕ) : Memory UInt8 × Scan :=
  let rest := fun (block : Memory UInt8) (lName : List UInt8) =>
    let dirent := entryAt block i
    if dirent 0 = 0 then (block, Scan.stop)
    else if dols ≠ 0 then (block, .pass)
    else if name ≠ getName dirent ∧ name ≠ lName then (block, .pass)
    else (block, .found dirent)
  let dirent := entryAt block i
  if dirent 0 = 0xe5 then (block, .pass)
  else if attr dirent &&& 8 ≠ 0 then
    volumeEntry v dev bufs curclust block i fun block lName =>
      if dols ≠ 0 then (block, .pass) else rest block lName
  else rest block []

/-- One entry in the root loop of `do_fat_read`. -/
def rootEntry (name : List UInt8) (dols : ℕ) (isdir : Bool) (block : Memory UInt8)
    (i : ℕ) : Memory UInt8 × Scan :=
  let rest := fun (block : Memory UInt8) (lName : List UInt8) =>
    let dirent := entryAt block i
    if dols = lsRoot then (block, Scan.pass)
    else if name ≠ getName dirent ∧ name ≠ lName then (block, .pass)
    else if isdir ∧ attr dirent &&& 16 = 0 then (block, .stop)
    else (block, .found dirent)
  let dirent := entryAt block i
  if attr dirent &&& 8 ≠ 0 then
    volumeEntry v dev bufs 0 block i fun block lName =>
      if dols = lsRoot then (block, .pass) else rest block lName
  else if dirent 0 = 0 then (block, .stop)
  else rest block []

/-! ## `get_dentfromdir` -/

/-- What `get_dentfromdir` returns. -/
inductive DirResult where
  | outside
  | null
  | found (dirent : Memory UInt8)

/-- The entries of a cluster; none if it cannot be read. -/
def scanCluster (name : List UInt8) (dols : ℕ) (curclust : UInt32) : Option Scan :=
  match v.getCluster dev curclust bufs.getDentfromdirBlock 0 v.clustBytes with
  | (_, false) => none
  | (block, true) =>
      some (scanEntries (dirEntry v dev bufs name dols curclust) v.direntsPerClust 0
        block)

/-- One round of `get_dentfromdir`, at a cluster. -/
def dirRound (name : List UInt8) (dols : ℕ) (curclust : UInt32) :
    DirResult ⊕ UInt32 :=
  match scanCluster v dev bufs name dols curclust with
  | none => .inl .null
  | some .outside => .inl .outside
  | some .stop => .inl .null
  | some (.found dirent) => .inl (.found dirent)
  | some .pass =>
      let curclust := v.fatent dev curclust
      if checkClust v.fatsize curclust then .inl .null else .inr curclust

/-- `get_dentfromdir` from the first cluster of the directory `retdent`. -/
def getDentfromdir (name : List UInt8) (retdent : Memory UInt8) (dols fuel : ℕ) :
    Option DirResult :=
  roundLoop (dirRound v dev bufs name dols) fuel (v.start retdent)

/-! ## The root directory -/

/-- A place of the root loop. -/
structure RootPlace where
  cursect : UInt32
  j : UInt32
  rootCluster : UInt32
deriving DecidableEq

/-- What the first component of a path asks for. -/
structure RootQuery where
  name : List UInt8
  dols : ℕ
  isdir : Bool

/-- How the root loop ends. -/
inductive RootResult where
  | outside
  | ret (value : ℤ)
  | found (dirent : Memory UInt8)

/-- The entries of a sector; none if it cannot be read. -/
def scanSector (q : RootQuery) (cursect : UInt32) : Option Scan :=
  (dev.read cursect.toNat v.clustSize).map fun bytes =>
    scanEntries (rootEntry v dev bufs q.name q.dols q.isdir) direntsPerBlock 0
      (bufs.doFatReadBlock.copyIn 0 bytes)

/-- Where the root loop goes on: on FAT32 at the next root cluster when a cluster has
been processed, which is not checked. -/
def RootPlace.next (s : RootPlace) : RootPlace :=
  if v.fatsize = .fat32 then
    if s.j + 1 = UInt32.ofNat v.clustSize then
      let nxtClust := v.fatent dev s.rootCluster
      ⟨UInt32.ofInt (v.dataBegin + nxtClust.toNat * v.clustSize), 0, nxtClust⟩
    else ⟨s.cursect + 1, s.j + 1, s.rootCluster⟩
  else ⟨s.cursect + 1, s.j, s.rootCluster⟩

/-- One round of the root loop. -/
def rootRound (q : RootQuery) (s : RootPlace) : RootResult ⊕ RootPlace :=
  match scanSector v dev bufs q s.cursect with
  | none => .inl (.ret (-1))
  | some .outside => .inl .outside
  | some .stop => .inl (.ret (if q.dols = lsRoot then 0 else -1))
  | some (.found dirent) => .inl (.found dirent)
  | some .pass => .inr (s.next v dev)

end TateFirmware.Fat
