import TateFirmware.LibGeneric.CString
import TateFirmware.Support.Memory

/-!
# Nodes and lists of the JFFS2 reader

The valid nodes of a partition, the lists that the scan puts them into and the
two readers of these lists, from `fs/jffs2/jffs2_1pass.c`.  A list is kept with
or without `CFG_JFFS2_SORT_FRAGMENTS`.  The flash is read-only: that
`compare_dirents` stores an inode number of zero into an old entry goes to a
copy of the node, or to flash, and changes no node.
-/

namespace TateFirmware.Jffs2

open LibGeneric Support

/-! ## Nodes -/

/-- `struct jffs2_raw_dirent`. -/
structure RawDirent where
  pino : ℕ
  version : ℕ
  /-- Zero for an unlink. -/
  ino : ℕ
  name : List UInt8
  name_length : name.length < 256

/-- The field `nsize`. -/
def RawDirent.nsize (d : RawDirent) : ℕ := d.name.length

/-- `struct jffs2_raw_inode`, with the memory behind it. -/
structure RawInode where
  ino : ℕ
  version : ℕ
  isize : ℕ
  offset : ℕ
  csize : ℕ
  dsize : ℕ
  compr : UInt8
  src : Memory UInt8

/-- A node whose checksums are right. -/
inductive Node where
  | inode (n : RawInode)
  | dirent (d : RawDirent)

/-- `JFFS2_COMPR_NONE`. -/
def jffs2ComprNone : UInt8 := 0

/-- `JFFS2_COMPR_ZERO`. -/
def jffs2ComprZero : UInt8 := 1

/-! ## Lists -/

/-- `struct b_list`: its nodes in order, and the position of `listLast`. -/
structure BList (α : Type*) where
  nodes : List α
  listLast : Option ℕ

/-- The list of `jffs_init_1pass_list`. -/
def BList.empty {α : Type*} : BList α := ⟨[], none⟩

section Insert

variable {α : Type*}

/-- How many nodes `insert_node` passes without comparing them. -/
def BList.passed (listCompare : α → α → Bool) (list : BList α) (new : α) :
    ℕ :=
  if list.nodes.getLast?.any (listCompare new) then list.nodes.length
  else
    match list.listLast with
    | none => 0
    | some i =>
        if (list.nodes[i]?).any (listCompare new) then i + 1 else 0

/-- Where `insert_node` puts a new node. -/
def BList.place (listCompare : α → α → Bool) (list : BList α) (new : α) : ℕ :=
  let start := list.passed listCompare new
  start + ((list.nodes.drop start).takeWhile (listCompare new)).length

/-- `insert_node` with `CFG_JFFS2_SORT_FRAGMENTS`. -/
def BList.insertSorted (listCompare : α → α → Bool) (list : BList α)
    (new : α) : BList α :=
  let k := list.place listCompare new
  { nodes := list.nodes.take k ++ new :: list.nodes.drop k
    listLast :=
      if k < list.nodes.length then if k = 0 then none else some (k - 1)
      else list.listLast }

/-- `insert_node`; without a comparison the list is not sorted. -/
def BList.insertNode (listCompare : Option (α → α → Bool)) (list : BList α)
    (new : α) : BList α :=
  match listCompare with
  | some listCompare => list.insertSorted listCompare new
  | none => { list with nodes := list.nodes ++ [new] }

end Insert

/-- `compare_inodes`. -/
def compareInodes (new old : RawInode) : Bool := new.version > old.version

/-- `compare_dirents`. -/
def compareDirents (new old : RawDirent) : Bool :=
  if new.pino ≠ old.pino then new.pino > old.pino
  else if new.nsize ≠ old.nsize then new.nsize > old.nsize
  else
    let cmp := strncmp new.name old.name new.nsize
    if cmp ≠ 0 then cmp > 0 else new.version > old.version

/-- `struct b_lists`. -/
structure BLists where
  dir : BList RawDirent
  frag : BList RawInode

section Build

variable (sortFragments : Bool)

/-- `listCompare` of a list that `jffs_init_1pass_list` has set up. -/
def listCompare {α : Type*} (compare : α → α → Bool) :
    Option (α → α → Bool) :=
  if sortFragments then some compare else none

/-- One node of the scan in `jffs2_1pass_build_lists`. -/
def BLists.addNode (pL : BLists) : Node → BLists
  | .inode n =>
      { pL with
        frag := pL.frag.insertNode (listCompare sortFragments compareInodes) n }
  | .dirent d =>
      { pL with
        dir := pL.dir.insertNode (listCompare sortFragments compareDirents) d }

/-- `jffs2_1pass_build_lists` over the valid nodes of a partition, in the order
they stand in flash. -/
def jffs21passBuildLists (nodes : List Node) : BLists :=
  nodes.foldl (BLists.addNode sortFragments) ⟨BList.empty, BList.empty⟩

end Build

/-! ## Looking up a name -/

/-- The locals `version` and `inode` of `jffs2_1pass_find_inode`. -/
structure FindInode where
  version : ℕ
  inode : ℕ

/-- `jDir` is a match. -/
def RawDirent.matches (d : RawDirent) (name : List UInt8) (pino : ℕ) : Bool :=
  pino = d.pino && name.length = d.nsize && d.ino ≠ 0 &&
    strncmp d.name name name.length = 0

/-- The loop body of `jffs2_1pass_find_inode`. -/
def findInodeStep (name : List UInt8) (pino : ℕ) (s : FindInode)
    (d : RawDirent) : FindInode :=
  if d.matches name pino then
    if d.version < s.version then s else ⟨d.version, d.ino⟩
  else s

/-- `jffs2_1pass_find_inode`. -/
def jffs21passFindInode (pL : BLists) (name : List UInt8) (pino : ℕ) : ℕ :=
  (pL.dir.nodes.foldl (findInodeStep (cstr name) pino) ⟨0, 0⟩).inode

/-! ## Reading a file -/

section Read

variable (sortFragments : Bool)

-- what a decompressor writes for a node, for the methods it knows
variable (decompress : RawInode → Option (List UInt8))

/-- The locals of `jffs2_1pass_read_inode`, and the memory from `dest` on,
where `dest` is not `NULL`. -/
structure ReadInode where
  totalSize : ℕ
  latestVersion : ℕ
  dest : Option (Memory UInt8)

/-- The file length is taken from the newest node. -/
def ReadInode.newest (s : ReadInode) (n : RawInode) : ReadInode :=
  if n.version ≥ s.latestVersion then
    { s with totalSize := n.isize, latestVersion := n.version }
  else s

/-- The bytes of a fragment; `none` is an unknown method. -/
def RawInode.bytes (n : RawInode) : Option (List UInt8) :=
  if n.compr = jffs2ComprNone then some (n.src.read 0 n.dsize)
  else if n.compr = jffs2ComprZero then some (List.replicate n.dsize 0)
  else decompress n

/-- The loop over the fragments of a file; `none` is a return of `-1`. -/
def readInodeLoop (inode : ℕ) : List RawInode → ReadInode → Option ReadInode
  | [], s => some s
  | n :: rest, s =>
      if inode = n.ino then
        let s := if sortFragments then s else s.newest n
        match s.dest with
        | none => readInodeLoop inode rest s
        | some dest =>
            if n.offset > s.totalSize then readInodeLoop inode rest s
            else
              match n.bytes decompress with
              | none => none
              | some bytes =>
                  readInodeLoop inode rest
                    { s with dest := some (dest.copyIn n.offset bytes) }
      else readInodeLoop inode rest s

/-- The loop that finds the file size before any data is loaded. -/
def findSize (inode : ℕ) (frag : List RawInode) (s : ReadInode) : ReadInode :=
  frag.foldl (fun s n => if inode = n.ino then s.newest n else s) s

/-- `jffs2_1pass_read_inode`; `none` is a return of `-1`. -/
def jffs21passReadInode (pL : BLists) (inode : ℕ)
    (dest : Option (Memory UInt8)) : Option (ℕ × Option (Memory UInt8)) :=
  let s : ReadInode := ⟨0, 0, dest⟩
  let s := if sortFragments then findSize inode pL.frag.nodes s else s
  (readInodeLoop sortFragments decompress inode pL.frag.nodes s).map
    fun s => (s.totalSize, s.dest)

end Read

end TateFirmware.Jffs2
