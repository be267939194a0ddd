import Mathlib.Algebra.Order.Ring.Nat
import Mathlib.Data.Int.Basic
import Mathlib.Data.List.Nodup
import Mathlib.Logic.Function.Basic

/-!
# The items of a system image

`bowser_ota_from_target_files.py` knows the owner, mode, label and
capabilities of every file and directory of an image, and writes an updater
script that sets them.  To keep the script short it sets the most popular
values of a directory recursively, and then those of the items that differ.
-/

namespace TateFirmware.Release

/-! ## The tree -/

/-- What `fs_config` records for an item.  The mode is read as an octal
number. -/
structure Metadata where
  uid : ℤ
  gid : ℤ
  mode : ℕ
  selabel : Option String
  capabilities : Option String
deriving DecidableEq, Repr

/-- `Item`: a file, or a directory with its children. -/
inductive Item where
  | file (name : String) (metadata : Metadata)
  | dir (name : String) (metadata : Metadata) (children : List Item)

def Item.name : Item → String
  | .file name _ => name
  | .dir name _ _ => name

/-- A path, from the root of the file system on. -/
abbrev Path := List String

/-- An item with its path. -/
structure Entry where
  path : Path
  isDir : Bool
  metadata : Metadata

mutual

/-- The items of the tree below `parent`. -/
def Item.entries (parent : Path) : Item → List Entry
  | .file name metadata => [⟨parent ++ [name], false, metadata⟩]
  | .dir name metadata children =>
      ⟨parent ++ [name], true, metadata⟩ ::
        entriesOf (parent ++ [name]) children

/-- The items of some trees in one directory. -/
def entriesOf (parent : Path) : List Item → List Entry
  | [] => []
  | i :: children => i.entries parent ++ entriesOf parent children

end

mutual

/-- The children of every directory have different names. -/
def Item.DistinctNames : Item → Prop
  | .file _ _ => True
  | .dir _ _ children =>
      (children.map Item.name).Nodup ∧ distinctNamesOf children

def distinctNamesOf : List Item → Prop
  | [] => True
  | i :: children => i.DistinctNames ∧ distinctNamesOf children

end

/-! ## Counting -/

/-- The tuple `(uid, gid, dmode, fmode, selabel, capabilities)` of an item;
one of the modes is `None`. -/
structure Key where
  uid : ℤ
  gid : ℤ
  dmode : Option ℕ
  fmode : Option ℕ
  selabel : Option String
  capabilities : Option String
deriving DecidableEq, Repr

def Metadata.dirKey (m : Metadata) : Key :=
  ⟨m.uid, m.gid, some m.mode, none, m.selabel, m.capabilities⟩

def Metadata.fileKey (m : Metadata) : Key :=
  ⟨m.uid, m.gid, none, some m.mode, m.selabel, m.capabilities⟩

section Dict

variable {κ : Type*} [DecidableEq κ]

/-- `d[k] = d.get(k, 0) + v`. -/
def dictAdd (d : List (κ × ℕ)) (k : κ) (v : ℕ) : List (κ × ℕ) :=
  match d with
  | [] => [(k, v)]
  | (k', v') :: d =>
      if k' = k then (k', v' + v) :: d else (k', v') :: dictAdd d k v

/-- `dictAdd` for all items of another dictionary. -/
def dictAddAll (d d' : List (κ × ℕ)) : List (κ × ℕ) :=
  d'.foldl (fun d kv => dictAdd d kv.1 kv.2) d

end Dict

/-- How often each key occurs among an item and its descendants. -/
abbrev Counts := List (Key × ℕ)

mutual

/-- The dictionary that `CountChildMetadata` returns for a directory; for a
file, what its parent counts. -/
def Item.descendants : Item → Counts
  | .file _ metadata => [(metadata.fileKey, 1)]
  | .dir _ metadata children => countAll [(metadata.dirKey, 1)] children

def countAll (d : Counts) : List Item → Counts
  | [] => d
  | i :: children => countAll (dictAddAll d i.descendants) children

end

/-- The order of `(count, (uid, gid))` tuples. -/
def tupleLe (a b : ℕ × ℤ × ℤ) : Bool :=
  a.1 < b.1 || a.1 = b.1 && (a.2.1 < b.2.1 || a.2.1 = b.2.1 && a.2.2 ≤ b.2.2)

/-- `MostPopularKey(d, default)`: the last of the sorted tuples. -/
def mostPopularKey (d : List ((ℤ × ℤ) × ℕ)) (default : ℤ × ℤ) : ℤ × ℤ :=
  match d.map Prod.swap with
  | [] => default
  | x :: xs => (xs.foldl (fun y z => if tupleLe y z then z else y) x).2

/-- A tuple `(uid, gid, dmode, fmode, selabel, capabilities)` that all
descendants of a directory are set to; `-1` stands for values they do not
have. -/
structure Setting where
  uid : ℤ
  gid : ℤ
  dmode : ℤ
  fmode : ℤ
  selabel : Option String
  capabilities : Option String
deriving DecidableEq, Repr

/-- The counters `best_dmode`, `best_fmode`, `best_selabel` and
`best_capabilities`. -/
structure Best where
  dmode : ℕ × ℕ
  fmode : ℕ × ℕ
  selabel : ℕ × Option String
  capabilities : ℕ × Option String

/-- `(0, 0755)`, `(0, 0644)`, `(0, None)` and `(0, None)`. -/
def Best.initial : Best := ⟨(0, 0o755), (0, 0o644), (0, none), (0, none)⟩

/-- One round of the loop over the counted keys. -/
def Best.count (b : Best) (k : Key) (count : ℕ) : Best where
  dmode :=
    match k.dmode with
    | some mode => if b.dmode.1 ≤ count then (count, mode) else b.dmode
    | none => b.dmode
  fmode :=
    match k.fmode with
    | some mode => if b.fmode.1 ≤ count then (count, mode) else b.fmode
    | none => b.fmode
  selabel :=
    if k.selabel.isSome ∧ b.selabel.1 ≤ count then (count, k.selabel)
    else b.selabel
  capabilities :=
    if k.capabilities.isSome ∧ b.capabilities.1 ≤ count then
      (count, k.capabilities)
    else b.capabilities

/-- The `best_subtree` of a directory, from its counts in the order in which
the dictionary yields them. -/
def bestSubtree (items : Counts) : Setting :=
  let ug := mostPopularKey
    (items.foldl (fun ug kv => dictAdd ug (kv.1.uid, kv.1.gid) kv.2) []) (0, 0)
  let best := items.foldl
    (fun b kv => if (kv.1.uid, kv.1.gid) ≠ ug then b else b.count kv.1 kv.2)
    Best.initial
  { uid := ug.1
    gid := ug.2
    dmode := best.dmode.2
    fmode := best.fmode.2
    selabel := best.selabel.2
    capabilities := best.capabilities.2 }

/-! ## The script -/

/-- The commands of the updater script. -/
inductive Command where
  | setPerm (path : Path) (metadata : Metadata)
  | setPermRecursive (path : Path) (setting : Setting)

/-- `item.uid != current[0] or ..`, with the mode that the kind of the item
has in `current`. -/
def Setting.Differs (current : Setting) (mode : ℤ) (m : Metadata) : Prop :=
  m.uid ≠ current.uid ∨ m.gid ≠ current.gid ∨ m.mode ≠ mode ∨
    m.selabel ≠ current.selabel ∨ m.capabilities ≠ current.capabilities

instance (current : Setting) (mode : ℤ) (m : Metadata) :
    Decidable (current.Differs mode m) :=
  inferInstanceAs (Decidable (_ ∨ _ ∨ _ ∨ _ ∨ _))

section Script

variable (iteritems : Path → Counts → Counts)

mutual

/-- `recurse(item, current)`, for an item in the directory `parent`.  The
order in which the dictionary of a directory yields its items is a
parameter. -/
def Item.recurse (parent : Path) (current : Setting) : Item → List Command
  | .file name metadata =>
      if current.Differs current.fmode metadata then
        [.setPerm (parent ++ [name]) metadata]
      else []
  | .dir name metadata children =>
      let path := parent ++ [name]
      let best := bestSubtree
        (iteritems path (countAll [(metadata.dirKey, 1)] children))
      (if current ≠ best then [.setPermRecursive path best] else []) ++
        (if best.Differs best.dmode metadata then [.setPerm path metadata]
          else []) ++
        recurseAll path best children

def recurseAll (parent : Path) (current : Setting) :
    List Item → List Command
  | [] => []
  | i :: children =>
      i.recurse parent current ++ recurseAll parent current children

end

/-- `(-1, -1, -1, -1, None, None)`. -/
def Setting.unknown : Setting := ⟨-1, -1, -1, -1, none, none⟩

/-- `SetPermissions(script)` of a tree in the root directory. -/
def Item.setPermissions (root : Item) : List Command :=
  root.recurse iteritems [] .unknown

end Script

/-! ## The updater -/

/-- What the file system stores for a path. -/
structure Attributes where
  uid : ℤ
  gid : ℤ
  mode : ℤ
  selabel : Option String
  capabilities : Option String
deriving DecidableEq, Repr

def Metadata.attributes (m : Metadata) : Attributes :=
  ⟨m.uid, m.gid, m.mode, m.selabel, m.capabilities⟩

/-- The attributes a setting gives to a directory or a file. -/
def Setting.attributes (s : Setting) (isDir : Bool) : Attributes :=
  ⟨s.uid, s.gid, if isDir then s.dmode else s.fmode, s.selabel,
    s.capabilities⟩

/-- The attributes of all paths. -/
abbrev FileSystem := Path → Attributes

/-- One command, on a file system where `isDir` tells the directories. -/
def Command.exec (isDir : Path → Bool) (fs : FileSystem) :
    Command → FileSystem
  | .setPerm path metadata => Function.update fs path metadata.attributes
  | .setPermRecursive path setting => fun q =>
      if path <+: q then setting.attributes (isDir q) else fs q

/-- The commands of a script, in order. -/
def execAll (isDir : Path → Bool) (script : List Command) (fs : FileSystem) :
    FileSystem :=
  script.foldl (Command.exec isDir) fs

end TateFirmware.Release
