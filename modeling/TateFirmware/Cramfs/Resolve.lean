import TateFirmware.LibGeneric.CString
import TateFirmware.Support.Fields
import TateFirmware.Support.Records

/-!
# Looking up a path in cramfs

`cramfs_resolve` of `fs/cramfs/cramfs.c`.  A name in a directory is compared over its
own length, so that an entry matches each component that starts with its name.  The
components come from `strtok` one at a time, and run out where a path that is loaded
names a directory.
-/

namespace TateFirmware.Cramfs

open LibGeneric Support

/-! ## Components of a path -/

/-- `strtok` with the delimiter `/`, and the string that the next call goes on with;
a null pointer for that string is the empty string. -/
def strtok (s : List UInt8) : Option (List UInt8 × List UInt8) :=
  let sbegin := s.dropWhile (· = ch '/')
  if sbegin = [] then none
  else
    some (sbegin.takeWhile (· ≠ ch '/'), (sbegin.dropWhile (· ≠ ch '/')).tail)

theorem strtok_rest_lt {s token rest : List UInt8} (h : strtok s = some (token, rest)) :
    rest.length < s.length := by
  unfold strtok at h
  dsimp only at h
  split at h
  · cases h
  · rename_i hne
    obtain ⟨-, rfl⟩ := Prod.mk.inj (Option.some.inj h)
    have hskip := (List.dropWhile_sublist (p := (· = ch '/')) (l := s)).length_le
    have htoken := (List.dropWhile_sublist (p := (· ≠ ch '/'))
      (l := s.dropWhile (· = ch '/'))).length_le
    have hpos := List.length_pos_of_ne_nil hne
    rw [List.length_tail]
    omega

/-- What the calls of `strtok` return, one after the other. -/
def components (path : List UInt8) : List (List UInt8) :=
  match _h : strtok path with
  | none => []
  | some next => next.1 :: components next.2
termination_by path.length
decreasing_by exact strtok_rest_lt _h

/-- The components are what stands between slashes. -/
theorem components_eq (path : List UInt8) :
    components path = fields (· = ch '/') path := by
  induction path using components.induct with
  | case1 path hnone =>
      rw [components, hnone]
      unfold strtok at hnone
      dsimp only at hnone
      split at hnone
      next hskip => rw [← fields_dropWhile, hskip, fields_nil]
      next => cases hnone
  | case2 path next hsome ih =>
      rw [components, hsome]
      dsimp only
      rw [ih]
      unfold strtok at hsome
      dsimp only at hsome
      split at hsome
      next => cases hsome
      next hne =>
        obtain rfl := Option.some.inj hsome
        have hhead := List.head?_dropWhile_not (· = ch '/') path
        rw [← fields_dropWhile _ path]
        generalize path.dropWhile (· = ch '/') = start at hne hhead ⊢
        cases start with
        | nil => exact absurd rfl hne
        | cons c start =>
            rw [fields_of_head _ (by simpa using hhead)]
            simp only [ne_eq, decide_not]

theorem components_ne_nil {path name : List UInt8} (h : name ∈ components path) :
    name ≠ [] := by
  rw [components_eq] at h
  simpa using (List.mem_filter.mp h).2

/-! ## Inodes and directories -/

section Image

-- the file system, from the address `begin` on
variable (image : Memory UInt8)

/-- The field `mode` of the inode at an offset. -/
def inodeMode (inode : ℕ) : ℕ := image.leHalf inode

/-- The field `size`. -/
def inodeSize (inode : ℕ) : ℕ := image.leWord (inode + 4) % 2 ^ 24

/-- `CRAMFS_GET_NAMELEN`. -/
def getNamelen (inode : ℕ) : ℕ := image.leWord (inode + 8) % 2 ^ 6

/-- `CRAMFS_GET_OFFSET`. -/
def getOffset (inode : ℕ) : ℕ := image.leWord (inode + 8) / 2 ^ 6

/-- `sizeof (struct cramfs_inode)`. -/
def sizeofInode : ℕ := 12

/-- `S_ISDIR`. -/
def isDir (inode : ℕ) : Bool := inodeMode image inode &&& 0o170000 = 0o040000

/-- `S_ISREG`. -/
def isReg (inode : ℕ) : Bool := inodeMode image inode &&& 0o170000 = 0o100000

/-- The length of a name without the zeros it is padded with. -/
def trimmedLen (name : Memory UInt8) : ℕ → ℕ
  | 0 => 0
  | namelen + 1 => if name namelen = 0 then trimmedLen name namelen else namelen + 1

/-- The name of an entry. -/
def entryName (inode : ℕ) : List UInt8 :=
  image.read (inode + sizeofInode)
    (trimmedLen (image.shift (inode + sizeofInode)) (4 * getNamelen image inode))

/-- Where a directory stands, the arguments `offset` and `size` of
`cramfs_resolve`. -/
structure Dir where
  offset : ℕ
  size : ℕ

/-- The directory of an inode. -/
def subdir (inode : ℕ) : Dir := ⟨4 * getOffset image inode, inodeSize image inode⟩

/-! ## Looking up a name -/

/-- How the loop of `cramfs_resolve` over a directory ends. -/
inductive ScanEnd where
  /-- A name is equal over the length of the entry's. -/
  | found (inode : ℕ)
  /-- An entry without a name. -/
  | noName
  /-- The string compared with is a null pointer. -/
  | nullRead
  | missing

/-- The loop of `cramfs_resolve`; no file name is a null pointer. -/
def scanDir (filename : Option (List UInt8)) (dir : Dir) (inodeoffset : ℕ) : ScanEnd :=
  if inodeoffset < dir.size then
    let inode := dir.offset + inodeoffset
    let name := entryName image inode
    if name = [] then .noName
    else
      match filename with
      | none => .nullRead
      | some filename =>
          if strncmp filename name name.length = 0 then .found inode
          else
            scanDir (some filename) dir
              (inodeoffset + sizeofInode + 4 * getNamelen image inode)
  else .missing
termination_by dir.size - inodeoffset
decreasing_by
  simp only [sizeofInode]
  omega

/-- What `cramfs_resolve` comes to. -/
inductive Resolve where
  | returned (offset : ℕ)
  /-- A missing component is read. -/
  | nullRead

variable (raw : Bool)

/-- `cramfs_resolve`, with the file name and what `strtok` will return. -/
def cramfsResolve : List (List UInt8) → Dir → Resolve
  | [], dir =>
      match scanDir image none dir 0 with
      | .nullRead => .nullRead
      | .noName => .returned (2 ^ 32 - 1)
      | _ => .returned 0
  | filename :: later, dir =>
      match scanDir image (some filename) dir 0 with
      | .found inode =>
          if raw && later.head?.all (·.isEmpty) then .returned inode
          else if isDir image inode then cramfsResolve later (subdir image inode)
          else if isReg image inode then .returned inode
          else .returned 0
      | .noName => .returned (2 ^ 32 - 1)
      | .nullRead => .nullRead
      | .missing => .returned 0

/-! ## What a path names -/

/-- The inodes that stand in a directory, from an offset on. -/
def entriesFrom (dir : Dir) (inodeoffset : ℕ) : List ℕ :=
  if inodeoffset < dir.size then
    (dir.offset + inodeoffset) ::
      entriesFrom dir (inodeoffset + sizeofInode +
        4 * getNamelen image (dir.offset + inodeoffset))
  else []
termination_by dir.size - inodeoffset
decreasing_by
  simp only [sizeofInode]
  omega

/-- The inodes of a directory. -/
def entries (dir : Dir) : List ℕ := entriesFrom image dir 0

/-- An entry has a name. -/
def hasName (name : List UInt8) (inode : ℕ) : Bool := entryName image inode = name

/-- The inode whose entries' names are the components of a path. -/
def lookup : List (List UInt8) → Dir → Option ℕ
  | [], _ => none
  | name :: later, dir =>
      match (entries image dir).find? (hasName image name) with
      | none => none
      | some inode =>
          if later = [] then some inode
          else if isDir image inode then lookup later (subdir image inode)
          else none

attribute [grind =] lookup

/-- A directory that has an entry in another one. -/
def SubdirOf (dir sub : Dir) : Prop :=
  ∃ inode ∈ entries image dir, isDir image inode = true ∧ sub = subdir image inode

/-- Entries with different names, none of them empty; no inode stands where the superblock
does. -/
structure WellFormedDir (dir : Dir) : Prop where
  named : ∀ inode ∈ entries image dir, entryName image inode ≠ []
  string : ∀ inode ∈ entries image dir, (0 : UInt8) ∉ entryName image inode
  positive : ∀ inode ∈ entries image dir, 0 < inode
  distinct : ((entries image dir).map (entryName image)).Nodup

/-- A file system whose directories are well formed and, as cramfs has no hard links,
whose inodes have one path each. -/
structure WellFormed (root : Dir) : Prop where
  dirs : ∀ dir, Relation.ReflTransGen (SubdirOf image) root dir →
    WellFormedDir image dir
  unlinked : ∀ path path' inode, lookup image path root = some inode →
    lookup image path' root = some inode → path = path'

/-! ## What the comparison finds -/

/-- A component starts with the name of an entry. -/
def startsWithEntry (name : List UInt8) (inode : ℕ) : Bool :=
  (entryName image inode).isPrefixOf name

/-- The first entry whose name a component starts with. -/
def firstPrefix (dir : Dir) (name : List UInt8) : Option ℕ :=
  (entries image dir).find? (startsWithEntry image name)

/-- The walk over the entries that are found ends at none: before the last component at
one that is neither a directory nor a file, or in a directory where none is found. -/
def EndsNowhere : List (List UInt8) → Dir → Prop
  | [], dir => entries image dir = []
  | name :: later, dir =>
      match firstPrefix image dir name with
      | none => True
      | some inode =>
          ¬ (raw = true ∧ later = []) ∧
            if isDir image inode then EndsNowhere later (subdir image inode)
            else isReg image inode = false

/-- The entry found for a component has its name; it is a file if it is loaded, and no file
before the last component.  Otherwise nothing has the names of the path, and the entries
found lead nowhere.  Without a component the directory is empty. -/
def FindsNames : List (List UInt8) → Dir → Prop
  | [], dir => entries image dir = []
  | name :: later, dir =>
      match firstPrefix image dir name with
      | none => True
      | some inode =>
          if entryName image inode = name then
            if later = [] then raw = true ∨ isReg image inode = true
            else if isDir image inode then FindsNames later (subdir image inode)
            else isReg image inode = false
          else
            lookup image (name :: later) dir = none ∧
              EndsNowhere image raw (name :: later) dir

end Image

section Resolve

variable {image : Memory UInt8} {raw : Bool}

theorem isDir_of_isReg {inode : ℕ} (hreg : isReg image inode = true) :
    isDir image inode = false := by
  rw [isReg, decide_eq_true_eq] at hreg
  rw [isDir, decide_eq_false_iff_not, hreg]
  decide

/-! ## The loop over a directory -/

theorem entriesFrom_of_lt {dir : Dir} {inodeoffset : ℕ} (hlt : inodeoffset < dir.size) :
    entriesFrom image dir inodeoffset = (dir.offset + inodeoffset) ::
      entriesFrom image dir (inodeoffset + sizeofInode +
        4 * getNamelen image (dir.offset + inodeoffset)) := by
  rw [entriesFrom, if_pos hlt]

theorem entriesFrom_of_end {dir : Dir} {inodeoffset : ℕ}
    (hend : ¬ inodeoffset < dir.size) : entriesFrom image dir inodeoffset = [] := by
  rw [entriesFrom, if_neg hend]

/-- A round of the loop. -/
theorem scanDir_of_lt {dir : Dir} {filename : List UInt8} {inodeoffset : ℕ}
    (hlt : inodeoffset < dir.size)
    (hnamed : entryName image (dir.offset + inodeoffset) ≠ []) :
    scanDir image (some filename) dir inodeoffset =
      if strncmp filename (entryName image (dir.offset + inodeoffset))
          (entryName image (dir.offset + inodeoffset)).length = 0 then
        .found (dir.offset + inodeoffset)
      else scanDir image (some filename) dir (inodeoffset + sizeofInode +
        4 * getNamelen image (dir.offset + inodeoffset)) := by
  rw [scanDir, if_pos hlt]
  dsimp only
  rw [if_neg hnamed]

theorem scanDir_of_end {dir : Dir} {filename : Option (List UInt8)} {inodeoffset : ℕ}
    (hend : ¬ inodeoffset < dir.size) :
    scanDir image filename dir inodeoffset = .missing := by
  rw [scanDir, if_neg hend]

theorem startsWithEntry_iff (name : List UInt8) {inode : ℕ}
    (hstring : (0 : UInt8) ∉ entryName image inode) :
    startsWithEntry image name inode = true ↔
      strncmp name (entryName image inode) (entryName image inode).length = 0 := by
  rw [strncmp_length_eq_zero_iff hstring]
  exact List.isPrefixOf_iff_prefix

theorem scanDir_some {dir : Dir} {filename : List UInt8} (inodeoffset : ℕ)
    (hnamed : ∀ inode ∈ entriesFrom image dir inodeoffset, entryName image inode ≠ [])
    (hstring : ∀ inode ∈ entriesFrom image dir inodeoffset,
      (0 : UInt8) ∉ entryName image inode) :
    scanDir image (some filename) dir inodeoffset =
      ((entriesFrom image dir inodeoffset).find?
        (startsWithEntry image filename)).elim .missing .found := by
  induction inodeoffset using entriesFrom.induct image dir with
  | case1 inodeoffset hlt ih =>
      rw [entriesFrom_of_lt hlt] at hnamed hstring ⊢
      have hstarts := startsWithEntry_iff filename
        (hstring _ List.mem_cons_self)
      rw [scanDir_of_lt hlt (hnamed _ List.mem_cons_self)]
      by_cases hmatch : startsWithEntry image filename (dir.offset + inodeoffset) = true
      · rw [if_pos (hstarts.mp hmatch), List.find?_cons_of_pos hmatch,
          Option.elim_some]
      · rw [if_neg (fun h => hmatch (hstarts.mpr h)), List.find?_cons_of_neg hmatch,
          ih (fun inode h => hnamed inode (List.mem_cons_of_mem _ h))
            (fun inode h => hstring inode (List.mem_cons_of_mem _ h))]
  | case2 inodeoffset hend =>
      rw [scanDir_of_end hend, entriesFrom_of_end hend]
      rfl

/-- A directory that is read without a component. -/
theorem scanDir_none {dir : Dir} (hdir : WellFormedDir image dir) :
    scanDir image none dir 0 =
      if entries image dir = [] then .missing else .nullRead := by
  have hnamed := hdir.named
  rw [entries] at hnamed ⊢
  by_cases hlt : 0 < dir.size
  · rw [entriesFrom_of_lt hlt] at hnamed ⊢
    rw [scanDir, if_pos hlt, if_neg (List.cons_ne_nil _ _)]
    dsimp only
    rw [if_neg (hnamed _ List.mem_cons_self)]
  · rw [scanDir_of_end hlt, entriesFrom_of_end hlt, if_pos rfl]

theorem cramfsResolve_nil {dir : Dir} (hdir : WellFormedDir image dir) :
    cramfsResolve image raw [] dir =
      if entries image dir = [] then .returned 0 else .nullRead := by
  rw [cramfsResolve, scanDir_none hdir]
  by_cases hnil : entries image dir = []
  · rw [if_pos hnil, if_pos hnil]
  · rw [if_neg hnil, if_neg hnil]

theorem cramfsResolve_missing {dir : Dir} (hdir : WellFormedDir image dir)
    {name : List UInt8} {later : List (List UInt8)}
    (hmissing : firstPrefix image dir name = none) :
    cramfsResolve image raw (name :: later) dir = .returned 0 := by
  rw [firstPrefix, entries] at hmissing
  rw [cramfsResolve, scanDir_some 0 hdir.named hdir.string, hmissing, Option.elim_none]

theorem cramfsResolve_found {dir : Dir} (hdir : WellFormedDir image dir)
    {name : List UInt8} {later : List (List UInt8)} (hlater : ∀ n ∈ later, n ≠ [])
    {inode : ℕ} (hfound : firstPrefix image dir name = some inode) :
    cramfsResolve image raw (name :: later) dir =
      if raw = true ∧ later = [] then .returned inode
      else if isDir image inode then cramfsResolve image raw later (subdir image inode)
      else if isReg image inode then .returned inode
      else .returned 0 := by
  have hlast : (later.head?.all (·.isEmpty)) = decide (later = []) := by
    cases later with
    | nil => rfl
    | cons n later => simpa using hlater n List.mem_cons_self
  rw [firstPrefix, entries] at hfound
  rw [cramfsResolve, scanDir_some 0 hdir.named hdir.string, hfound, Option.elim_some]
  dsimp only
  rw [hlast]
  simp only [Bool.and_eq_true, decide_eq_true_eq]

/-! ## What the names of a path lead to -/

theorem WellFormed.dir {root : Dir} (hwf : WellFormed image root) :
    WellFormedDir image root := hwf.dirs root .refl

theorem find_hasName {dir : Dir} (hdir : WellFormedDir image dir) {inode : ℕ}
    (hmem : inode ∈ entries image dir) :
    (entries image dir).find? (hasName image (entryName image inode)) = some inode := by
  have hsome : ((entries image dir).find?
      (hasName image (entryName image inode))).isSome :=
    List.find?_isSome.mpr ⟨inode, hmem, decide_eq_true rfl⟩
  obtain ⟨other, hother⟩ := Option.isSome_iff_exists.mp hsome
  have hfound : hasName image (entryName image inode) other = true :=
    List.find?_some hother
  have hname : entryName image other = entryName image inode :=
    of_decide_eq_true hfound
  rw [hother, List.inj_on_of_nodup_map hdir.distinct
    (List.mem_of_find?_eq_some hother) hmem hname]

/-- A path that starts with an entry of the directory. -/
theorem lookup_entry {dir : Dir} (hdir : WellFormedDir image dir) {inode : ℕ}
    (hmem : inode ∈ entries image dir) (later : List (List UInt8)) :
    lookup image (entryName image inode :: later) dir =
      if later = [] then some inode
      else if isDir image inode then lookup image later (subdir image inode)
      else none := by
  rw [lookup, find_hasName hdir hmem]

theorem firstPrefix_mem {dir : Dir} {name : List UInt8} {inode : ℕ}
    (hfound : firstPrefix image dir name = some inode) : inode ∈ entries image dir :=
  List.mem_of_find?_eq_some hfound

/-- No name is equal where none is a prefix. -/
theorem lookup_of_missing {dir : Dir} {name : List UInt8} {later : List (List UInt8)}
    (hmissing : firstPrefix image dir name = none) :
    lookup image (name :: later) dir = none := by
  have hnone : (entries image dir).find? (hasName image name) = none := by
    rw [List.find?_eq_none]
    intro inode hmem hname
    refine List.find?_eq_none.mp hmissing inode hmem ?_
    rw [startsWithEntry, of_decide_eq_true hname]
    exact List.isPrefixOf_iff_prefix.mpr List.prefix_rfl
  rw [lookup, hnone]

/-- A directory inside a well-formed one. -/
theorem WellFormed.subdir {root : Dir} (hwf : WellFormed image root) {inode : ℕ}
    (hmem : inode ∈ entries image root) (hdir : isDir image inode = true) :
    WellFormed image (subdir image inode) where
  dirs := fun dir hreach => hwf.dirs dir (hreach.head ⟨inode, hmem, hdir, rfl⟩)
  unlinked := by
    intro path path' found hpath hpath'
    have hup : ∀ names, lookup image names (Cramfs.subdir image inode) = some found →
        lookup image (entryName image inode :: names) root = some found := by
      intro names hnames
      rw [lookup_entry hwf.dir hmem, if_neg, if_pos hdir, hnames]
      rintro rfl
      cases hnames
    exact (List.cons.inj (hwf.unlinked _ _ _ (hup path hpath) (hup path' hpath'))).2

theorem lookup_pos {path : List (List UInt8)} {root : Dir}
    (hwf : WellFormed image root) {inode : ℕ}
    (hlookup : lookup image path root = some inode) : 0 < inode := by
  induction path generalizing root with
  | nil => cases hlookup
  | cons name later ih =>
      rw [lookup] at hlookup
      cases hfind : (entries image root).find? (hasName image name) with
      | none =>
          rw [hfind] at hlookup
          cases hlookup
      | some entry =>
          have hmem := List.mem_of_find?_eq_some hfind
          rw [hfind] at hlookup
          dsimp only at hlookup
          split_ifs at hlookup with hlater hdir
          · rw [← Option.some.inj hlookup]
            exact hwf.dir.positive entry hmem
          · exact ih (hwf.subdir hmem hdir) hlookup

/-! ## What is returned -/

/-- An inode that is returned stands under the names of the entries that were found. -/
theorem returned_lookup {path : List (List UInt8)} (hpath : ∀ n ∈ path, n ≠ [])
    {root : Dir} (hwf : WellFormed image root) {inode : ℕ} (hpos : inode ≠ 0)
    (hreturned : cramfsResolve image raw path root = .returned inode) :
    ∃ name later entry rest, path = name :: later ∧
      firstPrefix image root name = some entry ∧
      lookup image (entryName image entry :: rest) root = some inode := by
  induction path generalizing root with
  | nil =>
      rw [cramfsResolve_nil hwf.dir] at hreturned
      split_ifs at hreturned
      exact absurd (Resolve.returned.inj hreturned).symm hpos
  | cons name later ih =>
      have hlater := fun n hn => hpath n (List.mem_cons_of_mem name hn)
      cases hfound : firstPrefix image root name with
      | none =>
          rw [cramfsResolve_missing hwf.dir hfound] at hreturned
          exact absurd (Resolve.returned.inj hreturned).symm hpos
      | some entry =>
          have hmem := firstPrefix_mem hfound
          have hentry : entry = inode → ∃ name' later' entry' rest,
              name :: later = name' :: later' ∧
              firstPrefix image root name' = some entry' ∧
              lookup image (entryName image entry' :: rest) root = some inode := by
            rintro rfl
            refine ⟨name, later, entry, [], rfl, hfound, ?_⟩
            rw [lookup_entry hwf.dir hmem, if_pos rfl]
          rw [cramfsResolve_found hwf.dir hlater hfound] at hreturned
          split_ifs at hreturned with hlast hdir hreg
          · exact hentry (Resolve.returned.inj hreturned)
          · obtain ⟨_, _, next, rest, -, -, hnext⟩ :=
              ih hlater (hwf.subdir hmem hdir) hreturned
            refine ⟨name, later, entry, entryName image next :: rest, rfl, hfound, ?_⟩
            rw [lookup_entry hwf.dir hmem, if_neg (List.cons_ne_nil _ _), if_pos hdir,
              hnext]
          · exact hentry (Resolve.returned.inj hreturned)
          · exact absurd (Resolve.returned.inj hreturned).symm hpos

/-- Zero is returned where the entries found lead nowhere. -/
theorem returned_zero_iff {path : List (List UInt8)} (hpath : ∀ n ∈ path, n ≠ [])
    {root : Dir} (hwf : WellFormed image root) :
    cramfsResolve image raw path root = .returned 0 ↔
      EndsNowhere image raw path root := by
  induction path generalizing root with
  | nil =>
      rw [cramfsResolve_nil hwf.dir, EndsNowhere]
      split_ifs with hnil
      · exact iff_of_true rfl hnil
      · exact iff_of_false nofun hnil
  | cons name later ih =>
      have hlater := fun n hn => hpath n (List.mem_cons_of_mem name hn)
      rw [EndsNowhere]
      cases hfound : firstPrefix image root name with
      | none => exact iff_of_true (cramfsResolve_missing hwf.dir hfound) trivial
      | some entry =>
          have hmem := firstPrefix_mem hfound
          have hne : Resolve.returned entry ≠ .returned 0 := fun h =>
            (hwf.dir.positive entry hmem).ne' (Resolve.returned.inj h)
          rw [cramfsResolve_found hwf.dir hlater hfound]
          dsimp only
          by_cases hlast : raw = true ∧ later = []
          · rw [if_pos hlast]
            exact iff_of_false hne fun h => h.1 hlast
          · rw [if_neg hlast]
            simp only [hlast, not_false_iff, true_and]
            by_cases hdir : isDir image entry = true
            · rw [if_pos hdir, if_pos hdir]
              exact ih hlater (hwf.subdir hmem hdir)
            · rw [if_neg hdir, if_neg hdir]
              cases hreg : isReg image entry with
              | true => exact iff_of_false (by simpa using hne) nofun
              | false => simp

/-- The last component, where the entry found has its name. -/
theorem cramfsResolve_last_iff {root : Dir} (hwf : WellFormed image root) {entry : ℕ}
    (hmem : entry ∈ entries image root) :
    (if raw = true then .returned entry
      else if isDir image entry then
        cramfsResolve image raw [] (subdir image entry)
      else if isReg image entry then .returned entry
      else .returned 0) = Resolve.returned entry ↔
      raw = true ∨ isReg image entry = true := by
  have hne : Resolve.returned 0 ≠ .returned entry := fun h =>
    (hwf.dir.positive entry hmem).ne (Resolve.returned.inj h)
  by_cases hraw : raw = true
  · rw [if_pos hraw]
    exact iff_of_true rfl (Or.inl hraw)
  · rw [if_neg hraw]
    cases hreg : isReg image entry with
    | true =>
        rw [if_neg (by simp [isDir_of_isReg hreg]), if_pos rfl]
        exact iff_of_true rfl (Or.inr rfl)
    | false =>
        refine iff_of_false ?_ (by simp [hraw])
        by_cases hdir : isDir image entry = true
        · rw [if_pos hdir, cramfsResolve_nil (hwf.subdir hmem hdir).dir]
          split_ifs
          · exact hne
          · exact nofun
        · rw [if_neg hdir]
          simpa using hne

/-- `cramfs_resolve` returns the offset of the inode that the path names, or zero if there is
none, exactly where it finds the entries of the path's names. -/
theorem cramfsResolve_right_iff (image : Memory UInt8) (raw : Bool) (root : Dir)
    (path : List UInt8) (hwf : WellFormed image root) :
    cramfsResolve image raw (components path) root =
        .returned ((lookup image (components path) root).getD 0) ↔
      FindsNames image raw (components path) root := by
  have hpath : ∀ n ∈ components path, n ≠ [] := fun n => components_ne_nil
  generalize components path = names at hpath ⊢
  induction names generalizing root with
  | nil =>
      rw [cramfsResolve_nil hwf.dir, FindsNames, lookup, Option.getD_none]
      split_ifs with hnil
      · exact iff_of_true rfl hnil
      · exact iff_of_false nofun hnil
  | cons name later ih =>
      have hlater := fun n hn => hpath n (List.mem_cons_of_mem name hn)
      rw [FindsNames]
      cases hfound : firstPrefix image root name with
      | none =>
          rw [cramfsResolve_missing hwf.dir hfound, lookup_of_missing hfound]
          exact iff_of_true rfl trivial
      | some entry =>
          have hmem := firstPrefix_mem hfound
          dsimp only
          by_cases hname : entryName image entry = name
          · rw [if_pos hname, cramfsResolve_found hwf.dir hlater hfound]
            subst hname
            rw [lookup_entry hwf.dir hmem]
            by_cases hlast : later = []
            · subst hlast
              simp only [and_true, if_true, Option.getD_some]
              exact cramfsResolve_last_iff hwf hmem
            · simp only [hlast, and_false, if_false]
              by_cases hdir : isDir image entry = true
              · simp only [if_pos hdir]
                exact ih _ (hwf.subdir hmem hdir) hlater
              · simp only [if_neg hdir, Option.getD_none]
                have hne : Resolve.returned entry ≠ .returned 0 := fun h =>
                  (hwf.dir.positive entry hmem).ne' (Resolve.returned.inj h)
                cases hreg : isReg image entry with
                | true => exact iff_of_false (by simpa using hne) nofun
                | false => simp
          · rw [if_neg hname]
            -- another entry is taken, so no inode of the path's names is returned
            constructor
            · intro hright
              cases hlookup : lookup image (name :: later) root with
              | none =>
                  rw [hlookup, Option.getD_none] at hright
                  exact ⟨rfl, (returned_zero_iff hpath hwf).mp hright⟩
              | some inode =>
                  rw [hlookup, Option.getD_some] at hright
                  obtain ⟨_, _, entry', rest, hnames, hfound', htaken⟩ :=
                    returned_lookup hpath hwf (lookup_pos hwf hlookup).ne' hright
                  obtain ⟨rfl, rfl⟩ := List.cons.inj hnames
                  obtain rfl := Option.some.inj (hfound.symm.trans hfound')
                  exact absurd (List.cons.inj (hwf.unlinked _ _ _ htaken hlookup)).1
                    hname
            · rintro ⟨hnone, hnowhere⟩
              rw [hnone, Option.getD_none]
              exact (returned_zero_iff hpath hwf).mpr hnowhere

end Resolve

/-! ## A directory with a file and a directory -/

/-- The inode of an empty file, with a name of one character. -/
def fileInode (name : Char) : List UInt8 :=
  [0, 0x80, 0, 0, 0, 0, 0, 0, 1, 0, 0, 0, ch name, 0, 0, 0]

/-- Behind the superblock the directory `d` and the file `f`, and the file `g` of the
directory. -/
def twoFiles : Memory UInt8 :=
  Memory.ofList 0
    (List.replicate 76 0 ++ [0, 0x40, 0, 0, 16, 0, 0, 0, 0xC1, 6, 0, 0, ch 'd', 0, 0, 0] ++
      fileInode 'f' ++ fileInode 'g')

/-- The root directory. -/
def twoFilesRoot : Dir := ⟨76, 32⟩

theorem twoFiles_entries : entries twoFiles twoFilesRoot = [76, 92] := by
  rw [entries, entriesFrom_of_lt (by decide), entriesFrom_of_lt (by decide),
    entriesFrom_of_end (by decide)]
  rfl

theorem twoFiles_subdir : subdir twoFiles 76 = ⟨108, 16⟩ := rfl

theorem twoFiles_subdirEntries : entries twoFiles ⟨108, 16⟩ = [108] := by
  rw [entries, entriesFrom_of_lt (by decide), entriesFrom_of_end (by decide)]

theorem twoFiles_wellFormedDir {dir : Dir} (hentries : entries twoFiles dir = [76, 92] ∨
    entries twoFiles dir = [108]) : WellFormedDir twoFiles dir := by
  rcases hentries with hentries | hentries <;>
    constructor <;> rw [hentries] <;> decide

theorem find?_hasName {image : Memory UInt8} {name : List UInt8} {inodes : List ℕ}
    {inode : ℕ} (hfind : inodes.find? (hasName image name) = some inode) :
    inode ∈ inodes ∧ name = entryName image inode := by
  have hname := List.find?_some hfind
  exact ⟨List.mem_of_find?_eq_some hfind, (of_decide_eq_true hname).symm⟩

/-- In the directory `d` there is one file. -/
theorem twoFiles_lookup_sub {path : List (List UInt8)} {inode : ℕ}
    (hlookup : lookup twoFiles path ⟨108, 16⟩ = some inode) :
    path = [text "g"] ∧ inode = 108 := by
  cases path with
  | nil => cases hlookup
  | cons name later =>
      rw [lookup, twoFiles_subdirEntries] at hlookup
      cases hfind : [108].find? (hasName twoFiles name) with
      | none =>
          rw [hfind] at hlookup
          cases hlookup
      | some entry =>
          obtain ⟨hmem, rfl⟩ := find?_hasName hfind
          obtain rfl := List.mem_singleton.mp hmem
          rw [hfind] at hlookup
          dsimp only at hlookup
          rw [if_neg (show ¬ isDir twoFiles 108 = true by decide)] at hlookup
          split_ifs at hlookup with hlast
          obtain rfl := Option.some.inj hlookup
          exact ⟨congrArg₂ _ (by decide) hlast, rfl⟩

/-- The three paths. -/
theorem twoFiles_lookup {path : List (List UInt8)} {inode : ℕ}
    (hlookup : lookup twoFiles path twoFilesRoot = some inode) :
    (path, inode) ∈
      [([text "d"], 76), ([text "f"], 92), ([text "d", text "g"], 108)] := by
  cases path with
  | nil => cases hlookup
  | cons name later =>
      rw [lookup, twoFiles_entries] at hlookup
      cases hfind : [76, 92].find? (hasName twoFiles name) with
      | none =>
          rw [hfind] at hlookup
          cases hlookup
      | some entry =>
          obtain ⟨hmem, rfl⟩ := find?_hasName hfind
          rw [hfind] at hlookup
          dsimp only at hlookup
          rcases List.mem_pair.mp hmem with rfl | rfl
          · rw [if_pos (show isDir twoFiles 76 = true by decide), twoFiles_subdir]
              at hlookup
            split_ifs at hlookup with hlast
            · obtain rfl := Option.some.inj hlookup
              rw [hlast]
              decide
            · obtain ⟨rfl, rfl⟩ := twoFiles_lookup_sub hlookup
              decide
          · rw [if_neg (show ¬ isDir twoFiles 92 = true by decide)] at hlookup
            split_ifs at hlookup with hlast
            obtain rfl := Option.some.inj hlookup
            rw [hlast]
            decide

theorem twoFiles_wellFormed : WellFormed twoFiles twoFilesRoot where
  dirs := by
    have hsub : ∀ dir sub, SubdirOf twoFiles dir sub →
        (entries twoFiles dir = [76, 92] ∨ entries twoFiles dir = [108]) →
        entries twoFiles sub = [108] := by
      rintro dir sub ⟨inode, hmem, hdir, rfl⟩ hentries
      have hinode : inode = 76 := by
        rcases hentries with hentries | hentries <;> rw [hentries] at hmem <;>
          revert inode <;> decide
      rw [hinode, twoFiles_subdir, twoFiles_subdirEntries]
    intro dir hreach
    refine twoFiles_wellFormedDir ?_
    induction hreach with
    | refl => exact Or.inl twoFiles_entries
    | tail _ hstep ih => exact Or.inr (hsub _ _ hstep ih)
  unlinked := by
    have hpaths : ∀ p ∈ [([text "d"], 76), ([text "f"], 92), ([text "d", text "g"], 108)],
        ∀ q ∈ [([text "d"], 76), ([text "f"], 92), ([text "d", text "g"], 108)],
        p.2 = q.2 → p.1 = q.1 := by decide
    intro path path' inode hpath hpath'
    exact hpaths _ (twoFiles_lookup hpath) _ (twoFiles_lookup hpath') rfl

/-- The file `g` in the directory `d`. -/
theorem cramfsResolve_right_iff_twoFiles :
    cramfsResolve twoFiles false (components (text "/d/g")) twoFilesRoot =
        .returned ((lookup twoFiles (components (text "/d/g")) twoFilesRoot).getD 0) ↔
      FindsNames twoFiles false (components (text "/d/g")) twoFilesRoot :=
  cramfsResolve_right_iff twoFiles false twoFilesRoot (text "/d/g") twoFiles_wellFormed

/-- The file `f` is returned for the path `/fo`. -/
theorem twoFiles_not_right :
    WellFormed twoFiles twoFilesRoot ∧
      ¬ cramfsResolve twoFiles false (components (text "/fo")) twoFilesRoot =
        .returned
          ((lookup twoFiles (components (text "/fo")) twoFilesRoot).getD 0) := by
  have hwf := twoFiles_wellFormed
  refine ⟨hwf, ?_⟩
  have hcomponents : components (text "/fo") = [text "fo"] := by
    rw [components_eq]
    decide
  have hreg : isReg twoFiles 92 = true := by decide
  rw [hcomponents]
  have hfound : firstPrefix twoFiles twoFilesRoot (text "fo") = some 92 := by
    rw [firstPrefix, twoFiles_entries]
    decide
  have hlookup : lookup twoFiles [text "fo"] twoFilesRoot = none := by
    rw [lookup, twoFiles_entries]
    decide
  rw [cramfsResolve_found hwf.dir (by simp) hfound, hlookup, isDir_of_isReg hreg, hreg]
  simp

end TateFirmware.Cramfs
