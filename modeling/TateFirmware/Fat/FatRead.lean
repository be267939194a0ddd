import TateFirmware.Fat.Directory

/-!
# Reading a file of a volume

`do_fat_read` mounts the volume, looks for the first component of the path in the root
directory, follows the others through their directories and copies the file with
`get_contents`, one transfer for each run of consecutive clusters.
-/

namespace TateFirmware.Fat

open LibGeneric Support

/-! ## Paths -/

/-- `ISDIRDELIM`. -/
def isDirDelim (c : UInt8) : Bool := c = ch '/' || c = ch '\\'

/-- A path cut at its first delimiter, and what is behind the delimiters there. -/
def splitDelim (s : List UInt8) : Option (List UInt8 × List UInt8) :=
  if s.any isDirDelim then
    some (s.takeWhile (!isDirDelim ·),
      (s.dropWhile (!isDirDelim ·)).dropWhile isDirDelim)
  else none

/-- The first component of a path and the rest of it; none for an empty path that is not
to be listed. -/
def rootQuery (filename : List UInt8) (dols : ℕ) : Option (RootQuery × List UInt8) :=
  let fnamecopy := downcase (filename.dropWhile isDirDelim)
  if fnamecopy = [] then
    if dols = 0 then none else some (⟨[], lsRoot, false⟩, [])
  else
    match splitDelim fnamecopy with
    | some (name, subname) => some (⟨name, dols, true⟩, subname)
    | none => some (⟨fnamecopy, dols, dols ≠ 0⟩, [])

/-- The loop over the directories of a path. -/
structure PathState where
  dent : Memory UInt8
  subname : List UInt8
  firsttime : Bool

/-- How the loop over the directories ends. -/
inductive PathResult where
  | outside
  | ret (value : ℤ)
  | file (dent : Memory UInt8)

/-- The name that a round looks for, and whether it lists. -/
def PathState.call (s : PathState) (dols : ℕ) : List UInt8 × ℕ :=
  match splitDelim s.subname with
  | some (name, _) => (name, 0)
  | none => (s.subname, if dols ≠ 0 ∧ s.firsttime then 0 else dols)

/-- What a round does with the entry. -/
def PathState.after (s : PathState) (dols : ℕ) : DirResult → PathResult ⊕ PathState
  | .outside => .inl .outside
  | .null =>
      .inl (.ret (if (splitDelim s.subname).isNone ∧ dols ≠ 0 ∧ ¬ s.firsttime then 0
        else -1))
  | .found dent =>
      match splitDelim s.subname with
      | some (_, nextname) =>
          if attr dent &&& 16 = 0 then .inl (.ret (-1))
          else .inr ⟨dent, nextname, s.firsttime && !(dols ≠ 0 && nextname = [])⟩
      | none =>
          if dols ≠ 0 ∧ s.firsttime then .inr ⟨dent, s.subname, false⟩
          else .inl (.file dent)

variable (v : Volume) (dev : Device) (bufs : Buffers)

/-- One round of the loop over the directories. -/
def pathRound (dols : ℕ) (s : PathState) (fuel : ℕ) : Option (PathResult ⊕ PathState) :=
  (getDentfromdir v dev bufs (s.call dols).1 s.dent (s.call dols).2 fuel).map
    (s.after dols)

/-! ## `get_contents` -/

/-- How the search for consecutive clusters ends. -/
inductive RunEnd where
  /-- The FAT entry is invalid. -/
  | invalid
  /-- `actsize` is at least the file size. -/
  | full (endclust actsize : UInt32)
  /-- `getit`. -/
  | getit (endclust actsize : UInt32)
deriving DecidableEq

/-- A valid cluster is behind the one before it. -/
theorem lt_of_checkClust {fatsize : FatSize} {newclust endclust : UInt32}
    (hnext : ¬ newclust - 1 ≠ endclust) (hvalid : ¬ checkClust fatsize newclust = true) :
    endclust.toNat < newclust.toNat := by
  obtain rfl := not_not.mp hnext
  have hone : ¬ newclust ≤ 1 := fun hle => hvalid (by simp [checkClust, hle])
  have hlt : (1 : UInt32).toNat < newclust.toNat :=
    UInt32.lt_iff_toNat_lt.mp (UInt32.not_le.mp hone)
  rw [UInt32.toNat_sub_of_le _ _ (UInt32.le_of_lt (UInt32.not_le.mp hone))]
  have hnat : (1 : UInt32).toNat = 1 := rfl
  omega

/-- The search for consecutive clusters. -/
def clusterRun (filesize endclust actsize : UInt32) : RunEnd :=
  if actsize < filesize then
    let newclust := v.fatent dev endclust
    if newclust - 1 ≠ endclust then .getit endclust actsize
    else if checkClust v.fatsize newclust then .invalid
    else clusterRun filesize newclust (actsize + UInt32.ofNat v.clustBytes)
  else .full endclust actsize
termination_by 2 ^ 32 - endclust.toNat
decreasing_by
  rename_i hnext hvalid
  have hlt := lt_of_checkClust hnext hvalid
  have hnew := newclust.toNat_lt
  change 2 ^ 32 - newclust.toNat < 2 ^ 32 - endclust.toNat
  omega

attribute [grind =] clusterRun

/-- The loop of `get_contents`; `gotsize` bytes of the buffer have been written. -/
structure Contents where
  curclust : UInt32
  filesize : UInt32
  gotsize : ℕ
  buffer : Memory UInt8

/-- The number of bytes as `get_contents` returns it, a `long`. -/
def toLong (gotsize : ℕ) : ℤ := (gotsize : ℤ).bmod (2 ^ 32)

/-- One round of `get_contents`. -/
def contentsRound (s : Contents) : (ℤ × Memory UInt8) ⊕ Contents :=
  let bytesperclust := UInt32.ofNat v.clustBytes
  match clusterRun v dev s.filesize s.curclust bytesperclust with
  | .invalid => .inl (toLong s.gotsize, s.buffer)
  | .full endclust actsize =>
      let actsize := actsize - bytesperclust
      match v.getCluster dev s.curclust s.buffer s.gotsize actsize.toNat with
      | (buffer, false) => .inl (-1, buffer)
      | (buffer, true) =>
          let gotsize := s.gotsize + actsize.toNat
          let filesize := s.filesize - actsize
          match v.getCluster dev endclust buffer gotsize filesize.toNat with
          | (buffer, false) => .inl (-1, buffer)
          | (buffer, true) => .inl (toLong (gotsize + filesize.toNat), buffer)
  | .getit endclust actsize =>
      match v.getCluster dev s.curclust s.buffer s.gotsize actsize.toNat with
      | (buffer, false) => .inl (-1, buffer)
      | (buffer, true) =>
          let gotsize := s.gotsize + actsize.toNat
          let curclust := v.fatent dev endclust
          if checkClust v.fatsize curclust then .inl (toLong gotsize, buffer)
          else .inr ⟨curclust, s.filesize - actsize, gotsize, buffer⟩

/-- `filesize` of `get_contents`. -/
def sizeToRead (dent : Memory UInt8) (maxsize : UInt32) : UInt32 :=
  let filesize := UInt32.ofNat (dent.leWord 28)
  if 0 < maxsize ∧ maxsize < filesize then maxsize else filesize

/-- `get_contents`. -/
def getContents (dent buffer : Memory UInt8) (maxsize : UInt32) (fuel : ℕ) :
    Option (ℤ × Memory UInt8) :=
  roundLoop (contentsRound v dev) fuel
    ⟨v.start dent, sizeToRead dent maxsize, 0, buffer⟩

/-! ## `do_fat_read` -/

/-- What `do_fat_read` returns, and the buffer. -/
inductive FatResult where
  | outside
  | ret (value : ℤ) (buffer : Memory UInt8)

/-- The loop over the directories of a path. -/
def followPath (dols fuel : ℕ) (s : PathState) : Option PathResult :=
  fuelLoop (pathRound v dev bufs dols) fuel s

/-- `do_fat_read` from `rootdir_done` on. -/
def readEntry (q : RootQuery) (subname : List UInt8) (buffer : Memory UInt8)
    (maxsize : UInt32) (dirent : Memory UInt8) (fuel : ℕ) : Option FatResult :=
  let contents := fun dent =>
    (getContents v dev dent buffer maxsize fuel).map fun got => FatResult.ret got.1 got.2
  if q.isdir then
    (followPath v dev bufs q.dols fuel ⟨dirent, subname, true⟩).bind fun
      | .outside => some .outside
      | .ret value => some (.ret value buffer)
      | .file dent => contents dent
  else contents dirent

/-- The place where the root loop starts. -/
def rootStart (rootCluster : UInt32) : RootPlace :=
  ⟨UInt32.ofNat v.rootdirSect.toNat, 0, rootCluster⟩

/-- `do_fat_read` of a mounted volume. -/
def searchRoot (q : RootQuery) (subname : List UInt8) (rootCluster : UInt32)
    (buffer : Memory UInt8) (maxsize : UInt32) (fuel : ℕ) : Option FatResult :=
  (roundLoop (rootRound v dev bufs q) fuel (rootStart v rootCluster)).bind fun
    | .outside => some .outside
    | .ret value => some (.ret value buffer)
    | .found dirent => readEntry v dev bufs q subname buffer maxsize dirent fuel

/-- `do_fat_read`; `fatbuf` is what is in the buffer of `get_fatent` at first. -/
def doFatRead (fatbuf : Memory UInt8) (filename : List UInt8) (buffer : Memory UInt8)
    (maxsize : UInt32) (dols fuel : ℕ) : Option FatResult :=
  match mount dev fatbuf, rootQuery filename dols with
  | some (v, rootCluster), some (q, subname) =>
      searchRoot v dev bufs q subname rootCluster buffer maxsize fuel
  | _, _ => some (.ret (-1) buffer)

end TateFirmware.Fat
