import TateFirmware.Fat.DirectoryEnds

/-!
# Where reading a file ends

The loops of `do_fat_read` go from a sector of the root directory to the next one, from
directory to directory, and from a run of clusters of the file to the next run.  Nothing
in the source bounds the root directory of FAT12 and FAT16, or checks the chain of the
root directory of FAT32.  Whether the loops end is read off the volume here: off the
sectors of the root directory, the chains of its directories and the runs of its files.
-/

namespace TateFirmware.Fat

open LibGeneric Support Relation

instance : Finite RootPlace :=
  Finite.of_injective (fun s : RootPlace => (s.cursect, s.j, s.rootCluster)) fun s s' h => by
    cases s
    cases s'
    simpa using h

section Steps

variable (v : Volume) (dev : Device) (bufs : Buffers)

/-- The sectors from `first` on are passed over up to one of the next `count`, in which
the search comes to `scan`. -/
def SectorsEnd (q : RootQuery) (first : UInt32) (count : ℕ) (scan : Scan) : Prop :=
  ∃ i < count,
    (∀ j < i, scanSector v dev bufs q (first + UInt32.ofNat j) = some .pass) ∧
      scanSector v dev bufs q (first + UInt32.ofNat i) = some scan

/-- The sector that the root directory starts at. -/
def Volume.rootSector : UInt32 := UInt32.ofNat v.rootdirSect.toNat

/-- The cluster that the FAT entry of one names, beside its first sector. -/
def Volume.nextRoot (p : UInt32 × UInt32) : UInt32 × UInt32 :=
  (UInt32.ofInt (v.dataBegin + (v.fatent dev p.2).toNat * v.clustSize), v.fatent dev p.2)

/-- Every sector of a cluster of the root directory is passed over, and the FAT entry of
the cluster names the next one. -/
def RootLink (q : RootQuery) (p p' : UInt32 × UInt32) : Prop :=
  (∀ j < v.clustSize, scanSector v dev bufs q (p.1 + UInt32.ofNat j) = some .pass) ∧
    p' = v.nextRoot dev p

/-- `n + 1` consecutive clusters from `c` on, behind `a` bytes of a file of `m` bytes:
the FAT links them and breaks off behind the last one, in front of the end of the
file. -/
structure RunOf (m c a : UInt32) (n : ℕ) : Prop where
  linked : ∀ i < n, v.fatent dev (c + UInt32.ofNat i) = c + UInt32.ofNat (i + 1) ∧
    checkClust v.fatsize (c + UInt32.ofNat (i + 1)) = false
  short : ∀ i ≤ n, a + UInt32.ofNat (i * v.clustBytes) < m
  broken : v.fatent dev (c + UInt32.ofNat n) ≠ c + UInt32.ofNat (n + 1)

/-- From the first cluster of a run, with so many bytes to go, to the cluster that the
FAT entry of the last one names. -/
def ContentsStep (p p' : UInt32 × UInt32) : Prop :=
  ∃ n, RunOf v dev p.2 p.1 (UInt32.ofNat v.clustBytes) n ∧
    checkClust v.fatsize (v.fatent dev (p.1 + UInt32.ofNat n)) = false ∧
    p' = (v.fatent dev (p.1 + UInt32.ofNat n),
      p.2 - (UInt32.ofNat v.clustBytes + UInt32.ofNat (n * v.clustBytes)))

/-! ## Volumes on which a path can be read -/

/-- The search ends in the sector, by an end mark or at an entry. -/
def Scan.Settles : Scan → Prop
  | .stop | .found _ => True
  | .pass | .outside => False

/-- The entry that the root directory has for a name.  With clusters of no sectors the
search does not get to another sector than the first one. -/
def RootFinds (q : RootQuery) (rootCluster : UInt32) (dirent : Memory UInt8) : Prop :=
  if v.fatsize = .fat32 ∧ 0 < v.clustSize then
    ∃ p, ReflTransGen (RootLink v dev bufs q) (v.rootSector, rootCluster) p ∧
      SectorsEnd v dev bufs q p.1 v.clustSize (.found dirent)
  else
    SectorsEnd v dev bufs q v.rootSector
      (if v.fatsize = .fat32 then 1 else v.rootdirSize) (.found dirent)

/-- The search of the root directory ends, on FAT12 and FAT16 in one of its sectors. -/
structure RootEnds (q : RootQuery) (rootCluster : UInt32) : Prop where
  area : v.fatsize ≠ .fat32 →
    ∃ scan, SectorsEnd v dev bufs q v.rootSector v.rootdirSize scan ∧ scan.Settles
  first : v.fatsize = .fat32 → v.clustSize = 0 →
    ∃ scan, SectorsEnd v dev bufs q v.rootSector 1 scan ∧ scan.Settles
  chain : v.fatsize = .fat32 → 0 < v.clustSize →
    Acyclic (RootLink v dev bufs q) (v.rootSector, rootCluster)
  inside : v.fatsize = .fat32 → 0 < v.clustSize →
    ∀ p, ReflTransGen (RootLink v dev bufs q) (v.rootSector, rootCluster) p →
      ¬ SectorsEnd v dev bufs q p.1 v.clustSize .outside

/-- Reading the entry of the root directory ends: the directories of the path, and the
file. -/
structure EntryEnds (q : RootQuery) (subname : List UInt8) (maxsize : UInt32)
    (dirent : Memory UInt8) : Prop where
  dirs : q.isdir = true →
    ∀ s, ReflTransGen (PathStep v dev bufs q.dols) ⟨dirent, subname, true⟩ s →
      DirEnds v dev bufs (s.call q.dols).1 (s.call q.dols).2 (v.start s.dent)
  file : ∀ dent,
    (if q.isdir then PathFile v dev bufs q.dols ⟨dirent, subname, true⟩ dent
      else dent = dirent) →
    Acyclic (ContentsStep v dev) (v.start dent, sizeToRead dent maxsize)

/-- The root loop passes over a sector and goes on. -/
def RootStep (q : RootQuery) (s s' : RootPlace) : Prop :=
  scanSector v dev bufs q s.cursect = some .pass ∧ s' = s.next v dev

/-- The root loop does not come back to a place, and no long name leads out of the
buffers. -/
structure RootLoopEnds (q : RootQuery) (start : RootPlace) : Prop where
  acyclic : Acyclic (RootStep v dev bufs q) start
  inside : ∀ s, ReflTransGen (RootStep v dev bufs q) start s →
    scanSector v dev bufs q s.cursect ≠ some .outside

/-- The root loop comes to an entry. -/
def RootLoopFinds (q : RootQuery) (start : RootPlace) (dirent : Memory UInt8) : Prop :=
  ∃ s, ReflTransGen (RootStep v dev bufs q) start s ∧
    scanSector v dev bufs q s.cursect = some (.found dirent)

end Steps

/-- `do_fat_read` ends, with its long names inside their buffers, and on FAT12 and FAT16
its root loop stays in the area of the root directory. -/
structure FatReads (dev : Device) (bufs : Buffers) (fatbuf : Memory UInt8)
    (filename : List UInt8) (buffer : Memory UInt8) (maxsize : UInt32) (dols : ℕ) :
    Prop where
  ends : ∃ result,
    Returns (doFatRead dev bufs fatbuf filename buffer maxsize dols) result ∧
      result ≠ .outside
  area : ∀ v rootCluster q subname, mount dev fatbuf = some (v, rootCluster) →
    rootQuery filename dols = some (q, subname) → v.fatsize ≠ .fat32 →
    ∀ s, ReflTransGen (RoundNext (rootRound v dev bufs q)) (rootStart v rootCluster) s →
      s.cursect.toNat < v.rootdirSect.toNat + v.rootdirSize

variable {v : Volume} {dev : Device} {bufs : Buffers}

/-! ## The file -/

theorem registered_of_valid {c : UInt32}
    (h : checkClust v.fatsize (v.fatent dev c) = false) : dev.registered = true := by
  by_contra hunset
  have hnone : dev.read (fatStartblock v.fatSect (bufnumOf v.fatsize c))
      (fatGetsize v.fatlength) = none := if_neg hunset
  have hzero : v.fatent dev c = 0 := by
    rw [Volume.fatent, hnone]
    cases fatBufEntries v.fatsize <;> rfl
  rw [hzero] at h
  cases v.fatsize <;> cases h

theorem getCluster_succeeds (v : Volume) (hdev : dev.registered = true)
    (clustnum : UInt32) (buffer : Memory UInt8) (p size : ℕ) :
    (v.getCluster dev clustnum buffer p size).2 = true := by
  simp only [Volume.getCluster, Device.read, if_pos hdev]
  split_ifs <;> rfl

theorem runOf_zero_iff {m c a : UInt32} :
    RunOf v dev m c a 0 ↔ a < m ∧ v.fatent dev c ≠ c + 1 := by
  constructor
  · intro h
    exact ⟨by simpa using h.short 0 le_rfl, by simpa using h.broken⟩
  · rintro ⟨hshort, hbroken⟩
    refine ⟨fun i hi => absurd hi (Nat.not_lt_zero i), fun i hi => ?_, by simpa⟩
    obtain rfl := Nat.le_zero.mp hi
    simpa using hshort

theorem clust_add_succ (c : UInt32) (i : ℕ) :
    c + 1 + UInt32.ofNat i = c + UInt32.ofNat (i + 1) := by
  rw [UInt32.add_assoc, UInt32.ofNat_add, UInt32.add_comm (UInt32.ofNat i)]
  rfl

theorem bytes_add_succ (a : UInt32) (n i : ℕ) :
    a + UInt32.ofNat n + UInt32.ofNat (i * n) = a + UInt32.ofNat ((i + 1) * n) := by
  rw [UInt32.add_assoc, Nat.add_mul, Nat.one_mul, UInt32.ofNat_add,
    UInt32.add_comm (UInt32.ofNat n)]

theorem runOf_succ_iff {m c a : UInt32} {n : ℕ} :
    RunOf v dev m c a (n + 1) ↔ a < m ∧ v.fatent dev c = c + 1 ∧
      checkClust v.fatsize (c + 1) = false ∧
      RunOf v dev m (c + 1) (a + UInt32.ofNat v.clustBytes) n := by
  have hclust := clust_add_succ c
  have hbytes := bytes_add_succ a v.clustBytes
  constructor
  · intro h
    obtain ⟨hlink, hvalid⟩ := h.linked 0 (Nat.succ_pos n)
    refine ⟨by simpa using h.short 0 (Nat.zero_le _), by simpa using hlink,
      by simpa using hvalid, ⟨fun i hi => ?_, fun i hi => ?_, ?_⟩⟩
    · rw [hclust, hclust]
      exact h.linked (i + 1) (Nat.succ_lt_succ hi)
    · rw [hbytes]
      exact h.short (i + 1) (Nat.succ_le_succ hi)
    · rw [hclust, hclust]
      exact h.broken
  · rintro ⟨hshort, hlink, hvalid, h⟩
    refine ⟨fun i hi => ?_, fun i hi => ?_, ?_⟩
    · cases i with
      | zero => exact ⟨by simpa using hlink, by simpa using hvalid⟩
      | succ i =>
          rw [← hclust, ← hclust]
          exact h.linked i (Nat.lt_of_succ_lt_succ hi)
    · cases i with
      | zero => simpa using hshort
      | succ i =>
          rw [← hbytes]
          exact h.short i (Nat.le_of_succ_le_succ hi)
    · rw [← hclust, ← hclust]
      exact h.broken

/-- The search for consecutive clusters breaks off exactly behind a run of them. -/
theorem clusterRun_getit_iff {m c a c' a' : UInt32} :
    clusterRun v dev m c a = .getit c' a' ↔ ∃ n, RunOf v dev m c a n ∧
      c' = c + UInt32.ofNat n ∧ a' = a + UInt32.ofNat (n * v.clustBytes) := by
  have hnextTo : ∀ x y : UInt32, ¬ x - 1 ≠ y ↔ x = y + 1 := by
    intro x y
    rw [not_not, UInt32.sub_eq_iff_eq_add]
  induction c, a using clusterRun.induct v dev m with
  | case1 c a hlt newclust hnext =>
      have hbroken : v.fatent dev c ≠ c + 1 := mt (hnextTo _ _).mpr (not_not.mpr hnext)
      rw [clusterRun, if_pos hlt, if_pos hnext, RunEnd.getit.injEq]
      constructor
      · rintro ⟨rfl, rfl⟩
        exact ⟨0, runOf_zero_iff.mpr ⟨hlt, hbroken⟩, by simp, by simp⟩
      · rintro ⟨n, hrun, rfl, rfl⟩
        cases n with
        | zero => simp
        | succ n => exact absurd (runOf_succ_iff.mp hrun).2.1 hbroken
  | case2 c a hlt newclust hnext hvalid =>
      have hlink : v.fatent dev c = c + 1 := (hnextTo _ _).mp hnext
      rw [clusterRun, if_pos hlt, if_neg hnext, if_pos hvalid]
      refine iff_of_false nofun ?_
      rintro ⟨n, hrun, -, -⟩
      cases n with
      | zero => exact (runOf_zero_iff.mp hrun).2 hlink
      | succ n =>
          have hfalse := (runOf_succ_iff.mp hrun).2.2.1
          rw [← hlink] at hfalse
          exact absurd (hvalid.symm.trans hfalse) (by decide)
  | case3 c a hlt newclust hnext hvalid ih =>
      have hlink : v.fatent dev c = c + 1 := (hnextTo _ _).mp hnext
      rw [clusterRun, if_pos hlt, if_neg hnext, if_neg hvalid]
      refine ih.trans ?_
      change (∃ n, RunOf v dev m (v.fatent dev c) _ n ∧ _) ↔ _
      have hnew : newclust = c + 1 := hlink
      rw [hnew, hlink]
      have hclust := clust_add_succ c
      have hbytes := bytes_add_succ a v.clustBytes
      constructor
      · rintro ⟨n, hrun, rfl, rfl⟩
        refine ⟨n + 1, runOf_succ_iff.mpr ⟨hlt, hlink, ?_, hrun⟩, hclust n, hbytes n⟩
        rw [← hlink]
        exact Bool.eq_false_iff.mpr hvalid
      · rintro ⟨n, hrun, rfl, rfl⟩
        cases n with
        | zero => exact absurd hlink (runOf_zero_iff.mp hrun).2
        | succ n =>
            exact ⟨n, (runOf_succ_iff.mp hrun).2.2.2, (hclust n).symm, (hbytes n).symm⟩
  | case4 c a hlt =>
      rw [clusterRun, if_neg hlt]
      refine iff_of_false nofun ?_
      rintro ⟨n, hrun, -, -⟩
      exact hlt (by simpa using hrun.short 0 (Nat.zero_le n))

theorem contentsNext_iff (s : Contents) (p : UInt32 × UInt32) :
    ContentsStep v dev (s.curclust, s.filesize) p ↔
      ∃ s', RoundNext (contentsRound v dev) s s' ∧ (s'.curclust, s'.filesize) = p := by
  have hstep : ContentsStep v dev (s.curclust, s.filesize) p ↔
      ∃ endclust actsize, clusterRun v dev s.filesize s.curclust
          (UInt32.ofNat v.clustBytes) = .getit endclust actsize ∧
        checkClust v.fatsize (v.fatent dev endclust) = false ∧
        p = (v.fatent dev endclust, s.filesize - actsize) := by
    simp only [clusterRun_getit_iff]
    constructor
    · rintro ⟨n, hrun, hvalid, rfl⟩
      exact ⟨_, _, ⟨n, hrun, rfl, rfl⟩, hvalid, rfl⟩
    · rintro ⟨_, _, ⟨n, hrun, rfl, rfl⟩, hvalid, rfl⟩
      exact ⟨n, hrun, hvalid, rfl⟩
  rw [hstep]
  unfold RoundNext contentsRound
  dsimp only
  cases clusterRun v dev s.filesize s.curclust (UInt32.ofNat v.clustBytes) with
  | invalid => simp
  | full endclust actsize =>
      simp only [reduceCtorEq, false_and, exists_false, false_iff, not_exists, not_and]
      intro s' hround
      split at hround
      · cases hround
      · split at hround <;> cases hround
  | getit endclust actsize =>
      simp only [RunEnd.getit.injEq]
      constructor
      · rintro ⟨_, _, ⟨rfl, rfl⟩, hvalid, rfl⟩
        have hok := getCluster_succeeds v (registered_of_valid hvalid) s.curclust
          s.buffer s.gotsize actsize.toNat
        refine ⟨⟨v.fatent dev endclust, s.filesize - actsize, s.gotsize + actsize.toNat,
          (v.getCluster dev s.curclust s.buffer s.gotsize actsize.toNat).1⟩, ?_, rfl⟩
        split
        next hget => rw [hget] at hok; cases hok
        next hget => rw [hget, hvalid]; rfl
      · rintro ⟨s', hround, rfl⟩
        split at hround
        next => cases hround
        next hget =>
          split_ifs at hround with hvalid
          obtain rfl := Sum.inr.inj hround
          exact ⟨endclust, actsize, ⟨rfl, rfl⟩, Bool.eq_false_iff.mpr hvalid, rfl⟩

theorem getContents_ends_iff {dent buffer : Memory UInt8} {maxsize : UInt32} :
    (∃ got, Returns (getContents v dev dent buffer maxsize) got) ↔
      Acyclic (ContentsStep v dev) (v.start dent, sizeToRead dent maxsize) :=
  roundLoop_ends_iff_acyclic (fun s : Contents => (s.curclust, s.filesize))
    contentsNext_iff

/-- A run that is broken off is shorter than the file. -/
theorem clusterRun_getit {filesize c a c' a' : UInt32}
    (hfits : filesize.toNat + v.clustBytes ≤ 2 ^ 32)
    (h : clusterRun v dev filesize c a = .getit c' a') :
    a.toNat ≤ a'.toNat ∧ a'.toNat < filesize.toNat := by
  induction c, a using clusterRun.induct v dev filesize with
  | case1 c a hlt newclust hnext =>
      rw [clusterRun, if_pos hlt, if_pos hnext] at h
      obtain ⟨rfl, rfl⟩ := RunEnd.getit.inj h
      exact ⟨le_rfl, UInt32.lt_iff_toNat_lt.mp hlt⟩
  | case2 c a hlt newclust hnext hvalid =>
      rw [clusterRun, if_pos hlt, if_neg hnext, if_pos hvalid] at h
      cases h
  | case3 c a hlt newclust hnext hvalid ih =>
      rw [clusterRun, if_pos hlt, if_neg hnext, if_neg hvalid] at h
      obtain ⟨hle, hshort⟩ := ih h
      refine ⟨?_, hshort⟩
      have hltNat := UInt32.lt_iff_toNat_lt.mp hlt
      have hbytes : (UInt32.ofNat v.clustBytes).toNat = v.clustBytes % 2 ^ 32 := by simp
      rw [UInt32.toNat_add, hbytes] at hle
      omega
  | case4 c a hlt =>
      rw [clusterRun, if_neg hlt] at h
      cases h

/-- With clusters that are not empty the copying of a file ends, whatever its chain, if
a cluster behind the file does not reach `2 ^ 32` bytes. -/
theorem contents_acyclic {p : UInt32 × UInt32} (hclust : 0 < v.clustBytes)
    (hfits : p.2.toNat + v.clustBytes ≤ 2 ^ 32) : Acyclic (ContentsStep v dev) p := by
  have hstep : ∀ q q' : UInt32 × UInt32, q.2.toNat ≤ p.2.toNat →
      ContentsStep v dev q q' → q'.2.toNat < q.2.toNat := by
    rintro q _ hq ⟨n, hrun, -, rfl⟩
    obtain ⟨hle, hshort⟩ := clusterRun_getit (by omega)
      (clusterRun_getit_iff.mpr ⟨n, hrun, rfl, rfl⟩)
    generalize UInt32.ofNat v.clustBytes + UInt32.ofNat (n * v.clustBytes) = actsize
      at hle hshort
    have hbytes : (UInt32.ofNat v.clustBytes).toNat = v.clustBytes % 2 ^ 32 := by simp
    have hsmall : v.clustBytes < 2 ^ 32 := by omega
    rw [hbytes, Nat.mod_eq_of_lt hsmall] at hle
    have hsub := UInt32.toNat_sub_of_le q.2 actsize
      (UInt32.le_iff_toNat_le.mpr hshort.le)
    change (q.2 - actsize).toNat < q.2.toNat
    omega
  have hreach : ∀ q, ReflTransGen (ContentsStep v dev) p q → q.2.toNat ≤ p.2.toNat := by
    intro q hq
    induction hq with
    | refl => exact le_rfl
    | tail _ h ih => exact (hstep _ _ ih h).le.trans ih
  exact acyclic_of_measure (fun q => q.2.toNat) fun q q' hq h => hstep q q' (hreach q hq) h

/-- Copying a file ends on every volume whose clusters are not empty. -/
theorem getContents_ends (v : Volume) (dev : Device) (dent buffer : Memory UInt8)
    (maxsize : UInt32) (hclust : 0 < v.clustBytes)
    (hfits : (sizeToRead dent maxsize).toNat + v.clustBytes ≤ 2 ^ 32) :
    ∃ got, Returns (getContents v dev dent buffer maxsize) got :=
  getContents_ends_iff.mpr (contents_acyclic hclust hfits)

/-- A device with a FAT16 at sector 1 that links the clusters 2 and 5 to each other. -/
def loopDevice : Device where
  contents := Memory.copyIn (fun _ => 0) fsBlockSize [0, 0, 0, 0, 5, 0, 0, 0, 0, 0, 2, 0]
  registered := true

/-- An entry for a file of 1280 bytes from cluster 2 on. -/
def longFile : Memory UInt8 := (Memory.store (fun _ => 0) 26 2).store 29 5

/-- The chain comes back, and the copying ends with the size. -/
theorem getContents_ends_loop :
    ∃ got, Returns (getContents smallVolume loopDevice longFile (fun _ => 0) 0) got := by
  have hsize : sizeToRead longFile 0 = 1280 := by decide +kernel
  have hclust : smallVolume.clustBytes = 512 := rfl
  have hnat : (1280 : UInt32).toNat = 1280 := rfl
  exact getContents_ends smallVolume loopDevice longFile (fun _ => 0) 0 (by omega)
    (by rw [hsize, hclust, hnat]; omega)

/-! ## The entry of the root directory -/

section Entries

variable {q : RootQuery} {subname : List UInt8} {buffer dirent : Memory UInt8}
  {maxsize : UInt32}

theorem contents_ends_iff {dent : Memory UInt8} :
    (∃ r, Returns (fun fuel => (getContents v dev dent buffer maxsize fuel).map
        fun got => FatResult.ret got.1 got.2) r ∧ r ≠ .outside) ↔
      Acyclic (ContentsStep v dev) (v.start dent, sizeToRead dent maxsize) := by
  have hgot : (∃ got, Returns (getContents v dev dent buffer maxsize) got) ↔
      Acyclic (ContentsStep v dev) (v.start dent, sizeToRead dent maxsize) :=
    getContents_ends_iff
  rw [← hgot]
  simp only [returns_map]
  constructor
  · rintro ⟨_, ⟨got, hgot, rfl⟩, _⟩
    exact ⟨got, hgot⟩
  · rintro ⟨got, hgot⟩
    exact ⟨_, ⟨got, hgot, rfl⟩, nofun⟩

/-- What is done with what the path leads to. -/
def afterPath (v : Volume) (dev : Device) (buffer : Memory UInt8) (maxsize : UInt32)
    (r : PathResult) (fuel : ℕ) : Option FatResult :=
  match r with
  | .outside => some .outside
  | .ret value => some (.ret value buffer)
  | .file dent =>
      (getContents v dev dent buffer maxsize fuel).map fun got => .ret got.1 got.2

theorem afterPath_stable (r : PathResult) :
    Stable (afterPath v dev buffer maxsize r) := by
  cases r with
  | outside => exact stable_const _
  | ret value => exact stable_const _
  | file dent => exact (roundLoop_stable _ _).map _

theorem readEntry_of_isdir (hdir : q.isdir = true) :
    readEntry v dev bufs q subname buffer maxsize dirent = fun fuel =>
      (followPath v dev bufs q.dols fuel ⟨dirent, subname, true⟩).bind fun r =>
        afterPath v dev buffer maxsize r fuel := by
  funext fuel
  simp only [readEntry, hdir, if_true]
  rfl

theorem readEntry_ends_iff :
    (∃ r, Returns (readEntry v dev bufs q subname buffer maxsize dirent) r ∧
        r ≠ .outside) ↔ EntryEnds v dev bufs q subname maxsize dirent := by
  cases hdir : q.isdir with
  | false =>
      unfold readEntry
      simp only [hdir, Bool.false_eq_true, if_false]
      rw [contents_ends_iff]
      constructor
      · intro h
        exact ⟨fun hisdir => absurd (hdir.symm.trans hisdir) (by decide),
          fun dent hdent => by simp only [hdir] at hdent; exact hdent ▸ h⟩
      · exact fun h => h.file dirent (by simp [hdir])
  | true =>
      have hpath : Stable fun fuel =>
          followPath v dev bufs q.dols fuel ⟨dirent, subname, true⟩ := followPath_stable _
      rw [readEntry_of_isdir hdir]
      refine (returns_bind_avoids hpath afterPath_stable).trans ?_
      constructor
      · rintro ⟨r, hr, b, hb, hne⟩
        refine ⟨fun _ => followPath_ends_iff.mp ⟨r, hr, ?_⟩, fun dent hdent => ?_⟩
        · rintro rfl
          exact hne (returns_some.mp hb).symm
        · rw [hdir, if_pos rfl] at hdent
          obtain rfl := hr.unique hpath (followPath_file_iff.mpr hdent)
          exact contents_ends_iff.mp ⟨b, hb, hne⟩
      · intro h
        obtain ⟨r, hr, hne⟩ := followPath_ends_iff.mpr (h.dirs hdir)
        refine ⟨r, hr, ?_⟩
        cases r with
        | outside => exact absurd rfl hne
        | ret value => exact ⟨_, returns_some.mpr rfl, nofun⟩
        | file dent =>
            refine contents_ends_iff.mpr (h.file dent ?_)
            rw [hdir, if_pos rfl]
            exact followPath_file_iff.mp hr

/-! ## The root directory -/

theorem rootNext_eq : RoundNext (rootRound v dev bufs q) = RootStep v dev bufs q := by
  funext s s'
  unfold RoundNext rootRound RootStep
  cases scanSector v dev bufs q s.cursect with
  | none => simp
  | some scan =>
      cases scan with
      | pass => simp [eq_comm]
      | _ => simp

theorem rootRound_outside_iff {s : RootPlace} :
    rootRound v dev bufs q s = .inl .outside ↔
      scanSector v dev bufs q s.cursect = some .outside := by
  unfold rootRound
  cases scanSector v dev bufs q s.cursect with
  | none => simp
  | some scan => cases scan <;> simp

theorem rootRound_found_iff {s : RootPlace} :
    rootRound v dev bufs q s = .inl (.found dirent) ↔
      scanSector v dev bufs q s.cursect = some (.found dirent) := by
  unfold rootRound
  cases scanSector v dev bufs q s.cursect with
  | none => simp
  | some scan => cases scan <;> simp

theorem rootLoop_ends_iff {s : RootPlace} :
    (∃ r, Returns (fun fuel => roundLoop (rootRound v dev bufs q) fuel s) r ∧
        r ≠ .outside) ↔
      RootLoopEnds v dev bufs q s := by
  refine roundLoop_avoids_iff.trans ?_
  simp only [rootNext_eq, ne_eq, rootRound_outside_iff]
  exact ⟨fun h => ⟨h.1, h.2⟩, fun h => ⟨h.acyclic, h.inside⟩⟩

theorem rootLoop_found_iff {s : RootPlace} :
    Returns (fun fuel => roundLoop (rootRound v dev bufs q) fuel s) (.found dirent) ↔
      RootLoopFinds v dev bufs q s dirent := by
  refine roundLoop_returns_iff.trans ?_
  simp only [rootNext_eq, rootRound_found_iff]
  rfl

/-- What is done with what the root loop finds. -/
def afterRoot (v : Volume) (dev : Device) (bufs : Buffers) (q : RootQuery)
    (subname : List UInt8) (buffer : Memory UInt8) (maxsize : UInt32) (r : RootResult)
    (fuel : ℕ) : Option FatResult :=
  match r with
  | .outside => some .outside
  | .ret value => some (.ret value buffer)
  | .found dirent => readEntry v dev bufs q subname buffer maxsize dirent fuel

theorem afterRoot_stable (r : RootResult) :
    Stable (afterRoot v dev bufs q subname buffer maxsize r) := by
  cases r with
  | outside => exact stable_const _
  | ret value => exact stable_const _
  | found dirent =>
      change Stable (readEntry v dev bufs q subname buffer maxsize dirent)
      cases hdir : q.isdir with
      | false =>
          unfold readEntry
          simp only [hdir, Bool.false_eq_true, if_false]
          exact (roundLoop_stable _ _).map _
      | true =>
          rw [readEntry_of_isdir hdir]
          exact (followPath_stable _).bind afterPath_stable

theorem searchRoot_ends_iff {rootCluster : UInt32} :
    (∃ r, Returns (searchRoot v dev bufs q subname rootCluster buffer maxsize) r ∧
        r ≠ .outside) ↔
      RootLoopEnds v dev bufs q (rootStart v rootCluster) ∧
      ∀ dirent, RootLoopFinds v dev bufs q (rootStart v rootCluster) dirent →
        EntryEnds v dev bufs q subname maxsize dirent := by
  have hroot : Stable fun fuel => roundLoop (rootRound v dev bufs q) fuel
      (rootStart v rootCluster) := roundLoop_stable _ _
  refine (returns_bind_avoids hroot afterRoot_stable).trans ?_
  rw [← rootLoop_ends_iff]
  constructor
  · rintro ⟨r, hr, b, hb, hne⟩
    refine ⟨⟨r, hr, ?_⟩, fun dirent hfinds => ?_⟩
    · rintro rfl
      exact hne (returns_some.mp hb).symm
    · obtain rfl := hr.unique hroot (rootLoop_found_iff.mpr hfinds)
      exact readEntry_ends_iff.mp ⟨b, hb, hne⟩
  · rintro ⟨⟨r, hr, hne⟩, hentries⟩
    refine ⟨r, hr, ?_⟩
    cases r with
    | outside => exact absurd rfl hne
    | ret value => exact ⟨_, returns_some.mpr rfl, nofun⟩
    | found dirent =>
        exact readEntry_ends_iff.mpr (hentries dirent (rootLoop_found_iff.mp hr))

end Entries

/-- The number of entries of the root directory is a number of 16 bits. -/
theorem rootdirSize_lt {fatbuf : Memory UInt8} {rootCluster : UInt32}
    (h : mount dev fatbuf = some (v, rootCluster)) : v.rootdirSize < 2 ^ 16 := by
  unfold mount at h
  split at h
  · cases h
  rename_i bytes _
  dsimp only at h
  split at h
  · cases h
  obtain rfl := congrArg Prod.fst (Option.some.inj h)
  have hhigh := (Memory.ofList 0 bytes 18).toNat_lt
  have hlow := (Memory.ofList 0 bytes 17).toNat_lt
  have hblock : fsBlockSize = 512 := rfl
  dsimp only
  split_ifs
  · exact Nat.two_pow_pos 16
  · rw [hblock]
    omega

/-! ## The sectors of the root directory -/

section Sectors

variable {q : RootQuery} {first : UInt32} {count : ℕ} {scan : Scan}

theorem sectorsEnd_one_iff :
    SectorsEnd v dev bufs q first 1 scan ↔ scanSector v dev bufs q first = some scan := by
  constructor
  · rintro ⟨i, hi, -, hscan⟩
    obtain rfl := Nat.lt_one_iff.mp hi
    simpa using hscan
  · intro h
    exact ⟨0, Nat.one_pos, fun j hj => absurd hj (Nat.not_lt_zero j), by simpa using h⟩

/-- The sector that the search ends in is the first one that is not passed over. -/
theorem not_passed_behind {i k : ℕ} (hne : scan ≠ .pass)
    (hscan : scanSector v dev bufs q (first + UInt32.ofNat i) = some scan)
    (hpass : ∀ j < k, scanSector v dev bufs q (first + UInt32.ofNat j) = some .pass) :
    k ≤ i := by
  by_contra hlt
  exact hne (Option.some.inj (hscan.symm.trans (hpass i (Nat.lt_of_not_le hlt))))

theorem scanSector_some (v : Volume) (bufs : Buffers) (hdev : dev.registered = true)
    (q : RootQuery) (cursect : UInt32) :
    ∃ scan, scanSector v dev bufs q cursect = some scan := by
  rw [scanSector, Device.read, if_pos hdev]
  exact ⟨_, rfl⟩

/-- Sectors that are all passed over, or one in which the search ends. -/
theorem passed_or_ends (hdev : dev.registered = true) (q : RootQuery) (first : UInt32)
    (count : ℕ) :
    (∀ j < count, scanSector v dev bufs q (first + UInt32.ofNat j) = some .pass) ∨
      ∃ scan, scan ≠ .pass ∧ SectorsEnd v dev bufs q first count scan := by
  induction count with
  | zero => exact Or.inl fun j hj => absurd hj (Nat.not_lt_zero j)
  | succ count ih =>
      rcases ih with hpass | ⟨scan, hne, i, hi, hend⟩
      · obtain ⟨scan, hscan⟩ := scanSector_some v bufs hdev q
          (first + UInt32.ofNat count)
        by_cases hlast : scan = .pass
        · refine Or.inl fun j hj => ?_
          rcases Nat.lt_succ_iff_lt_or_eq.mp hj with hlt | rfl
          · exact hpass j hlt
          · rw [hscan, hlast]
        · exact Or.inr ⟨scan, hlast, count, Nat.lt_succ_self count, hpass, hscan⟩
      · exact Or.inr ⟨scan, hne, i, Nat.lt_succ_of_lt hi, hend⟩

theorem Scan.Settles.ne_pass (h : scan.Settles) : scan ≠ .pass := by
  rintro rfl
  exact h

theorem Scan.Settles.ne_outside (h : scan.Settles) : scan ≠ .outside := by
  rintro rfl
  exact h

theorem settles_of_ne (hpass : scan ≠ .pass) (houtside : scan ≠ .outside) :
    scan.Settles := by
  cases scan with
  | outside => exact absurd rfl houtside
  | pass => exact absurd rfl hpass
  | stop => trivial
  | found dirent => trivial

/-! ### FAT12 and FAT16 -/

/-- The place of the root loop at a sector. -/
def areaPlace (v : Volume) (rootCluster : UInt32) (k : ℕ) : RootPlace :=
  ⟨v.rootSector + UInt32.ofNat k, 0, rootCluster⟩

variable {rootCluster : UInt32}

theorem rootStart_eq : rootStart v rootCluster = areaPlace v rootCluster 0 := by
  rw [areaPlace, show UInt32.ofNat 0 = 0 from rfl, UInt32.add_zero]
  rfl

theorem areaPlace_step_iff (hsize : v.fatsize ≠ .fat32) {k : ℕ} {s : RootPlace} :
    RootStep v dev bufs q (areaPlace v rootCluster k) s ↔
      scanSector v dev bufs q (v.rootSector + UInt32.ofNat k) = some .pass ∧
        s = areaPlace v rootCluster (k + 1) := by
  unfold RootStep RootPlace.next areaPlace
  rw [if_neg hsize]
  dsimp only
  rw [UInt32.add_assoc, UInt32.ofNat_add]
  rfl

/-- The root loop gets to the sectors in front of which all are passed over. -/
theorem areaPlace_reach_iff (hsize : v.fatsize ≠ .fat32) {s : RootPlace} :
    ReflTransGen (RootStep v dev bufs q) (rootStart v rootCluster) s ↔
      ∃ k, (∀ j < k, scanSector v dev bufs q (v.rootSector + UInt32.ofNat j) =
        some .pass) ∧ s = areaPlace v rootCluster k := by
  rw [rootStart_eq]
  constructor
  · intro h
    induction h with
    | refl => exact ⟨0, fun j hj => absurd hj (Nat.not_lt_zero j), rfl⟩
    | tail _ hstep ih =>
        obtain ⟨k, hpass, rfl⟩ := ih
        obtain ⟨hk, rfl⟩ := (areaPlace_step_iff hsize).mp hstep
        refine ⟨k + 1, fun j hj => ?_, rfl⟩
        rcases Nat.lt_succ_iff_lt_or_eq.mp hj with hlt | rfl
        · exact hpass j hlt
        · exact hk
  · rintro ⟨k, hpass, rfl⟩
    induction k with
    | zero => exact .refl
    | succ k ih =>
        exact (ih fun j hj => hpass j (Nat.lt_succ_of_lt hj)).tail
          ((areaPlace_step_iff hsize).mpr ⟨hpass k (Nat.lt_succ_self k), rfl⟩)

theorem areaPlace_cursect (hcount : v.rootdirSize < 2 ^ 16) {k : ℕ}
    (hk : k ≤ v.rootdirSize) :
    (areaPlace v rootCluster k).cursect.toNat = v.rootdirSect.toNat + k := by
  have hsect := v.rootdirSect.toNat_lt
  simp only [areaPlace, Volume.rootSector, UInt32.toNat_add, UInt32.toNat_ofNat']
  omega

/-- The root loop ends inside the area of the root directory if and only if one of the
sectors there ends the search. -/
theorem rootLoop_area_iff (hdev : dev.registered = true) (hsize : v.fatsize ≠ .fat32)
    (hcount : v.rootdirSize < 2 ^ 16) :
    (RootLoopEnds v dev bufs q (rootStart v rootCluster) ∧
      ∀ s, ReflTransGen (RootStep v dev bufs q) (rootStart v rootCluster) s →
        s.cursect.toNat < v.rootdirSect.toNat + v.rootdirSize) ↔
      ∃ scan, SectorsEnd v dev bufs q v.rootSector v.rootdirSize scan ∧
        scan.Settles := by
  constructor
  · rintro ⟨hends, harea⟩
    rcases passed_or_ends hdev q v.rootSector v.rootdirSize with hpass | ⟨scan, hne, hend⟩
    · -- the sector behind the area is searched
      have hbehind := harea _ ((areaPlace_reach_iff hsize).mpr ⟨_, hpass, rfl⟩)
      rw [areaPlace_cursect hcount le_rfl] at hbehind
      exact absurd hbehind (lt_irrefl _)
    · refine ⟨scan, hend, settles_of_ne hne ?_⟩
      rintro rfl
      obtain ⟨i, _, hpass, houtside⟩ := hend
      exact hends.inside _ ((areaPlace_reach_iff hsize).mpr ⟨i, hpass, rfl⟩) houtside
  · rintro ⟨scan, ⟨i, hi, hpassed, hscan⟩, hsettles⟩
    have hreach : ∀ s, ReflTransGen (RootStep v dev bufs q) (rootStart v rootCluster) s →
        ∃ k, k ≤ i ∧ s = areaPlace v rootCluster k := by
      intro s hs
      obtain ⟨k, hpass, rfl⟩ := (areaPlace_reach_iff hsize).mp hs
      exact ⟨k, not_passed_behind hsettles.ne_pass hscan hpass, rfl⟩
    refine ⟨⟨?_, fun s hs houtside => ?_⟩, fun s hs => ?_⟩
    · refine acyclic_of_measure
        (fun s => v.rootdirSect.toNat + v.rootdirSize - s.cursect.toNat)
        fun s s' hs hstep => ?_
      obtain ⟨k, hk, rfl⟩ := hreach s hs
      obtain ⟨_, rfl⟩ := (areaPlace_step_iff hsize).mp hstep
      simp only [areaPlace_cursect hcount (show k ≤ v.rootdirSize by omega),
        areaPlace_cursect hcount (show k + 1 ≤ v.rootdirSize by omega)]
      omega
    · obtain ⟨k, hpass, rfl⟩ := (areaPlace_reach_iff hsize).mp hs
      rcases (not_passed_behind hsettles.ne_pass hscan hpass).lt_or_eq with hlt | rfl
      · cases (hpassed k hlt).symm.trans houtside
      · exact hsettles.ne_outside (Option.some.inj (hscan.symm.trans houtside))
    · obtain ⟨k, hk, rfl⟩ := hreach s hs
      rw [areaPlace_cursect hcount (hk.trans hi.le)]
      omega

theorem rootLoop_area_finds_iff (hsize : v.fatsize ≠ .fat32) {dirent : Memory UInt8}
    (hend : ∃ scan, SectorsEnd v dev bufs q v.rootSector v.rootdirSize scan ∧
      scan.Settles) :
    RootLoopFinds v dev bufs q (rootStart v rootCluster) dirent ↔
      SectorsEnd v dev bufs q v.rootSector v.rootdirSize (.found dirent) := by
  constructor
  · rintro ⟨s, hs, hfound⟩
    obtain ⟨k, hpass, rfl⟩ := (areaPlace_reach_iff hsize).mp hs
    obtain ⟨scan, ⟨i, hi, -, hscan⟩, hsettles⟩ := hend
    have hle := not_passed_behind hsettles.ne_pass hscan hpass
    exact ⟨k, by omega, hpass, hfound⟩
  · rintro ⟨k, _, hpass, hfound⟩
    exact ⟨_, (areaPlace_reach_iff hsize).mpr ⟨k, hpass, rfl⟩, hfound⟩

/-! ### Clusters of no sectors -/

theorem scanSector_empty (hzero : v.clustSize = 0) (cursect cursect' : UInt32) :
    scanSector v dev bufs q cursect = scanSector v dev bufs q cursect' := by
  unfold scanSector Device.read
  rw [hzero]
  rfl

theorem rootLoop_empty_iff (hdev : dev.registered = true) (hzero : v.clustSize = 0) :
    RootLoopEnds v dev bufs q (rootStart v rootCluster) ↔
      ∃ scan, SectorsEnd v dev bufs q v.rootSector 1 scan ∧ scan.Settles := by
  constructor
  · intro hends
    obtain ⟨scan, hscan⟩ := scanSector_some v bufs hdev q v.rootSector
    refine ⟨scan, sectorsEnd_one_iff.mpr hscan, settles_of_ne ?_ ?_⟩
    · rintro rfl
      -- the same entries are passed over again and again
      refine not_acyclic_of_goesOn (fun s _ => ?_) hends.acyclic
      exact ⟨s.next v dev, (scanSector_empty hzero _ _).trans hscan, rfl⟩
    · rintro rfl
      exact hends.inside _ .refl hscan
  · rintro ⟨scan, hend, hsettles⟩
    have hscan := sectorsEnd_one_iff.mp hend
    have hstop : ∀ s, ReflTransGen (RootStep v dev bufs q) (rootStart v rootCluster) s →
        s = rootStart v rootCluster := by
      intro s hs
      rcases ReflTransGen.cases_head hs with rfl | ⟨_, ⟨hpass, _⟩, _⟩
      · rfl
      · exact absurd (Option.some.inj (hscan.symm.trans hpass)) hsettles.ne_pass
    refine ⟨fun s hs hcycle => ?_, fun s hs houtside => ?_⟩
    · obtain ⟨_, ⟨hpass, _⟩, _⟩ := TransGen.head'_iff.mp hcycle
      rw [hstop s hs] at hpass
      exact hsettles.ne_pass (Option.some.inj (hscan.symm.trans hpass))
    · rw [hstop s hs] at houtside
      exact hsettles.ne_outside (Option.some.inj (hscan.symm.trans houtside))

theorem rootLoop_empty_finds_iff {dirent : Memory UInt8}
    (hend : ∃ scan, SectorsEnd v dev bufs q v.rootSector 1 scan ∧ scan.Settles) :
    RootLoopFinds v dev bufs q (rootStart v rootCluster) dirent ↔
      SectorsEnd v dev bufs q v.rootSector 1 (.found dirent) := by
  obtain ⟨scan, hend, hsettles⟩ := hend
  have hscan := sectorsEnd_one_iff.mp hend
  rw [sectorsEnd_one_iff]
  constructor
  · rintro ⟨s, hs, hfound⟩
    rcases ReflTransGen.cases_head hs with rfl | ⟨_, ⟨hpass, _⟩, _⟩
    · exact hfound
    · exact absurd (Option.some.inj (hscan.symm.trans hpass)) hsettles.ne_pass
  · exact fun hfound => ⟨_, .refl, hfound⟩

/-! ### FAT32 -/

/-- The place of the root loop at a sector of a cluster. -/
def clusterPlace (p : UInt32 × UInt32) (j : ℕ) : RootPlace :=
  ⟨p.1 + UInt32.ofNat j, UInt32.ofNat j, p.2⟩

variable {p p' : UInt32 × UInt32}

theorem rootStart_eq_clusterPlace :
    rootStart v rootCluster = clusterPlace (v.rootSector, rootCluster) 0 :=
  rootStart_eq

theorem clusterPlace_next (hcount : v.clustSize < 2 ^ 8) {j : ℕ}
    (hj : j + 1 < v.clustSize) (hsize : v.fatsize = .fat32) :
    (clusterPlace p j).next v dev = clusterPlace p (j + 1) := by
  have hadd : UInt32.ofNat j + 1 = UInt32.ofNat (j + 1) := (UInt32.ofNat_add j 1).symm
  have hinner : UInt32.ofNat (j + 1) ≠ UInt32.ofNat v.clustSize := by
    intro h
    have hnat := congrArg UInt32.toNat h
    rw [UInt32.toNat_ofNat', UInt32.toNat_ofNat'] at hnat
    omega
  unfold RootPlace.next clusterPlace
  dsimp only
  rw [if_pos hsize, hadd, if_neg hinner, UInt32.add_assoc, hadd]

theorem clusterPlace_next_last {j : ℕ} (hj : j + 1 = v.clustSize)
    (hsize : v.fatsize = .fat32) :
    (clusterPlace p j).next v dev = clusterPlace (v.nextRoot dev p) 0 := by
  have hadd : UInt32.ofNat j + 1 = UInt32.ofNat (j + 1) := (UInt32.ofNat_add j 1).symm
  unfold RootPlace.next clusterPlace Volume.nextRoot
  dsimp only
  rw [if_pos hsize, hadd, hj, if_pos rfl, show UInt32.ofNat 0 = 0 from rfl,
    UInt32.add_zero]

theorem clusterPlace_passed (hcount : v.clustSize < 2 ^ 8) (hsize : v.fatsize = .fat32)
    {j : ℕ} (hj : j < v.clustSize)
    (hpass : ∀ i < j, scanSector v dev bufs q (p.1 + UInt32.ofNat i) = some .pass) :
    ReflTransGen (RootStep v dev bufs q) (clusterPlace p 0) (clusterPlace p j) := by
  induction j with
  | zero => exact .refl
  | succ j ih =>
      refine (ih (Nat.lt_of_succ_lt hj) fun i hi => hpass i (Nat.lt_succ_of_lt hi)).tail
        ⟨hpass j (Nat.lt_succ_self j), ?_⟩
      exact (clusterPlace_next hcount hj hsize).symm

/-- The root loop goes from a cluster to the next one in some steps. -/
theorem RootLink.steps (hcount : v.clustSize < 2 ^ 8) (hsize : v.fatsize = .fat32)
    (hpos : 0 < v.clustSize) (h : RootLink v dev bufs q p p') :
    TransGen (RootStep v dev bufs q) (clusterPlace p 0) (clusterPlace p' 0) := by
  obtain ⟨hpass, rfl⟩ := h
  have hlast : v.clustSize - 1 < v.clustSize := by omega
  refine TransGen.tail' (clusterPlace_passed hcount hsize hlast
    fun i hi => hpass i (hi.trans hlast)) ⟨hpass _ hlast, ?_⟩
  exact (clusterPlace_next_last (by omega) hsize).symm

/-- The places that the root loop gets to from a cluster on. -/
theorem clusterPlace_reach_iff (hcount : v.clustSize < 2 ^ 8)
    (hsize : v.fatsize = .fat32) (hpos : 0 < v.clustSize) {s : RootPlace} :
    ReflTransGen (RootStep v dev bufs q) (clusterPlace p 0) s ↔
      ∃ p' j, ReflTransGen (RootLink v dev bufs q) p p' ∧ j < v.clustSize ∧
        (∀ i < j, scanSector v dev bufs q (p'.1 + UInt32.ofNat i) = some .pass) ∧
        s = clusterPlace p' j := by
  constructor
  · intro h
    induction h with
    | refl => exact ⟨p, 0, .refl, hpos, fun i hi => absurd hi (Nat.not_lt_zero i), rfl⟩
    | tail _ hstep ih =>
        obtain ⟨p', j, hreach, hj, hpass, rfl⟩ := ih
        obtain ⟨hsector, rfl⟩ := hstep
        have hpassed : ∀ i < j + 1,
            scanSector v dev bufs q (p'.1 + UInt32.ofNat i) = some .pass := by
          intro i hi
          rcases Nat.lt_succ_iff_lt_or_eq.mp hi with hlt | rfl
          · exact hpass i hlt
          · exact hsector
        rcases Nat.lt_or_eq_of_le (Nat.succ_le_of_lt hj) with hinner | hlast
        · exact ⟨p', j + 1, hreach, hinner, hpassed, clusterPlace_next hcount hinner hsize⟩
        · exact ⟨v.nextRoot dev p', 0, hreach.tail ⟨hlast ▸ hpassed, rfl⟩, hpos,
            fun i hi => absurd hi (Nat.not_lt_zero i), clusterPlace_next_last hlast hsize⟩
  · rintro ⟨p', j, hreach, hj, hpass, rfl⟩
    refine ReflTransGen.trans ?_ (clusterPlace_passed hcount hsize hj hpass)
    rcases reflTransGen_iff_eq_or_transGen.mp hreach with rfl | hsteps
    · exact .refl
    · exact (hsteps.lift' (clusterPlace · 0)
        fun _ _ hlink => hlink.steps hcount hsize hpos).to_reflTransGen

/-- Where the clusters do not come back, neither do the sectors. -/
theorem acc_clusterPlace (hcount : v.clustSize < 2 ^ 8) (hsize : v.fatsize = .fat32)
    (h : Acc (fun p' p => RootLink v dev bufs q p p') p) (hpos : 0 < v.clustSize) :
    Acc (fun s' s => RootStep v dev bufs q s s') (clusterPlace p 0) := by
  induction h with
  | intro p _ ih =>
      -- from the last sector of the cluster back to the first one
      suffices hsectors : ∀ left j, j + left + 1 = v.clustSize →
          (∀ i < j, scanSector v dev bufs q (p.1 + UInt32.ofNat i) = some .pass) →
          Acc (fun s' s => RootStep v dev bufs q s s') (clusterPlace p j) from
        hsectors (v.clustSize - 1) 0 (by omega) fun i hi => absurd hi (Nat.not_lt_zero i)
      intro left
      induction left with
      | zero =>
          intro j hj hpass
          refine Acc.intro _ ?_
          rintro _ ⟨hsector, rfl⟩
          rw [clusterPlace_next_last hj hsize]
          refine ih _ ⟨fun i hi => ?_, rfl⟩
          rcases Nat.lt_succ_iff_lt_or_eq.mp (hi.trans_le hj.ge) with hlt | rfl
          · exact hpass i hlt
          · exact hsector
      | succ left ihleft =>
          intro j hj hpass
          refine Acc.intro _ ?_
          rintro _ ⟨hsector, rfl⟩
          rw [clusterPlace_next hcount (by omega) hsize]
          refine ihleft (j + 1) (by omega) fun i hi => ?_
          rcases Nat.lt_succ_iff_lt_or_eq.mp hi with hlt | rfl
          · exact hpass i hlt
          · exact hsector

theorem rootLoop_chain_iff (hcount : v.clustSize < 2 ^ 8) (hsize : v.fatsize = .fat32)
    (hpos : 0 < v.clustSize) :
    RootLoopEnds v dev bufs q (rootStart v rootCluster) ↔
      Acyclic (RootLink v dev bufs q) (v.rootSector, rootCluster) ∧
        ∀ p, ReflTransGen (RootLink v dev bufs q) (v.rootSector, rootCluster) p →
          ¬ SectorsEnd v dev bufs q p.1 v.clustSize .outside := by
  rw [rootStart_eq_clusterPlace]
  constructor
  · intro hends
    refine ⟨hends.acyclic.of_transGen (clusterPlace · 0)
      fun _ _ hlink => hlink.steps hcount hsize hpos, ?_⟩
    rintro p hp ⟨j, hj, hpass, houtside⟩
    exact hends.inside _
      ((clusterPlace_reach_iff hcount hsize hpos).mpr ⟨p, j, hp, hj, hpass, rfl⟩) houtside
  · rintro ⟨hacyclic, hinside⟩
    refine ⟨acyclic_of_acc (acc_clusterPlace hcount hsize (acc_of_acyclic hacyclic) hpos),
      fun s hs houtside => ?_⟩
    obtain ⟨p, j, hp, hj, hpass, rfl⟩ := (clusterPlace_reach_iff hcount hsize hpos).mp hs
    exact hinside p hp ⟨j, hj, hpass, houtside⟩

theorem rootLoop_chain_finds_iff (hcount : v.clustSize < 2 ^ 8)
    (hsize : v.fatsize = .fat32) (hpos : 0 < v.clustSize) {dirent : Memory UInt8} :
    RootLoopFinds v dev bufs q (rootStart v rootCluster) dirent ↔
      ∃ p, ReflTransGen (RootLink v dev bufs q) (v.rootSector, rootCluster) p ∧
        SectorsEnd v dev bufs q p.1 v.clustSize (.found dirent) := by
  rw [rootStart_eq_clusterPlace]
  constructor
  · rintro ⟨s, hs, hfound⟩
    obtain ⟨p, j, hp, hj, hpass, rfl⟩ := (clusterPlace_reach_iff hcount hsize hpos).mp hs
    exact ⟨p, hp, j, hj, hpass, hfound⟩
  · rintro ⟨p, hp, j, hj, hpass, hfound⟩
    exact ⟨_, (clusterPlace_reach_iff hcount hsize hpos).mpr ⟨p, j, hp, hj, hpass, rfl⟩,
      hfound⟩

/-! ### All of them -/

/-- The root loop ends, on FAT12 and FAT16 inside the area, exactly where the sectors
say so. -/
theorem rootLoop_rootEnds_iff (hdev : dev.registered = true)
    (hcount : v.rootdirSize < 2 ^ 16) (hclust : v.clustSize < 2 ^ 8) :
    (RootLoopEnds v dev bufs q (rootStart v rootCluster) ∧
      (v.fatsize ≠ .fat32 →
        ∀ s, ReflTransGen (RootStep v dev bufs q) (rootStart v rootCluster) s →
          s.cursect.toNat < v.rootdirSect.toNat + v.rootdirSize)) ↔
      RootEnds v dev bufs q rootCluster := by
  by_cases hsize : v.fatsize = .fat32
  · rw [and_iff_left fun hne => absurd hsize hne]
    rcases Nat.eq_zero_or_pos v.clustSize with hzero | hpos
    · rw [rootLoop_empty_iff hdev hzero]
      exact ⟨fun h => ⟨fun hne => absurd hsize hne, fun _ _ => h,
        fun _ hpos => absurd hzero hpos.ne', fun _ hpos => absurd hzero hpos.ne'⟩,
        fun h => h.first hsize hzero⟩
    · rw [rootLoop_chain_iff hclust hsize hpos]
      exact ⟨fun h => ⟨fun hne => absurd hsize hne, fun _ hzero => absurd hzero hpos.ne',
        fun _ _ => h.1, fun _ _ => h.2⟩, fun h => ⟨h.chain hsize hpos, h.inside hsize hpos⟩⟩
  · constructor
    · rintro ⟨hends, hinside⟩
      exact ⟨fun _ => (rootLoop_area_iff hdev hsize hcount).mp ⟨hends, hinside hsize⟩,
        fun h32 => absurd h32 hsize, fun h32 => absurd h32 hsize,
        fun h32 => absurd h32 hsize⟩
    · intro h
      obtain ⟨hends, hinside⟩ := (rootLoop_area_iff hdev hsize hcount).mpr (h.area hsize)
      exact ⟨hends, fun _ => hinside⟩

theorem rootLoop_rootFinds_iff (hclust : v.clustSize < 2 ^ 8)
    (hends : RootEnds v dev bufs q rootCluster) {dirent : Memory UInt8} :
    RootLoopFinds v dev bufs q (rootStart v rootCluster) dirent ↔
      RootFinds v dev bufs q rootCluster dirent := by
  unfold RootFinds
  by_cases hsize : v.fatsize = .fat32
  · rcases Nat.eq_zero_or_pos v.clustSize with hzero | hpos
    · rw [if_neg fun h => absurd hzero h.2.ne', if_pos hsize]
      exact rootLoop_empty_finds_iff (hends.first hsize hzero)
    · rw [if_pos ⟨hsize, hpos⟩]
      exact rootLoop_chain_finds_iff hclust hsize hpos
  · rw [if_neg fun h => hsize h.1, if_neg hsize]
    exact rootLoop_area_finds_iff hsize (hends.area hsize)

end Sectors

/-! ## The volume -/

/-- A FAT16 volume with one sector of root directory, in which every entry is in
use. -/
def fullRoot : Device where
  contents i :=
    if i < fsBlockSize then
      Memory.copyIn (fun _ => 0) 13
        ([1, 1, 0, 1, 16, 0, 0, 0, 0, 1, 0] ++ List.replicate 30 0 ++ text "FAT16   ") i
    else ch 'A'
  registered := true

/-- Buffers that have not been used. -/
def newBuffers : Buffers := ⟨fun _ => 0, fun _ => 0, fun _ => 0⟩

/-- All entries are passed over. -/
def Scan.passes : Scan → Bool
  | .pass => true
  | _ => false

end TateFirmware.Fat
