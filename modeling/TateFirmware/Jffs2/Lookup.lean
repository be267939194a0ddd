import TateFirmware.Jffs2.Nodes
import Mathlib.Data.List.MinMax
import Mathlib.Data.List.Perm.Basic

/-!
# The newest entry of a name

`jffs2_1pass_find_inode` passes over unlinks before it compares versions, so a
name whose newest entry is an unlink is found under the inode of an older
entry.  The order of the list, and so the sorting, plays no part in this.
-/

namespace TateFirmware.Jffs2

open LibGeneric Support

/-! ## The lists hold the nodes of the scan -/

section Insert

variable {α : Type*}

theorem insertNode_perm (listCompare : Option (α → α → Bool)) (list : BList α)
    (new : α) :
    (list.insertNode listCompare new).nodes.Perm (new :: list.nodes) := by
  cases listCompare with
  | none => exact List.perm_append_singleton new list.nodes
  | some compare =>
      have hmiddle : (list.insertSorted compare new).nodes.Perm
          (new :: (list.nodes.take (list.place compare new) ++
            list.nodes.drop (list.place compare new))) :=
        List.perm_middle
      rw [List.take_append_drop] at hmiddle
      exact hmiddle

end Insert

/-- The directory entries of a partition. -/
def dirents (nodes : List Node) : List RawDirent :=
  nodes.filterMap fun
    | .dirent d => some d
    | .inode _ => none

/-- The inode nodes of a partition. -/
def inodes (nodes : List Node) : List RawInode :=
  nodes.filterMap fun
    | .inode n => some n
    | .dirent _ => none

theorem buildLists_perm_from (sortFragments : Bool) (nodes : List Node)
    (pL : BLists) :
    let pL' := nodes.foldl (BLists.addNode sortFragments) pL
    pL'.dir.nodes.Perm (dirents nodes ++ pL.dir.nodes) ∧
      pL'.frag.nodes.Perm (inodes nodes ++ pL.frag.nodes) := by
  induction nodes generalizing pL with
  | nil => exact ⟨List.Perm.refl _, List.Perm.refl _⟩
  | cons node nodes ih =>
      obtain ⟨hdir, hfrag⟩ := ih (pL.addNode sortFragments node)
      cases node with
      | inode n =>
          refine ⟨hdir, hfrag.trans ?_⟩
          have hinsert := insertNode_perm
            (listCompare sortFragments compareInodes) pL.frag n
          exact (hinsert.append_left _).trans List.perm_middle
      | dirent d =>
          refine ⟨hdir.trans ?_, hfrag⟩
          have hinsert := insertNode_perm
            (listCompare sortFragments compareDirents) pL.dir d
          exact (hinsert.append_left _).trans List.perm_middle

/-- The scan loses no node and adds none. -/
theorem buildLists_perm (sortFragments : Bool) (nodes : List Node) :
    (jffs21passBuildLists sortFragments nodes).dir.nodes.Perm
        (dirents nodes) ∧
      (jffs21passBuildLists sortFragments nodes).frag.nodes.Perm
        (inodes nodes) := by
  have h := buildLists_perm_from sortFragments nodes
    ⟨BList.empty, BList.empty⟩
  simp only [BList.empty, List.append_nil] at h
  exact h

/-! ## Comparing names -/

/-- Characters are compared by the sign of their difference. -/
theorem strncmp_eq_zero {cs ct : List UInt8} (hct : (0 : UInt8) ∉ ct)
    (hlen : cs.length = ct.length) :
    strncmp cs ct ct.length = 0 ↔ cs = ct := by
  rw [strncmp_length_eq_zero_iff hct]
  constructor
  · exact fun h => (h.eq_of_length hlen.symm).symm
  · rintro rfl
    exact List.prefix_rfl

/-- A match is an entry of the name and parent that is not an unlink. -/
theorem matches_iff {d : RawDirent} {name : List UInt8} {pino : ℕ}
    (hname : (0 : UInt8) ∉ name) :
    d.matches name pino = true ↔
      (d.pino = pino ∧ d.name = name) ∧ d.ino ≠ 0 := by
  unfold RawDirent.matches RawDirent.nsize
  simp only [Bool.and_eq_true, decide_eq_true_eq]
  constructor
  · rintro ⟨⟨⟨hpino, hlen⟩, hino⟩, hcmp⟩
    exact ⟨⟨hpino.symm, (strncmp_eq_zero hname hlen.symm).mp hcmp⟩, hino⟩
  · rintro ⟨⟨hpino, heq⟩, hino⟩
    have hlen : name.length = d.name.length := by rw [heq]
    exact ⟨⟨⟨hpino.symm, hlen⟩, hino⟩,
      (strncmp_eq_zero hname hlen.symm).mpr heq⟩

/-! ## The search -/

/-- The entries of a name in a directory. -/
def entriesOf (nodes : List Node) (name : List UInt8) (pino : ℕ) :
    List RawDirent :=
  (dirents nodes).filter fun d => d.pino = pino && d.name = name

/-- An entry of the highest version. -/
def Newest (ds : List RawDirent) (d : RawDirent) : Prop :=
  d ∈ ds ∧ ∀ e ∈ ds, e.version ≤ d.version

theorem exists_newest {ds : List RawDirent} (hds : ds ≠ []) :
    ∃ d, Newest ds d := by
  cases hmax : ds.argmax RawDirent.version with
  | none => exact absurd (List.argmax_eq_none.mp hmax) hds
  | some d =>
      exact ⟨d, List.argmax_mem hmax,
        fun e he => List.le_of_mem_argmax he hmax⟩

/-- The inode number of a newest entry, or `0` where there is no entry. -/
def FindsNewest (ds : List RawDirent) (inode : ℕ) : Prop :=
  (ds = [] ∧ inode = 0) ∨ ∃ d, Newest ds d ∧ inode = d.ino

/-- What the search has found among some entries. -/
def Found (ds : List RawDirent) (s : FindInode) : Prop :=
  (ds = [] ∧ s = ⟨0, 0⟩) ∨ ∃ d, Newest ds d ∧ s = ⟨d.version, d.ino⟩

theorem findInode_found (name : List UInt8) (pino : ℕ)
    (dir : List RawDirent) :
    Found (dir.filter (·.matches name pino))
      (dir.foldl (findInodeStep name pino) ⟨0, 0⟩) := by
  induction dir using List.reverseRecOn with
  | nil => exact Or.inl ⟨rfl, rfl⟩
  | append_singleton dir d ih =>
      rw [List.foldl_append, List.filter_append, List.foldl_cons,
        List.foldl_nil]
      generalize dir.foldl (findInodeStep name pino) ⟨0, 0⟩ = s at ih ⊢
      generalize dir.filter (·.matches name pino) = ds at ih ⊢
      unfold findInodeStep
      by_cases hmatch : d.matches name pino = true
      swap
      · have hnone : [d].filter (·.matches name pino) = [] := by
          simp [hmatch]
        rw [if_neg hmatch, hnone, List.append_nil]
        exact ih
      have hone : [d].filter (·.matches name pino) = [d] := by simp [hmatch]
      rw [if_pos hmatch, hone]
      rcases ih with ⟨hds, hs⟩ | ⟨newest, ⟨hmem, hle⟩, hs⟩
      · subst hds hs
        rw [if_neg (Nat.not_lt_zero _)]
        exact Or.inr ⟨d, ⟨by simp, by simp⟩, rfl⟩
      · subst hs
        right
        by_cases hold : d.version < newest.version
        · rw [if_pos hold]
          refine ⟨newest, ⟨List.mem_append_left _ hmem, ?_⟩, rfl⟩
          intro e he
          rcases List.mem_append.mp he with he | he
          · exact hle e he
          · rw [List.mem_singleton.mp he]
            exact Nat.le_of_lt hold
        · rw [if_neg hold]
          refine ⟨d, ⟨by simp, ?_⟩, rfl⟩
          intro e he
          rcases List.mem_append.mp he with he | he
          · exact (hle e he).trans (Nat.not_lt.mp hold)
          · rw [List.mem_singleton.mp he]

/-- The matches in the list of the scan are the entries in flash that are not
unlinks. -/
theorem matches_perm (sortFragments : Bool) (nodes : List Node)
    {name : List UInt8} (hname : (0 : UInt8) ∉ name) (pino : ℕ) :
    ((jffs21passBuildLists sortFragments nodes).dir.nodes.filter
        (·.matches name pino)).Perm
      ((entriesOf nodes name pino).filter (·.ino ≠ 0)) := by
  have hperm := (buildLists_perm sortFragments nodes).1.filter
    (·.matches name pino)
  have hfilter : (dirents nodes).filter (·.matches name pino) =
      (entriesOf nodes name pino).filter (·.ino ≠ 0) := by
    rw [entriesOf, List.filter_filter]
    apply List.filter_congr
    intro d _
    rw [Bool.eq_iff_iff, matches_iff hname]
    simp [and_comm, and_assoc]
  rw [hfilter] at hperm
  exact hperm

/-- When the search returns the newest entry of a name: a newest one is not an
unlink, or all are. -/
theorem findInode_newest_iff (sortFragments : Bool) (nodes : List Node)
    (name : List UInt8) (pino : ℕ) :
    FindsNewest (entriesOf nodes (cstr name) pino)
        (jffs21passFindInode (jffs21passBuildLists sortFragments nodes) name
          pino) ↔
      (∃ d, Newest (entriesOf nodes (cstr name) pino) d ∧ d.ino ≠ 0) ∨
        ∀ d ∈ entriesOf nodes (cstr name) pino, d.ino = 0 := by
  have hperm := matches_perm sortFragments nodes (zero_notMem_cstr name) pino
  have hfound := findInode_found (cstr name) pino
    (jffs21passBuildLists sortFragments nodes).dir.nodes
  unfold jffs21passFindInode
  generalize List.foldl _ _ _ = s at hfound ⊢
  generalize List.filter _ (jffs21passBuildLists _ _).dir.nodes = ms
    at hperm hfound
  generalize entriesOf nodes (cstr name) pino = ds at hperm ⊢
  have hmem : ∀ d, d ∈ ms ↔ d ∈ ds ∧ d.ino ≠ 0 := by
    intro d
    rw [hperm.mem_iff, List.mem_filter]
    simp
  rcases hfound with ⟨hms, hs⟩ | ⟨found, ⟨hfound, hle⟩, hs⟩
  · have hzero : ∀ d ∈ ds, d.ino = 0 := by
      intro d hd
      by_contra hino
      have hin := (hmem d).mpr ⟨hd, hino⟩
      rw [hms] at hin
      cases hin
    subst hs
    refine iff_of_true ?_ (Or.inr hzero)
    cases ds with
    | nil => exact Or.inl ⟨rfl, rfl⟩
    | cons d ds =>
        obtain ⟨newest, hnewest⟩ := exists_newest (List.cons_ne_nil d ds)
        exact Or.inr ⟨newest, hnewest, (hzero newest hnewest.1).symm⟩
  · subst hs
    obtain ⟨hfoundMem, hino⟩ := (hmem found).mp hfound
    constructor
    · rintro (⟨-, hnone⟩ | ⟨d, hnewest, hd⟩)
      · exact absurd hnone hino
      · exact Or.inl ⟨d, hnewest, fun hzero => hino (hd.trans hzero)⟩
    · rintro (⟨d, hnewest, hd⟩ | hzero)
      · refine Or.inr ⟨found, ⟨hfoundMem, fun e he => ?_⟩, rfl⟩
        exact (hnewest.2 e he).trans (hle d ((hmem d).mpr ⟨hnewest.1, hd⟩))
      · exact absurd (hzero found hfoundMem) hino

/-! ## A file that was deleted -/

/-- A file is created as inode 5, and then unlinked. -/
def deletedFile : List Node :=
  [.dirent ⟨1, 1, 5, text "f", by decide⟩,
    .dirent ⟨1, 2, 0, text "f", by decide⟩]

theorem not_newest_deletedFile {inode : ℕ} (hinode : inode = 5) :
    ¬ FindsNewest (entriesOf deletedFile (cstr (text "f")) 1) inode := by
  have hentries : entriesOf deletedFile (cstr (text "f")) 1 =
      [⟨1, 1, 5, text "f", by decide⟩, ⟨1, 2, 0, text "f", by decide⟩] := rfl
  rw [hentries, hinode]
  rintro (⟨hnone, -⟩ | ⟨d, ⟨hmem, hle⟩, hino⟩)
  · cases hnone
  · rcases List.mem_pair.mp hmem with rfl | rfl
    · exact absurd (hle _ (List.mem_cons_of_mem _ List.mem_cons_self))
        (by decide)
    · cases hino

/-- The file is found, with and without the sorting. -/
theorem not_findInode_deletedFile :
    ¬ FindsNewest (entriesOf deletedFile (cstr (text "f")) 1)
        (jffs21passFindInode (jffs21passBuildLists false deletedFile)
          (text "f") 1) ∧
      ¬ FindsNewest (entriesOf deletedFile (cstr (text "f")) 1)
        (jffs21passFindInode (jffs21passBuildLists true deletedFile)
          (text "f") 1) :=
  ⟨not_newest_deletedFile (by decide), not_newest_deletedFile (by decide)⟩

end TateFirmware.Jffs2
