import TateFirmware.Jffs2.Lookup

/-!
# The contents of a file

With `CFG_JFFS2_SORT_FRAGMENTS` the fragments are kept in the order of their
versions, so that the newest fragment over a byte is copied last.  Without it
they are copied in the order of the flash.
-/

namespace TateFirmware.Jffs2

open Support

/-! ## Sorting while inserting -/

section Sorted

variable {α : Type*} (key : α → ℕ)

/-- The list is in ascending order. -/
def Ascending (l : List α) : Prop := l.Pairwise fun a b => key a ≤ key b

/-- Later entries are the greater ones. -/
def greater (new old : α) : Bool := key old < key new

/-- In an ascending list a node that is older has older ones before it only. -/
theorem take_lt {l : List α} (hsorted : Ascending key l) {i : ℕ} {new old : α}
    (hget : l[i]? = some old) (hlt : key old < key new) :
    ∀ x ∈ l.take (i + 1), key x < key new := by
  intro x hx
  obtain ⟨j, hj, hxj⟩ := List.mem_take_iff_getElem.mp hx
  obtain ⟨hi, hold⟩ := List.getElem?_eq_some_iff.mp hget
  rcases Nat.lt_or_ge j i with hji | hji
  · have hle := List.pairwise_iff_getElem.mp hsorted j i (by omega) hi hji
    rw [hxj, hold] at hle
    exact Nat.lt_of_le_of_lt hle hlt
  · have hij : j = i := by omega
    subst hij
    rw [← hxj, hold]
    exact hlt

theorem passed_lt {list : BList α} (hsorted : Ascending key list.nodes)
    (new : α) :
    ∀ x ∈ list.nodes.take (list.passed (greater key) new),
      key x < key new := by
  unfold BList.passed
  split
  · rename_i hlast
    obtain ⟨last, hget, hlt⟩ := (Option.any_eq_true _ _).mp hlast
    rw [List.getLast?_eq_getElem?] at hget
    have htake := take_lt key hsorted hget (by simpa [greater] using hlt)
    have hpos := (List.getElem?_eq_some_iff.mp hget).1
    rw [Nat.sub_add_cancel (by omega)] at htake
    exact htake
  · split
    · simp
    · split
      · rename_i hcached
        obtain ⟨old, hget, hlt⟩ := (Option.any_eq_true _ _).mp hcached
        exact take_lt key hsorted hget (by simpa [greater] using hlt)
      · simp

theorem insertSorted_ascending {list : BList α}
    (hsorted : Ascending key list.nodes) (new : α) :
    Ascending key (list.insertSorted (greater key) new).nodes := by
  have hpassed := passed_lt key hsorted new
  unfold BList.insertSorted BList.place
  dsimp only
  generalize list.passed (greater key) new = start at hpassed ⊢
  rw [List.take_add, ← List.drop_drop]
  have hwhole := List.take_append_drop start list.nodes
  have hwalk := @List.takeWhile_append_dropWhile _ (greater key new)
    (list.nodes.drop start)
  have hwalked : ∀ x ∈ (list.nodes.drop start).takeWhile (greater key new),
      key x < key new := by
    intro x hx
    simpa [greater] using List.mem_takeWhile_imp hx
  have hstop : ∀ x ∈ ((list.nodes.drop start).dropWhile
      (greater key new)).head?, key new ≤ key x := by
    intro x hx
    have hnot := List.head?_dropWhile_not (greater key new)
      (list.nodes.drop start)
    rw [hx] at hnot
    simpa [greater] using hnot
  generalize (list.nodes.drop start).takeWhile (greater key new) = walked
    at hwalk hwalked ⊢
  generalize (list.nodes.drop start).dropWhile (greater key new) = behind
    at hwalk hstop
  rw [← hwalk, List.take_left, List.drop_left]
  rw [← hwalk, ← List.append_assoc] at hwhole
  have hsplit : Ascending key
      ((list.nodes.take start ++ walked) ++ behind) := by
    rw [hwhole]
    exact hsorted
  obtain ⟨hfront, hback, hcross⟩ := List.pairwise_append.mp hsplit
  refine List.pairwise_append.mpr ⟨hfront, ?_, ?_⟩
  · refine List.pairwise_cons.mpr ⟨?_, hback⟩
    intro x hx
    cases behind with
    | nil => cases hx
    | cons y ys =>
        have hy : key new ≤ key y := hstop y rfl
        rcases List.mem_cons.mp hx with rfl | hx
        · exact hy
        · exact hy.trans ((List.pairwise_cons.mp hback).1 x hx)
  · intro x hx y hy
    rcases List.mem_cons.mp hy with rfl | hy
    · rcases List.mem_append.mp hx with hx | hx
      · exact Nat.le_of_lt (hpassed x hx)
      · exact Nat.le_of_lt (hwalked x hx)
    · exact hcross x hx y hy

end Sorted

theorem addNode_ascending {pL : BLists} (node : Node)
    (hsorted : Ascending RawInode.version pL.frag.nodes) :
    Ascending RawInode.version (pL.addNode true node).frag.nodes := by
  cases node with
  | inode n => exact insertSorted_ascending RawInode.version hsorted n
  | dirent d => exact hsorted

/-- The fragments are in the order of their versions. -/
theorem buildLists_ascending (nodes : List Node) :
    Ascending RawInode.version
      (jffs21passBuildLists true nodes).frag.nodes := by
  unfold jffs21passBuildLists
  have hempty : Ascending RawInode.version
      (⟨BList.empty, BList.empty⟩ : BLists).frag.nodes := List.Pairwise.nil
  generalize (⟨BList.empty, BList.empty⟩ : BLists) = pL at hempty ⊢
  induction nodes generalizing pL with
  | nil => exact hempty
  | cons node nodes ih => exact ih _ (addNode_ascending node hempty)

/-! ## The size of a file -/

/-- The fragments of a file. -/
def fragments (nodes : List Node) (inode : ℕ) : List RawInode :=
  (inodes nodes).filter fun n => inode = n.ino

/-- What the loop over the sizes has found among some fragments. -/
def Sized (frs : List RawInode) (s₀ s : ReadInode) : Prop :=
  (frs = [] ∧ s = s₀) ∨
    ∃ n ∈ frs, (∀ m ∈ frs, m.version ≤ n.version) ∧
      s = ⟨n.isize, n.version, s₀.dest⟩

theorem findSize_sized (inode : ℕ) (frag : List RawInode)
    (dest : Option (Memory UInt8)) :
    Sized (frag.filter fun n => inode = n.ino) ⟨0, 0, dest⟩
      (findSize inode frag ⟨0, 0, dest⟩) := by
  unfold findSize
  induction frag using List.reverseRecOn with
  | nil => exact Or.inl ⟨rfl, rfl⟩
  | append_singleton frag n ih =>
      rw [List.foldl_append, List.filter_append, List.foldl_cons,
        List.foldl_nil]
      generalize frag.foldl _ _ = s at ih ⊢
      generalize frag.filter _ = frs at ih ⊢
      by_cases hino : inode = n.ino
      swap
      · rw [if_neg hino]
        simpa [hino] using ih
      have hone : [n].filter (fun n => inode = n.ino) = [n] := by
        simp [hino]
      rw [if_pos hino, hone]
      unfold ReadInode.newest
      right
      rcases ih with ⟨hfrs, hs⟩ | ⟨m, hmem, hle, hs⟩
      · subst hfrs hs
        rw [if_pos (Nat.zero_le _)]
        exact ⟨n, by simp, by simp, rfl⟩
      · subst hs
        by_cases hnew : n.version ≥ m.version
        · rw [if_pos hnew]
          refine ⟨n, by simp, ?_, rfl⟩
          intro x hx
          rcases List.mem_append.mp hx with hx | hx
          · exact (hle x hx).trans hnew
          · rw [List.mem_singleton.mp hx]
        · rw [if_neg hnew]
          refine ⟨m, List.mem_append_left _ hmem, ?_, rfl⟩
          intro x hx
          rcases List.mem_append.mp hx with hx | hx
          · exact hle x hx
          · rw [List.mem_singleton.mp hx]
            exact Nat.le_of_lt (Nat.not_le.mp hnew)

/-! ## The bytes of a file -/

/-- A fragment has the byte `i` of the file. -/
def RawInode.Covers (n : RawInode) (i : ℕ) : Prop :=
  n.offset ≤ i ∧ i < n.offset + n.dsize

instance (n : RawInode) (i : ℕ) : Decidable (n.Covers i) :=
  inferInstanceAs (Decidable (_ ∧ _))

/-- What one fragment does to memory, when the size of the file is known. -/
def putFragment (inode totalSize : ℕ) (dest : Memory UInt8) (n : RawInode) :
    Memory UInt8 :=
  if inode = n.ino ∧ n.offset ≤ totalSize then
    dest.copyIn n.offset (n.src.read 0 n.dsize)
  else dest

theorem readInodeLoop_put {decompress : RawInode → Option (List UInt8)}
    {inode : ℕ} {frag : List RawInode}
    (hnone : ∀ n ∈ frag, inode = n.ino → n.compr = jffs2ComprNone)
    (totalSize latestVersion : ℕ) (dest : Memory UInt8) :
    readInodeLoop true decompress inode frag
        ⟨totalSize, latestVersion, some dest⟩ =
      some ⟨totalSize, latestVersion,
        some (frag.foldl (putFragment inode totalSize) dest)⟩ := by
  induction frag generalizing dest with
  | nil => rfl
  | cons n frag ih =>
      have hrest := fun m hm => hnone m (List.mem_cons_of_mem n hm)
      rw [readInodeLoop, List.foldl_cons]
      by_cases hino : inode = n.ino
      swap
      · have hput : putFragment inode totalSize dest n = dest :=
          if_neg fun h => hino h.1
        rw [if_neg hino, hput]
        exact ih hrest dest
      rw [if_pos hino]
      simp only [if_true]
      by_cases hbehind : n.offset > totalSize
      · have hput : putFragment inode totalSize dest n = dest :=
          if_neg fun h => Nat.not_le.mpr hbehind h.2
        rw [if_pos hbehind, hput]
        exact ih hrest dest
      · have hput : putFragment inode totalSize dest n =
            dest.copyIn n.offset (n.src.read 0 n.dsize) :=
          if_pos ⟨hino, Nat.not_lt.mp hbehind⟩
        have hbytes : n.bytes decompress = some (n.src.read 0 n.dsize) :=
          if_pos (hnone n List.mem_cons_self hino)
        rw [if_neg hbehind, hput, hbytes]
        exact ih hrest _

theorem putFragment_covered {inode totalSize i : ℕ} {n : RawInode}
    (hino : inode = n.ino) (hi : i < totalSize) (hcovers : n.Covers i)
    (dest : Memory UInt8) :
    putFragment inode totalSize dest n i = n.src (i - n.offset) := by
  obtain ⟨hle, hlt⟩ := hcovers
  have hindex : i - n.offset < (n.src.read 0 n.dsize).length := by
    rw [Memory.read_length]
    omega
  have hcopy := @Memory.copyIn_add _ dest n.offset _ _ hindex
  rw [Nat.add_sub_cancel' hle, Memory.read_getElem, Nat.zero_add] at hcopy
  rw [putFragment, if_pos ⟨hino, by omega⟩]
  exact hcopy

theorem putFragment_other {inode totalSize i : ℕ} {n : RawInode}
    (hcovers : inode = n.ino → ¬ n.Covers i) (dest : Memory UInt8) :
    putFragment inode totalSize dest n i = dest i := by
  unfold putFragment
  split
  · rename_i h
    have hnot := hcovers h.1
    unfold RawInode.Covers at hnot
    by_cases hlt : i < n.offset
    · exact Memory.copyIn_of_lt _ hlt
    · apply Memory.copyIn_of_ge
      rw [Memory.read_length]
      omega
  · rfl

theorem foldl_putFragment_other {inode totalSize i : ℕ}
    {frag : List RawInode}
    (hcovers : ∀ n ∈ frag, inode = n.ino → ¬ n.Covers i)
    (dest : Memory UInt8) :
    frag.foldl (putFragment inode totalSize) dest i = dest i := by
  induction frag generalizing dest with
  | nil => rfl
  | cons n frag ih =>
      rw [List.foldl_cons, ih fun m hm => hcovers m (List.mem_cons_of_mem n hm)]
      exact putFragment_other (hcovers n List.mem_cons_self) dest

/-- The newest fragment over a byte is copied last. -/
theorem foldl_putFragment {inode totalSize i : ℕ} {frag : List RawInode}
    (hsorted : Ascending RawInode.version frag)
    (hversions : (frag.filter fun n => inode = n.ino).Pairwise
      fun a b => a.version ≠ b.version)
    {n : RawInode} (hmem : n ∈ frag) (hino : inode = n.ino)
    (hi : i < totalSize) (hcovers : n.Covers i)
    (hnewest : ∀ m ∈ frag, inode = m.ino → m.Covers i →
      m.version ≤ n.version)
    (dest : Memory UInt8) :
    frag.foldl (putFragment inode totalSize) dest i =
      n.src (i - n.offset) := by
  obtain ⟨before, behind, hsplit⟩ := List.append_of_mem hmem
  subst hsplit
  rw [List.foldl_append, List.foldl_cons, foldl_putFragment_other]
  · exact putFragment_covered hino hi hcovers _
  intro m hm hmino hmcovers
  have hmfrag : m ∈ before ++ n :: behind := by simp [hm]
  have hle := hnewest m hmfrag hmino hmcovers
  have hge := (List.pairwise_cons.mp
    (List.pairwise_append.mp hsorted).2.1).1 m hm
  have hlast : m ∈ behind.filter fun n => inode = n.ino :=
    List.mem_filter.mpr ⟨hm, by simpa using hmino⟩
  rw [List.filter_append, List.filter_cons_of_pos (by simpa using hino)]
    at hversions
  have hne := (List.pairwise_cons.mp
    (List.pairwise_append.mp hversions).2.1).1 m hlast
  exact hne (Nat.le_antisymm hge hle)

/-! ## Reading a file -/

/-- With the sorting, the size is that of the newest fragment, and every byte
below it that some fragment has is the byte of the newest such fragment. -/
theorem readInode_sorted (decompress : RawInode → Option (List UInt8))
    (nodes : List Node) (inode : ℕ) (dest : Memory UInt8) {newest : RawInode}
    (hnone : ∀ n ∈ fragments nodes inode, n.compr = jffs2ComprNone)
    (hversions : (fragments nodes inode).Pairwise
      fun a b => a.version ≠ b.version)
    (hmem : newest ∈ fragments nodes inode)
    (hnewest : ∀ n ∈ fragments nodes inode, n.version ≤ newest.version) :
    ∃ loaded, jffs21passReadInode true decompress
        (jffs21passBuildLists true nodes) inode (some dest) =
          some (newest.isize, some loaded) ∧
      ∀ i < newest.isize, ∀ n ∈ fragments nodes inode, n.Covers i →
        (∀ m ∈ fragments nodes inode, m.Covers i → m.version ≤ n.version) →
          loaded i = n.src (i - n.offset) := by
  have hsorted := buildLists_ascending nodes
  have hperm := ((buildLists_perm true nodes).2.filter
    fun n => inode = n.ino)
  change List.Perm _ (fragments nodes inode) at hperm
  unfold jffs21passReadInode
  generalize (jffs21passBuildLists true nodes).frag.nodes = frag
    at hsorted hperm ⊢
  have hfrag : ∀ n, n ∈ fragments nodes inode ↔ n ∈ frag ∧ inode = n.ino := by
    intro n
    rw [← hperm.mem_iff, List.mem_filter]
    simp
  have hversions' := (hperm.pairwise_iff fun {a b} h => Ne.symm h).mpr
    hversions
  have hsize : findSize inode frag ⟨0, 0, some dest⟩ =
      ⟨newest.isize, newest.version, some dest⟩ := by
    rcases findSize_sized inode frag (some dest) with ⟨hempty, -⟩ |
        ⟨n, hn, hle, hs⟩
    · rw [hempty] at hperm
      rw [← hperm.mem_iff] at hmem
      cases hmem
    · have heq : n = newest := by
        by_contra hne
        have hn' := hperm.mem_iff.mp hn
        have hsymm : Std.Symm fun a b : RawInode => a.version ≠ b.version :=
          ⟨fun _ _ h => Ne.symm h⟩
        have hversion := hversions.forall hn' hmem hne
        exact hversion (Nat.le_antisymm (hnewest n hn')
          (hle newest (hperm.mem_iff.mpr hmem)))
      rw [hs, heq]
  simp only [if_true]
  rw [hsize, readInodeLoop_put]
  · refine ⟨_, rfl, ?_⟩
    intro i hi n hn hcovers hle
    obtain ⟨hnfrag, hino⟩ := (hfrag n).mp hn
    exact foldl_putFragment hsorted hversions' hnfrag hino hi hcovers
      (fun m hm hmino hmcovers => hle m ((hfrag m).mpr ⟨hm, hmino⟩) hmcovers)
      dest
  · intro n hn hino
    exact hnone n ((hfrag n).mpr ⟨hn, hino⟩)

/-! ## A file that was written twice -/

/-- Two bytes of inode 7 as some version of them. -/
def twoBytes (version : ℕ) (a b : UInt8) : RawInode :=
  ⟨7, version, 2, 0, 2, 2, jffs2ComprNone, Memory.ofList 0 [a, b]⟩

/-- The newer bytes come first in flash. -/
def writtenTwice : List Node :=
  [.inode (twoBytes 2 5 6), .inode (twoBytes 1 8 9)]

theorem readInode_sorted_writtenTwice :
    ∃ loaded, jffs21passReadInode true (fun _ => none)
        (jffs21passBuildLists true writtenTwice) 7
        (some (Memory.ofList 0 [])) = some (2, some loaded) ∧
      loaded 1 = 6 := by
  obtain ⟨loaded, hread, hbytes⟩ := @readInode_sorted (fun _ => none)
    writtenTwice 7 (Memory.ofList 0 []) (twoBytes 2 5 6) (by decide)
    (by decide) List.mem_cons_self (by decide)
  refine ⟨loaded, hread, ?_⟩
  exact hbytes 1 (by decide) (twoBytes 2 5 6) List.mem_cons_self
    ⟨by decide, by decide⟩ (fun m hm _ => by revert m; decide)

/-- Without the sorting the older bytes are copied last. -/
theorem readInode_unsorted_writtenTwice :
    ∃ loaded, jffs21passReadInode false (fun _ => none)
        (jffs21passBuildLists false writtenTwice) 7
        (some (Memory.ofList 0 [])) = some (2, some loaded) ∧
      (twoBytes 2 5 6).Covers 1 ∧ loaded 1 = 9 ∧
        loaded 1 ≠ (twoBytes 2 5 6).src (1 - (twoBytes 2 5 6).offset) :=
  ⟨_, rfl, by decide, rfl, by decide⟩

end TateFirmware.Jffs2
