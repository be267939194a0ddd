import TateFirmware.Net.Nfs

/-!
# The directory and the name of a boot file

`basename` looks for the last slash of a path from its end on, and `dirname` cuts the
path at the byte in front of the name.  Where there is no slash the name starts one
byte before the path, and the cut is one byte further to the left.
-/

namespace TateFirmware.Net

open LibGeneric Support

/-! ## The scan -/

/-- The loop of `basename`, with `fname` at byte `k - 1` of the path: the name, and
the addresses that are read. -/
def basenameScan (m : Memory UInt8) : ℕ → ℕ × List ℕ
  | 0 => (pathAt - 1, [])
  | k + 1 =>
      if m (pathAt + k) = ch '/' then (pathAt + k + 1, [pathAt + k])
      else
        let (fname, reads) := basenameScan m k
        (fname, (pathAt + k) :: reads)

/-- The addresses that `strlen(path)` reads. -/
def strlenReads (m : Memory UInt8) : List ℕ :=
  (List.range ((stringAt m pathAt).length + 1)).map fun k => pathAt + k

/-- The addresses that `basename(nfs_path)` and `dirname(nfs_path)` read, and the one
that is written. -/
def splitAccesses (m : Memory UInt8) : List ℕ :=
  let reads := strlenReads m ++ (basenameScan m (stringAt m pathAt).length).2
  reads ++ reads ++ [basename m - 1]

/-- The path is split into a directory and a name without leaving it to the left. -/
structure Splits (m : Memory UInt8) (path : List UInt8) : Prop where
  inside : ∀ a ∈ splitAccesses (strcpyPath m path), pathAt ≤ a
  joined : ch '/' ∈ path →
    stringAt (dirname (strcpyPath m path)) pathAt ++
      ch '/' :: stringAt (dirname (strcpyPath m path)) (basename (strcpyPath m path)) =
        path
  plain : ch '/' ∉ path →
    stringAt (dirname (strcpyPath m path)) (basename (strcpyPath m path)) = path ∧
      stringAt (dirname (strcpyPath m path)) pathAt = []

/-! ## Strings of the path buffer -/

/-- A string in the buffer, cut at its first zero. -/
theorem stringAt_of_holds_nul {m : Memory UInt8} {p : ℕ} {s : List UInt8}
    (h : Memory.Holds m p (s ++ [0])) (hlen : s.length < nfsPathSize) :
    stringAt m p = cstr s := by
  have hsplit : nfsPathSize = (s ++ [(0 : UInt8)]).length +
      (nfsPathSize - (s.length + 1)) := by
    rw [List.length_append, List.length_singleton]
    omega
  rw [stringAt, hsplit, Memory.read_add, h.read_eq, List.append_assoc,
    List.singleton_append, cstr_append_nul]

theorem stringAt_of_holds {m : Memory UInt8} {p : ℕ} {s : List UInt8}
    (h : Memory.Holds m p (s ++ [0])) (hs : (0 : UInt8) ∉ s)
    (hlen : s.length < nfsPathSize) : stringAt m p = s := by
  rw [stringAt_of_holds_nul h hlen, cstr_of_notMem hs]

theorem stringAt_strcpyPath {m : Memory UInt8} {path : List UInt8}
    (hpath : (0 : UInt8) ∉ path) (hlen : path.length < nfsPathSize) :
    stringAt (strcpyPath m path) pathAt = path :=
  stringAt_of_holds (Memory.holds_copyIn m pathAt _) hpath hlen

theorem findIdx_last {α : Type*} {p : α → Bool} {xs ys : List α} {a : α}
    (hxs : ∀ x ∈ xs, p x = false) (ha : p a = true) :
    (xs ++ a :: ys).findIdx? p = some xs.length := by
  induction xs with
  | nil => rw [List.nil_append, List.findIdx?_cons, ha]; rfl
  | cons x xs ih =>
      rw [List.cons_append, List.findIdx?_cons, hxs x List.mem_cons_self,
        ih fun y hy => hxs y (List.mem_cons_of_mem x hy)]
      rfl

/-- A path around its last slash. -/
theorem exists_lastSlash {path : List UInt8} (h : ch '/' ∈ path) :
    ∃ dir name, path = dir ++ ch '/' :: name ∧ ch '/' ∉ name := by
  obtain ⟨rname, rdir, hsplit, hname⟩ :=
    List.eq_append_cons_of_mem (List.mem_reverse.mpr h)
  refine ⟨rdir.reverse, rname.reverse, ?_, ?_⟩
  · rw [← List.reverse_reverse path, hsplit]
    simp
  · rwa [List.mem_reverse]

theorem basename_of_slash {m : Memory UInt8} {dir name : List UInt8}
    (hstring : stringAt m pathAt = dir ++ ch '/' :: name) (hname : ch '/' ∉ name) :
    basename m = pathAt + (dir.length + 1) := by
  have hfind : (dir ++ ch '/' :: name).reverse.findIdx? (· = ch '/') =
      some name.length := by
    rw [List.reverse_append, List.reverse_cons, List.append_assoc,
      List.singleton_append, findIdx_last, List.length_reverse]
    · intro c hc
      rw [List.mem_reverse] at hc
      refine decide_eq_false ?_
      rintro rfl
      exact hname hc
    · exact decide_eq_true rfl
  unfold basename
  rw [hstring, hfind]
  dsimp only
  rw [List.length_append, List.length_cons]
  omega

theorem basename_of_plain {m : Memory UInt8} (h : ch '/' ∉ stringAt m pathAt) :
    basename m = pathAt - 1 := by
  have hfind : (stringAt m pathAt).reverse.findIdx? (· = ch '/') = none := by
    rw [List.findIdx?_eq_none_iff]
    intro c hc
    rw [List.mem_reverse] at hc
    refine decide_eq_false ?_
    rintro rfl
    exact h hc
  unfold basename
  rw [hfind]

theorem basenameScan_reads (m : Memory UInt8) (k : ℕ) :
    ∀ a ∈ (basenameScan m k).2, pathAt ≤ a := by
  induction k with
  | zero => exact fun _ h => absurd h List.not_mem_nil
  | succ k ih =>
      rw [basenameScan]
      intro a ha
      split at ha
      · rw [List.mem_singleton.mp ha]
        exact Nat.le_add_right _ _
      · rcases List.mem_cons.mp ha with rfl | ha
        · exact Nat.le_add_right _ _
        · exact ih a ha

/-- Nothing in front of the path is accessed exactly if the name does not start
there. -/
theorem splitAccesses_inside_iff (m : Memory UInt8) :
    (∀ a ∈ splitAccesses m, pathAt ≤ a) ↔ pathAt ≤ basename m - 1 := by
  have hreads : ∀ a ∈ strlenReads m ++ (basenameScan m (stringAt m pathAt).length).2,
      pathAt ≤ a := by
    intro a ha
    rcases List.mem_append.mp ha with ha | ha
    · obtain ⟨k, -, rfl⟩ := List.mem_map.mp ha
      exact Nat.le_add_right _ _
    · exact basenameScan_reads m _ a ha
  constructor
  · intro h
    exact h _ (List.mem_append_right _ (List.mem_singleton_self _))
  · intro h a ha
    rcases List.mem_append.mp ha with ha | ha
    · rcases List.mem_append.mp ha with ha | ha
      · exact hreads a ha
      · exact hreads a ha
    · rwa [List.mem_singleton.mp ha]

/-! ## The split -/

/-- A path with a slash: the directory and the name are what stands around the last
one. -/
theorem split_of_slash {m : Memory UInt8} {dir name : List UInt8}
    (hzero : (0 : UInt8) ∉ dir ++ ch '/' :: name)
    (hlen : (dir ++ ch '/' :: name).length < nfsPathSize) (hname : ch '/' ∉ name) :
    let buff := strcpyPath m (dir ++ ch '/' :: name)
    basename buff = pathAt + (dir.length + 1) ∧
      stringAt (dirname buff) pathAt = dir ∧
      stringAt (dirname buff) (basename buff) = name := by
  intro buff
  have hbase : basename buff = pathAt + (dir.length + 1) :=
    basename_of_slash (stringAt_strcpyPath hzero hlen) hname
  rw [List.length_append, List.length_cons] at hlen
  rw [List.mem_append, List.mem_cons, not_or, not_or] at hzero
  have hholds : Memory.Holds buff pathAt (dir ++ ch '/' :: (name ++ [0])) := by
    have hcopy : Memory.Holds buff pathAt (dir ++ ch '/' :: name ++ [0]) :=
      Memory.holds_copyIn m pathAt _
    rwa [List.append_assoc, List.cons_append] at hcopy
  obtain ⟨hdir, hrest⟩ := Memory.holds_append.mp hholds
  have hstore : dirname buff = buff.store (pathAt + dir.length) 0 := by
    rw [dirname, hbase]
    rfl
  refine ⟨hbase, ?_, ?_⟩
  · refine stringAt_of_holds (Memory.Holds.append ?_ ?_) hzero.1 (by omega)
    · refine hdir.congr fun k _ hk => ?_
      rw [hstore, Memory.store_of_ne 0 (by omega)]
    · rw [Memory.holds_singleton, hstore, Memory.store_same]
  · refine stringAt_of_holds ?_ hzero.2.2 (by omega)
    have htail := (Memory.holds_cons.mp hrest).2
    rw [hbase, ← Nat.add_assoc]
    refine htail.congr fun k hk _ => ?_
    rw [hstore, Memory.store_of_ne 0 (by omega)]

/-- `NfsStart` splits a path without leaving it to the left exactly if it has a
slash. -/
theorem splits_iff (m : Memory UInt8) (path : List UInt8) (hne : path ≠ [])
    (hpath : (0 : UInt8) ∉ path) (hlen : path.length < nfsPathSize) :
    Splits m path ↔ ch '/' ∈ path := by
  constructor
  · intro h
    by_contra hplain
    have hinside := (splitAccesses_inside_iff _).mp h.inside
    rw [basename_of_plain (by rwa [stringAt_strcpyPath hpath hlen])] at hinside
    exact absurd hinside (by decide)
  · intro hslash
    obtain ⟨dir, name, rfl, hname⟩ := exists_lastSlash hslash
    obtain ⟨hbase, hdir, hstring⟩ := @split_of_slash m dir name hpath hlen hname
    refine ⟨?_, fun _ => ?_, fun hplain => absurd hslash hplain⟩
    · rw [splitAccesses_inside_iff, hbase]
      omega
    · rw [hdir, hstring]

theorem splits_iff_rootImage :
    Splits (fun _ => 0) (text "/root/uImage") ↔ ch '/' ∈ text "/root/uImage" :=
  splits_iff _ _ (by decide) (by decide) (by decide)

/-- A path without a slash: the name starts in front of the path. -/
theorem plainName_not_splits : ¬ Splits (fun _ => 0) (text "uImage") := by
  intro h
  have hinside := (splitAccesses_inside_iff _).mp h.inside
  rw [basename_of_plain
    (by rw [stringAt_strcpyPath (by decide) (by decide)]; decide)] at hinside
  exact absurd hinside (by decide)

end TateFirmware.Net
