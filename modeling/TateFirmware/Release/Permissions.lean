import TateFirmware.Release.Items

/-!
# The permissions a script sets

The script for a directory is written on the assumption that the directory and
all items below it have the attributes of `current`.  It gives every item of
the tree its own attributes and leaves all other paths alone, so the
assumption stays true for the directories and files that are still to come.
-/

namespace TateFirmware.Release

section Exec

variable {isDir : Path → Bool}

@[simp] theorem execAll_nil (fs : FileSystem) : execAll isDir [] fs = fs := rfl

@[simp] theorem execAll_append (a b : List Command) (fs : FileSystem) :
    execAll isDir (a ++ b) fs = execAll isDir b (execAll isDir a fs) :=
  List.foldl_append

theorem exec_setPerm_of_ne {path q : Path} (metadata : Metadata)
    (fs : FileSystem) (h : q ≠ path) :
    execAll isDir [.setPerm path metadata] fs q = fs q :=
  Function.update_of_ne h _ _

theorem exec_setPerm_self (path : Path) (metadata : Metadata)
    (fs : FileSystem) :
    execAll isDir [.setPerm path metadata] fs path = metadata.attributes :=
  Function.update_self _ _ _

theorem exec_setPermRecursive_below {path q : Path} (setting : Setting)
    (fs : FileSystem) (h : path <+: q) :
    execAll isDir [.setPermRecursive path setting] fs q =
      setting.attributes (isDir q) := if_pos h

theorem exec_setPermRecursive_outside {path q : Path}
    (setting : Setting) (fs : FileSystem) (h : ¬ path <+: q) :
    execAll isDir [.setPermRecursive path setting] fs q = fs q := if_neg h

end Exec

/-! ## Paths -/

mutual

/-- The paths of a tree start with the path of its root. -/
theorem Item.prefix_of_mem {parent : Path} :
    (i : Item) → ∀ e ∈ i.entries parent, parent ++ [i.name] <+: e.path
  | .file name metadata => by
      intro e he
      obtain rfl := List.mem_singleton.mp he
      exact List.prefix_refl _
  | .dir name metadata children => by
      intro e he
      rcases List.mem_cons.mp he with rfl | he
      · exact List.prefix_refl _
      · obtain ⟨i, hi, hbelow⟩ := prefix_of_mem_entriesOf children e he
        exact (List.prefix_append _ _).trans hbelow

theorem prefix_of_mem_entriesOf {parent : Path} :
    (children : List Item) → ∀ e ∈ entriesOf parent children,
      ∃ i ∈ children, parent ++ [i.name] <+: e.path
  | [] => fun e he => absurd he List.not_mem_nil
  | i :: children => by
      intro e he
      rcases List.mem_append.mp he with he | he
      · exact ⟨i, List.mem_cons_self, Item.prefix_of_mem i e he⟩
      · obtain ⟨j, hj, hbelow⟩ := prefix_of_mem_entriesOf children e he
        exact ⟨j, List.mem_cons_of_mem _ hj, hbelow⟩

end

/-- Two items of a directory with a path in common have the same name. -/
theorem name_eq_of_below {parent q : Path} {a b : String}
    (ha : parent ++ [a] <+: q) (hb : parent ++ [b] <+: q) : a = b := by
  obtain ⟨s, rfl⟩ := ha
  rw [List.append_assoc] at hb
  obtain ⟨t, ht⟩ := hb
  rw [List.append_assoc] at ht
  have hcons := List.append_cancel_left ht
  simp only [List.singleton_append, List.cons.injEq] at hcons
  exact hcons.1.symm

/-! ## The script of an item -/

/-- The attributes of the items are those of `current`. -/
def SetTo (current : Setting) (fs : FileSystem) (entries : List Entry) :
    Prop :=
  ∀ e ∈ entries, fs e.path = current.attributes e.isDir

/-- The items have the attributes recorded for them. -/
def Correct (fs : FileSystem) (entries : List Entry) : Prop :=
  ∀ e ∈ entries, fs e.path = e.metadata.attributes

/-- The file system has the directories and files of the tree. -/
def Installed (isDir : Path → Bool) (entries : List Entry) : Prop :=
  ∀ e ∈ entries, isDir e.path = e.isDir

/-- What a script does that sets the attributes of some items. -/
structure Sets (isDir : Path → Bool) (script : List Command)
    (fs : FileSystem) (entries : List Entry) (above : Path → Prop) : Prop where
  correct : Correct (execAll isDir script fs) entries
  unchanged : ∀ q, ¬ above q → execAll isDir script fs q = fs q

/-- An item that does not differ from the setting has its attributes. -/
theorem attributes_of_not_differs {s : Setting} {m : Metadata} {isDir : Bool}
    (h : ¬ s.Differs (if isDir then s.dmode else s.fmode) m) :
    s.attributes isDir = m.attributes := by
  simp only [Setting.Differs, not_or, not_not] at h
  obtain ⟨huid, hgid, hmode, hselabel, hcapabilities⟩ := h
  unfold Setting.attributes Metadata.attributes
  rw [huid, hgid, hmode, hselabel, hcapabilities]

/-- The command for one item whose attributes are those of a setting. -/
theorem setPerm_correct {isDir : Path → Bool} {fs : FileSystem} {path : Path}
    {s : Setting} {m : Metadata} {kind : Bool} {mode : ℤ}
    (hmode : mode = if kind then s.dmode else s.fmode)
    (hfs : fs path = s.attributes kind) :
    execAll isDir (if s.Differs mode m then [.setPerm path m] else []) fs
        path = m.attributes ∧
      ∀ q, q ≠ path →
        execAll isDir (if s.Differs mode m then [.setPerm path m] else []) fs
          q = fs q := by
  split
  · exact ⟨exec_setPerm_self path m fs, fun q hq =>
      exec_setPerm_of_ne m fs hq⟩
  · rename_i hsame
    rw [hmode] at hsame
    exact ⟨hfs.trans (attributes_of_not_differs hsame), fun q _ => rfl⟩

/-- The path belongs to the item `i` of the directory or is below it. -/
def Item.Covers (parent : Path) (i : Item) (q : Path) : Prop :=
  parent ++ [i.name] <+: q

section Recurse

variable {iteritems : Path → Counts → Counts} {isDir : Path → Bool}

/-- The recursive command makes the assumption true that the script for the
items below is written on. -/
theorem setPermRecursive_ready {path : Path} {current best : Setting}
    {fs : FileSystem} {entries : List Entry}
    (hbelow : ∀ e ∈ entries, path <+: e.path)
    (hinstalled : Installed isDir entries)
    (hready : current ≠ best ∨ SetTo current fs entries) :
    SetTo best (execAll isDir (if current ≠ best then
        [.setPermRecursive path best] else []) fs) entries ∧
      ∀ q, ¬ path <+: q → execAll isDir (if current ≠ best then
        [.setPermRecursive path best] else []) fs q = fs q := by
  by_cases hne : current ≠ best
  · rw [if_pos hne]
    refine ⟨fun e he => ?_, fun q hq =>
      exec_setPermRecursive_outside best fs hq⟩
    rw [exec_setPermRecursive_below best fs (hbelow e he),
      hinstalled e he]
  · rw [if_neg hne]
    obtain rfl := not_not.mp hne
    exact ⟨hready.resolve_left fun h => h rfl, fun q _ => rfl⟩

/-- A path below a directory is not that of the directory. -/
theorem ne_of_child_below {path q : Path} {name : String}
    (h : path ++ [name] <+: q) : q ≠ path := by
  rintro rfl
  have hlength := h.length_le
  rw [List.length_append, List.length_singleton] at hlength
  omega

/-- A directory is set if its children are. -/
theorem dir_sets {parent : Path} {name : String} {metadata : Metadata}
    {children : List Item} {current best : Setting} {fs : FileSystem}
    (hbest : best = bestSubtree (iteritems (parent ++ [name])
      (countAll [(metadata.dirKey, 1)] children)))
    (hchildren : ∀ fs, SetTo best fs (entriesOf (parent ++ [name]) children) →
      Sets isDir (recurseAll iteritems (parent ++ [name]) best children) fs
        (entriesOf (parent ++ [name]) children)
        fun q => ∃ i ∈ children, i.Covers (parent ++ [name]) q)
    (hinstalled : Installed isDir
      ((Item.dir name metadata children).entries parent))
    (hready : current ≠ best ∨
      SetTo current fs ((Item.dir name metadata children).entries parent)) :
    Sets isDir ((Item.dir name metadata children).recurse iteritems parent
        current) fs ((Item.dir name metadata children).entries parent)
      ((Item.dir name metadata children).Covers parent) := by
  have hscript : (Item.dir name metadata children).recurse iteritems parent
      current =
      (if current ≠ best then
        [.setPermRecursive (parent ++ [name]) best] else []) ++
        (if best.Differs best.dmode metadata then
          [.setPerm (parent ++ [name]) metadata] else []) ++
        recurseAll iteritems (parent ++ [name]) best children := by
    rw [Item.recurse, ← hbest]
  obtain ⟨hset, hout⟩ := setPermRecursive_ready
    (Item.prefix_of_mem (.dir name metadata children)) hinstalled hready
  rw [hscript]
  rw [Item.entries] at *
  simp only [Item.name] at hset hout
  have hcovers : (Item.dir name metadata children).Covers parent =
      fun q => parent ++ [name] <+: q := rfl
  rw [hcovers]
  generalize parent ++ [name] = path at *
  generalize hfs₁ : execAll isDir (if current ≠ best then
    [.setPermRecursive path best] else []) fs = fs₁ at hset hout
  -- the directory itself, whose children keep what they have
  obtain ⟨hself, hother⟩ := @setPerm_correct isDir fs₁ path best metadata true
    best.dmode rfl (hset _ List.mem_cons_self)
  generalize hfs₂ : execAll isDir (if best.Differs best.dmode metadata then
    [.setPerm path metadata] else []) fs₁ = fs₂ at hself hother
  have hbelow : ∀ e ∈ entriesOf path children, e.path ≠ path := by
    intro e he
    obtain ⟨i, -, hbelow⟩ := prefix_of_mem_entriesOf children e he
    exact ne_of_child_below hbelow
  obtain ⟨hcorrect, hunchanged⟩ := hchildren fs₂ fun e he => by
    rw [hother _ (hbelow e he)]
    exact hset e (List.mem_cons_of_mem _ he)
  constructor
  · intro e he
    rw [execAll_append, execAll_append, hfs₁, hfs₂]
    rcases List.mem_cons.mp he with rfl | he
    · rw [hunchanged path, hself]
      rintro ⟨i, -, hbelow⟩
      exact ne_of_child_below hbelow rfl
    · exact hcorrect e he
  · intro q hq
    have hne : q ≠ path := by
      rintro rfl
      exact hq (List.prefix_refl _)
    rw [execAll_append, execAll_append, hfs₁, hfs₂, hunchanged q, hother q hne,
      hout q hq]
    rintro ⟨i, -, hbelow⟩
    exact hq ((List.prefix_append _ _).trans hbelow)

mutual

/-- The script of an item sets it and what is below it, if all of that has
the attributes of `current`. -/
theorem Item.recurse_sets {parent : Path} {current : Setting}
    {fs : FileSystem} :
    (i : Item) → i.DistinctNames → Installed isDir (i.entries parent) →
      SetTo current fs (i.entries parent) →
      Sets isDir (i.recurse iteritems parent current) fs (i.entries parent)
        (i.Covers parent)
  | .file name metadata => by
      intro _ _ hset
      have hfile := hset ⟨parent ++ [name], false, metadata⟩
        List.mem_cons_self
      obtain ⟨hself, hother⟩ := @setPerm_correct isDir fs (parent ++ [name])
        current metadata false current.fmode rfl hfile
      refine ⟨fun e he => ?_, fun q hq => hother q ?_⟩
      · obtain rfl := List.mem_singleton.mp he
        exact hself
      · rintro rfl
        exact hq (List.prefix_refl _)
  | .dir name metadata children => by
      intro hnames hinstalled hset
      exact dir_sets rfl
        (fun fs => recurseAll_sets children hnames.1 hnames.2
          fun e he => hinstalled e (List.mem_cons_of_mem _ he))
        hinstalled (Or.inr hset)

/-- The same for some children of a directory, one after the other. -/
theorem recurseAll_sets {parent : Path} {current : Setting}
    {fs : FileSystem} :
    (children : List Item) → (children.map Item.name).Nodup →
      distinctNamesOf children → Installed isDir (entriesOf parent children) →
      SetTo current fs (entriesOf parent children) →
      Sets isDir (recurseAll iteritems parent current children) fs
        (entriesOf parent children)
        fun q => ∃ i ∈ children, i.Covers parent q
  | [] => fun _ _ _ _ =>
      ⟨fun e he => absurd he List.not_mem_nil, fun q _ => rfl⟩
  | i :: children => by
      intro hnodup hnames hinstalled hset
      rw [List.map_cons, List.nodup_cons] at hnodup
      obtain ⟨hfirst, hout⟩ := Item.recurse_sets i hnames.1
        (fun e he => hinstalled e (List.mem_append_left _ he))
        fun e he => hset e (List.mem_append_left _ he)
      -- the other children have other names, and are not touched
      have hdisjoint : ∀ j ∈ children, ∀ q, j.Covers parent q →
          ¬ i.Covers parent q := fun j hj q hjq hiq =>
        hnodup.1 (name_eq_of_below hiq hjq ▸ List.mem_map_of_mem hj)
      generalize hfs' : execAll isDir (i.recurse iteritems parent current) fs =
        fs' at hfirst hout
      have hset' : SetTo current fs' (entriesOf parent children) := by
        intro e he
        obtain ⟨j, hj, hbelow⟩ := prefix_of_mem_entriesOf children e he
        rw [hout _ (hdisjoint j hj _ hbelow)]
        exact hset e (List.mem_append_right _ he)
      obtain ⟨hrest, hunchanged⟩ := recurseAll_sets children hnodup.2 hnames.2
        (fun e he => hinstalled e (List.mem_append_right _ he)) hset'
      rw [recurseAll]
      constructor
      · intro e he
        rw [execAll_append, hfs']
        rcases List.mem_append.mp he with he | he
        · rw [hunchanged, hfirst e he]
          rintro ⟨j, hj, hcovers⟩
          exact hdisjoint j hj _ hcovers (Item.prefix_of_mem i e he)
        · exact hrest e he
      · intro q hq
        rw [execAll_append, hfs', hunchanged q, hout q]
        · exact fun hcovers => hq ⟨i, List.mem_cons_self, hcovers⟩
        · rintro ⟨j, hj, hcovers⟩
          exact hq ⟨j, List.mem_cons_of_mem _ hj, hcovers⟩

end

end Recurse

/-! ## The script of a tree -/

/-- A directory never has the tuple that stands for unknown attributes. -/
theorem unknown_ne_bestSubtree (items : Counts) :
    Setting.unknown ≠ bestSubtree items := by
  intro h
  have hdmode := congrArg Setting.dmode h
  simp only [Setting.unknown, bestSubtree] at hdmode
  omega

/-- Whatever the attributes were before, and in whatever order the
dictionaries yield their items: the script of a directory leaves every item of
its tree with exactly the attributes recorded for it. -/
theorem setPermissions_correct {isDir : Path → Bool} {name : String}
    {metadata : Metadata} {children : List Item}
    (iteritems : Path → Counts → Counts)
    (hnames : (Item.dir name metadata children).DistinctNames)
    (hinstalled : Installed isDir
      ((Item.dir name metadata children).entries [])) (fs : FileSystem) :
    Correct (execAll isDir
        ((Item.dir name metadata children).setPermissions iteritems) fs)
      ((Item.dir name metadata children).entries []) :=
  (dir_sets rfl
    (fun _ => recurseAll_sets children hnames.1 hnames.2
      fun e he => hinstalled e (List.mem_cons_of_mem _ he))
    hinstalled (Or.inl (unknown_ne_bestSubtree _))).correct

/-- A program among data files, in a directory of its own. -/
def systemItem : Item :=
  .dir "system" ⟨0, 0, 0o755, none, none⟩
    [.file "build.prop" ⟨0, 0, 0o644, none, none⟩,
      .dir "bin" ⟨0, 2000, 0o755, none, none⟩
        [.file "sh" ⟨0, 2000, 0o755, none, none⟩]]

theorem systemItem_entries : systemItem.entries [] =
    [⟨["system"], true, ⟨0, 0, 0o755, none, none⟩⟩,
      ⟨["system", "build.prop"], false, ⟨0, 0, 0o644, none, none⟩⟩,
      ⟨["system", "bin"], true, ⟨0, 2000, 0o755, none, none⟩⟩,
      ⟨["system", "bin", "sh"], false, ⟨0, 2000, 0o755, none, none⟩⟩] := rfl

theorem setPermissions_correct_systemItem :
    Correct (execAll
        (fun path => decide (path ∈ [["system"], ["system", "bin"]]))
        (systemItem.setPermissions fun _ items => items)
        (fun _ => ⟨-1, -1, -1, none, none⟩))
      (systemItem.entries []) := by
  have hnames : systemItem.DistinctNames := by
    simp [systemItem, Item.DistinctNames, distinctNamesOf, Item.name]
  have hinstalled : Installed
      (fun path => decide (path ∈ [["system"], ["system", "bin"]]))
      (systemItem.entries []) := by
    rw [systemItem_entries]
    simp [Installed]
  exact setPermissions_correct (fun _ items => items) hnames hinstalled _

end TateFirmware.Release
