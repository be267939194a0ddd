import TateFirmware.Fat.FatRead

/-!
# Where the directories of a path end

`get_dentfromdir` goes from a cluster to the one that its FAT entry names.  Nothing in
the source keeps a chain from coming back, so that the search of a directory ends
exactly if the chain does, or if an entry of it ends the search first.  The loop over a
path uses up the path and searches one directory in each round.
-/

namespace TateFirmware.Fat

open LibGeneric Support Relation

section Steps

variable (v : Volume) (dev : Device) (bufs : Buffers)

/-- The search of a directory passes over a cluster and goes on at the cluster that its
FAT entry names. -/
def DirStep (name : List UInt8) (dols : ℕ) (c c' : UInt32) : Prop :=
  scanCluster v dev bufs name dols c = some .pass ∧
    c' = v.fatent dev c ∧ checkClust v.fatsize c' = false

/-- The search of a directory from a cluster on ends, and no long name leads out of the
buffers. -/
structure DirEnds (name : List UInt8) (dols : ℕ) (c : UInt32) : Prop where
  acyclic : Acyclic (DirStep v dev bufs name dols) c
  inside : ∀ c', ReflTransGen (DirStep v dev bufs name dols) c c' →
    scanCluster v dev bufs name dols c' ≠ some .outside

/-- The search of a directory from a cluster on gets to an entry. -/
def DirFinds (name : List UInt8) (dols : ℕ) (c : UInt32) (dirent : Memory UInt8) : Prop :=
  ∃ c', ReflTransGen (DirStep v dev bufs name dols) c c' ∧
    scanCluster v dev bufs name dols c' = some (.found dirent)

/-- A directory of the path leads to the next one. -/
def PathStep (dols : ℕ) (s s' : PathState) : Prop :=
  ∃ dirent, DirFinds v dev bufs (s.call dols).1 (s.call dols).2 (v.start s.dent) dirent ∧
    s.after dols (.found dirent) = .inr s'

/-- The path leads to a file. -/
def PathFile (dols : ℕ) (s : PathState) (dent : Memory UInt8) : Prop :=
  ∃ s', ReflTransGen (PathStep v dev bufs dols) s s' ∧ ∃ dirent,
    DirFinds v dev bufs (s'.call dols).1 (s'.call dols).2 (v.start s'.dent) dirent ∧
      s'.after dols (.found dirent) = .inl (.file dent)

end Steps

variable {v : Volume} {dev : Device} {bufs : Buffers}

/-! ## Directories -/

section Directories

variable {name : List UInt8} {dols : ℕ} {c c' : UInt32}

theorem dirRound_next_iff :
    RoundNext (dirRound v dev bufs name dols) c c' ↔ DirStep v dev bufs name dols c c' := by
  unfold RoundNext dirRound DirStep
  cases scanCluster v dev bufs name dols c with
  | none => simp
  | some scan =>
      cases scan with
      | outside => simp
      | stop => simp
      | found dirent => simp
      | pass =>
          cases hvalid : checkClust v.fatsize (v.fatent dev c) with
          | false =>
              simp only [hvalid, Bool.false_eq_true, if_false, Sum.inr.injEq, true_and]
              exact ⟨fun h => ⟨h.symm, h ▸ hvalid⟩, fun h => h.1.symm⟩
          | true =>
              simp only [hvalid, if_true, reduceCtorEq, true_and, false_iff, not_and]
              rintro rfl hfalse
              exact absurd (hvalid.symm.trans hfalse) (by decide)

theorem dirRound_outside_iff :
    dirRound v dev bufs name dols c = .inl .outside ↔
      scanCluster v dev bufs name dols c = some .outside := by
  unfold dirRound
  cases scanCluster v dev bufs name dols c with
  | none => simp
  | some scan =>
      cases scan with
      | pass => simp only; split_ifs <;> simp
      | _ => simp

theorem dirRound_found_iff {dirent : Memory UInt8} :
    dirRound v dev bufs name dols c = .inl (.found dirent) ↔
      scanCluster v dev bufs name dols c = some (.found dirent) := by
  unfold dirRound
  cases scanCluster v dev bufs name dols c with
  | none => simp
  | some scan =>
      cases scan with
      | pass => simp only; split_ifs <;> simp
      | _ => simp

theorem dirNext_eq :
    RoundNext (dirRound v dev bufs name dols) = DirStep v dev bufs name dols := by
  funext c c'
  exact propext dirRound_next_iff

/-- `get_dentfromdir` ends if and only if its chain does, before a long name leads out
of the buffers. -/
theorem getDentfromdir_ends_iff {retdent : Memory UInt8} :
    (∃ r, Returns (getDentfromdir v dev bufs name retdent dols) r ∧ r ≠ .outside) ↔
      DirEnds v dev bufs name dols (v.start retdent) := by
  refine roundLoop_avoids_iff.trans ?_
  simp only [dirNext_eq, ne_eq, dirRound_outside_iff]
  exact ⟨fun h => ⟨h.1, h.2⟩, fun h => ⟨h.acyclic, h.inside⟩⟩

theorem getDentfromdir_found_iff {retdent dirent : Memory UInt8} :
    Returns (getDentfromdir v dev bufs name retdent dols) (.found dirent) ↔
      DirFinds v dev bufs name dols (v.start retdent) dirent := by
  refine roundLoop_returns_iff.trans ?_
  simp only [dirNext_eq, dirRound_found_iff]
  rfl

theorem getDentfromdir_stable (retdent : Memory UInt8) :
    Stable (getDentfromdir v dev bufs name retdent dols) :=
  roundLoop_stable _ _

end Directories

/-! ## Paths -/

section Paths

variable {dols : ℕ} {s s' : PathState}

theorem pathRound_stable (s : PathState) : Stable (pathRound v dev bufs dols s) :=
  (getDentfromdir_stable s.dent).map _

theorem followPath_stable (s : PathState) :
    Stable fun fuel => followPath v dev bufs dols fuel s :=
  fuelLoop_stable pathRound_stable s

theorem pathRound_returns_iff {next : PathResult ⊕ PathState} :
    Returns (pathRound v dev bufs dols s) next ↔
      ∃ r, Returns (getDentfromdir v dev bufs (s.call dols).1 s.dent (s.call dols).2) r ∧
        s.after dols r = next :=
  returns_map

theorem pathNext_iff :
    FuelNext (pathRound v dev bufs dols) s s' ↔ PathStep v dev bufs dols s s' := by
  unfold FuelNext PathStep
  rw [pathRound_returns_iff]
  constructor
  · rintro ⟨r, hr, hafter⟩
    cases r with
    | outside => cases hafter
    | null => cases hafter
    | found dirent => exact ⟨dirent, getDentfromdir_found_iff.mp hr, hafter⟩
  · rintro ⟨dirent, hfinds, hafter⟩
    exact ⟨.found dirent, getDentfromdir_found_iff.mpr hfinds, hafter⟩

theorem length_behindDelim {path : List UInt8} (h : path.any isDirDelim = true) :
    ((path.dropWhile (!isDirDelim ·)).dropWhile isDirDelim).length < path.length := by
  induction path with
  | nil => cases h
  | cons c path ih =>
      cases hc : isDirDelim c with
      | true =>
          have hdrop := (List.dropWhile_sublist isDirDelim (l := path)).length_le
          rw [List.dropWhile_cons_of_neg (by simp [hc]), List.dropWhile_cons_of_pos hc,
            List.length_cons]
          omega
      | false =>
          rw [List.any_cons, hc, Bool.false_or] at h
          rw [List.dropWhile_cons_of_pos (by simp [hc]), List.length_cons]
          exact Nat.lt_succ_of_lt (ih h)

theorem splitDelim_length {path name nextname : List UInt8}
    (h : splitDelim path = some (name, nextname)) : nextname.length < path.length := by
  unfold splitDelim at h
  split_ifs at h with hany
  obtain rfl := congrArg Prod.snd (Option.some.inj h)
  exact length_behindDelim hany

/-- What the rounds use up: the path, and the second look at its last directory. -/
def PathState.toGo (s : PathState) : ℕ := 2 * s.subname.length + s.firsttime.toNat

theorem PathStep.toGo_lt (h : PathStep v dev bufs dols s s') : s'.toGo < s.toGo := by
  obtain ⟨dirent, _, hafter⟩ := h
  simp only [PathState.after] at hafter
  cases hsplit : splitDelim s.subname with
  | some cut =>
      have hshort := splitDelim_length hsplit
      simp only [hsplit] at hafter
      split_ifs at hafter
      have hfirst := Bool.toNat_le s'.firsttime
      rw [← Sum.inr.inj hafter] at hfirst ⊢
      simp only [PathState.toGo] at hfirst ⊢
      omega
  | none =>
      simp only [hsplit] at hafter
      split_ifs at hafter with hfirst
      rw [← Sum.inr.inj hafter]
      simp [PathState.toGo, hfirst.2]

theorem after_outside_iff {r : DirResult} :
    s.after dols r = .inl .outside ↔ r = .outside := by
  cases r with
  | outside => simp [PathState.after]
  | null => simp [PathState.after]
  | found dirent =>
      simp only [PathState.after, reduceCtorEq, iff_false]
      cases splitDelim s.subname <;> dsimp only <;> split_ifs <;> simp

theorem pathRound_ends_iff :
    (∃ next, Returns (pathRound v dev bufs dols s) next ∧ next ≠ .inl .outside) ↔
      DirEnds v dev bufs (s.call dols).1 (s.call dols).2 (v.start s.dent) := by
  rw [← getDentfromdir_ends_iff]
  constructor
  · rintro ⟨next, hnext, hne⟩
    obtain ⟨r, hr, rfl⟩ := pathRound_returns_iff.mp hnext
    exact ⟨r, hr, fun h => hne (after_outside_iff.mpr h)⟩
  · rintro ⟨r, hr, hne⟩
    exact ⟨s.after dols r, pathRound_returns_iff.mpr ⟨r, hr, rfl⟩,
      fun h => hne (after_outside_iff.mp h)⟩

/-- Following the path ends if and only if the search of each of its directories
does. -/
theorem followPath_ends_iff :
    (∃ r, Returns (fun fuel => followPath v dev bufs dols fuel s) r ∧ r ≠ .outside) ↔
      ∀ s', ReflTransGen (PathStep v dev bufs dols) s s' →
        DirEnds v dev bufs (s'.call dols).1 (s'.call dols).2 (v.start s'.dent) := by
  constructor
  · rintro ⟨r, hr, hne⟩
    obtain ⟨last, hreach, hend⟩ := (fuelLoop_returns_iff pathRound_stable).mp hr
    clear hr
    -- the rounds up to the last one are the only ones
    induction hreach using ReflTransGen.head_induction_on with
    | refl =>
        intro s' hs'
        rcases ReflTransGen.cases_head hs' with rfl | ⟨s₁, hstep, _⟩
        · exact pathRound_ends_iff.mp ⟨_, hend, fun h => hne (Sum.inl.inj h)⟩
        · cases hend.unique (pathRound_stable _) (pathNext_iff.mpr hstep)
    | head hnext _ ih =>
        intro s' hs'
        rcases ReflTransGen.cases_head hs' with rfl | ⟨s₁, hstep, hrest⟩
        · exact pathRound_ends_iff.mp ⟨_, hnext, nofun⟩
        · obtain rfl := Sum.inr.inj
            (Returns.unique (pathRound_stable _) hnext (pathNext_iff.mpr hstep))
          exact ih s' hrest
  · intro h
    induction hgo : s.toGo using Nat.strong_induction_on generalizing s with
    | h go ih =>
        obtain ⟨next, hnext, hne⟩ := pathRound_ends_iff.mpr (h s .refl)
        cases next with
        | inl r => exact ⟨r, Returns.loop_end hnext, fun hr => hne (congrArg _ hr)⟩
        | inr s' =>
            have hstep := pathNext_iff.mp hnext
            obtain ⟨r, hr, hroutside⟩ := ih s'.toGo (hgo ▸ hstep.toGo_lt)
              (fun s'' hs'' => h s'' (hs''.head hstep)) rfl
            exact ⟨r, Returns.loop_next pathRound_stable hnext hr, hroutside⟩

theorem followPath_file_iff {dent : Memory UInt8} :
    Returns (fun fuel => followPath v dev bufs dols fuel s) (.file dent) ↔
      PathFile v dev bufs dols s dent := by
  refine (fuelLoop_returns_iff pathRound_stable).trans ?_
  have hnext : FuelNext (pathRound v dev bufs dols) = PathStep v dev bufs dols := by
    funext s s'
    exact propext pathNext_iff
  rw [hnext]
  refine exists_congr fun s' => and_congr_right fun _ => ?_
  rw [pathRound_returns_iff]
  constructor
  · rintro ⟨r, hr, hafter⟩
    cases r with
    | outside => cases hafter
    | null => cases hafter
    | found dirent => exact ⟨dirent, getDentfromdir_found_iff.mp hr, hafter⟩
  · rintro ⟨dirent, hfinds, hafter⟩
    exact ⟨.found dirent, getDentfromdir_found_iff.mpr hfinds, hafter⟩

end Paths

end TateFirmware.Fat
