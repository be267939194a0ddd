import TateFirmware.Env.Area

/-!
# What the two programs do to the variables

Both programs take the first variable of the name out of the list, and put the
new one behind the others when it fits.  They differ in how they delete the
last variable only, and there both leave the same list.
-/

namespace TateFirmware.Env

open LibGeneric Support

/-! ## Deleting -/

section Delete

variable {env : Memory UInt8} {pre post : List Var} {v : Var} {size : ℕ}

theorem holds_pre {vs ws : List Var} (h : env.Holds 0 (strings (vs ++ ws) ++ [0])) :
    env.Holds 0 (strings vs) := by
  rw [strings_append, List.append_assoc] at h
  exact (Memory.holds_append.mp h).1

/-- The only variable. -/
theorem area_of_zeros : Area ((env.copyIn 0 [0]).copyIn 1 [0]) [] := by
  refine ⟨?_, fun _ => rfl⟩
  exact Memory.holds_singleton.mpr rfl

/-- The deletion by moving down, as it is in both programs. -/
theorem shiftDown_area (h : Area env (pre ++ v :: post)) (hpost : post ≠ [])
    (hsize : (strings post).length ≤ size) :
    ∃ env' i, env.shiftDown 0 size (strings pre).length
        ((strings pre).length + v.bytes.length + 1) = some (env', i) ∧
      Area (env'.copyIn (i + 1) [0]) (pre ++ post) := by
  have hpos := strings_pos hpost
  obtain ⟨env', hshift, hmoved, hbelow⟩ :=
    Memory.shiftDown_eq (strings_closed hpost)
      (show (strings pre).length <
        (strings pre).length + v.bytes.length + 1 by omega)
      (holds_post h) hsize
  refine ⟨env', _, hshift, ?_⟩
  have hend : (strings pre).length + (strings post).length - 1 + 1 =
      (strings pre).length + (strings post).length := by omega
  rw [hend]
  exact area_of_shift hpost h hmoved hbelow

/-- The deletion of `_do_setenv`. -/
theorem deleteString_area (h : Area env (pre ++ v :: post))
    (hsize : (strings post).length ≤ size) :
    ∃ env', deleteString size env (strings pre).length
        ((strings pre).length + v.bytes.length) = some env' ∧
      Area env' (pre ++ post) := by
  unfold deleteString
  dsimp only
  by_cases hpost : post = []
  · subst hpost
    have hlast := Memory.holds_singleton.mp (holds_post h)
    rw [if_pos hlast, List.append_nil]
    by_cases hpre : pre = []
    · subst hpre
      exact ⟨_, rfl, area_of_zeros⟩
    · have hpos := strings_pos hpre
      rw [if_pos hpos]
      refine ⟨_, rfl, ?_, fun hnil => absurd hnil hpre⟩
      have hback : (strings pre).length - 1 + 1 = (strings pre).length := by
        omega
      dsimp only
      rw [hback]
      have hend := (holds_pre h.holds).append_copyIn [0]
      rwa [Nat.zero_add] at hend
  · rw [if_neg (holds_post_ne h hpost)]
    obtain ⟨env', i, hshift, harea⟩ := shiftDown_area h hpost hsize
    rw [hshift]
    exact ⟨_, rfl, harea⟩

/-- The deletion of `fw_setenv`. -/
theorem fwDeleteString_area (h : Area env (pre ++ v :: post))
    (hsize : (strings post).length ≤ size) :
    ∃ env', fwDeleteString size env (strings pre).length
        ((strings pre).length + v.bytes.length) = some env' ∧
      Area env' (pre ++ post) := by
  unfold fwDeleteString
  dsimp only
  by_cases hpost : post = []
  · subst hpost
    have hlast := Memory.holds_singleton.mp (holds_post h)
    rw [if_pos hlast, List.append_nil]
    refine ⟨_, rfl, ?_, ?_⟩
    · have hend := (holds_pre h.holds).append_copyIn [0]
      rw [Nat.zero_add] at hend
      refine hend.congr fun j _ hj => ?_
      rw [List.length_append, List.length_singleton] at hj
      exact Memory.copyIn_of_lt _ (by omega)
    · rintro rfl
      rfl
  · rw [if_neg (holds_post_ne h hpost)]
    obtain ⟨env', i, hshift, harea⟩ := shiftDown_area h hpost hsize
    rw [hshift]
    exact ⟨_, rfl, harea⟩

end Delete

/-! ## Appending -/

/-- The words, each behind its separator. -/
def wordBytes : UInt8 → List (List UInt8) → List UInt8
  | _, [] => []
  | sep, word :: words => sep :: word ++ wordBytes (ch ' ') words

/-- The words of a value, with blanks between them. -/
def joinWords (words : List (List UInt8)) : List UInt8 :=
  (wordBytes (ch '=') words).tail

theorem wordBytes_eq {words : List (List UInt8)} (hne : words ≠ []) :
    wordBytes (ch '=') words = ch '=' :: joinWords words := by
  cases words with
  | nil => exact absurd rfl hne
  | cons word words => rfl

theorem wordBytes_length (sep : UInt8) (words : List (List UInt8)) :
    (wordBytes sep words).length =
      (words.map fun word => word.length + 1).sum := by
  induction words generalizing sep with
  | nil => rfl
  | cons word words ih =>
      rw [wordBytes, List.length_append, ih, List.map_cons, List.sum_cons,
        List.length_cons]

theorem zero_notMem_wordBytes {sep : UInt8} (hsep : sep ≠ 0)
    {words : List (List UInt8)} (hwords : ∀ word ∈ words, (0 : UInt8) ∉ word) :
    (0 : UInt8) ∉ wordBytes sep words := by
  induction words generalizing sep with
  | nil => exact List.not_mem_nil
  | cons word words ih =>
      intro hmem
      rcases List.mem_append.mp hmem with hmem | hmem
      · rcases List.mem_cons.mp hmem with hmem | hmem
        · exact hsep hmem.symm
        · exact hwords word List.mem_cons_self hmem
      · exact ih (by decide)
          (fun w hw => hwords w (List.mem_cons_of_mem word hw)) hmem

/-- The words are written behind what stands there already. -/
theorem writeWords_holds {sep : UInt8} {env : Memory UInt8} {base : ℕ}
    {written : List UInt8} {words : List (List UInt8)}
    (h : env.Holds base (written ++ [0])) :
    (writeWords sep env (base + written.length) words).1.Holds base
        (written ++ wordBytes sep words ++ [0]) ∧
      (writeWords sep env (base + written.length) words).2 =
        base + (written ++ wordBytes sep words).length := by
  induction words generalizing sep env written with
  | nil =>
      rw [wordBytes, List.append_nil]
      exact ⟨h, rfl⟩
  | cons word words ih =>
      have hsep := (Memory.holds_append.mp h).1.append_copyIn [sep]
      have hword := hsep.append_copyIn (word ++ [0])
      have hindex : base + (written ++ [sep]).length =
          base + written.length + 1 := by
        rw [List.length_append, List.length_singleton, Nat.add_assoc]
      rw [hindex, ← List.append_assoc] at hword
      have hrest := @ih (ch ' ') _ _ hword
      have hnext : base + (written ++ [sep] ++ word).length =
          base + written.length + 1 + word.length := by
        simp only [List.length_append, List.length_singleton]
        omega
      have hbytes : written ++ [sep] ++ word ++ wordBytes (ch ' ') words =
          written ++ wordBytes sep (word :: words) := by
        simp [wordBytes]
      rw [hnext, hbytes] at hrest
      exact hrest

/-- The variable that an append defines. -/
def newVar (name : CStr) (hname : ch '=' ∉ name.1) (words : List CStr) : Var where
  name := name.1
  value := joinWords (words.map Subtype.val)
  name_zero := name.2
  name_eq := hname
  value_zero := by
    intro hmem
    refine @zero_notMem_wordBytes (ch '=') (by decide) _ ?_
      (List.mem_of_mem_tail hmem)
    intro word hword
    obtain ⟨w, -, rfl⟩ := List.mem_map.mp hword
    exact w.2

section Append

variable {env : Memory UInt8} {vs : List Var} {size : ℕ} {name : CStr}
  {words : List CStr}

theorem newVar_bytes (hname : ch '=' ∉ name.1) (hwords : words ≠ []) :
    (newVar name hname words).bytes =
      name.1 ++ wordBytes (ch '=') (words.map Subtype.val) := by
  have hne : words.map Subtype.val ≠ [] :=
    fun hnil => hwords (List.map_eq_nil_iff.mp hnil)
  rw [wordBytes_eq hne]
  rfl

theorem strings_concat {v : Var} {bytes : List UInt8} (hbytes : v.bytes = bytes) :
    strings (vs ++ [v]) = strings vs ++ bytes ++ [0] := by
  rw [strings_append, strings_cons, strings_nil, hbytes, List.append_assoc]

/-- The definition stands behind the other variables. -/
theorem writeDefinition_area (h : Area env vs) {v : Var}
    (hbytes : v.bytes = name.1 ++ wordBytes (ch '=') (words.map Subtype.val)) :
    Area (writeDefinition env (strings vs).length name.1
        (words.map Subtype.val)) (vs ++ [v]) := by
  refine ⟨?_, fun hnil => absurd hnil (by simp)⟩
  have hvs := (Memory.holds_append.mp h.holds).1
  have hcopy := hvs.append_copyIn (name.1 ++ [0])
  rw [Nat.zero_add, ← List.append_assoc] at hcopy
  obtain ⟨hholds, hend⟩ := @writeWords_holds (ch '=') _ 0 _
    (words.map Subtype.val) hcopy
  rw [Nat.zero_add, List.length_append] at hholds hend
  have hlast := hholds.append_copyIn [0]
  rw [strings_concat hbytes, ← List.append_assoc (strings vs)]
  unfold writeDefinition
  dsimp only
  rw [hend]
  have hindex : 0 + (strings vs ++ name.1 ++ wordBytes (ch '=')
        (words.map Subtype.val) ++ [0]).length =
      0 + (strings vs ++ name.1 ++ wordBytes (ch '=')
        (words.map Subtype.val)).length + 1 := by
    rw [List.length_append, List.length_singleton, Nat.add_assoc]
  rwa [hindex] at hlast

/-- The end of the list, where the append starts. -/
theorem listEnd_area (h : Area env vs) (hsize : (strings vs).length ≤ size) :
    ∃ i, env.listEnd 0 size 0 = some i ∧
      (if 0 < i then i + 1 else i) = (strings vs).length := by
  cases vs with
  | nil =>
      have hfirst : env 0 = 0 := Memory.holds_singleton.mp h.holds
      have hboth : env 0 = 0 ∧ env (0 + 1) = 0 := ⟨hfirst, h.closed rfl⟩
      refine ⟨0, ?_, rfl⟩
      cases size with
      | zero => rw [Memory.listEnd, if_pos hboth]
      | succ size => rw [Memory.listEnd, if_pos hboth]
  | cons v vs =>
      have hlen : 2 ≤ (strings (v :: vs)).length := by
        have hbytes := List.length_pos_iff.mpr v.proper.1
        rw [strings_cons, List.length_append, List.length_cons]
        omega
      refine ⟨_, Memory.listEnd_eq (strings_closed (List.cons_ne_nil v vs))
        h.holds (by omega), ?_⟩
      rw [Nat.zero_add, if_pos (by omega)]
      omega

/-- The append, when the definition fits. -/
theorem appendDefinition_eq (h : Area env vs)
    (hsize : (strings vs).length ≤ size) (overflow : ℤ)
    (finish : Memory UInt8 → SetenvResult) (bytes : List UInt8)
    (wordList : List (List UInt8)) :
    appendDefinition size env bytes wordList overflow finish =
      if size < (strings vs).length + definitionLength bytes wordList then
        .returned overflow env
      else finish
        (writeDefinition env (strings vs).length bytes wordList) := by
  obtain ⟨i, hend, hi⟩ := listEnd_area h hsize
  unfold appendDefinition
  rw [hend]
  dsimp only
  rw [hi]

end Append

/-! ## The programs on the list of variables -/

/-- The list without the first variable of a name. -/
def unsetVar (name : List UInt8) (vs : List Var) : List Var :=
  vs.eraseP fun v => v.name = name

/-- The list after a definition, and whether it fits. -/
def setVar (size : ℕ) (name : CStr) (hname : ch '=' ∉ name.1)
    (words : List CStr) (vs : List Var) : Bool × List Var :=
  let vs := unsetVar name.1 vs
  if words = [] then (true, vs)
  else if areaLength (vs ++ [newVar name hname words]) ≤ size then
    (true, vs ++ [newVar name hname words])
  else (false, vs)

/-- A program has returned, with 0 when it succeeds, and has left a well-formed
environment. -/
def Performs (cfg : EnvConfig) (overflow : ℤ) (result : SetenvResult)
    (after : Bool × List Var) : Prop :=
  ∃ env, result = .returned (if after.1 then 0 else overflow) env ∧
    WellFormed cfg env after.2

section Programs

variable {cfg : EnvConfig} {env : Memory UInt8} {vs : List Var} {name : CStr}
  {words : List CStr}

theorem areaLength_concat {v : Var}
    (hbytes : v.bytes = name.1 ++ wordBytes (ch '=') (words.map Subtype.val)) :
    areaLength (vs ++ [v]) =
      (strings vs).length +
        definitionLength name.1 (words.map Subtype.val) := by
  rw [areaLength, strings_concat hbytes, definitionLength]
  simp only [List.length_append, wordBytes_length, List.length_singleton]
  omega

/-- What both programs do when the old variable is gone. -/
theorem append_performs (h : WellFormed cfg env vs) {v : Var}
    (hbytes : v.bytes = name.1 ++ wordBytes (ch '=') (words.map Subtype.val))
    (overflow : ℤ) :
    Performs cfg overflow
      (appendDefinition cfg.envSize env name.1 (words.map Subtype.val) overflow
        fun env => .returned 0 env)
      (if areaLength (vs ++ [v]) ≤ cfg.envSize then (true, vs ++ [v])
      else (false, vs)) := by
  have hfits := h.fits
  have hlen : (strings vs).length + 1 ≤ areaLength vs := Nat.le_max_right _ _
  have hnew := @areaLength_concat vs name words v hbytes
  rw [appendDefinition_eq h.toArea (by omega)]
  by_cases hroom : areaLength (vs ++ [v]) ≤ cfg.envSize
  · rw [if_pos hroom, if_neg (by omega)]
    exact ⟨_, rfl, writeDefinition_area h.toArea hbytes, hroom⟩
  · rw [if_neg hroom, if_pos (by omega)]
    exact ⟨env, rfl, h⟩

theorem setDefinition_performs (h : WellFormed cfg env vs)
    (hname : ch '=' ∉ name.1) :
    Performs cfg 1 (setDefinition cfg env name words)
      (if words = [] then (true, vs)
      else if areaLength (vs ++ [newVar name hname words]) ≤ cfg.envSize then
        (true, vs ++ [newVar name hname words])
      else (false, vs)) := by
  unfold setDefinition
  by_cases hwords : words = []
  · rw [if_pos hwords, if_pos hwords]
    exact ⟨env, rfl, h⟩
  · rw [if_neg hwords, if_neg hwords]
    exact append_performs h (newVar_bytes hname hwords) 1

theorem fwSetDefinition_performs (h : WellFormed cfg env vs)
    (hname : ch '=' ∉ name.1) :
    Performs cfg (-1) (fwSetDefinition cfg true env name words)
      (if words = [] then (true, vs)
      else if areaLength (vs ++ [newVar name hname words]) ≤ cfg.envSize then
        (true, vs ++ [newVar name hname words])
      else (false, vs)) := by
  unfold fwSetDefinition
  by_cases hwords : words = []
  · rw [if_pos hwords, if_pos hwords]
    exact ⟨env, rfl, h⟩
  · rw [if_neg hwords, if_neg hwords, getenvsize_eq]
    exact append_performs h (newVar_bytes hname hwords) (-1)

/-- The names that one of the programs treats specially before it changes the
environment. -/
def specialNames : List (List UInt8) :=
  [text "serial#", text "ethaddr", text "stdin", text "stdout", text "stderr",
    text "baudrate"]

theorem refuses_eq_false {hooks : SetenvHooks} {bytes : List UInt8}
    (hspecial : bytes ∉ specialNames) (wordList : List (List UInt8)) :
    refuses hooks bytes wordList = false := by
  simp only [specialNames, List.mem_cons, List.not_mem_nil, or_false,
    not_or] at hspecial
  obtain ⟨hserial, heth, hin, hout, herr, hbaud⟩ := hspecial
  unfold refuses
  rw [if_neg (by simp [hserial, heth]), if_neg (by simp [hin, hout, herr]),
    if_neg hbaud]

theorem areaLength_le (pre post : List Var) (v : Var) :
    areaLength (pre ++ post) ≤ areaLength (pre ++ v :: post) := by
  unfold areaLength
  rw [strings_append, strings_append, strings_cons]
  simp only [List.length_append, List.length_cons]
  omega

/-- Either no variable has the name, or the first one is known. -/
theorem find_cases (bytes : List UInt8) (vs : List Var) :
    ((∀ v ∈ vs, bytes ≠ v.name) ∧ unsetVar bytes vs = vs) ∨
      ∃ pre v post, vs = pre ++ v :: post ∧ (∀ u ∈ pre, bytes ≠ u.name) ∧
        bytes = v.name ∧ unsetVar bytes vs = pre ++ post := by
  by_cases hmem : ∃ v ∈ vs, v.name = bytes
  · right
    obtain ⟨u, hu, hname⟩ := hmem
    obtain ⟨v, pre, post, hpre, hv, hvs, herase⟩ :=
      List.exists_of_eraseP (p := fun v : Var => v.name = bytes) hu
        (by simpa using hname)
    refine ⟨pre, v, post, hvs, ?_, ?_, herase⟩
    · intro w hw heq
      exact hpre w hw (by simpa using heq.symm)
    · have heq : v.name = bytes := by simpa using hv
      exact heq.symm
  · left
    have hne : ∀ v ∈ vs, bytes ≠ v.name :=
      fun v hv heq => hmem ⟨v, hv, heq.symm⟩
    refine ⟨hne, ?_⟩
    refine List.eraseP_of_forall_not ?_
    intro v hv
    simpa using (hne v hv).symm

/-- The variable exists and may not be changed in this way. -/
def Refused (hooks : SetenvHooks) (name : CStr) (words : List CStr)
    (vs : List Var) : Prop :=
  (∃ v ∈ vs, v.name = key name.1) ∧
    refuses hooks name.1 (words.map Subtype.val) = true

theorem doSetenv_of_refused {hooks : SetenvHooks} (h : WellFormed cfg env vs)
    (hrefused : Refused hooks name words vs) :
    doSetenv cfg hooks env name words = .returned 1 env := by
  have hfits := h.fits
  have hlen : (strings vs).length + 1 ≤ areaLength vs := Nat.le_max_right _ _
  obtain ⟨⟨u, hu, hname⟩, hrefuses⟩ := hrefused
  rcases find_cases (key name.1) vs with
    ⟨hnone, -⟩ | ⟨pre, v, post, rfl, hpre, hv, -⟩
  · exact absurd hname.symm (hnone u hu)
  · unfold doSetenv
    rw [searchLoop_some hpre hv h.holds (by omega)]
    dsimp only
    rw [if_pos hrefuses]

/-- A change that is not refused goes on without the variable. -/
theorem doSetenv_of_not_refused {hooks : SetenvHooks}
    (h : WellFormed cfg env vs) (hrefused : ¬ Refused hooks name words vs) :
    ∃ env', WellFormed cfg env' (unsetVar (key name.1) vs) ∧
      doSetenv cfg hooks env name words = setDefinition cfg env' name words := by
  have hfits := h.fits
  have hlen : (strings vs).length + 1 ≤ areaLength vs := Nat.le_max_right _ _
  unfold doSetenv
  rcases find_cases (key name.1) vs with
    ⟨hnone, hunset⟩ | ⟨pre, v, post, hvs, hpre, hv, hunset⟩
  · rw [hunset, searchLoop_none hnone h.holds (by omega)]
    exact ⟨env, h, rfl⟩
  · rw [hunset]
    subst hvs
    have hpost : (strings post).length ≤ cfg.envSize := by
      rw [strings_append, strings_cons] at hlen
      simp only [List.length_append, List.length_cons] at hlen
      omega
    have hallowed : ¬ refuses hooks name.1 (words.map Subtype.val) = true :=
      fun hrefuses => hrefused ⟨⟨v, by simp, hv.symm⟩, hrefuses⟩
    obtain ⟨env', hdelete, harea⟩ := deleteString_area h.toArea hpost
    rw [searchLoop_some hpre hv h.holds (by omega)]
    dsimp only
    rw [if_neg hallowed, hdelete]
    exact ⟨env', ⟨harea, (areaLength_le pre post v).trans hfits⟩, rfl⟩

/-- `_do_setenv` performs the definition on the list of variables. -/
theorem doSetenv_performs (hooks : SetenvHooks) (h : WellFormed cfg env vs)
    (hname : ch '=' ∉ name.1) (hspecial : name.1 ∉ specialNames) :
    Performs cfg 1 (doSetenv cfg hooks env name words)
      (setVar cfg.envSize name hname words vs) := by
  have hrefused : ¬ Refused hooks name words vs := by
    rintro ⟨-, hrefuses⟩
    rw [refuses_eq_false hspecial] at hrefuses
    cases hrefuses
  obtain ⟨env', h', heq⟩ := doSetenv_of_not_refused h hrefused
  rw [key_of_notMem hname] at h'
  rw [heq]
  exact setDefinition_performs h' hname

/-- `fw_setenv` performs it too, when the environment can be written. -/
theorem fwSetenv_performs (h : WellFormed cfg env vs)
    (hname : ch '=' ∉ name.1) (hspecial : name.1 ∉ specialNames) :
    Performs cfg (-1) (fwSetenv cfg true env name words)
      (setVar cfg.envSize name hname words vs) := by
  have hfits := h.fits
  have hlen : (strings vs).length + 1 ≤ areaLength vs := Nat.le_max_right _ _
  have hkey := key_of_notMem hname
  have hprotected : ¬ (name.1 = text "ethaddr" ∨ name.1 = text "serial#") := by
    rintro (heq | heq)
    · exact hspecial (by simp [specialNames, heq])
    · exact hspecial (by simp [specialNames, heq])
  unfold fwSetenv setVar
  rw [getenvsize_eq]
  rcases find_cases name.1 vs with
    ⟨hnone, hunset⟩ | ⟨pre, v, post, hvs, hpre, hv, hunset⟩
  · rw [hunset, searchLoop_none (by rwa [hkey]) h.holds (by omega)]
    exact fwSetDefinition_performs h hname
  · rw [hunset]
    subst hvs
    have hpost : (strings post).length ≤ cfg.envSize := by
      rw [strings_append, strings_cons] at hlen
      simp only [List.length_append, List.length_cons] at hlen
      omega
    obtain ⟨env', hdelete, harea⟩ := fwDeleteString_area h.toArea hpost
    have h' : WellFormed cfg env' (pre ++ post) :=
      ⟨harea, (areaLength_le pre post v).trans hfits⟩
    rw [searchLoop_some (by rwa [hkey]) (by rwa [hkey]) h.holds (by omega)]
    dsimp only
    rw [if_neg hprotected, hdelete]
    exact fwSetDefinition_performs h' hname

end Programs

/-! ## The two programs agree -/

/-- The definition succeeds in both programs, which leave the same variables
and look them up alike, or it fails in both. -/
def SetenvAgrees (cfg : EnvConfig) (hooks : SetenvHooks) (env : Memory UInt8)
    (name : CStr) (words : List CStr) : Prop :=
  (∃ env₁ env₂ vs, doSetenv cfg hooks env name words = .returned 0 env₁ ∧
      fwSetenv cfg true env name words = .returned 0 env₂ ∧
      WellFormed cfg env₁ vs ∧ WellFormed cfg env₂ vs ∧
      ∀ query, pointsTo cfg env₁ (getenv cfg env₁ query) =
          pointsTo cfg env₁ (fwGetenv cfg env₁ query) ∧
        pointsTo cfg env₂ (getenv cfg env₂ query) =
          pointsTo cfg env₁ (getenv cfg env₁ query) ∧
        pointsTo cfg env₂ (fwGetenv cfg env₂ query) =
          pointsTo cfg env₁ (getenv cfg env₁ query)) ∨
    ∃ rcode₁ env₁ rcode₂ env₂, rcode₁ ≠ 0 ∧ rcode₂ ≠ 0 ∧
      doSetenv cfg hooks env name words = .returned rcode₁ env₁ ∧
      fwSetenv cfg true env name words = .returned rcode₂ env₂

/-- On every well-formed environment the two programs agree. -/
theorem setenv_agree (cfg : EnvConfig) (hooks : SetenvHooks)
    (env : Memory UInt8) (vs : List Var) (name : CStr) (words : List CStr)
    (h : WellFormed cfg env vs) (hname : ch '=' ∉ name.1)
    (hspecial : name.1 ∉ specialNames) :
    SetenvAgrees cfg hooks env name words := by
  obtain ⟨env₁, h₁, hwf₁⟩ :=
    @doSetenv_performs cfg env vs name words hooks h hname hspecial
  obtain ⟨env₂, h₂, hwf₂⟩ :=
    @fwSetenv_performs cfg env vs name words h hname hspecial
  cases hok : (setVar cfg.envSize name hname words vs).1 with
  | true =>
      left
      rw [hok] at h₁ h₂
      refine ⟨env₁, env₂, _, h₁, h₂, hwf₁, hwf₂, ?_⟩
      intro query
      obtain ⟨hget₁, hfw₁⟩ := hwf₁.pointsTo_getenv query
      obtain ⟨hget₂, hfw₂⟩ := hwf₂.pointsTo_getenv query
      exact ⟨hget₁.trans hfw₁.symm, hget₂.trans hget₁.symm,
        hfw₂.trans hget₁.symm⟩
  | false =>
      right
      rw [hok] at h₁ h₂
      exact ⟨_, env₁, _, env₂, by decide, by decide, h₁, h₂⟩

/-- The environment `a=1`. -/
def oneVar : Var where
  name := text "a"
  value := text "1"
  name_zero := by decide
  name_eq := by decide
  value_zero := by decide

theorem oneVar_wellFormed :
    WellFormed ⟨128, false⟩ (Memory.ofList 0 (strings [oneVar] ++ [0]))
      [oneVar] :=
  ⟨⟨Memory.holds_ofList 0 _, by simp⟩, by decide⟩

theorem setenv_agree_oneVar :
    SetenvAgrees ⟨128, false⟩ ⟨true, fun _ _ => true, fun _ => true⟩
      (Memory.ofList 0 (strings [oneVar] ++ [0])) ⟨text "b", by decide⟩
      [⟨text "2", by decide⟩] :=
  setenv_agree _ _ _ [oneVar] _ _ oneVar_wellFormed (by decide) (by decide)

end TateFirmware.Env
