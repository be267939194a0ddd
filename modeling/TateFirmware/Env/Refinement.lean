import TateFirmware.Env.SetenvSpec

/-!
# The environment as a finite map

Over any sequence of definitions and deletions the environment stays well
formed with distinct names, and what `getenv` returns changes as the entries of
a map do.
-/

namespace TateFirmware.Env

open LibGeneric Support

/-! ## Lists of variables as maps -/

/-- No two variables have the same name. -/
def Distinct (vs : List Var) : Prop := (vs.map Var.name).Nodup

theorem unsetVar_sublist (bytes : List UInt8) (vs : List Var) :
    (unsetVar bytes vs).Sublist vs := List.eraseP_sublist

theorem unsetVar_distinct {vs : List Var} (h : Distinct vs)
    (bytes : List UInt8) : Distinct (unsetVar bytes vs) :=
  h.sublist ((unsetVar_sublist bytes vs).map Var.name)

/-- The name is gone. -/
theorem ne_of_mem_unsetVar {vs : List Var} (h : Distinct vs)
    {bytes : List UInt8} {v : Var} (hv : v ∈ unsetVar bytes vs) :
    v.name ≠ bytes := by
  rcases find_cases bytes vs with
    ⟨hnone, hunset⟩ | ⟨pre, w, post, hvs, hpre, hw, hunset⟩
  · rw [hunset] at hv
    exact (hnone v hv).symm
  · rw [hunset] at hv
    subst hvs
    subst hw
    rcases List.mem_append.mp hv with hv | hv
    · exact (hpre v hv).symm
    · intro heq
      have hnodup : (pre.map Var.name ++ w.name :: post.map Var.name).Nodup := by
        simpa [Distinct] using h
      have hcons := (List.nodup_append.mp hnodup).2.1
      exact (List.nodup_cons.mp hcons).1 (heq ▸ List.mem_map_of_mem hv)

theorem lookup_eq_none {vs : List Var} {bytes : List UInt8}
    (h : ∀ v ∈ vs, v.name ≠ bytes) : lookup bytes vs = none := by
  unfold lookup
  rw [Option.map_eq_none_iff, List.find?_eq_none]
  intro v hv
  simpa using h v hv

theorem lookup_unsetVar {vs : List Var} {bytes other : List UInt8}
    (hne : other ≠ bytes) : lookup other (unsetVar bytes vs) = lookup other vs := by
  unfold lookup unsetVar
  congr 1
  induction vs with
  | nil => rfl
  | cons v vs ih =>
      by_cases hv : v.name = bytes
      · have hother : v.name ≠ other := fun heq => hne (heq.symm.trans hv)
        rw [List.eraseP_cons_of_pos (by simpa using hv),
          List.find?_cons_of_neg (by simpa using hother)]
      · rw [List.eraseP_cons_of_neg (by simpa using hv)]
        by_cases hother : v.name = other
        · rw [List.find?_cons_of_pos (by simpa using hother),
            List.find?_cons_of_pos (by simpa using hother)]
        · rw [List.find?_cons_of_neg (by simpa using hother),
            List.find?_cons_of_neg (by simpa using hother), ih]

theorem lookup_concat_self {vs : List Var} {v : Var}
    (h : ∀ u ∈ vs, u.name ≠ v.name) :
    lookup v.name (vs ++ [v]) = some v.value := by
  unfold lookup
  have hnone : vs.find? (fun u => u.name = v.name) = none := by
    rw [List.find?_eq_none]
    intro u hu
    simpa using h u hu
  rw [List.find?_append, hnone]
  simp

theorem lookup_concat_of_ne {vs : List Var} {v : Var} {other : List UInt8}
    (hne : other ≠ v.name) : lookup other (vs ++ [v]) = lookup other vs := by
  unfold lookup
  rw [List.find?_append, List.find?_cons_of_neg (by simpa using hne.symm),
    List.find?_nil, Option.or_none]

/-! ## Definitions as changes of a map -/

section SetVar

variable {size : ℕ} {name : CStr} {words : List CStr} {vs : List Var}

theorem setVar_distinct (h : Distinct vs) (hname : ch '=' ∉ name.1) :
    Distinct (setVar size name hname words vs).2 := by
  have hunset := unsetVar_distinct h name.1
  unfold setVar
  dsimp only
  split
  · exact hunset
  · split
    · unfold Distinct at hunset ⊢
      rw [List.map_append, List.map_singleton]
      refine List.Nodup.append hunset (List.nodup_singleton _) ?_
      intro n hn hn'
      rw [List.mem_singleton.mp hn'] at hn
      obtain ⟨v, hv, heq⟩ := List.mem_map.mp hn
      exact ne_of_mem_unsetVar h hv heq
    · exact hunset

/-- A definition that succeeds gives the name its value. -/
theorem lookup_setVar_self (h : Distinct vs) (hname : ch '=' ∉ name.1)
    (hwords : words ≠ [])
    (hok : (setVar size name hname words vs).1 = true) :
    lookup name.1 (setVar size name hname words vs).2 =
      some (joinWords (words.map Subtype.val)) := by
  unfold setVar at hok ⊢
  dsimp only at hok ⊢
  rw [if_neg hwords] at hok ⊢
  split at hok
  · rename_i hfits
    rw [if_pos hfits]
    exact @lookup_concat_self _ (newVar name hname words)
      fun u hu => ne_of_mem_unsetVar h hu
  · cases hok

/-- A deletion succeeds and takes the name away. -/
theorem setVar_nil (h : Distinct vs) (hname : ch '=' ∉ name.1) :
    (setVar size name hname [] vs).1 = true ∧
      lookup name.1 (setVar size name hname [] vs).2 = none :=
  ⟨rfl, lookup_eq_none fun _ hv => ne_of_mem_unsetVar h hv⟩

/-- Every other name keeps its value. -/
theorem lookup_setVar_of_ne (hname : ch '=' ∉ name.1) {other : List UInt8}
    (hne : other ≠ name.1) :
    lookup other (setVar size name hname words vs).2 = lookup other vs := by
  unfold setVar
  dsimp only
  split
  · exact lookup_unsetVar hne
  · split
    · rw [lookup_concat_of_ne hne]
      exact lookup_unsetVar hne
    · exact lookup_unsetVar hne

end SetVar

/-! ## Runs -/

/-- A name that can be defined and that is not treated specially. -/
structure Ordinary (name : CStr) : Prop where
  nonempty : name.1 ≠ []
  noEq : ch '=' ∉ name.1
  notSpecial : name.1 ∉ specialNames

/-- The environments that calls of `_do_setenv` with ordinary names lead to;
a call without words deletes the variable. -/
inductive Reaches (cfg : EnvConfig) (hooks : SetenvHooks)
    (env : Memory UInt8) : Memory UInt8 → Prop
  | refl : Reaches cfg hooks env env
  | step {env' env'' : Memory UInt8} {name : CStr} {words : List CStr}
      {rcode : ℤ} : Reaches cfg hooks env env' → Ordinary name →
      doSetenv cfg hooks env' name words = .returned rcode env'' →
      Reaches cfg hooks env env''

/-- The string that `getenv` returns. -/
def getenvString (cfg : EnvConfig) (env : Memory UInt8) (name : CStr) :
    Option (List UInt8) :=
  pointsTo cfg env (getenv cfg env name)

/-- A call of `_do_setenv` on `env` changes `getenv` as an update or a deletion
changes a map. -/
structure Updates (cfg : EnvConfig) (hooks : SetenvHooks)
    (env : Memory UInt8) (name : CStr) (words : List CStr) (rcode : ℤ)
    (env' : Memory UInt8) : Prop where
  returns : doSetenv cfg hooks env name words = .returned rcode env'
  defines : rcode = 0 → words ≠ [] →
    getenvString cfg env' name = some (joinWords (words.map Subtype.val))
  deletes : words = [] → rcode = 0 ∧ getenvString cfg env' name = none
  others : ∀ other : CStr, key other.1 ≠ name.1 →
    getenvString cfg env' other = getenvString cfg env other

variable {cfg : EnvConfig} {hooks : SetenvHooks} {env : Memory UInt8}
  {vs : List Var}

theorem doSetenv_updates (h : WellFormed cfg env vs) (hdistinct : Distinct vs)
    {name : CStr} (hname : Ordinary name) (words : List CStr) :
    ∃ rcode env' vs', Updates cfg hooks env name words rcode env' ∧
      WellFormed cfg env' vs' ∧ Distinct vs' := by
  have hkey := key_of_notMem hname.noEq
  obtain ⟨env', hreturns, h'⟩ := @doSetenv_performs cfg env vs name words hooks h
    hname.noEq hname.notSpecial
  refine ⟨_, env', _, ⟨hreturns, ?_, ?_, ?_⟩, h',
    setVar_distinct hdistinct hname.noEq⟩
  · intro hrcode hwords
    rw [getenvString, (h'.pointsTo_getenv name).1, hkey]
    refine lookup_setVar_self hdistinct hname.noEq hwords ?_
    split at hrcode
    · assumption
    · cases hrcode
  · rintro rfl
    obtain ⟨hok, hlookup⟩ := @setVar_nil cfg.envSize name vs hdistinct
      hname.noEq
    rw [getenvString, (h'.pointsTo_getenv name).1, hkey]
    exact ⟨if_pos hok, hlookup⟩
  · intro other hother
    rw [getenvString, getenvString, (h'.pointsTo_getenv other).1,
      (h.pointsTo_getenv other).1]
    exact lookup_setVar_of_ne hname.noEq hother

theorem Reaches.wellFormed (h : WellFormed cfg env vs)
    (hdistinct : Distinct vs) {env' : Memory UInt8}
    (hreaches : Reaches cfg hooks env env') :
    ∃ vs', WellFormed cfg env' vs' ∧ Distinct vs' := by
  induction hreaches with
  | refl => exact ⟨vs, h, hdistinct⟩
  | step _ hname hcall ih =>
      rename_i words rcode _
      obtain ⟨vs', h', hdistinct'⟩ := ih
      obtain ⟨rcode', env'', vs'', hupdates, h'', hdistinct''⟩ :=
        @doSetenv_updates cfg hooks _ vs' h' hdistinct' _ hname words
      rw [hupdates.returns] at hcall
      obtain ⟨-, rfl⟩ := SetenvResult.returned.inj hcall
      exact ⟨vs'', h'', hdistinct''⟩

/-- Every environment that is reached is well formed with distinct names, and
the next call changes `getenv` like a finite map. -/
theorem setenv_refines_map (cfg : EnvConfig) (hooks : SetenvHooks)
    (env env' : Memory UInt8) (vs : List Var) (h : WellFormed cfg env vs)
    (hdistinct : Distinct vs) (hreaches : Reaches cfg hooks env env') :
    (∃ vs', WellFormed cfg env' vs' ∧ Distinct vs') ∧
      ∀ name, Ordinary name → ∀ words, ∃ rcode env'',
        Updates cfg hooks env' name words rcode env'' := by
  obtain ⟨vs', h', hdistinct'⟩ := hreaches.wellFormed h hdistinct
  refine ⟨⟨vs', h', hdistinct'⟩, ?_⟩
  intro name hname words
  obtain ⟨rcode, env'', -, hupdates, -, -⟩ :=
    @doSetenv_updates cfg hooks env' vs' h' hdistinct' name hname words
  exact ⟨rcode, env'', hupdates⟩

theorem setenv_refines_map_oneVar :
    ∃ rcode env'',
      Updates ⟨128, false⟩ ⟨true, fun _ _ => true, fun _ => true⟩
        (Memory.ofList 0 (strings [oneVar] ++ [0])) ⟨text "b", by decide⟩
        [⟨text "2", by decide⟩] rcode env'' :=
  (setenv_refines_map ⟨128, false⟩ _ _ _ [oneVar] oneVar_wellFormed
    (List.nodup_singleton _) .refl).2 _
    ⟨by decide, by decide, by decide⟩ _

end TateFirmware.Env
