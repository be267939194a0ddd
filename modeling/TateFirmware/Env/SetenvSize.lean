import TateFirmware.Env.Refinement

/-!
# Definitions and the size of the environment

A definition that is not refused succeeds exactly if the list of variables that it
leads to, with all its terminators, is not longer than the environment.  One that
does not fit has deleted the old variable and has left the others alone.
-/

namespace TateFirmware.Env

open LibGeneric Support

/-! ## The variable that is defined -/

theorem append_eq_key (name rest : List UInt8) :
    (name ++ ch '=' :: rest).takeWhile (· ≠ ch '=') = key name := by
  rw [List.takeWhile_append]
  split
  · rename_i hall
    rw [List.takeWhile_cons_of_neg (by simp), List.append_nil, key,
      List.takeWhile_eq_self_iff.mpr]
    exact List.takeWhile_eq_self_iff.mp
      ((List.takeWhile_sublist _).eq_of_length hall)
  · rfl

/-- A string with an `=` in it is the part in front of it and the part behind
it. -/
theorem takeWhile_append_drop {s : List UInt8} (h : ch '=' ∈ s) :
    s.takeWhile (· ≠ ch '=') ++
        ch '=' :: s.drop ((s.takeWhile (· ≠ ch '=')).length + 1) = s := by
  induction s with
  | nil => exact absurd h List.not_mem_nil
  | cons c s ih =>
      by_cases hc : c = ch '='
      · rw [List.takeWhile_cons_of_neg (by simp [hc]), hc]
        rfl
      · rw [List.takeWhile_cons_of_pos (by simp [hc]), List.length_cons,
          List.drop_succ_cons, List.cons_append,
          ih ((List.mem_cons.mp h).resolve_left fun heq => hc heq.symm)]

theorem zero_notMem_definition (name : CStr) (words : List CStr) :
    (0 : UInt8) ∉ name.1 ++ ch '=' :: joinWords (words.map Subtype.val) := by
  intro hmem
  rcases List.mem_append.mp hmem with hmem | hmem
  · exact name.2 hmem
  · rcases List.mem_cons.mp hmem with hmem | hmem
    · exact absurd hmem (by decide)
    · refine @zero_notMem_wordBytes (ch '=') (by decide) _ ?_
        (List.mem_of_mem_tail hmem)
      intro word hword
      obtain ⟨w, -, rfl⟩ := List.mem_map.mp hword
      exact w.2

/-- The variable that a definition adds; a name with an `=` in it ends there. -/
def definedVar (name : CStr) (words : List CStr) : Var where
  name := key name.1
  value := (name.1 ++ ch '=' :: joinWords (words.map Subtype.val)).drop
    ((key name.1).length + 1)
  name_zero := fun h => name.2 ((List.takeWhile_sublist _).subset h)
  name_eq := fun h => by simpa using List.mem_takeWhile_imp h
  value_zero := fun h =>
    zero_notMem_definition name words ((List.drop_sublist _ _).subset h)

theorem definedVar_bytes (name : CStr) {words : List CStr}
    (hwords : words ≠ []) : (definedVar name words).bytes =
      name.1 ++ wordBytes (ch '=') (words.map Subtype.val) := by
  have hne : words.map Subtype.val ≠ [] :=
    fun hnil => hwords (List.map_eq_nil_iff.mp hnil)
  have hsplit := @takeWhile_append_drop
    (name.1 ++ ch '=' :: joinWords (words.map Subtype.val)) (by simp)
  rw [append_eq_key] at hsplit
  rw [wordBytes_eq hne]
  exact hsplit

/-! ## The result of a definition -/

/-- The variables that a definition leads to. -/
def definedVars (name : CStr) (words : List CStr) (vs : List Var) : List Var :=
  unsetVar (key name.1) vs ++ [definedVar name words]

/-- A definition succeeds exactly if its variables fit, and one that fails leaves a
well-formed environment and the values of the other variables. -/
def SetsIfFits (cfg : EnvConfig) (hooks : SetenvHooks) (env : Memory UInt8)
    (vs : List Var) (name : CStr) (words : List CStr) : Prop :=
  ∃ rcode env', doSetenv cfg hooks env name words = .returned rcode env' ∧
    (rcode = 0 ↔ areaLength (definedVars name words vs) ≤ cfg.envSize) ∧
    (rcode ≠ 0 → (∃ vs', WellFormed cfg env' vs') ∧
      ∀ other : CStr, key other.1 ≠ key name.1 →
        getenvString cfg env' other = getenvString cfg env other)

/-- The same for a definition that may be refused, which then changes nothing. -/
def SetsUnlessRefused (cfg : EnvConfig) (hooks : SetenvHooks)
    (env : Memory UInt8) (vs : List Var) (name : CStr) (words : List CStr) :
    Prop :=
  ∃ rcode env', doSetenv cfg hooks env name words = .returned rcode env' ∧
    (rcode = 0 ↔ ¬ Refused hooks name words vs ∧
      areaLength (definedVars name words vs) ≤ cfg.envSize) ∧
    (rcode = 0 → WellFormed cfg env' (definedVars name words vs)) ∧
    (Refused hooks name words vs → env' = env) ∧
    (¬ Refused hooks name words vs → rcode ≠ 0 →
      WellFormed cfg env' (unsetVar (key name.1) vs)) ∧
    (rcode ≠ 0 → ∀ other : CStr, key other.1 ≠ key name.1 →
      getenvString cfg env' other = getenvString cfg env other)

/-- Without the first variable of a name, the others have their values. -/
theorem getenvString_unset {cfg : EnvConfig} {env env' : Memory UInt8}
    {vs : List Var} {bytes : List UInt8} (h : WellFormed cfg env vs)
    (h' : WellFormed cfg env' (unsetVar bytes vs)) {other : CStr}
    (hother : key other.1 ≠ bytes) :
    getenvString cfg env' other = getenvString cfg env other := by
  rw [getenvString, getenvString, (h'.pointsTo_getenv other).1,
    (h.pointsTo_getenv other).1]
  exact lookup_unsetVar hother

/-- What `_do_setenv` does with a name and a value. -/
theorem doSetenv_sets (cfg : EnvConfig) (hooks : SetenvHooks)
    (env : Memory UInt8) (vs : List Var) (h : WellFormed cfg env vs)
    (name : CStr) (words : List CStr) (hwords : words ≠ []) :
    SetsUnlessRefused cfg hooks env vs name words := by
  by_cases hrefused : Refused hooks name words vs
  · refine ⟨1, env, doSetenv_of_refused h hrefused,
      iff_of_false one_ne_zero fun hsets => hsets.1 hrefused,
      fun hzero => absurd hzero one_ne_zero, fun _ => rfl,
      fun hallowed => absurd hrefused hallowed, fun _ _ _ => rfl⟩
  · obtain ⟨env', h', heq⟩ := doSetenv_of_not_refused h hrefused
    obtain ⟨env'', happend, h''⟩ :=
      append_performs h' (definedVar_bytes name hwords) 1
    rw [← heq.trans (if_neg hwords)] at happend
    by_cases hroom : areaLength (unsetVar (key name.1) vs ++
        [definedVar name words]) ≤ cfg.envSize
    · rw [if_pos hroom] at happend h''
      exact ⟨0, env'', happend, iff_of_true rfl ⟨hrefused, hroom⟩, fun _ => h'',
        fun hyes => absurd hyes hrefused, fun _ hne => absurd rfl hne,
        fun hne => absurd rfl hne⟩
    · rw [if_neg hroom] at happend h''
      exact ⟨1, env'', happend,
        iff_of_false one_ne_zero fun hsets => hroom hsets.2,
        fun hzero => absurd hzero one_ne_zero,
        fun hyes => absurd hyes hrefused, fun _ _ => h'',
        fun _ other hother => getenvString_unset h h'' hother⟩

theorem doSetenv_sets_oneVar : SetsUnlessRefused ⟨128, false⟩
    ⟨true, fun _ _ => true, fun _ => true⟩
    (Memory.ofList 0 (strings [oneVar] ++ [0])) [oneVar]
    ⟨text "b", by decide⟩ [⟨text "2", by decide⟩] :=
  doSetenv_sets _ _ _ _ oneVar_wellFormed _ _ (by decide)

/-- The environment `baudrate=9600`. -/
def baudrateVar : Var where
  name := text "baudrate"
  value := text "9600"
  name_zero := by decide
  name_eq := by decide
  value_zero := by decide

/-- A baud rate that is not in the table is refused, although it fits. -/
theorem not_setsIfFits : ¬ SetsIfFits ⟨128, false⟩
    ⟨true, fun _ _ => true, fun rate => rate = some (text "9600")⟩
    (Memory.ofList 0 (strings [baudrateVar] ++ [0])) [baudrateVar]
    ⟨text "baudrate", by decide⟩ [⟨text "1", by decide⟩] := by
  rintro ⟨rcode, env', hreturns, hsize, -⟩
  have h : WellFormed ⟨128, false⟩
      (Memory.ofList 0 (strings [baudrateVar] ++ [0])) [baudrateVar] :=
    ⟨⟨Memory.holds_ofList 0 _, by simp⟩, by decide⟩
  have hrefused : Refused
      ⟨true, fun _ _ => true, fun rate => rate = some (text "9600")⟩
      ⟨text "baudrate", by decide⟩ [⟨text "1", by decide⟩] [baudrateVar] :=
    ⟨⟨baudrateVar, by simp, by decide⟩, by decide⟩
  rw [doSetenv_of_refused h hrefused] at hreturns
  obtain ⟨hrcode, -⟩ := SetenvResult.returned.inj hreturns
  have hroom := hsize.mpr (by decide)
  rw [← hrcode] at hroom
  exact absurd hroom (by decide)

end TateFirmware.Env
