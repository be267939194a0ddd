import TateFirmware.Env.Setenv

/-!
# The environment as a list of variables

A well-formed environment is a list of strings `name=value` that is closed by
two terminators and lies within the environment.  The loops of `getenv` and of
the search find the variables, a deletion takes one of them out, and an append
puts one behind the others.
-/

namespace TateFirmware.Env

open LibGeneric Support

/-! ## Variables -/

/-- A variable of the environment. -/
structure Var where
  name : List UInt8
  value : List UInt8
  name_zero : (0 : UInt8) ∉ name
  name_eq : ch '=' ∉ name
  value_zero : (0 : UInt8) ∉ value

/-- The string of a variable. -/
def Var.bytes (v : Var) : List UInt8 := v.name ++ ch '=' :: v.value

theorem Var.proper (v : Var) : Proper 0 v.bytes := by
  refine ⟨?_, ?_⟩
  · simp [Var.bytes]
  · intro h
    rcases List.mem_append.mp h with h | h
    · exact v.name_zero h
    · rcases List.mem_cons.mp h with h | h
      · exact absurd h (by decide)
      · exact v.value_zero h

/-- The strings of the variables, each with its terminator. -/
def strings (vs : List Var) : List UInt8 := flat 0 (vs.map Var.bytes)

@[simp] theorem strings_nil : strings [] = [] := rfl

theorem strings_cons (v : Var) (vs : List Var) :
    strings (v :: vs) = v.bytes ++ 0 :: strings vs := flat_cons _ _

theorem strings_append (vs ws : List Var) :
    strings (vs ++ ws) = strings vs ++ strings ws := by
  rw [strings, List.map_append, flat_append]
  rfl

theorem strings_closed {vs : List Var} (hne : vs ≠ []) :
    Closed 0 (strings vs) := by
  refine closed_flat ?_ (by simpa using hne)
  intro s hs
  obtain ⟨v, -, rfl⟩ := List.mem_map.mp hs
  exact v.proper

theorem length_le_strings (vs : List Var) :
    vs.length ≤ (strings vs).length := by
  induction vs with
  | nil => exact Nat.le_refl 0
  | cons v vs ih =>
      rw [strings_cons, List.length_append, List.length_cons,
        List.length_cons]
      omega

theorem strings_pos {vs : List Var} (hne : vs ≠ []) :
    0 < (strings vs).length := by
  have hpos := List.length_pos_iff.mpr hne
  have hle := length_le_strings vs
  omega

/-- The variables stand in memory. -/
structure Area (env : Memory UInt8) (vs : List Var) : Prop where
  holds : env.Holds 0 (strings vs ++ [0])
  closed : vs = [] → env 1 = 0

/-- What the variables take up with the terminators that close the list. -/
def areaLength (vs : List Var) : ℕ := max 2 ((strings vs).length + 1)

/-- A well-formed environment. -/
structure WellFormed (cfg : EnvConfig) (env : Memory UInt8) (vs : List Var) :
    Prop extends Area env vs where
  fits : areaLength vs ≤ cfg.envSize

theorem getenvsize_eq (cfg : EnvConfig) : cfg.getenvsize = cfg.envSize := by
  unfold EnvConfig.getenvsize EnvConfig.envSize
  dsimp only
  split
  · omega
  · rfl

/-! ## Matching -/

/-- The name that `envmatch` looks for: up to an `=`. -/
def key (name : List UInt8) : List UInt8 := name.takeWhile (· ≠ ch '=')

theorem key_of_notMem {name : List UInt8} (h : ch '=' ∉ name) :
    key name = name := by
  rw [key, List.takeWhile_eq_self_iff]
  intro c hc
  have hne : c ≠ ch '=' := fun heq => h (heq ▸ hc)
  simpa using hne

theorem envmatch_eq {env : Memory UInt8} {n value name : List UInt8}
    (hn : ch '=' ∉ n) {i : ℕ} (h : env.Holds i (n ++ ch '=' :: value)) :
    envmatch env name i =
      if key name = n then some (i + n.length + 1) else none := by
  induction n generalizing name i with
  | nil =>
      have heq : env i = ch '=' := (Memory.holds_cons.mp h).1
      cases name with
      | nil => rw [envmatch, if_pos heq]; rfl
      | cons c name =>
          rw [envmatch, heq, key]
          by_cases hc : c = ch '='
          · rw [if_pos hc, if_pos hc, List.takeWhile_cons_of_neg (by simp [hc])]
            rfl
          · rw [if_neg hc, List.takeWhile_cons_of_pos (by simp [hc])]
            rfl
  | cons a n ih =>
      obtain ⟨ha, htail⟩ := Memory.holds_cons.mp h
      have hane : a ≠ ch '=' := by
        rintro rfl
        exact hn List.mem_cons_self
      cases name with
      | nil =>
          rw [envmatch, ha, if_neg hane]
          rfl
      | cons c name =>
          rw [envmatch, ha]
          by_cases hc : c = a
          · subst hc
            rw [if_pos rfl, if_neg hane,
              ih (fun h => hn (List.mem_cons_of_mem c h)) htail, key, key,
              List.takeWhile_cons_of_pos (by simp [hane]), List.length_cons]
            simp only [List.cons.injEq, true_and]
            congr 2
            omega
          · rw [if_neg hc, if_neg]
            intro heq
            by_cases hceq : c = ch '='
            · rw [key, List.takeWhile_cons_of_neg (by simp [hceq])] at heq
              cases heq
            · rw [key, List.takeWhile_cons_of_pos (by simp [hceq])] at heq
              exact hc (List.cons.inj heq).1

theorem Var.envmatch_eq {env : Memory UInt8} (v : Var) {name : List UInt8}
    {i : ℕ} {rest : List UInt8} (h : env.Holds i (v.bytes ++ rest)) :
    envmatch env name i =
      if key name = v.name then some (i + v.name.length + 1) else none := by
  rw [Var.bytes, List.append_assoc, List.cons_append] at h
  exact Env.envmatch_eq v.name_eq h

/-! ## Looking up -/

/-- The first of the strings, as the loops see it. -/
theorem holds_first {env : Memory UInt8} {bound : ℕ} {v : Var}
    {vs : List Var} {i : ℕ} (h : env.Holds i (strings (v :: vs) ++ [0]))
    (hbound : i + (strings (v :: vs)).length ≤ bound) :
    env i ≠ 0 ∧
      env.stringEnd 0 (bound - i) i = some (i + v.bytes.length) ∧
        env.Holds i (v.bytes ++ [0]) ∧
          env.Holds (i + v.bytes.length + 1) (strings vs ++ [0]) ∧
            i + v.bytes.length + 1 + (strings vs).length ≤ bound := by
  rw [strings_cons, List.append_assoc, List.cons_append] at h
  rw [strings_cons, List.length_append, List.length_cons] at hbound
  obtain ⟨hne, hz⟩ := v.proper
  have hsplit : v.bytes ++ 0 :: (strings vs ++ [0]) =
      (v.bytes ++ [0]) ++ (strings vs ++ [0]) := by simp
  obtain ⟨hv, hrest⟩ := Memory.holds_append.mp (hsplit ▸ h)
  rw [List.length_append, List.length_singleton, ← Nat.add_assoc] at hrest
  refine ⟨?_, Memory.stringEnd_eq hz hv (by omega), hv, hrest, by omega⟩
  cases hbytes : v.bytes with
  | nil => exact absurd hbytes hne
  | cons a s =>
      rw [hbytes] at h hz
      rw [(Memory.holds_cons.mp h).1]
      rintro rfl
      exact hz List.mem_cons_self

/-- The value of the first variable of a name. -/
def lookup (name : List UInt8) (vs : List Var) : Option (List UInt8) :=
  (vs.find? fun v => v.name = name).map Var.value

/-- The loop of `getenv` finds the value of the first variable of the name. -/
theorem getenvLoop_eq {env : Memory UInt8} {bound : ℕ} {name : List UInt8}
    {vs : List Var} {n i : ℕ} (h : env.Holds i (strings vs ++ [0]))
    (hbound : i + (strings vs).length ≤ bound) (hn : vs.length < n) :
    (∃ p v, getenvLoop env bound name n i = some p ∧
        lookup (key name) vs = some v ∧ (0 : UInt8) ∉ v ∧
        env.Holds p (v ++ [0]) ∧ p + v.length < bound) ∨
      getenvLoop env bound name n i = none ∧ lookup (key name) vs = none := by
  induction vs generalizing n i with
  | nil =>
      have hend : env i = 0 := Memory.holds_singleton.mp h
      cases n with
      | zero => exact absurd hn (Nat.not_lt_zero _)
      | succ n =>
          right
          rw [getenvLoop, if_pos hend]
          exact ⟨rfl, rfl⟩
  | cons v vs ih =>
      cases n with
      | zero => exact absurd hn (Nat.not_lt_zero _)
      | succ n =>
          obtain ⟨hfirst, hend, hv, hrest, hrestBound⟩ := holds_first h hbound
          rw [getenvLoop, if_neg hfirst, hend]
          dsimp only
          rw [v.envmatch_eq hv]
          by_cases hkey : key name = v.name
          · left
            rw [if_pos hkey]
            refine ⟨i + v.name.length + 1, v.value, rfl, ?_, v.value_zero, ?_,
              ?_⟩
            · simp [lookup, hkey]
            · have hbytes : v.bytes ++ [0] =
                  (v.name ++ [ch '=']) ++ (v.value ++ [0]) := by
                simp [Var.bytes]
              rw [hbytes] at hv
              have hvalue := (Memory.holds_append.mp hv).2
              rw [List.length_append, List.length_singleton,
                ← Nat.add_assoc] at hvalue
              exact hvalue
            · have hlen : v.bytes.length =
                  v.name.length + (v.value.length + 1) := by
                simp [Var.bytes]
              omega
          · rw [if_neg hkey]
            dsimp only
            rw [List.length_cons] at hn
            have hlookup : lookup (key name) (v :: vs) =
                lookup (key name) vs := by
              unfold lookup
              rw [List.find?_cons_of_neg]
              simpa using fun heq => hkey heq.symm
            rw [hlookup]
            exact ih hrest hrestBound (by omega)

/-- The string that `getenv` points to. -/
def pointsTo (cfg : EnvConfig) (env : Memory UInt8) (val : Option ℕ) :
    Option (List UInt8) :=
  val.map fun p => cstr (env.read p cfg.cfgEnvSize)

theorem cstr_read {env : Memory UInt8} {p size : ℕ} {s : List UInt8}
    (hz : (0 : UInt8) ∉ s) (h : env.Holds p (s ++ [0]))
    (hsize : s.length < size) : cstr (env.read p size) = s := by
  have htake : (env.read p size).take (s.length + 1) = s ++ [0] := by
    rw [← h.read_eq, List.length_append, List.length_singleton]
    unfold Memory.read
    rw [← List.map_take, List.take_range, Nat.min_eq_left hsize]
  rw [← List.take_append_drop (s.length + 1) (env.read p size), htake,
    List.append_assoc, cstr, List.takeWhile_append_of_pos]
  · simp
  · intro c hc
    simp only [ne_eq, decide_eq_true_eq]
    rintro rfl
    exact hz hc

/-- Both functions that look up a variable find the value of the first variable
of the name. -/
theorem WellFormed.pointsTo_getenv {cfg : EnvConfig} {env : Memory UInt8}
    {vs : List Var} (h : WellFormed cfg env vs) (name : CStr) :
    pointsTo cfg env (getenv cfg env name) = lookup (key name.1) vs ∧
      pointsTo cfg env (fwGetenv cfg env name) = lookup (key name.1) vs := by
  have hfits := h.fits
  have hsize : cfg.envSize ≤ cfg.cfgEnvSize := Nat.sub_le _ _
  have hcount := length_le_strings vs
  have hlen : (strings vs).length + 1 ≤ areaLength vs := Nat.le_max_right _ _
  have hloop : ∀ bound, (strings vs).length ≤ bound → bound ≤ cfg.cfgEnvSize →
      pointsTo cfg env (getenvLoop env bound name.1 (bound + 2) 0) =
        lookup (key name.1) vs := by
    intro bound hbound hle
    rcases @getenvLoop_eq env bound name.1 vs (bound + 2) 0 h.holds (by omega)
      (by omega) with ⟨p, v, hloop, hlookup, hz, hv, hlt⟩ | ⟨hloop, hlookup⟩
    · rw [hloop, hlookup, pointsTo, Option.map_some,
        cstr_read hz hv (by omega)]
    · rw [hloop, hlookup]
      rfl
  refine ⟨hloop cfg.cfgEnvSize (by omega) le_rfl, ?_⟩
  rw [fwGetenv, getenvsize_eq]
  exact hloop cfg.envSize (by omega) hsize

/-! ## Searching -/

/-- The search passes variables of other names. -/
theorem searchLoop_skip {env : Memory UInt8} {bound : ℕ} {name : List UInt8}
    {pre post : List Var} (hpre : ∀ v ∈ pre, key name ≠ v.name) {n i : ℕ}
    (h : env.Holds i (strings (pre ++ post) ++ [0]))
    (hbound : i + (strings (pre ++ post)).length ≤ bound) :
    searchLoop env bound name (n + pre.length) i =
      searchLoop env bound name n (i + (strings pre).length) := by
  induction pre generalizing i with
  | nil => rfl
  | cons v pre ih =>
      rw [List.cons_append] at h hbound
      obtain ⟨hfirst, hend, hv, hrest, hrestBound⟩ := holds_first h hbound
      have hmatch : ¬ (envmatch env name i).isSome = true := by
        rw [v.envmatch_eq hv, if_neg (hpre v List.mem_cons_self)]
        simp
      rw [List.length_cons, ← Nat.add_assoc, searchLoop, if_neg hfirst, hend]
      dsimp only
      rw [if_neg hmatch, ih (fun u hu => hpre u (List.mem_cons_of_mem v hu))
        hrest hrestBound, strings_cons, List.length_append, List.length_cons]
      congr 1
      omega

theorem holds_behind {env : Memory UInt8} {pre post : List Var} {i : ℕ}
    (h : env.Holds i (strings (pre ++ post) ++ [0])) :
    env.Holds (i + (strings pre).length) (strings post ++ [0]) := by
  rw [strings_append, List.append_assoc] at h
  exact (Memory.holds_append.mp h).2

/-- No variable has the name. -/
theorem searchLoop_none {env : Memory UInt8} {bound : ℕ} {name : List UInt8}
    {vs : List Var} (hname : ∀ v ∈ vs, key name ≠ v.name)
    (h : env.Holds 0 (strings vs ++ [0])) (hbound : (strings vs).length ≤ bound) :
    searchLoop env bound name (bound + 2) 0 = some none := by
  have hcount := length_le_strings vs
  obtain ⟨n, hn⟩ : ∃ n, bound + 2 = n + 1 + vs.length :=
    ⟨bound + 1 - vs.length, by omega⟩
  have hvs : vs ++ [] = vs := List.append_nil vs
  have hend := holds_behind (hvs.symm ▸ h)
  rw [hn, searchLoop_skip hname (hvs.symm ▸ h) (by rw [hvs]; omega), searchLoop,
    if_pos (Memory.holds_singleton.mp hend)]

/-- The first variable of the name. -/
theorem searchLoop_some {env : Memory UInt8} {bound : ℕ} {name : List UInt8}
    {pre post : List Var} {v : Var} (hpre : ∀ u ∈ pre, key name ≠ u.name)
    (hv : key name = v.name) (h : env.Holds 0 (strings (pre ++ v :: post) ++ [0]))
    (hbound : (strings (pre ++ v :: post)).length ≤ bound) :
    searchLoop env bound name (bound + 2) 0 =
      some (some ((strings pre).length,
        (strings pre).length + v.bytes.length)) := by
  have hcount := length_le_strings (pre ++ v :: post)
  have hrest := holds_behind h
  rw [strings_append, List.length_append] at hbound hcount
  rw [List.length_append, List.length_cons] at hcount
  obtain ⟨n, hn⟩ : ∃ n, bound + 2 = n + 1 + pre.length :=
    ⟨bound + 1 - pre.length, by omega⟩
  rw [Nat.zero_add] at hrest
  obtain ⟨hfirst, hend, hbytes, -⟩ := holds_first hrest hbound
  have hmatch : (envmatch env name (strings pre).length).isSome = true := by
    rw [v.envmatch_eq hbytes, if_pos hv]
    rfl
  rw [hn, searchLoop_skip hpre h (by
    rw [strings_append, List.length_append]
    omega), Nat.zero_add, searchLoop, if_neg hfirst, hend]
  dsimp only
  rw [if_pos hmatch]

/-! ## Deleting -/

section Delete

variable {env : Memory UInt8} {pre post : List Var} {v : Var} {size : ℕ}

/-- The rest of the variables has been moved down to `|strings pre|`. -/
theorem area_of_shift {env' : Memory UInt8} (hpost : post ≠ [])
    (h : Area env (pre ++ v :: post))
    (hmoved : env'.Holds (strings pre).length (strings post))
    (hbelow : ∀ j < (strings pre).length, env' j = env j) :
    Area (env'.copyIn ((strings pre).length + (strings post).length) [0])
      (pre ++ post) := by
  have hpre : env.Holds 0 (strings pre) := by
    have hholds := h.holds
    rw [strings_append, List.append_assoc] at hholds
    exact (Memory.holds_append.mp hholds).1
  have hpre' : env'.Holds 0 (strings pre) :=
    hpre.congr fun j _ hj => hbelow j (by omega)
  refine ⟨?_, ?_⟩
  · rw [strings_append]
    have hboth : env'.Holds 0 (strings pre ++ strings post) :=
      hpre'.append (by rwa [Nat.zero_add])
    have hend := hboth.append_copyIn [0]
    rwa [Nat.zero_add, List.length_append] at hend
  · intro hnil
    exact absurd (List.append_eq_nil_iff.mp hnil).2 hpost

/-- The cell behind the string of a variable. -/
theorem holds_post (h : Area env (pre ++ v :: post)) :
    env.Holds ((strings pre).length + v.bytes.length + 1)
      (strings post ++ [0]) := by
  have hrest := holds_behind h.holds
  rw [Nat.zero_add] at hrest
  exact (holds_first hrest (le_refl _)).2.2.2.1

/-- When there is a variable behind, the first byte of it is no terminator. -/
theorem holds_post_ne (h : Area env (pre ++ v :: post)) (hpost : post ≠ []) :
    env ((strings pre).length + v.bytes.length + 1) ≠ 0 := by
  have hholds := holds_post h
  cases post with
  | nil => exact absurd rfl hpost
  | cons u post => exact (holds_first hholds (le_refl _)).1

end Delete

end TateFirmware.Env
