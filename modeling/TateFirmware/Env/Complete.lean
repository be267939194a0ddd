import TateFirmware.Env.SetenvSpec

/-!
# Completing the name of a variable

`env_complete` of `common/env_common.c` lists the variables whose names start with a
given string, as long as there are slots for them and room for their names.  When
one of these runs out, the last entry is a string of three dots.
-/

namespace TateFirmware.Env

open LibGeneric Support

/-- An entry of `cmdv`: `NULL`, the string `"..."`, or a string in the buffer. -/
inductive CmdvEntry where
  | null
  | dots
  | string (p : ℕ)
deriving DecidableEq, Repr

/-- The loop of `env_complete` over `n` more strings, with `bufsz` bytes left of the
buffer, which are free from `p` on: the number of entries, the buffer and the
entries. -/
def envCompleteLoop (env : Memory UInt8) (bound : ℕ) (var : List UInt8)
    (maxv : ℕ) : ℕ → ℕ → ℕ → ℕ → ℕ → TrackedMemory UInt8 →
      TrackedMemory CmdvEntry →
        Option (ℕ × TrackedMemory UInt8 × TrackedMemory CmdvEntry)
  | 0, _, _, _, _, _, _ => none
  | n + 1, i, found, bufsz, p, buf, cmdv =>
      if env i = 0 then some (found, buf, cmdv)
      else
        match env.stringEnd 0 (bound - i) i with
        | none => none
        | some nxt =>
            let lval := env.read i (nxt - i)
            let vallen := (lval.takeWhile (· ≠ ch '=')).length
            if 0 < var.length ∧
                (vallen < var.length ∨ lval.take var.length ≠ var) then
              envCompleteLoop env bound var maxv n (nxt + 1) found bufsz p buf
                cmdv
            else if maxv ≤ found + 2 ∨ bufsz < vallen + 1 then
              some (found + 1, buf, cmdv.store found .dots)
            else
              envCompleteLoop env bound var maxv n (nxt + 1) (found + 1)
                (bufsz - (vallen + 1)) (p + vallen + 1)
                (buf.copyIn p (lval.take vallen ++ [0]))
                (cmdv.store found (.string p))

/-- `env_complete`: the number of entries, the buffer and the entries. -/
def envComplete (cfg : EnvConfig) (env : Memory UInt8) (var : CStr) (maxv : ℕ)
    (cmdv : TrackedMemory CmdvEntry) (bufsz : ℕ) (buf : TrackedMemory UInt8) :
    Option (ℕ × TrackedMemory UInt8 × TrackedMemory CmdvEntry) :=
  match envCompleteLoop env cfg.envSize var.1 maxv (cfg.envSize + 2) 0 0 bufsz 0
    buf (cmdv.store 0 .null) with
  | none => none
  | some (found, buf, cmdv) => some (found, buf, cmdv.store found .null)

/-! ## The names that match -/

/-- The names that start with a string, in the order of the environment. -/
def matching (var : List UInt8) (vs : List Var) : List (List UInt8) :=
  (vs.map Var.name).filter fun name => var.isPrefixOf name

/-- The room that names take up in the buffer. -/
def room (names : List (List UInt8)) : ℕ :=
  (names.map fun name => name.length + 1).sum

section Names

variable {var : List UInt8} {v : Var} {vs : List Var}

theorem matching_cons_of_pos (h : var <+: v.name) :
    matching var (v :: vs) = v.name :: matching var vs :=
  List.filter_cons_of_pos (List.isPrefixOf_iff_prefix.mpr h)

theorem matching_cons_of_neg (h : ¬ var <+: v.name) :
    matching var (v :: vs) = matching var vs :=
  List.filter_cons_of_neg fun hp => h (List.isPrefixOf_iff_prefix.mp hp)

theorem Var.takeWhile_bytes (v : Var) :
    v.bytes.takeWhile (· ≠ ch '=') = v.name := by
  rw [Var.bytes, List.takeWhile_append_of_pos]
  · rw [List.takeWhile_cons_of_neg (by simp), List.append_nil]
  · intro c hc
    have hne : c ≠ ch '=' := fun heq => v.name_eq (heq ▸ hc)
    simpa using hne

theorem Var.take_bytes (v : Var) : v.bytes.take v.name.length = v.name :=
  List.take_left

/-- The test of the loop. -/
theorem passedOver_iff (v : Var) :
    (0 < var.length ∧ (v.name.length < var.length ∨
        v.bytes.take var.length ≠ var)) ↔ ¬ var <+: v.name := by
  have hstarts : var.length ≤ v.name.length →
      (v.bytes.take var.length = var ↔ var <+: v.name) := by
    intro hle
    rw [Var.bytes, List.take_append_of_le_length hle, List.prefix_iff_eq_take]
    exact eq_comm
  constructor
  · rintro ⟨hpos, hshort | hdiff⟩ hp
    · exact absurd hp.length_le (not_le.mpr hshort)
    · exact hdiff ((hstarts hp.length_le).mpr hp)
  · intro hp
    refine ⟨?_, ?_⟩
    · rw [List.length_pos_iff]
      rintro rfl
      exact hp List.nil_prefix
    · rw [← not_le, ← not_and_or]
      exact fun h => hp ((hstarts h.1).mp h.2)

end Names

/-! ## What is listed -/

/-- The first `k` of the names stand in the buffer from `p` on, one behind the other,
with their entries from `found` on. -/
def Stored (names : List (List UInt8)) (found p : ℕ) (buf : Memory UInt8)
    (cmdv : Memory CmdvEntry) : Prop :=
  ∀ j (h : j < names.length),
    cmdv (found + j) = .string (p + room (names.take j)) ∧
      buf.Holds (p + room (names.take j)) (names[j] ++ [0])

/-- What the loop lists of the names: some of them from the front on, and three dots
if these are not all. -/
structure Lists (names : List (List UInt8)) (maxv found bufsz p : ℕ)
    (buf : TrackedMemory UInt8) (cmdv : TrackedMemory CmdvEntry)
    (found' : ℕ) (buf' : TrackedMemory UInt8)
    (cmdv' : TrackedMemory CmdvEntry) : Prop where
  bufHigh : buf'.high ≤ p + bufsz
  cmdvHigh : cmdv'.high ≤ maxv - 1
  bufBelow : ∀ j < p, buf'.cell j = buf.cell j
  cmdvBelow : ∀ j < found, cmdv'.cell j = cmdv.cell j
  listed : ∃ k, Stored (names.take k) found p buf'.cell cmdv'.cell ∧
    (found' = found + k ∧ k = names.length ∧ found' + 2 ≤ maxv ∨
      k < names.length ∧ found' = found + k + 1 ∧ found' + 1 ≤ maxv ∧
        cmdv'.cell (found + k) = .dots ∧
        (maxv < found + names.length + 2 ∨ bufsz < room names))

theorem room_cons (name : List UInt8) (names : List (List UInt8)) :
    room (name :: names) = name.length + 1 + room names := by
  rw [room, List.map_cons, List.sum_cons]
  rfl

/-- One name more in front. -/
theorem Stored.cons {name : List UInt8} {names : List (List UInt8)}
    {found p : ℕ} {buf : Memory UInt8} {cmdv : Memory CmdvEntry}
    (hentry : cmdv found = .string p) (hname : buf.Holds p (name ++ [0]))
    (h : Stored names (found + 1) (p + name.length + 1) buf cmdv) :
    Stored (name :: names) found p buf cmdv := by
  intro j hj
  cases j with
  | zero => exact ⟨hentry, hname⟩
  | succ j =>
      obtain ⟨hcmdv, hbuf⟩ := h j (Nat.lt_of_succ_lt_succ hj)
      have hindex : p + room ((name :: names).take (j + 1)) =
          p + name.length + 1 + room (names.take j) := by
        rw [List.take_succ_cons, room_cons]
        omega
      rw [hindex, List.getElem_cons_succ]
      exact ⟨by rw [← hcmdv]; congr 1; omega, hbuf⟩

section Loop

variable {env : Memory UInt8} {bound maxv : ℕ} {var : List UInt8}
  {vs : List Var} {n i found bufsz p : ℕ} {buf : TrackedMemory UInt8}
  {cmdv : TrackedMemory CmdvEntry}

/-- The loop lists the names that match. -/
theorem envCompleteLoop_lists (h : env.Holds i (strings vs ++ [0]))
    (hbound : i + (strings vs).length ≤ bound) (hn : vs.length < n)
    (hmaxv : found + 2 ≤ maxv) (hbuf : buf.high ≤ p)
    (hcmdv : cmdv.high ≤ max found 1) :
    ∃ found' buf' cmdv',
      envCompleteLoop env bound var maxv n i found bufsz p buf cmdv =
          some (found', buf', cmdv') ∧
        Lists (matching var vs) maxv found bufsz p buf cmdv found' buf'
          cmdv' := by
  induction vs generalizing n i found bufsz p buf cmdv with
  | nil =>
      have hend : env i = 0 := Memory.holds_singleton.mp h
      obtain ⟨n, rfl⟩ := Nat.exists_eq_succ_of_ne_zero hn.ne'
      rw [envCompleteLoop, if_pos hend]
      refine ⟨found, buf, cmdv, rfl, by omega, by omega, fun _ _ => rfl,
        fun _ _ => rfl, 0, ?_, Or.inl ⟨rfl, rfl, hmaxv⟩⟩
      intro j hj
      exact absurd hj (Nat.not_lt_zero j)
  | cons v vs ih =>
      rw [List.length_cons] at hn
      obtain ⟨n, rfl⟩ := Nat.exists_eq_succ_of_ne_zero (Nat.ne_zero_of_lt hn)
      obtain ⟨hfirst, hend, hv, hrest, hrestBound⟩ := holds_first h hbound
      have hread : env.read i (i + v.bytes.length - i) = v.bytes := by
        rw [Nat.add_sub_cancel_left]
        exact (Memory.holds_append.mp hv).1.read_eq
      rw [envCompleteLoop, if_neg hfirst, hend]
      dsimp only
      rw [hread, v.takeWhile_bytes]
      by_cases hp : var <+: v.name
      · rw [if_neg (not_not.mpr hp ∘ (passedOver_iff v).mp),
          matching_cons_of_pos hp]
        by_cases hlimit : maxv ≤ found + 2 ∨ bufsz < v.name.length + 1
        · rw [if_pos hlimit]
          refine ⟨_, _, _, rfl, by omega, ?_, fun _ _ => rfl,
            fun j hj => Memory.store_of_ne _ hj.ne, 0, ?_,
            Or.inr ⟨Nat.succ_pos _, rfl, by omega, Memory.store_same .., ?_⟩⟩
          · simp only [TrackedMemory.store]
            omega
          · intro j hj
            exact absurd hj (Nat.not_lt_zero j)
          · rw [room_cons, List.length_cons]
            omega
        · rw [if_neg hlimit, v.take_bytes]
          have hcopied : (buf.copyIn p (v.name ++ [0])).high ≤
              p + v.name.length + 1 :=
            TrackedMemory.copyIn_high_le (by omega) (by simp; omega)
          have hstored : (cmdv.store found (.string p)).high ≤
              max (found + 1) 1 := by
            simp only [TrackedMemory.store]
            omega
          obtain ⟨found', buf', cmdv', hloop, hlists⟩ :=
            @ih n (i + v.bytes.length + 1) (found + 1)
              (bufsz - (v.name.length + 1)) (p + v.name.length + 1) _ _ hrest
              hrestBound (by omega) (by omega) hcopied hstored
          refine ⟨found', buf', cmdv', hloop, ?_, hlists.cmdvHigh, ?_, ?_, ?_⟩
          · have hhigh := hlists.bufHigh
            omega
          · intro j hj
            rw [hlists.bufBelow j (by omega)]
            exact Memory.copyIn_of_lt _ hj
          · intro j hj
            rw [hlists.cmdvBelow j (by omega)]
            exact Memory.store_of_ne _ hj.ne
          · obtain ⟨k, hk, hall⟩ := hlists.listed
            refine ⟨k + 1, ?_, ?_⟩
            · rw [List.take_succ_cons]
              refine Stored.cons ?_ ?_ hk
              · rw [hlists.cmdvBelow found (Nat.lt_succ_self _)]
                exact Memory.store_same ..
              · refine (Memory.holds_copyIn buf.cell p
                  (v.name ++ [0])).congr fun j _ hj => ?_
                rw [List.length_append, List.length_singleton] at hj
                exact hlists.bufBelow j (by omega)
            · rw [List.length_cons, room_cons]
              rcases hall with ⟨hfound, hlen, hslots⟩ |
                ⟨hlt, hfound, hslots, hdots, hreason⟩
              · exact Or.inl ⟨by omega, by omega, hslots⟩
              · refine Or.inr ⟨by omega, by omega, hslots, ?_, by omega⟩
                rw [← hdots]
                congr 1
                omega
      · rw [if_pos ((passedOver_iff v).mpr hp), matching_cons_of_neg hp]
        exact ih hrest hrestBound (by omega) hmaxv hbuf hcmdv

end Loop

/-! ## The contract -/

/-- The entry is the name of a variable that starts with the string. -/
def NamesVariable (var : List UInt8) (vs : List Var) (buf : Memory UInt8) :
    CmdvEntry → Prop
  | .string p => ∃ name ∈ matching var vs, buf.Holds p (name ++ [0])
  | _ => False

/-- The limits are kept, all entries are names, and these are all names that match
if there are slots and room for them. -/
def ListsNames (cfg : EnvConfig) (env : Memory UInt8) (vs : List Var)
    (var : CStr) (maxv : ℕ) (cmdv : Memory CmdvEntry) (bufsz : ℕ)
    (buf : Memory UInt8) : Prop :=
  ∃ found buf' cmdv',
    envComplete cfg env var maxv ⟨cmdv, 0⟩ bufsz ⟨buf, 0⟩ =
        some (found, buf', cmdv') ∧
      buf'.high ≤ bufsz ∧ cmdv'.high ≤ maxv ∧ cmdv'.cell found = .null ∧
      (∀ j < found, NamesVariable var.1 vs buf'.cell (cmdv'.cell j)) ∧
      ((matching var.1 vs).length + 2 ≤ maxv → room (matching var.1 vs) ≤ bufsz →
        found = (matching var.1 vs).length ∧
          Stored (matching var.1 vs) 0 0 buf'.cell cmdv'.cell)

/-- The same with three dots as the last entry when a limit has been reached. -/
def ListsNamesOrDots (cfg : EnvConfig) (env : Memory UInt8) (vs : List Var)
    (var : CStr) (maxv : ℕ) (cmdv : Memory CmdvEntry) (bufsz : ℕ)
    (buf : Memory UInt8) : Prop :=
  ∃ found buf' cmdv',
    envComplete cfg env var maxv ⟨cmdv, 0⟩ bufsz ⟨buf, 0⟩ =
        some (found, buf', cmdv') ∧
      buf'.high ≤ bufsz ∧ cmdv'.high ≤ maxv ∧ cmdv'.cell found = .null ∧
      (∀ j < found, NamesVariable var.1 vs buf'.cell (cmdv'.cell j) ∨
        j + 1 = found ∧ cmdv'.cell j = .dots ∧
          (maxv < (matching var.1 vs).length + 2 ∨
            bufsz < room (matching var.1 vs))) ∧
      ((matching var.1 vs).length + 2 ≤ maxv → room (matching var.1 vs) ≤ bufsz →
        found = (matching var.1 vs).length ∧
          Stored (matching var.1 vs) 0 0 buf'.cell cmdv'.cell)

theorem Stored.namesVariable {var : List UInt8} {vs : List Var} {k j : ℕ}
    {buf : Memory UInt8} {cmdv : Memory CmdvEntry}
    (h : Stored ((matching var vs).take k) 0 0 buf cmdv)
    (hj : j < ((matching var vs).take k).length) :
    NamesVariable var vs buf (cmdv j) := by
  obtain ⟨hentry, hname⟩ := h j hj
  rw [Nat.zero_add] at hentry
  rw [hentry]
  exact ⟨_, List.mem_of_mem_take (List.getElem_mem hj), hname⟩

/-- The entry that closes the list leaves the others alone. -/
theorem Stored.store_null {names : List (List UInt8)} {buf : Memory UInt8}
    {cmdv : Memory CmdvEntry} {found : ℕ} (hle : names.length ≤ found)
    (h : Stored names 0 0 buf cmdv) :
    Stored names 0 0 buf (cmdv.store found .null) := by
  intro j hj
  obtain ⟨hentry, hname⟩ := h j hj
  refine ⟨?_, hname⟩
  rw [← hentry]
  exact Memory.store_of_ne _ (by omega)

/-- What `env_complete` lists. -/
theorem envComplete_lists (cfg : EnvConfig) (env : Memory UInt8) (vs : List Var)
    (h : WellFormed cfg env vs) (var : CStr) (maxv : ℕ) (hmaxv : 2 ≤ maxv)
    (cmdv : Memory CmdvEntry) (bufsz : ℕ) (buf : Memory UInt8) :
    ListsNamesOrDots cfg env vs var maxv cmdv bufsz buf := by
  have hfits := h.fits
  have hcount := length_le_strings vs
  have hlen : (strings vs).length + 1 ≤ areaLength vs := Nat.le_max_right _ _
  obtain ⟨found, buf', cmdv', hloop, hlists⟩ := @envCompleteLoop_lists env
    cfg.envSize maxv var.1 vs (cfg.envSize + 2) 0 0 bufsz 0 ⟨buf, 0⟩
    (TrackedMemory.store ⟨cmdv, 0⟩ 0 .null) h.holds (by omega) (by omega) hmaxv
    (Nat.le_refl 0) (by simp [TrackedMemory.store])
  obtain ⟨k, hstored, hall⟩ := hlists.listed
  have hbuf := hlists.bufHigh
  have hcmdv := hlists.cmdvHigh
  rw [Nat.zero_add] at hbuf
  simp only [Nat.zero_add] at hall
  have hle : ((matching var.1 vs).take k).length ≤ found := by
    rw [List.length_take]
    omega
  have hothers : ∀ {j}, j < found →
      (cmdv'.store found .null).cell j = cmdv'.cell j :=
    fun hj => Memory.store_of_ne _ hj.ne
  refine ⟨found, buf', cmdv'.store found .null, ?_, hbuf, ?_,
    Memory.store_same .., ?_, ?_⟩
  · rw [envComplete, hloop]
  · refine TrackedMemory.store_high_le _ (by omega) ?_
    omega
  · intro j hj
    rw [hothers hj]
    rcases hall with ⟨hfound, hk, -⟩ | ⟨hlt, hfound, -, hdots, hreason⟩
    · exact Or.inl (hstored.namesVariable (by rw [List.length_take]; omega))
    · by_cases hlast : j = k
      · exact Or.inr ⟨by omega, hlast ▸ hdots, hreason⟩
      · exact Or.inl (hstored.namesVariable (by rw [List.length_take]; omega))
  · intro hslots hroom
    rcases hall with ⟨hfound, hk, -⟩ | ⟨-, -, -, -, hreason⟩
    · rw [hk, List.take_length] at hstored hle
      exact ⟨hfound.trans hk, hstored.store_null hle⟩
    · omega

/-- A variable with the value of `a=1`. -/
def varNamed (name : List UInt8) (hzero : 0 ∉ name) (heq : ch '=' ∉ name) : Var :=
  { oneVar with name := name, name_zero := hzero, name_eq := heq }

/-- Two names that start with `boot`, between two that do not. -/
def bootVars : List Var :=
  [varNamed (text "baud") (by decide) (by decide),
    varNamed (text "bootcmd") (by decide) (by decide),
    varNamed (text "bootargs") (by decide) (by decide),
    varNamed (text "ipaddr") (by decide) (by decide)]

/-- The second name does not fit. -/
theorem envComplete_lists_bootVars : ListsNamesOrDots ⟨128, false⟩
    (Memory.ofList 0 (strings bootVars ++ [0])) bootVars ⟨text "boot", by decide⟩ 4
    (fun _ => .null) 10 (fun _ => 0) :=
  envComplete_lists _ _ _ ⟨⟨Memory.holds_ofList 0 _, by decide⟩, by decide⟩ _ 4
    (by decide) _ _ _

/-- With two slots there is only one entry, the three dots. -/
theorem not_listsNames : ¬ ListsNames ⟨128, false⟩
    (Memory.ofList 0 (strings [oneVar] ++ [0])) [oneVar] ⟨text "a", by decide⟩ 2
    (fun _ => .null) 8 (fun _ => 0) := by
  rintro ⟨found, buf', cmdv', hreturns, -, -, -, hnames, -⟩
  obtain ⟨found'', buf'', cmdv'', hreturns', hdots⟩ :
      ∃ found buf cmdv, envComplete ⟨128, false⟩
          (Memory.ofList 0 (strings [oneVar] ++ [0])) ⟨text "a", by decide⟩ 2
          ⟨fun _ => .null, 0⟩ 8 ⟨fun _ => 0, 0⟩ = some (found, buf, cmdv) ∧
        0 < found ∧ cmdv.cell 0 = .dots :=
    ⟨_, _, _, rfl, by decide, rfl⟩
  rw [hreturns'] at hreturns
  obtain ⟨rfl, rfl, rfl⟩ := by simpa using hreturns
  have hfirst := hnames 0 hdots.1
  rw [hdots.2] at hfirst
  exact hfirst

end TateFirmware.Env
