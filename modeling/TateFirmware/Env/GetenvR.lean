import TateFirmware.Env.SetenvSpec

/-!
# Copying a value out of the environment

`getenv_r` copies a value into the buffer of its caller.  It counts the rounds of
its loop and takes the last one for a byte without a terminator, so a value that is
too long is left without one, and a value that fits exactly is followed by a second
terminator behind the buffer.
-/

namespace TateFirmware.Env

open LibGeneric Support

/-- The loop of `getenv_r`, for `k` more bytes: the count of rounds, where `buf`
points, and the buffer. -/
def copyValue (env : Memory UInt8) : ℕ → ℕ → ℕ → TrackedMemory UInt8 →
    ℕ × ℕ × TrackedMemory UInt8
  | 0, n, _, buf => (n + 1, n, buf)
  | k + 1, n, val, buf =>
      let buf := buf.store n (env val)
      if env val = 0 then (n + 1, n + 1, buf)
      else copyValue env k (n + 1) (val + 1) buf

/-- `getenv_r`. -/
def getenvR (cfg : EnvConfig) (env : Memory UInt8) (name : CStr)
    (buf : TrackedMemory UInt8) (len : ℕ) : ℤ × TrackedMemory UInt8 :=
  match getenv cfg env name with
  | none => (-1, buf)
  | some val =>
      let (n, p, buf) := copyValue env len 0 val buf
      (n, if len = n then buf.store p 0 else buf)

/-! ## What is copied -/

section Copy

variable {env : Memory UInt8} {buf : TrackedMemory UInt8} {k n val : ℕ}
  {s : List UInt8}

/-- A value that is copied with its terminator. -/
theorem copyValue_fits (hz : (0 : UInt8) ∉ s) (h : env.Holds val (s ++ [0]))
    (hfits : s.length < k) (hhigh : buf.high ≤ n) :
    ∃ buf', copyValue env k n val buf =
        (n + s.length + 1, n + s.length + 1, buf') ∧
      buf'.high = n + s.length + 1 ∧ buf'.cell.Holds n (s ++ [0]) ∧
      ∀ j < n, buf'.cell j = buf.cell j := by
  induction s generalizing k n val buf with
  | nil =>
      have hend : env val = 0 := Memory.holds_singleton.mp h
      obtain ⟨k, rfl⟩ := Nat.exists_eq_succ_of_ne_zero hfits.ne'
      rw [copyValue, if_pos hend, hend]
      refine ⟨_, rfl, ?_, ?_, fun j hj => Memory.store_of_ne _ hj.ne⟩
      · simp only [TrackedMemory.store, List.length_nil]
        omega
      · exact Memory.holds_singleton.mpr (Memory.store_same ..)
  | cons a s ih =>
      obtain ⟨ha, hs⟩ := Memory.holds_cons.mp h
      have hne : env val ≠ 0 := by
        rw [ha]
        rintro rfl
        exact hz List.mem_cons_self
      rw [List.length_cons] at hfits
      obtain ⟨k, rfl⟩ := Nat.exists_eq_succ_of_ne_zero
        (Nat.ne_zero_of_lt hfits)
      have hhigh' : (buf.store n (env val)).high ≤ n + 1 :=
        TrackedMemory.store_high_le _ (by omega) (Nat.lt_succ_self n)
      obtain ⟨buf', hcopy, hreach, hholds, hbelow⟩ :=
        @ih (buf.store n (env val)) k (n + 1) (val + 1)
        (fun hmem => hz (List.mem_cons_of_mem a hmem)) hs (by omega) hhigh'
      have hcount : n + 1 + s.length + 1 = n + (s.length + 1) + 1 := by omega
      rw [copyValue, if_neg hne, hcopy, List.length_cons, hcount]
      refine ⟨buf', rfl, by omega, ?_, fun j hj => ?_⟩
      · refine Memory.holds_cons.mpr ⟨?_, hholds⟩
        rw [hbelow n (Nat.lt_succ_self n), TrackedMemory.store_cell,
          Memory.store_same, ha]
      · rw [hbelow j (by omega), TrackedMemory.store_cell,
          Memory.store_of_ne _ hj.ne]

/-- A value that is cut off. -/
theorem copyValue_cut (hz : (0 : UInt8) ∉ s) (h : env.Holds val (s ++ [0]))
    (hcut : k ≤ s.length) :
    ∃ buf', copyValue env k n val buf = (n + k + 1, n + k, buf') ∧
      buf'.cell.Holds n (s.take k) ∧ ∀ j < n, buf'.cell j = buf.cell j := by
  induction k generalizing s n val buf with
  | zero => exact ⟨buf, rfl, by simp, fun _ _ => rfl⟩
  | succ k ih =>
      cases s with
      | nil => exact absurd hcut (by simp)
      | cons a s =>
          obtain ⟨ha, hs⟩ := Memory.holds_cons.mp h
          have hne : env val ≠ 0 := by
            rw [ha]
            rintro rfl
            exact hz List.mem_cons_self
          obtain ⟨buf', hcopy, hholds, hbelow⟩ := @ih
            (buf.store n (env val)) (n + 1) (val + 1) s
            (fun hmem => hz (List.mem_cons_of_mem a hmem)) hs
            (Nat.le_of_succ_le_succ hcut)
          have hcount : n + 1 + k = n + (k + 1) := by omega
          rw [copyValue, if_neg hne, hcopy, List.take_succ_cons, hcount]
          refine ⟨buf', rfl, ?_, fun j hj => ?_⟩
          · refine Memory.holds_cons.mpr ⟨?_, hholds⟩
            rw [hbelow n (Nat.lt_succ_self n), TrackedMemory.store_cell,
              Memory.store_same, ha]
          · rw [hbelow j (by omega), TrackedMemory.store_cell,
              Memory.store_of_ne _ hj.ne]

end Copy

/-! ## The contract -/

/-- Only the `len` bytes of the buffer are written, a value that fits is counted with
its terminator, and a variable that exists leaves a terminated part of its value,
which starts where the value does. -/
def CopiesOut (cfg : EnvConfig) (env : Memory UInt8) (vs : List Var)
    (name : CStr) (buf : Memory UInt8) (len : ℕ) : Prop :=
  (getenvR cfg env name ⟨buf, 0⟩ len).2.high ≤ len ∧
    ∀ value, lookup (key name.1) vs = some value →
      (value.length < len →
        (getenvR cfg env name ⟨buf, 0⟩ len).1 = value.length + 1) ∧
      ∃ part, part <+: value ∧ part.length < len ∧
        (getenvR cfg env name ⟨buf, 0⟩ len).2.cell.Holds 0 (part ++ [0])

/-- The value that `getenv` finds. -/
theorem WellFormed.getenv_cases {cfg : EnvConfig} {env : Memory UInt8}
    {vs : List Var} (h : WellFormed cfg env vs) (name : CStr) :
    (∃ p value, getenv cfg env name = some p ∧
        lookup (key name.1) vs = some value ∧ (0 : UInt8) ∉ value ∧
        env.Holds p (value ++ [0])) ∨
      getenv cfg env name = none ∧ lookup (key name.1) vs = none := by
  have hfits := h.fits
  have hsize : cfg.envSize ≤ cfg.cfgEnvSize := Nat.sub_le _ _
  have hcount := length_le_strings vs
  have hlen : (strings vs).length + 1 ≤ areaLength vs := Nat.le_max_right _ _
  rcases @getenvLoop_eq env cfg.cfgEnvSize name.1 vs (cfg.cfgEnvSize + 2) 0
    h.holds (by omega) (by omega) with ⟨p, value, hloop, hlookup, hz, hv, -⟩ |
      hnone
  · exact Or.inl ⟨p, value, hloop, hlookup, hz, hv⟩
  · exact Or.inr hnone

/-- A terminated part of a value in a buffer that holds the start of the value. -/
theorem not_holds_part {m : Memory UInt8} {value part : List UInt8} {len : ℕ}
    (hz : (0 : UInt8) ∉ value) (hcut : len ≤ value.length)
    (hm : m.Holds 0 (value.take len)) (hlen : part.length < len) :
    ¬ m.Holds 0 (part ++ [0]) := by
  intro hpart
  have hend := hpart part.length (by simp)
  have hvalue := hm part.length (by rw [List.length_take]; omega)
  rw [List.getElem_concat_length rfl] at hend
  rw [List.getElem_take, hend] at hvalue
  exact hz (hvalue ▸ List.getElem_mem _)

/-- `getenv_r` works exactly if the variable does not exist or there is room for two
terminators. -/
theorem copiesOut_iff (cfg : EnvConfig) (env : Memory UInt8) (vs : List Var)
    (h : WellFormed cfg env vs) (name : CStr) (buf : Memory UInt8) (len : ℕ) :
    CopiesOut cfg env vs name buf len ↔
      ∀ value, lookup (key name.1) vs = some value →
        value.length + 2 ≤ len := by
  unfold CopiesOut getenvR
  rcases h.getenv_cases name with
    ⟨p, value, hget, hlookup, hz, hholds⟩ | ⟨hget, hlookup⟩
  · simp only [hget, hlookup, Option.some.injEq, forall_eq']
    rcases Nat.lt_or_ge value.length len with hfits | hcut
    · obtain ⟨buf', hcopy, hhigh, hcell, -⟩ :=
        @copyValue_fits env ⟨buf, 0⟩ len 0 p value hz hholds hfits le_rfl
      rw [Nat.zero_add] at hcopy hhigh
      rw [hcopy]
      dsimp only
      by_cases hexact : len = value.length + 1
      · refine iff_of_false (fun hworks => ?_) (by omega)
        have hreach := hworks.1
        rw [if_pos hexact] at hreach
        simp only [TrackedMemory.store] at hreach
        omega
      · rw [if_neg hexact]
        refine iff_of_true ⟨by omega, fun _ => by push_cast; rfl, value,
          List.prefix_rfl, hfits, hcell⟩ (by omega)
    · obtain ⟨buf', hcopy, hcell, -⟩ :=
        @copyValue_cut env ⟨buf, 0⟩ len 0 p value hz hholds hcut
      rw [Nat.zero_add] at hcopy
      rw [hcopy]
      dsimp only
      rw [if_neg (by omega)]
      refine iff_of_false ?_ (by omega)
      rintro ⟨-, -, part, -, hlen, hpart⟩
      exact not_holds_part hz hcut hcell hlen hpart
  · simp only [hget, hlookup]
    refine iff_of_true ⟨Nat.zero_le _, fun _ hsome => by cases hsome⟩
      fun _ hsome => by cases hsome

theorem copiesOut_iff_oneVar :
    CopiesOut ⟨128, false⟩ (Memory.ofList 0 (strings [oneVar] ++ [0]))
        [oneVar] ⟨text "a", by decide⟩ (fun _ => 0) 3 ↔
      ∀ value, lookup (key (text "a")) [oneVar] = some value →
        value.length + 2 ≤ 3 :=
  copiesOut_iff _ _ _ oneVar_wellFormed _ _ _

/-- A buffer of one byte is left without a terminator. -/
theorem not_copiesOut : ¬ CopiesOut ⟨128, false⟩
    (Memory.ofList 0 (strings [oneVar] ++ [0])) [oneVar]
    ⟨text "a", by decide⟩ (fun _ => 1) 1 := by
  rintro ⟨-, hvalue⟩
  obtain ⟨-, part, -, hlen, hpart⟩ := hvalue (text "1") (by decide)
  obtain rfl := List.length_eq_zero_iff.mp (Nat.lt_one_iff.mp hlen)
  have hend := hpart 0 (by simp)
  revert hend
  decide

end TateFirmware.Env
