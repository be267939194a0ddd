import Mathlib.Algebra.Order.Ring.Nat
import Mathlib.Data.List.Basic
import Mathlib.Data.List.Range
import Mathlib.Data.List.TakeDrop
import Mathlib.Data.Nat.Basic

/-!
# Writing into a buffer

A buffer is the list of its cells.  Writing a list into it from cell `p` on
replaces as many cells; a write that goes past the end makes the list longer,
so that a buffer whose length has not changed has only been written inside.
-/

namespace TateFirmware.Support

variable {α : Type*}

/-- Write `src` into a buffer from cell `p` on. -/
def patch (buf : List α) (p : ℕ) (src : List α) : List α :=
  buf.take p ++ src ++ buf.drop (p + src.length)

/-- `memmove(&buf[d], &buf[s], n)`. -/
def memmove (buf : List α) (d s n : ℕ) : List α :=
  patch buf d ((buf.drop s).take n)

@[simp] theorem patch_nil (buf : List α) (p : ℕ) : patch buf p [] = buf := by
  simp [patch]

theorem patch_length {buf src : List α} {p : ℕ} (hp : p ≤ buf.length) :
    (patch buf p src).length = max buf.length (p + src.length) := by
  simp only [patch, List.length_append, List.length_take, List.length_drop]
  omega

theorem patch_length_of_le {buf src : List α} {p : ℕ}
    (h : p + src.length ≤ buf.length) :
    (patch buf p src).length = buf.length := by
  rw [patch_length (by omega)]
  exact max_eq_left h

@[simp] theorem memmove_zero (buf : List α) (d s : ℕ) : memmove buf d s 0 = buf := by
  rw [memmove, List.take_zero, patch_nil]

theorem memmove_length {buf : List α} {d s n : ℕ} (h : d + n ≤ buf.length) :
    (memmove buf d s n).length = buf.length := by
  apply patch_length_of_le
  rw [List.length_take]
  omega

/-- What is in front of a write stays. -/
theorem take_patch {buf src : List α} {p q : ℕ} (hq : q ≤ p)
    (hp : p ≤ buf.length) : (patch buf p src).take q = buf.take q := by
  rw [patch, List.append_assoc, List.take_append_of_le_length, List.take_take,
    Nat.min_eq_left hq]
  rw [List.length_take]
  omega

/-- What is written stands at its place. -/
theorem drop_patch {buf src : List α} {p : ℕ} (hp : p ≤ buf.length) :
    (patch buf p src).drop p = src ++ buf.drop (p + src.length) := by
  have hlen : (buf.take p).length = p := List.length_take_of_le hp
  rw [patch, List.append_assoc]
  exact List.drop_left' hlen

/-- What is behind a write stays. -/
theorem drop_patch_of_le {buf src : List α} {p q : ℕ} (hp : p ≤ buf.length)
    (hq : p + src.length ≤ q) : (patch buf p src).drop q = buf.drop q := by
  obtain ⟨k, rfl⟩ := Nat.exists_eq_add_of_le hq
  rw [Nat.add_assoc, ← List.drop_drop, drop_patch hp, ← List.drop_drop,
    List.drop_left, List.drop_drop, Nat.add_assoc]

/-!
## The contents behind a log of writes

A store that is written piece by piece is described by the log of its writes,
oldest first.  What a place holds is the last write to it.
-/

variable {ω κ : Type*} [DecidableEq κ] (key : ω → κ)

/-- The last write to a place. -/
def lastWrite (log : List ω) (k : κ) : Option ω :=
  log.reverse.find? fun w => key w = k

@[simp] theorem lastWrite_nil (k : κ) : lastWrite key [] k = none := rfl

theorem lastWrite_append (log log' : List ω) (k : κ) :
    lastWrite key (log ++ log') k =
      (lastWrite key log' k).or (lastWrite key log k) := by
  simp [lastWrite, List.find?_append]

theorem lastWrite_concat_self (log : List ω) (w : ω) :
    lastWrite key (log ++ [w]) (key w) = some w := by
  simp [lastWrite]

/-- Writes to other places do not count. -/
theorem lastWrite_eq_none {log : List ω} {k : κ}
    (h : ∀ w ∈ log, key w ≠ k) : lastWrite key log k = none := by
  simp only [lastWrite, List.find?_eq_none, List.mem_reverse,
    decide_eq_true_eq]
  exact h

theorem lastWrite_append_of_ne {log log' : List ω} {k : κ}
    (h : ∀ w ∈ log', key w ≠ k) :
    lastWrite key (log ++ log') k = lastWrite key log k := by
  rw [lastWrite_append, lastWrite_eq_none key h, Option.none_or]

/-- Writes to different places, one for each number below `n`. -/
theorem lastWrite_range {f : ℕ → ω}
    (hinj : ∀ i j, key (f i) = key (f j) → i = j) {n i : ℕ} (hi : i < n) :
    lastWrite key ((List.range n).map f) (key (f i)) = some (f i) := by
  induction n with
  | zero => omega
  | succ n ih =>
      rw [List.range_succ, List.map_append, List.map_singleton]
      by_cases hin : i = n
      · subst hin
        exact lastWrite_concat_self key _ (f i)
      · rw [lastWrite_append_of_ne, ih (by omega)]
        intro w hw
        rw [List.mem_singleton.mp hw]
        intro heq
        exact hin (hinj n i heq).symm

end TateFirmware.Support
