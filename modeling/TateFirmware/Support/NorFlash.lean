import TateFirmware.Support.Memory

/-!
# NOR flash

Erasing sets all bits of a range and writing only clears bits.  A program for
the flash is a list of operations, so a loss of power leaves the flash behind a
prefix of it.  An operation leaves all cells outside its range alone.
-/

namespace TateFirmware.Support

/-- Writing to flash clears the bits that are clear in `src`. -/
def Memory.program (m : Memory UInt8) (p : ℕ) (src : List UInt8) :
    Memory UInt8 :=
  fun k => if k < p then m k else m k &&& src.getD (k - p) 0xFF

theorem Memory.program_of_lt {m : Memory UInt8} {p k : ℕ} (src : List UInt8)
    (h : k < p) : m.program p src k = m k := if_pos h

theorem Memory.program_of_ge {m : Memory UInt8} {p k : ℕ} {src : List UInt8}
    (h : p + src.length ≤ k) : m.program p src k = m k := by
  have hk : ¬ k < p := by omega
  rw [Memory.program, if_neg hk, List.getD_eq_default _ _ (by omega)]
  exact UInt8.and_neg_one

/-- A byte of what is written. -/
theorem Memory.program_add {m : Memory UInt8} {p k : ℕ} {src : List UInt8}
    (h : k < src.length) : m.program p src (p + k) = m (p + k) &&& src[k] := by
  have hk : ¬ p + k < p := by omega
  rw [Memory.program, if_neg hk, Nat.add_sub_cancel_left,
    List.getD_eq_getElem _ _ h]

/-- What is written to erased flash stands there. -/
theorem Memory.holds_program {m : Memory UInt8} {p : ℕ} {src : List UInt8}
    (herased : ∀ k < src.length, m (p + k) = 0xFF) :
    (m.program p src).Holds p src := by
  intro k hk
  rw [Memory.program_add hk, herased k hk]
  exact UInt8.neg_one_and

theorem Memory.program_singleton (m : Memory UInt8) (p : ℕ) (a : UInt8) :
    m.program p [a] p = m p &&& a :=
  @Memory.program_add m p 0 [a] Nat.one_pos

/-- Writing two stretches one behind the other. -/
theorem Memory.program_append (m : Memory UInt8) (p : ℕ)
    (xs ys : List UInt8) :
    m.program p (xs ++ ys) = (m.program p xs).program (p + xs.length) ys := by
  funext k
  by_cases hlow : k < p
  · rw [Memory.program_of_lt _ hlow, Memory.program_of_lt _ (by omega),
      Memory.program_of_lt _ hlow]
  · by_cases hmid : k < p + xs.length
    · rw [Memory.program_of_lt _ hmid, Memory.program, Memory.program,
        if_neg hlow, if_neg hlow, List.getD_append _ _ _ _ (by omega)]
    · rw [Memory.program, if_neg hlow, Memory.program, if_neg hmid,
        Memory.program_of_ge (not_lt.mp hmid),
        List.getD_append_right _ _ _ _ (by omega)]
      congr 2
      omega

/-- What flash can take stands there, and the rest is left alone. -/
theorem Memory.program_eq_copyIn {m : Memory UInt8} {p : ℕ} {src : List UInt8}
    (h : ∀ k (_ : k < src.length), m (p + k) &&& src[k] = src[k]) :
    m.program p src = m.copyIn p src := by
  funext i
  by_cases hlow : i < p
  · rw [Memory.program_of_lt _ hlow, Memory.copyIn_of_lt _ hlow]
  · obtain ⟨k, rfl⟩ := Nat.exists_eq_add_of_le (not_lt.mp hlow)
    by_cases hk : k < src.length
    · rw [Memory.program_add hk, h k hk, Memory.copyIn_add hk]
    · rw [Memory.program_of_ge (by omega), Memory.copyIn_of_ge (by omega)]

/-- Writing what stands there changes nothing. -/
theorem Memory.program_read (m : Memory UInt8) (p n : ℕ) :
    m.program p (m.read p n) = m := by
  funext i
  by_cases hlow : i < p
  · exact Memory.program_of_lt _ hlow
  · obtain ⟨k, rfl⟩ := Nat.exists_eq_add_of_le (not_lt.mp hlow)
    by_cases hk : k < (m.read p n).length
    · rw [Memory.program_add hk, Memory.read_getElem, UInt8.and_self]
    · exact Memory.program_of_ge (by omega)

theorem Memory.fill_of_outside {α : Type*} {m : Memory α} {p n k : ℕ} (a : α)
    (h : k < p ∨ p + n ≤ k) : m.fill p n a k = m k :=
  if_neg (by omega)

theorem Memory.fill_of_mem {α : Type*} {m : Memory α} {p n k : ℕ} (a : α)
    (hge : p ≤ k) (hlt : k < p + n) : m.fill p n a k = a :=
  if_pos ⟨hge, hlt⟩

/-! ## Operations -/

inductive FlashOp where
  /-- Protecting or unprotecting changes no byte. -/
  | protect (on : Bool) (addr len : ℕ)
  | erase (addr len : ℕ)
  | write (addr : ℕ) (src : List UInt8)

namespace FlashOp

def apply (flash : Memory UInt8) : FlashOp → Memory UInt8
  | protect _ _ _ => flash
  | erase addr len => flash.fill addr len 0xFF
  | write addr src => flash.program addr src

/-- The flash behind some operations. -/
def applyAll (flash : Memory UInt8) (ops : List FlashOp) : Memory UInt8 :=
  ops.foldl apply flash

/-- The first cell an operation may change, and the number of them. -/
def range : FlashOp → ℕ × ℕ
  | protect _ addr _ => (addr, 0)
  | erase addr len => (addr, len)
  | write addr src => (addr, src.length)

@[simp] theorem applyAll_nil (flash : Memory UInt8) :
    applyAll flash [] = flash := rfl

@[simp] theorem applyAll_cons (flash : Memory UInt8) (op : FlashOp)
    (ops : List FlashOp) :
    applyAll flash (op :: ops) = applyAll (apply flash op) ops := rfl

theorem applyAll_append (flash : Memory UInt8) (ops ops' : List FlashOp) :
    applyAll flash (ops ++ ops') = applyAll (applyAll flash ops) ops' :=
  List.foldl_append

theorem apply_of_outside {flash : Memory UInt8} {op : FlashOp} {k : ℕ}
    (h : k < op.range.1 ∨ op.range.1 + op.range.2 ≤ k) :
    apply flash op k = flash k := by
  cases op with
  | protect on addr len => rfl
  | erase addr len => exact Memory.fill_of_outside 0xFF h
  | write addr src =>
      rcases h with hlt | hge
      · exact Memory.program_of_lt src hlt
      · exact Memory.program_of_ge hge

/-- `P` holds of the flash wherever the operations are cut off. -/
def Throughout (P : Memory UInt8 → Prop) (flash : Memory UInt8)
    (ops : List FlashOp) : Prop :=
  ∀ k, P (applyAll flash (ops.take k))

variable {P : Memory UInt8 → Prop} {flash : Memory UInt8}

theorem throughout_nil (h : P flash) : Throughout P flash [] := by
  intro k
  rw [List.take_nil]
  exact h

theorem throughout_cons {op : FlashOp} {ops : List FlashOp} (h : P flash)
    (hops : Throughout P (apply flash op) ops) :
    Throughout P flash (op :: ops) := by
  intro k
  cases k with
  | zero => exact h
  | succ k => exact hops k

theorem throughout_append {ops ops' : List FlashOp}
    (h : Throughout P flash ops) (h' : Throughout P (applyAll flash ops) ops') :
    Throughout P flash (ops ++ ops') := by
  intro k
  rw [List.take_append, applyAll_append]
  rcases Nat.le_total k ops.length with hle | hge
  · rw [Nat.sub_eq_zero_of_le hle, List.take_zero]
    exact h k
  · rw [List.take_of_length_le hge]
    exact h' (k - ops.length)

theorem Throughout.last {ops : List FlashOp} (h : Throughout P flash ops) :
    P (applyAll flash ops) := by
  have hlast := h ops.length
  rwa [List.take_length] at hlast

end FlashOp

end TateFirmware.Support
