import TateFirmware.Support.Memory

/-!
# Items of one size in memory

A row of items of one size from the start of a memory on.  The row is determined by
the cells of the items one after the other, so that opening and closing a gap in the
cells is inserting and removing items of the row.
-/

namespace TateFirmware.Support

namespace Memory

variable {α : Type*}

/-- The first `n` items of `size` cells each. -/
def items (m : Memory α) (size n : ℕ) : List (List α) :=
  (List.range n).map fun i => m.read (i * size) size

@[simp] theorem items_length (m : Memory α) (size n : ℕ) :
    (m.items size n).length = n := by simp [items]

theorem items_size {m : Memory α} {size n : ℕ} {x : List α} (hx : x ∈ m.items size n) :
    x.length = size := by
  obtain ⟨i, -, rfl⟩ := List.mem_map.mp hx
  exact read_length m _ size

theorem items_succ (m : Memory α) (size n : ℕ) :
    m.items size (n + 1) = m.items size n ++ [m.read (n * size) size] := by
  rw [items, List.range_succ, List.map_append]
  rfl

theorem items_flatten (m : Memory α) (size n : ℕ) :
    (m.items size n).flatten = m.read 0 (n * size) := by
  induction n with
  | zero => simp [items, read]
  | succ n ih =>
      rw [items_succ, List.flatten_append, ih, List.flatten_singleton, Nat.add_one_mul,
        read_add, Nat.zero_add]

theorem holds_items (m : Memory α) (size n : ℕ) :
    Holds m 0 (m.items size n).flatten := by
  rw [items_flatten]
  exact holds_read m 0 (n * size)

/-- Items of one size have as many cells as items times their size. -/
theorem flatten_length {size : ℕ} {xs : List (List α)} (h : ∀ x ∈ xs, x.length = size) :
    xs.flatten.length = xs.length * size := by
  induction xs with
  | nil => simp
  | cons x xs ih =>
      rw [List.flatten_cons, List.length_append, h x List.mem_cons_self,
        ih fun y hy => h y (List.mem_cons_of_mem _ hy), List.length_cons,
        Nat.add_one_mul, Nat.add_comm]

/-- The cells of a row determine it. -/
theorem items_eq_of_holds {m : Memory α} {size : ℕ} {xs : List (List α)}
    (hsize : ∀ x ∈ xs, x.length = size) (h : Holds m 0 xs.flatten) :
    m.items size xs.length = xs := by
  apply List.ext_getElem (items_length m size _)
  intro i hi hi'
  have hsplit : xs = xs.take i ++ xs[i] :: xs.drop (i + 1) := by
    rw [List.getElem_cons_drop, List.take_append_drop]
  have hfront : (xs.take i).flatten.length = i * size := by
    rw [flatten_length fun x hx => hsize x (List.mem_of_mem_take hx), List.length_take,
      Nat.min_eq_left (Nat.le_of_lt hi')]
  rw [hsplit, List.flatten_append, holds_append, List.flatten_cons, holds_append,
    hfront, Nat.zero_add] at h
  have hread := h.2.1.read_eq
  rw [hsize _ (List.getElem_mem hi')] at hread
  simpa [items] using hread

/-- A gap opened in a list and filled. -/
theorem Holds.insert_middle {m : Memory α} {p : ℕ} {xs ys : List α}
    (h : Holds m p (xs ++ ys)) (new : List α) :
    Holds ((m.copyIn (p + xs.length + new.length) ys).copyIn (p + xs.length) new) p
      (xs ++ new ++ ys) := by
  have hfront : Holds (m.copyIn (p + xs.length + new.length) ys) p xs := by
    apply (holds_append.mp h).1.congr
    intro k _ hk
    exact copyIn_of_lt ys (by omega)
  apply (hfront.append_copyIn new).append
  rw [List.length_append, ← Nat.add_assoc]
  apply (holds_copyIn m (p + xs.length + new.length) ys).congr
  intro k hk _
  exact copyIn_of_ge hk

/-- A gap in a list closed. -/
theorem Holds.remove_middle {m : Memory α} {p : ℕ} {xs mid ys : List α}
    (h : Holds m p (xs ++ mid ++ ys)) :
    Holds (m.copyIn (p + xs.length) ys) p (xs ++ ys) :=
  (holds_append.mp (holds_append.mp h).1).1.append_copyIn ys

end Memory

end TateFirmware.Support
