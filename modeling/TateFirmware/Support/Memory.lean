import Mathlib.Algebra.Order.Ring.Nat
import Mathlib.Data.List.Basic
import Mathlib.Data.List.GetD
import Mathlib.Data.Nat.Basic
import Mathlib.Logic.Function.Basic

/-!
# Memory seen from a pointer

C code works on memory through pointers.  Here a pointer is the memory it
points into, as a function of the offset, so that `p[k]` is `m k` and
`p + k` is `m.shift k`.  `Holds m p l` says that the list `l` stands in
memory from offset `p` on; the loops of the development are specified by the
lists they read and write.  A tracked memory also remembers how far the
stores made so far have reached.
-/

namespace TateFirmware.Support

variable {α : Type*}

/-- Memory as seen from a pointer. -/
abbrev Memory (α : Type*) := ℕ → α

namespace Memory

/-- Store one cell. -/
def store (m : Memory α) (i : ℕ) (a : α) : Memory α :=
  fun k => if k = i then a else m k

/-- Copy a list into memory from offset `p` on. -/
def copyIn (m : Memory α) (p : ℕ) (src : List α) : Memory α :=
  fun k => if k < p then m k else src.getD (k - p) (m k)

/-- Fill `n` cells from offset `p` on. -/
def fill (m : Memory α) (p n : ℕ) (a : α) : Memory α :=
  fun k => if p ≤ k ∧ k < p + n then a else m k

/-- The `n` cells from offset `p` on. -/
def read (m : Memory α) (p n : ℕ) : List α :=
  (List.range n).map fun k => m (p + k)

/-- The pointer moved `d` cells up. -/
def shift (m : Memory α) (d : ℕ) : Memory α := fun k => m (d + k)

/-- The pointer to the first element of a list; cells past it hold `a`. -/
def ofList (a : α) (l : List α) : Memory α := fun k => l.getD k a

/-- Memory with its addresses wrapping around at 32 bits. -/
def wrap (m : Memory α) : Memory α := fun k => m (k % 2 ^ 32)

/-- `memmove` of a list to address `p`, wrapping around at 32 bits. -/
def copyWrap (m : Memory α) (p : ℕ) (src : List α) : Memory α :=
  fun k => if k < 2 ^ 32 then src.getD ((k + 2 ^ 32 - p) % 2 ^ 32) (m k)
    else m k

@[simp] theorem store_same (m : Memory α) (i : ℕ) (a : α) :
    m.store i a i = a := by simp [store]

theorem store_of_ne {m : Memory α} {i k : ℕ} (a : α) (h : k ≠ i) :
    m.store i a k = m k := by simp [store, h]

theorem store_eq_update (m : Memory α) (i : ℕ) (a : α) :
    m.store i a = Function.update m i a := by
  funext k
  rw [store, Function.update_apply]

/-- A store hides one to the same cell. -/
theorem store_store (m : Memory α) (i : ℕ) (a b : α) :
    (m.store i a).store i b = m.store i b := by
  simp only [store_eq_update, Function.update_idem]

/-- Stores to two cells, in either order. -/
theorem store_comm (m : Memory α) {i j : ℕ} (hij : i ≠ j) (a b : α) :
    (m.store i a).store j b = (m.store j b).store i a := by
  simp only [store_eq_update]
  exact Function.update_comm hij a b m

theorem store_self (m : Memory α) (i : ℕ) : m.store i (m i) = m := by
  rw [store_eq_update, Function.update_eq_self]

theorem copyIn_of_lt {m : Memory α} {p k : ℕ} (src : List α) (h : k < p) :
    m.copyIn p src k = m k := by simp [copyIn, h]

theorem copyIn_of_ge {m : Memory α} {p k : ℕ} {src : List α}
    (h : p + src.length ≤ k) : m.copyIn p src k = m k := by
  have hk : ¬ k < p := by omega
  have hlen : src.length ≤ k - p := by omega
  rw [copyIn, if_neg hk, List.getD_eq_default _ _ hlen]

theorem copyIn_add {m : Memory α} {p k : ℕ} {src : List α}
    (h : k < src.length) : m.copyIn p src (p + k) = src[k] := by
  have hk : ¬ p + k < p := by omega
  rw [copyIn, if_neg hk, Nat.add_sub_cancel_left,
    List.getD_eq_getElem _ _ h]

@[simp] theorem copyIn_nil (m : Memory α) (p : ℕ) : m.copyIn p [] = m := by
  funext k
  simp [copyIn]

/-- Two lists copied one behind the other. -/
theorem copyIn_append (m : Memory α) (p : ℕ) (xs ys : List α) :
    (m.copyIn p xs).copyIn (p + xs.length) ys = m.copyIn p (xs ++ ys) := by
  funext k
  by_cases hbefore : k < p
  · rw [copyIn_of_lt _ (by omega), copyIn_of_lt _ hbefore, copyIn_of_lt _ hbefore]
  · obtain ⟨i, rfl⟩ := Nat.exists_eq_add_of_le (not_lt.mp hbefore)
    by_cases hfirst : i < xs.length
    · rw [copyIn_of_lt _ (by omega), copyIn_add hfirst,
        copyIn_add (by rw [List.length_append]; omega),
        List.getElem_append_left hfirst]
    · obtain ⟨j, rfl⟩ := Nat.exists_eq_add_of_le (not_lt.mp hfirst)
      rw [← Nat.add_assoc]
      by_cases hsecond : j < ys.length
      · rw [copyIn_add hsecond, Nat.add_assoc,
          copyIn_add (by rw [List.length_append]; omega),
          List.getElem_append_right (by omega)]
        simp only [Nat.add_sub_cancel_left]
      · rw [copyIn_of_ge (by omega), copyIn_of_ge (by omega),
          copyIn_of_ge (by rw [List.length_append]; omega)]

/-- A copy hides what was copied to the same place, if that was not longer. -/
theorem copyIn_hides {m : Memory α} {p : ℕ} {xs ys : List α}
    (h : xs.length ≤ ys.length) : (m.copyIn p xs).copyIn p ys = m.copyIn p ys := by
  funext k
  by_cases hbefore : k < p
  · rw [copyIn_of_lt _ hbefore, copyIn_of_lt _ hbefore, copyIn_of_lt _ hbefore]
  · obtain ⟨i, rfl⟩ := Nat.exists_eq_add_of_le (not_lt.mp hbefore)
    by_cases hi : i < ys.length
    · rw [copyIn_add hi, copyIn_add hi]
    · rw [copyIn_of_ge (by omega), copyIn_of_ge (by omega), copyIn_of_ge (by omega)]

theorem fill_eq_copyIn (m : Memory α) (p n : ℕ) (a : α) :
    m.fill p n a = m.copyIn p (List.replicate n a) := by
  funext k
  by_cases hbefore : k < p
  · rw [copyIn_of_lt _ hbefore, fill, if_neg (by omega)]
  · obtain ⟨i, rfl⟩ := Nat.exists_eq_add_of_le (not_lt.mp hbefore)
    by_cases hi : i < n
    · rw [copyIn_add (by rwa [List.length_replicate]), List.getElem_replicate, fill,
        if_pos (by omega)]
    · rw [copyIn_of_ge (by rw [List.length_replicate]; omega), fill, if_neg (by omega)]

@[simp] theorem read_length (m : Memory α) (p n : ℕ) :
    (m.read p n).length = n := by simp [read]

@[simp] theorem read_getElem (m : Memory α) (p n k : ℕ)
    (h : k < (m.read p n).length) : (m.read p n)[k] = m (p + k) := by
  simp [read]

@[simp] theorem shift_apply (m : Memory α) (d k : ℕ) :
    m.shift d k = m (d + k) := rfl

@[simp] theorem shift_zero (m : Memory α) : m.shift 0 = m := by
  funext k
  simp [shift]

theorem read_shift (m : Memory α) (d p n : ℕ) :
    (m.shift d).read p n = m.read (d + p) n := by
  simp [read, Nat.add_assoc]

/-- Two stretches read one behind the other. -/
theorem read_add (m : Memory α) (p n k : ℕ) :
    m.read p (n + k) = m.read p n ++ m.read (p + n) k := by
  rw [read, List.range_add, List.map_append, List.map_map]
  simp only [read, Function.comp_def, Nat.add_assoc]

theorem read_take (m : Memory α) (p n k : ℕ) :
    (m.read p n).take k = m.read p (min k n) := by
  rw [read, read, ← List.map_take, List.take_range]

/-- The cells after a copy of what another memory holds. -/
theorem copyIn_read (m src : Memory α) (p q n k : ℕ) :
    m.copyIn p (src.read q n) k =
      if p ≤ k ∧ k < p + n then src (q + (k - p)) else m k := by
  by_cases hbefore : k < p
  · rw [copyIn_of_lt _ hbefore, if_neg (by omega)]
  · by_cases hbehind : p + n ≤ k
    · rw [copyIn_of_ge (by rwa [read_length]), if_neg (by omega)]
    · obtain ⟨i, rfl⟩ := Nat.exists_eq_add_of_le (not_lt.mp hbefore)
      rw [copyIn_add (by rw [read_length]; omega), read_getElem,
        if_pos (by omega), Nat.add_sub_cancel_left]

theorem read_congr {m m' : Memory α} {p q n : ℕ}
    (h : ∀ k < n, m (p + k) = m' (q + k)) : m.read p n = m'.read q n := by
  unfold read
  apply List.map_congr_left
  intro k hk
  exact h k (List.mem_range.mp hk)

/-- Reading a cell through the block of size `n` it lies in, the blocks being
counted from number `b` on. -/
theorem read_block (m : Memory α) {n b k : ℕ} (d : α) (hn : 0 < n)
    (hb : b ≤ k / n) :
    (m.read (n * (k / n - b)) n).getD (k % n) d = m (k - b * n) := by
  have hlen : k % n < (m.read (n * (k / n - b)) n).length := by
    rw [read_length]
    exact Nat.mod_lt _ hn
  have hindex : n * (k / n - b) + k % n = k - b * n := by
    have hdiv := Nat.div_add_mod k n
    have hle := Nat.mul_le_mul_left n hb
    rw [Nat.mul_sub, Nat.mul_comm b]
    omega
  rw [List.getD_eq_getElem _ _ hlen, read_getElem, hindex]

theorem ofList_apply {a : α} {l : List α} {k : ℕ} (h : k < l.length) :
    ofList a l k = l[k] := by simp [ofList, h]

/-- The list `l` stands in memory from offset `p` on. -/
def Holds (m : Memory α) (p : ℕ) (l : List α) : Prop :=
  ∀ k (h : k < l.length), m (p + k) = l[k]

@[simp] theorem holds_nil (m : Memory α) (p : ℕ) : Holds m p [] := by
  intro k h
  simp at h

theorem holds_append {m : Memory α} {p : ℕ} {xs ys : List α} :
    Holds m p (xs ++ ys) ↔ Holds m p xs ∧ Holds m (p + xs.length) ys := by
  constructor
  · intro h
    constructor
    · intro k hk
      have hk' : k < (xs ++ ys).length := by simp; omega
      rw [h k hk', List.getElem_append_left hk]
    · intro k hk
      have hk' : xs.length + k < (xs ++ ys).length := by simp; omega
      have := h (xs.length + k) hk'
      rw [List.getElem_append_right (by omega)] at this
      simpa [Nat.add_assoc] using this
  · rintro ⟨hxs, hys⟩ k hk
    rcases Nat.lt_or_ge k xs.length with hlt | hge
    · rw [List.getElem_append_left hlt]
      exact hxs k hlt
    · have hk' : k - xs.length < ys.length := by
        simp only [List.length_append] at hk
        omega
      rw [List.getElem_append_right hge, ← hys (k - xs.length) hk']
      congr 1
      omega

theorem holds_singleton {m : Memory α} {p : ℕ} {a : α} :
    Holds m p [a] ↔ m p = a := by
  constructor
  · intro h
    simpa using h 0 (by simp)
  · intro h k hk
    have hk0 : k = 0 := by simpa using hk
    subst hk0
    simpa using h

theorem holds_cons {m : Memory α} {p : ℕ} {a : α} {l : List α} :
    Holds m p (a :: l) ↔ m p = a ∧ Holds m (p + 1) l := by
  rw [← List.singleton_append, holds_append, holds_singleton]
  rfl

theorem holds_iff_read {m : Memory α} {p : ℕ} {l : List α} :
    Holds m p l ↔ m.read p l.length = l := by
  constructor
  · intro h
    apply List.ext_getElem (by simp)
    intro k hk hk'
    rw [read_getElem]
    exact h k hk'
  · intro h k hk
    have hget := List.getElem_of_eq h (i := k) (by simpa using hk)
    simpa using hget

theorem Holds.read_eq {m : Memory α} {p : ℕ} {l : List α}
    (h : Holds m p l) : m.read p l.length = l :=
  holds_iff_read.mp h

/-- What is read of a list that the memory holds. -/
theorem Holds.read_take {m : Memory α} {p n : ℕ} {l : List α}
    (h : Holds m p l) (hn : n ≤ l.length) : m.read p n = l.take n := by
  have hread := h.read_eq
  have hsplit : l.length = n + (l.length - n) := by omega
  rw [hsplit, read_add] at hread
  rw [← hread, List.take_left' (read_length _ _ _)]

theorem holds_read (m : Memory α) (p n : ℕ) : Holds m p (m.read p n) := by
  intro k hk
  simp

theorem holds_ofList (a : α) (l : List α) : Holds (ofList a l) 0 l := by
  intro k hk
  simp [ofList, hk]

theorem holds_copyIn (m : Memory α) (p : ℕ) (l : List α) :
    Holds (m.copyIn p l) p l := fun _ hk => copyIn_add hk

/-- A list in memory depends on its own cells only. -/
theorem Holds.congr {m m' : Memory α} {p : ℕ} {l : List α}
    (h : Holds m p l) (hsame : ∀ k, p ≤ k → k < p + l.length → m' k = m k) :
    Holds m' p l := by
  intro k hk
  rw [hsame (p + k) (by omega) (by omega)]
  exact h k hk

theorem Holds.append {m : Memory α} {p : ℕ} {xs ys : List α}
    (hxs : Holds m p xs) (hys : Holds m (p + xs.length) ys) :
    Holds m p (xs ++ ys) := holds_append.mpr ⟨hxs, hys⟩

/-- Appending a copy right behind a list that already stands there. -/
theorem Holds.append_copyIn {m : Memory α} {p : ℕ} {xs : List α}
    (hxs : Holds m p xs) (ys : List α) :
    Holds (m.copyIn (p + xs.length) ys) p (xs ++ ys) := by
  apply Holds.append
  · apply hxs.congr
    intro k _ hk
    exact copyIn_of_lt ys hk
  · exact holds_copyIn m _ ys

/-- `memmove` extends what stands in memory before it, also around the top of
the address space. -/
theorem Holds.append_copyWrap {m : Memory α} {p : ℕ} {xs ys : List α}
    (h : Holds m.wrap p xs) (hlen : xs.length + ys.length ≤ 2 ^ 32) :
    Holds (m.copyWrap ((p + xs.length) % 2 ^ 32) ys).wrap p (xs ++ ys) := by
  intro k hk
  rw [List.length_append] at hk
  have hlt : (p + k) % 2 ^ 32 < 2 ^ 32 := Nat.mod_lt _ (by decide)
  rw [wrap, copyWrap, if_pos hlt]
  by_cases hfront : k < xs.length
  · have hindex : ys.length ≤
        ((p + k) % 2 ^ 32 + 2 ^ 32 - (p + xs.length) % 2 ^ 32) % 2 ^ 32 := by
      omega
    rw [List.getD_eq_default _ _ hindex, List.getElem_append_left hfront]
    exact h k hfront
  · have hindex :
        ((p + k) % 2 ^ 32 + 2 ^ 32 - (p + xs.length) % 2 ^ 32) % 2 ^ 32 =
          k - xs.length := by
      omega
    rw [hindex, List.getD_eq_getElem _ _ (by omega),
      List.getElem_append_right (by omega)]

end Memory

/-- Memory together with a bound on the cells stored to so far: every store
made since `high` was `0` went to a cell below `high`. -/
structure TrackedMemory (α : Type*) where
  cell : Memory α
  high : ℕ

namespace TrackedMemory

/-- Store one cell and remember how far the store reached. -/
def store (m : TrackedMemory α) (i : ℕ) (a : α) : TrackedMemory α where
  cell := m.cell.store i a
  high := max m.high (i + 1)

/-- Copy a list in and remember how far the copy reached. -/
def copyIn (m : TrackedMemory α) (p : ℕ) (src : List α) : TrackedMemory α where
  cell := m.cell.copyIn p src
  high := if src = [] then m.high else max m.high (p + src.length)

theorem store_high_le {m : TrackedMemory α} {i n : ℕ} (a : α)
    (hm : m.high ≤ n) (hi : i < n) : (m.store i a).high ≤ n := by
  simp only [store]
  omega

theorem copyIn_high_le {m : TrackedMemory α} {p n : ℕ} {src : List α}
    (hm : m.high ≤ n) (hsrc : p + src.length ≤ n) :
    (m.copyIn p src).high ≤ n := by
  simp only [copyIn]
  split
  · exact hm
  · omega

@[simp] theorem store_cell (m : TrackedMemory α) (i : ℕ) (a : α) :
    (m.store i a).cell = m.cell.store i a := rfl

@[simp] theorem copyIn_cell (m : TrackedMemory α) (p : ℕ) (src : List α) :
    (m.copyIn p src).cell = m.cell.copyIn p src := rfl

end TrackedMemory

end TateFirmware.Support
