import TateFirmware.Support.Memory
import Mathlib.Data.List.DropRight

/-!
# Ring buffers

A ring is a block of `cap` cells at `data` in which a queue lies from the cell
`top` on, going on at `data` behind the last cell.  `Rings` says which queue a
memory keeps there.  Storing behind a queue with room left appends to it,
storing behind a full one replaces the oldest item, and moving `top` on removes
the oldest item.

The queue itself is the bounded one that keeps the last `cap` items.
-/

namespace TateFirmware.Support

variable {α : Type*}

/-! ## Cells of a ring -/

/-- The cell behind `p`. -/
def ringNext (data cap p : ℕ) : ℕ := if p + 1 = data + cap then data else p + 1

/-- The cell of the `i`-th item behind `top`. -/
def ringAt (data cap top i : ℕ) : ℕ :=
  if top + i < data + cap then top + i else top + i - cap

theorem ringAt_zero {data cap top : ℕ} (hlt : top < data + cap) :
    ringAt data cap top 0 = top := if_pos hlt

theorem ringAt_inside {data cap top i : ℕ} (hge : data ≤ top)
    (hlt : top < data + cap) (hi : i < cap) :
    data ≤ ringAt data cap top i ∧ ringAt data cap top i < data + cap := by
  unfold ringAt
  split_ifs <;> omega

theorem ringAt_full {data cap top : ℕ} (hge : data ≤ top) :
    ringAt data cap top cap = top := by
  rw [ringAt, if_neg (by omega)]
  omega

theorem ringAt_ne {data cap top i j : ℕ} (hi : i < cap) (hj : j < cap)
    (hne : i ≠ j) :
    ringAt data cap top i ≠ ringAt data cap top j := by
  unfold ringAt
  split_ifs <;> omega

theorem ringNext_inside {data cap p : ℕ} (hge : data ≤ p)
    (hlt : p < data + cap) :
    data ≤ ringNext data cap p ∧ ringNext data cap p < data + cap := by
  unfold ringNext
  split_ifs <;> omega

/-- The places counted from the next cell are those behind it. -/
theorem ringAt_next {data cap top i : ℕ} (hi : i < cap) :
    ringAt data cap (ringNext data cap top) i = ringAt data cap top (i + 1) := by
  unfold ringAt ringNext
  split_ifs <;> omega

theorem ringNext_at {data cap top i : ℕ} (hlt : top < data + cap)
    (hi : i < cap) :
    ringNext data cap (ringAt data cap top i) = ringAt data cap top (i + 1) := by
  unfold ringAt ringNext
  split_ifs <;> omega

/-! ## The queue in a ring -/

/-- The ring at `data` keeps the queue `q`, oldest item first, from `top` on. -/
structure Rings (m : Memory α) (data cap top : ℕ) (q : List α) : Prop where
  ge : data ≤ top
  lt : top < data + cap
  room : q.length ≤ cap
  item : ∀ i, i < q.length → q[i]? = some (m (ringAt data cap top i))

namespace Rings

variable {m : Memory α} {data cap top : ℕ} {q : List α} {a : α}

theorem nil (m : Memory α) {data cap top : ℕ} (hge : data ≤ top)
    (hlt : top < data + cap) : Rings m data cap top [] :=
  ⟨hge, hlt, Nat.zero_le _, fun _ hi => absurd hi (Nat.not_lt_zero _)⟩

/-- The cell behind the queue. -/
theorem tail_inside (h : Rings m data cap top q) :
    data ≤ ringAt data cap top q.length ∧
      ringAt data cap top q.length < data + cap := by
  rcases h.room.lt_or_eq with hlt | heq
  · exact ringAt_inside h.ge h.lt hlt
  · rw [heq, ringAt_full h.ge]
    exact ⟨h.ge, h.lt⟩

/-- A queue with room left is appended to. -/
theorem push (h : Rings m data cap top q) (hroom : q.length < cap) (a : α) :
    Rings (m.store (ringAt data cap top q.length) a) data cap top (q ++ [a]) where
  ge := h.ge
  lt := h.lt
  room := by
    rw [List.length_append]
    exact hroom
  item := by
    intro i hi
    rw [List.length_append, List.length_singleton] at hi
    rcases (Nat.lt_succ_iff.mp hi).lt_or_eq with hold | rfl
    · rw [List.getElem?_append_left hold, h.item i hold,
        Memory.store_of_ne a (ringAt_ne (by omega) hroom (by omega))]
    · rw [List.getElem?_concat_length, Memory.store_same]

/-- Items put into the cells behind a queue with room for them are appended. -/
theorem append {m' : Memory α} {items : List α} (h : Rings m data cap top q)
    (hroom : q.length + items.length ≤ cap)
    (hold : ∀ i < q.length,
      m' (ringAt data cap top i) = m (ringAt data cap top i))
    (hnew : ∀ i < items.length,
      items[i]? = some (m' (ringAt data cap top (q.length + i)))) :
    Rings m' data cap top (q ++ items) where
  ge := h.ge
  lt := h.lt
  room := by
    rw [List.length_append]
    exact hroom
  item := by
    intro i hi
    rw [List.length_append] at hi
    by_cases hin : i < q.length
    · rw [List.getElem?_append_left hin, h.item i hin, hold i hin]
    · rw [List.getElem?_append_right (by omega), hnew _ (by omega),
        Nat.add_sub_cancel' (by omega)]

/-- Items copied in behind a queue in two pieces, the second one from the first cell
on, are appended. -/
theorem append_copyIn {p : ℕ} {xs ys : List α} (h : Rings m data cap top q)
    (hp : p = ringAt data cap top q.length)
    (hroom : q.length + (xs.length + ys.length) ≤ cap)
    (hfirst : p + xs.length ≤ data + cap)
    (hsecond : 0 < ys.length → p + xs.length = data + cap) :
    Rings ((m.copyIn p xs).copyIn data ys) data cap top (q ++ (xs ++ ys)) := by
  have hge := h.ge
  have hlt := h.lt
  refine h.append (by rwa [List.length_append]) (fun i hi => ?_) fun i hi => ?_
  · -- the cells of the queue lie outside both pieces
    have hcell : (ringAt data cap top i < p ∨ p + xs.length ≤ ringAt data cap top i) ∧
        data + ys.length ≤ ringAt data cap top i := by
      rw [hp] at hfirst hsecond ⊢
      unfold ringAt at *
      split_ifs at * <;> omega
    rw [Memory.copyIn_of_ge hcell.2]
    rcases hcell.1 with hbefore | hbehind
    · exact Memory.copyIn_of_lt _ hbefore
    · exact Memory.copyIn_of_ge hbehind
  · rw [List.length_append] at hi
    by_cases hin : i < xs.length
    · have hcell : ringAt data cap top (q.length + i) = p + i ∧
          data + ys.length ≤ p + i := by
        rw [hp] at hfirst hsecond ⊢
        unfold ringAt at *
        split_ifs at * <;> omega
      rw [hcell.1, Memory.copyIn_of_ge hcell.2, Memory.copyIn_add hin,
        List.getElem?_append_left hin, List.getElem?_eq_getElem hin]
    · have hcell : ringAt data cap top (q.length + i) = data + (i - xs.length) := by
        rw [hp] at hfirst hsecond
        unfold ringAt at *
        split_ifs at * <;> omega
      have hin' : i - xs.length < ys.length := by omega
      rw [hcell, Memory.copyIn_add hin', List.getElem?_append_right (by omega),
        List.getElem?_eq_getElem hin']

/-- The oldest item is the one at `top`; the others follow it. -/
theorem pop (h : Rings m data cap top (a :: q)) :
    m top = a ∧ Rings m data cap (ringNext data cap top) q := by
  have hroom := h.room
  rw [List.length_cons] at hroom
  constructor
  · have hfirst := h.item 0 (Nat.succ_pos _)
    rw [ringAt_zero h.lt] at hfirst
    exact (Option.some.inj hfirst).symm
  · obtain ⟨hge, hlt⟩ := ringNext_inside h.ge h.lt
    refine ⟨hge, hlt, by omega, fun i hi => ?_⟩
    rw [ringAt_next (by omega)]
    exact h.item (i + 1) (Nat.succ_lt_succ hi)

/-- In a full queue the new item takes the place of the oldest one. -/
theorem push_full (h : Rings m data cap top (a :: q))
    (hfull : (a :: q).length = cap) (b : α) :
    Rings (m.store (ringAt data cap top (a :: q).length) b) data cap
      (ringNext data cap top) (q ++ [b]) := by
  obtain ⟨-, hrest⟩ := h.pop
  rw [List.length_cons] at hfull
  have hplace : ringAt data cap top (a :: q).length =
      ringAt data cap (ringNext data cap top) q.length := by
    rw [ringAt_next (by omega), List.length_cons]
  rw [hplace]
  exact hrest.push (by omega) b

/-- The cell behind the queue, seen from the next cell. -/
theorem tail_pop (h : Rings m data cap top (a :: q)) :
    ringAt data cap (ringNext data cap top) q.length =
      ringAt data cap top (a :: q).length := by
  have hroom := h.room
  rw [List.length_cons] at hroom
  rw [ringAt_next (by omega), List.length_cons]

end Rings

/-! ## The bounded queue -/

/-- Append an item to a queue for `cap` of them, dropping the oldest of a full
one. -/
def pushBounded (cap : ℕ) (q : List α) (a : α) : List α :=
  if q.length < cap then q ++ [a] else (q ++ [a]).tail

/-- Item by item, the queue keeps the last `cap` of all the items. -/
theorem foldl_pushBounded {cap : ℕ} {q : List α} (hq : q.length ≤ cap)
    (src : List α) :
    src.foldl (pushBounded cap) q = (q ++ src).rtake cap := by
  induction src generalizing q with
  | nil =>
      rw [List.foldl_nil, List.append_nil, List.rtake]
      rw [Nat.sub_eq_zero_of_le hq, List.drop_zero]
  | cons a src ih =>
      rw [List.foldl_cons, pushBounded]
      split_ifs with hroom
      · rw [ih (by rw [List.length_append]; exact hroom), List.append_assoc]
        rfl
      · have hfull : q.length = cap := by omega
        rw [ih (by simp [hfull]), List.rtake, List.rtake]
        cases q with
        | nil =>
            rw [← hfull]
            simp
        | cons b q =>
            simp only [List.cons_append, List.tail_cons, List.append_assoc,
              List.nil_append, List.length_append, List.length_cons]
            rw [← List.drop_succ_cons (a := b)]
            congr 1
            rw [List.length_cons] at hfull
            omega

end TateFirmware.Support
