import TateFirmware.Support.Memory

/-!
# Lists of strings in memory

Strings stand in memory one behind the other, each with its terminator, and a
second terminator closes the list.  `stringEnd` and `listEnd` are the loops
that look for a terminator and for two of them, and `shiftDown` moves the rest
of a list down in place.  A loop that passes more cells than it may is `none`.
-/

namespace TateFirmware.Support

variable {α : Type*} (z : α)

/-! ## The loops -/

namespace Memory

variable [DecidableEq α]

/-- The first terminator from `i` on, passing `k` cells at most. -/
def stringEnd (m : Memory α) : ℕ → ℕ → Option ℕ
  | 0, i => if m i = z then some i else none
  | k + 1, i => if m i = z then some i else stringEnd m k (i + 1)

/-- The first of two terminators from `i` on, passing `k` cells at most. -/
def listEnd (m : Memory α) : ℕ → ℕ → Option ℕ
  | 0, i => if m i = z ∧ m (i + 1) = z then some i else none
  | k + 1, i =>
      if m i = z ∧ m (i + 1) = z then some i else listEnd m k (i + 1)

/-- Copy from `src` down to `dst` until two terminators have been seen: memory,
and where the first of them has gone. -/
def shiftDown : ℕ → Memory α → ℕ → ℕ → Option (Memory α × ℕ)
  | 0, _, _, _ => none
  | k + 1, m, dst, src =>
      let m := m.store dst (m src)
      if m dst = z ∧ m (src + 1) = z then some (m, dst)
      else shiftDown k m (dst + 1) (src + 1)

end Memory

/-! ## Lists of strings -/

/-- The strings one behind the other, each with its terminator. -/
def flat (ss : List (List α)) : List α := ss.flatMap fun s => s ++ [z]

/-- A string that is not empty and has no terminator inside. -/
def Proper (s : List α) : Prop := s ≠ [] ∧ z ∉ s

variable {z}

@[simp] theorem flat_nil : flat z ([] : List (List α)) = [] := rfl

theorem flat_cons (s : List α) (ss : List (List α)) :
    flat z (s :: ss) = s ++ z :: flat z ss := by
  simp [flat]

theorem flat_append (ss ts : List (List α)) :
    flat z (ss ++ ts) = flat z ss ++ flat z ts := by
  simp [flat]

/-- Where the first terminator stands is fixed. -/
theorem append_cons_inj {s t rest rest' : List α} (hs : z ∉ s) (ht : z ∉ t)
    (h : s ++ z :: rest = t ++ z :: rest') : s = t ∧ rest = rest' := by
  induction s generalizing t with
  | nil =>
      cases t with
      | nil => exact ⟨rfl, (List.cons.inj h).2⟩
      | cons a t =>
          rw [← (List.cons.inj h).1] at ht
          exact absurd List.mem_cons_self ht
  | cons a s ih =>
      cases t with
      | nil =>
          rw [(List.cons.inj h).1] at hs
          exact absurd List.mem_cons_self hs
      | cons b t =>
          obtain ⟨rfl, htail⟩ := List.cons.inj h
          obtain ⟨rfl, rfl⟩ := ih (fun hmem => hs (List.mem_cons_of_mem _ hmem))
            (fun hmem => ht (List.mem_cons_of_mem _ hmem)) htail
          exact ⟨rfl, rfl⟩

/-- The last cell is a terminator, and the first time that two of them meet is
at the end of a list that has one more. -/
def Closed (z : α) : List α → Prop
  | [] => False
  | [a] => a = z
  | a :: b :: l => ¬ (a = z ∧ b = z) ∧ Closed z (b :: l)

theorem closed_append {s rest : List α} (hs : Proper z s)
    (hrest : rest = [] ∨ Closed z rest ∧ ∃ b l, rest = b :: l ∧ b ≠ z) :
    Closed z (s ++ z :: rest) := by
  obtain ⟨hne, hz⟩ := hs
  induction s with
  | nil => exact absurd rfl hne
  | cons a s ih =>
      have ha : a ≠ z := by
        rintro rfl
        exact hz List.mem_cons_self
      cases s with
      | nil =>
          refine ⟨fun h => ha h.1, ?_⟩
          rcases hrest with rfl | ⟨hclosed, b, l, rfl, hb⟩
          · exact rfl
          · exact ⟨fun h => hb h.2, hclosed⟩
      | cons b s =>
          refine ⟨fun h => ha h.1, ?_⟩
          exact ih (List.cons_ne_nil b s)
            (fun h => hz (List.mem_cons_of_mem a h))

/-- A list of proper strings is closed. -/
theorem closed_flat {ss : List (List α)} (hss : ∀ s ∈ ss, Proper z s)
    (hne : ss ≠ []) : Closed z (flat z ss) := by
  induction ss with
  | nil => exact absurd rfl hne
  | cons s ss ih =>
      rw [flat_cons]
      refine closed_append (hss s List.mem_cons_self) ?_
      cases ss with
      | nil => exact Or.inl rfl
      | cons t ss =>
          right
          have hrest : ∀ u ∈ t :: ss, Proper z u :=
            fun u hu => hss u (List.mem_cons_of_mem s hu)
          refine ⟨ih hrest (List.cons_ne_nil t ss), ?_⟩
          obtain ⟨htne, htz⟩ := hrest t List.mem_cons_self
          cases t with
          | nil => exact absurd rfl htne
          | cons b t =>
              refine ⟨b, t ++ z :: flat z ss, ?_, ?_⟩
              · rw [flat_cons, List.cons_append]
              · rintro rfl
                exact htz List.mem_cons_self

/-! ## What the loops find -/

namespace Memory

variable [DecidableEq α] {m : Memory α} {i k : ℕ}

theorem stringEnd_eq {s : List α} (hz : z ∉ s) (h : Holds m i (s ++ [z]))
    (hk : s.length ≤ k) : stringEnd z m k i = some (i + s.length) := by
  induction s generalizing i k with
  | nil =>
      have hend : m i = z := holds_singleton.mp h
      cases k with
      | zero => rw [stringEnd, if_pos hend]; rfl
      | succ k => rw [stringEnd, if_pos hend]; rfl
  | cons a s ih =>
      obtain ⟨ha, hs⟩ := holds_cons.mp h
      have hne : m i ≠ z := by
        rw [ha]
        rintro rfl
        exact hz List.mem_cons_self
      rw [List.length_cons] at hk
      cases k with
      | zero => exact absurd hk (by omega)
      | succ k =>
          rw [stringEnd, if_neg hne,
            ih (fun h => hz (List.mem_cons_of_mem a h)) hs (by omega),
            List.length_cons]
          congr 1
          omega

theorem listEnd_eq {l : List α} (hclosed : Closed z l)
    (h : Holds m i (l ++ [z])) (hk : l.length ≤ k + 1) :
    listEnd z m k i = some (i + l.length - 1) := by
  induction l generalizing i k with
  | nil => exact hclosed.elim
  | cons a l ih =>
      obtain ⟨ha, hl⟩ := holds_cons.mp h
      cases l with
      | nil =>
          have haz : a = z := hclosed
          have hboth : m i = z ∧ m (i + 1) = z :=
            ⟨ha.trans haz, holds_singleton.mp hl⟩
          cases k with
          | zero => rw [listEnd, if_pos hboth]; rfl
          | succ k => rw [listEnd, if_pos hboth]; rfl
      | cons b l =>
          obtain ⟨hnot, hrest⟩ := hclosed
          have hb : m (i + 1) = b := (holds_cons.mp hl).1
          rw [List.length_cons, List.length_cons] at hk
          cases k with
          | zero => exact absurd hk (by omega)
          | succ k =>
              rw [listEnd, if_neg (by rw [ha, hb]; exact hnot),
                ih hrest hl (by rw [List.length_cons]; omega)]
              simp only [List.length_cons]
              congr 1
              omega

/-- A list is moved down as a whole, and what is below stays. -/
theorem shiftDown_eq {l : List α} (hclosed : Closed z l) {dst src : ℕ}
    (hlt : dst < src) (h : Holds m src (l ++ [z])) (hk : l.length ≤ k) :
    ∃ m', shiftDown z k m dst src = some (m', dst + l.length - 1) ∧
      Holds m' dst l ∧ ∀ j < dst, m' j = m j := by
  induction l generalizing m k dst src with
  | nil => exact hclosed.elim
  | cons a l ih =>
      obtain ⟨ha, hl⟩ := holds_cons.mp h
      rw [List.length_cons] at hk
      cases k with
      | zero => exact absurd hk (by omega)
      | succ k =>
          have hsrc : m.store dst (m src) (src + 1) = m (src + 1) :=
            store_of_ne _ (by omega)
          rw [shiftDown]
          rw [store_same, hsrc, ha]
          cases l with
          | nil =>
              have haz : a = z := hclosed
              have hend : m (src + 1) = z := holds_singleton.mp hl
              rw [if_pos ⟨haz, hend⟩]
              refine ⟨m.store dst a, rfl, ?_, ?_⟩
              · exact holds_singleton.mpr (store_same m dst a)
              · intro j hj
                exact store_of_ne _ (by omega)
          | cons b l =>
              obtain ⟨hnot, hrest⟩ := hclosed
              have hb : m (src + 1) = b := (holds_cons.mp hl).1
              have hl' : Holds (m.store dst a) (src + 1) (b :: l ++ [z]) :=
                hl.congr fun j hge _ => store_of_ne _ (by omega)
              obtain ⟨m', hshift, hholds, hbelow⟩ :=
                ih hrest (show dst + 1 < src + 1 by omega) hl'
                  (by omega : (b :: l).length ≤ k)
              rw [hb, if_neg hnot, hshift]
              refine ⟨m', ?_, ?_, ?_⟩
              · simp only [List.length_cons]
                congr 2
                omega
              · refine holds_cons.mpr ⟨?_, hholds⟩
                rw [hbelow dst (by omega), store_same]
              · intro j hj
                rw [hbelow j (by omega), store_of_ne _ (by omega)]

end Memory

end TateFirmware.Support
