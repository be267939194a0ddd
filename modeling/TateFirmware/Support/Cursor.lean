import TateFirmware.Support.Patch

/-!
# Editing a line at a cursor

A line that is edited is two lists: what stands before the cursor, the nearest
element first, and what stands after it.  `Shows` says that an array holds the line
up to an end mark, with the cursor at an index; each operation of the editor is
carried out on the array by moving the tail and storing one element.
-/

namespace TateFirmware.Support

variable {α : Type*}

/-- A line with a cursor. -/
structure Cursor (α : Type*) where
  before : List α
  after : List α
deriving DecidableEq

namespace Cursor

/-- The whole line. -/
def text (c : Cursor α) : List α := c.before.reverse ++ c.after

def empty : Cursor α := ⟨[], []⟩

def insert (a : α) (c : Cursor α) : Cursor α := ⟨a :: c.before, c.after⟩

def overwrite (a : α) (c : Cursor α) : Cursor α := ⟨a :: c.before, c.after.tail⟩

def left : Cursor α → Cursor α
  | ⟨[], after⟩ => ⟨[], after⟩
  | ⟨a :: before, after⟩ => ⟨before, a :: after⟩

def right : Cursor α → Cursor α
  | ⟨before, []⟩ => ⟨before, []⟩
  | ⟨before, a :: after⟩ => ⟨a :: before, after⟩

def home (c : Cursor α) : Cursor α := ⟨[], c.text⟩

def toEnd (c : Cursor α) : Cursor α := ⟨c.text.reverse, []⟩

def delete (c : Cursor α) : Cursor α := ⟨c.before, c.after.tail⟩

def backspace (c : Cursor α) : Cursor α := ⟨c.before.tail, c.after⟩

def killToEnd (c : Cursor α) : Cursor α := ⟨c.before, []⟩

/-- A given line with the cursor at its end. -/
def atEnd (l : List α) : Cursor α := ⟨l.reverse, []⟩

theorem text_length (c : Cursor α) :
    c.text.length = c.before.length + c.after.length := by
  rw [text, List.length_append, List.length_reverse]

theorem text_insert_length (a : α) (c : Cursor α) :
    (c.insert a).text.length = c.text.length + 1 := by
  simp only [text_length, insert, List.length_cons]
  omega

theorem text_overwrite_length (a : α) (c : Cursor α) :
    (c.overwrite a).text.length = max c.text.length (c.before.length + 1) := by
  simp only [text_length, overwrite, List.length_cons, List.length_tail]
  omega

theorem text_left (c : Cursor α) : c.left.text = c.text := by
  rcases c with ⟨_ | ⟨a, before⟩, after⟩
  · rfl
  · simp [left, text]

theorem text_right (c : Cursor α) : c.right.text = c.text := by
  rcases c with ⟨before, _ | ⟨a, after⟩⟩
  · rfl
  · simp [right, text]

theorem text_toEnd (c : Cursor α) : c.toEnd.text = c.text := by
  simp [toEnd, text]

theorem text_atEnd (l : List α) : (atEnd l).text = l := by
  simp [atEnd, text]

end Cursor

/-- The first `eol` cells of the array are the line, and the cursor is at `num`. -/
structure Shows (buf : List α) (num eol : ℕ) (c : Cursor α) : Prop where
  text_eq : buf.take eol = c.text
  num_eq : num = c.before.length
  eol_eq : eol = c.text.length

namespace Shows

variable {buf : List α} {num eol : ℕ} {c : Cursor α}

theorem eol_le (h : Shows buf num eol c) : eol ≤ buf.length := by
  have hlen := congrArg List.length h.text_eq
  rw [← h.eol_eq, List.length_take] at hlen
  omega

theorem num_le (h : Shows buf num eol c) : num ≤ eol := by
  rw [h.num_eq, h.eol_eq, Cursor.text_length]
  exact Nat.le_add_right _ _

theorem after_length (h : Shows buf num eol c) : c.after.length = eol - num := by
  rw [h.num_eq, h.eol_eq, Cursor.text_length]
  exact (Nat.add_sub_cancel_left _ _).symm

/-- The array is the line and something behind it. -/
theorem split (h : Shows buf num eol c) :
    buf = c.before.reverse ++ (c.after ++ buf.drop eol) := by
  have htext := h.text_eq
  rw [Cursor.text] at htext
  rw [← List.append_assoc, ← htext, List.take_append_drop]

theorem of_split {rest : List α} (hbuf : buf = c.before.reverse ++ (c.after ++ rest)) :
    Shows buf c.before.length c.text.length c := by
  rw [← List.append_assoc] at hbuf
  refine ⟨?_, rfl, rfl⟩
  rw [hbuf, Cursor.text]
  exact List.take_left

theorem take_num (h : Shows buf num eol c) : buf.take num = c.before.reverse := by
  have hlen : num = c.before.reverse.length := by
    rw [List.length_reverse]
    exact h.num_eq
  rw [h.split, hlen]
  exact List.take_left

theorem drop_num (h : Shows buf num eol c) :
    buf.drop num = c.after ++ buf.drop eol := by
  have hlen : num = c.before.reverse.length := by
    rw [List.length_reverse]
    exact h.num_eq
  conv_lhs => rw [h.split, hlen]
  exact List.drop_left

theorem after_eq (h : Shows buf num eol c) :
    (buf.drop num).take (eol - num) = c.after := by
  rw [h.drop_num, ← h.after_length]
  exact List.take_left

theorem insert_length (h : Shows buf num eol c) (hroom : eol < buf.length) (a : α) :
    (patch (memmove buf (num + 1) num (eol - num)) num [a]).length = buf.length := by
  have hnum := h.num_le
  have hmove : (memmove buf (num + 1) num (eol - num)).length = buf.length :=
    memmove_length (by omega)
  rw [patch_length_of_le, hmove]
  rw [hmove, List.length_singleton]
  omega

/-- Moving the tail up and storing in the gap. -/
theorem insert (h : Shows buf num eol c) (hroom : eol < buf.length) (a : α) :
    Shows (patch (memmove buf (num + 1) num (eol - num)) num [a]) (num + 1) (eol + 1)
      (c.insert a) := by
  have hnum := h.num_le
  have heq : patch (memmove buf (num + 1) num (eol - num)) num [a] =
      (c.insert a).before.reverse ++ ((c.insert a).after ++
        buf.drop (num + 1 + c.after.length)) := by
    rw [patch, List.length_singleton, memmove, take_patch (by omega) (by omega),
      drop_patch (by omega), h.take_num, h.after_eq, Cursor.insert,
      List.reverse_cons]
  have hshows := of_split heq
  rw [Cursor.text_insert_length, ← h.eol_eq] at hshows
  rw [h.num_eq] at hshows ⊢
  exact hshows

theorem drop_num_succ (h : Shows buf num eol c) :
    ∃ rest, buf.drop (num + 1) = c.after.tail ++ rest := by
  rw [← List.drop_drop, h.drop_num]
  cases c.after with
  | nil => exact ⟨_, rfl⟩
  | cons a after => exact ⟨_, rfl⟩

/-- Storing over the element behind the cursor, or behind the line. -/
theorem overwrite (h : Shows buf num eol c) (a : α) :
    Shows (patch buf num [a]) (num + 1) (max eol (num + 1)) (c.overwrite a) := by
  obtain ⟨rest, hrest⟩ := h.drop_num_succ
  have heq : patch buf num [a] =
      (c.overwrite a).before.reverse ++ ((c.overwrite a).after ++ rest) := by
    rw [patch, h.take_num, List.length_singleton, hrest, Cursor.overwrite,
      List.reverse_cons]
  have hshows := of_split heq
  rw [Cursor.text_overwrite_length, ← h.eol_eq, ← h.num_eq] at hshows
  rw [Cursor.overwrite, List.length_cons, ← h.num_eq] at hshows
  exact hshows

theorem left (h : Shows buf num eol c) : Shows buf (num - 1) eol c.left := by
  refine ⟨h.text_eq.trans c.text_left.symm, ?_, ?_⟩
  · rw [h.num_eq]
    rcases c with ⟨_ | ⟨a, before⟩, after⟩
    · rfl
    · rfl
  · rw [c.text_left]
    exact h.eol_eq

theorem right (h : Shows buf num eol c) (hnum : num < eol) :
    Shows buf (num + 1) eol c.right := by
  refine ⟨h.text_eq.trans c.text_right.symm, ?_, ?_⟩
  · have hafter := h.after_length
    rw [h.num_eq]
    rcases c with ⟨before, _ | ⟨a, after⟩⟩
    · rw [List.length_nil] at hafter
      omega
    · rfl
  · rw [c.text_right]
    exact h.eol_eq

theorem after_eq_nil (h : Shows buf num eol c) (hnum : ¬ num < eol) :
    c.after = [] := by
  apply List.eq_nil_of_length_eq_zero
  rw [h.after_length]
  omega

theorem before_eq_nil (h : Shows buf num eol c) (hnum : ¬ num ≠ 0) :
    c.before = [] := by
  apply List.eq_nil_of_length_eq_zero
  rw [← h.num_eq]
  exact not_not.mp hnum

/-- At the end of the line there is nothing to move over or to delete. -/
theorem right_of_end (h : Shows buf num eol c) (hnum : ¬ num < eol) :
    c.right = c ∧ c.delete = c := by
  obtain ⟨before, after⟩ := c
  obtain rfl : after = [] := h.after_eq_nil hnum
  exact ⟨rfl, rfl⟩

theorem left_of_start (h : Shows buf num eol c) (hnum : ¬ num ≠ 0) :
    c.left = c ∧ c.backspace = c := by
  obtain ⟨before, after⟩ := c
  obtain rfl : before = [] := h.before_eq_nil hnum
  exact ⟨rfl, rfl⟩

theorem home (h : Shows buf num eol c) : Shows buf 0 eol c.home :=
  ⟨h.text_eq, rfl, h.eol_eq⟩

theorem toEnd (h : Shows buf num eol c) : Shows buf eol eol c.toEnd := by
  refine ⟨h.text_eq.trans c.text_toEnd.symm, ?_, ?_⟩
  · rw [Cursor.toEnd, List.length_reverse]
    exact h.eol_eq
  · rw [c.text_toEnd]
    exact h.eol_eq

/-- Moving the tail down over the element behind the cursor. -/
theorem delete (h : Shows buf num eol c) (hnum : num < eol) :
    Shows (memmove buf num (num + 1) (eol - num - 1)) num (eol - 1) c.delete := by
  obtain ⟨rest, hrest⟩ := h.drop_num_succ
  have hafter := h.after_length
  have htail : c.after.tail.length = eol - num - 1 := by
    rw [List.length_tail, hafter]
  have hmove : (buf.drop (num + 1)).take (eol - num - 1) = c.after.tail := by
    rw [hrest, ← htail]
    exact List.take_left
  have heq : memmove buf num (num + 1) (eol - num - 1) =
      c.delete.before.reverse ++ (c.delete.after ++
        buf.drop (num + c.after.tail.length)) := by
    rw [memmove, hmove, patch, h.take_num, Cursor.delete, List.append_assoc]
  have hshows := of_split heq
  have hlen : c.delete.text.length = eol - 1 := by
    rw [Cursor.text_length, Cursor.delete, htail, ← h.num_eq]
    omega
  rw [hlen, Cursor.delete, ← h.num_eq] at hshows
  exact hshows

/-- Moving the tail down over the element in front of the cursor. -/
theorem backspace (h : Shows buf num eol c) (hnum : 0 < num) :
    Shows (memmove buf (num - 1) num (eol - num)) (num - 1) (eol - 1) c.backspace := by
  have hnumle := h.num_le
  have htake : buf.take (num - 1) = c.before.tail.reverse := by
    rw [← Nat.min_eq_left (Nat.sub_le num 1), ← List.take_take, h.take_num,
      List.take_reverse, ← h.num_eq, Nat.sub_sub_self hnum, List.drop_one]
  have heq : memmove buf (num - 1) num (eol - num) =
      c.backspace.before.reverse ++ (c.backspace.after ++
        buf.drop (num - 1 + c.after.length)) := by
    rw [memmove, h.after_eq, patch, htake, Cursor.backspace, List.append_assoc]
  have hshows := of_split heq
  have hlen : c.backspace.text.length = eol - 1 := by
    rw [Cursor.text_length, Cursor.backspace, List.length_tail, ← h.num_eq,
      h.after_length]
    omega
  rw [hlen, Cursor.backspace, List.length_tail, ← h.num_eq] at hshows
  exact hshows

/-- The line cut off at the cursor. -/
theorem killToEnd (h : Shows buf num eol c) : Shows buf num num c.killToEnd := by
  refine ⟨?_, h.num_eq, ?_⟩
  · rw [h.take_num, Cursor.killToEnd, Cursor.text, List.append_nil]
  · rw [Cursor.text_length, Cursor.killToEnd]
    exact h.num_eq

theorem clear (buf : List α) : Shows buf 0 0 (Cursor.empty : Cursor α) :=
  ⟨List.take_zero, rfl, rfl⟩

/-- Another line copied over the array. -/
theorem replace (buf : List α) (l back : List α) :
    Shows (patch buf 0 (l ++ back)) 0 l.length ⟨[], l⟩ := by
  refine ⟨?_, rfl, rfl⟩
  rw [patch, List.take_zero, List.nil_append, List.append_assoc]
  exact List.take_left

end Shows

end TateFirmware.Support
