import Mathlib.Algebra.Order.Ring.Nat
import Mathlib.Data.List.TakeWhile

/-!
# Fields of a string

The parts of a list between separators, without the empty ones.  A scanner takes them
one at a time: it skips separators, takes what stands before the next one and goes on
behind it.
-/

namespace TateFirmware.Support

variable {α : Type*} (p : α → Bool)

/-- The parts that are not empty. -/
def fields (l : List α) : List (List α) := (l.splitOnP p).filter (· ≠ [])

@[simp] theorem fields_nil : fields p ([] : List α) = [] := rfl

theorem fields_separator {c : α} (hc : p c = true) (l : List α) :
    fields p (c :: l) = fields p l := by
  rw [fields, List.splitOnP_cons_eq_if_modifyHead, if_pos hc,
    List.filter_cons_of_neg (by simp)]
  rfl

theorem fields_dropWhile (l : List α) : fields p (l.dropWhile p) = fields p l := by
  induction l with
  | nil => rfl
  | cons c l ih =>
      by_cases hc : p c = true
      · rw [List.dropWhile_cons_of_pos hc, ih, fields_separator p hc]
      · rw [List.dropWhile_cons_of_neg hc]

theorem fields_field {field : List α} (hne : field ≠ [])
    (hfield : ∀ c ∈ field, p c = false) : fields p field = [field] := by
  rw [fields, List.splitOnP_eq_singleton hfield,
    List.filter_cons_of_pos (by simpa using hne)]
  rfl

theorem fields_cons {field : List α} {c : α} (hne : field ≠ [])
    (hfield : ∀ c ∈ field, p c = false) (hc : p c = true) (l : List α) :
    fields p (field ++ c :: l) = field :: fields p l := by
  rw [fields, List.splitOnP_append_cons_of_forall_mem hfield c hc,
    List.filter_cons_of_pos (by simpa using hne)]
  rfl

/-- The first field, where the list does not start with a separator. -/
theorem fields_of_head {c : α} (hc : p c = false) (l : List α) :
    fields p (c :: l) = (c :: l).takeWhile (!p ·) ::
      fields p ((c :: l).dropWhile (!p ·)).tail := by
  have hsplit := List.takeWhile_append_dropWhile (p := (!p ·)) (l := c :: l)
  have hne : (c :: l).takeWhile (!p ·) ≠ [] := by simp [hc]
  have hfield : ∀ x ∈ (c :: l).takeWhile (!p ·), p x = false := by
    intro x hx
    simpa using List.mem_takeWhile_imp hx
  have hstop := List.head?_dropWhile_not (!p ·) (c :: l)
  generalize (c :: l).takeWhile (!p ·) = field at *
  generalize (c :: l).dropWhile (!p ·) = rest at *
  rw [← hsplit]
  cases rest with
  | nil =>
      rw [List.append_nil, fields_field p hne hfield]
      rfl
  | cons d rest => exact fields_cons p hne hfield (by simpa using hstop) rest

/-- There is no field among separators only. -/
theorem fields_eq_nil_iff (l : List α) : fields p l = [] ↔ ∀ c ∈ l, p c = true := by
  induction l with
  | nil => simp
  | cons c l ih =>
      cases hc : p c with
      | true => rw [fields_separator p hc, ih, List.forall_mem_cons, hc, eq_self, true_and]
      | false =>
          rw [fields_of_head p hc, List.forall_mem_cons, hc]
          exact iff_of_false nofun fun h => nomatch h.1

end TateFirmware.Support
