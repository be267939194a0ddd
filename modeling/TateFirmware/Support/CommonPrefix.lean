import Mathlib.Algebra.Order.Ring.Nat
import Mathlib.Data.List.Basic
import Mathlib.Data.List.Infix

/-!
# The common prefix of lists

The longest prefix that a list shares with other lists is found by shortening it,
one list after the other, to where it agrees with that list.
-/

namespace TateFirmware.Support

variable {α : Type*} [DecidableEq α]

/-- The number of elements in front in which two lists agree. -/
def agreement : List α → List α → ℕ
  | a :: as, b :: bs => if a = b then agreement as bs + 1 else 0
  | _, _ => 0

theorem agreement_le (as bs : List α) : agreement as bs ≤ as.length := by
  induction as generalizing bs with
  | nil => exact Nat.le_refl 0
  | cons a as ih =>
      cases bs with
      | nil => exact Nat.zero_le _
      | cons b bs =>
          rw [agreement]
          split
          · exact Nat.succ_le_succ (ih bs)
          · exact Nat.zero_le _

/-- What both lists start with. -/
theorem prefix_take_agreement {xs as bs : List α} :
    xs <+: as.take (agreement as bs) ↔ xs <+: as ∧ xs <+: bs := by
  induction as generalizing xs bs with
  | nil =>
      rw [List.take_nil, List.prefix_nil]
      constructor
      · rintro rfl
        exact ⟨rfl, List.nil_prefix⟩
      · exact fun h => h.1
  | cons a as ih =>
      cases bs with
      | nil =>
          have hnone : agreement (a :: as) [] = 0 := rfl
          rw [hnone, List.take_zero, List.prefix_nil]
          constructor
          · rintro rfl
            exact ⟨List.nil_prefix, rfl⟩
          · exact fun h => h.2
      | cons b bs =>
          cases xs with
          | nil => simp
          | cons x xs =>
              rw [agreement]
              split
              · rename_i hab
                rw [List.take_succ_cons, List.cons_prefix_cons, List.cons_prefix_cons,
                  List.cons_prefix_cons, ih, hab]
                tauto
              · rename_i hab
                rw [List.take_zero, List.cons_prefix_cons, List.cons_prefix_cons]
                refine iff_of_false (by simp) ?_
                rintro ⟨⟨hxa, -⟩, ⟨hxb, -⟩⟩
                exact hab (hxa.symm.trans hxb)

/-- The length of the prefix that a list shares with others, of at most `len`
elements. -/
def sharedLength (anchor : List α) (others : List (List α)) (len : ℕ) : ℕ :=
  others.foldl (fun len other => agreement (anchor.take len) other) len

theorem sharedLength_le (anchor : List α) (others : List (List α)) (len : ℕ) :
    sharedLength anchor others len ≤ len := by
  induction others generalizing len with
  | nil => exact Nat.le_refl len
  | cons other others ih =>
      have hle : agreement (anchor.take len) other ≤ len :=
        (agreement_le _ _).trans (List.length_take_le _ _)
      exact (ih _).trans hle

theorem prefix_take_sharedLength {xs anchor : List α} {others : List (List α)}
    {len : ℕ} :
    xs <+: anchor.take (sharedLength anchor others len) ↔
      xs <+: anchor.take len ∧ ∀ other ∈ others, xs <+: other := by
  induction others generalizing len with
  | nil => simp [sharedLength]
  | cons other others ih =>
      have hle : agreement (anchor.take len) other ≤ len :=
        (agreement_le _ _).trans (List.length_take_le _ _)
      have htake : anchor.take (agreement (anchor.take len) other) =
          (anchor.take len).take (agreement (anchor.take len) other) := by
        rw [List.take_take, Nat.min_eq_left hle]
      have hstep : sharedLength anchor (other :: others) len =
          sharedLength anchor others (agreement (anchor.take len) other) := rfl
      rw [hstep, ih, htake, prefix_take_agreement, List.forall_mem_cons, and_assoc]

end TateFirmware.Support
