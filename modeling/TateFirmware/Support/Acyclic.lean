import Mathlib.Algebra.Order.Ring.Nat
import Mathlib.Data.Fintype.Card
import Mathlib.Data.Set.Finite.Lattice
import Mathlib.Logic.Relation
import Mathlib.Order.Bounds.Basic

/-!
# Walks that end

A walk goes from a place to every place a relation leads to.  `EndsWithin` says
that it ends within a number of steps.  On finitely many places it ends exactly
if no place it gets to leads back to itself.
-/

namespace TateFirmware.Support

open Relation

variable {α : Type*} {r : α → α → Prop} {a b : α}

/-- Every walk from `a` ends within `n` steps. -/
def EndsWithin (r : α → α → Prop) : ℕ → α → Prop
  | 0, _ => False
  | n + 1, a => ∀ b, r a b → EndsWithin r n b

/-- No place that `a` leads to leads back to itself. -/
def Acyclic (r : α → α → Prop) (a : α) : Prop :=
  ∀ b, ReflTransGen r a b → ¬ TransGen r b b

theorem Acyclic.step (h : Acyclic r a) (hab : r a b) : Acyclic r b :=
  fun c hbc => h c (hbc.head hab)

/-- A measure that gets smaller on the way. -/
theorem acyclic_of_measure (f : α → ℕ)
    (h : ∀ b c, ReflTransGen r a b → r b c → f c < f b) : Acyclic r a := by
  intro b hab hcycle
  have hdown : ∀ c, TransGen r b c → f c < f b := by
    intro c hbc
    induction hbc with
    | single hstep => exact h b _ hab hstep
    | tail hbc hstep ih => exact (h _ _ (hab.trans hbc.to_reflTransGen) hstep).trans ih
  exact Nat.lt_irrefl _ (hdown b hcycle)

/-- A walk whose steps are each some steps of a walk that does not come back. -/
theorem Acyclic.of_transGen {β : Type*} {r' : β → β → Prop} (f : β → α)
    (hstep : ∀ b c, r' b c → TransGen r (f b) (f c)) {b : β} (h : Acyclic r (f b)) :
    Acyclic r' b := by
  intro c hbc hcycle
  refine h (f c) ?_ (hcycle.lift' f hstep)
  rcases reflTransGen_iff_eq_or_transGen.mp hbc with rfl | hbc
  · exact .refl
  · exact (hbc.lift' f hstep).to_reflTransGen

theorem EndsWithin.succ {n : ℕ} (h : EndsWithin r n a) : EndsWithin r (n + 1) a := by
  induction n generalizing a with
  | zero => exact h.elim
  | succ n ih => exact fun b hab => ih (h b hab)

theorem EndsWithin.of_le {n m : ℕ} (hle : n ≤ m) (h : EndsWithin r n a) :
    EndsWithin r m a := by
  induction hle with
  | refl => exact h
  | step _ ih => exact ih.succ

theorem EndsWithin.reach {n : ℕ} (h : EndsWithin r n a) (hab : ReflTransGen r a b) :
    ∃ m, EndsWithin r m b := by
  induction hab with
  | refl => exact ⟨n, h⟩
  | tail _ hstep ih =>
      obtain ⟨m, hm⟩ := ih
      cases m with
      | zero => exact hm.elim
      | succ m => exact ⟨m, hm _ hstep⟩

/-- A walk that ends does not come back. -/
theorem EndsWithin.not_cycle {n : ℕ} (h : EndsWithin r n a) : ¬ TransGen r a a := by
  induction n generalizing a with
  | zero => exact h.elim
  | succ n ih =>
      intro hcycle
      obtain ⟨b, hab, hba⟩ := TransGen.head'_iff.mp hcycle
      exact ih (h b hab) (TransGen.tail' hba hab)

/-- Where no walk comes back, the places behind it are well-founded. -/
theorem acc_of_acyclic [Finite α] (h : Acyclic r a) : Acc (fun b a => r a b) a := by
  let s : α → α → Prop := fun b c => ReflTransGen r a c ∧ TransGen r c b
  have htrans : IsTrans α s :=
    ⟨fun _ _ _ hxy hyz => ⟨hyz.1, hyz.2.trans hxy.2⟩⟩
  have hirrefl : Std.Irrefl s := ⟨fun b hb => h b hb.1 hb.2⟩
  have hwf : WellFounded s := Finite.wellFounded_of_trans_of_irrefl s
  have hreach : ∀ b, Acc s b → ReflTransGen r a b → Acc (fun b a => r a b) b := by
    intro b hb
    induction hb with
    | intro b _ ih =>
        intro hab
        exact Acc.intro b fun c hbc => ih c ⟨hab, .single hbc⟩ (hab.tail hbc)
  exact hreach a (hwf.apply a) .refl

/-- A walk whose places are well-founded does not come back. -/
theorem acyclic_of_acc (h : Acc (fun b a => r a b) a) : Acyclic r a := by
  induction h with
  | intro a _ ih =>
      intro b hab hcycle
      rcases ReflTransGen.cases_head hab with rfl | ⟨c, hac, hcb⟩
      · obtain ⟨c, hac, hca⟩ := TransGen.head'_iff.mp hcycle
        exact ih c hac c .refl (TransGen.tail' hca hac)
      · exact ih c hac b hcb hcycle

/-- A walk that goes on at every place it gets to comes back. -/
theorem not_acyclic_of_goesOn [Finite α]
    (h : ∀ b, ReflTransGen r a b → ∃ c, r b c) : ¬ Acyclic r a := by
  intro hacyclic
  have hacc := acc_of_acyclic hacyclic
  induction hacc with
  | intro a _ ih =>
      obtain ⟨c, hac⟩ := h a .refl
      exact ih c hac (fun b hcb => h b (hcb.head hac)) (hacyclic.step hac)

/-- On finitely many places a walk ends if and only if it does not come back. -/
theorem endsWithin_iff_acyclic [Finite α] :
    (∃ n, EndsWithin r n a) ↔ Acyclic r a := by
  constructor
  · rintro ⟨n, h⟩ b hab
    obtain ⟨m, hm⟩ := h.reach hab
    exact hm.not_cycle
  · intro h
    induction acc_of_acyclic h with
    | intro a _ ih =>
        have hends : ∀ b, ∃ n, r a b → EndsWithin r n b := by
          intro b
          by_cases hab : r a b
          · obtain ⟨n, hn⟩ := ih b hab (h.step hab)
            exact ⟨n, fun _ => hn⟩
          · exact ⟨0, fun hab' => absurd hab' hab⟩
        choose n hn using hends
        obtain ⟨m, hm⟩ := (Set.finite_range n).bddAbove
        exact ⟨m + 1, fun b hab => (hn b hab).of_le (hm (Set.mem_range_self b))⟩

end TateFirmware.Support
