import TateFirmware.Support.Acyclic
import TateFirmware.Support.Fuel

/-!
# Loops given by a round

A round ends the loop with a result or leaves the next state.  What the loop returns is
what the round returns at a state that the rounds get to, and the loop returns at all
exactly if the rounds do not come back to a state, or to a place that a state stands
for.
-/

namespace TateFirmware.Support

open Relation

variable {α β γ : Type*} {round : α → β ⊕ α} {s s' : α} {b : β}

/-! ## Rounds with fuel -/

/-- A round that may itself need fuel goes on from one state at another. -/
def FuelNext (round : α → ℕ → Option (β ⊕ α)) (s s' : α) : Prop :=
  Returns (round s) (.inr s')

theorem fuelLoop_returns_iff {round : α → ℕ → Option (β ⊕ α)}
    (hround : ∀ s, Stable (round s)) :
    Returns (fun fuel => fuelLoop round fuel s) b ↔
      ∃ s', ReflTransGen (FuelNext round) s s' ∧ Returns (round s') (.inl b) := by
  constructor
  · rintro ⟨fuel, h⟩
    induction fuel generalizing s with
    | zero => cases h
    | succ fuel ih =>
        obtain ⟨next, hnext, hrest⟩ := Option.bind_eq_some_iff.mp h
        cases next with
        | inl c =>
            obtain rfl := Option.some.inj hrest
            exact ⟨s, .refl, fuel, hnext⟩
        | inr s₁ =>
            obtain ⟨s', hreach, hend⟩ := ih hrest
            exact ⟨s', hreach.head ⟨fuel, hnext⟩, hend⟩
  · rintro ⟨s', hreach, hend⟩
    induction hreach using ReflTransGen.head_induction_on with
    | refl => exact Returns.loop_end hend
    | head hnext _ ih => exact Returns.loop_next hround hnext ih

/-- Where the places do not come back, and each round at a place returns, the loop
ends. -/
theorem fuelLoop_ends_of_acyclic [Finite γ] {round : α → ℕ → Option (β ⊕ α)}
    (hround : ∀ s, Stable (round s)) {r : γ → γ → Prop} (place : α → γ)
    (ok : γ → Prop)
    (hnext : ∀ s s', FuelNext round s s' → r (place s) (place s'))
    (hok : ∀ s, ok (place s) → ∃ x, Returns (round s) x)
    (hacyclic : Acyclic r (place s))
    (hall : ∀ q, ReflTransGen r (place s) q → ok q) :
    ∃ b, Returns (fun fuel => fuelLoop round fuel s) b := by
  obtain ⟨n, hn⟩ := endsWithin_iff_acyclic.mpr hacyclic
  clear hacyclic
  induction n generalizing s with
  | zero => exact hn.elim
  | succ n ih =>
      obtain ⟨x, hx⟩ := hok s (hall _ .refl)
      cases x with
      | inl b => exact ⟨b, Returns.loop_end hx⟩
      | inr s' =>
          have hstep := hnext s s' hx
          obtain ⟨b, hb⟩ := ih (fun q hq => hall q (hq.head hstep)) (hn _ hstep)
          exact ⟨b, Returns.loop_next hround hx hb⟩

/-- A loop that ends does not come back to a place, and each of its rounds returns. -/
theorem acyclic_of_fuelLoop_ends [Finite γ] {round : α → ℕ → Option (β ⊕ α)}
    (hround : ∀ s, Stable (round s)) {r : γ → γ → Prop} (place : α → γ)
    (ok : γ → Prop)
    (hnext : ∀ s q, r (place s) q → ∃ s', FuelNext round s s' ∧ place s' = q)
    (hok : ∀ s x, Returns (round s) x → ok (place s))
    (hends : Returns (fun fuel => fuelLoop round fuel s) b) :
    Acyclic r (place s) ∧ ∀ q, ReflTransGen r (place s) q → ok q := by
  obtain ⟨fuel, h⟩ := hends
  suffices hsuff : EndsWithin r fuel (place s) ∧
      ∀ q, ReflTransGen r (place s) q → ok q by
    exact ⟨endsWithin_iff_acyclic.mp ⟨fuel, hsuff.1⟩, hsuff.2⟩
  induction fuel generalizing s with
  | zero => cases h
  | succ fuel ih =>
      obtain ⟨next, hfound, hrest⟩ := Option.bind_eq_some_iff.mp h
      have hreturns : Returns (round s) next := ⟨fuel, hfound⟩
      -- the one place that the round goes on at
      have hafter : ∀ q, r (place s) q → EndsWithin r fuel q ∧
          ∀ q', ReflTransGen r q q' → ok q' := by
        intro q hq
        obtain ⟨s', hs', rfl⟩ := hnext s q hq
        obtain rfl := hreturns.unique (hround s) hs'
        exact ih hrest
      refine ⟨fun q hq => (hafter q hq).1, fun q hreach => ?_⟩
      rcases ReflTransGen.cases_head hreach with rfl | ⟨c, hc, hcq⟩
      · exact hok s next hreturns
      · exact (hafter c hc).2 q hcq

/-! ## Rounds without fuel -/

/-- The loop over a round. -/
def roundLoop (round : α → β ⊕ α) (fuel : ℕ) (s : α) : Option β :=
  fuelLoop (fun s _ => some (round s)) fuel s

/-- A round that goes on. -/
def RoundNext (round : α → β ⊕ α) (s s' : α) : Prop := round s = .inr s'

theorem roundLoop_succ (round : α → β ⊕ α) (fuel : ℕ) (s : α) :
    roundLoop round (fuel + 1) s = (round s).elim some (roundLoop round fuel) := by
  simp only [roundLoop, fuelLoop, Option.bind_some]
  cases round s <;> rfl

theorem roundLoop_stable (round : α → β ⊕ α) (s : α) :
    Stable fun fuel => roundLoop round fuel s :=
  fuelLoop_stable (fun s => stable_const (some (round s))) s

theorem roundLoop_of_next {fuel : ℕ} (h : RoundNext round s s') :
    roundLoop round (fuel + 1) s = roundLoop round fuel s' := by
  rw [roundLoop_succ, h]
  rfl

theorem roundLoop_returns_iff :
    Returns (fun fuel => roundLoop round fuel s) b ↔
      ∃ s', ReflTransGen (RoundNext round) s s' ∧ round s' = .inl b := by
  have hnext : FuelNext (fun s _ => some (round s)) = RoundNext round := by
    funext s s'
    exact propext returns_some
  refine (fuelLoop_returns_iff fun s => stable_const (some (round s))).trans ?_
  simp only [hnext, returns_some]

/-- Rounds that keep `inv` and make `f` smaller end, with what the last one leaves. -/
theorem roundLoop_ends_of_measure {inv : α → Prop} {post : β → Prop} (f : α → ℕ)
    (hend : ∀ s b, inv s → round s = .inl b → post b)
    (hnext : ∀ s s', inv s → RoundNext round s s' → inv s' ∧ f s' < f s) (hs : inv s) :
    ∃ b, Returns (fun fuel => roundLoop round fuel s) b ∧ post b := by
  induction hn : f s using Nat.strong_induction_on generalizing s with
  | _ n ih =>
      cases hround : round s with
      | inl b =>
          exact ⟨b, roundLoop_returns_iff.mpr ⟨s, .refl, hround⟩, hend s b hs hround⟩
      | inr s' =>
          obtain ⟨hs', hless⟩ := hnext s s' hs hround
          obtain ⟨b, ⟨fuel, hb⟩, hpost⟩ := ih _ (hn ▸ hless) hs' rfl
          exact ⟨b, ⟨fuel + 1, (roundLoop_of_next hround).trans hb⟩, hpost⟩

/-- The loop returns with so many rounds exactly if every walk ends within them. -/
theorem roundLoop_isSome_iff (fuel : ℕ) (s : α) :
    (roundLoop round fuel s).isSome ↔ EndsWithin (RoundNext round) fuel s := by
  induction fuel generalizing s with
  | zero => exact iff_of_false nofun id
  | succ fuel ih =>
      cases hround : round s with
      | inl b =>
          rw [roundLoop_succ, hround]
          exact iff_of_true rfl fun s' hnext => nomatch hround.symm.trans hnext
      | inr s' =>
          rw [roundLoop_of_next hround, ih]
          constructor
          · intro h s₁ hnext
            obtain rfl := Sum.inr.inj (hround.symm.trans hnext)
            exact h
          · exact fun h => h s' hround

theorem roundLoop_ends_iff :
    (∃ b, Returns (fun fuel => roundLoop round fuel s) b) ↔
      ∃ n, EndsWithin (RoundNext round) n s := by
  simp only [← roundLoop_isSome_iff, Option.isSome_iff_exists]
  exact exists_comm

/-- A relation on places that the rounds follow. -/
theorem endsWithin_place_iff {place : α → γ} {r : γ → γ → Prop}
    (hplace : ∀ s q, r (place s) q ↔ ∃ s', RoundNext round s s' ∧ place s' = q)
    (n : ℕ) (s : α) : EndsWithin (RoundNext round) n s ↔ EndsWithin r n (place s) := by
  induction n generalizing s with
  | zero => exact Iff.rfl
  | succ n ih =>
      constructor
      · intro h q hq
        obtain ⟨s', hnext, rfl⟩ := (hplace s q).mp hq
        exact (ih s').mp (h s' hnext)
      · intro h s' hnext
        exact (ih s').mpr (h _ ((hplace s _).mpr ⟨s', hnext, rfl⟩))

/-- A loop over finitely many places ends if and only if it does not come back to
one. -/
theorem roundLoop_ends_iff_acyclic [Finite γ] (place : α → γ) {r : γ → γ → Prop}
    (hplace : ∀ s q, r (place s) q ↔ ∃ s', RoundNext round s s' ∧ place s' = q) :
    (∃ b, Returns (fun fuel => roundLoop round fuel s) b) ↔ Acyclic r (place s) := by
  rw [roundLoop_ends_iff, ← endsWithin_iff_acyclic]
  exact exists_congr fun n => endsWithin_place_iff hplace n s

/-- It ends, and not with a certain result, if no state it gets to ends it so. -/
theorem roundLoop_avoids_iff [Finite α] {bad : β} :
    (∃ b, Returns (fun fuel => roundLoop round fuel s) b ∧ b ≠ bad) ↔
      Acyclic (RoundNext round) s ∧
        ∀ s', ReflTransGen (RoundNext round) s s' → round s' ≠ .inl bad := by
  rw [← endsWithin_iff_acyclic, ← roundLoop_ends_iff]
  constructor
  · rintro ⟨b, hb, hne⟩
    refine ⟨⟨b, hb⟩, fun s' hreach hbad => hne ?_⟩
    exact hb.unique (roundLoop_stable round s)
      (roundLoop_returns_iff.mpr ⟨s', hreach, hbad⟩)
  · rintro ⟨⟨b, hb⟩, havoids⟩
    obtain ⟨s', hreach, hend⟩ := roundLoop_returns_iff.mp hb
    exact ⟨b, hb, fun hbad => havoids s' hreach (hbad ▸ hend)⟩

/-- Two computations, the second one with a result other than `bad`. -/
theorem returns_bind_avoids {f : ℕ → Option α} {g : α → ℕ → Option β} (hf : Stable f)
    (hg : ∀ a, Stable (g a)) {bad : β} :
    (∃ b, Returns (fun n => (f n).bind fun a => g a n) b ∧ b ≠ bad) ↔
      ∃ a, Returns f a ∧ ∃ b, Returns (g a) b ∧ b ≠ bad := by
  simp only [returns_bind hf hg]
  constructor
  · rintro ⟨b, ⟨a, ha, hb⟩, hne⟩
    exact ⟨a, ha, b, hb, hne⟩
  · rintro ⟨a, ha, b, hb, hne⟩
    exact ⟨b, ⟨a, ha, hb⟩, hne⟩

end TateFirmware.Support
