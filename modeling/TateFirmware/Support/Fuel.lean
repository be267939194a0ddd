import Mathlib.Algebra.Order.Ring.Nat
import Mathlib.Order.Basic

/-!
# Functions with fuel

A loop that need not end is a function of the fuel it is given, `none` where the
fuel runs out.  It is stable if more fuel does not change what it returns, and
what it returns is then well defined.  Stable functions compose.
-/

namespace TateFirmware.Support

variable {α β : Type*}

/-- More fuel does not change a result. -/
def Stable (f : ℕ → Option α) : Prop :=
  ∀ n a, f n = some a → f (n + 1) = some a

/-- With enough fuel the function returns `a`. -/
def Returns (f : ℕ → Option α) (a : α) : Prop := ∃ n, f n = some a

theorem Stable.of_le {f : ℕ → Option α} (hf : Stable f) {n m : ℕ} {a : α}
    (hle : n ≤ m) (h : f n = some a) : f m = some a := by
  induction hle with
  | refl => exact h
  | step _ ih => exact hf _ _ ih

theorem Returns.unique {f : ℕ → Option α} (hf : Stable f) {a b : α}
    (ha : Returns f a) (hb : Returns f b) : a = b := by
  obtain ⟨n, hn⟩ := ha
  obtain ⟨m, hm⟩ := hb
  have hn' := hf.of_le (Nat.le_max_left n m) hn
  have hm' := hf.of_le (Nat.le_max_right n m) hm
  exact Option.some.inj (hn'.symm.trans hm')

theorem stable_const (x : Option α) : Stable fun _ => x := fun _ _ h => h

@[simp] theorem returns_some {a b : α} :
    Returns (fun _ => some a) b ↔ a = b :=
  ⟨fun ⟨_, h⟩ => Option.some.inj h, fun h => ⟨0, by rw [h]⟩⟩

/-- A function that uses one unit of fuel and goes on as another one. -/
theorem returns_of_succ {f g : ℕ → Option α} (hzero : f 0 = none)
    (hsucc : ∀ n, f (n + 1) = g n) {a : α} : Returns f a ↔ Returns g a := by
  constructor
  · rintro ⟨n, h⟩
    cases n with
    | zero =>
        rw [hzero] at h
        cases h
    | succ n => exact ⟨n, (hsucc n).symm.trans h⟩
  · rintro ⟨n, h⟩
    exact ⟨n + 1, (hsucc n).trans h⟩

theorem Stable.bind {f : ℕ → Option α} {g : α → ℕ → Option β} (hf : Stable f)
    (hg : ∀ a, Stable (g a)) : Stable fun n => (f n).bind fun a => g a n := by
  intro n b h
  obtain ⟨a, ha, hb⟩ := Option.bind_eq_some_iff.mp h
  exact Option.bind_eq_some_iff.mpr ⟨a, hf n a ha, hg a n b hb⟩

/-- What two functions return one after the other. -/
theorem returns_bind {f : ℕ → Option α} {g : α → ℕ → Option β} (hf : Stable f)
    (hg : ∀ a, Stable (g a)) {b : β} :
    Returns (fun n => (f n).bind fun a => g a n) b ↔
      ∃ a, Returns f a ∧ Returns (g a) b := by
  constructor
  · rintro ⟨n, h⟩
    obtain ⟨a, ha, hb⟩ := Option.bind_eq_some_iff.mp h
    exact ⟨a, ⟨n, ha⟩, ⟨n, hb⟩⟩
  · rintro ⟨a, ⟨n, hn⟩, ⟨m, hm⟩⟩
    refine ⟨max n m, Option.bind_eq_some_iff.mpr ⟨a, ?_, ?_⟩⟩
    · exact hf.of_le (Nat.le_max_left n m) hn
    · exact (hg a).of_le (Nat.le_max_right n m) hm

theorem Stable.map {f : ℕ → Option α} (hf : Stable f) (g : α → β) :
    Stable fun n => (f n).map g := by
  intro n b h
  obtain ⟨a, ha, rfl⟩ := Option.map_eq_some_iff.mp h
  exact Option.map_eq_some_iff.mpr ⟨a, hf n a ha, rfl⟩

theorem returns_map {f : ℕ → Option α} {g : α → β} {b : β} :
    Returns (fun n => (f n).map g) b ↔ ∃ a, Returns f a ∧ g a = b := by
  constructor
  · rintro ⟨n, h⟩
    obtain ⟨a, ha, hb⟩ := Option.map_eq_some_iff.mp h
    exact ⟨a, ⟨n, ha⟩, hb⟩
  · rintro ⟨a, ⟨n, hn⟩, hb⟩
    exact ⟨n, Option.map_eq_some_iff.mpr ⟨a, hn, hb⟩⟩

/-! ## Loops -/

/-- A loop whose rounds end it with a result or leave the next state; a round may
itself run out of fuel. -/
def fuelLoop (round : α → ℕ → Option (β ⊕ α)) : ℕ → α → Option β
  | 0, _ => none
  | fuel + 1, s =>
      (round s fuel).bind fun
        | .inl b => some b
        | .inr s => fuelLoop round fuel s

attribute [grind =] fuelLoop

theorem fuelLoop_stable {round : α → ℕ → Option (β ⊕ α)}
    (hround : ∀ s, Stable (round s)) (s : α) :
    Stable fun fuel => fuelLoop round fuel s := by
  intro fuel b h
  induction fuel generalizing s with
  | zero => simp [fuelLoop] at h
  | succ fuel ih =>
      obtain ⟨next, hnext, h⟩ := Option.bind_eq_some_iff.mp h
      refine Option.bind_eq_some_iff.mpr ⟨next, hround s fuel next hnext, ?_⟩
      cases next with
      | inl c => exact h
      | inr s' => exact ih s' h

/-- A round that goes on, and what the loop returns from the next state. -/
theorem Returns.loop_next {round : α → ℕ → Option (β ⊕ α)}
    (hround : ∀ s, Stable (round s)) {s s' : α} {b : β}
    (h : Returns (round s) (.inr s'))
    (hrest : Returns (fun fuel => fuelLoop round fuel s') b) :
    Returns (fun fuel => fuelLoop round fuel s) b := by
  obtain ⟨n, hn⟩ := h
  obtain ⟨k, hk⟩ := hrest
  refine ⟨max n k + 1, ?_⟩
  have hnext := (hround s).of_le (Nat.le_max_left n k) hn
  have hloop := (fuelLoop_stable hround s').of_le (Nat.le_max_right n k) hk
  simp only [fuelLoop, hnext, Option.bind_some]
  exact hloop

/-- A round that ends the loop. -/
theorem Returns.loop_end {round : α → ℕ → Option (β ⊕ α)} {s : α} {b : β}
    (h : Returns (round s) (.inl b)) :
    Returns (fun fuel => fuelLoop round fuel s) b := by
  obtain ⟨n, hn⟩ := h
  exact ⟨n + 1, by simp only [fuelLoop, hn, Option.bind_some]⟩

/-- A loop whose rounds need no fuel. -/
theorem returns_fuelLoop {round : α → β ⊕ α} {s : α} {b : β} :
    Returns (fun fuel => fuelLoop (fun s _ => some (round s)) fuel s) b ↔
      (round s).elim (fun c => c = b) fun s' =>
        Returns (fun fuel => fuelLoop (fun s _ => some (round s)) fuel s') b := by
  constructor
  · rintro ⟨fuel, h⟩
    cases fuel with
    | zero => cases h
    | succ fuel =>
        have hloop : fuelLoop (fun s _ => some (round s)) (fuel + 1) s = some b := h
        rw [fuelLoop, Option.bind_some] at hloop
        cases hround : round s with
        | inl c =>
            rw [hround] at hloop
            exact Option.some.inj hloop
        | inr s' =>
            rw [hround] at hloop
            exact ⟨fuel, hloop⟩
  · intro h
    cases hround : round s with
    | inl c =>
        rw [hround] at h
        refine ⟨1, ?_⟩
        simp only [fuelLoop, Option.bind_some, hround]
        exact congrArg some h
    | inr s' =>
        rw [hround] at h
        obtain ⟨fuel, h⟩ := h
        refine ⟨fuel + 1, ?_⟩
        simp only [fuelLoop, Option.bind_some, hround]
        exact h

/-- What each round keeps holds when the loop ends. -/
theorem fuelLoop_inv {round : α → ℕ → Option (β ⊕ α)} {inv : α → Prop}
    {post : β → Prop}
    (hend : ∀ s fuel b, inv s → round s fuel = some (.inl b) → post b)
    (hnext : ∀ s fuel s', inv s → round s fuel = some (.inr s') → inv s')
    {fuel : ℕ} {s : α} {b : β} (hs : inv s)
    (h : fuelLoop round fuel s = some b) : post b := by
  induction fuel generalizing s with
  | zero => simp [fuelLoop] at h
  | succ fuel ih =>
      obtain ⟨next, hround, h⟩ := Option.bind_eq_some_iff.mp h
      cases next with
      | inl c =>
          rw [← Option.some.inj h]
          exact hend s fuel c hs hround
      | inr s' => exact ih (hnext s fuel s' hs hround) h

end TateFirmware.Support
