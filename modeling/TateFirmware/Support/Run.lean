import Mathlib.Algebra.Order.Ring.Nat
import Mathlib.Data.List.Basic

/-!
# Runs of reactive systems

A reactive system takes one input at a time, moves to a new state and emits a
list of outputs.  This module runs such a system over a list of inputs and
states the induction rules used for every invariant of the development: an
invariant of all steps is an invariant of all runs, and a property that only
holds of steps meeting a side condition is a property of the runs all of whose
steps meet it.
-/

namespace TateFirmware.Support

variable {σ ι ο : Type*}

/-- Feed a list of inputs to a reactive system, collecting the outputs. -/
def run (step : σ → ι → σ × List ο) : σ → List ι → σ × List ο
  | s, [] => (s, [])
  | s, i :: is =>
      ((run step (step s i).1 is).1, (step s i).2 ++ (run step (step s i).1 is).2)

@[simp] theorem run_nil (step : σ → ι → σ × List ο) (s : σ) :
    run step s [] = (s, []) := rfl

@[simp] theorem run_cons (step : σ → ι → σ × List ο) (s : σ) (i : ι)
    (is : List ι) :
    run step s (i :: is) =
      ((run step (step s i).1 is).1,
        (step s i).2 ++ (run step (step s i).1 is).2) := rfl

theorem run_append (step : σ → ι → σ × List ο) (s : σ) (is js : List ι) :
    run step s (is ++ js) =
      ((run step (run step s is).1 js).1,
        (run step s is).2 ++ (run step (run step s is).1 js).2) := by
  induction is generalizing s with
  | nil => simp
  | cons i is ih => simp [ih, List.append_assoc]

/-- Every step taken from `s` along the inputs meets the side condition `A`. -/
def StepsMeet (step : σ → ι → σ × List ο) (A : σ → ι → Prop) :
    σ → List ι → Prop
  | _, [] => True
  | s, i :: is => A s i ∧ StepsMeet step A (step s i).1 is

@[simp] theorem stepsMeet_nil (step : σ → ι → σ × List ο)
    (A : σ → ι → Prop) (s : σ) : StepsMeet step A s [] := trivial

@[simp] theorem stepsMeet_cons (step : σ → ι → σ × List ο)
    (A : σ → ι → Prop) (s : σ) (i : ι) (is : List ι) :
    StepsMeet step A s (i :: is) ↔
      A s i ∧ StepsMeet step A (step s i).1 is := Iff.rfl

theorem stepsMeet_append {step : σ → ι → σ × List ο} {A : σ → ι → Prop}
    {s : σ} {is js : List ι} :
    StepsMeet step A s (is ++ js) ↔
      StepsMeet step A s is ∧ StepsMeet step A (run step s is).1 js := by
  induction is generalizing s with
  | nil => simp
  | cons i is ih => simp [ih, and_assoc]

/-- What every step meets, every run meets. -/
theorem stepsMeet_of_forall {step : σ → ι → σ × List ο} {A : σ → ι → Prop}
    (h : ∀ s i, A s i) (s : σ) (is : List ι) : StepsMeet step A s is := by
  induction is generalizing s with
  | nil => trivial
  | cons i is ih => exact ⟨h s i, ih _⟩

/-- A weaker side condition is met as well. -/
theorem StepsMeet.mono {step : σ → ι → σ × List ο} {A B : σ → ι → Prop}
    {s : σ} {is : List ι} (h : StepsMeet step A s is)
    (hAB : ∀ s i, A s i → B s i) : StepsMeet step B s is := by
  induction is generalizing s with
  | nil => trivial
  | cons i is ih =>
      obtain ⟨hi, his⟩ := h
      exact ⟨hAB s i hi, ih his⟩

/-- Where the steps that meet `A` keep an invariant under which they meet `B`, a run
of the one kind is a run of the other. -/
theorem StepsMeet.imp_of_invariant {step : σ → ι → σ × List ο}
    {A B : σ → ι → Prop} {P : σ → Prop}
    (hstep : ∀ s i, A s i → P s → B s i ∧ P (step s i).1)
    {s : σ} {is : List ι} (h : StepsMeet step A s is) (hs : P s) :
    StepsMeet step B s is := by
  induction is generalizing s with
  | nil => trivial
  | cons i is ih =>
      obtain ⟨hi, his⟩ := h
      obtain ⟨hmeet, hnext⟩ := hstep s i hi hs
      exact ⟨hmeet, ih his hnext⟩

/-- An invariant kept by the steps that meet `A` is kept by the runs all of
whose steps meet `A`. -/
theorem run_invariant_of_stepsMeet {step : σ → ι → σ × List ο}
    {A : σ → ι → Prop} {P : σ → Prop}
    (hstep : ∀ s i, A s i → P s → P (step s i).1)
    {s : σ} {is : List ι} (hs : P s) (hmeet : StepsMeet step A s is) :
    P (run step s is).1 := by
  induction is generalizing s with
  | nil => exact hs
  | cons i is ih =>
      obtain ⟨hi, his⟩ := hmeet
      exact ih (hstep s i hi hs) his

/-- What the outputs of every step that meets `A` satisfy, the outputs of a run
all of whose steps meet it satisfy. -/
theorem run_outputs_of_stepsMeet {step : σ → ι → σ × List ο}
    {A : σ → ι → Prop} {Q : ο → Prop}
    (hstep : ∀ s i, A s i → ∀ o ∈ (step s i).2, Q o)
    {s : σ} {is : List ι} (hmeet : StepsMeet step A s is) :
    ∀ o ∈ (run step s is).2, Q o := by
  induction is generalizing s with
  | nil => simp
  | cons i is ih =>
      obtain ⟨hi, his⟩ := hmeet
      intro o ho
      rcases List.mem_append.mp ho with hhead | htail
      · exact hstep s i hi o hhead
      · exact ih his o htail

/-- An invariant kept by every step is kept by every run. -/
theorem run_invariant {step : σ → ι → σ × List ο} {P : σ → Prop}
    (hstep : ∀ s i, P s → P (step s i).1)
    {s : σ} (hs : P s) (is : List ι) : P (run step s is).1 := by
  induction is generalizing s with
  | nil => exact hs
  | cons i is ih => exact ih (hstep s i hs)

/-- Where every step of one system answers as a step of another one does, `f` giving
the answers among its outputs, and its outputs meet `Q`, so does every run. -/
theorem run_simulates {τ π : Type*} {step : σ → ι → σ × List ο}
    {step' : τ → ι → τ × List π} {R : σ → τ → Prop} {Q : ο → Prop}
    {f : ο → Option π}
    (hstep : ∀ s t i, R s t → R (step s i).1 (step' t i).1 ∧
      (step s i).2.filterMap f = (step' t i).2 ∧ ∀ o ∈ (step s i).2, Q o)
    {s : σ} {t : τ} (h : R s t) (is : List ι) :
    R (run step s is).1 (run step' t is).1 ∧
      (run step s is).2.filterMap f = (run step' t is).2 ∧
      ∀ o ∈ (run step s is).2, Q o := by
  induction is generalizing s t with
  | nil => exact ⟨h, rfl, by simp⟩
  | cons i is ih =>
      obtain ⟨hnext, hanswers, houtputs⟩ := hstep s t i h
      obtain ⟨hrest, hanswers', houtputs'⟩ := ih hnext
      refine ⟨hrest, ?_, fun o ho => ?_⟩
      · rw [run_cons, run_cons, List.filterMap_append, hanswers, hanswers']
      · rcases List.mem_append.mp ho with ho | ho
        exacts [houtputs o ho, houtputs' o ho]

/-- The states a system can be in after some inputs from `init`. -/
def Reachable (step : σ → ι → σ × List ο) (init : σ) (s : σ) : Prop :=
  ∃ is, (run step init is).1 = s

theorem Reachable.refl (step : σ → ι → σ × List ο) (init : σ) :
    Reachable step init init := ⟨[], rfl⟩

theorem Reachable.invariant {step : σ → ι → σ × List ο} {P : σ → Prop}
    (hstep : ∀ s i, P s → P (step s i).1) {init s : σ} (hinit : P init)
    (hs : Reachable step init s) : P s := by
  obtain ⟨is, rfl⟩ := hs
  exact run_invariant hstep hinit is

end TateFirmware.Support
