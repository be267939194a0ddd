import Mathlib.Algebra.BigOperators.Intervals
import Mathlib.Algebra.Order.Ring.Nat

/-!
# The Gregorian calendar

Dates from a first year on, numbered by the days before them.  The number of the first
day of a year has a closed form, and every number of seconds is that of exactly one
date.
-/

namespace TateFirmware.Support

/-! ## Years and months -/

/-- A leap year of the Gregorian calendar. -/
def IsLeap (year : ℕ) : Prop := year % 4 = 0 ∧ (year % 100 ≠ 0 ∨ year % 400 = 0)

instance : DecidablePred IsLeap := fun year =>
  inferInstanceAs (Decidable (year % 4 = 0 ∧ (year % 100 ≠ 0 ∨ year % 400 = 0)))

def yearLength (year : ℕ) : ℕ := if IsLeap year then 366 else 365

/-- The lengths of the months, with the length of February. -/
def monthLengths (february : ℕ) : List ℕ :=
  [31, february, 31, 30, 31, 30, 31, 31, 30, 31, 30, 31]

/-- The days of February. -/
def february (year : ℕ) : ℕ := if IsLeap year then 29 else 28

/-- The days from the first one of `first` to the first one of `year`. -/
def yearStart (first year : ℕ) : ℕ := ∑ y ∈ Finset.Ico first year, yearLength y

/-- The days of the year before the month. -/
def monthStart (year mon : ℕ) : ℕ := ((monthLengths (february year)).take (mon - 1)).sum

/-- The days of the month. -/
def monthLength (year mon : ℕ) : ℕ := (monthLengths (february year)).getD (mon - 1) 0

theorem yearLength_cases (year : ℕ) : yearLength year = 365 ∨ yearLength year = 366 := by
  unfold yearLength
  split
  · exact Or.inr rfl
  · exact Or.inl rfl

/-- The leap years up to a year, counted. -/
theorem yearLength_eq {year : ℕ} (h : 0 < year) :
    yearLength year + ((year - 1) / 4 + (year - 1) / 400 + year / 100) =
      365 + (year / 4 + year / 400 + (year - 1) / 100) := by
  unfold yearLength
  split
  · rename_i hleap
    rw [IsLeap] at hleap
    omega
  · rename_i hleap
    rw [IsLeap] at hleap
    omega

theorem yearStart_self (first : ℕ) : yearStart first first = 0 := by
  rw [yearStart, Finset.Ico_self, Finset.sum_empty]

theorem yearStart_succ {first year : ℕ} (h : first ≤ year) :
    yearStart first (year + 1) = yearStart first year + yearLength year :=
  Finset.sum_Ico_succ_top h _

/-- The first day of a year, in closed form. -/
theorem yearStart_eq {first year : ℕ} (hfirst : 0 < first) (h : first ≤ year) :
    yearStart first year + 365 * first +
        ((first - 1) / 4 + (first - 1) / 400 + (year - 1) / 100) =
      365 * year + ((year - 1) / 4 + (year - 1) / 400 + (first - 1) / 100) := by
  induction year, h using Nat.le_induction with
  | base => rw [yearStart_self]; omega
  | succ year hle ih =>
      have hlength := yearLength_eq (Nat.lt_of_lt_of_le hfirst hle)
      rw [yearStart_succ hle, Nat.add_sub_cancel]
      omega

theorem monthLengths_sum (year : ℕ) :
    (monthLengths (february year)).sum = yearLength year := by
  unfold february yearLength
  split
  · rfl
  · rfl

/-- A day lies in one of the stretches that a list of lengths makes. -/
theorem exists_stretch {lengths : List ℕ} {day : ℕ} (h : day < lengths.sum) :
    ∃ i < lengths.length, (lengths.take i).sum ≤ day ∧
      day < (lengths.take i).sum + lengths.getD i 0 := by
  induction lengths generalizing day with
  | nil => exact absurd h (Nat.not_lt_zero _)
  | cons m lengths ih =>
      by_cases hday : day < m
      · exact ⟨0, Nat.succ_pos _, Nat.zero_le _, by simpa using hday⟩
      · rw [List.sum_cons] at h
        have hrest : day - m < lengths.sum := by omega
        obtain ⟨i, hi, hle, hlt⟩ := ih hrest
        refine ⟨i + 1, Nat.succ_lt_succ hi, ?_, ?_⟩
        · rw [List.take_succ_cons, List.sum_cons]
          omega
        · rw [List.take_succ_cons, List.sum_cons, List.getD_cons_succ]
          omega

theorem stretch_le_sum (lengths : List ℕ) (i : ℕ) :
    (lengths.take i).sum + lengths.getD i 0 ≤ lengths.sum := by
  induction lengths generalizing i with
  | nil => simp
  | cons m lengths ih =>
      cases i with
      | zero => simp
      | succ i =>
          have hrest := ih i
          rw [List.take_succ_cons, List.sum_cons, List.getD_cons_succ, List.sum_cons]
          omega

/-- The days of a month are in the year. -/
theorem monthEnd_le (year mon : ℕ) :
    monthStart year mon + monthLength year mon ≤ yearLength year := by
  rw [← monthLengths_sum]
  exact stretch_le_sum _ _

/-- A day lies in a year. -/
theorem exists_year (first day : ℕ) :
    ∃ year, first ≤ year ∧ yearStart first year ≤ day ∧
      day < yearStart first year + yearLength year := by
  induction day with
  | zero =>
      refine ⟨first, Nat.le_refl _, ?_, ?_⟩
      · rw [yearStart_self]
      · have hlength := yearLength_cases first
        omega
  | succ day ih =>
      obtain ⟨year, hfirst, hle, hlt⟩ := ih
      by_cases hday : day + 1 < yearStart first year + yearLength year
      · exact ⟨year, hfirst, by omega, hday⟩
      · have hlength := yearLength_cases (year + 1)
        refine ⟨year + 1, by omega, ?_, ?_⟩
        · rw [yearStart_succ hfirst]
          omega
        · rw [yearStart_succ hfirst]
          omega

/-! ## Dates -/

/-- A date and a time of day. -/
structure Date where
  year : ℕ
  mon : ℕ
  mday : ℕ
  hour : ℕ
  min : ℕ
  sec : ℕ
deriving DecidableEq

namespace Date

/-- A date of the calendar from the year `first` on. -/
structure Valid (first : ℕ) (d : Date) : Prop where
  year : first ≤ d.year
  mon_pos : 1 ≤ d.mon
  mon_le : d.mon ≤ 12
  mday_pos : 1 ≤ d.mday
  mday_le : d.mday ≤ monthLength d.year d.mon
  hour : d.hour < 24
  min : d.min < 60
  sec : d.sec < 60

/-- The days before a date. -/
def dayNumber (first : ℕ) (d : Date) : ℕ :=
  yearStart first d.year + monthStart d.year d.mon + (d.mday - 1)

/-- The seconds of the day before a time. -/
def secondOfDay (d : Date) : ℕ := d.hour * 3600 + d.min * 60 + d.sec

/-- The seconds before a date. -/
def seconds (first : ℕ) (d : Date) : ℕ := d.dayNumber first * 86400 + d.secondOfDay

end Date

/-- Every number of seconds is that of a date. -/
theorem exists_date (first t : ℕ) : ∃ d : Date, d.Valid first ∧ d.seconds first = t := by
  obtain ⟨year, hyear, hle, hlt⟩ := exists_year first (t / 86400)
  have hinside : t / 86400 - yearStart first year <
      (monthLengths (february year)).sum := by
    rw [monthLengths_sum]
    omega
  obtain ⟨i, hi, hmonth, hday⟩ := exists_stretch hinside
  have hlen : (monthLengths (february year)).length = 12 := rfl
  refine ⟨⟨year, i + 1, t / 86400 - yearStart first year -
    ((monthLengths (february year)).take i).sum + 1, t % 86400 / 3600,
      t % 3600 / 60, t % 60⟩, ⟨hyear, ?_, ?_, ?_, ?_, ?_, ?_, ?_⟩, ?_⟩
  · exact Nat.le_add_left 1 i
  · show i + 1 ≤ 12
    omega
  · exact Nat.le_add_left 1 _
  · simp only [monthLength, Nat.add_sub_cancel]
    omega
  · show t % 86400 / 3600 < 24
    omega
  · show t % 3600 / 60 < 60
    omega
  · show t % 60 < 60
    omega
  · simp only [Date.seconds, Date.dayNumber, Date.secondOfDay, monthStart,
      Nat.add_sub_cancel]
    omega

end TateFirmware.Support
