import Mathlib.Tactic.IntervalCases
import TateFirmware.Support.Calendar

/-!
# Dates and seconds

`to_tm` of `rtc/date.c` takes years and then months off a number of days, with a rule of
its own for leap years and a table of the lengths of the months in which it sets
February and sets it back.  `mktime` is a closed formula with the year beginning in
March, computed in 32 bits.  Both are compared with the calendar here.
-/

namespace TateFirmware.Rtc

open Support

/-! ## The source -/

/-- The fields of `struct rtc_time` that `to_tm` sets. -/
structure RtcTime where
  tmSec : ℤ
  tmMin : ℤ
  tmHour : ℤ
  tmMday : ℤ
  tmMon : ℤ
  tmYear : ℤ
  tmWday : ℤ
deriving DecidableEq

/-- `STARTOFTIME`. -/
def startoftime : ℤ := 1970

/-- `SECDAY`. -/
def secday : ℤ := 86400

/-- `leapyear`. -/
def leapyear (year : ℤ) : Bool := year.tmod 4 = 0

/-- `days_in_year`. -/
def daysInYear (a : ℤ) : ℤ := if leapyear a then 366 else 365

/-- `month_days`, at first. -/
def monthDays : List ℤ := [31, 28, 31, 30, 31, 30, 31, 31, 30, 31, 30, 31]

/-- `MonthOffset` of `GregorianDay`. -/
def monthOffset : List ℤ := [0, 31, 59, 90, 120, 151, 181, 212, 243, 273, 304, 334]

/-- `GregorianDay`. -/
def gregorianDay (tm : RtcTime) : RtcTime :=
  let lastYear := tm.tmYear - 1
  let leapsToDate := lastYear.tdiv 4 - lastYear.tdiv 100 + lastYear.tdiv 400
  let day : ℤ := if tm.tmYear.tmod 4 = 0 ∧
      (tm.tmYear.tmod 100 ≠ 0 ∨ tm.tmYear.tmod 400 = 0) ∧ 2 < tm.tmMon then 1 else 0
  let day := day + (lastYear * 365 + leapsToDate + monthOffset.getD (tm.tmMon - 1).toNat 0 +
    tm.tmMday)
  { tm with tmWday := day.tmod 7 }

theorem daysInYear_pos (a : ℤ) : 0 < daysInYear a := by
  unfold daysInYear
  split
  · decide
  · decide

/-- The loop over the years: the year, and the days that are left. -/
def yearLoop (i day : ℤ) : ℤ × ℤ :=
  if daysInYear i ≤ day then yearLoop (i + 1) (day - daysInYear i) else (i, day)
termination_by day.toNat
decreasing_by
  have hpos := daysInYear_pos i
  omega

/-- The loop over the months, at `month_days[i - 1]`: the month, and the days that are
left.  Fewer days than the table has are left when it starts. -/
def monthLoop : List ℤ → ℤ → ℤ → ℤ × ℤ
  | [], i, day => (i, day)
  | m :: ms, i, day => if m ≤ day then monthLoop ms (i + 1) (day - m) else (i, day)

/-- `to_tm` with what is in `month_days`: the time, and what is in `month_days`
afterwards. -/
def toTm (monthDays : List ℤ) (tim : ℤ) : RtcTime × List ℤ :=
  let day := tim.tdiv secday
  let hms := tim.tmod secday
  let years := yearLoop startoftime day
  let monthDays := if leapyear years.1 then monthDays.set 1 29 else monthDays
  let months := monthLoop monthDays 1 years.2
  let monthDays := monthDays.set 1 28
  (gregorianDay
    { tmSec := (hms.tmod 3600).tmod 60, tmMin := (hms.tmod 3600).tdiv 60,
      tmHour := hms.tdiv 3600, tmMday := months.2 + 1, tmMon := months.1,
      tmYear := years.1, tmWday := 0 }, monthDays)

/-- `mktime`. -/
def mktime (year mon day hour min sec : UInt32) : UInt32 :=
  let mon := mon - 2
  let early := Int.bmod mon.toNat (2 ^ 32) ≤ 0
  let mon := if early then mon + 12 else mon
  let year := if early then year - 1 else year
  ((((year / 4 - year / 100 + year / 400 + 367 * mon / 12 + day) + year * 365 - 719499) *
    24 + hour) * 60 + min) * 60 + sec

/-- `mktime` of the fields of a time. -/
def RtcTime.mktime (tm : RtcTime) : UInt32 :=
  Rtc.mktime (UInt32.ofInt tm.tmYear) (UInt32.ofInt tm.tmMon) (UInt32.ofInt tm.tmMday)
    (UInt32.ofInt tm.tmHour) (UInt32.ofInt tm.tmMin) (UInt32.ofInt tm.tmSec)

/-- A date as a time, with its day of the week: the first day of 1970 was a
Thursday. -/
def RtcTime.ofDate (d : Date) : RtcTime where
  tmSec := d.sec
  tmMin := d.min
  tmHour := d.hour
  tmMday := d.mday
  tmMon := d.mon
  tmYear := d.year
  tmWday := (4 + d.dayNumber 1970) % 7

/-! ## `mktime` -/

/-- The days of the year before a month, in the year that begins in March. -/
theorem monthStart_eq (year : ℕ) {mon : ℕ} (hpos : 1 ≤ mon) (hle : mon ≤ 12) :
    (mon ≤ 2 ∧ monthStart year mon + 336 = 367 * (mon + 10) / 12) ∨
    (2 < mon ∧ monthStart year mon = 367 * (mon - 2) / 12 + 1 + february year) := by
  interval_cases mon <;>
    simp only [monthStart, monthLengths, List.take_succ_cons, List.take_zero,
      List.sum_cons, List.sum_nil, Nat.reduceSub, and_true] <;> omega

/-- The days before a date, in the year that begins in March. -/
theorem dayNumber_eq {d : Date} (h : d.Valid 1970) :
    (d.mon ≤ 2 ∧ d.dayNumber 1970 + 719499 + (d.year - 1) / 100 =
      (d.year - 1) / 4 + (d.year - 1) / 400 + 367 * (d.mon + 10) / 12 + d.mday +
        (d.year - 1) * 365) ∨
    (2 < d.mon ∧ d.dayNumber 1970 + 719499 + d.year / 100 =
      d.year / 4 + d.year / 400 + 367 * (d.mon - 2) / 12 + d.mday + d.year * 365) := by
  have hstart := yearStart_eq (by decide) h.year
  have hyear := h.year
  have hmday := h.mday_pos
  unfold Date.dayNumber
  rcases monthStart_eq d.year h.mon_pos h.mon_le with
    ⟨hmon, hmonth⟩ | ⟨hmon, hmonth⟩
  · exact Or.inl ⟨hmon, by omega⟩
  · refine Or.inr ⟨hmon, ?_⟩
    rw [hmonth]
    unfold february
    split
    · rename_i hleap
      rw [IsLeap] at hleap
      omega
    · rename_i hleap
      rw [IsLeap] at hleap
      omega

/-- The sum that `mktime` begins with, in 32 bits. -/
theorem mktime_days {year mon mday days : ℕ} (hyear : year < 2 ^ 32) (hmon : mon ≤ 12)
    (h : days + 719499 + year / 100 =
      year / 4 + year / 400 + 367 * mon / 12 + mday + year * 365) :
    UInt32.ofNat year / 4 - UInt32.ofNat year / 100 + UInt32.ofNat year / 400 +
      367 * UInt32.ofNat mon / 12 + UInt32.ofNat mday + UInt32.ofNat year * 365 - 719499 =
        UInt32.ofNat days := by
  have hdiv : ∀ k < 2 ^ 32, UInt32.ofNat (year / k) = UInt32.ofNat year / UInt32.ofNat k :=
    fun k hk => UInt32.ofNat_div hyear hk
  have hmonth : UInt32.ofNat (367 * mon / 12) = 367 * UInt32.ofNat mon / 12 := by
    rw [UInt32.ofNat_div (by omega) (by decide), UInt32.ofNat_mul]
    rfl
  have hsum := congrArg UInt32.ofNat h
  simp only [UInt32.ofNat_add, UInt32.ofNat_mul] at hsum
  rw [hdiv 100 (by decide), hdiv 4 (by decide), hdiv 400 (by decide), hmonth] at hsum
  have h4 : UInt32.ofNat 4 = 4 := rfl
  have h100 : UInt32.ofNat 100 = 100 := rfl
  have h400 : UInt32.ofNat 400 = 400 := rfl
  have h365 : UInt32.ofNat 365 = 365 := rfl
  have hbase : UInt32.ofNat 719499 = 719499 := rfl
  rw [h4, h100, h400, h365, hbase] at hsum
  grind

/-- `mktime` is the number of seconds, in 32 bits. -/
theorem mktime_eq {d : Date} (h : d.Valid 1970) (hyear : d.year < 2 ^ 32) :
    mktime (UInt32.ofNat d.year) (UInt32.ofNat d.mon) (UInt32.ofNat d.mday)
      (UInt32.ofNat d.hour) (UInt32.ofNat d.min) (UInt32.ofNat d.sec) =
        UInt32.ofNat (d.seconds 1970) := by
  have hpos := h.year
  have hseconds : UInt32.ofNat (d.seconds 1970) =
      ((UInt32.ofNat (d.dayNumber 1970) * 24 + UInt32.ofNat d.hour) * 60 +
        UInt32.ofNat d.min) * 60 + UInt32.ofNat d.sec := by
    have h24 : UInt32.ofNat 24 = 24 := rfl
    have h60 : UInt32.ofNat 60 = 60 := rfl
    rw [← h24, ← h60]
    simp only [← UInt32.ofNat_mul, ← UInt32.ofNat_add]
    refine congrArg UInt32.ofNat ?_
    rw [Date.seconds, Date.secondOfDay]
    omega
  unfold mktime
  rw [hseconds]
  rcases dayNumber_eq h with ⟨hearly, hdays⟩ | ⟨hlate, hdays⟩
  · have hmonth : Int.bmod (UInt32.ofNat d.mon - 2).toNat (2 ^ 32) ≤ 0 ∧
        UInt32.ofNat d.mon - 2 + 12 = UInt32.ofNat (d.mon + 10) := by
      have hpos := h.mon_pos
      generalize d.mon = mon at hpos hearly
      interval_cases mon
      · decide
      · decide
    have hprev : UInt32.ofNat d.year - 1 = UInt32.ofNat (d.year - 1) :=
      (UInt32.ofNat_sub (show 1 ≤ d.year by omega)).symm
    dsimp only
    rw [if_pos hmonth.1, if_pos hmonth.1, hmonth.2, hprev,
      mktime_days (by omega) (by omega) hdays]
  · have hmonth : UInt32.ofNat d.mon - 2 = UInt32.ofNat (d.mon - 2) :=
      (UInt32.ofNat_sub (show 2 ≤ d.mon by omega)).symm
    have hle := h.mon_le
    have hlate' : ¬ Int.bmod (UInt32.ofNat (d.mon - 2)).toNat (2 ^ 32) ≤ 0 := by
      have hsmall : d.mon - 2 < 2 ^ 31 := by omega
      rw [UInt32.toNat_ofNat', Nat.mod_eq_of_lt (by omega), Int.bmod_eq_of_le (by omega)
        (by omega)]
      omega
    dsimp only
    rw [hmonth, if_neg hlate', if_neg hlate',
      mktime_days hyear (by omega) hdays]

/-! ## `to_tm` -/

theorem leapyear_iff {year : ℕ} (h1970 : 1970 ≤ year) (h2100 : year < 2100) :
    leapyear year = true ↔ IsLeap year := by
  rw [leapyear, decide_eq_true_eq, Int.tmod_eq_emod_of_nonneg (Int.natCast_nonneg _), IsLeap]
  omega

theorem daysInYear_eq {year : ℕ} (h1970 : 1970 ≤ year) (h2100 : year < 2100) :
    daysInYear year = yearLength year := by
  unfold daysInYear yearLength
  simp only [leapyear_iff h1970 h2100]
  split
  · rfl
  · rfl

/-- The loop over the years finds the year of a day, up to 2099. -/
theorem yearLoop_eq {i k r : ℕ} (h1970 : 1970 ≤ i) (h2100 : i + k < 2100)
    (hr : r < yearLength (i + k)) :
    yearLoop i (yearStart i (i + k) + r : ℕ) = (((i + k : ℕ) : ℤ), (r : ℤ)) := by
  induction k generalizing i with
  | zero =>
      rw [Nat.add_zero] at hr
      rw [yearLoop, Nat.add_zero, yearStart_self, Nat.zero_add,
        daysInYear_eq h1970 (by omega), if_neg (by omega)]
  | succ k ih =>
      have hlength := yearLength_cases i
      have hfirst : yearStart i (i + (k + 1)) =
          yearLength i + yearStart (i + 1) (i + 1 + k) := by
        have hsum : i + 1 + k = i + (k + 1) := by omega
        rw [hsum]
        exact Finset.sum_eq_sum_Ico_succ_bot (by omega) _
      have hrest : ((yearStart i (i + (k + 1)) + r : ℕ) : ℤ) - yearLength i =
          (yearStart (i + 1) (i + 1 + k) + r : ℕ) := by
        rw [hfirst]
        push_cast
        omega
      have hsum : i + (k + 1) = i + 1 + k := by omega
      rw [yearLoop, daysInYear_eq h1970 (by omega), if_pos (by rw [hfirst]; push_cast; omega),
        hrest, hsum]
      rw [hsum] at hr
      have hnext := ih (show 1970 ≤ i + 1 by omega) (show i + 1 + k < 2100 by omega) hr
      rwa [Nat.cast_succ] at hnext

/-- The loop over the months finds the stretch of a day. -/
theorem monthLoop_eq {lengths : List ℕ} {i r : ℕ} (start : ℤ) (hi : i < lengths.length)
    (hr : r < lengths.getD i 0) :
    monthLoop (lengths.map (Nat.cast : ℕ → ℤ)) start ((lengths.take i).sum + r : ℕ) =
      (start + i, (r : ℤ)) := by
  induction lengths generalizing i start with
  | nil => exact absurd hi (Nat.not_lt_zero _)
  | cons m lengths ih =>
      rw [List.map_cons, monthLoop]
      cases i with
      | zero =>
          rw [List.getD_cons_zero] at hr
          rw [List.take_zero, List.sum_nil, if_neg (by omega)]
          simp
      | succ i =>
          rw [List.getD_cons_succ] at hr
          have hrest : (((m :: lengths).take (i + 1)).sum + r : ℕ) - (m : ℤ) =
              ((lengths.take i).sum + r : ℕ) := by
            rw [List.take_succ_cons, List.sum_cons]
            simp only [Nat.cast_add]
            omega
          rw [if_pos (by rw [List.take_succ_cons, List.sum_cons]; simp only [Nat.cast_add]; omega), hrest,
            ih _ (Nat.lt_of_succ_lt_succ hi) hr]
          push_cast
          rw [add_assoc, add_comm (1 : ℤ)]

/-- The table of the months, with the days of February. -/
theorem monthDays_eq {year : ℕ} (h1970 : 1970 ≤ year) (h2100 : year < 2100) :
    (if leapyear year then monthDays.set 1 29 else monthDays) =
      (monthLengths (february year)).map (Nat.cast : ℕ → ℤ) := by
  unfold february
  simp only [leapyear_iff h1970 h2100]
  split
  · rfl
  · rfl

/-- The month offsets are those of a year without a leap day. -/
theorem monthOffset_eq (year : ℕ) {mon : ℕ} (hpos : 1 ≤ mon) (hle : mon ≤ 12) :
    monthOffset.getD (mon - 1) 0 + (if IsLeap year ∧ 2 < mon then 1 else 0) =
      monthStart year mon := by
  have hfebruary : february year = 28 + if IsLeap year then 1 else 0 := by
    unfold february
    split
    · rfl
    · rfl
  have hmonth := monthStart_eq year hpos hle
  rw [hfebruary] at hmonth
  by_cases hleap : IsLeap year
  · simp only [hleap, true_and, if_true] at hmonth ⊢
    interval_cases mon <;> simp only [monthOffset, List.getD_cons_zero,
      List.getD_cons_succ, Nat.reduceSub, Nat.reduceLT, if_true, if_false] <;> omega
  · simp only [hleap, false_and, if_false] at hmonth ⊢
    interval_cases mon <;> simp only [monthOffset, List.getD_cons_zero,
      List.getD_cons_succ, Nat.reduceSub] <;> omega

/-- The day of the week, from the days since the year 1. -/
theorem gregorianDay_eq {d : Date} (h : d.Valid 1970) (tm : RtcTime)
    (hyear : tm.tmYear = d.year) (hmon : tm.tmMon = d.mon) (hmday : tm.tmMday = d.mday) :
    gregorianDay tm = { tm with tmWday := (4 + d.dayNumber 1970) % 7 } := by
  have hpos := h.year
  have hmday_pos := h.mday_pos
  have hleap : (tm.tmYear.tmod 4 = 0 ∧
      (tm.tmYear.tmod 100 ≠ 0 ∨ tm.tmYear.tmod 400 = 0) ∧ 2 < tm.tmMon) ↔
        IsLeap d.year ∧ 2 < d.mon := by
    rw [hyear, hmon, Int.tmod_eq_emod_of_nonneg (Int.natCast_nonneg _),
      Int.tmod_eq_emod_of_nonneg (Int.natCast_nonneg _),
      Int.tmod_eq_emod_of_nonneg (Int.natCast_nonneg _), IsLeap]
    omega
  have hindex : (tm.tmMon - 1).toNat = d.mon - 1 := by omega
  have hoffset := monthOffset_eq d.year h.mon_pos h.mon_le
  have hstart := yearStart_eq (by decide) h.year
  have hlast : (0 : ℤ) ≤ d.year - 1 := by omega
  unfold gregorianDay
  dsimp only
  rw [if_congr hleap rfl rfl, hindex, hyear, hmday, Int.tdiv_eq_ediv_of_nonneg hlast,
    Int.tdiv_eq_ediv_of_nonneg hlast, Int.tdiv_eq_ediv_of_nonneg hlast]
  congr 1
  have hday : (if IsLeap d.year ∧ 2 < d.mon then 1 else 0) + (((d.year : ℤ) - 1) * 365 +
      (((d.year : ℤ) - 1) / 4 - ((d.year : ℤ) - 1) / 100 + ((d.year : ℤ) - 1) / 400) +
        monthOffset.getD (d.mon - 1) 0 + d.mday) =
      7 * 102737 + (4 + d.dayNumber 1970) := by
    rw [Date.dayNumber]
    push_cast
    rw [← hoffset]
    generalize (if IsLeap d.year ∧ 2 < d.mon then (1 : ℤ) else 0) = leap
    omega
  rw [hday, Int.tmod_eq_emod_of_nonneg (by omega), Int.mul_add_emod_self_left]

/-- The days before a year from 2038 on do not fit 31 bits of seconds. -/
theorem year_lt {d : Date} (h : d.Valid 1970) (hseconds : d.seconds 1970 < 2 ^ 31) :
    d.year < 2100 := by
  have hpos := h.year
  have hstart := yearStart_eq (by decide) h.year
  rw [Date.seconds, Date.dayNumber] at hseconds
  omega

/-- The clock of `to_tm`. -/
theorem secondOfDay_clock {d : Date} (hmin : d.min < 60) (hsec : d.sec < 60) :
    (d.secondOfDay : ℤ).tdiv 3600 = d.hour ∧
      ((d.secondOfDay : ℤ).tmod 3600).tdiv 60 = d.min ∧
        ((d.secondOfDay : ℤ).tmod 3600).tmod 60 = d.sec := by
  have hpos : (0 : ℤ) ≤ d.secondOfDay := Int.natCast_nonneg _
  have hmod : (d.secondOfDay : ℤ).tmod 3600 = (d.min * 60 + d.sec : ℕ) := by
    rw [Int.tmod_eq_emod_of_nonneg hpos, Date.secondOfDay]
    omega
  rw [hmod, Int.tdiv_eq_ediv_of_nonneg hpos,
    Int.tdiv_eq_ediv_of_nonneg (Int.natCast_nonneg _),
    Int.tmod_eq_emod_of_nonneg (Int.natCast_nonneg _), Date.secondOfDay]
  omega

/-- The two loops, at the days before a date. -/
theorem dayNumber_loops {d : Date} (h : d.Valid 1970) (h2100 : d.year < 2100) :
    yearLoop startoftime (d.dayNumber 1970) =
        ((d.year : ℤ), ((monthStart d.year d.mon + (d.mday - 1) : ℕ) : ℤ)) ∧
      monthLoop ((monthLengths (february d.year)).map (Nat.cast : ℕ → ℤ)) 1
        ((monthStart d.year d.mon + (d.mday - 1) : ℕ) : ℤ) =
          ((d.mon : ℤ), ((d.mday - 1 : ℕ) : ℤ)) := by
  have hmon := h.mon_pos
  have hday : d.mday - 1 < monthLength d.year d.mon :=
    Nat.lt_of_lt_of_le (Nat.sub_lt h.mday_pos Nat.one_pos) h.mday_le
  have hlen : d.mon - 1 < (monthLengths (february d.year)).length :=
    Nat.lt_of_lt_of_le (Nat.sub_lt hmon Nat.one_pos) h.mon_le
  constructor
  · have hend := monthEnd_le d.year d.mon
    obtain ⟨k, hk⟩ := Nat.exists_eq_add_of_le h.year
    have hr : monthStart d.year d.mon + (d.mday - 1) < yearLength (1970 + k) := by
      rw [← hk]
      omega
    have hloop := yearLoop_eq (Nat.le_refl 1970) (hk ▸ h2100) hr
    rw [← hk, ← Nat.add_assoc] at hloop
    exact hloop
  · rw [monthStart, monthLoop_eq 1 hlen hday]
    push_cast [hmon]
    rw [add_sub_cancel]

/-- `to_tm` of the seconds of a date. -/
theorem toTm_seconds {d : Date} (h : d.Valid 1970) (hseconds : d.seconds 1970 < 2 ^ 31) :
    toTm monthDays (d.seconds 1970) = (RtcTime.ofDate d, monthDays) := by
  have h2100 := year_lt h hseconds
  have hhour := h.hour
  have hmin := h.min
  have hsec := h.sec
  have hmday := h.mday_pos
  have hmdayEq : ((d.mday - 1 : ℕ) : ℤ) + 1 = d.mday := by omega
  have hback : ((monthLengths (february d.year)).map (Nat.cast : ℕ → ℤ)).set 1 28 =
      monthDays := rfl
  have htdiv : ((d.seconds 1970 : ℕ) : ℤ).tdiv secday = d.dayNumber 1970 := by
    rw [Int.tdiv_eq_ediv_of_nonneg (Int.natCast_nonneg _), secday, Date.seconds,
      Date.secondOfDay]
    omega
  have htmod : ((d.seconds 1970 : ℕ) : ℤ).tmod secday = d.secondOfDay := by
    rw [Int.tmod_eq_emod_of_nonneg (Int.natCast_nonneg _), secday, Date.seconds,
      Date.secondOfDay]
    omega
  obtain ⟨hyears, hmonths⟩ := dayNumber_loops h h2100
  obtain ⟨htmHour, htmMin, htmSec⟩ := secondOfDay_clock hmin hsec
  unfold toTm
  dsimp only
  rw [htdiv, htmod, hyears]
  dsimp only
  rw [monthDays_eq h.year h2100, hmonths, hback, htmHour, htmMin, htmSec, gregorianDay_eq h _ rfl rfl hmdayEq]
  simp only [RtcTime.ofDate, hmdayEq]

/-- `mktime` of the time of a date. -/
theorem ofDate_mktime {d : Date} (h : d.Valid 1970) (hseconds : d.seconds 1970 < 2 ^ 32)
    (hyear : d.year < 2 ^ 32) :
    (RtcTime.ofDate d).mktime.toNat = d.seconds 1970 := by
  have hcast : ∀ n : ℕ, UInt32.ofInt n = UInt32.ofNat n := by
    intro n
    have hmod : ((n : ℤ) % 2 ^ 32).toNat = n % 2 ^ 32 := by omega
    rw [UInt32.ofInt, hmod, UInt32.ofNat_mod_size]
  rw [RtcTime.mktime]
  simp only [RtcTime.ofDate, hcast]
  rw [mktime_eq h hyear, UInt32.toNat_ofNat', Nat.mod_eq_of_lt hseconds]

/-- Seconds that fit an `int` are those of the time that `to_tm` makes of them; the
table of the months is as it was.  A date with so many seconds is what `to_tm` makes of
what `mktime` returns for it. -/
theorem toTm_mktime :
    (∀ t : ℤ, 0 ≤ t → t < 2 ^ 31 → ∃ d : Date, d.Valid 1970 ∧
      toTm monthDays t = (RtcTime.ofDate d, monthDays) ∧
        (RtcTime.ofDate d).tmWday = (4 + t / 86400) % 7 ∧
          ((toTm monthDays t).1.mktime.toNat : ℤ) = t) ∧
    ∀ d : Date, d.Valid 1970 → d.seconds 1970 < 2 ^ 31 →
      toTm monthDays (Int.bmod (RtcTime.ofDate d).mktime.toNat (2 ^ 32)) =
        (RtcTime.ofDate d, monthDays) := by
  constructor
  · intro t hnonneg hlt
    obtain ⟨d, hd, hseconds⟩ := exists_date 1970 t.toNat
    have ht : (d.seconds 1970 : ℤ) = t := by
      rw [hseconds, Int.toNat_of_nonneg hnonneg]
    have hsmall : d.seconds 1970 < 2 ^ 31 := by omega
    have hyear := year_lt hd hsmall
    have htm := toTm_seconds hd hsmall
    rw [ht] at htm
    refine ⟨d, hd, htm, ?_, ?_⟩
    · have hclock := hd.hour
      have hmin := hd.min
      have hsec := hd.sec
      rw [← ht, Date.seconds, Date.secondOfDay, RtcTime.ofDate]
      dsimp only
      omega
    · rw [htm, ofDate_mktime hd (by omega) (by omega), ht]
  · intro d hd hseconds
    have hyear := year_lt hd hseconds
    rw [ofDate_mktime hd (by omega) (by omega), Int.bmod_eq_of_le (by omega) (by omega)]
    exact toTm_seconds hd hseconds

theorem toTm_mktime_leapDay :
    ((toTm monthDays 951782400).1.mktime.toNat : ℤ) = 951782400 ∧
      toTm monthDays (Int.bmod (RtcTime.ofDate ⟨2000, 2, 29, 0, 0, 0⟩).mktime.toNat
        (2 ^ 32)) = (RtcTime.ofDate ⟨2000, 2, 29, 0, 0, 0⟩, monthDays) := by
  obtain ⟨-, -, -, -, hseconds⟩ := toTm_mktime.1 951782400 (by decide) (by decide)
  exact ⟨hseconds, toTm_mktime.2 _ (by constructor <;> decide) (by decide)⟩

theorem yearLoop_of_neg {day : ℤ} (h : day < 0) (i : ℤ) : yearLoop i day = (i, day) := by
  have hpos := daysInYear_pos i
  rw [yearLoop, if_neg (by omega)]

/-- The first second that does not fit an `int`: 2038-01-19 03:14:08. -/
theorem overflowDate_not_inverted :
    (⟨2038, 1, 19, 3, 14, 8⟩ : Date).Valid 1970 ∧
      (⟨2038, 1, 19, 3, 14, 8⟩ : Date).seconds 1970 < 2 ^ 32 ∧
        toTm monthDays (Int.bmod
          (RtcTime.ofDate ⟨2038, 1, 19, 3, 14, 8⟩).mktime.toNat (2 ^ 32)) ≠
            (RtcTime.ofDate ⟨2038, 1, 19, 3, 14, 8⟩, monthDays) := by
  have hvalid : (⟨2038, 1, 19, 3, 14, 8⟩ : Date).Valid 1970 := by
    constructor <;> decide
  have hseconds : (⟨2038, 1, 19, 3, 14, 8⟩ : Date).seconds 1970 = 2 ^ 31 := by decide
  refine ⟨hvalid, by rw [hseconds]; decide, ?_⟩
  rw [ofDate_mktime hvalid (by rw [hseconds]; decide) (by decide), hseconds]
  have hint : Int.bmod ((2 ^ 31 : ℕ) : ℤ) (2 ^ 32) = -2 ^ 31 := by decide
  rw [hint]
  intro h
  have hyear := congrArg (fun tm => tm.1.tmYear) h
  have hday : (-2 ^ 31 : ℤ).tdiv secday < 0 := by decide
  simp only [toTm, gregorianDay, yearLoop_of_neg hday] at hyear
  exact absurd hyear (by decide)

end TateFirmware.Rtc
