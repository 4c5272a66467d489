import Mathlib.Logic.Function.Iterate
import Mathlib.Algebra.Order.Ring.Nat

/-! Calendars: the years all have the same number of months, whose lengths may depend on the year.
The days are told off one by one, and counted by the lengths of the years and months. -/

structure Calendar where
  months : Nat
  length : Nat → Nat → Nat
  months_pos : 1 ≤ months
  length_pos : ∀ year month, 1 ≤ length year month

namespace Calendar
variable {cal : Calendar}

/-- Months and days are counted from one. -/
@[ext] structure Date (cal : Calendar) where
  year : Nat
  month : Nat
  day : Nat
  month_in : 1 ≤ month ∧ month ≤ cal.months
  day_in : 1 ≤ day ∧ day ≤ cal.length year month

namespace Date

def first (year month : Nat) (h : 1 ≤ month ∧ month ≤ cal.months) : cal.Date :=
  ⟨year, month, 1, h, Nat.le_refl 1, cal.length_pos year month⟩

def newYear (year : Nat) : cal.Date := first year 1 ⟨Nat.le_refl 1, cal.months_pos⟩

def next (date : cal.Date) : cal.Date :=
  if hday : date.day+1 ≤ cal.length date.year date.month then
    ⟨date.year, date.month, date.day+1, date.month_in, Nat.le_add_left _ _, hday⟩
  else if hmonth : date.month+1 ≤ cal.months then
    first date.year (date.month+1) ⟨Nat.le_add_left _ _, hmonth⟩
  else newYear (date.year+1)

end Date

/-- The days of the first `n` months that begin with `month`. -/
def monthsLength (cal : Calendar) (year month n : Nat) : Nat :=
  ((List.range' month n).map (cal.length year)).sum

def yearLength (cal : Calendar) (year : Nat) : Nat := cal.monthsLength year 1 cal.months

/-- The days of the `n` years that begin with `year`. -/
def yearsLength (cal : Calendar) (year n : Nat) : Nat :=
  ((List.range' year n).map cal.yearLength).sum

/-- The number of days of its year that lie in front of a date. -/
def Date.dayOfYear (date : cal.Date) : Nat :=
  cal.monthsLength date.year 1 (date.month-1)+(date.day-1)

theorem monthsLength_succ (year month n : Nat) :
    cal.monthsLength year month (n+1) =
      cal.monthsLength year month n+cal.length year (month+n) := by
  rw [monthsLength, List.range'_concat, List.map_append, List.sum_append]
  simp [monthsLength]

theorem yearsLength_succ (year n : Nat) :
    cal.yearsLength year (n+1) = cal.yearsLength year n+cal.yearLength (year+n) := by
  rw [yearsLength, List.range'_concat, List.map_append, List.sum_append]
  simp [yearsLength]

theorem monthsLength_le (year month : Nat) {m n : Nat} (h : m ≤ n) :
    cal.monthsLength year month m ≤ cal.monthsLength year month n := by
  induction h with
  | refl => exact Nat.le_refl _
  | step _ ih => rw [monthsLength_succ]; omega

namespace Date

theorem next_iterate_day {year month : Nat} (h : 1 ≤ month ∧ month ≤ cal.months) {n : Nat}
    (hn : 1+n ≤ cal.length year month) :
    next^[n] (first year month h) = ⟨year, month, 1+n, h, Nat.le_add_right _ _, hn⟩ := by
  induction n with
  | zero => rfl
  | succ n ih =>
    rw [Function.iterate_succ_apply', ih (by omega), next, dif_pos (by simp only; omega)]
    ext
    · rfl
    · rfl
    · exact Nat.add_assoc 1 n 1

/-- The last day of a month is followed by the first day of the next. -/
theorem next_iterate_month {year month : Nat} (h : 1 ≤ month ∧ month ≤ cal.months)
    (h' : 1 ≤ month+1 ∧ month+1 ≤ cal.months) :
    next^[cal.length year month] (first year month h) = first year (month+1) h' := by
  have hpos := cal.length_pos year month
  obtain ⟨n, hn⟩ : ∃ n, cal.length year month = n+1 := ⟨_, (Nat.sub_add_cancel hpos).symm⟩
  rw [hn, Function.iterate_succ_apply', next_iterate_day h (by omega), next,
    dif_neg (by simp only; omega), dif_pos h'.2]

theorem next_iterate_months {year n : Nat} (h : 1 ≤ 1+n ∧ 1+n ≤ cal.months) :
    next^[cal.monthsLength year 1 n] (newYear year) = first year (1+n) h := by
  induction n with
  | zero => rfl
  | succ n ih =>
    have hn : 1 ≤ 1+n ∧ 1+n ≤ cal.months := by omega
    rw [monthsLength_succ, Nat.add_comm, Function.iterate_add_apply, ih hn]
    exact next_iterate_month hn h

/-- The last day of a year is followed by the first day of the next. -/
theorem next_iterate_year (year : Nat) :
    next^[cal.yearLength year] (newYear year) = (newYear (year+1) : cal.Date) := by
  obtain ⟨m, hm⟩ : ∃ m, cal.months = m+1 := ⟨_, (Nat.sub_add_cancel cal.months_pos).symm⟩
  have hlast : 1 ≤ 1+m ∧ 1+m ≤ cal.months := by omega
  have hpos := cal.length_pos year (1+m)
  obtain ⟨n, hn⟩ : ∃ n, cal.length year (1+m) = n+1 := ⟨_, (Nat.sub_add_cancel hpos).symm⟩
  rw [yearLength, hm, monthsLength_succ, hn, Nat.add_comm, Function.iterate_add_apply,
    next_iterate_months hlast, Function.iterate_succ_apply', next_iterate_day hlast (by omega),
    next, dif_neg (by simp only; omega), dif_neg (by simp only; omega)]

theorem next_iterate_years (year n : Nat) :
    next^[cal.yearsLength year n] (newYear year) = (newYear (year+n) : cal.Date) := by
  induction n with
  | zero => rfl
  | succ n ih =>
    rw [yearsLength_succ, Nat.add_comm, Function.iterate_add_apply, ih, next_iterate_year]
    rfl

/-- A date is reached from the beginning of its year. -/
theorem next_iterate_dayOfYear (date : cal.Date) :
    next^[date.dayOfYear] (newYear date.year) = date := by
  obtain ⟨year, month, day, hmonth, hday⟩ := date
  obtain ⟨m, rfl⟩ : ∃ m, month = 1+m := ⟨month-1, by omega⟩
  obtain ⟨d, rfl⟩ : ∃ d, day = 1+d := ⟨day-1, by omega⟩
  rw [dayOfYear]
  simp only [Nat.add_sub_cancel_left]
  rw [Nat.add_comm, Function.iterate_add_apply, next_iterate_months hmonth,
    next_iterate_day hmonth hday.2]

/-- The days are counted by the years, and by what is in front of the date in its own year. -/
theorem next_iterate_eq (date : cal.Date) {year : Nat} (h : year ≤ date.year) :
    next^[cal.yearsLength year (date.year-year)+date.dayOfYear] (newYear year) = date := by
  rw [Nat.add_comm, Function.iterate_add_apply, next_iterate_years, Nat.add_sub_cancel' h,
    next_iterate_dayOfYear]

theorem dayOfYear_lt (date : cal.Date) : date.dayOfYear < cal.yearLength date.year := by
  have hle := cal.monthsLength_le date.year 1 date.month_in.2
  obtain ⟨m, hm⟩ : ∃ m, date.month = m+1 := ⟨date.month-1, by have := date.month_in; omega⟩
  have hday := date.day_in
  rw [hm] at hle hday
  rw [monthsLength_succ, Nat.add_comm 1 m] at hle
  rw [dayOfYear, yearLength, hm, Nat.add_sub_cancel]
  omega

/-- How many days a date is behind the beginning of a year. -/
def daysSince (year : Nat) (date : cal.Date) : Nat :=
  cal.yearsLength year (date.year-year)+date.dayOfYear

theorem daysSince_next {year : Nat} {date : cal.Date} (h : year ≤ date.year) :
    year ≤ date.next.year ∧ date.next.daysSince year = date.daysSince year+1 := by
  obtain ⟨y, month, day, hmonth, hday⟩ := date
  obtain ⟨m, rfl⟩ : ∃ m, month = m+1 := ⟨month-1, by omega⟩
  simp only at h
  by_cases hd : day+1 ≤ cal.length y (m+1)
  · rw [next, dif_pos hd]
    refine ⟨h, ?_⟩
    simp only [daysSince, dayOfYear]
    omega
  -- behind the last day of a month all of its days are counted
  obtain rfl : day = cal.length y (m+1) := by omega
  by_cases hm : m+1+1 ≤ cal.months
  · rw [next, dif_neg hd, dif_pos hm]
    refine ⟨h, ?_⟩
    simp only [daysSince, dayOfYear, first, Nat.add_sub_cancel, monthsLength_succ,
      Nat.add_comm 1 m]
    omega
  · rw [next, dif_neg hd, dif_neg hm]
    refine ⟨Nat.le_succ_of_le h, ?_⟩
    have hlast : cal.months = m+1 := by omega
    simp only [daysSince, dayOfYear, newYear, first, Nat.succ_sub h, yearsLength_succ, yearLength,
      hlast, Nat.add_sub_cancel, Nat.add_sub_cancel' h, monthsLength_succ, Nat.add_comm 1 m]
    simp only [monthsLength, Nat.sub_self, List.range'_zero, List.map_nil, List.sum_nil]
    omega

/-- No day is told off twice. -/
theorem daysSince_iterate (year n : Nat) :
    year ≤ (next^[n] (newYear year : cal.Date)).year ∧
      (next^[n] (newYear year : cal.Date)).daysSince year = n := by
  induction n with
  | zero =>
    refine ⟨Nat.le_refl year, ?_⟩
    simp [daysSince, dayOfYear, newYear, first, yearsLength, monthsLength]
  | succ n ih =>
    rw [Function.iterate_succ_apply']
    obtain ⟨hle, hnext⟩ := daysSince_next ih.1
    exact ⟨hle, by rw [hnext, ih.2]⟩

/-- Telling off the days and counting them by their years and months are the same. -/
theorem next_iterate_iff {year n : Nat} {date : cal.Date} (h : year ≤ date.year) :
    next^[n] (newYear year) = date ↔ n = date.daysSince year := by
  constructor
  · rintro rfl
    exact (daysSince_iterate year n).2.symm
  · rintro rfl
    exact next_iterate_eq date h

end Date
end Calendar
