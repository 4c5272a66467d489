import Stx.Human
import Stx.ISO8601.Language
import Stx.Lib.Calendar
import Mathlib.Algebra.BigOperators.Ring.Finset
import Mathlib.Data.UInt
import Mathlib.Tactic.IntervalCases
import Mathlib.Tactic.Ring

/-! `UnixTime.{h,cc}`: the instant of a civil time, against the days of the Gregorian calendar told off
from 1 January 1970 on. -/
namespace Stx

/-- `UnixTime(civil)`, every term in the 64 bits that the source computes it in. -/
def UnixTime.utc_micros_ (civil : CivilTime) : UInt64 :=
  let days := UInt64.ofInt (civil.day_-1)
  let days := (List.range' 1970 (civil.year_-1970)).foldl (fun days i =>
    days+UInt64.ofInt (365+(if ISO8601.isLeapYear i then 1 else 0))) days
  let days := (List.range' 1 (civil.month_-1)).foldl (fun days (i : Nat) =>
    days+UInt64.ofInt (ISO8601.daysInMonth civil.year_ i)) days
  days*UInt64.ofNat kMicrosPerDay+UInt64.ofNat civil.hour_*UInt64.ofNat kMicrosPerHour+
    UInt64.ofNat civil.minute_*UInt64.ofNat kMicrosPerMinute+
    UInt64.ofNat civil.second_*UInt64.ofNat kMicrosPerSecond+
    UInt64.ofInt (civil.millisecond_*1000)+
    UInt64.ofInt civil.offset_*UInt64.ofNat kMicrosPerSecond*UInt64.ofInt (-1)

/-- A loop that adds in 64 bits. -/
theorem foldl_add_ofInt {α : Type} (f : α → Int) (xs : List α) (d : Int) :
    xs.foldl (fun days i => days+UInt64.ofInt (f i)) (UInt64.ofInt d) =
      UInt64.ofInt (d+(xs.map f).sum) := by
  induction xs generalizing d with
  | nil => simp
  | cons x xs ih =>
    rw [List.foldl_cons, ← UInt64.ofInt_add, ih, List.map_cons, List.sum_cons, Int.add_assoc]

theorem ofInt_natCast (n : Nat) : UInt64.ofInt n = UInt64.ofNat n := by
  have h : ((n : Int) % 2^64).toNat = n % 2^64 := by omega
  rw [UInt64.ofInt, h, UInt64.ofNat_mod_size]

/-- It makes no difference that the terms wrap before they are added up. -/
theorem utc_micros_eq (civil : CivilTime) :
    UnixTime.utc_micros_ civil = UnixTime.ofCivil civil := by
  simp only [UnixTime.utc_micros_, UnixTime.ofCivil]
  rw [foldl_add_ofInt fun i => 365+(if ISO8601.isLeapYear i then 1 else 0),
    foldl_add_ofInt fun i : Nat => ISO8601.daysInMonth civil.year_ i]
  simp only [List.bind_eq_flatMap, List.pure_def, ← List.map_eq_flatMap, List.map_map,
    Function.comp_def, ← ofInt_natCast, ← UInt64.ofInt_mul, ← UInt64.ofInt_add]
  congr 1
  ring

namespace UnixTime
open ISO8601 Calendar

instance : DecidablePred IsLeap := fun year =>
  inferInstanceAs (Decidable (4 ∣ year ∧ (100 ∣ year → 400 ∣ year)))

def gregorian : Calendar where
  months := 12
  length year month :=
    if month = 2 then (if IsLeap year then 29 else 28)
    else if month ∈ [4, 6, 9, 11] then 30 else 31
  months_pos := by decide
  length_pos year month := by
    split
    · split <;> omega
    · split <;> omega

theorem isDate_iff {year month day : Nat} :
    IsDate year month day ↔
      (1 ≤ month ∧ month ≤ 12) ∧ 1 ≤ day ∧ day ≤ gregorian.length year month := by
  simp only [IsDate, gregorian, List.mem_cons, List.not_mem_nil, or_false]
  by_cases hleap : IsLeap year
  · simp only [hleap, if_true, true_and]
    split <;> [skip; split] <;> omega
  · simp only [hleap, if_false, false_and, or_false]
    split <;> [skip; split] <;> omega

theorem isLeapYear_iff (year : Nat) : isLeapYear year = true ↔ IsLeap year := by
  simp only [isLeapYear, IsLeap, decide_eq_true_eq]
  omega

/-- The formula gives the lengths of the months. -/
theorem daysInMonth_eq (year : Nat) {month : Nat} (h : 1 ≤ month ∧ month ≤ 12) :
    daysInMonth year month = gregorian.length year month := by
  obtain ⟨hlow, hhigh⟩ := h
  by_cases htwo : month = 2
  · subst htwo
    by_cases hleap : IsLeap year
    · simp [daysInMonth, gregorian, (isLeapYear_iff year).2 hleap, hleap]
    · have hnot : isLeapYear year = false :=
        Bool.eq_false_iff.2 fun hyear => hleap ((isLeapYear_iff year).1 hyear)
      simp [daysInMonth, gregorian, hnot, hleap]
  · have hne : (month : Int) ≠ 2 := by omega
    simp only [daysInMonth, gregorian, if_neg htwo, if_neg hne]
    interval_cases month <;> first | rfl | omega

/-- A year has 365 days, a leap year one more. -/
theorem yearLength_eq (year : Nat) :
    (gregorian.yearLength year : Int) = 365+(if isLeapYear year then 1 else 0) := by
  have hmonths : gregorian.yearLength year = 337+gregorian.length year 2 := by
    rw [yearLength, monthsLength]
    simp only [gregorian, List.range']
    simp
    omega
  have htwo := @daysInMonth_eq year 2 (by decide)
  rw [hmonths, Nat.cast_add, ← htwo, daysInMonth, if_pos (by rfl)]
  omega

theorem sum_years (year n : Nat) :
    ((List.range' year n).map fun i => 365+(if isLeapYear i then 1 else 0 : Int)).sum =
      gregorian.yearsLength year n := by
  simp only [yearsLength, Nat.cast_list_sum, List.map_map, Function.comp_def, yearLength_eq]

theorem sum_months (year : Nat) {n : Nat} (h : n ≤ 12) :
    ((List.range' 1 n).map fun i : Nat => daysInMonth year i).sum =
      gregorian.monthsLength year 1 n := by
  rw [monthsLength, Nat.cast_list_sum, List.map_map]
  refine congrArg List.sum (List.map_congr_left fun month hmonth => ?_)
  rw [List.mem_range'_1] at hmonth
  exact daysInMonth_eq year ⟨hmonth.1, by omega⟩

end UnixTime

namespace CivilTime
variable {civil : CivilTime}

/-- A civil time that exists. -/
structure Exists (civil : CivilTime) : Prop where
  date : ISO8601.IsDate civil.year_ civil.month_ civil.day_
  hour : civil.hour_ < 24
  minute : civil.minute_ < 60
  second : civil.second_ < 60
  millisecond : civil.millisecond_ < 1000

def Exists.toDate (h : civil.Exists) : UnixTime.gregorian.Date where
  year := civil.year_
  month := civil.month_
  day := civil.day_
  month_in := (UnixTime.isDate_iff.1 h.date).1
  day_in := (UnixTime.isDate_iff.1 h.date).2

/-- The microseconds since midnight. -/
def timeOfDay (civil : CivilTime) : Int :=
  ((civil.hour_*60+civil.minute_)*60+civil.second_)*1000000+civil.millisecond_*1000

/-- The microseconds since the epoch at a civil time `days` days behind it. -/
def instant (days : Nat) (civil : CivilTime) : Int :=
  days*86400*1000000+civil.timeOfDay-civil.offset_*1000000

theorem Exists.timeOfDay_lt (h : civil.Exists) :
    0 ≤ civil.timeOfDay ∧ civil.timeOfDay < 86400*1000000 := by
  have hhour := h.hour
  have hminute := h.minute
  have hsecond := h.second
  have hmillisecond := h.millisecond
  rw [timeOfDay]
  omega

end CivilTime

namespace UnixTime
open Calendar
variable {civil : CivilTime}

/-- What the terms add up to when nothing wraps. -/
def total (civil : CivilTime) : Int :=
  (civil.day_-1+gregorian.yearsLength 1970 (civil.year_-1970)+
    gregorian.monthsLength civil.year_ 1 (civil.month_-1))*86400*1000000+
    civil.timeOfDay-civil.offset_*1000000

theorem utc_micros_eq_total (h : civil.month_ ≤ 12) :
    utc_micros_ civil = UInt64.ofInt (total civil) := by
  have hmonths := sum_months civil.year_ (by omega : civil.month_-1 ≤ 12)
  rw [utc_micros_eq]
  simp only [ofCivil, sum_years]
  simp only [List.bind_eq_flatMap, List.pure_def, ← List.map_eq_flatMap, List.map_map,
    Function.comp_def, hmonths]
  rw [total, CivilTime.timeOfDay]
  simp only [kMicrosPerDay, kMicrosPerHour, kMicrosPerMinute, kMicrosPerSecond]
  congr 1
  push_cast
  ring

theorem total_eq (h : civil.Exists) : total civil = civil.instant (h.toDate.daysSince 1970) := by
  have hday : 1 ≤ civil.day_ := h.toDate.day_in.1
  have hcast : ((civil.day_-1 : Nat) : Int) = civil.day_-1 := by omega
  have hsince : h.toDate.daysSince 1970 = gregorian.yearsLength 1970 (civil.year_-1970)+
      (gregorian.monthsLength civil.year_ 1 (civil.month_-1)+(civil.day_-1)) := rfl
  rw [total, CivilTime.instant, hsince, Nat.cast_add, Nat.cast_add, hcast]
  ring

/-- The word for a civil time that exists. -/
theorem utc_micros_eq_instant (h : civil.Exists) :
    utc_micros_ civil = UInt64.ofInt (civil.instant (h.toDate.daysSince 1970)) := by
  rw [utc_micros_eq_total h.toDate.month_in.2, total_eq h]

theorem toNat_ofInt {x : Int} (h : 0 ≤ x ∧ x < 2^64) : ((UInt64.ofInt x).toNat : Int) = x := by
  rw [UInt64.ofInt, UInt64.toNat_ofNat']
  omega

theorem yearsLength_le (year n : Nat) : gregorian.yearsLength year n ≤ 366*n := by
  induction n with
  | zero => exact Nat.le_refl 0
  | succ n ih =>
    have hyear := yearLength_eq (year+n)
    rw [yearsLength_succ]
    split at hyear <;> omega

/-- How far the dates of a range of years are from the epoch. -/
theorem daysSince_le (date : gregorian.Date) {year : Nat} (h : date.year ≤ year) :
    date.daysSince 1970 < 366*(year-1970+1) := by
  have hyears := yearsLength_le 1970 (date.year-1970)
  have hday := date.dayOfYear_lt
  have hyear := yearLength_eq date.year
  have hle : date.year-1970 ≤ year-1970 := Nat.sub_le_sub_right h 1970
  rw [Date.daysSince]
  split at hyear <;> omega

/-- The days from the epoch to the date are told off one by one. -/
theorem utc_micros_exact (civil : CivilTime) (h : civil.Exists)
    (hyear : 1970 ≤ civil.year_ ∧ civil.year_ ≤ 65535)
    (hoffset : -2^31 ≤ civil.offset_ ∧ civil.offset_ < 2^31) :
    ∃ days, (∀ n, Date.next^[n] (Date.newYear 1970) = h.toDate ↔ n = days) ∧
      (0 ≤ civil.instant days → ((utc_micros_ civil).toNat : Int) = civil.instant days) := by
  have hdays := daysSince_le h.toDate hyear.2
  obtain ⟨hlow, hhigh⟩ := h.timeOfDay_lt
  refine ⟨h.toDate.daysSince 1970, fun n => Date.next_iterate_iff hyear.1, fun hepoch => ?_⟩
  rw [utc_micros_eq_instant h]
  refine toNat_ofInt ⟨hepoch, ?_⟩
  rw [CivilTime.instant]
  omega

/-- 29 February of a leap year, an hour west of Greenwich. -/
theorem utc_micros_exact_leap_day :
    ∃ days, (∀ n, Date.next^[n] (Date.newYear 1970 : gregorian.Date) =
        ⟨2016, 2, 29, by decide, by decide⟩ ↔ n = days) ∧
      (0 ≤ CivilTime.instant days ⟨2016, 2, 29, 23, 59, 59, 999, -3600⟩ →
        ((utc_micros_ ⟨2016, 2, 29, 23, 59, 59, 999, -3600⟩).toNat : Int) =
          CivilTime.instant days ⟨2016, 2, 29, 23, 59, 59, 999, -3600⟩) :=
  utc_micros_exact ⟨2016, 2, 29, 23, 59, 59, 999, -3600⟩
    ⟨isDate_iff.2 (by decide), by decide, by decide, by decide, by decide⟩
    (by decide) (by decide)

end UnixTime
end Stx
