import Stx.UnixTime
import Stx.ISO8601.Parsers

/-! Which civil times are given the same instant, and the instants of the dates that are cut short. -/
namespace Stx.UnixTime
open Calendar
variable {c d : CivilTime}

/- Different times. -/

/-- The years before 1970 are all counted from 1970 on. The last day of a leap year among them is
behind the end of 1970. -/
def SameDay (date date' : gregorian.Date) : Prop :=
  date.year ≤ 1970 ∧ date'.year ≤ 1970 ∧ date.dayOfYear = date'.dayOfYear ∨
    (date.year < 1970 ∧ date.dayOfYear = 365) ∧ date'.year = 1971 ∧ date'.dayOfYear = 0 ∨
    (date'.year < 1970 ∧ date'.dayOfYear = 365) ∧ date.year = 1971 ∧ date.dayOfYear = 0

theorem yearsLength_ge (year n : Nat) : 365*n ≤ gregorian.yearsLength year n := by
  induction n with
  | zero => exact Nat.le_refl 0
  | succ n ih =>
    have hyear := yearLength_eq (year+n)
    rw [yearsLength_succ]
    split at hyear <;> omega

theorem yearLength_le (year : Nat) : gregorian.yearLength year ≤ 366 := by
  have hyear := yearLength_eq year
  split at hyear <;> omega

theorem daysSince_of_le {date : gregorian.Date} (h : date.year ≤ 1970) :
    date.daysSince 1970 = date.dayOfYear := by
  rw [Date.daysSince, Nat.sub_eq_zero_of_le h]
  exact Nat.zero_add _

/-- From 1970 on the days are kept apart. -/
theorem date_eq_of_daysSince {date date' : gregorian.Date} (h : 1970 ≤ date.year)
    (h' : 1970 ≤ date'.year) (heq : date.daysSince 1970 = date'.daysSince 1970) :
    date = date' := by
  rw [← (Date.next_iterate_iff h).2 rfl, heq]
  exact (Date.next_iterate_iff h').2 rfl

/-- A date of a year before 1970 and one behind 1970. -/
theorem daysSince_eq_iff_of_lt {date date' : gregorian.Date} (h : date.year < 1970)
    (h' : 1970 < date'.year) :
    date.daysSince 1970 = date'.daysSince 1970 ↔
      date.dayOfYear = 365 ∧ date'.year = 1971 ∧ date'.dayOfYear = 0 := by
  have hday := Nat.lt_of_lt_of_le date.dayOfYear_lt (yearLength_le date.year)
  have hyears := yearsLength_ge 1970 (date'.year-1970)
  rw [daysSince_of_le (Nat.le_of_lt h), Date.daysSince]
  constructor
  · intro heq
    have hyear : date'.year = 1971 := by omega
    rw [hyear] at hyears heq
    omega
  · rintro ⟨hlast, hyear, hfirst⟩
    rw [hlast, hfirst, hyear]
    decide

theorem daysSince_eq_iff {date date' : gregorian.Date} (hne : date ≠ date') :
    date.daysSince 1970 = date'.daysSince 1970 ↔ SameDay date date' := by
  rw [SameDay]
  by_cases hle : date.year ≤ 1970
  · by_cases hle' : date'.year ≤ 1970
    · rw [daysSince_of_le hle, daysSince_of_le hle']
      omega
    have hlt : date.year < 1970 ∨ date.year = 1970 := by omega
    cases hlt with
    | inl hlt =>
      rw [daysSince_eq_iff_of_lt hlt (Nat.not_le.1 hle')]
      omega
    | inr heq =>
      have hnot : date.daysSince 1970 ≠ date'.daysSince 1970 := fun h =>
        hne (date_eq_of_daysSince (Nat.le_of_eq heq.symm) (Nat.le_of_lt (Nat.not_le.1 hle')) h)
      simp only [hnot, false_iff]
      omega
  by_cases hlt' : date'.year < 1970
  · rw [eq_comm, daysSince_eq_iff_of_lt hlt' (Nat.not_le.1 hle)]
    omega
  have hnot : date.daysSince 1970 ≠ date'.daysSince 1970 := fun h =>
    hne (date_eq_of_daysSince (Nat.le_of_lt (Nat.not_le.1 hle)) (Nat.not_lt.1 hlt') h)
  simp only [hnot, false_iff]
  omega

theorem timeOfDay_inj (hc : c.Exists) (hd : d.Exists) (h : c.timeOfDay = d.timeOfDay) :
    c.hour_ = d.hour_ ∧ c.minute_ = d.minute_ ∧ c.second_ = d.second_ ∧
      c.millisecond_ = d.millisecond_ := by
  have hminute := hc.minute
  have hsecond := hc.second
  have hmillisecond := hc.millisecond
  have hminute' := hd.minute
  have hsecond' := hd.second
  have hmillisecond' := hd.millisecond
  rw [CivilTime.timeOfDay, CivilTime.timeOfDay] at h
  omega

/-- Times that are less than the range of a word apart are kept apart by it. -/
theorem ofInt_inj {x y : Int} (h : -2^64 < x-y ∧ x-y < 2^64) :
    UInt64.ofInt x = UInt64.ofInt y ↔ x = y := by
  constructor
  · intro heq
    have hnat := congrArg UInt64.toNat heq
    simp only [UInt64.ofInt, UInt64.toNat_ofNat'] at hnat
    omega
  · exact congrArg UInt64.ofInt

/-- Day and time of day are kept apart. -/
theorem instant_inj {days days' : Nat} (hc : c.Exists) (hd : d.Exists)
    (hoffset : c.offset_ = d.offset_) :
    c.instant days = d.instant days' ↔ days = days' ∧ c.timeOfDay = d.timeOfDay := by
  have htime := hc.timeOfDay_lt
  have htime' := hd.timeOfDay_lt
  rw [CivilTime.instant, CivilTime.instant, hoffset]
  omega

/-- Different times with one offset are different instants, but for two that the years before 1970
put on one day. -/
theorem utc_micros_ne_iff (hc : c.Exists) (hd : d.Exists) (hne : c ≠ d)
    (hoffset : c.offset_ = d.offset_) (hyear : c.year_ ≤ 9999) (hyear' : d.year_ ≤ 9999) :
    utc_micros_ c ≠ utc_micros_ d ↔
      ¬(SameDay hc.toDate hd.toDate ∧ c.timeOfDay = d.timeOfDay) := by
  have hdays := daysSince_le hc.toDate hyear
  have hdays' := daysSince_le hd.toDate hyear'
  have htime := hc.timeOfDay_lt
  have htime' := hd.timeOfDay_lt
  have hnear : -2^64 < c.instant (hc.toDate.daysSince 1970)-d.instant (hd.toDate.daysSince 1970) ∧
      c.instant (hc.toDate.daysSince 1970)-d.instant (hd.toDate.daysSince 1970) < 2^64 := by
    rw [CivilTime.instant, CivilTime.instant, hoffset]
    omega
  rw [utc_micros_eq_instant hc, utc_micros_eq_instant hd, Ne, ofInt_inj hnear,
    instant_inj hc hd hoffset]
  refine not_congr ?_
  by_cases hdate : hc.toDate = hd.toDate
  · -- then the times of day differ
    have hnot : c.timeOfDay ≠ d.timeOfDay := by
      intro htime
      have hclock := timeOfDay_inj hc hd htime
      have hyear : c.year_ = d.year_ := congrArg Date.year hdate
      have hmonth : c.month_ = d.month_ := congrArg Date.month hdate
      have hday : c.day_ = d.day_ := congrArg Date.day hdate
      apply hne
      cases c
      cases d
      rw [CivilTime.mk.injEq]
      exact ⟨hyear, hmonth, hday, hclock.1, hclock.2.1, hclock.2.2.1, hclock.2.2.2, hoffset⟩
    simp only [hnot, and_false]
  · rw [daysSince_eq_iff hdate]

/-- Noon of 1 March 1969 and noon of 1 March 1970. -/
theorem utc_micros_ne_iff_march :
    utc_micros_ ⟨1969, 3, 1, 12, 0, 0, 0, 0⟩ ≠ utc_micros_ ⟨1970, 3, 1, 12, 0, 0, 0, 0⟩ ↔
      ¬(SameDay ⟨1969, 3, 1, by decide, by decide⟩ ⟨1970, 3, 1, by decide, by decide⟩ ∧
        CivilTime.timeOfDay ⟨1969, 3, 1, 12, 0, 0, 0, 0⟩ =
          CivilTime.timeOfDay ⟨1970, 3, 1, 12, 0, 0, 0, 0⟩) :=
  utc_micros_ne_iff
    ⟨isDate_iff.2 (by decide), by decide, by decide, by decide, by decide⟩
    ⟨isDate_iff.2 (by decide), by decide, by decide, by decide, by decide⟩
    (by decide) rfl (by decide) (by decide)

theorem new_year_collapses : ¬∀ c d : CivilTime, c.Exists → d.Exists → c ≠ d →
    c.offset_ = d.offset_ → c.year_ ≤ 9999 → d.year_ ≤ 9999 →
    utc_micros_ c ≠ utc_micros_ d := by
  intro h
  refine h ⟨1969, 1, 1, 0, 0, 0, 0, 0⟩ ⟨1970, 1, 1, 0, 0, 0, 0, 0⟩
    ⟨isDate_iff.2 (by decide), by decide, by decide, by decide, by decide⟩
    ⟨isDate_iff.2 (by decide), by decide, by decide, by decide, by decide⟩
    (by decide) rfl (by decide) (by decide) ?_
  decide

/- Dates that are cut short. -/

open ISO8601

section
variable (beyond : Nat → UInt8) (c y m : TwoDigits)

/-- The instant that a string stands for. -/
def instantOf (s : Bytes) : Option UInt64 := (parse beyond s).map utc_micros_

/-- The digits of the first month and of the first day. -/
def one : TwoDigits := ⟨0, 1⟩

/-- A month stands for the beginning of its first day. -/
def MonthStarts : Prop :=
  instantOf beyond (Stamp.month c y m).text = instantOf beyond (Stamp.day c y m one).text

def YearStarts : Prop :=
  instantOf beyond (Stamp.year c y).text = instantOf beyond (Stamp.day c y one one).text

/-- The instant is the sum itself, not the sum modulo `2^64`. -/
def NoWrap (s : Bytes) : Prop :=
  ∀ civil, parse beyond s = some civil → ((utc_micros_ civil).toNat : Int) = total civil

end

section
variable {beyond : Nat → UInt8} {c y m : TwoDigits}

theorem parse_text {stamp : Stamp} (h : stamp.Taken []) :
    parse beyond stamp.text = some stamp.civil :=
  (parse_eq_some_iff beyond _ _).2 ⟨stamp, [], (List.append_nil _).symm, h, rfl⟩

/-- What a sum without time of day and offset is in 64 bits, up to the year 9999. -/
theorem toNat_utc_micros_iff {civil : CivilTime} (h : civil.month_ ≤ 12)
    (hlt : total civil < 2^64) :
    ((utc_micros_ civil).toNat : Int) = total civil ↔ 0 ≤ total civil := by
  rw [utc_micros_eq_total h]
  constructor
  · intro heq
    rw [← heq]
    exact Int.natCast_nonneg _
  · exact fun hge => toNat_ofInt ⟨hge, hlt⟩

/-- A sum that is a day short is another instant. -/
theorem utc_micros_ne_of_day {civil civil' : CivilTime} (h : civil.month_ ≤ 12)
    (h' : civil'.month_ ≤ 12) (htotal : total civil = total civil'-86400*1000000) :
    utc_micros_ civil ≠ utc_micros_ civil' := by
  rw [utc_micros_eq_total h, utc_micros_eq_total h', Ne, ofInt_inj (by omega)]
  omega

theorem yearStamp_le (c y : TwoDigits) : 100*c.value+y.value ≤ 9999 := by
  have hc := c.value_le
  have hy := y.value_le
  omega

/-- The sum for a date without a time of day. -/
theorem total_date (year month day : Nat) :
    total { year_ := year, month_ := month, day_ := day } =
      (day-1+gregorian.yearsLength 1970 (year-1970)+gregorian.monthsLength year 1 (month-1))*
        86400*1000000 := by
  rw [total, CivilTime.timeOfDay]
  push_cast
  ring

theorem total_date_lt {year month day : Nat} (hyear : year ≤ 9999) (hmonth : month ≤ 12)
    (hday : day ≤ 31) : total { year_ := year, month_ := month, day_ := day } < 2^64 := by
  have hyears := yearsLength_le 1970 (year-1970)
  have hmonths := gregorian.monthsLength_le year 1 (by omega : month-1 ≤ 12)
  have hlength : gregorian.monthsLength year 1 12 ≤ 366 := yearLength_le year
  rw [total_date]
  omega

/-- The first day of the first month is the only one that nothing is in front of. -/
theorem monthsLength_eq_zero_iff (year : Nat) {month : Nat} (h : 1 ≤ month) :
    gregorian.monthsLength year 1 (month-1) = 0 ↔ month = 1 := by
  constructor
  · intro hzero
    by_contra hne
    have hle := gregorian.monthsLength_le year 1 (by omega : 1 ≤ month-1)
    have hpos : gregorian.monthsLength year 1 1 = 31 := rfl
    omega
  · rintro rfl
    rfl

theorem yearsLength_eq_zero_iff {year : Nat} (h : 1970 ≤ year) :
    gregorian.yearsLength 1970 (year-1970) = 0 ↔ year = 1970 := by
  have hge := yearsLength_ge 1970 (year-1970)
  constructor
  · intro hzero
    omega
  · rintro rfl
    rfl

theorem noWrap_iff {stamp : Stamp} (h : stamp.Taken [])
    (hmonth : stamp.civil.month_ ≤ 12) (hlt : total stamp.civil < 2^64) :
    NoWrap beyond stamp.text ↔ 0 ≤ total stamp.civil := by
  rw [NoWrap, parse_text h, ← toNat_utc_micros_iff hmonth hlt]
  constructor
  · exact fun hall => hall _ rfl
  · rintro heq civil hcivil
    cases hcivil
    exact heq

/-- The parser leaves the day at zero, a day in front of the first of the month. A year or a month is
never taken for its beginning, and 1970 and its January wrap around. -/
theorem truncated_never (beyond : Nat → UInt8) (c y m : TwoDigits)
    (hyear : 1970 ≤ 100*c.value+y.value) (hmonth : 1 ≤ m.value ∧ m.value ≤ 12) :
    (¬MonthStarts beyond c y m ∧
        (NoWrap beyond (Stamp.month c y m).text ↔
          ¬(100*c.value+y.value = 1970 ∧ m.value = 1))) ∧
      ¬YearStarts beyond c y ∧
        (NoWrap beyond (Stamp.year c y).text ↔ 100*c.value+y.value ≠ 1970) := by
  have hone : one.value = 1 := rfl
  have hle := yearStamp_le c y
  have htaken : (Stamp.month c y m).Taken [] := ⟨hmonth, rfl⟩
  have htaken' : (Stamp.year c y).Taken [] := rfl
  have hzero := monthsLength_eq_zero_iff (100*c.value+y.value) hmonth.1
  have hzero' := yearsLength_eq_zero_iff hyear
  refine ⟨⟨fun h => ?_, ?_⟩, fun h => ?_, ?_⟩
  · have hday : (Stamp.day c y m one).Taken [] := ⟨hmonth, by decide, rfl⟩
    rw [MonthStarts, instantOf, instantOf, parse_text htaken, parse_text hday] at h
    refine utc_micros_ne_of_day hmonth.2 hmonth.2 ?_ (Option.some.inj h)
    simp only [Stamp.civil, total_date, hone]
    omega
  · rw [noWrap_iff htaken hmonth.2 (total_date_lt hle hmonth.2 (Nat.zero_le 31))]
    simp only [Stamp.civil, total_date]
    omega
  · have hday : (Stamp.day c y one one).Taken [] := ⟨by decide, by decide, rfl⟩
    rw [YearStarts, instantOf, instantOf, parse_text htaken', parse_text hday] at h
    refine utc_micros_ne_of_day (Nat.zero_le 12) (Nat.one_le_ofNat : 1 ≤ 12) ?_
      (Option.some.inj h)
    simp only [Stamp.civil, total_date, hone]
    simp only [monthsLength, Nat.sub_self, Nat.zero_sub, List.range'_zero]
    omega
  · rw [noWrap_iff htaken' (Nat.zero_le 12) (total_date_lt hle (Nat.zero_le 12) (Nat.zero_le 31))]
    simp only [Stamp.civil, total_date]
    simp only [monthsLength, Nat.zero_sub, List.range'_zero, List.map_nil, List.sum_nil]
    omega

/-- November 2014. -/
theorem truncated_never_november :
    (¬MonthStarts (fun _ => 0) ⟨2, 0⟩ ⟨1, 4⟩ ⟨1, 1⟩ ∧
        (NoWrap (fun _ => 0) (Stamp.month ⟨2, 0⟩ ⟨1, 4⟩ ⟨1, 1⟩).text ↔
          ¬(100*TwoDigits.value ⟨2, 0⟩+TwoDigits.value ⟨1, 4⟩ = 1970 ∧
            TwoDigits.value ⟨1, 1⟩ = 1))) ∧
      ¬YearStarts (fun _ => 0) ⟨2, 0⟩ ⟨1, 4⟩ ∧
        (NoWrap (fun _ => 0) (Stamp.year ⟨2, 0⟩ ⟨1, 4⟩).text ↔
          100*TwoDigits.value ⟨2, 0⟩+TwoDigits.value ⟨1, 4⟩ ≠ 1970) :=
  truncated_never (fun _ => 0) ⟨2, 0⟩ ⟨1, 4⟩ ⟨1, 1⟩ (by decide) (by decide)

/-- `2014-11` is 31 October. -/
theorem november_not_starts : ¬∀ (beyond : Nat → UInt8) (c y m : TwoDigits),
    1970 ≤ 100*c.value+y.value → 1 ≤ m.value ∧ m.value ≤ 12 →
      MonthStarts beyond c y m ∧ YearStarts beyond c y ∧
        NoWrap beyond (Stamp.month c y m).text ∧ NoWrap beyond (Stamp.year c y).text := by
  intro h
  have hstarts := (h (fun _ => 0) ⟨2, 0⟩ ⟨1, 4⟩ ⟨1, 1⟩ (by decide) (by decide)).1
  have hmonth : instantOf (fun _ => 0) (Stamp.month ⟨2, 0⟩ ⟨1, 4⟩ ⟨1, 1⟩).text =
      some 1414713600000000 := by decide +kernel
  have hday : instantOf (fun _ => 0) (Stamp.day ⟨2, 0⟩ ⟨1, 4⟩ ⟨1, 1⟩ one).text =
      some 1414800000000000 := by decide +kernel
  rw [MonthStarts, hmonth, hday] at hstarts
  cases hstarts

end
end Stx.UnixTime
