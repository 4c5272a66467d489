import Stx.ISO8601

/-! `human.{h,cc}`, with the civil times of `UnixTime.cc` and the factors of `time_constants.h`. A
`UnixTime` and a `Duration` are their numbers of microseconds, in 64 bits. -/
namespace Stx

def kMicrosPerSecond : Nat := 1000000
def kMillisPerSecond : Nat := 1000
def kMicrosPerMinute : Nat := 60*kMicrosPerSecond
def kMicrosPerHour : Nat := 3600*kMicrosPerSecond
def kMicrosPerDay : Nat := 24*kMicrosPerHour
def kMicrosPerWeek : Nat := 7*kMicrosPerDay
def kMicrosPerYear : Nat := 365*kMicrosPerDay

/-- `UnixTime(civil)`. Time before the epoch wraps. -/
def UnixTime.ofCivil (civil : CivilTime) : UInt64 :=
  let years := (List.range' 1970 (civil.year_-1970)).map fun i =>
    365+(if ISO8601.isLeapYear i then 1 else 0 : Int)
  let months := (List.range' 1 (civil.month_-1)).map fun i =>
    ISO8601.daysInMonth civil.year_ i
  let days : Int := civil.day_-1+years.sum+months.sum
  UInt64.ofInt (days*kMicrosPerDay+civil.hour_*kMicrosPerHour+civil.minute_*kMicrosPerMinute+
    civil.second_*kMicrosPerSecond+civil.millisecond_*1000-civil.offset_*kMicrosPerSecond)

/-- What `strptime` finds: `struct tm`, as far as it is read. -/
structure Tm where
  tm_sec : Int := 0
  tm_min : Int := 0
  tm_hour : Int := 0
  tm_mday : Int := 0
  tm_mon : Int := 0
  tm_year : Int := 0

/-- `CivilTime::parseString`, with a `strptime` that has its format. The fields have 8 bits, and the
year has 16. -/
def CivilTime.parseString (strptime : Bytes → Option Tm) (str : Bytes) : Option CivilTime :=
  (strptime str).map fun t =>
    { second_ := (t.tm_sec % 2^8).toNat
      minute_ := (t.tm_min % 2^8).toNat
      hour_ := (t.tm_hour % 2^8).toNat
      day_ := (t.tm_mday % 2^8).toNat
      month_ := ((t.tm_mon+1) % 2^8).toNat
      year_ := ((t.tm_year+1900) % 2^16).toNat }

theorem CivilTime.parseString_none {strptime : Bytes → Option Tm} {str : Bytes}
    (h : strptime str = none) : parseString strptime str = none := by
  rw [parseString, h, Option.map_none]

namespace Human

/-- The number of characters that `std::stoull` reads. -/
def numeralLength (str : Bytes) : Nat :=
  let rest := str.dropWhile Libc.isspace
  let sign := if rest.head? = some 45 ∨ rest.head? = some 43 then 1 else 0
  str.length-rest.length+sign+(Libc.Numeral.ofText str).digits.length

def durationUnits : List (List Bytes × Nat) :=
  [([lit "s", lit "sec", lit "secs", lit "second", lit "seconds"], kMicrosPerSecond),
    ([lit "m", lit "min", lit "mins", lit "minute", lit "minutes"], kMicrosPerMinute),
    ([lit "h", lit "hour", lit "hours"], kMicrosPerHour),
    ([lit "d", lit "day", lit "days"], kMicrosPerDay),
    ([lit "w", lit "week", lit "weeks"], kMicrosPerWeek),
    ([lit "y", lit "year", lit "years"], kMicrosPerYear)]

def parseDuration (str : Bytes) : Result (Option UInt64) := do
  let value ← Libc.stoull str
  let time_suffix := str.drop (numeralLength str)
  pure ((durationUnits.find? fun u => u.1.contains time_suffix).map fun u => value*UInt64.ofNat u.2)

def bound_milli : Nat := 30000000000
def bound_micro : Nat := 30000000000000

/-- The unit of a raw timestamp goes by its magnitude. -/
def parseTimestamp (str : Bytes) : Option UInt64 :=
  if StringUtil.isDigitString str then
    match Libc.stoul str with
    | none => none
    | some ts =>
      if ts < bound_milli then some (UInt64.ofNat (ts*kMicrosPerSecond))
      else if ts > bound_milli ∧ ts < bound_micro then some (UInt64.ofNat (ts*kMillisPerSecond))
      else if ts > bound_micro then some (UInt64.ofNat ts)
      else none
  else none

section
variable (beyond : Nat → UInt8) (strptime : Bytes → Option Tm) (now : UInt64)

def parseCivil (str : Bytes) : Option UInt64 :=
  match ISO8601.parse beyond str with
  | some civil => some (UnixTime.ofCivil civil)
  | none =>
    match CivilTime.parseString strptime str with
    | some civil => some (UnixTime.ofCivil civil)
    | none => if (lit "0000-00-00").isPrefixOf str then some 0 else none

/-- The duration behind a minus, if there is one. -/
def parseOffset (str : Bytes) : Result (Option UInt64) :=
  match str with
  | 45 :: c :: rest => if Libc.isdigit c then parseDuration (c :: rest) else .ok none
  | _ => .ok none

def parseTime (str : Bytes) : Result (Option UInt64) :=
  if str = lit "now" then .ok (some now)
  else do
    match ← parseOffset str with
    | some offset => pure (some (now-offset))
    | none =>
      match parseTimestamp str with
      | some time => pure (some time)
      | none => pure (parseCivil beyond strptime str)

end

example : parseTime (fun _ => 0) (fun _ => none) 0 (lit "2014-11-02T18:23:10.5-01:00") =
    .ok (some (1414956190*1000000+500000)) := by decide +kernel

end Human
end Stx
