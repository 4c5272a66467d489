import Stx.Libc

/-! `CivilTime.{h,cc}` and `ISO8601.{h,cc}`. The parsers move a pointer over the characters of a
string, here a position in the memory that they stand in. -/
namespace Stx

/-- All fields are zero at first. What the parsers put into them fits. -/
structure CivilTime where
  year_ : Nat := 0
  month_ : Nat := 0
  day_ : Nat := 0
  hour_ : Nat := 0
  minute_ : Nat := 0
  second_ : Nat := 0
  millisecond_ : Nat := 0
  offset_ : Int := 0
  deriving DecidableEq, Repr

def StringUtil.isDigitString (str : Bytes) : Bool := str.all Libc.isdigit

namespace ISO8601

def isLeapYear (year : Nat) : Bool := (year % 4 = 0 ∧ year % 100 ≠ 0) ∨ year % 400 = 0

def daysInMonth (year : Nat) (month : Int) : Int :=
  if month = 2 then 28+(if isLeapYear year then 1 else 0) else 31-((month-1).tmod 7).tmod 2

/-- The characters of `str.c_str()`: a NUL is behind the last one, and anything behind that. -/
def c_str (beyond : Nat → UInt8) (str : Bytes) (i : Nat) : UInt8 :=
  (str ++ [0])[i]?.getD (beyond i)

section
variable (mem : Nat → UInt8) (endp : Nat)

def chars (beginp len : Nat) : Bytes := (List.range len).map fun i => mem (beginp+i)

/-- A separator and a number of two digits. The parsers differ in how much of it they look for in
front of the end. -/
def parsePart (room : Nat) (separators : List UInt8) (inRange : CivilTime → Int → Bool)
    (set : CivilTime → Nat → CivilTime) (next : Nat → CivilTime → Bool × CivilTime) (beginp : Nat)
    (date : CivilTime) : Bool × CivilTime :=
  let text := chars mem (beginp+1) 2
  if endp < beginp+1+room ∨ mem beginp ∉ separators ∨ ¬StringUtil.isDigitString text then
    (false, date)
  else
    match Libc.stoi text with
    | none => (false, date)
    | some value =>
      if inRange date value then next (beginp+3) (set date value.toNat) else (false, date)

def parseTimeOffset (beginp : Nat) (date : CivilTime) : Bool × CivilTime :=
  if beginp+1 = endp ∧ (mem beginp = 122 ∨ mem beginp = 90) then
    (true, { date with offset_ := 0 })
  else if mem beginp ≠ 43 ∧ mem beginp ≠ 45 then (false, date)
  else
    let sign : Int := if mem beginp = 43 then 1 else -1
    let hours := chars mem (beginp+1) 2
    if endp < beginp+3 ∨ ¬StringUtil.isDigitString hours then (false, date)
    else
      match Libc.stoi hours with
      | none => (false, date)
      | some hour =>
        if ¬(0 ≤ hour ∧ hour ≤ 24) then (false, date)
        else
          let minutes := chars mem (beginp+4) 2
          if endp < beginp+6 ∨ mem (beginp+3) ≠ 58 ∨ ¬StringUtil.isDigitString minutes then
            (false, date)
          else
            match Libc.stoi minutes with
            | none => (false, date)
            | some minute =>
              if 0 ≤ minute ∧ minute ≤ 59 then
                (true, { date with offset_ := sign*(hour*3600+minute*60) })
              else (false, date)

/-- The loop that finds `frac_len` looks at the NUL behind the string too. It is an `int`: a negative
one, behind 2^31 digits, is refused as one above 3 is. -/
def parseSecondFrac (beginp : Nat) (date : CivilTime) : Bool × CivilTime :=
  if endp < beginp+1 ∨ mem beginp ≠ 46 then (false, date)
  else
    let frac_len := ((chars mem (beginp+1) (endp-beginp)).takeWhile Libc.isdigit).length
    if frac_len < 1 ∨ frac_len > 3 then (false, date)
    else
      match Libc.stoul (chars mem (beginp+1) frac_len) with
      | none => (false, date)
      | some millis =>
        parseTimeOffset mem endp (beginp+1+frac_len)
          { date with millisecond_ := millis*10^(3-frac_len) }

/-- What `parseSecond` returns behind its digits. -/
def parseSecondEnd (second_end : Nat) (date : CivilTime) : Bool × CivilTime :=
  match parseSecondFrac mem endp second_end date with
  | (true, date) => (true, date)
  | (false, date) => parseTimeOffset mem endp second_end date

def parseSecond : Nat → CivilTime → Bool × CivilTime :=
  parsePart mem endp 0 [58] (fun _ second => 0 ≤ second ∧ second ≤ 59)
    (fun date second => { date with second_ := second }) (parseSecondEnd mem endp)

def parseMinute : Nat → CivilTime → Bool × CivilTime :=
  parsePart mem endp 0 [58] (fun _ minute => 0 ≤ minute ∧ minute ≤ 59)
    (fun date minute => { date with minute_ := minute }) (parseSecond mem endp)

def parseHour : Nat → CivilTime → Bool × CivilTime :=
  parsePart mem endp 0 (lit "Tt") (fun _ hour => 0 ≤ hour ∧ hour ≤ 24)
    (fun date hour => { date with hour_ := hour }) (parseMinute mem endp)

/-- `daysInMonth` is given the day. -/
def parseDay : Nat → CivilTime → Bool × CivilTime :=
  parsePart mem endp 0 [45] (fun date day => day > 0 ∧ day ≤ daysInMonth date.year_ day)
    (fun date day => { date with day_ := day })
    fun day_end date => if day_end < endp then parseHour mem endp day_end date else (true, date)

def parseMonth : Nat → CivilTime → Bool × CivilTime :=
  parsePart mem endp 2 [45] (fun _ month => month > 0 ∧ month < 13)
    (fun date month => { date with month_ := month })
    fun month_end date => if month_end < endp then parseDay mem endp month_end date else (true, date)

def parseYear (beginp : Nat) (date : CivilTime) : Bool × CivilTime :=
  let text := chars mem beginp 4
  if endp < beginp+4 ∨ ¬StringUtil.isDigitString text then (false, date)
  else
    match Libc.stoi text with
    | none => (false, date)
    | some year =>
      let date := { date with year_ := year.toNat }
      if beginp+4 < endp then parseMonth mem endp (beginp+4) date else (true, date)

end

def parse (beyond : Nat → UInt8) (str : Bytes) : Option CivilTime :=
  match parseYear (c_str beyond str) str.length 0 {} with
  | (true, date) => some date
  | (false, _) => none

example : parse (fun _ => 0) (lit "2014-11-02T18:23:10.5-01:00") =
    some ⟨2014, 11, 2, 18, 23, 10, 500, -3600⟩ := by decide

end ISO8601
end Stx
