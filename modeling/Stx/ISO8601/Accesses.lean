import Stx.ISO8601.Parsers
import Stx.Lib.Traces

/-! The characters that the parsers look at. The parsers once more, with a note of every index that is
read or copied, in the order of the source: the conditions are evaluated one by one, and what is
behind the one that decides is not looked at. -/
namespace Stx.ISO8601

/-- A computation with the indices of the characters that it reads. -/
abbrev Access := Traced Nat

section
variable (mem : Nat → UInt8) (endp : Nat)

def look (i : Nat) : Access UInt8 := ⟨mem i, [i]⟩

/-- `String(begin, begin + len)`. -/
def copy (beginp len : Nat) : Access Bytes := ⟨chars mem beginp len, List.range' beginp len⟩

/-- `isDigitString(begin, end)` ends at the first character that is no digit. -/
def lookDigits : Nat → Nat → Access Bool
  | _, 0 => pure true
  | i, n+1 => do
    let c ← look mem i
    if Libc.isdigit c then lookDigits (i+1) n else pure false

/-- The loop that finds `frac_len`, with `n` characters in front of it. Behind 2^31 digits it is
negative in the source, which then looks at characters in front of these digits. -/
def lookFrac : Nat → Nat → Access Nat
  | _, 0 => pure 0
  | i, n+1 => do
    let c ← look mem i
    if Libc.isdigit c then (· +1) <$> lookFrac (i+1) n else pure 0

def failed (date : CivilTime) : Access (Bool × CivilTime) := pure (false, date)

/-- `isDigitString` of a copy, or on the memory itself. -/
def lookTwo (copied : Bool) (beginp : Nat) : Access Bool :=
  if copied then StringUtil.isDigitString <$> copy mem beginp 2 else lookDigits mem beginp 2

def lookPart (room : Nat) (copied : Bool) (separators : List UInt8)
    (inRange : CivilTime → Int → Bool) (set : CivilTime → Nat → CivilTime)
    (next : Nat → CivilTime → Access (Bool × CivilTime)) (beginp : Nat) (date : CivilTime) :
    Access (Bool × CivilTime) := do
  if endp < beginp+1+room then failed date
  else
    let c ← look mem beginp
    if c ∉ separators then failed date
    else
      let digits ← lookTwo mem copied (beginp+1)
      if ¬digits then failed date
      else
        let text ← copy mem (beginp+1) 2
        match Libc.stoi text with
        | none => failed date
        | some value =>
          if inRange date value then next (beginp+3) (set date value.toNat) else failed date

/-- What a number of two digits is used for. -/
def lookNumber (beginp : Nat) (date : CivilTime)
    (next : Int → Access (Bool × CivilTime)) : Access (Bool × CivilTime) := do
  let digits ← lookDigits mem beginp 2
  if ¬digits then failed date
  else
    let text ← copy mem beginp 2
    match Libc.stoi text with
    | none => failed date
    | some value => next value

/-- `begin + 1 == end && (*begin == 'z' || *begin == 'Z')`. -/
def lookUtc (beginp : Nat) : Access Bool :=
  if beginp+1 = endp then (fun c => decide (c = 122 ∨ c = 90)) <$> look mem beginp
  else pure false

def lookTimeOffset (beginp : Nat) (date : CivilTime) : Access (Bool × CivilTime) := do
  let utc ← lookUtc mem endp beginp
  if utc then pure (true, { date with offset_ := 0 })
  else
    let c ← look mem beginp
    if c ≠ 43 ∧ c ≠ 45 then failed date
    else
      let sign : Int := if c = 43 then 1 else -1
      if endp < beginp+3 then failed date
      else
        lookNumber mem (beginp+1) date fun hour =>
          if ¬(0 ≤ hour ∧ hour ≤ 24) then failed date
          else if endp < beginp+6 then failed date
          else do
            let c ← look mem (beginp+3)
            if c ≠ 58 then failed date
            else
              lookNumber mem (beginp+4) date fun minute =>
                if 0 ≤ minute ∧ minute ≤ 59 then
                  pure (true, { date with offset_ := sign*(hour*3600+minute*60) })
                else failed date

def lookSecondFrac (beginp : Nat) (date : CivilTime) : Access (Bool × CivilTime) := do
  if endp < beginp+1 then failed date
  else
    let c ← look mem beginp
    if c ≠ 46 then failed date
    else
      let frac_len ← lookFrac mem (beginp+1) (endp-beginp)
      if frac_len < 1 ∨ frac_len > 3 then failed date
      else
        let text ← copy mem (beginp+1) frac_len
        match Libc.stoul text with
        | none => failed date
        | some millis =>
          lookTimeOffset mem endp (beginp+1+frac_len)
            { date with millisecond_ := millis*10^(3-frac_len) }

def lookSecondEnd (second_end : Nat) (date : CivilTime) : Access (Bool × CivilTime) := do
  let r ← lookSecondFrac mem endp second_end date
  if r.1 then pure r else lookTimeOffset mem endp second_end r.2

def lookSecond : Nat → CivilTime → Access (Bool × CivilTime) :=
  lookPart mem endp 0 false [58] (fun _ second => 0 ≤ second ∧ second ≤ 59)
    (fun date second => { date with second_ := second }) (lookSecondEnd mem endp)

def lookMinute : Nat → CivilTime → Access (Bool × CivilTime) :=
  lookPart mem endp 0 false [58] (fun _ minute => 0 ≤ minute ∧ minute ≤ 59)
    (fun date minute => { date with minute_ := minute }) (lookSecond mem endp)

def lookHour : Nat → CivilTime → Access (Bool × CivilTime) :=
  lookPart mem endp 0 false (lit "Tt") (fun _ hour => 0 ≤ hour ∧ hour ≤ 24)
    (fun date hour => { date with hour_ := hour }) (lookMinute mem endp)

def lookDay : Nat → CivilTime → Access (Bool × CivilTime) :=
  lookPart mem endp 0 true [45] (fun date day => day > 0 ∧ day ≤ daysInMonth date.year_ day)
    (fun date day => { date with day_ := day })
    fun day_end date => if day_end < endp then lookHour mem endp day_end date else pure (true, date)

def lookMonth : Nat → CivilTime → Access (Bool × CivilTime) :=
  lookPart mem endp 2 true [45] (fun _ month => month > 0 ∧ month < 13)
    (fun date month => { date with month_ := month })
    fun month_end date =>
      if month_end < endp then lookDay mem endp month_end date else pure (true, date)

def lookYear (beginp : Nat) (date : CivilTime) : Access (Bool × CivilTime) := do
  if endp < beginp+4 then failed date
  else
    let digits ← StringUtil.isDigitString <$> copy mem beginp 4
    if ¬digits then failed date
    else
      let text ← copy mem beginp 4
      match Libc.stoi text with
      | none => failed date
      | some year =>
        let date := { date with year_ := year.toNat }
        if beginp+4 < endp then lookMonth mem endp (beginp+4) date else pure (true, date)

end

/-- The call of `parse` on a string. -/
def lookParse (beyond : Nat → UInt8) (str : Bytes) : Access (Bool × CivilTime) :=
  lookYear (c_str beyond str) str.length 0 {}

/- The notes change nothing. -/

section
variable {mem : Nat → UInt8} {endp : Nat}

theorem chars_succ (i n : Nat) : chars mem i (n+1) = mem i :: chars mem (i+1) n := by
  simp [chars, List.range_succ_eq_map, Nat.add_right_comm, Nat.add_assoc]

@[simp] theorem value_look (i : Nat) : (look mem i).value = mem i := rfl

@[simp] theorem value_copy (i n : Nat) : (copy mem i n).value = chars mem i n := rfl

@[simp] theorem value_failed (date : CivilTime) : (failed date).value = (false, date) := rfl

@[simp] theorem value_lookDigits (i n : Nat) :
    (lookDigits mem i n).value = StringUtil.isDigitString (chars mem i n) := by
  induction n generalizing i with
  | zero => rfl
  | succ n ih =>
    rw [chars_succ, lookDigits, Traced.value_bind, Traced.value_ite, value_look, ih]
    simp only [StringUtil.isDigitString, List.all_cons, Traced.value_pure]
    cases Libc.isdigit (mem i) <;> rfl

@[simp] theorem value_lookFrac (i n : Nat) :
    (lookFrac mem i n).value = ((chars mem i n).takeWhile Libc.isdigit).length := by
  induction n generalizing i with
  | zero => rfl
  | succ n ih =>
    rw [chars_succ, lookFrac, Traced.value_bind, Traced.value_ite, value_look, Traced.value_map,
      ih, List.takeWhile_cons]
    cases Libc.isdigit (mem i) <;> rfl

@[simp] theorem value_lookTwo (copied : Bool) (i : Nat) :
    (lookTwo mem copied i).value = StringUtil.isDigitString (chars mem i 2) := by
  cases copied
  · exact value_lookDigits i 2
  · rfl

theorem value_lookPart {room : Nat} {copied : Bool} {separators : List UInt8}
    {inRange : CivilTime → Int → Bool} {set : CivilTime → Nat → CivilTime}
    {next : Nat → CivilTime → Access (Bool × CivilTime)}
    {next' : Nat → CivilTime → Bool × CivilTime} (hnext : ∀ p date, (next p date).value = next' p date)
    (p : Nat) (date : CivilTime) :
    (lookPart mem endp room copied separators inRange set next p date).value =
      parsePart mem endp room separators inRange set next' p date := by
  rw [lookPart, parsePart]
  by_cases hend : endp < p+1+room
  · rw [if_pos hend, if_pos (.inl hend)]
    rfl
  by_cases hsep : mem p ∈ separators
  swap
  · rw [if_neg hend, if_pos (.inr (.inl hsep)), Traced.value_bind, value_look, if_pos hsep]
    rfl
  rw [if_neg hend, Traced.value_bind, value_look, if_neg (not_not.2 hsep), Traced.value_bind,
    value_lookTwo]
  by_cases hdigits : StringUtil.isDigitString (chars mem (p+1) 2) = true
  swap
  · rw [if_pos hdigits, if_pos (.inr (.inr hdigits))]
    rfl
  rw [if_neg (not_not.2 hdigits), if_neg (by simp [hend, hsep, hdigits]), Traced.value_bind,
    value_copy]
  cases Libc.stoi (chars mem (p+1) 2) with
  | none => rfl
  | some value => simp only [Traced.value_ite, hnext, value_failed]

theorem value_lookNumber {next : Int → Access (Bool × CivilTime)} (p : Nat) (date : CivilTime) :
    (lookNumber mem p date next).value =
      if ¬StringUtil.isDigitString (chars mem p 2) then (false, date)
      else
        match Libc.stoi (chars mem p 2) with
        | none => (false, date)
        | some value => (next value).value := by
  rw [lookNumber, Traced.value_bind, value_lookDigits, Traced.value_ite, value_failed,
    Traced.value_bind, value_copy]
  cases Libc.stoi (chars mem p 2) <;> rfl

theorem value_lookUtc (p : Nat) :
    (lookUtc mem endp p).value = decide (p+1 = endp ∧ (mem p = 122 ∨ mem p = 90)) := by
  rw [lookUtc]
  by_cases hend : p+1 = endp
  · rw [if_pos hend, Traced.value_map, value_look]
    simp [hend]
  · rw [if_neg hend]
    simp [hend]

theorem value_lookTimeOffset (p : Nat) (date : CivilTime) :
    (lookTimeOffset mem endp p date).value = parseTimeOffset mem endp p date := by
  rw [lookTimeOffset, parseTimeOffset, Traced.value_bind, value_lookUtc]
  by_cases hutc : p+1 = endp ∧ (mem p = 122 ∨ mem p = 90)
  · rw [if_pos (decide_eq_true hutc), if_pos hutc]
    rfl
  rw [if_neg (by simpa using hutc), if_neg hutc, Traced.value_bind, value_look, Traced.value_ite,
    value_failed]
  by_cases hsign : mem p ≠ 43 ∧ mem p ≠ 45
  · rw [if_pos hsign, if_pos hsign]
  rw [if_neg hsign, if_neg hsign, Traced.value_ite, value_failed, value_lookNumber]
  simp only
  by_cases hend : endp < p+3
  · rw [if_pos hend, if_pos (.inl hend)]
  by_cases hhours : StringUtil.isDigitString (chars mem (p+1) 2) = true
  swap
  · rw [if_neg hend, if_pos hhours, if_pos (.inr hhours)]
  have hhead : ¬(endp < p+3 ∨ ¬StringUtil.isDigitString (chars mem (p+1) 2) = true) :=
    not_or.2 ⟨hend, not_not.2 hhours⟩
  rw [if_neg hend, if_neg (not_not.2 hhours), if_neg hhead]
  cases Libc.stoi (chars mem (p+1) 2) with
  | none => rfl
  | some hour =>
    simp only [Traced.value_ite, value_failed]
    refine if_congr Iff.rfl rfl ?_
    by_cases hend' : endp < p+6
    · rw [if_pos hend', if_pos (.inl hend')]
    rw [if_neg hend', Traced.value_bind, value_look, Traced.value_ite, value_failed]
    by_cases hcolon : mem (p+3) ≠ 58
    · rw [if_pos hcolon, if_pos (.inr (.inl hcolon))]
    rw [if_neg hcolon, value_lookNumber]
    by_cases hminutes : StringUtil.isDigitString (chars mem (p+4) 2) = true
    swap
    · rw [if_pos hminutes, if_pos (.inr (.inr hminutes))]
    have hrest : ¬(endp < p+6 ∨ mem (p+3) ≠ 58 ∨
        ¬StringUtil.isDigitString (chars mem (p+4) 2) = true) :=
      not_or.2 ⟨hend', not_or.2 ⟨hcolon, not_not.2 hminutes⟩⟩
    rw [if_neg (not_not.2 hminutes), if_neg hrest]
    cases Libc.stoi (chars mem (p+4) 2) with
    | none => rfl
    | some minute => simp only [Traced.value_ite, value_failed, Traced.value_pure]

theorem value_lookSecondFrac (p : Nat) (date : CivilTime) :
    (lookSecondFrac mem endp p date).value = parseSecondFrac mem endp p date := by
  rw [lookSecondFrac, parseSecondFrac, Traced.value_ite, value_failed]
  by_cases hend : endp < p+1
  · rw [if_pos hend, if_pos (.inl hend)]
  rw [if_neg hend, Traced.value_bind, value_look, Traced.value_ite, value_failed]
  by_cases hpoint : mem p ≠ 46
  · rw [if_pos hpoint, if_pos (.inr hpoint)]
  rw [if_neg hpoint, if_neg (by simp [hend, not_not.1 hpoint]), Traced.value_bind, value_lookFrac,
    Traced.value_ite, value_failed, Traced.value_bind, value_copy]
  refine if_congr Iff.rfl rfl ?_
  cases Libc.stoul (chars mem (p+1)
      ((chars mem (p+1) (endp-p)).takeWhile Libc.isdigit).length) with
  | none => rfl
  | some millis => exact value_lookTimeOffset _ _

theorem value_lookSecondEnd (p : Nat) (date : CivilTime) :
    (lookSecondEnd mem endp p date).value = parseSecondEnd mem endp p date := by
  rw [lookSecondEnd, parseSecondEnd, Traced.value_bind, Traced.value_ite, Traced.value_pure,
    value_lookSecondFrac, value_lookTimeOffset]
  cases parseSecondFrac mem endp p date with
  | mk taken date => cases taken <;> rfl

theorem value_lookHour (p : Nat) (date : CivilTime) :
    (lookHour mem endp p date).value = parseHour mem endp p date :=
  value_lookPart (value_lookPart (value_lookPart value_lookSecondEnd)) p date

theorem value_lookMonth (p : Nat) (date : CivilTime) :
    (lookMonth mem endp p date).value = parseMonth mem endp p date := by
  refine value_lookPart (fun p date => ?_) p date
  rw [Traced.value_ite, Traced.value_pure]
  refine if_congr Iff.rfl (value_lookPart (fun p date => ?_) p date) rfl
  rw [Traced.value_ite, Traced.value_pure, value_lookHour]

theorem value_lookYear (p : Nat) (date : CivilTime) :
    (lookYear mem endp p date).value = parseYear mem endp p date := by
  rw [lookYear, parseYear, Traced.value_ite, value_failed]
  by_cases hend : endp < p+4
  · rw [if_pos hend, if_pos (.inl hend)]
  rw [if_neg hend, Traced.value_bind, Traced.value_map, value_copy, Traced.value_ite, value_failed]
  by_cases hdigits : StringUtil.isDigitString (chars mem p 4) = true
  swap
  · rw [if_pos hdigits, if_pos (.inr hdigits)]
  rw [if_neg (not_not.2 hdigits), if_neg (by simp [hend, hdigits]), Traced.value_bind, value_copy]
  cases Libc.stoi (chars mem p 4) with
  | none => rfl
  | some year => simp only [Traced.value_ite, value_lookMonth, Traced.value_pure]

end

/-- The parsers with their notes return what `parse` returns. -/
theorem parse_eq_lookParse (beyond : Nat → UInt8) (str : Bytes) :
    parse beyond str =
      if (lookParse beyond str).value.1 then some (lookParse beyond str).value.2 else none := by
  rw [parse, lookParse, value_lookYear]
  split
  · next date h => rw [h]; rfl
  · next date h => rw [h]; rfl

end Stx.ISO8601
