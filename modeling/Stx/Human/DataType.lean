import Stx.Human.Times
import Stx.StringUtil.Split
import Stx.UTF8

/-! The data types of `human.{h,cc}` that are detected for texts, one by one and in a series, with
`StringUtil::isNumber`. -/
namespace Stx

namespace StringUtil

/-- A loop over digits. It returns false at anything else. -/
def digitLoop : Bytes → Option Bytes
  | [] => some []
  | c :: cur => if Libc.isdigit c then digitLoop cur else none

/-- The first loop goes on to the end, so that nothing is left for the separator and the second. -/
def isNumber (str : Bytes) : Bool :=
  let cur := if str.head? = some 45 then str.tail else str
  match digitLoop cur with
  | none => false
  | some cur =>
    let cur := if cur.head? = some 46 ∨ cur.head? = some 44 then cur.tail else cur
    (digitLoop cur).isSome

def includes (str subject : Bytes) : Bool := (find str subject 0).isSome

end StringUtil

inductive HumanDataType where
  | unknown | datetime | datetimeNullable | url | urlNullable | currency | currencyNullable
  | unsignedInteger | unsignedIntegerNullable | signedInteger | signedIntegerNullable
  | float | floatNullable | boolean | booleanNullable | nullOrEmpty | text | binary
  deriving DecidableEq, Inhabited, Repr

namespace Human

def isNullOrEmpty (value : Bytes) : Bool :=
  value.isEmpty ∨ value = lit "null" ∨ value = lit "NULL"

def booleans : List Bytes :=
  [lit "true", lit "TRUE", lit "false", lit "FALSE", lit "yes", lit "YES", lit "no", lit "NO"]

section
variable (beyond : Nat → UInt8) (strptime : Bytes → Option Tm) (now : UInt64)

def detectDataType (value : Bytes) : Result HumanDataType :=
  if StringUtil.isNumber value then
    if StringUtil.includes value (lit ".") ∨ StringUtil.includes value (lit ",") then .ok .float
    else if (lit "-").isPrefixOf value then .ok .signedInteger
    else .ok .unsignedInteger
  else if isNullOrEmpty value then .ok .nullOrEmpty
  else if booleans.contains value then .ok .boolean
  else do
    let time ← parseTime beyond strptime now value
    if time.isSome then pure .datetime
    else do
      let valid ← UTF8.isValidUTF8 value
      pure (if valid then .text else .binary)

/-- What a missing value makes of the type so far. -/
def nullable : HumanDataType → HumanDataType
  | .datetime | .datetimeNullable => .datetimeNullable
  | .url | .urlNullable => .urlNullable
  | .currency | .currencyNullable => .currencyNullable
  | .unsignedInteger | .unsignedIntegerNullable => .unsignedIntegerNullable
  | .signedInteger | .signedIntegerNullable => .signedIntegerNullable
  | .float | .floatNullable => .floatNullable
  | .boolean | .booleanNullable => .booleanNullable
  | .text => .text
  | .binary => .binary
  | .unknown | .nullOrEmpty => .nullOrEmpty

/- The cases of the integers and of the fractions, each with the case that it falls through to. -/

def unsignedNullable : HumanDataType → HumanDataType
  | .float | .floatNullable => .floatNullable
  | .signedInteger | .signedIntegerNullable => .signedIntegerNullable
  | .nullOrEmpty | .unsignedInteger | .unsignedIntegerNullable => .unsignedIntegerNullable
  | _ => .text

def unsigned : HumanDataType → HumanDataType
  | .float => .float
  | .signedInteger => .signedInteger
  | prev => unsignedNullable prev

def signedNullable : HumanDataType → HumanDataType
  | .float | .floatNullable => .floatNullable
  | .nullOrEmpty | .unsignedInteger | .unsignedIntegerNullable | .signedInteger
  | .signedIntegerNullable => .signedIntegerNullable
  | _ => .text

def signed : HumanDataType → HumanDataType
  | .float => .float
  | .unsignedInteger => .signedInteger
  | prev => signedNullable prev

def fractionNullable : HumanDataType → HumanDataType
  | .nullOrEmpty | .floatNullable | .unsignedInteger | .unsignedIntegerNullable | .signedInteger
  | .signedIntegerNullable => .floatNullable
  | _ => .text

def fraction : HumanDataType → HumanDataType
  | .unsignedInteger | .signedInteger => .float
  | prev => fractionNullable prev

/-- A type that goes with itself and with missing values only. -/
def alone (nullableType prev : HumanDataType) : HumanDataType :=
  if prev = .nullOrEmpty ∨ prev = nullableType then nullableType else .text

/-- The switch of `detectDataTypeSeries`. -/
def joinType (type prev : HumanDataType) : HumanDataType :=
  match type with
  | .unknown => .unknown
  | .text => .text
  | .binary => .binary
  | .nullOrEmpty => nullable prev
  | .datetime | .datetimeNullable => alone .datetimeNullable prev
  | .url | .urlNullable => alone .urlNullable prev
  | .currency | .currencyNullable => alone .currencyNullable prev
  | .unsignedInteger => unsigned prev
  | .unsignedIntegerNullable => unsignedNullable prev
  | .signedInteger => signed prev
  | .signedIntegerNullable => signedNullable prev
  | .float => fraction prev
  | .floatNullable => fractionNullable prev
  | .boolean | .booleanNullable => alone .booleanNullable prev

def detectDataTypeSeries (value : Bytes) (prev : HumanDataType) : Result HumanDataType :=
  if prev = .binary then .ok prev
  else do
    let type ← detectDataType beyond strptime now value
    pure (if type = prev ∨ prev = .unknown then type else joinType type prev)

end

/- What a series depends on. -/

/-- The type of a series, from the type so far and that of the next value. -/
def next (prev type : HumanDataType) : HumanDataType :=
  if prev = .binary then prev
  else if type = prev ∨ prev = .unknown then type
  else joinType type prev

def detected : List HumanDataType :=
  [.datetime, .unsignedInteger, .signedInteger, .float, .boolean, .nullOrEmpty, .text, .binary]

/-- Two values may be swapped. -/
theorem next_right_comm (prev : HumanDataType) :
    ∀ type ∈ detected, ∀ type' ∈ detected, next (next prev type) type' =
      next (next prev type') type := by
  cases prev <;> decide

section
variable (strptime : Bytes → Option Tm)

theorem parseCivil_beyond (beyond beyond' : Nat → UInt8) (str : Bytes) :
    parseCivil beyond strptime str = parseCivil beyond' strptime str := by
  have hparse : ISO8601.parse beyond str = ISO8601.parse beyond' str :=
    Option.ext fun civil => by
      rw [ISO8601.parse_eq_some_iff beyond, ISO8601.parse_eq_some_iff beyond']
  rw [parseCivil, parseCivil, hparse]

/-- Whether there is a time depends on the string alone. -/
theorem parseTime_isSome {α : Type} (f : Bool → Result α) (beyond beyond' : Nat → UInt8)
    (now now' : UInt64) (str : Bytes) :
    (parseTime beyond strptime now str >>= fun time => f time.isSome) =
      (parseTime beyond' strptime now' str >>= fun time => f time.isSome) := by
  by_cases hnow : str = lit "now"
  · rw [parseTime, parseTime, if_pos hnow, if_pos hnow]
    rfl
  · cases hoffset : parseOffset str with
    | ok offset =>
      cases offset with
      | none =>
        rw [parseTime_of_no_offset beyond strptime now hnow hoffset,
          parseTime_of_no_offset beyond' strptime now' hnow hoffset,
          parseCivil_beyond strptime beyond beyond']
      | some offset =>
        rw [parseTime, parseTime, if_neg hnow, if_neg hnow, hoffset]
        rfl
    | raise e =>
      rw [parseTime, parseTime, if_neg hnow, if_neg hnow, hoffset]
      rfl
    | diverge =>
      rw [parseTime, parseTime, if_neg hnow, if_neg hnow, hoffset]
      rfl

theorem detectDataType_eq (beyond beyond' : Nat → UInt8) (now now' : UInt64) (value : Bytes) :
    detectDataType beyond strptime now value = detectDataType beyond' strptime now' value := by
  have htime := parseTime_isSome strptime
    (fun isTime => if isTime then pure .datetime else do
      let valid ← UTF8.isValidUTF8 value
      pure (if valid then HumanDataType.text else .binary)) beyond beyond' now now' value
  rw [detectDataType, detectDataType, htime]

theorem mem_detected {beyond : Nat → UInt8} {now : UInt64} {value : Bytes} {type : HumanDataType}
    (h : detectDataType beyond strptime now value = .ok type) : type ∈ detected := by
  rw [detectDataType] at h
  split at h
  · split at h
    · cases h; decide
    · split at h <;> cases h <;> decide
  · split at h
    · cases h; decide
    · split at h
      · cases h; decide
      · obtain ⟨time, -, h⟩ := Result.bind_eq_ok h
        split at h
        · cases h; decide
        · obtain ⟨valid, -, h⟩ := Result.bind_eq_ok h
          cases valid <;> cases h <;> decide

theorem detectDataTypeSeries_eq {beyond : Nat → UInt8} {now : UInt64} {value : Bytes}
    {type : HumanDataType} (h : detectDataType beyond strptime now value = .ok type)
    (prev : HumanDataType) :
    detectDataTypeSeries beyond strptime now value prev = .ok (next prev type) := by
  rw [detectDataTypeSeries, next]
  split
  · rfl
  · rw [h]
    rfl

/-- One value of a series, with what is behind it in memory and the clock when it is read. -/
structure Reading where
  beyond : Nat → UInt8
  now : UInt64
  value : Bytes

def Reading.type (r : Reading) : Result HumanDataType :=
  detectDataType r.beyond strptime r.now r.value

def series (readings : List Reading) (prev : HumanDataType) : Result HumanDataType :=
  readings.foldlM (fun prev r => detectDataTypeSeries r.beyond strptime r.now r.value prev) prev

theorem series_eq {types : Bytes → HumanDataType} {readings : List Reading}
    (h : ∀ r ∈ readings, r.type strptime = .ok (types r.value)) (prev : HumanDataType) :
    series strptime readings prev =
      .ok ((readings.map Reading.value).foldl (fun prev value => next prev (types value)) prev) := by
  induction readings generalizing prev with
  | nil => rfl
  | cons r readings ih =>
    obtain ⟨hr, hreadings⟩ := List.forall_mem_cons.1 h
    rw [series, List.foldlM_cons, detectDataTypeSeries_eq strptime hr, Result.ok_bind]
    exact ih hreadings _

/-- The order of the values does not matter for the type of a series. -/
theorem series_perm {readings readings' : List Reading}
    (hperm : (readings.map Reading.value).Perm (readings'.map Reading.value))
    (hreturns : ∀ r ∈ readings, ∃ type, r.type strptime = .ok type) :
    ∃ type, series strptime readings .unknown = .ok type ∧
      series strptime readings' .unknown = .ok type := by
  have htypes : ∃ types : Bytes → HumanDataType, ∀ r : Reading, r.value ∈ readings.map Reading.value →
      r.type strptime = .ok (types r.value) := by
    have hvalue : ∀ value ∈ readings.map Reading.value, ∃ type,
        detectDataType (fun _ => 0) strptime 0 value = .ok type := by
      intro value hvalue
      obtain ⟨r, hr, rfl⟩ := List.mem_map.1 hvalue
      obtain ⟨type, htype⟩ := hreturns r hr
      exact ⟨type, (detectDataType_eq strptime _ r.beyond 0 r.now r.value).trans htype⟩
    choose! types htypes using hvalue
    exact ⟨types, fun r hr =>
      (detectDataType_eq strptime r.beyond _ r.now 0 r.value).trans (htypes r.value hr)⟩
  obtain ⟨types, htypes⟩ := htypes
  have hdetected : ∀ value ∈ readings.map Reading.value, types value ∈ detected := by
    intro value hvalue
    obtain ⟨r, hr, rfl⟩ := List.mem_map.1 hvalue
    exact mem_detected strptime (htypes r hvalue)
  refine ⟨_, series_eq strptime (fun r hr => htypes r (List.mem_map_of_mem hr)) .unknown, ?_⟩
  rw [series_eq strptime (fun r hr => htypes r (hperm.symm.subset (List.mem_map_of_mem hr))),
    hperm.foldl_eq' fun x hx y hy z => next_right_comm z _ (hdetected x hx) _ (hdetected y hy)]

end

/-- A series for examples, with nothing behind the strings, at the epoch. -/
def readings (values : List String) : List Reading := values.map fun value => ⟨fun _ => 0, 0, lit value⟩

theorem series_perm_at_numbers :
    ∃ type, series (fun _ => none) (readings ["12", "null", "-7"]) .unknown = .ok type ∧
      series (fun _ => none) (readings ["-7", "12", "null"]) .unknown = .ok type :=
  series_perm (fun _ => none) (by decide) (by
    intro r hr
    simp only [readings, List.map_cons, List.map_nil, List.mem_cons, List.not_mem_nil,
      or_false] at hr
    obtain rfl | rfl | rfl := hr
    · exact ⟨.unsignedInteger, rfl⟩
    · exact ⟨.nullOrEmpty, rfl⟩
    · exact ⟨.signedInteger, rfl⟩)

end Human
end Stx
