import Stx.Protobuf.DynamicMessage.JSONRoundTrip
import Stx.Human
import Stx.ISO8601.Parsers
import Stx.StringUtil.Decimals

/-! The text of a field, as `getField` gives it and `addField` takes it. -/
namespace Stx.Msg
open StringUtil (toStringDouble)

namespace MessageObject

def fieldCount (id : UInt32) (msg : MessageObject) : Result Nat := do
  let fields ← msg.asObject
  pure (fields.filter fun f => f.id == id).length

/-- The getters take the first child with the id. -/
def getFirst {α : Type} (as : MessageObject → Result α) (id : UInt32) (msg : MessageObject) :
    Result α := do
  let fields ← msg.asObject
  match fields.find? fun f => f.id == id with
  | some f => as f
  | none => Result.RAISEF .indexError "no such field: $0" [StringUtil.toString id.toNat]

def getUInt32 : UInt32 → MessageObject → Result UInt32 := getFirst asUInt32
def getUInt64 : UInt32 → MessageObject → Result UInt64 := getFirst asUInt64
def getString : UInt32 → MessageObject → Result Bytes := getFirst asString
def getUnixTime : UInt32 → MessageObject → Result UInt64 := getFirst asUnixTime
def getDouble : UInt32 → MessageObject → Result UInt64 := getFirst asDouble
def getBool : UInt32 → MessageObject → Result Bool := getFirst asBool

end MessageObject

namespace DynamicMessage

def getField (msg : DynamicMessage) (field_id : UInt32) : Result (Option Bytes) := do
  let schema ← MessageSchema.deref msg.schema_
  if !schema.hasField field_id then pure none
  else
    let count ← msg.data_.fieldCount field_id
    if count = 0 then pure none
    else
      match ← schema.fieldType field_id with
      | .boolean => do
        let value ← msg.data_.getBool field_id
        pure (some (if value then lit "true" else lit "false"))
      | .uint32 => do
        let value ← msg.data_.getUInt32 field_id
        pure (some (StringUtil.toString value.toNat))
      | .uint64 => do
        let value ← msg.data_.getUInt64 field_id
        pure (some (StringUtil.toString value.toNat))
      | .double => do
        let value ← msg.data_.getDouble field_id
        let text ← toStringDouble value
        pure (some text)
      | .datetime => do
        let value ← msg.data_.getUnixTime field_id
        pure (some (StringUtil.toString value.toNat))
      | .string => do
        let value ← msg.data_.getString field_id
        pure (some value)
      | .object => pure none

/-- `parseTime` is that of `Human`, wherever that returns. -/
def ReadsTime (conv : Conversions) (beyond : Nat → UInt8) (strptime : Bytes → Option Tm)
    (now : UInt64) : Prop :=
  ∀ text time, Human.parseTime beyond strptime now text = .ok time → conv.parseTime text = time

/-- The format of `strptime` has hyphens in it. -/
def NeedsHyphen (strptime : Bytes → Option Tm) : Prop :=
  ∀ text, 45 ∉ text → strptime text = none

/-- The text that an object of the schema has for the field makes a fresh one with the same value. -/
def Faithful (conv : Conversions) (s : MessageSchema) (msg : DynamicMessage) (field_id : UInt32)
    (v : MessageObject) : Prop :=
  ∃ text, getField msg field_id = .ok (some text) ∧
    addFieldId conv (.new (some s)) field_id text = .ok (true, of s [v])

/- The time of a number of microseconds. -/

section time
variable {beyond : Nat → UInt8} {strptime : Bytes → Option Tm} {now : UInt64}

theorem digits_toString (n : Nat) : StringUtil.isDigitString (StringUtil.toString n) = true :=
  List.all_eq_true.2 fun _ => Libc.isdigit_of_mem_toString

theorem not_mem_toString (n : Nat) {c : UInt8} (h : Libc.isdigit c = false) :
    c ∉ StringUtil.toString n := by
  intro hc
  rw [Libc.isdigit_of_mem_toString hc] at h
  cases h

/-- A number is neither `now` nor a duration. -/
theorem parseTime_toString (n : Nat) :
    Human.parseTime beyond strptime now (StringUtil.toString n) =
      .ok ((Human.parseTimestamp (StringUtil.toString n)).or
        (Human.parseCivil beyond strptime (StringUtil.toString n))) := by
  have hnow : StringUtil.toString n ≠ lit "now" := by
    intro h
    exact not_mem_toString n (c := 110) (by decide) (h ▸ by decide)
  have hoffset : Human.parseOffset (StringUtil.toString n) = .ok none := by
    unfold Human.parseOffset
    split
    · next c rest h =>
      exact absurd (h ▸ List.mem_cons_self) (not_mem_toString n (c := 45) (by decide))
    · rfl
  rw [Human.parseTime, if_neg hnow, hoffset, Result.ok_bind]
  cases Human.parseTimestamp (StringUtil.toString n) <;> rfl

theorem parseTimestamp_toString {n : Nat} (h : n < 2^64) :
    Human.parseTimestamp (StringUtil.toString n) =
      if n < 30000000000 then some (UInt64.ofNat (n*1000000))
      else if n > 30000000000 ∧ n < 30000000000000 then some (UInt64.ofNat (n*1000))
      else if n > 30000000000000 then some (UInt64.ofNat n)
      else none := by
  rw [Human.parseTimestamp, if_pos (digits_toString n), Libc.stoul_toString h]
  rfl

/-- Of the digits of a large number only four are the year. -/
theorem parseCivil_toString (hstrptime : NeedsHyphen strptime) {n : Nat} (h : 10000 ≤ n) :
    Human.parseCivil beyond strptime (StringUtil.toString n) = none := by
  have hhyphen : 45 ∉ StringUtil.toString n := not_mem_toString n (by decide)
  have hiso : ISO8601.parse beyond (StringUtil.toString n) = none := by
    rw [Option.eq_none_iff_forall_ne_some]
    intro date hdate
    obtain ⟨stamp, rest, htext, htaken, -⟩ := (ISO8601.parse_eq_some_iff beyond _ date).1 hdate
    rw [htext] at hhyphen
    cases stamp with
    | year c y =>
      obtain rfl : rest = [] := htaken
      have hlt := ISO8601.digitsVal_lt [c.tens, c.ones, y.tens, y.ones]
      have hval : Libc.digitsVal (c.text ++ y.text) = n := by
        rw [← Libc.digitsVal_toString n, htext]
        rfl
      change Libc.digitsVal (c.text ++ y.text) < 10^4 at hlt
      rw [hval] at hlt
      exact absurd h (Nat.not_le.2 hlt)
    | month c y m | day c y m d | time c y m d k =>
      exact hhyphen (by simp [ISO8601.Stamp.text])
  have hzero : (lit "0000-00-00").isPrefixOf (StringUtil.toString n) = false := by
    rw [← Bool.not_eq_true, List.isPrefixOf_iff_prefix]
    exact fun hzeros => hhyphen (hzeros.subset (by decide))
  rw [Human.parseCivil, hiso, CivilTime.parseString_none (hstrptime _ hhyphen), hzero]
  rfl

/-- A timestamp of up to 30000000000000 is taken for one of seconds or milliseconds. -/
theorem parseTime_eq_iff (hstrptime : NeedsHyphen strptime) {conv : Conversions}
    (hconv : ReadsTime conv beyond strptime now) (t : UInt64) :
    conv.parseTime (StringUtil.toString t.toNat) = some t ↔ t = 0 ∨ 30000000000000 < t.toNat := by
  have hlt := t.toNat_lt
  have hzero : t = 0 ↔ t.toNat = 0 := by
    rw [← UInt64.toNat_inj]
    rfl
  have hsome : ∀ n, n < 2^64 → (some (UInt64.ofNat n) = some t ↔ n = t.toNat) := by
    intro n hn
    rw [Option.some_inj, ← UInt64.toNat_inj, UInt64.toNat_ofNat_of_lt' hn]
  rw [hconv _ _ (parseTime_toString t.toNat), parseTimestamp_toString hlt, hzero]
  split
  · rw [Option.some_or, hsome _ (by omega)]
    omega
  · split
    · rw [Option.some_or, hsome _ (by omega)]
      omega
    · split
      · rw [Option.some_or, hsome _ hlt]
        omega
      · rw [Option.none_or, parseCivil_toString hstrptime (by omega)]
        exact iff_of_false (Option.some_ne_none t).symm (by omega)

/-- A word that is the data or the text of a token is no time. -/
theorem parseTime_word (hstrptime : NeedsHyphen strptime) {conv : Conversions}
    (hconv : ReadsTime conv beyond strptime now) {text : Bytes}
    (h : text ∈ [[], lit "true", lit "false"]) : conv.parseTime text = none := by
  have hwords : ∀ text ∈ [[], lit "true", lit "false"], text ≠ lit "now" ∧ 45 ∉ text ∧
      Human.parseOffset text = .ok none ∧ Human.parseTimestamp text = none ∧
        (lit "0000-00-00").isPrefixOf text = false := by decide
  obtain ⟨hnow, hhyphen, hoffset, htimestamp, hzeros⟩ := hwords text h
  have hiso : ISO8601.parse beyond text = none := by
    simp only [List.mem_cons, List.not_mem_nil, or_false] at h
    obtain rfl | rfl | rfl := h <;> rfl
  refine hconv text none ?_
  rw [Human.parseTime, if_neg hnow, hoffset, Result.ok_bind, htimestamp, Human.parseCivil, hiso,
    CivilTime.parseString_none (hstrptime text hhyphen), hzeros]
  rfl

end time

section faithful
variable {conv : Conversions} {s : MessageSchema} {msg : DynamicMessage} {field_id i : UInt32}
  {cs : List MessageObject} {v : MessageObject}

theorem getFirst_eq {α : Type} {as : MessageObject → Result α}
    (h : valuesOf field_id cs = [v]) : (MessageObject.object i cs).getFirst as field_id = as v := by
  have hfind : cs.find? (fun f => f.id == field_id) = some v := by
    rw [← List.head?_filter]
    exact congrArg List.head? h
  rw [MessageObject.getFirst, MessageObject.asObject, Result.ok_bind, hfind]

/-- The text of a value that is no OBJECT and no DOUBLE. -/
def fieldText : MessageObject → Bytes
  | .boolean _ value => if value then lit "true" else lit "false"
  | .string _ value => value
  | .uint32 _ value => StringUtil.toString value.toNat
  | .uint64 _ value => StringUtil.toString value.toNat
  | .datetime _ value => StringUtil.toString value.toNat
  | _ => []

theorem getField_eq (hschema : msg.schema_ = some s) (hfield : s.hasField field_id = true)
    (htype : s.fieldType field_id = .ok v.type) (hdata : msg.data_ = .object i cs)
    (hvalue : valuesOf field_id cs = [v]) (hobject : v.type ≠ .object) (hdouble : v.type ≠ .double) :
    getField msg field_id = .ok (some (fieldText v)) := by
  have hcount : (MessageObject.object i cs).fieldCount field_id = .ok 1 := by
    rw [MessageObject.fieldCount, MessageObject.asObject, Result.ok_bind]
    exact congrArg (fun vs : List MessageObject => Result.ok vs.length) hvalue
  rw [getField, hschema, hdata, MessageSchema.deref, Result.ok_bind, hfield, hcount, htype]
  cases v with
  | object id cs => exact absurd rfl hobject
  | double id value => exact absurd rfl hdouble
  | boolean id value | string id value | uint32 id value | uint64 id value | datetime id value =>
    simp only [MessageObject.type, MessageObject.getBool, MessageObject.getUInt32,
      MessageObject.getUInt64, MessageObject.getString, MessageObject.getUnixTime,
      getFirst_eq hvalue]
    rfl

theorem addFieldId_fieldText (hfield : s.hasField field_id = true)
    (htype : s.fieldType field_id = .ok v.type) (hid : v.id = field_id) (hobject : v.type ≠ .object)
    (hdouble : v.type ≠ .double) :
    addFieldId conv (.new (some s)) field_id (fieldText v) = .ok (true, of s [v]) ↔
      ∀ t, v = .datetime field_id t → conv.parseTime (StringUtil.toString t.toNat) = some t := by
  rw [addFieldId, new, MessageSchema.deref, Result.ok_bind, hfield, htype]
  subst hid
  cases v with
  | object id cs => exact absurd rfl hobject
  | double id value => exact absurd rfl hdouble
  | boolean id value =>
    refine iff_of_true ?_ (by simp)
    cases value <;> rfl
  | string id value => exact iff_of_true rfl (by simp)
  | uint32 id value =>
    refine iff_of_true ?_ (by simp)
    have hlt := value.toNat_lt
    have hback : (UInt64.ofNat value.toNat).toUInt32 = value := by
      rw [← UInt32.toNat_inj, UInt64.toNat_toUInt32, UInt64.toNat_ofNat']
      omega
    simp only [MessageObject.type, fieldText, stoull, Libc.stoul_toString (hlt.trans (by decide)),
      Option.map_some, hback]
    rfl
  | uint64 id value =>
    refine iff_of_true ?_ (by simp)
    simp only [MessageObject.type, fieldText, stoull, Libc.stoul_toString value.toNat_lt,
      Option.map_some, UInt64.ofNat_toNat]
    rfl
  | datetime id value =>
    simp only [MessageObject.type, fieldText, MessageObject.id, Bool.not_true, Bool.false_eq_true,
      if_false, Result.ok_bind]
    cases htime : conv.parseTime (StringUtil.toString value.toNat) with
    | none =>
      refine iff_of_false (by simp [pure]) fun h => ?_
      cases htime.symm.trans (h value rfl)
    | some t =>
      constructor
      · intro h t' ht'
        cases ht'
        cases h
        exact htime
      · intro h
        cases htime.symm.trans (h value rfl)
        rfl

/-- Every value comes back but the times up to 30000000000000 microseconds, without the epoch. -/
theorem faithful_iff {beyond : Nat → UInt8} {strptime : Bytes → Option Tm} {now : UInt64}
    (hconv : ReadsTime conv beyond strptime now) (hstrptime : NeedsHyphen strptime)
    (hschema : msg.schema_ = some s) (hfield : s.hasField field_id = true)
    (htype : s.fieldType field_id = .ok v.type) (hdata : msg.data_ = .object i cs)
    (hvalue : valuesOf field_id cs = [v]) (hobject : v.type ≠ .object)
    (hdouble : v.type ≠ .double) :
    Faithful conv s msg field_id v ↔
      ∀ t, v = .datetime field_id t → t = 0 ∨ 30000000000000 < t.toNat := by
  have hid : v.id = field_id := by
    have hmem : v ∈ valuesOf field_id cs := by
      rw [hvalue]
      exact List.mem_singleton_self v
    exact beq_iff_eq.1 (List.mem_filter.1 hmem).2
  have hget := getField_eq hschema hfield htype hdata hvalue hobject hdouble
  have hadd : addFieldId conv (.new (some s)) field_id (fieldText v) = .ok (true, of s [v]) ↔ _ :=
    addFieldId_fieldText hfield htype hid hobject hdouble
  constructor
  · rintro ⟨text, htext, hstored⟩ t ht
    cases hget.symm.trans htext
    exact (parseTime_eq_iff hstrptime hconv t).1 (hadd.1 hstored t ht)
  · intro h
    refine ⟨_, hget, hadd.2 fun t ht => ?_⟩
    exact (parseTime_eq_iff hstrptime hconv t).2 (h t ht)

/- A DATETIME, read with no `strptime` that finds a date. -/

def timeSchema : MessageSchema :=
  .new (lit "event") [⟨1, lit "time", .datetime, 0, false, false, .none, none⟩]

def timeConversions : Conversions :=
  { stod := fun _ => none
    parseTime := fun text =>
      match Human.parseTime (fun _ => 0) (fun _ => none) 0 text with
      | .ok time => time
      | _ => none }

theorem timeConversions_readsTime :
    ReadsTime timeConversions (fun _ => 0) (fun _ => none) 0 := by
  intro text time h
  simp only [timeConversions, h]

theorem time_faithful :
    Faithful timeConversions timeSchema ⟨some timeSchema, .object 0 [.datetime 1 1414956190500000]⟩
      1 (.datetime 1 1414956190500000) := by
  refine (faithful_iff timeConversions_readsTime (fun _ _ => rfl) rfl (by decide) (by rfl) rfl
    (by rfl) (by decide) (by decide)).2 fun t ht => ?_
  cases ht
  exact .inr (by decide)

/-- One microsecond behind the epoch comes back as one second. -/
theorem time_not_faithful :
    ¬∀ conv beyond strptime now, ReadsTime conv beyond strptime now → NeedsHyphen strptime →
      ∀ s msg field_id i cs v, msg.schema_ = some s → s.hasField field_id = true →
        s.fieldType field_id = .ok v.type → msg.data_ = .object i cs → valuesOf field_id cs = [v] →
        v.type ≠ .object → v.type ≠ .double → Faithful conv s msg field_id v := by
  intro h
  obtain ⟨text, htext, hstored⟩ := h timeConversions _ _ _ timeConversions_readsTime
    (fun _ _ => rfl) timeSchema ⟨some timeSchema, .object 0 [.datetime 1 1]⟩ 1 0 [.datetime 1 1]
    (.datetime 1 1) rfl (by decide) (by rfl) rfl (by rfl) (by decide) (by decide)
  have hget : getField ⟨some timeSchema, .object 0 [.datetime 1 1]⟩ 1 = .ok (some (lit "1")) := by
    decide
  cases hget.symm.trans htext
  have hadd : addFieldId timeConversions (.new (some timeSchema)) 1 (lit "1") =
      .ok (true, of timeSchema [.datetime 1 1000000]) := by
    rfl
  cases hadd.symm.trans hstored

end faithful
end DynamicMessage
end Stx.Msg
