import Stx.Protobuf.MessageSchema
import Stx.Json.JSONOutputStream

/-! `protobuf/JSONEncoder.{h,cc}`. -/
namespace Stx.Msg
open Json (JSONOutputStream)

def MessageObject.asUnixTime : MessageObject → Result UInt64
  | datetime _ value => .ok value
  | _ => Result.RAISE .typeError

namespace JSONEncoder

/-- The `int64_t` that a `uint64_t` argument becomes. -/
def toInt64 (value : UInt64) : Int := value.toInt64.toInt

theorem toInt64_of_lt {value : UInt64} (h : value.toNat < 2^63) : toInt64 value = value.toNat := by
  have hint : toInt64 value = (value.toNat : Int).bmod (2^64) :=
    BitVec.toInt_eq_toNat_bmod value.toBitVec
  rw [hint, Int.bmod_def]
  omega

theorem toInt64_of_le {value : UInt64} (h : 2^63 ≤ value.toNat) :
    toInt64 value = -((2^64-value.toNat : Nat) : Int) := by
  have hlt := value.toNat_lt
  have hint : toInt64 value = (value.toNat : Int).bmod (2^64) :=
    BitVec.toInt_eq_toNat_bmod value.toBitVec
  rw [hint, Int.bmod_def]
  omega

/-- `set<size_t>` is in ascending order. Behind 2^31 children `i` is negative, as an index larger
than any. -/
def indexes (id : UInt32) (fields : List MessageObject) : List Nat :=
  (List.range (min fields.length (2^31))).filter fun i => (fields[i]?).any fun c => c.id == id

section encoder
variable (encode : MessageObject → MessageSchema → JSONOutputStream → Result JSONOutputStream)

def encodeField (msg : MessageObject) (field : SchemaField) (json : JSONOutputStream) :
    Result JSONOutputStream :=
  match field.type with
  | .object => do
    let schema ← MessageSchema.deref field.schema
    encode msg schema json
  | .boolean => do
    let value ← msg.asBool
    pure (if value then json.addTrue else json.addFalse)
  | .string => do
    let value ← msg.asString
    pure (json.addString value)
  | .uint32 => do
    let value ← msg.asUInt32
    pure (json.addInteger value.toNat)
  | .uint64 => do
    let value ← msg.asUInt64
    pure (json.addInteger (toInt64 value))
  | .datetime => do
    let value ← msg.asUnixTime
    pure (json.addInteger (toInt64 value))
  | .double => do
    let value ← msg.asDouble
    json.addFloat value

/-- The loop over the indexes of a field, `i` of which are done. -/
def encodeValues (fields : List MessageObject) (field : SchemaField) :
    Nat → List Nat → JSONOutputStream → Result JSONOutputStream
  | _, [], json => .ok json
  | i, idx :: idxs, json =>
    let json := if i+1 > 1 then json.addComma else json
    match fields[idx]? with
    | none => Result.RAISE .outOfRange
    | some child => do
      let json ← encodeField encode child field json
      encodeValues fields field (i+1) idxs json

/-- The loop over the fields of the schema, `n` of which are in the object. -/
def encodeFields (fields : List MessageObject) :
    Nat → List SchemaField → JSONOutputStream → Result JSONOutputStream
  | _, [], json => .ok json
  | n, field :: rest, json =>
    if (indexes field.id fields).isEmpty then encodeFields fields n rest json
    else do
      let json := if n+1 > 1 then json.addComma else json
      let json ← json.addObjectEntry field.name
      let json := if field.repeated then json.beginArray else json
      let json ← encodeValues encode fields field 0 (indexes field.id fields) json
      let json := if field.repeated then json.endArray else json
      encodeFields fields (n+1) rest json

end encoder

/-- The fuel is for the depth of the message. -/
def encode : Nat → MessageObject → MessageSchema → JSONOutputStream → Result JSONOutputStream
  | 0, _, _, _ => .diverge
  | fuel+1, msg, schema, json => do
    let json := json.beginObject
    let fields ← msg.asObject
    let json ← encodeFields (encode fuel) fields 0 schema.fields json
    pure json.endObject

end JSONEncoder

end Stx.Msg
