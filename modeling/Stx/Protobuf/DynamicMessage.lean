import Stx.Protobuf.JSONEncoder
import Stx.Json.JSONUtil
import Stx.Libc

/-! `protobuf/DynamicMessage.{h,cc}`: adding values by the name of their field, and reading a
message from the tokens of a JSON document. -/
namespace Stx
open Json (JSONObject JSONToken JSONOutputStream)
open Json.JSONUtil (deref objectLookup)

/-- `Human::parseBoolean`. -/
def Human.parseBoolean (value : Bytes) : Option Bool :=
  if value ∈ [lit "true", lit "TRUE", lit "yes", lit "YES"] then some true
  else if value ∈ [lit "false", lit "FALSE", lit "no", lit "NO"] then some false
  else none

namespace Msg

/-- `std::stoull`: `unsigned long long` has the 64 bits of `unsigned long`. -/
def stoull (text : Bytes) : Option UInt64 := (Libc.stoul text).map UInt64.ofNat

/-- Assignment to the member `id`. -/
def MessageObject.setId (id : UInt32) : MessageObject → MessageObject
  | object _ children => object id children
  | boolean _ value => boolean id value
  | uint32 _ value => uint32 id value
  | string _ value => string id value
  | uint64 _ value => uint64 id value
  | double _ value => double id value
  | datetime _ value => datetime id value

structure DynamicMessage where
  schema_ : Option MessageSchema
  data_ : MessageObject

/-- `std::stod`, and `Human::parseTime`, which reads the clock: the times in microseconds. -/
structure Conversions where
  stod : Bytes → Option UInt64
  parseTime : Bytes → Option UInt64

namespace DynamicMessage

def new (schema : Option MessageSchema) : DynamicMessage := ⟨schema, .object 0 []⟩

/-- `data_.addChild(...)`. -/
def addChild (msg : DynamicMessage) (child : MessageObject) : Result DynamicMessage := do
  let data ← msg.data_.addChild child
  pure { msg with data_ := data }

/-- A conversion and `data_.addChild(...)`, with `catch (...)` around both. -/
def addConverted (msg : DynamicMessage) : Option MessageObject → Result (Bool × DynamicMessage)
  | none => .ok (false, msg)
  | some child =>
    match msg.addChild child with
    | .ok msg => .ok (true, msg)
    | .raise _ => .ok (false, msg)
    | .diverge => .diverge

section
variable (conv : Conversions)

def addFieldId (msg : DynamicMessage) (field_id : UInt32) (value : Bytes) :
    Result (Bool × DynamicMessage) := do
  let schema ← MessageSchema.deref msg.schema_
  if !schema.hasField field_id then pure (false, msg)
  else
    match ← schema.fieldType field_id with
    | .boolean =>
      match Human.parseBoolean value with
      | none => pure (false, msg)
      | some v => do
        let msg ← msg.addChild (.boolean field_id v)
        pure (true, msg)
    | .uint32 => msg.addConverted ((stoull value).map fun v => .uint32 field_id v.toUInt32)
    | .uint64 => msg.addConverted ((stoull value).map fun v => .uint64 field_id v)
    | .double => msg.addConverted ((conv.stod value).map fun v => .double field_id v)
    | .datetime =>
      match conv.parseTime value with
      | none => pure (false, msg)
      | some v => do
        let msg ← msg.addChild (.datetime field_id v)
        pure (true, msg)
    | .string => do
      let msg ← msg.addChild (.string field_id value)
      pure (true, msg)
    | .object => pure (false, msg)

def addField (msg : DynamicMessage) (name value : Bytes) : Result (Bool × DynamicMessage) := do
  let schema ← MessageSchema.deref msg.schema_
  if !schema.hasFieldName name then pure (false, msg)
  else
    let field_id ← schema.fieldId name
    addFieldId conv msg field_id value

def addObject (msg : DynamicMessage) (name : Bytes) (fn : DynamicMessage → Result DynamicMessage) :
    Result (Bool × DynamicMessage) := do
  let schema ← MessageSchema.deref msg.schema_
  if !schema.hasFieldName name then pure (false, msg)
  else
    let field_id ← schema.fieldId name
    let type ← schema.fieldType field_id
    if type ≠ .object then pure (false, msg)
    else
      let subschema ← schema.fieldSchema field_id
      let submsg ← fn (.new subschema)
      let msg ← msg.addChild (submsg.data_.setId field_id)
      pure (true, msg)

/-- The fuel is for the depth of the message. -/
def toJSON (msg : DynamicMessage) (json : JSONOutputStream) : Result JSONOutputStream := do
  let schema ← MessageSchema.deref msg.schema_
  JSONEncoder.encode msg.data_.nodes msg.data_ schema json

/- The `switch` over the token of a field, which is at `field_data`, and the one inside of an array.
   The case of an object falls through to that of a string, which adds nothing to an OBJECT. -/

section tokens
variable (nested : Nat → Nat → DynamicMessage → Result DynamicMessage) (obj : JSONObject)
  (endp : Nat) (name : Bytes)

def fromObject (field_data : Nat) (t : JSONToken) (msg : DynamicMessage) :
    Result DynamicMessage := do
  let oend := min endp (field_data+t.size.toNat)
  let (_, msg) ← msg.addObject name (nested field_data oend)
  let (_, msg) ← msg.addField conv name t.data
  pure msg

def fromElement (field_data : Nat) (t : JSONToken) (msg : DynamicMessage) :
    Result DynamicMessage :=
  match t.type with
  | .objectBegin => fromObject conv nested endp name field_data t msg
  | .string | .number | .true | .false => do
    let (_, msg) ← msg.addField conv name t.data
    pure msg
  | .objectEnd | .arrayBegin | .arrayEnd | .null => .ok msg

/-- `for (field_data++; field_data < aend; field_data += field_data->size)`. A size of zero is never
left. -/
def fromArray (aend : Nat) : Nat → Nat → DynamicMessage → Result DynamicMessage
  | 0, _, _ => .diverge
  | fuel+1, field_data, msg =>
    if field_data < aend then do
      let t ← deref obj field_data
      let msg ← fromElement conv nested endp name field_data t msg
      fromArray aend fuel (field_data+t.size.toNat) msg
    else .ok msg

def fromToken (field_data : Nat) (t : JSONToken) (msg : DynamicMessage) : Result DynamicMessage :=
  match t.type with
  | .arrayBegin =>
    let aend := min endp (field_data+t.size.toNat)
    fromArray conv nested obj endp name aend (aend-field_data+1) (field_data+1) msg
  | .objectBegin => fromObject conv nested endp name field_data t msg
  | .string | .number => do
    let (_, msg) ← msg.addField conv name t.data
    pure msg
  | .true => do
    let (_, msg) ← msg.addField conv name (lit "true")
    pure msg
  | .false => do
    let (_, msg) ← msg.addField conv name (lit "false")
    pure msg
  | .objectEnd | .arrayEnd | .null => .ok msg

def fromField (beginp : Nat) (msg : DynamicMessage) : Result DynamicMessage := do
  let field_data ← objectLookup obj beginp endp name
  if field_data = endp then pure msg
  else
    let t ← deref obj field_data
    fromToken conv nested obj endp name field_data t msg

end tokens

/-- The fuel is for the depth of the document. -/
def fromJSON (obj : JSONObject) : Nat → Nat → Nat → DynamicMessage → Result DynamicMessage
  | 0, _, _, _ => .diverge
  | fuel+1, beginp, endp, msg => do
    let schema ← MessageSchema.deref msg.schema_
    schema.fields.foldlM (fun msg field =>
      fromField conv (fromJSON obj fuel) obj endp field.name beginp msg) msg

/-- `fromJSON(obj.begin(), obj.end())`. A nested call is for a token of the document. -/
def fromJSONObject (obj : JSONObject) (msg : DynamicMessage) : Result DynamicMessage :=
  fromJSON conv obj (obj.length+1) 0 obj.length msg

end

end DynamicMessage
end Msg
end Stx
