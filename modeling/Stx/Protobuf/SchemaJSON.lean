import Stx.Protobuf.SchemaCodec
import Stx.Protobuf.JSONEncoder
import Stx.Json.JSONUtil

/-! `MessageSchema::toJSON` and `MessageSchema::fromJSON`. Each lists the attributes of a field by
itself. -/
namespace Stx

/-- `StringUtil::toUpper`. `i` is an `int`, so that the loop ends behind 2^31 characters. -/
def StringUtil.toUpper (str : Bytes) : Bytes :=
  (str.take (2^31)).map Libc.toupper ++ str.drop (2^31)

namespace Msg
open Json (JSONObject JSONOutputStream)
open Json.JSONUtil
open StringUtil (toStringInt)

def fieldTypeToString : FieldType → Bytes
  | .object => lit "OBJECT"
  | .string => lit "STRING"
  | .boolean => lit "BOOLEAN"
  | .uint32 => lit "UINT32"
  | .uint64 => lit "UINT64"
  | .double => lit "DOUBLE"
  | .datetime => lit "DATETIME"

def fieldTypeFromString (str : Bytes) : Result FieldType :=
  let str := StringUtil.toUpper str
  if str = lit "OBJECT" then .ok .object
  else if str = lit "STRING" then .ok .string
  else if str = lit "BOOLEAN" then .ok .boolean
  else if str = lit "UINT32" then .ok .uint32
  else if str = lit "UINT64" then .ok .uint64
  else if str = lit "DOUBLE" then .ok .double
  else if str = lit "DATETIME" then .ok .datetime
  else Result.RAISEF .typeError "can't convert '$0' to FieldType" [str]

@[simp] theorem fieldTypeFromString_toString (type : FieldType) :
    fieldTypeFromString (fieldTypeToString type) = .ok type := by
  cases type <;> decide +kernel

/-- `MessageSchemaField::mkObjectField`. -/
def mkObjectField (id : UInt32) (name : Bytes) (repeated optional : Bool)
    (schema : Option MessageSchema) : SchemaField :=
  ⟨id, name, .object, 0, repeated, optional, .none, schema⟩

namespace MessageSchema

/- What `toJSON` writes of a field ahead of its schema. -/
def attributesToJSON (field : SchemaField) (json : JSONOutputStream) :
    Result JSONOutputStream := do
  let json := json.beginObject
  let json ← json.addObjectEntry (lit "id")
  let json := (json.addInteger field.id.toNat).addComma
  let json ← json.addObjectEntry (lit "name")
  let json := (json.addString field.name).addComma
  let json ← json.addObjectEntry (lit "type")
  let json := (json.addString (fieldTypeToString field.type)).addComma
  let json ← json.addObjectEntry (lit "type_size")
  let json := (json.addInteger (JSONEncoder.toInt64 field.type_size)).addComma
  let json ← json.addObjectEntry (lit "optional")
  let json := (if field.optional then json.addTrue else json.addFalse).addComma
  let json ← json.addObjectEntry (lit "repeated")
  let json := (if field.repeated then json.addTrue else json.addFalse).addComma
  let json ← json.addObjectEntry (lit "encoding_hint")
  pure (json.addString (lit "NONE"))

/- `toJSON`, its loop over the fields, one field, and `field.schema->toJSON(json)`. Behind 2^31
   fields `i` is negative, as a size larger than any vector. -/
mutual
def toJSON : MessageSchema → JSONOutputStream → Result JSONOutputStream
  | ⟨name, fields, _, _, _⟩, json => do
    let json := json.beginObject
    let json ← json.addObjectEntry (lit "name")
    let json := (json.addString name).addComma
    let json ← json.addObjectEntry (lit "columns")
    let json ← fieldsToJSON 0 fields json.beginArray
    pure json.endArray.endObject

def fieldsToJSON : Nat → List SchemaField → JSONOutputStream → Result JSONOutputStream
  | _, [], json => .ok json
  | i, field :: fields, json =>
    if i < 2^31 then do
      let json := if i > 0 then json.addComma else json
      let json ← fieldToJSON field json
      fieldsToJSON (i+1) fields json
    else .ok json

def fieldToJSON : SchemaField → JSONOutputStream → Result JSONOutputStream
  | ⟨id, name, type, type_size, repeated, optional, encoding, schema⟩, json => do
    let json ← attributesToJSON ⟨id, name, type, type_size, repeated, optional, encoding, schema⟩
      json
    let json ← if type = .object then do
        let json ← json.addComma.addObjectEntry (lit "schema")
        schemaToJSON schema json
      else pure json
    pure json.endObject

def schemaToJSON : Option MessageSchema → JSONOutputStream → Result JSONOutputStream
  | some schema, json => toJSON schema json
  | none, _ => Result.RAISE .nullPointerError
end

section column
variable (nested : Nat → MessageSchema → Result MessageSchema) (obj : JSONObject) (endp : Nat)

/-- One turn of the loop over the columns. -/
def addColumn (col : Nat) (s : MessageSchema) : Result MessageSchema := do
  match ← objectGetUInt64 obj col endp (lit "id") with
  | none => Result.RAISE .runtimeError "missing field: id"
  | some id =>
    match ← objectGetString obj col endp (lit "name") with
    | none => Result.RAISE .runtimeError "missing field: name"
    | some name =>
      match ← objectGetString obj col endp (lit "type") with
      | none => Result.RAISE .runtimeError "missing field: type"
      | some type => do
        let type_size ← objectGetUInt64 obj col endp (lit "type_size")
        let optional ← objectGetBool obj col endp (lit "optional")
        let repeated ← objectGetBool obj col endp (lit "repeated")
        let field_type ← fieldTypeFromString type
        if field_type = .object then do
          let child_schema_json ← objectLookup obj col endp (lit "schema")
          if child_schema_json = endp then Result.RAISE .runtimeError "missing field: schema"
          else
            let child_schema ← nested child_schema_json (empty [])
            pure (s.addField (mkObjectField id.toUInt32 name (repeated.getD false)
              (optional.getD false) (some child_schema)))
        else
          pure (s.addField ⟨id.toUInt32, name, field_type, type_size.getD 0,
            repeated.getD false, optional.getD false, .none, none⟩)

end column

/-- The lookups of a nested schema run up to the end of the document. The fuel is for the depth. -/
def fromJSON (obj : JSONObject) (endp : Nat) :
    Nat → Nat → MessageSchema → Result MessageSchema
  | 0, _, _ => .diverge
  | fuel+1, beginp, s => do
    let tname ← objectGetString obj beginp endp (lit "name")
    let s := { s with name := tname.getD s.name }
    let cols ← objectLookup obj beginp endp (lit "columns")
    if cols = endp then Result.RAISE .runtimeError "missing field: columns"
    else do
      let ncols ← arrayLength obj cols endp
      (List.range ncols).foldlM (fun s i => do
        let col ← arrayLookup obj cols endp i
        addColumn (fromJSON obj endp fuel) obj endp col s) s

/-- `fromJSON(obj.begin(), obj.end())`. A nested call is for a token of the document. -/
def fromJSONObject (obj : JSONObject) (s : MessageSchema) : Result MessageSchema :=
  fromJSON obj obj.length (obj.length+1) 0 s

end MessageSchema
end Msg
end Stx
