import Stx.Protobuf.MessageSchema
import Stx.Util.BinaryMessageWriter

/-! `protobuf/MessageEncoder.cc`, and the wire format it writes for a conforming
message. -/
namespace Stx.Msg
open Util (BinaryMessageWriter)
open Util.BinaryMessageWriter (varUIntBytes uint64Bytes)

/-- `(msg.id << 3) | wire_type`, computed on 32 bits and passed on as 64. -/
def fieldKey (id : UInt32) (wire_type : UInt32) : UInt64 := ((id <<< 3) ||| wire_type).toUInt64

namespace MessageEncoder

/- The `switch` of `encodeObject`. `encodeChildren` is its loop over
   `msg.asObject()`, the only place where the source recurses. -/
def encodeSwitch (msg : MessageObject) (schema : MessageSchema) (data : BinaryMessageWriter)
    (encodeChildren : Option MessageSchema → BinaryMessageWriter → Result BinaryMessageWriter) :
    Result BinaryMessageWriter := do
  match ← schema.fieldType msg.id with
  | .object =>
    let obj_schema ← schema.fieldSchema msg.id
    let cld ← encodeChildren obj_schema BinaryMessageWriter.new
    let data ← data.appendVarUInt (fieldKey msg.id 2)
    let data ← data.appendVarUInt (UInt64.ofNat cld.size)
    data.append cld.bytes
  | .string =>
    let str ← msg.asString
    let data ← data.appendVarUInt (fieldKey msg.id 2)
    let data ← data.appendVarUInt (UInt64.ofNat str.length)
    data.append str
  | .uint32 =>
    let data ← data.appendVarUInt (fieldKey msg.id 0)
    let value ← msg.asUInt32
    data.appendVarUInt value.toUInt64
  | .uint64 | .datetime =>
    let data ← data.appendVarUInt (fieldKey msg.id 0)
    let value ← msg.asUInt64
    data.appendVarUInt value
  | .double =>
    let data ← data.appendVarUInt (fieldKey msg.id 1)
    let value ← msg.asDouble
    data.appendDouble value
  | .boolean =>
    let data ← data.appendVarUInt (fieldKey msg.id 0)
    let value ← msg.asBool
    data.appendVarUInt (if value then 1 else 0)

/-- The `catch` of `encodeObject`: every error is raised again with the id and the
name of the field, and looking up the name can itself raise. -/
def rethrow (msg : MessageObject) (schema : MessageSchema) :
    Result BinaryMessageWriter → Result BinaryMessageWriter
  | .raise e => do
    let name ← schema.fieldName msg.id
    Result.RAISEF .runtimeError "error while encoding field $0 ('$1'): $2"
      [StringUtil.toString msg.id.toNat, name, e.message]
  | r => r

mutual
def encodeObject : MessageObject → MessageSchema → BinaryMessageWriter → Result BinaryMessageWriter
  | .object id children, schema, data =>
    rethrow (.object id children) schema
      (encodeSwitch (.object id children) schema data (encodeObjects children))
  | msg, schema, data =>
    rethrow msg schema (encodeSwitch msg schema data fun _ _ => Result.RAISE .typeError)

def encodeObjects : List MessageObject → Option MessageSchema → BinaryMessageWriter →
    Result BinaryMessageWriter
  | [], _, data => .ok data
  | o :: os, schema, data => do
    let obj_schema ← MessageSchema.deref schema
    let data ← encodeObject o obj_schema data
    encodeObjects os schema data
end

/-- Appends the encoding of `msg` to `buf`. -/
def encode (msg : MessageObject) (schema : MessageSchema) (buf : Bytes) : Result Bytes := do
  let children ← msg.asObject
  let body ← encodeObjects children (some schema) BinaryMessageWriter.new
  pure (buf ++ body.bytes)

end MessageEncoder

/-- A child of an object of schema `s`: its id is a field of `s`, it has that field's
type, and an OBJECT's own children conform to the schema of the field. -/
inductive Conforms : MessageSchema → MessageObject → Prop
  | mk {s : MessageSchema} {c : MessageObject} {f : SchemaField}
    (field : s.field? c.id = some f) (type : c.type = f.type)
    (nested : ∀ t, f.schema = some t → ∀ d ∈ c.children, Conforms t d) : Conforms s c

/- The wire format of a message: a key and a payload for every child. The format
   depends on the message alone; a schema is needed only to read it back. -/
mutual
def wireBytes : MessageObject → Bytes
  | .object id children =>
    varUIntBytes (fieldKey id 2) ++ varUIntBytes (UInt64.ofNat (wireList children).length) ++
      wireList children
  | .string id value =>
    varUIntBytes (fieldKey id 2) ++ varUIntBytes (UInt64.ofNat value.length) ++ value
  | .boolean id value => varUIntBytes (fieldKey id 0) ++ varUIntBytes (if value then 1 else 0)
  | .uint32 id value => varUIntBytes (fieldKey id 0) ++ varUIntBytes value.toUInt64
  | .uint64 id value | .datetime id value => varUIntBytes (fieldKey id 0) ++ varUIntBytes value
  | .double id value => varUIntBytes (fieldKey id 1) ++ uint64Bytes value

def wireList : List MessageObject → Bytes
  | [] => []
  | c :: cs => wireBytes c ++ wireList cs
end

theorem MessageSchema.Distinct.fieldType_eq {s : MessageSchema} (hs : s.Distinct) {id : UInt32}
    {f : SchemaField} (h : s.field? id = some f) : s.fieldType id = .ok f.type := by
  obtain ⟨-, hnonzero, htypes, -, -⟩ := hs
  obtain ⟨hmem, rfl⟩ := field?_mem h
  simp [fieldType, hnonzero f hmem, htypes, h]

theorem MessageSchema.Distinct.object_schema {s : MessageSchema} (hs : s.Distinct) {id : UInt32}
    {f : SchemaField} (h : s.field? id = some f) (ht : f.type = .object) :
    ∃ t, f.schema = some t ∧ t.Distinct := by
  obtain ⟨-, -, -, hcarries, hnested⟩ := hs
  have hmem := (field?_mem h).1
  obtain ⟨t, hft⟩ := Option.ne_none_iff_exists'.1 (hcarries f hmem ht)
  exact ⟨t, hft, hnested f hmem t hft⟩

theorem MessageSchema.fieldSchema_eq {s : MessageSchema} {id : UInt32} {f : SchemaField}
    (h : s.field? id = some f) : s.fieldSchema id = .ok f.schema := by
  simp [fieldSchema, h]

namespace MessageEncoder

theorem append_append {w : BinaryMessageWriter} (h : w.Owned) (u v : Bytes) :
    ∃ w', (w.append u >>= fun w => w.append v) = .ok w' ∧ w'.Owned ∧
      w'.bytes = w.bytes ++ (u ++ v) := by
  obtain ⟨w₁, h₁, ho₁, hb₁⟩ := BinaryMessageWriter.append_owned h u
  obtain ⟨w₂, h₂, ho₂, hb₂⟩ := BinaryMessageWriter.append_owned ho₁ v
  exact ⟨w₂, by simp [h₁, h₂], ho₂, by simp [hb₂, hb₁]⟩

theorem append_append_append {w : BinaryMessageWriter} (h : w.Owned) (u v x : Bytes) :
    ∃ w', (w.append u >>= fun w => w.append v >>= fun w => w.append x) = .ok w' ∧ w'.Owned ∧
      w'.bytes = w.bytes ++ (u ++ v ++ x) := by
  obtain ⟨w₁, h₁, ho₁, hb₁⟩ := BinaryMessageWriter.append_owned h u
  obtain ⟨w₂, h₂, ho₂, hb₂⟩ := append_append ho₁ v x
  exact ⟨w₂, by simp [h₁, h₂], ho₂, by simp [hb₂, hb₁]⟩

/-- Encoding a conforming child appends its wire format, and raises nothing. -/
def Encodes (c : MessageObject) : Prop :=
  ∀ (s : MessageSchema) (w : BinaryMessageWriter), s.Distinct → Conforms s c → w.Owned →
    ∃ w', encodeObject c s w = .ok w' ∧ w'.Owned ∧ w'.bytes = w.bytes ++ wireBytes c

theorem encodeObjects_wireList (cs : List MessageObject) (hcs : ∀ c ∈ cs, Encodes c)
    (s : MessageSchema) (hs : s.Distinct) (hconf : ∀ c ∈ cs, Conforms s c) :
    ∀ w : BinaryMessageWriter, w.Owned → ∃ w', encodeObjects cs (some s) w = .ok w' ∧ w'.Owned ∧
      w'.bytes = w.bytes ++ wireList cs := by
  induction cs with
  | nil => exact fun w hw => ⟨w, rfl, hw, by simp [wireList]⟩
  | cons c cs ih =>
    intro w hw
    obtain ⟨w₁, h₁, ho₁, hb₁⟩ := hcs c (by simp) s w hs (hconf c (by simp)) hw
    obtain ⟨w₂, h₂, ho₂, hb₂⟩ := ih (fun x hx => hcs x (by simp [hx]))
      (fun x hx => hconf x (by simp [hx])) w₁ ho₁
    refine ⟨w₂, ?_, ho₂, by simp [hb₂, hb₁, wireList]⟩
    simp [encodeObjects, MessageSchema.deref, h₁, h₂]

theorem encodes (c : MessageObject) : Encodes c := by
  induction c using MessageObject.induction with
  | object id cs ih =>
    intro s w hs hconf hw
    obtain ⟨hfield, htype, hnested⟩ := hconf
    rename_i f
    obtain ⟨t, ht, htv⟩ := hs.object_schema hfield htype.symm
    obtain ⟨cld, hcld, hocld, hbcld⟩ := encodeObjects_wireList cs ih t htv (hnested t ht)
      BinaryMessageWriter.new BinaryMessageWriter.Owned.new
    have hsize : cld.size = (wireList cs).length := by
      rw [BinaryMessageWriter.size, ← hocld.length_bytes, hbcld]
      simp
    obtain ⟨w', h', ho', hb'⟩ := append_append_append hw (varUIntBytes (fieldKey id 2))
      (varUIntBytes (UInt64.ofNat (wireList cs).length)) (wireList cs)
    refine ⟨w', ?_, ho', by rw [hb', wireBytes]⟩
    simp only [encodeObject, encodeSwitch, hs.fieldType_eq hfield, ← htype, MessageObject.type,
      MessageSchema.fieldSchema_eq hfield, ht, Result.ok_bind, hcld, hsize, hbcld,
      BinaryMessageWriter.appendVarUInt, BinaryMessageWriter.bytes_new, List.nil_append]
    exact congrArg _ h'
  | scalar c hc =>
    intro s w hs hconf hw
    obtain ⟨hfield, htype, -⟩ := hconf
    have hft := hs.fieldType_eq hfield
    rw [← htype] at hft
    cases c with
    | object id cs => exact absurd rfl hc
    | string id value =>
      obtain ⟨w', h', ho', hb'⟩ := append_append_append hw (varUIntBytes (fieldKey id 2))
        (varUIntBytes (UInt64.ofNat value.length)) value
      refine ⟨w', ?_, ho', by rw [hb', wireBytes]⟩
      simp only [encodeObject, encodeSwitch, hft, MessageObject.type, Result.ok_bind,
        MessageObject.asString, BinaryMessageWriter.appendVarUInt]
      exact congrArg _ h'
    | boolean id value | uint32 id value | uint64 id value | datetime id value | double id value =>
      obtain ⟨w', h', ho', hb'⟩ := append_append hw _ _
      refine ⟨w', ?_, ho', by rw [hb', wireBytes]⟩
      simp only [encodeObject, encodeSwitch, hft, MessageObject.type, Result.ok_bind,
        MessageObject.asBool, MessageObject.asUInt32, MessageObject.asUInt64,
        MessageObject.asDouble, BinaryMessageWriter.appendVarUInt,
        BinaryMessageWriter.appendDouble, BinaryMessageWriter.appendUInt64]
      exact congrArg _ h'

end MessageEncoder
end Stx.Msg
