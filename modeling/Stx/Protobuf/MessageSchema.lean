import Stx.Protobuf.MessageObject

/-! `protobuf/MessageSchema.{h,cc}`: the field list and the three hash maps that
index it. -/
namespace Stx

namespace Msg

inductive EncodingHint where
  | none | bitpack | leb128
  deriving DecidableEq, Repr

/-- A field over the type `σ` of schemas; a null `RefPtr` is `none`. -/
structure MessageSchemaField (σ : Type) where
  id : UInt32
  name : Bytes
  type : FieldType
  type_size : UInt64 := 0
  repeated : Bool := false
  optional : Bool := false
  encoding : EncodingHint := .none
  schema : Option σ := Option.none

structure MessageSchema where
  name : Bytes
  fields : List (MessageSchemaField MessageSchema)
  field_ids : HashMap Bytes UInt32
  field_types : HashMap UInt32 FieldType
  field_names : HashMap UInt32 Bytes

abbrev SchemaField := MessageSchemaField MessageSchema

namespace MessageSchema

def empty (name : Bytes) : MessageSchema := ⟨name, [], ∅, ∅, ∅⟩

def addField (s : MessageSchema) (field : SchemaField) : MessageSchema where
  name := s.name
  fields := s.fields ++ [field]
  field_ids := s.field_ids.emplace field.name field.id
  field_types := s.field_types.emplace field.id field.type
  field_names := s.field_names.emplace field.id field.name

/-- The constructor `MessageSchema(name, fields)`. -/
def new (name : Bytes) (fields : List SchemaField) : MessageSchema :=
  fields.foldl addField (empty name)

def hasFieldName (s : MessageSchema) (path : Bytes) : Bool := (s.field_ids.lookup path).isSome

def hasField (s : MessageSchema) (id : UInt32) : Bool := (s.field_types.lookup id).isSome

def fieldId (s : MessageSchema) (path : Bytes) : Result UInt32 :=
  match s.field_ids.lookup path with
  | none => Result.RAISEF .indexError "field not found: $0" [path]
  | some id => .ok id

def fieldType (s : MessageSchema) (id : UInt32) : Result FieldType :=
  if id = 0 then .ok .object
  else match s.field_types.lookup id with
    | none => Result.RAISEF .indexError "field not found: $0" [StringUtil.toString id.toNat]
    | some type => .ok type

def fieldName (s : MessageSchema) (id : UInt32) : Result Bytes :=
  if id = 0 then .ok s.name
  else match s.field_names.lookup id with
    | none => Result.RAISEF .indexError "field not found: $0" [StringUtil.toString id.toNat]
    | some name => .ok name

/-- The first field with the id. -/
def field? (s : MessageSchema) (id : UInt32) : Option SchemaField :=
  s.fields.find? fun f => f.id == id

def fieldSchema (s : MessageSchema) (id : UInt32) : Result (Option MessageSchema) :=
  match s.field? id with
  | none => Result.RAISEF .indexError "field not found: $0" [StringUtil.toString id.toNat]
  | some field => .ok field.schema

def removeField (s : MessageSchema) (id : UInt32) : Result MessageSchema :=
  match s.field? id with
  | none => Result.RAISEF .notFoundError "field not found: $0" [StringUtil.toString id.toNat]
  | some f => .ok
    { name := s.name
      fields := s.fields.eraseP fun f => f.id == id
      field_ids := s.field_ids.erase f.name
      field_types := s.field_types.erase f.id
      field_names := s.field_names.erase f.id }

/-- `*ref` on a `RefPtr<MessageSchema>`. A null dereference, undefined in C++, is a
raised error here. -/
def deref : Option MessageSchema → Result MessageSchema
  | some s => .ok s
  | none => Result.RAISE .nullPointerError

/-- A schema whose ids are unique and can be packed into a 32-bit key, whose index
of types agrees with its field list, and whose OBJECT fields carry such a schema. -/
inductive Valid : MessageSchema → Prop
  | mk {s : MessageSchema}
    (nodup : (s.fields.map (·.id)).Nodup)
    (range : ∀ f ∈ s.fields, 1 ≤ f.id.toNat ∧ f.id.toNat < 2^29)
    (types : ∀ id, s.field_types.lookup id = (s.field? id).map (·.type))
    (carries : ∀ f ∈ s.fields, f.type = .object → f.schema ≠ none)
    (nested : ∀ f ∈ s.fields, ∀ t, f.schema = some t → Valid t) : Valid s

/-- A schema whose ids are unique and not 0, whose index of types agrees with its field list, and
whose OBJECT fields carry such a schema. -/
inductive Distinct : MessageSchema → Prop
  | mk {s : MessageSchema}
    (nodup : (s.fields.map (·.id)).Nodup) (nonzero : ∀ f ∈ s.fields, f.id ≠ 0)
    (types : ∀ id, s.field_types.lookup id = (s.field? id).map (·.type))
    (carries : ∀ f ∈ s.fields, f.type = .object → f.schema ≠ none)
    (nested : ∀ f ∈ s.fields, ∀ t, f.schema = some t → Distinct t) : Distinct s

theorem Valid.distinct {s : MessageSchema} (hs : s.Valid) : s.Distinct := by
  induction hs with
  | mk nodup range types carries nested ih =>
    refine .mk nodup (fun f hf hzero => ?_) types carries ih
    have hpos := (range f hf).1
    rw [hzero] at hpos
    exact absurd hpos (by decide)

/-- Induction on a schema, with the hypothesis for the schema of every field. -/
theorem induction {P : MessageSchema → Prop}
    (step : ∀ s, (∀ f ∈ s.fields, ∀ t, f.schema = some t → P t) → P s) (s : MessageSchema) :
    P s := by
  refine @MessageSchema.rec P (fun fields => ∀ f ∈ fields, ∀ t, f.schema = some t → P t)
    (fun f => ∀ t, f.schema = some t → P t) (fun o => ∀ t, o = some t → P t) ?_ ?_ ?_ ?_ ?_ ?_ s
  · exact fun name fields _ _ _ ih => step _ ih
  · exact List.forall_mem_nil _
  · exact fun f fields hf hfields => List.forall_mem_cons.2 ⟨hf, hfields⟩
  · exact fun _ _ _ _ _ _ _ _ ih => ih
  · exact fun t h => nomatch h
  · intro t ht u hu
    cases hu
    exact ht

theorem field?_mem {s : MessageSchema} {id : UInt32} {f : SchemaField} (h : s.field? id = some f) :
    f ∈ s.fields ∧ f.id = id :=
  ⟨List.mem_of_find?_eq_some h, by simpa using List.find?_some h⟩

theorem new_fields (name : Bytes) (fields : List SchemaField) : (new name fields).fields = fields := by
  suffices h : ∀ s : MessageSchema, (fields.foldl addField s).fields = s.fields ++ fields from h _
  induction fields with
  | nil => simp
  | cons f fields ih =>
    intro s
    rw [List.foldl_cons, ih]
    simp [addField]

theorem new_name (name : Bytes) (fields : List SchemaField) : (new name fields).name = name := by
  suffices h : ∀ s : MessageSchema, (fields.foldl addField s).name = s.name from h _
  induction fields with
  | nil => exact fun s => rfl
  | cons f fields ih => exact fun s => ih (s.addField f)

/-- `addField` keeps the index of types in step with the first field of each id. -/
theorem addField_types {s : MessageSchema}
    (h : ∀ id, s.field_types.lookup id = (s.field? id).map (·.type)) (f : SchemaField) (id : UInt32) :
    (s.addField f).field_types.lookup id = ((s.addField f).field? id).map (·.type) := by
  have hfield : (s.addField f).field? id = (s.field? id).or (if f.id = id then some f else none) := by
    simp only [field?, addField, List.find?_append, List.find?_cons, List.find?_nil]
    by_cases he : f.id = id
    · simp [he]
    · simp [he, beq_eq_false_iff_ne.2 he]
  change (s.field_types.emplace f.id f.type).lookup id = _
  rw [hfield, HashMap.lookup_emplace, h]
  cases s.field? id with
  | some g => simp
  | none => split <;> simp

theorem new_types (name : Bytes) (fields : List SchemaField) (id : UInt32) :
    (new name fields).field_types.lookup id = ((new name fields).field? id).map (·.type) := by
  suffices h : ∀ s : MessageSchema,
      (∀ id, s.field_types.lookup id = (s.field? id).map (·.type)) →
      ∀ id, (fields.foldl addField s).field_types.lookup id =
        ((fields.foldl addField s).field? id).map (·.type) from
    h _ (fun _ => rfl) id
  induction fields with
  | nil => exact fun s h => h
  | cons f fields ih => exact fun s h => ih _ (addField_types h f)

/-- The index of names has the first field of each name. -/
theorem new_field_ids (name : Bytes) (fields : List SchemaField) (key : Bytes) :
    (new name fields).field_ids.lookup key =
      (fields.find? fun f => f.name == key).map (·.id) := by
  suffices h : ∀ s : MessageSchema, (fields.foldl addField s).field_ids.lookup key =
      (s.field_ids.lookup key).or ((fields.find? fun f => f.name == key).map (·.id)) from
    h (empty name)
  induction fields with
  | nil => exact fun s => (Option.or_none).symm
  | cons f fields ih =>
    intro s
    rw [List.foldl_cons, ih, List.find?_cons]
    change ((s.field_ids.emplace f.name f.id).lookup key).or _ = _
    rw [HashMap.lookup_emplace, Option.or_assoc]
    by_cases he : f.name = key
    · simp [he]
    · simp [he, beq_eq_false_iff_ne.2 he]

/-- The constructor builds a valid schema from valid parts. -/
theorem Valid.new {name : Bytes} {fields : List SchemaField} (nodup : (fields.map (·.id)).Nodup)
    (range : ∀ f ∈ fields, 1 ≤ f.id.toNat ∧ f.id.toNat < 2^29)
    (carries : ∀ f ∈ fields, f.type = .object → f.schema ≠ none)
    (nested : ∀ f ∈ fields, ∀ t, f.schema = some t → Valid t) :
    Valid (MessageSchema.new name fields) := by
  refine .mk ?_ ?_ (new_types name fields) ?_ ?_ <;> rw [new_fields] <;> assumption

end MessageSchema
end Msg
end Stx
