import Stx.Protobuf.SchemaJSON
import Stx.Protobuf.DynamicMessage.JSONRoundTrip

/-! A schema that is written as JSON and read back. The encoding of a field is written as "NONE"
and not read, and the reader builds an OBJECT field without its size. -/
namespace Stx.Msg.MessageSchema
open Json Json.JSONUtil Brackets
open StringUtil (toStringInt)

/- The value that a schema has as JSON. -/

def boolValue (b : Bool) : JSONValue := if b then .true else .false

/-- The text of a string, up to where the counter wraps. -/
def textValue (text : Bytes) : JSONValue := .string (text.take (2^31))

def attributes (f : SchemaField) : List (Bytes × JSONValue) :=
  [(lit "id", .number (toStringInt f.id.toNat)), (lit "name", textValue f.name),
    (lit "type", .string (fieldTypeToString f.type)),
    (lit "type_size", .number (toStringInt (JSONEncoder.toInt64 f.type_size))),
    (lit "optional", boolValue f.optional), (lit "repeated", boolValue f.repeated),
    (lit "encoding_hint", .string (lit "NONE"))]

mutual
def schemaValue : MessageSchema → JSONValue
  | ⟨name, fields, _, _, _⟩ =>
    .object [(lit "name", textValue name), (lit "columns", .array (columnValues 0 fields))]

def columnValues : Nat → List SchemaField → List JSONValue
  | _, [] => []
  | i, field :: fields =>
    if i < 2^31 then columnValue field :: columnValues (i+1) fields else []

def columnValue : SchemaField → JSONValue
  | ⟨id, name, type, type_size, repeated, optional, encoding, schema⟩ =>
    .object (attributes ⟨id, name, type, type_size, repeated, optional, encoding, schema⟩ ++
      if type = .object then [(lit "schema", nestedValue schema)] else [])

def nestedValue : Option MessageSchema → JSONValue
  | some schema => schemaValue schema
  | none => .null
end

/-- At every depth, what toJSON writes and fromJSON reads: names that an `int` can count, no
encoding, and OBJECT fields without a size and with a schema. -/
inductive InJSON : MessageSchema → Prop
  | mk {s : MessageSchema} (name : s.name.length ≤ 2^31)
    (names : ∀ f ∈ s.fields, f.name.length ≤ 2^31) (encodings : ∀ f ∈ s.fields, f.encoding = .none)
    (objects : ∀ f ∈ s.fields, f.type = .object → f.type_size = 0 ∧ f.schema ≠ none)
    (nested : ∀ f ∈ s.fields, f.type = .object → ∀ t, f.schema = some t → InJSON t) : InJSON s

/-- At every depth, names without a character that is written as a `\u` escape. -/
inductive PlainNames : MessageSchema → Prop
  | mk {s : MessageSchema} (name : ∀ c ∈ s.name, unicodeEscaped c = false)
    (names : ∀ f ∈ s.fields, ∀ c ∈ f.name, unicodeEscaped c = false)
    (nested : ∀ f ∈ s.fields, f.type = .object → ∀ t, f.schema = some t → PlainNames t) :
    PlainNames s

/-- The text of the schema is parsed, and an empty schema reads the same name and the same fields
from it, at every depth. -/
def RoundTripsJSON (s : MessageSchema) : Prop :=
  ∃ json doc s', toJSON s {} = .ok json ∧ parseJSON json.output_ = .ok doc ∧
    fromJSONObject doc (empty []) = .ok s' ∧ outline s' = outline s

/- Writing. -/

section write

theorem layout_textValue (text : Bytes) : layout (textValue text) = quoted text := by
  rw [textValue, layout, quoted, escapeString, List.take_take, Nat.min_self]
  rfl

theorem addBoolean_eq (b : Bool) (json : JSONOutputStream) :
    (if b then json.addTrue else json.addFalse) = json.put (layout (boolValue b)) := by
  cases b <;> rfl

theorem attributesToJSON_eq (f : SchemaField) (json : JSONOutputStream) :
    attributesToJSON f json =
      .ok (json.put (123 :: commas 0 (layoutMembers (attributes f)))) := by
  have hid := @JSONOutputStream.addObjectEntry_eq (lit "id") (by decide)
  have hname := @JSONOutputStream.addObjectEntry_eq (lit "name") (by decide)
  have htype := @JSONOutputStream.addObjectEntry_eq (lit "type") (by decide)
  have hsize := @JSONOutputStream.addObjectEntry_eq (lit "type_size") (by decide)
  have hoptional := @JSONOutputStream.addObjectEntry_eq (lit "optional") (by decide)
  have hrepeated := @JSONOutputStream.addObjectEntry_eq (lit "repeated") (by decide)
  have hencoding := @JSONOutputStream.addObjectEntry_eq (lit "encoding_hint") (by decide)
  have hopen : lit "\x7b" = [123] := rfl
  have hcomma : lit "," = [44] := rfl
  rw [attributesToJSON]
  simp only [hid, hname, htype, hsize, hoptional, hrepeated, hencoding, Result.ok_bind,
    addBoolean_eq, JSONOutputStream.beginObject, JSONOutputStream.addComma,
    JSONOutputStream.addInteger, JSONOutputStream.addString, JSONOutputStream.put_put,
    Result.pure_eq, attributes, layoutMembers, commas, layout_textValue, layout, quoted, hopen,
    hcomma]
  simp

/-- An OBJECT field without a schema, or with one that is not written. -/
def Unwritten (f : SchemaField) : Prop := f.type = .object ∧ ∀ t, f.schema = some t → ¬t.InJSON

/-- The text of a value is written, or the call raises. -/
def WritesOr (write : JSONOutputStream → Result JSONOutputStream) (text : Bytes) (bad : Prop) :
    Prop :=
  ∀ json, write json = .ok (json.put text) ∨ (∃ e, write json = .raise e) ∧ bad

theorem fieldToJSON_cases {f : SchemaField}
    (ih : ∀ t, f.schema = some t → WritesOr (toJSON t) (layout (schemaValue t)) (¬t.InJSON)) :
    WritesOr (fieldToJSON f) (layout (columnValue f)) (Unwritten f) := by
  intro json
  have hschema := @JSONOutputStream.addObjectEntry_eq (lit "schema") (by decide)
  have hclose : lit "\x7d" = [125] := rfl
  have hcomma : lit "," = [44] := rfl
  obtain ⟨id, name, type, type_size, repeated, optional, encoding, schema⟩ := f
  have hattributes := attributesToJSON_eq
    ⟨id, name, type, type_size, repeated, optional, encoding, schema⟩ json
  rw [fieldToJSON, hattributes, Result.ok_bind]
  by_cases htype : type = .object
  · simp only [if_pos htype, JSONOutputStream.addComma, hcomma, JSONOutputStream.put_put, hschema,
      Result.ok_bind, columnValue]
    cases schema with
    | none => exact .inr ⟨⟨_, rfl⟩, htype, fun t h => nomatch h⟩
    | some t =>
      rw [schemaToJSON]
      rcases ih t rfl _ with hwritten | ⟨⟨e, hraise⟩, hbad⟩
      · left
        rw [hwritten]
        simp [JSONOutputStream.endObject, hclose, nestedValue, layout, attributes, layoutMembers,
          commas]
      · right
        rw [hraise]
        refine ⟨⟨e, rfl⟩, htype, fun u hu => ?_⟩
        cases hu
        exact hbad
  · left
    simp [htype, columnValue, JSONOutputStream.endObject, hclose, layout]

theorem fieldsToJSON_cases {fields : List SchemaField}
    (h : ∀ f ∈ fields, WritesOr (fieldToJSON f) (layout (columnValue f)) (Unwritten f)) (i : Nat) :
    WritesOr (fieldsToJSON i fields) (commas i (layoutElems (columnValues i fields)))
      (∃ f ∈ fields, Unwritten f) := by
  induction fields generalizing i with
  | nil =>
    intro json
    exact .inl (congrArg Result.ok (JSONOutputStream.put_nil json).symm)
  | cons f fields ih =>
    intro json
    rw [fieldsToJSON, columnValues]
    by_cases hi : i < 2^31
    · have hcomma : (if i > 0 then json.addComma else json) =
          json.put (if i > 0 then [44] else []) := by
        split
        · rfl
        · exact (JSONOutputStream.put_nil json).symm
      rw [if_pos hi, if_pos hi, hcomma, layoutElems, commas]
      rcases h f List.mem_cons_self (json.put (if i > 0 then [44] else [])) with
        hwritten | ⟨⟨e, hraise⟩, hbad⟩
      · simp only [hwritten, Result.ok_bind, JSONOutputStream.put_put]
        rcases ih (fun g hg => h g (List.mem_cons_of_mem f hg)) (i+1) (json.put _) with
          hrest | ⟨hraise, g, hg, hbad⟩
        · left
          rw [hrest, JSONOutputStream.put_put, List.append_assoc]
        · exact .inr ⟨hraise, g, List.mem_cons_of_mem f hg, hbad⟩
      · right
        simp only [hraise, Result.raise_bind]
        exact ⟨⟨e, rfl⟩, f, List.mem_cons_self, hbad⟩
    · rw [if_neg hi, if_neg hi]
      exact .inl (congrArg Result.ok (JSONOutputStream.put_nil json).symm)

/-- The text of the schema is written, up to where the counters wrap, unless a field has lost its
schema. -/
theorem toJSON_cases (s : MessageSchema) :
    WritesOr (toJSON s) (layout (schemaValue s)) (¬s.InJSON) := by
  induction s using MessageSchema.induction with
  | step s ih =>
    obtain ⟨name, fields, field_ids, field_types, field_names⟩ := s
    intro json
    have hname := @JSONOutputStream.addObjectEntry_eq (lit "name") (by decide)
    have hcolumns := @JSONOutputStream.addObjectEntry_eq (lit "columns") (by decide)
    have hfields : WritesOr (fieldsToJSON 0 fields)
        (commas 0 (layoutElems (columnValues 0 fields))) (∃ f ∈ fields, Unwritten f) :=
      fieldsToJSON_cases (fun f hf => fieldToJSON_cases (ih f hf)) 0
    rw [toJSON]
    simp only [hname, hcolumns, Result.ok_bind]
    rcases hfields ((((json.beginObject.put (entry (lit "name"))).addString name).addComma.put
      (entry (lit "columns"))).beginArray) with hwritten | ⟨⟨e, hraise⟩, f, hf, htype, hbad⟩
    · left
      rw [hwritten, Result.ok_bind]
      simp only [schemaValue, JSONOutputStream.beginObject, JSONOutputStream.addString,
        JSONOutputStream.addComma, JSONOutputStream.beginArray,
        JSONOutputStream.endArray, JSONOutputStream.endObject, JSONOutputStream.put_put,
        layout, layoutMembers, commas, layout_textValue, quoted]
      simp [lit]
    · right
      rw [hraise, Result.raise_bind]
      refine ⟨⟨e, rfl⟩, fun hs => ?_⟩
      cases hs with
      | mk _ _ _ objects nested =>
        obtain ⟨t, ht⟩ := Option.ne_none_iff_exists'.1 (objects f hf htype).2
        exact hbad t ht (nested f hf htype t ht)

end write

/- The members of a column. -/

def columnMembers (f : SchemaField) : List (Bytes × JSONValue) :=
  attributes f ++ if f.type = .object then [(lit "schema", nestedValue f.schema)] else []

theorem columnValue_eq (f : SchemaField) : columnValue f = .object (columnMembers f) := by
  cases f
  rfl

theorem keys_columnMembers (f : SchemaField) :
    (columnMembers f).map Prod.fst =
      [lit "id", lit "name", lit "type", lit "type_size", lit "optional", lit "repeated",
        lit "encoding_hint"] ++ if f.type = .object then [lit "schema"] else [] := by
  unfold columnMembers
  split <;> rfl

theorem nodup_columnMembers (f : SchemaField) : ((columnMembers f).map Prod.fst).Nodup := by
  rw [keys_columnMembers]
  split <;> decide

theorem mem_columnValues {fields : List SchemaField} {i : Nat} {v : JSONValue}
    (h : v ∈ columnValues i fields) : ∃ f ∈ fields, v = columnValue f := by
  induction fields generalizing i with
  | nil => cases h
  | cons f fields ih =>
    rw [columnValues] at h
    split at h
    · cases List.mem_cons.1 h with
      | inl h => exact ⟨f, List.mem_cons_self, h⟩
      | inr h =>
        obtain ⟨g, hg, hv⟩ := ih h
        exact ⟨g, List.mem_cons_of_mem f hg, hv⟩
    · cases h

/- The value is printable. -/

theorem readBack_take {text : Bytes} (h : ∀ c ∈ text, unicodeEscaped c = false) :
    ReadBack (text.take (2^31)) :=
  ⟨List.length_take_le _ _, fun c hc => h c (List.mem_of_mem_take hc)⟩

theorem readBack_keys : ∀ key ∈ [lit "id", lit "name", lit "type", lit "type_size",
    lit "optional", lit "repeated", lit "encoding_hint", lit "schema", lit "columns"],
    ReadBack key := by
  unfold ReadBack
  decide +kernel

theorem readBack_types (type : FieldType) : ReadBack (fieldTypeToString type) := by
  unfold ReadBack
  cases type <;> decide +kernel

theorem printable_boolValue (b : Bool) : Json.Printable (boolValue b) := by
  cases b <;> constructor

theorem printable_columnValue {f : SchemaField} (hname : ∀ c ∈ f.name, unicodeEscaped c = false)
    (hnested : f.type = .object → ∀ t, f.schema = some t → Json.Printable (schemaValue t)) :
    Json.Printable (columnValue f) := by
  have hattributes : ∀ m ∈ attributes f, Json.Printable m.2 := by
    simp only [attributes, List.forall_mem_cons]
    refine ⟨.number (isNumeral_toStringInt _), .string (readBack_take hname),
      .string (readBack_types _), .number (isNumeral_toStringInt _), printable_boolValue _,
      printable_boolValue _, .string ?_, List.forall_mem_nil _⟩
    unfold ReadBack
    decide +kernel
  rw [columnValue_eq]
  refine .object (fun m hm => ?_) (fun m hm => ?_)
  · apply readBack_keys
    have hkey : m.1 ∈ (columnMembers f).map Prod.fst := List.mem_map_of_mem hm
    rw [keys_columnMembers] at hkey
    cases List.mem_append.1 hkey with
    | inl h => exact List.mem_append_left [lit "schema", lit "columns"] h
    | inr h =>
      split at h
      · rw [List.mem_singleton.1 h]
        decide
      · cases h
  · cases List.mem_append.1 hm with
    | inl h => exact hattributes m h
    | inr h =>
      split at h
      · next htype =>
        rw [List.mem_singleton.1 h]
        cases hschema : f.schema with
        | none => exact .null
        | some t => exact hnested htype t hschema
      · cases h

theorem printable_schemaValue {s : MessageSchema} (hs : s.PlainNames) :
    Json.Printable (schemaValue s) := by
  induction hs with
  | @mk s hname hnames hnested ih =>
    obtain ⟨name, fields, field_ids, field_types, field_names⟩ := s
    have hcolumns : ∀ v ∈ columnValues 0 fields, Json.Printable v := by
      intro v hv
      obtain ⟨f, hf, rfl⟩ := mem_columnValues hv
      exact printable_columnValue (hnames f hf) (ih f hf)
    rw [schemaValue]
    refine .object ?_ ?_
    · simp only [List.forall_mem_cons]
      exact ⟨readBack_keys _ (by decide), readBack_keys _ (by decide), List.forall_mem_nil _⟩
    · simp only [List.forall_mem_cons]
      exact ⟨.string (readBack_take hname), .array hcolumns, List.forall_mem_nil _⟩

/- Reading it back. -/

section read
variable {obj : JSONObject} {endp p : Nat} {rest : TokenForest}

theorem outlineField_eq {f f' : SchemaField} (hid : f'.id = f.id) (hname : f'.name = f.name)
    (htype : f'.type = f.type) (hsize : f'.type_size = f.type_size)
    (hrepeated : f'.repeated = f.repeated) (hoptional : f'.optional = f.optional)
    (hencoding : f'.encoding = f.encoding)
    (hschema : f.type = .object → outlineSchema f'.schema = outlineSchema f.schema) :
    outlineField f' = outlineField f := by
  cases f with
  | mk id name type type_size repeated optional encoding schema =>
    cases f' with
    | mk id' name' type' type_size' repeated' optional' encoding' schema' =>
      simp only at hid hname htype hsize hrepeated hoptional hencoding hschema
      subst hid hname htype hsize hrepeated hoptional hencoding
      rw [outlineField, outlineField]
      congr 1
      split
      · next hobject => exact hschema hobject
      · rfl

/-- A column is read to the field that it was written for. -/
theorem addColumn_eq {nested : Nat → MessageSchema → Result MessageSchema} {f : SchemaField}
    (hat : At obj p (forest (columnValue f) rest)) (hsize : spanOf (columnValue f) < 2^32)
    (hle : p+spanOf (columnValue f) ≤ endp) (hname : f.name.length ≤ 2^31)
    (hencoding : f.encoding = .none)
    (hobject : f.type = .object → f.type_size = 0 ∧ f.schema ≠ none)
    (hnested : f.type = .object → ∀ t, f.schema = some t → ∀ q after,
      At obj q (forest (schemaValue t) after) → q+spanOf (schemaValue t) ≤ endp →
      spanOf (schemaValue t) < spanOf (columnValue f) →
      ∃ t', nested q (empty []) = .ok t' ∧ outline t' = outline t) :
    ∃ f', outlineField f' = outlineField f ∧
      ∀ s, addColumn nested obj endp p s = .ok (s.addField f') := by
  have hnode := nodup_columnMembers f
  rw [columnValue_eq] at hat hsize hle hnested
  have hmem : ∀ m ∈ attributes f, m ∈ columnMembers f := fun m hm => List.mem_append_left _ hm
  simp only [attributes, List.forall_mem_cons] at hmem
  obtain ⟨hid, hkey, htype, hlen, hoptional, hrepeated, -⟩ := hmem
  have hlt := f.id.toNat_lt
  have hidval := objectGetUInt64_found hat hsize hle hnode hid
    (DynamicMessage.stoull_toStringInt (by omega : f.id.toNat < 2^64))
  have hlenval := objectGetUInt64_found hat hsize hle hnode hlen
    (DynamicMessage.stoull_toInt64 f.type_size)
  have hnameval := objectGetString_found hat hsize hle hnode hkey
  have htypeval := objectGetString_found hat hsize hle hnode htype
  have hoptionalval := objectGetBool_found hat hsize hle hnode hoptional
  have hrepeatedval := objectGetBool_found hat hsize hle hnode hrepeated
  have hback : (UInt64.ofNat f.id.toNat).toUInt32 = f.id := by
    rw [← UInt32.toNat_inj, UInt64.toNat_toUInt32, UInt64.toNat_ofNat']
    omega
  rw [List.take_of_length_le hname] at hnameval
  by_cases hobj : f.type = .object
  · obtain ⟨hzero, hsome⟩ := hobject hobj
    obtain ⟨t, ht⟩ := Option.ne_none_iff_exists'.1 hsome
    have hschema : (lit "schema", schemaValue t) ∈ columnMembers f := by
      rw [columnMembers, if_pos hobj, ht]
      exact List.mem_append_right _ List.mem_cons_self
    obtain ⟨q, after, hq, hlt, hroom, hatq⟩ := objectLookup_found hat hsize hle hnode hschema
    obtain ⟨t', hread, hsame⟩ := hnested hobj t ht q after hatq (by omega) (by omega)
    refine ⟨mkObjectField f.id f.name f.repeated f.optional (some t'), ?_, fun s => ?_⟩
    · refine outlineField_eq rfl rfl hobj.symm hzero.symm rfl rfl hencoding.symm fun _ => ?_
      rw [ht, mkObjectField, outlineSchema, outlineSchema, hsame]
    · simp only [addColumn, hidval, hnameval, htypeval, hlenval, hoptionalval, hrepeatedval,
        Result.ok_bind, fieldTypeFromString_toString, if_pos hobj, hq,
        if_neg (by omega : ¬q = endp), hread, hback]
      rfl
  · refine ⟨⟨f.id, f.name, f.type, f.type_size, f.repeated, f.optional, .none, none⟩, ?_,
      fun s => ?_⟩
    · exact outlineField_eq rfl rfl rfl rfl rfl rfl hencoding.symm fun h => absurd h hobj
    · simp only [addColumn, hidval, hnameval, htypeval, hlenval, hoptionalval, hrepeatedval,
        Result.ok_bind, fieldTypeFromString_toString, if_neg hobj, hback]
      rfl

/-- The loop over the columns adds one field in each turn. -/
theorem foldlM_addField {step : MessageSchema → Nat → Result MessageSchema}
    {fields : List SchemaField} {i : Nat}
    (h : ∀ (k : Nat) (f : SchemaField), fields[k]? = some f → ∃ f', outlineField f' = outlineField f ∧
      ∀ s, step s (i+k) = .ok (s.addField f')) (s : MessageSchema) :
    ∃ s', (List.range' i fields.length).foldlM step s = .ok s' ∧ s'.name = s.name ∧
      s'.fields.map outlineField = s.fields.map outlineField ++ fields.map outlineField := by
  induction fields generalizing i s with
  | nil => exact ⟨s, rfl, rfl, (List.append_nil _).symm⟩
  | cons f fields ih =>
    obtain ⟨f', hsame, hstep⟩ := h 0 f rfl
    have hrest : ∀ (k : Nat) (g : SchemaField), fields[k]? = some g →
        ∃ g', outlineField g' = outlineField g ∧ ∀ s, step s (i+1+k) = .ok (s.addField g') := by
      intro k g hg
      rw [Nat.add_assoc, Nat.add_comm 1]
      exact h (k+1) g hg
    obtain ⟨s', hloop, hname, hfields⟩ := ih hrest (s.addField f')
    refine ⟨s', ?_, hname, ?_⟩
    · rw [List.length_cons, List.range'_succ, List.foldlM_cons, ← Nat.add_zero i, hstep, Nat.add_zero]
      exact hloop
    · rw [hfields, addField, List.map_append, List.map_cons, List.map_nil, hsame,
        List.append_assoc]
      rfl

theorem columnValues_eq_map {fields : List SchemaField} {i : Nat} (h : i+fields.length ≤ 2^31) :
    columnValues i fields = fields.map columnValue := by
  induction fields generalizing i with
  | nil => rfl
  | cons f fields ih =>
    rw [List.length_cons] at h
    rw [columnValues, if_pos (by omega), ih (by omega), List.map_cons]

/-- Every column has two tokens at least. -/
theorem length_le_of_columnValues (fields : List SchemaField) (i : Nat) :
    2*min fields.length (2^31-i) ≤ (forestElems (columnValues i fields)).spans.length := by
  induction fields generalizing i with
  | nil => simp
  | cons f fields ih =>
    rw [columnValues]
    split
    · have hcolumn : 2 ≤ spanOf (columnValue f) := by
        rw [columnValue_eq, spanOf_object]
        exact Nat.le_add_left ..
      have hrest := ih (i+1)
      rw [length_forestElems_cons, List.length_cons]
      omega
    · omega

/-- A schema is read where its tokens stand. -/
theorem fromJSON_value {s : MessageSchema} (hs : s.InJSON) :
    ∀ (fuel p : Nat) (rest : TokenForest), At obj p (forest (schemaValue s) rest) →
      spanOf (schemaValue s) < 2^32 → p+spanOf (schemaValue s) ≤ endp →
      spanOf (schemaValue s) ≤ fuel →
      ∃ s', fromJSON obj endp fuel p (empty []) = .ok s' ∧ outline s' = outline s := by
  induction hs with
  | @mk s hname hnames hencodings hobjects hnested ih =>
    obtain ⟨name, fields, field_ids, field_types, field_names⟩ := s
    simp only at hname hnames hencodings hobjects ih
    intro fuel p rest hat hsize hle hfuel
    rw [schemaValue] at hat hsize hle hfuel
    have hpos := spanOf_pos (.object [(lit "name", textValue name),
      (lit "columns", .array (columnValues 0 fields))])
    obtain ⟨fuel, rfl⟩ : ∃ k, fuel = k+1 := Nat.exists_eq_add_one.2 (by omega)
    have hkeys : ([(lit "name", textValue name),
        (lit "columns", .array (columnValues 0 fields))].map Prod.fst).Nodup := by
      simp only [List.map_cons, List.map_nil]
      decide
    have hnameval := objectGetString_found hat hsize hle hkeys (List.mem_cons_self)
    obtain ⟨cols, after, hcols, hlt, hroom, hatcols⟩ :=
      objectLookup_found hat hsize hle hkeys (List.mem_cons_of_mem _ List.mem_cons_self)
    have hcount := length_le_of_columnValues fields 0
    have hspan := spanOf_array (columnValues 0 fields)
    have hall := columnValues_eq_map (by omega : 0+fields.length ≤ 2^31)
    have hlength := arrayLength_eq hatcols (by omega) (by omega : _ ≤ endp)
    rw [List.take_of_length_le hname] at hnameval
    have hlen : (columnValues 0 fields).length = fields.length := by rw [hall, List.length_map]
    let step (s : MessageSchema) (i : Nat) : Result MessageSchema := do
      let col ← arrayLookup obj cols endp i
      addColumn (fromJSON obj endp fuel) obj endp col s
    have hturn : ∀ (k : Nat) (f : SchemaField), fields[k]? = some f →
        ∃ f', outlineField f' = outlineField f ∧ ∀ s, step s (0+k) = .ok (s.addField f') := by
      intro k f hk
      have hf : f ∈ fields := List.mem_of_getElem? hk
      have hcolumn : (columnValues 0 fields)[k]? = some (columnValue f) := by
        rw [hall, List.getElem?_map, hk, Option.map_some]
      obtain ⟨col, after', hlookup, hcol, hcolroom, hatcol⟩ :=
        arrayLookup_eq hatcols (by omega) (by omega : _ ≤ endp) hcolumn
      obtain ⟨f', hsame, hadd⟩ := addColumn_eq hatcol (by omega)
        (by omega : _ ≤ endp) (hnames f hf) (hencodings f hf) (hobjects f hf)
        fun htype t ht q after hatq hqle hqlt =>
          ih f hf htype t ht fuel q after hatq (by omega) hqle (by omega)
      refine ⟨f', hsame, fun s => ?_⟩
      change (arrayLookup obj cols endp (0+k) >>= _) = _
      rw [Nat.zero_add, hlookup, Result.ok_bind, hadd]
    obtain ⟨s', hloop, hsname, hsfields⟩ := foldlM_addField hturn { empty [] with name := name }
    refine ⟨s', ?_, ?_⟩
    · rw [fromJSON]
      simp only [hnameval, hcols, Result.ok_bind, if_neg (by omega : ¬cols = endp), hlength, hlen,
        List.range_eq_range']
      exact hloop
    · rw [outline_eq, outline_eq, hsname, hsfields]
      rfl

end read

/- Whatever the document, nothing but what is in JSON is read from it. -/

/-- The strings of the document can be counted by an `int`. -/
def ShortStrings (obj : JSONObject) : Prop :=
  ∀ t ∈ obj, t.type = .string → t.data.length ≤ 2^31

section keeps
variable {obj : JSONObject} {endp : Nat}

theorem shortStrings_node {b e : Bracket} {inner rest : TokenForest}
    (hinner : ShortStrings (document inner)) (hrest : ShortStrings (document rest)) :
    ShortStrings (document (.node b e inner rest)) := by
  intro t ht htype
  simp only [document, Forest.spans, List.map_cons, List.map_append, List.mem_cons,
    List.mem_append] at ht
  rcases ht with rfl | ht | rfl | ht
  · cases b <;> cases htype
  · exact hinner t ht htype
  · cases e <;> cases htype
  · exact hrest t ht htype

theorem shortStrings_forest {v : JSONValue} (h : Json.Printable v) {f : TokenForest}
    (hf : ShortStrings (document f)) : ShortStrings (document (forest v f)) := by
  have hatom : ∀ {a : Scalar} {g : TokenForest}, (∀ s, a = .string s → s.length ≤ 2^31) →
      ShortStrings (document g) → ShortStrings (document (.atom a g)) := by
    intro a g ha hg
    refine List.forall_mem_cons.2 ⟨fun htype => ?_, hg⟩
    cases a with
    | string s => exact ha s rfl
    | number | true | false | null => cases htype
  have hnil : ShortStrings (document .nil) := List.forall_mem_nil _
  induction h generalizing f with
  | null | true | false | number _ => exact hatom (fun s h => nomatch h) hf
  | string hs =>
    refine hatom (fun s h => ?_) hf
    cases h
    exact hs.1
  | @array elems hvalues ih =>
    refine shortStrings_node ?_ hf
    induction elems with
    | nil => exact hnil
    | cons v elems ihe =>
      exact ih v List.mem_cons_self (ihe (fun w hw => hvalues w (List.mem_cons_of_mem v hw))
        fun w hw => ih w (List.mem_cons_of_mem v hw))
  | @object members keys hvalues ih =>
    refine shortStrings_node ?_ hf
    induction members with
    | nil => exact hnil
    | cons m members ihm =>
      have hrest := ihm (fun w hw => keys w (List.mem_cons_of_mem m hw))
        (fun w hw => hvalues w (List.mem_cons_of_mem m hw)) fun w hw => ih w (List.mem_cons_of_mem m hw)
      refine hatom (fun s h => ?_) (ih m List.mem_cons_self hrest)
      cases h
      exact (keys m List.mem_cons_self).1

theorem inJSON_empty : (empty []).InJSON := by
  constructor <;> simp [empty]

theorem length_of_objectGetString (hobj : ShortStrings obj) {p : Nat} {key text : Bytes}
    (h : objectGetString obj p endp key = .ok (some text)) : text.length ≤ 2^31 := by
  obtain ⟨iter, -, h⟩ := Result.bind_eq_ok h
  split at h
  · cases h
  · obtain ⟨t, ht, h⟩ := Result.bind_eq_ok h
    unfold JSONUtil.deref at ht
    split at ht
    · next hget =>
      cases ht
      split at h
      · next htype =>
        cases h
        exact hobj t (List.mem_of_getElem? hget) htype
      · cases h
    · cases ht

theorem InJSON.addField {s : MessageSchema} (hs : s.InJSON) {f : SchemaField}
    (hname : f.name.length ≤ 2^31) (hencoding : f.encoding = .none)
    (hobject : f.type = .object → f.type_size = 0 ∧ f.schema ≠ none)
    (hnested : f.type = .object → ∀ t, f.schema = some t → t.InJSON) : (s.addField f).InJSON := by
  cases hs with
  | mk name names encodings objects nested =>
    have hall : ∀ {P : SchemaField → Prop}, (∀ g ∈ s.fields, P g) → P f →
        ∀ g ∈ (s.addField f).fields, P g := by
      intro P hfields hf g hg
      cases List.mem_append.1 hg with
      | inl h => exact hfields g h
      | inr h => rw [List.mem_singleton.1 h]; exact hf
    exact .mk name (hall names hname) (hall encodings hencoding) (hall objects hobject)
      (hall nested hnested)

/-- A turn of the loop adds a field that is in JSON. -/
theorem addColumn_inJSON (hobj : ShortStrings obj)
    {nested : Nat → MessageSchema → Result MessageSchema}
    (hnested : ∀ q t, nested q (empty []) = .ok t → t.InJSON) {col : Nat} {s s' : MessageSchema}
    (hs : s.InJSON) (h : addColumn nested obj endp col s = .ok s') : s'.InJSON := by
  obtain ⟨id, -, h⟩ := Result.bind_eq_ok h
  cases id with
  | none => cases h
  | some id =>
  obtain ⟨name, hname, h⟩ := Result.bind_eq_ok h
  cases name with
  | none => cases h
  | some name =>
  have hlen := length_of_objectGetString hobj hname
  obtain ⟨type, -, h⟩ := Result.bind_eq_ok h
  cases type with
  | none => cases h
  | some type =>
  obtain ⟨type_size, -, h⟩ := Result.bind_eq_ok h
  obtain ⟨optional, -, h⟩ := Result.bind_eq_ok h
  obtain ⟨repeated, -, h⟩ := Result.bind_eq_ok h
  obtain ⟨field_type, -, h⟩ := Result.bind_eq_ok h
  split at h
  · obtain ⟨child, -, h⟩ := Result.bind_eq_ok h
    split at h
    · cases h
    · obtain ⟨t, ht, h⟩ := Result.bind_eq_ok h
      cases h
      refine hs.addField hlen rfl (fun _ => ⟨rfl, Option.some_ne_none t⟩) fun _ u hu => ?_
      cases hu
      exact hnested child t ht
  · next htype =>
    cases h
    exact hs.addField hlen rfl (fun hobject => absurd hobject htype)
      fun hobject => absurd hobject htype

theorem foldlM_keeps {α : Type} {P : MessageSchema → Prop}
    {step : MessageSchema → α → Result MessageSchema}
    (hstep : ∀ s a s', P s → step s a = .ok s' → P s') {as : List α} {s s' : MessageSchema}
    (hs : P s) (h : as.foldlM step s = .ok s') : P s' := by
  induction as generalizing s with
  | nil =>
    cases h
    exact hs
  | cons a as ih =>
    rw [List.foldlM_cons] at h
    obtain ⟨t, ht, h⟩ := Result.bind_eq_ok h
    exact ih (hstep s a t hs ht) h

theorem fromJSON_inJSON (hobj : ShortStrings obj) :
    ∀ (fuel p : Nat) (s s' : MessageSchema), s.InJSON → fromJSON obj endp fuel p s = .ok s' →
      s'.InJSON := by
  intro fuel
  induction fuel with
  | zero => exact fun p s s' _ h => nomatch h
  | succ fuel ih =>
    intro p s s' hs h
    obtain ⟨tname, htname, h⟩ := Result.bind_eq_ok h
    obtain ⟨cols, -, h⟩ := Result.bind_eq_ok h
    have hnamed : { s with name := tname.getD s.name }.InJSON := by
      cases hs with
      | mk name names encodings objects nested =>
        refine .mk ?_ names encodings objects nested
        cases tname with
        | none => exact name
        | some tname => exact length_of_objectGetString hobj htname
    split at h
    · cases h
    · obtain ⟨ncols, -, h⟩ := Result.bind_eq_ok h
      refine foldlM_keeps (fun t i t' ht hturn => ?_) hnamed h
      obtain ⟨col, -, hturn⟩ := Result.bind_eq_ok hturn
      exact addColumn_inJSON hobj (fun q u hu => ih q _ u inJSON_empty hu) ht hturn

end keeps

/-- Schemas of one outline have the same attributes. -/
theorem InJSON.of_outline {s s' : MessageSchema} (hs : s'.InJSON) (h : outline s' = outline s) :
    s.InJSON := by
  induction hs generalizing s with
  | @mk s' name names encodings objects nested ih =>
    rw [outline_eq, outline_eq, Outline.mk.injEq] at h
    obtain ⟨hname, hfields⟩ := h
    have hsame : ∀ f ∈ s.fields, ∃ f' ∈ s'.fields, outlineField f' = outlineField f := by
      intro f hf
      have hmem : outlineField f ∈ s.fields.map outlineField := List.mem_map_of_mem hf
      rw [← hfields] at hmem
      exact List.mem_map.1 hmem
    have hattributes : ∀ f ∈ s.fields, f.name.length ≤ 2^31 ∧ f.encoding = .none ∧
        (f.type = .object → f.type_size = 0 ∧ f.schema ≠ none ∧
          ∀ t, f.schema = some t → t.InJSON) := by
      intro f hf
      obtain ⟨f', hf', heq⟩ := hsame f hf
      have hnames := names f' hf'
      have hencodings := encodings f' hf'
      have hobjects := objects f' hf'
      have hnested := ih f' hf'
      obtain ⟨id, fname, type, type_size, repeated, optional, encoding, schema⟩ := f
      obtain ⟨id', fname', type', type_size', repeated', optional', encoding', schema'⟩ := f'
      simp only [outlineField, MessageSchemaField.mk.injEq] at heq
      obtain ⟨rfl, rfl, rfl, rfl, rfl, rfl, rfl, hschema⟩ := heq
      refine ⟨hnames, hencodings, fun htype => ?_⟩
      obtain ⟨hzero, hsome⟩ := hobjects htype
      obtain ⟨t', ht'⟩ := Option.ne_none_iff_exists'.1 hsome
      simp only at htype hzero ht'
      rw [if_pos htype, if_pos htype, ht', outlineSchema] at hschema
      cases schema with
      | none => cases hschema
      | some t =>
        refine ⟨hzero, Option.some_ne_none t, fun u hu => ?_⟩
        cases hu
        exact hnested htype t' ht' (Option.some.inj hschema)
    exact .mk (hname ▸ name) (fun f hf => (hattributes f hf).1) (fun f hf => (hattributes f hf).2.1)
      (fun f hf htype => ⟨((hattributes f hf).2.2 htype).1, ((hattributes f hf).2.2 htype).2.1⟩)
      fun f hf htype => ((hattributes f hf).2.2 htype).2.2

section roundTrip
variable {s : MessageSchema} (hplain : s.PlainNames)
include hplain

theorem parseJSON_schemaValue :
    parseJSON (layout (schemaValue s)) = .ok (document (forest (schemaValue s) .nil)) :=
  parseJSON_layout (printable_schemaValue hplain)

theorem inJSON_of_roundTripsJSON (h : s.RoundTripsJSON) : s.InJSON := by
  obtain ⟨json, doc, s', hwrite, hparse, hread, hsame⟩ := h
  rcases toJSON_cases s {} with hwritten | ⟨⟨e, hraise⟩, -⟩
  · cases hwrite.symm.trans hwritten
    have htext : (JSONOutputStream.put (layout (schemaValue s)) {}).output_ =
      layout (schemaValue s) := rfl
    rw [htext, parseJSON_schemaValue hplain] at hparse
    cases hparse
    have hnil : ShortStrings (document .nil) := List.forall_mem_nil _
    have hshort := shortStrings_forest (printable_schemaValue hplain) hnil
    exact (fromJSON_inJSON hshort _ _ _ _ inJSON_empty hread).of_outline hsame
  · cases hwrite.symm.trans hraise

theorem roundTripsJSON_of_inJSON (h : s.InJSON) (hsize : spanOf (schemaValue s) < 2^32) :
    s.RoundTripsJSON := by
  rcases toJSON_cases s {} with hwritten | ⟨-, hbad⟩
  · have hlength : (document (forest (schemaValue s) .nil)).length = spanOf (schemaValue s) := by
      rw [length_document]
      rfl
    have hat : At (document (forest (schemaValue s) .nil)) 0 (forest (schemaValue s) .nil) :=
      ⟨[], (List.append_nil _).symm⟩
    obtain ⟨s', hread, hsame⟩ := fromJSON_value h
      ((document (forest (schemaValue s) .nil)).length+1) 0 .nil hat hsize
      (by omega : 0+spanOf (schemaValue s) ≤ (document (forest (schemaValue s) .nil)).length)
      (by omega)
    exact ⟨_, _, s', hwritten, parseJSON_schemaValue hplain, hread, hsame⟩
  · exact absurd h hbad

/-- A schema comes back only when all that it has is in JSON, and then it does, with a document
that a 32-bit size can hold. -/
theorem roundTripsJSON_iff : (s.RoundTripsJSON → s.InJSON) ∧
    (s.InJSON ∧ spanOf (schemaValue s) < 2^32 → s.RoundTripsJSON) :=
  ⟨inJSON_of_roundTripsJSON hplain, fun h => roundTripsJSON_of_inJSON hplain h.1 h.2⟩

end roundTrip

/- A schema with a nested one, and one with an encoding. -/

def pointFields : List SchemaField :=
  [⟨1, lit "x\"y", .uint32, 7, false, true, .none, none⟩,
    ⟨2, lit "label", .string, 80, true, false, .none, none⟩]

def pathFields : List SchemaField :=
  [⟨1, lit "seq", .uint64, 0xffffffffffffffff, false, false, .none, none⟩,
    ⟨2, lit "point", .object, 0, true, false, .none, some (.new (lit "point") pointFields)⟩]

theorem InJSON.new {name : Bytes} {fields : List SchemaField} (hname : name.length ≤ 2^31)
    (hfields : ∀ f ∈ fields, f.name.length ≤ 2^31 ∧ f.encoding = .none ∧
      (f.type = .object → f.type_size = 0 ∧ f.schema ≠ none))
    (hnested : ∀ f ∈ fields, ∀ t, f.schema = some t → t.InJSON) :
    (MessageSchema.new name fields).InJSON := by
  refine .mk (by rwa [new_name]) ?_ ?_ ?_ ?_ <;> rw [new_fields]
  · exact fun f hf => (hfields f hf).1
  · exact fun f hf => (hfields f hf).2.1
  · exact fun f hf => (hfields f hf).2.2
  · exact fun f hf _ => hnested f hf

theorem PlainNames.new {name : Bytes} {fields : List SchemaField}
    (hname : ∀ c ∈ name, unicodeEscaped c = false)
    (hfields : ∀ f ∈ fields, ∀ c ∈ f.name, unicodeEscaped c = false)
    (hnested : ∀ f ∈ fields, ∀ t, f.schema = some t → t.PlainNames) :
    (MessageSchema.new name fields).PlainNames := by
  refine .mk (by rwa [new_name]) ?_ ?_ <;> rw [new_fields]
  · exact hfields
  · exact fun f hf _ => hnested f hf

theorem pathFields_inJSON : (MessageSchema.new (lit "path") pathFields).InJSON := by
  refine .new (by decide) (by simp only [pathFields, List.forall_mem_cons]; decide) ?_
  simp only [pathFields, List.forall_mem_cons]
  refine ⟨(fun t h => by cases h), fun t h => ?_, List.forall_mem_nil _⟩
  cases h
  refine .new (by decide) (by simp only [pointFields, List.forall_mem_cons]; decide) ?_
  simp [pointFields]

theorem pathFields_plainNames : (MessageSchema.new (lit "path") pathFields).PlainNames := by
  refine .new (by decide +kernel) (by simp only [pathFields, List.forall_mem_cons]; decide +kernel)
    ?_
  simp only [pathFields, List.forall_mem_cons]
  refine ⟨(fun t h => by cases h), fun t h => ?_, List.forall_mem_nil _⟩
  cases h
  refine .new (by decide +kernel) (by simp only [pointFields, List.forall_mem_cons]; decide +kernel)
    ?_
  simp [pointFields]

theorem pathFields_roundTripsJSON : (MessageSchema.new (lit "path") pathFields).RoundTripsJSON :=
  (roundTripsJSON_iff pathFields_plainNames).2 ⟨pathFields_inJSON, by decide +kernel⟩

/-- A list of numbers of varying length. -/
def hintedFields : List SchemaField :=
  [⟨1, lit "seq", .uint64, 0, true, false, .leb128, none⟩]

/-- The encoding is lost. -/
theorem hintedFields_not_roundTripsJSON :
    (MessageSchema.new (lit "list") hintedFields).PlainNames ∧
    ¬(MessageSchema.new (lit "list") hintedFields).RoundTripsJSON := by
  have hplain : (MessageSchema.new (lit "list") hintedFields).PlainNames := by
    refine .new (by decide +kernel) ?_ (by simp [hintedFields])
    simp only [hintedFields, List.forall_mem_cons]
    decide +kernel
  refine ⟨hplain, fun h => ?_⟩
  cases inJSON_of_roundTripsJSON hplain h with
  | mk _ _ encodings _ _ =>
    have hnone := encodings ⟨1, lit "seq", .uint64, 0, true, false, .leb128, none⟩ List.mem_cons_self
    cases hnone

end Stx.Msg.MessageSchema
