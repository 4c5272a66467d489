import Stx.Protobuf.MessageSchema
import Stx.Protobuf.RoundTrip
import Stx.Protobuf.DecoderTermination

/-! `MessageSchema::encode` and `MessageSchema::decode`. A nested schema has no length
in front of it, so the decoder has to stop exactly where the encoder did. -/
namespace Stx
open Util (BinaryMessageReader BinaryMessageWriter)

/-- `String((char*) read(len), len)`. -/
def Util.BinaryMessageReader.readLenencString (r : BinaryMessageReader) :
    Result (Bytes × BinaryMessageReader) := do
  let (len, r) ← r.readVarUInt
  let (bytes, r) ← r.read len.toNat
  let str ← Msg.MessageDecoder.mkString bytes len.toNat
  pure (str, r)

namespace Msg

/-- `(uint8_t) type`. -/
def FieldType.toByte : FieldType → UInt8
  | object => 0
  | boolean => 1
  | uint32 => 2
  | string => 3
  | uint64 => 4
  | double => 5
  | datetime => 6

/-- `(FieldType) byte`. A byte that names no type has no value here: C++ keeps it in
the variable, the model raises. -/
def FieldType.ofByte (b : UInt8) : Result FieldType :=
  if b = 0 then .ok object
  else if b = 1 then .ok boolean
  else if b = 2 then .ok uint32
  else if b = 3 then .ok string
  else if b = 4 then .ok uint64
  else if b = 5 then .ok double
  else if b = 6 then .ok datetime
  else Result.RAISE .typeError

/-- `(uint8_t) encoding`. -/
def EncodingHint.toByte : EncodingHint → UInt8
  | none => 0
  | bitpack => 1
  | leb128 => 2

/-- `(EncodingHint) byte`, with the same reading of other bytes as a field type. -/
def EncodingHint.ofByte (b : UInt8) : Result EncodingHint :=
  if b = 0 then .ok none
  else if b = 1 then .ok bitpack
  else if b = 2 then .ok leb128
  else Result.RAISE .typeError

@[simp] theorem FieldType.ofByte_toByte (t : FieldType) : ofByte t.toByte = .ok t := by
  cases t <;> rfl

@[simp] theorem EncodingHint.ofByte_toByte (e : EncodingHint) : ofByte e.toByte = .ok e := by
  cases e <;> rfl

namespace MessageSchema
open Util.BinaryMessageWriter (Writes lenencBytes varUIntBytes)
open Util.BinaryMessageReader (Consumes)

/- What `encode` writes of a field ahead of its schema. -/
def encodeHead (field : SchemaField) (buf : BinaryMessageWriter) :
    Result BinaryMessageWriter := do
  let buf ← buf.appendVarUInt field.id.toUInt64
  let buf ← buf.appendLenencString field.name
  let buf ← buf.appendUInt8 field.type.toByte
  let buf ← buf.appendVarUInt field.type_size
  let buf ← buf.appendUInt8 field.repeated.toUInt8
  let buf ← buf.appendUInt8 field.optional.toUInt8
  buf.appendUInt8 field.encoding.toByte

/- `encode(BinaryMessageWriter*)`, its loop over the fields, one field, and
   `field.schema->encode(buf)`. -/
mutual
def encodeTo : MessageSchema → BinaryMessageWriter → Result BinaryMessageWriter
  | ⟨name, fields, _, _, _⟩, buf => do
    let buf ← buf.appendUInt8 0x1
    let buf ← buf.appendLenencString name
    let buf ← buf.appendVarUInt (UInt64.ofNat fields.length)
    encodeFields fields buf

def encodeFields : List SchemaField → BinaryMessageWriter → Result BinaryMessageWriter
  | [], buf => pure buf
  | field :: fields, buf => do
    let buf ← encodeField field buf
    encodeFields fields buf

def encodeField : SchemaField → BinaryMessageWriter → Result BinaryMessageWriter
  | ⟨id, name, type, type_size, repeated, optional, encoding, schema⟩, buf => do
    let buf ← encodeHead ⟨id, name, type, type_size, repeated, optional, encoding, schema⟩ buf
    if type = .object then encodeSchema schema buf else pure buf

def encodeSchema : Option MessageSchema → BinaryMessageWriter → Result BinaryMessageWriter
  | some schema, buf => encodeTo schema buf
  | none, _ => Result.RAISE .nullPointerError
end

def encode (s : MessageSchema) : Result Bytes := do
  let writer ← encodeTo s .new
  pure writer.bytes

/- What `decode` reads of a field ahead of its schema. -/
def decodeHead (r : BinaryMessageReader) : Result (SchemaField × BinaryMessageReader) := do
  let (id, r) ← r.readVarUInt
  let (name, r) ← r.readLenencString
  let (type, r) ← r.readUInt8
  let type ← FieldType.ofByte type
  let (type_size, r) ← r.readVarUInt
  let (repeated, r) ← r.readUInt8
  let (optional, r) ← r.readUInt8
  let (encoding, r) ← r.readUInt8
  let encoding ← EncodingHint.ofByte encoding
  pure (⟨id.toUInt32, name, type, type_size, repeated > 0, optional > 0, encoding, none⟩, r)

/- `decode(BinaryMessageReader*)` and its loop `for (int i = 0; i < nfields; ++i)`,
   on one supply of fuel. The comparison converts `i` to `uint64_t`; an increment past
   the largest `int`, undefined in C++, wraps around. -/
mutual
def decodeFrom : Nat → MessageSchema → BinaryMessageReader →
    Result (MessageSchema × BinaryMessageReader)
  | 0, _, _ => .diverge
  | fuel+1, s, r => do
    let (_, r) ← r.readUInt8
    let (name, r) ← r.readLenencString
    let (nfields, r) ← r.readVarUInt
    decodeFields fuel nfields 0 { s with name := name } r

def decodeFields : Nat → UInt64 → Int32 → MessageSchema → BinaryMessageReader →
    Result (MessageSchema × BinaryMessageReader)
  | 0, _, _, _, _ => .diverge
  | fuel+1, nfields, i, s, r =>
    if i.toInt64.toUInt64 < nfields then do
      let (field, r) ← decodeHead r
      if field.type = .object then
        let (schema, r) ← decodeFrom fuel (empty []) r
        decodeFields fuel nfields (i+1) (s.addField { field with schema := some schema }) r
      else decodeFields fuel nfields (i+1) (s.addField field) r
    else pure (s, r)
end

/-- Every call and every turn reads a byte, so this fuel is never used up. -/
def decode (data : Bytes) : Result MessageSchema := do
  let (schema, _) ← decodeFrom (data.length+1) (empty []) (.new data)
  pure schema

/-- The part of a schema that `encode` writes: its name and its fields in order, each
OBJECT field with the same of its schema. -/
inductive Outline where
  | mk (name : Bytes) (fields : List (MessageSchemaField Outline))

mutual
def outline : MessageSchema → Outline
  | ⟨name, fields, _, _, _⟩ => ⟨name, outlineFields fields⟩

def outlineFields : List SchemaField → List (MessageSchemaField Outline)
  | [] => []
  | field :: fields => outlineField field :: outlineFields fields

def outlineField : SchemaField → MessageSchemaField Outline
  | ⟨id, name, type, type_size, repeated, optional, encoding, schema⟩ =>
    ⟨id, name, type, type_size, repeated, optional, encoding,
      if type = .object then outlineSchema schema else none⟩

def outlineSchema : Option MessageSchema → Option Outline
  | some schema => some (outline schema)
  | none => none
end

/-- At every depth, OBJECT fields carry a schema and an `int` can count the fields. -/
inductive Complete : MessageSchema → Prop
  | mk {s : MessageSchema} (length : s.fields.length < 2^31)
    (carries : ∀ f ∈ s.fields, f.type = .object → f.schema ≠ none)
    (nested : ∀ f ∈ s.fields, f.type = .object → ∀ t, f.schema = some t → Complete t) :
    Complete s

/- The bytes of a field ahead of its schema, and of the whole schema. -/

def headBytes (field : SchemaField) : Bytes :=
  varUIntBytes field.id.toUInt64 ++ (lenencBytes field.name ++ ([field.type.toByte] ++
    (varUIntBytes field.type_size ++ ([field.repeated.toUInt8] ++ ([field.optional.toUInt8] ++
      [field.encoding.toByte])))))

mutual
def schemaBytes : MessageSchema → Bytes
  | ⟨name, fields, _, _, _⟩ =>
    [0x1] ++ (lenencBytes name ++ (varUIntBytes (UInt64.ofNat fields.length) ++
      fieldsBytes fields))

def fieldsBytes : List SchemaField → Bytes
  | [] => []
  | field :: fields => fieldBytes field ++ fieldsBytes fields

def fieldBytes : SchemaField → Bytes
  | ⟨id, name, type, type_size, repeated, optional, encoding, schema⟩ =>
    headBytes ⟨id, name, type, type_size, repeated, optional, encoding, schema⟩ ++
      if type = .object then nestedBytes schema else []

def nestedBytes : Option MessageSchema → Bytes
  | some schema => schemaBytes schema
  | none => []
end

theorem writes_encodeHead (field : SchemaField) : Writes (encodeHead field) (headBytes field) :=
  (Writes.varUInt _).bind <| (Writes.lenencString _).bind <| (Writes.uint8 _).bind <|
    (Writes.varUInt _).bind <| (Writes.uint8 _).bind <| (Writes.uint8 _).bind (Writes.uint8 _)

theorem writes_encodeFields {fields : List SchemaField}
    (h : ∀ f ∈ fields, Writes (encodeField f) (fieldBytes f)) :
    Writes (encodeFields fields) (fieldsBytes fields) := by
  induction fields with
  | nil => exact Writes.pure
  | cons field fields ih =>
    have htail := ih fun f hf => h f (List.mem_cons_of_mem _ hf)
    exact (h field (List.mem_cons_self ..)).bind htail

theorem writes_encodeTo {s : MessageSchema} (hs : s.Complete) :
    Writes (encodeTo s) (schemaBytes s) := by
  induction hs with
  | @mk s length carries nested ih =>
    obtain ⟨name, fields, _, _, _⟩ := s
    have hfields : ∀ f ∈ fields, Writes (encodeField f) (fieldBytes f) := by
      intro f hf
      have hcarries := carries f hf
      have hnested := ih f hf
      obtain ⟨id, name, type, type_size, repeated, optional, encoding, schema⟩ := f
      refine (writes_encodeHead _).bind ?_
      by_cases htype : type = .object
      · cases schema with
        | none => exact absurd rfl (hcarries htype)
        | some t =>
          simp only [if_pos htype, encodeSchema, nestedBytes]
          exact hnested htype t rfl
      · simp only [if_neg htype]
        exact Writes.pure
    exact (Writes.uint8 _).bind <| (Writes.lenencString _).bind <| (Writes.varUInt _).bind
      (writes_encodeFields hfields)

theorem encode_eq {s : MessageSchema} (hs : s.Complete) : encode s = .ok (schemaBytes s) := by
  obtain ⟨w, hw, -, hbytes⟩ := writes_encodeTo hs .new BinaryMessageWriter.Owned.new
  rw [BinaryMessageWriter.bytes_new, List.nil_append] at hbytes
  rw [encode, hw, Result.ok_bind, hbytes, Result.pure_eq]

theorem consumes_readLenencString (string : Bytes) :
    Consumes BinaryMessageReader.readLenencString (lenencBytes string) string := by
  intro r rest hb hr
  rw [lenencBytes, List.append_assoc] at hr
  have hlen := hb.length_unread
  have hlt := hb.size_lt
  rw [hr, List.length_append, List.length_append] at hlen
  obtain ⟨r₁, h₁, hn, -, h₂⟩ := MessageDecoder.read_lenenc hb hr
  have hmk := MessageDecoder.mkString_ok (by omega : string.length < 2^63) string
  simp only [BinaryMessageReader.readLenencString, h₁, Result.ok_bind, hn, h₂, hmk,
    Result.pure_eq, lenencBytes]

theorem decide_toUInt8 (b : Bool) : decide (b.toUInt8 > 0) = b := by
  cases b <;> decide

theorem consumes_decodeHead (field : SchemaField) :
    Consumes decodeHead (headBytes field) { field with schema := none } := by
  refine (Consumes.varUInt _).bind <| (consumes_readLenencString _).bind <|
    (Consumes.uint8 _).bind ?_
  simp only [FieldType.ofByte_toByte, Result.ok_bind]
  refine (Consumes.varUInt _).bind ?_
  dsimp +instances only
  refine (Consumes.uint8 _).bind ?_
  dsimp +instances only
  refine (Consumes.uint8 _).bind ?_
  dsimp +instances only
  refine (Consumes.uint8 _).bind_pure fun r => ?_
  simp only [EncodingHint.ofByte_toByte, Result.ok_bind, Result.pure_eq,
    UInt32.toUInt32_toUInt64, decide_toUInt8]

/-- The test of the loop, as long as an `int` can count the fields. -/
theorem counter_lt_iff {i n : Nat} (hn : n < 2^31) (hi : i ≤ n) :
    (Int32.ofNat i).toInt64.toUInt64 < UInt64.ofNat n ↔ i < n := by
  have hmax : (i : Int) ≤ Int32.maxValue.toInt := by
    rw [Int32.toInt_maxValue]
    omega
  rw [Int32.toInt64_ofNat' hmax, Int64.toUInt64_ofNat', UInt64.lt_iff_toNat_lt,
    UInt64.toNat_ofNat', UInt64.toNat_ofNat']
  omega

theorem length_headBytes_pos (field : SchemaField) : 0 < (headBytes field).length := by
  simp [headBytes]

/-- The schema of an OBJECT field is read back, and consumed to its end. -/
def DecodesNested (field : SchemaField) : Prop :=
  field.type = .object → ∃ t t', field.schema = some t ∧ outline t' = outline t ∧
    ∀ fuel, (schemaBytes t).length < fuel →
      Consumes (decodeFrom fuel (empty [])) (schemaBytes t) t'

/-- One field, as it is added and with the bytes that it takes. -/
theorem consumes_field {field : SchemaField} (h : DecodesNested field) :
    ∃ field' : SchemaField, outlineField field' = outlineField field ∧
      ∀ (fuel : Nat) (nfields : UInt64) (i : Int32) (s s' : MessageSchema) (rest : Bytes),
        (fieldBytes field).length ≤ fuel → i.toInt64.toUInt64 < nfields →
        Consumes (decodeFields fuel nfields (i+1) (s.addField field')) rest s' →
        Consumes (decodeFields (fuel+1) nfields i s) (fieldBytes field ++ rest) s' := by
  have hhead := consumes_decodeHead field
  have hpos := length_headBytes_pos field
  obtain ⟨id, name, type, type_size, repeated, optional, encoding, schema⟩ := field
  by_cases htype : type = .object
  · obtain ⟨t, t', ht, hsame, hdec⟩ := h htype
    simp only at ht
    refine ⟨⟨id, name, type, type_size, repeated, optional, encoding, some t'⟩, ?_, ?_⟩
    · simp only [outlineField, ht, outlineSchema, hsame]
    intro fuel nfields i s s' rest hfuel hi hrest
    simp only [fieldBytes, if_pos htype, ht, nestedBytes, List.length_append] at hfuel hpos hhead ⊢
    simp only [decodeFields, if_pos hi]
    rw [List.append_assoc]
    refine hhead.bind ?_
    simp only [if_pos htype]
    exact (hdec fuel (by omega)).bind hrest
  · refine ⟨⟨id, name, type, type_size, repeated, optional, encoding, none⟩, ?_, ?_⟩
    · simp only [outlineField, if_neg htype]
    intro fuel nfields i s s' rest hfuel hi hrest
    simp only [fieldBytes, if_neg htype, List.append_nil] at hfuel ⊢
    simp only [decodeFields, if_pos hi]
    refine hhead.bind ?_
    simp only [if_neg htype]
    exact hrest

/- The induction is on the fields still to come; `i` counts those already added. -/
theorem consumes_decodeFields (fields : List SchemaField) (h : ∀ f ∈ fields, DecodesNested f) :
    ∀ (i : Nat) (s : MessageSchema), i+fields.length < 2^31 → ∃ s' : MessageSchema,
      s'.name = s.name ∧
      s'.fields.map outlineField = s.fields.map outlineField ++ fields.map outlineField ∧
      ∀ fuel, (fieldsBytes fields).length < fuel →
        Consumes (decodeFields fuel (UInt64.ofNat (i+fields.length)) (Int32.ofNat i) s)
          (fieldsBytes fields) s' := by
  induction fields with
  | nil =>
    intro i s hi
    rw [List.length_nil, Nat.add_zero] at hi ⊢
    have hend := (counter_lt_iff hi (Nat.le_refl i)).not.2 (Nat.lt_irrefl i)
    refine ⟨s, rfl, by simp, ?_⟩
    intro fuel hfuel
    obtain ⟨fuel, rfl⟩ : ∃ k, fuel = k+1 := Nat.exists_eq_add_one.2 (by omega)
    have hdone : decodeFields (fuel+1) (UInt64.ofNat i) (Int32.ofNat i) s =
        fun r => pure (s, r) := by
      funext r
      rw [decodeFields, if_neg hend]
    rw [hdone]
    exact Consumes.pure s
  | cons field fields ih =>
    intro i s hi
    obtain ⟨field', hsame, hfield⟩ := consumes_field (h field (List.mem_cons_self ..))
    have htail := ih fun f hf => h f (List.mem_cons_of_mem _ hf)
    have hcount : i+1+fields.length = i+(field :: fields).length := by
      rw [List.length_cons]
      omega
    obtain ⟨s', hname, hfields, hloop⟩ := htail (i+1) (s.addField field') (by omega)
    rw [hcount, Int32.ofNat_add] at hloop
    refine ⟨s', hname, ?_, ?_⟩
    · rw [hfields]
      simp [addField, hsame]
    intro fuel hfuel
    obtain ⟨fuel, rfl⟩ : ∃ k, fuel = k+1 := Nat.exists_eq_add_one.2 (by omega)
    have hlt := (counter_lt_iff hi (Nat.le_add_right _ _)).2
      (by rw [List.length_cons]; omega : i < i+(field :: fields).length)
    have hpos : 0 < (fieldBytes field).length := by
      cases field
      rw [fieldBytes, List.length_append]
      exact Nat.add_pos_left (length_headBytes_pos _) _
    rw [fieldsBytes, List.length_append] at hfuel
    exact hfield fuel _ _ s s' _ (by omega) hlt (hloop fuel (by omega))

theorem outlineFields_eq_map (fields : List SchemaField) :
    outlineFields fields = fields.map outlineField := by
  induction fields with
  | nil => rfl
  | cons field fields ih => rw [outlineFields, ih, List.map_cons]

theorem outline_eq (s : MessageSchema) : outline s = ⟨s.name, s.fields.map outlineField⟩ := by
  cases s
  rw [outline, outlineFields_eq_map]

theorem consumes_decodeFrom {s : MessageSchema} (hs : s.Complete) :
    ∃ s', outline s' = outline s ∧ ∀ fuel, (schemaBytes s).length < fuel →
      Consumes (decodeFrom fuel (empty [])) (schemaBytes s) s' := by
  induction hs with
  | @mk s length carries nested ih =>
    obtain ⟨name, fields, field_ids, field_types, field_names⟩ := s
    have hnested : ∀ f ∈ fields, DecodesNested f := by
      intro f hf htype
      obtain ⟨t, ht⟩ := Option.ne_none_iff_exists'.1 (carries f hf htype)
      obtain ⟨t', hsame, hdec⟩ := ih f hf htype t ht
      exact ⟨t, t', ht, hsame, hdec⟩
    obtain ⟨s', hname, hfields, hloop⟩ := consumes_decodeFields fields hnested 0 (empty name)
      (by simpa using length)
    rw [Nat.zero_add] at hloop
    refine ⟨s', ?_, ?_⟩
    · rw [outline_eq, outline_eq, hname, hfields]
      rfl
    intro fuel hfuel
    obtain ⟨fuel, rfl⟩ : ∃ k, fuel = k+1 := Nat.exists_eq_add_one.2 (by omega)
    simp only [schemaBytes, List.length_append, List.length_singleton] at hfuel ⊢
    exact (Consumes.uint8 _).bind <| (consumes_readLenencString _).bind <|
      (Consumes.varUInt _).bind (hloop fuel (by omega))

/-- What `encode` writes is read back by `decode` to the last byte: the same name and
the same fields in the same order, at every depth. The proviso is that of any block of
memory. -/
theorem decode_encode_schema (s : MessageSchema) (hs : s.Complete) :
    ∃ data, encode s = .ok data ∧ (data.length < 2^63 →
      ∃ s' r, decodeFrom (data.length+1) (empty []) (.new data) = .ok (s', r) ∧
        r.remaining = 0 ∧ decode data = .ok s' ∧ outline s' = outline s) := by
  obtain ⟨s', hsame, hdec⟩ := consumes_decodeFrom hs
  refine ⟨schemaBytes s, encode_eq hs, ?_⟩
  intro hfit
  have hrun := hdec ((schemaBytes s).length+1) (by omega) (.new (schemaBytes s)) [] (.new hfit)
    (by simp)
  refine ⟨s', _, hrun, ?_, ?_, hsame⟩
  · rw [BinaryMessageReader.remaining, BinaryMessageReader.size_skip,
      BinaryMessageReader.pos_skip]
    simp [BinaryMessageReader.new, BinaryMessageReader.size]
  · rw [decode, hrun]
    rfl

/-- The call on `r` raises, or returns with the reader at least `m` bytes further on in
its buffer. -/
def Advances {α : Type} (r : BinaryMessageReader) (m : Nat)
    (x : Result (α × BinaryMessageReader)) : Prop :=
  (∃ e, x = .raise e) ∨ ∃ a n, x = .ok (a, r.skip n) ∧ m ≤ n ∧ r.pos+n ≤ r.size

section advances
variable {α β : Type} {r : BinaryMessageReader} {m : Nat}

theorem Advances.mono {k : Nat} {x : Result (α × BinaryMessageReader)} (h : Advances r m x)
    (hk : k ≤ m) : Advances r k x := by
  cases h with
  | inl h => exact .inl h
  | inr h =>
    obtain ⟨a, n, hx, hm, hle⟩ := h
    exact .inr ⟨a, n, hx, hk.trans hm, hle⟩

theorem Advances.bind {x : Result (α × BinaryMessageReader)}
    {f : α × BinaryMessageReader → Result (β × BinaryMessageReader)} (h : Advances r m x)
    (hb : r.InBounds) (hf : ∀ a r', r'.InBounds → r'.remaining+m ≤ r.remaining →
      Advances r' 0 (f (a, r'))) : Advances r m (x >>= f) := by
  obtain ⟨e, rfl⟩ | ⟨a, n, rfl, hm, hle⟩ := h
  · exact .inl ⟨e, rfl⟩
  have hrem : (r.skip n).remaining+m ≤ r.remaining := by
    simp only [BinaryMessageReader.remaining, BinaryMessageReader.size_skip,
      BinaryMessageReader.pos_skip]
    omega
  obtain ⟨e, he⟩ | ⟨b, k, hk, -, hle'⟩ := hf a (r.skip n) (hb.skip hle) hrem
  · exact .inl ⟨e, he⟩
  · simp only [BinaryMessageReader.skip_skip, BinaryMessageReader.pos_skip,
      BinaryMessageReader.size_skip] at hk hle'
    exact .inr ⟨b, n+k, hk, by omega, by omega⟩

/-- A step that does not touch the reader. -/
theorem Advances.bind_value {y : Result α} {f : α → Result (β × BinaryMessageReader)}
    (hy : y.Terminates) (hf : ∀ a, Advances r m (f a)) : Advances r m (y >>= f) := by
  cases y with
  | ok a => exact hf a
  | raise e => exact .inl ⟨e, rfl⟩
  | diverge => exact absurd rfl hy

theorem Advances.pure (hb : r.InBounds) (a : α) : Advances r 0 (Pure.pure (a, r)) :=
  .inr ⟨a, 0, rfl, Nat.le_refl 0, hb.pos_le⟩

theorem Advances.uint8 (hb : r.InBounds) : Advances r 1 r.readUInt8 := by
  obtain ⟨e, he⟩ | ⟨bs, hread, -, hle⟩ := BinaryMessageReader.read_cases hb (n := 1) (by omega)
  · exact .inl ⟨e, by rw [BinaryMessageReader.readUInt8, he]; rfl⟩
  · exact .inr ⟨bs.headD 0, 1, by rw [BinaryMessageReader.readUInt8, hread]; rfl, by omega, hle⟩

theorem Advances.varUInt (hb : r.InBounds) : Advances r 1 r.readVarUInt := by
  obtain ⟨e, he⟩ | ⟨v, n, hread, hpos, hle⟩ := BinaryMessageReader.readVarUInt_cases hb
  · exact .inl ⟨e, he⟩
  · exact .inr ⟨v, n, hread, hpos, hle⟩

theorem Advances.lenencString (hb : r.InBounds) : Advances r 1 r.readLenencString := by
  refine (Advances.varUInt hb).bind hb ?_
  intro len r' hb' _
  dsimp only
  by_cases hlen : len.toNat < 2^63
  · obtain ⟨e, he⟩ | ⟨bs, hread, -, hle⟩ := BinaryMessageReader.read_cases hb' hlen
    · exact .inl ⟨e, by rw [he]; rfl⟩
    · have hmk := MessageDecoder.mkString_ok hlen bs
      exact .inr ⟨bs, len.toNat, by rw [hread, Result.ok_bind, hmk]; rfl, by omega, hle⟩
  · -- a length that could wrap is more than a string can hold
    have hmk := MessageDecoder.mkString_raise hlen
    obtain ⟨e, he⟩ | ⟨x, hx⟩ := MessageDecoder.read_total r' len.toNat
    · exact .inl ⟨e, by rw [he]; rfl⟩
    · exact .inl ⟨_, by rw [hx, Result.ok_bind, hmk]; rfl⟩

theorem FieldType.ofByte_terminates (b : UInt8) : (FieldType.ofByte b).Terminates := by
  unfold FieldType.ofByte Result.Terminates Result.RAISE
  repeat' split
  all_goals simp

theorem EncodingHint.ofByte_terminates (b : UInt8) : (EncodingHint.ofByte b).Terminates := by
  unfold EncodingHint.ofByte Result.Terminates Result.RAISE
  repeat' split
  all_goals simp

theorem Advances.decodeHead (hb : r.InBounds) : Advances r 1 (decodeHead r) := by
  refine (Advances.varUInt hb).bind hb ?_
  intro id r₁ hb₁ _
  refine ((Advances.lenencString hb₁).mono (Nat.zero_le 1)).bind hb₁ ?_
  intro name r₂ hb₂ _
  refine ((Advances.uint8 hb₂).mono (Nat.zero_le 1)).bind hb₂ ?_
  intro type r₃ hb₃ _
  refine Advances.bind_value (FieldType.ofByte_terminates type) ?_
  intro type
  refine ((Advances.varUInt hb₃).mono (Nat.zero_le 1)).bind hb₃ ?_
  intro type_size r₄ hb₄ _
  refine ((Advances.uint8 hb₄).mono (Nat.zero_le 1)).bind hb₄ ?_
  intro repeated r₅ hb₅ _
  refine ((Advances.uint8 hb₅).mono (Nat.zero_le 1)).bind hb₅ ?_
  intro optional r₆ hb₆ _
  refine ((Advances.uint8 hb₆).mono (Nat.zero_le 1)).bind hb₆ ?_
  intro encoding r₇ hb₇ _
  refine Advances.bind_value (EncodingHint.ofByte_terminates encoding) ?_
  intro encoding
  exact Advances.pure hb₇ _

end advances

/- Every call and every turn of the loop reads a byte before it goes on. -/
theorem decodeFrom_advances (fuel : Nat) :
    (∀ (s : MessageSchema) (r : BinaryMessageReader), r.InBounds → r.remaining < fuel →
      Advances r 0 (decodeFrom fuel s r)) ∧
    ∀ (nfields : UInt64) (i : Int32) (s : MessageSchema) (r : BinaryMessageReader),
      r.InBounds → r.remaining < fuel → Advances r 0 (decodeFields fuel nfields i s r) := by
  induction fuel with
  | zero =>
    constructor
    · exact fun _ _ _ h => absurd h (Nat.not_lt_zero _)
    · exact fun _ _ _ _ _ h => absurd h (Nat.not_lt_zero _)
  | succ fuel ih =>
    obtain ⟨ihFrom, ihFields⟩ := ih
    constructor
    · intro s r hb hrem
      rw [decodeFrom]
      refine ((Advances.uint8 hb).bind hb ?_).mono (Nat.zero_le 1)
      intro version r₁ hb₁ hrem₁
      refine ((Advances.lenencString hb₁).mono (Nat.zero_le 1)).bind hb₁ ?_
      intro name r₂ hb₂ hrem₂
      refine ((Advances.varUInt hb₂).mono (Nat.zero_le 1)).bind hb₂ ?_
      intro nfields r₃ hb₃ hrem₃
      exact ihFields nfields 0 _ r₃ hb₃ (by omega)
    · intro nfields i s r hb hrem
      rw [decodeFields]
      split
      swap
      · exact Advances.pure hb s
      refine ((Advances.decodeHead hb).bind hb ?_).mono (Nat.zero_le 1)
      intro field r₁ hb₁ hrem₁
      dsimp only
      split
      · refine (ihFrom _ r₁ hb₁ (by omega)).bind hb₁ ?_
        intro schema r₂ hb₂ hrem₂
        exact ihFields nfields (i+1) _ r₂ hb₂ (by omega)
      · exact ihFields nfields (i+1) _ r₁ hb₁ (by omega)

/-- On any bytes `decode` returns or raises. -/
theorem decode_terminates (buf : Buffer) : (decode buf.data).Terminates := by
  have hrem : (BinaryMessageReader.new buf.data).remaining < buf.data.length+1 :=
    Nat.lt_succ_of_le (Nat.sub_le ..)
  obtain ⟨e, he⟩ | ⟨s, n, hs, -, -⟩ :=
    (decodeFrom_advances _).1 (empty []) (.new buf.data) (.new buf.size_lt) hrem
  · rw [decode, he]
    exact fun hd => by cases hd
  · rw [decode, hs]
    exact fun hd => by cases hd

/- An envelope: a sequence number and a list of bodies, which have a schema of their own. -/
def envelopeSchema : MessageSchema :=
  new (lit "envelope") [⟨1, lit "seq", .uint64, 0xffffffffffffffff, false, true, .leb128, none⟩,
    ⟨2, lit "body", .object, 0, true, false, .none,
      some (new (lit "body") [⟨300, lit "text", .string, 80, false, false, .bitpack, none⟩])⟩]

theorem envelopeSchema_complete : envelopeSchema.Complete := by
  refine .mk (by decide) ?_ ?_
  · simp [envelopeSchema, new, addField, empty]
  · intro f hf htype t ht
    simp only [envelopeSchema, new, addField, empty, List.foldl_cons, List.foldl_nil,
      List.nil_append, List.cons_append, List.mem_cons, List.not_mem_nil, or_false] at hf
    obtain rfl | rfl := hf
    · cases ht
    · cases ht
      exact .mk (by decide) (by simp) (by simp)

theorem envelopeSchema_round_trip :
    ∃ data s' r, encode envelopeSchema = .ok data ∧
      decodeFrom (data.length+1) (empty []) (.new data) = .ok (s', r) ∧
      r.remaining = 0 ∧ decode data = .ok s' ∧ outline s' = outline envelopeSchema := by
  obtain ⟨data, hdata, hback⟩ := decode_encode_schema envelopeSchema envelopeSchema_complete
  have hbytes := encode_eq envelopeSchema_complete
  cases hdata.symm.trans hbytes
  obtain ⟨s', r, hrun, hrem, hdec, hsame⟩ := hback (by decide +kernel)
  exact ⟨_, s', r, hbytes, hrun, hrem, hdec, hsame⟩

end MessageSchema
end Msg
end Stx
