import Stx.Protobuf.DynamicMessage.FieldTexts

/-! The object tokens that `fromJSON` comes to, at any depth, and what each of them adds. -/
namespace Stx.Msg.DynamicMessage
open Json Json.JSONUtil Brackets

/-- The maps of the schema have the name with this id and this type. -/
def Typed (s : MessageSchema) (name : Bytes) (id : UInt32) (type : FieldType) : Prop :=
  s.fieldId name = .ok id ∧ s.fieldType id = .ok type

/-- An object token that is the value of the name, or an element of the array that is. -/
inductive ObjectFound (obj : JSONObject) (beginp endp : Nat) (name : Bytes) :
    Nat → JSONToken → Prop
  | value {q : Nat} {t : JSONToken} (hlookup : objectLookup obj beginp endp name = .ok q)
    (hq : q ≠ endp) (ht : obj[q]? = some t) (htype : t.type = .objectBegin) :
    ObjectFound obj beginp endp name q t
  | element {a q : Nat} {array t : JSONToken} {ps : List Nat}
    (hlookup : objectLookup obj beginp endp name = .ok a) (ha : a ≠ endp)
    (harray : obj[a]? = some array) (hbegin : array.type = .arrayBegin)
    (hsteps : Steps (sizeAt obj) (a+1) ps q) (hq : q < min endp (a+array.size.toNat))
    (ht : obj[q]? = some t) (htype : t.type = .objectBegin) : ObjectFound obj beginp endp name q t

/-- The ranges that are read, each with the schema of the message that is filled. -/
inductive Range (obj : JSONObject) (s : MessageSchema) : MessageSchema → Nat → Nat → Prop
  | root : Range obj s s 0 obj.length
  | nested {t u : MessageSchema} {f : SchemaField} {beginp endp q : Nat} {id : UInt32}
    {token : JSONToken} (hrange : Range obj s t beginp endp) (hf : f ∈ t.fields)
    (hfound : ObjectFound obj beginp endp f.name q token) (htype : Typed t f.name id .object)
    (hsub : t.fieldSchema id = .ok (some u)) : Range obj s u q (min endp (q+token.size.toNat))

/-- What the token adds to a message: to an OBJECT field the one child that is read from it, to
another field nothing. -/
structure FillsObject (conv : Conversions) (obj : JSONObject) (s : MessageSchema) (endp : Nat)
    (name : Bytes) (q : Nat) (t : JSONToken) : Prop where
  object : ∀ id, Typed s name id .object → ∀ fuel i acc msg,
    fromObject conv (fromJSON conv obj fuel) endp name q t ⟨some s, .object i acc⟩ = .ok msg →
      ∃ sub submsg, s.fieldSchema id = .ok sub ∧
        fromJSON conv obj fuel q (min endp (q+t.size.toNat)) (.new sub) = .ok submsg ∧
          msg = ⟨some s, .object i (acc ++ [submsg.data_.setId id])⟩
  other : (∀ id, ¬Typed s name id .object) → ∀ fuel i acc msg,
    fromObject conv (fromJSON conv obj fuel) endp name q t ⟨some s, .object i acc⟩ = .ok msg →
      msg = ⟨some s, .object i acc⟩

/-- Every object token fills an OBJECT field, or nothing. -/
def FillsObjects (conv : Conversions) (obj : JSONObject) (s : MessageSchema) : Prop :=
  ∀ t beginp endp, Range obj s t beginp endp → ∀ f ∈ t.fields, ∀ q token,
    ObjectFound obj beginp endp f.name q token → FillsObject conv obj t endp f.name q token

section
variable {conv : Conversions} {s : MessageSchema} {name : Bytes} {id i : UInt32}
  {type : FieldType} {acc : List MessageObject}

theorem hasFieldName_of_fieldId (h : s.fieldId name = .ok id) : s.hasFieldName name = true := by
  rw [MessageSchema.fieldId] at h
  rw [MessageSchema.hasFieldName]
  cases hlookup : s.field_ids.lookup name with
  | none => rw [hlookup] at h; cases h
  | some id => rfl

theorem fieldId_of_hasFieldName (h : s.hasFieldName name = true) : ∃ id, s.fieldId name = .ok id := by
  obtain ⟨id, hid⟩ := Option.isSome_iff_exists.1 h
  exact ⟨id, by rw [MessageSchema.fieldId, hid]⟩

theorem addField_typed (h : Typed s name id type) (msg : DynamicMessage)
    (hschema : msg.schema_ = some s) (value : Bytes) :
    addField conv msg name value = addFieldId conv msg id value := by
  rw [addField, hschema, MessageSchema.deref, Result.ok_bind, hasFieldName_of_fieldId h.1, h.1]
  rfl

theorem hasField_of_typed (h : Typed s name id type) (hobject : type ≠ .object) :
    s.hasField id = true := by
  have htype := h.2
  rw [MessageSchema.fieldType] at htype
  rw [MessageSchema.hasField]
  split at htype
  · cases htype
    exact absurd rfl hobject
  · cases hlookup : s.field_types.lookup id with
    | none => rw [hlookup] at htype; cases htype
    | some type => rfl

theorem Typed.unique {id' : UInt32} {type' : FieldType} (h : Typed s name id type)
    (h' : Typed s name id' type') : id = id' ∧ type = type' := by
  cases h.1.symm.trans h'.1
  cases h.2.symm.trans h'.2
  exact ⟨rfl, rfl⟩

/-- The text is no number and no time. -/
structure Refuses (conv : Conversions) (text : Bytes) : Prop where
  stoull : stoull text = none
  stod : conv.stod text = none
  parseTime : conv.parseTime text = none

theorem addField_refused {text : Bytes} (hconv : Refuses conv text) (h : Typed s name id type)
    (hboolean : type = .boolean → Human.parseBoolean text = none) (hstring : type ≠ .string)
    (msg : DynamicMessage) (hschema : msg.schema_ = some s) :
    addField conv msg name text = .ok (false, msg) := by
  rw [addField_typed h msg hschema, addFieldId, hschema, MessageSchema.deref, Result.ok_bind]
  cases hfield : s.hasField id with
  | false => rfl
  | true =>
    rw [h.2]
    cases type with
    | string => exact absurd rfl hstring
    | boolean =>
      simp only [Bool.not_true, Bool.false_eq_true, if_false, Result.ok_bind, hboolean]
      rfl
    | uint32 | uint64 =>
      simp only [Bool.not_true, Bool.false_eq_true, if_false, Result.ok_bind, hconv.stoull]
      rfl
    | double =>
      simp only [Bool.not_true, Bool.false_eq_true, if_false, Result.ok_bind, hconv.stod]
      rfl
    | datetime =>
      simp only [Bool.not_true, Bool.false_eq_true, if_false, Result.ok_bind, hconv.parseTime]
      rfl
    | object => rfl

/-- The text of an object token is a value for strings only. -/
theorem addField_empty (hconv : Refuses conv []) (h : Typed s name id type)
    (hstring : type ≠ .string) (msg : DynamicMessage) (hschema : msg.schema_ = some s) :
    addField conv msg name [] = .ok (false, msg) :=
  addField_refused hconv h (fun _ => rfl) hstring msg hschema

theorem addField_string (h : Typed s name id .string) (value : Bytes) :
    addField conv ⟨some s, .object i acc⟩ name value =
      .ok (true, ⟨some s, .object i (acc ++ [.string id value])⟩) := by
  rw [addField_typed h _ rfl, addFieldId, MessageSchema.deref, Result.ok_bind,
    hasField_of_typed h (by decide), h.2]
  rfl

theorem addObject_other (h : Typed s name id type) (hobject : type ≠ .object)
    (fn : DynamicMessage → Result DynamicMessage) (msg : DynamicMessage)
    (hschema : msg.schema_ = some s) : addObject msg name fn = .ok (false, msg) := by
  rw [addObject, hschema, MessageSchema.deref, Result.ok_bind, hasFieldName_of_fieldId h.1, h.1]
  simp only [Bool.not_true, Bool.false_eq_true, if_false, Result.ok_bind, h.2, ne_eq, hobject,
    not_false_eq_true, if_true]
  rfl

variable {obj : JSONObject} {endp q : Nat} {t : JSONToken}

theorem fromObject_of_steps {nested : Nat → Nat → DynamicMessage → Result DynamicMessage} {b c : Bool}
    {msg m m' : DynamicMessage}
    (hobject : addObject msg name (nested q (min endp (q+t.size.toNat))) = .ok (b, m))
    (hfield : addField conv m name t.data = .ok (c, m')) :
    fromObject conv nested endp name q t msg = .ok m' := by
  have hread : fromObject conv nested endp name q t msg =
      (addObject msg name (nested q (min endp (q+t.size.toNat))) >>= fun x =>
        addField conv x.2 name t.data >>= fun y => .ok y.2) := rfl
  rw [hread, hobject, Result.ok_bind, hfield, Result.ok_bind]

/-- A name without a type adds nothing, or the schema raises. -/
theorem fromObject_untyped {nested : Nat → Nat → DynamicMessage → Result DynamicMessage}
    (h : ∀ id type, ¬Typed s name id type) {msg msg' : DynamicMessage}
    (hschema : msg.schema_ = some s)
    (hread : fromObject conv nested endp name q t msg = .ok msg') : msg' = msg := by
  cases hname : s.hasFieldName name with
  | false =>
    have hobject : ∀ fn, addObject msg name fn = .ok (false, msg) := by
      intro fn
      rw [addObject, hschema, MessageSchema.deref, Result.ok_bind, hname]
      rfl
    have hfield : addField conv msg name t.data = .ok (false, msg) := by
      rw [addField, hschema, MessageSchema.deref, Result.ok_bind, hname]
      rfl
    cases (fromObject_of_steps (hobject _) hfield).symm.trans hread
    rfl
  | true =>
    obtain ⟨id, hid⟩ := fieldId_of_hasFieldName hname
    cases htype : s.fieldType id with
    | ok type => exact absurd ⟨hid, htype⟩ (h id type)
    | raise e | diverge =>
      simp only [fromObject, addObject, hschema, MessageSchema.deref, Result.ok_bind, hname, hid,
        htype, Bool.not_true, Bool.false_eq_true, if_false, Result.raise_bind,
        Result.diverge_bind] at hread
      cases hread

theorem fillsObject_of_not_string (hconv : Refuses conv []) (hdata : t.data = [])
    (hstring : ∀ id, ¬Typed s name id .string) : FillsObject conv obj s endp name q t := by
  constructor
  · intro id hobject fuel i acc msg hread
    rw [fromObject, addObject, MessageSchema.deref, Result.ok_bind,
      hasFieldName_of_fieldId hobject.1, hobject.1] at hread
    simp only [Bool.not_true, Bool.false_eq_true, if_false, Result.ok_bind, hobject.2, ne_eq,
      not_true_eq_false] at hread
    cases hsub : s.fieldSchema id with
    | raise e | diverge => rw [hsub] at hread; cases hread
    | ok sub =>
      rw [hsub, Result.ok_bind] at hread
      cases hsubmsg : fromJSON conv obj fuel q (min endp (q+t.size.toNat)) (.new sub) with
      | raise e | diverge => rw [hsubmsg] at hread; cases hread
      | ok submsg =>
        rw [hsubmsg, hdata] at hread
        have hadded : addField conv ⟨some s, .object i (acc ++ [submsg.data_.setId id])⟩ name [] =
            .ok (false, ⟨some s, .object i (acc ++ [submsg.data_.setId id])⟩) :=
          addField_empty hconv hobject (by decide) _ rfl
        change (addField conv ⟨some s, .object i (acc ++ [submsg.data_.setId id])⟩ name [] >>=
          fun x => .ok x.2) = .ok msg at hread
        rw [hadded] at hread
        cases hread
        exact ⟨sub, submsg, rfl, hsubmsg, rfl⟩
  · intro hobject fuel i acc msg hread
    by_cases htyped : ∃ id type, Typed s name id type
    · obtain ⟨id, type, htyped⟩ := htyped
      have hother : type ≠ .object := by
        rintro rfl
        exact hobject id htyped
      have hstring' : type ≠ .string := by
        rintro rfl
        exact hstring id htyped
      have hfield := addField_empty hconv htyped hstring' ⟨some s, .object i acc⟩ rfl
      rw [← hdata] at hfield
      cases (fromObject_of_steps (addObject_other htyped hother _ _ rfl) hfield).symm.trans hread
      rfl
    · exact fromObject_untyped (fun id type h => htyped ⟨id, type, h⟩) rfl hread

/-- The case of an object falls through to the one of a string, and that adds an empty string. -/
theorem fillsObject_iff (hconv : Refuses conv []) (hdata : t.data = []) :
    FillsObject conv obj s endp name q t ↔ ∀ id, ¬Typed s name id .string := by
  constructor
  · intro h id hstring
    have hobject : ∀ id', ¬Typed s name id' .object := by
      intro id' hobject
      cases (hstring.unique hobject).2
    have hfield := @addField_string conv s name id 0 [] hstring t.data
    have hread := h.other hobject 0 0 [] _
      (fromObject_of_steps (addObject_other hstring (by decide) _ _ rfl) hfield)
    cases hread
  · exact fillsObject_of_not_string hconv hdata

end

/-- The object tokens of a document have no data. -/
theorem data_of_parseJSON {text : Bytes} {obj : JSONObject} (h : parseJSON text = .ok obj) {q : Nat}
    {t : JSONToken} (ht : obj[q]? = some t) (htype : t.type = .objectBegin) : t.data = [] := by
  obtain ⟨-, f, -, rfl⟩ := parseJSON_ok_iff.1 h
  obtain ⟨x, -, rfl⟩ := List.mem_map.1 (List.mem_of_getElem? ht)
  obtain ⟨symbol, size⟩ := x
  cases symbol with
  | opens b => cases b <;> rfl
  | closes b => cases b <;> rfl
  | atom a =>
    cases a with
    | string s => cases htype
    | number n => cases htype
    | true | false | null => rfl

theorem ObjectFound.token {obj : JSONObject} {beginp endp q : Nat} {name : Bytes} {t : JSONToken}
    (h : ObjectFound obj beginp endp name q t) : obj[q]? = some t ∧ t.type = .objectBegin := by
  cases h with
  | value _ _ ht htype => exact ⟨ht, htype⟩
  | element _ _ _ _ _ _ ht htype => exact ⟨ht, htype⟩

/-- Objects fill OBJECT fields alone, unless there is one in the place of a string. -/
theorem fillsObjects_iff {beyond : Nat → UInt8} {strptime : Bytes → Option Tm}
    {now : UInt64} {conv : Conversions} (hstod : conv.stod [] = none)
    (hconv : ReadsTime conv beyond strptime now) (hstrptime : NeedsHyphen strptime) {text : Bytes}
    {obj : JSONObject} (hobj : parseJSON text = .ok obj) (s : MessageSchema) :
    FillsObjects conv obj s ↔
      ∀ t beginp endp, Range obj s t beginp endp → ∀ f ∈ t.fields, ∀ q token,
        ObjectFound obj beginp endp f.name q token → ∀ id, ¬Typed t f.name id .string := by
  have hrefuses : Refuses conv [] :=
    ⟨rfl, hstod, parseTime_word hstrptime hconv List.mem_cons_self⟩
  have hiff : ∀ {t : MessageSchema} {beginp endp q : Nat} {name : Bytes} {token : JSONToken},
      ObjectFound obj beginp endp name q token →
        (FillsObject conv obj t endp name q token ↔ ∀ id, ¬Typed t name id .string) := by
    intro t beginp endp q name token hfound
    obtain ⟨ht, htype⟩ := hfound.token
    exact fillsObject_iff hrefuses (data_of_parseJSON hobj ht htype)
  constructor
  · intro h t beginp endp hrange f hf q token hfound
    exact (hiff hfound).1 (h t beginp endp hrange f hf q token hfound)
  · intro h t beginp endp hrange f hf q token hfound
    exact (hiff hfound).2 (h t beginp endp hrange f hf q token hfound)

/-- The schemas of the messages that are filled are those of fields. -/
theorem Range.schema {obj : JSONObject} {s t : MessageSchema} {beginp endp : Nat}
    {P : MessageSchema → Prop} (h : Range obj s t beginp endp) (hs : P s)
    (hnested : ∀ t, P t → ∀ f ∈ t.fields, ∀ u, f.schema = some u → P u) : P t := by
  induction h with
  | root => exact hs
  | nested _ _ _ _ hsub ih =>
    rename_i t u f beginp endp q id token hrange hf hfound htype
    rw [MessageSchema.fieldSchema] at hsub
    cases hfield : t.field? id with
    | none => rw [hfield] at hsub; cases hsub
    | some g =>
      rw [hfield] at hsub
      exact hnested t ih g (MessageSchema.field?_mem hfield).1 u (Result.ok.inj hsub)

/-- A schema without a field of a type has no name of that type. -/
theorem not_typed_new {name : Bytes} {fields : List SchemaField} {type : FieldType}
    (hobject : type ≠ .object) (h : ∀ f ∈ fields, f.type ≠ type) (key : Bytes) (id : UInt32) :
    ¬Typed (.new name fields) key id type := by
  rintro ⟨-, htype⟩
  rw [MessageSchema.fieldType, MessageSchema.new_types] at htype
  split at htype
  · cases htype
    exact hobject rfl
  · cases hfield : (MessageSchema.new name fields).field? id with
    | none => rw [hfield] at htype; cases htype
    | some g =>
      rw [hfield] at htype
      have hg := (MessageSchema.field?_mem hfield).1
      rw [MessageSchema.new_fields] at hg
      exact h g hg (Result.ok.inj htype)

/- Numbers and lists of them. -/

def leafFields : List SchemaField := [⟨1, lit "n", .uint32, 0, false, false, .none, none⟩]

def nodeFields : List SchemaField :=
  [⟨1, lit "n", .uint32, 0, false, false, .none, none⟩,
    ⟨2, lit "part", .object, 0, true, false, .none, some (.new (lit "leaf") leafFields)⟩]

theorem node_fillsObjects :
    ∃ obj, parseJSON (lit "\x7b\"n\": \x7b\x7d, \"part\": [\x7b\"n\": 1\x7d, \x7b\x7d]\x7d") = .ok obj ∧
      FillsObjects timeConversions obj (.new (lit "node") nodeFields) := by
  have hparse : parseJSON (lit "\x7b\"n\": \x7b\x7d, \"part\": [\x7b\"n\": 1\x7d, \x7b\x7d]\x7d") =
      .ok (document (forest (.object [(lit "n", .object []),
        (lit "part", .array [.object [(lit "n", .number (lit "1"))], .object []])]) .nil)) := by
    decide +kernel
  refine ⟨_, hparse,
    (fillsObjects_iff rfl timeConversions_readsTime (fun _ _ => rfl) hparse _).2 ?_⟩
  intro t beginp endp hrange f hf q token hfound id
  have hschema : t = .new (lit "node") nodeFields ∨ t = .new (lit "leaf") leafFields := by
    refine hrange.schema (P := fun t => t = .new (lit "node") nodeFields ∨
      t = .new (lit "leaf") leafFields) (.inl rfl) ?_
    rintro t (rfl | rfl) f hf u hu
    · rw [MessageSchema.new_fields] at hf
      simp only [nodeFields, List.mem_cons, List.not_mem_nil, or_false] at hf
      obtain rfl | rfl := hf
      · cases hu
      · cases hu
        exact .inr rfl
    · rw [MessageSchema.new_fields] at hf
      cases List.mem_singleton.1 hf
      cases hu
  obtain rfl | rfl := hschema
  · exact not_typed_new (by decide) (by decide) f.name id
  · exact not_typed_new (by decide) (by decide) f.name id

/-- `{"s": {}}` adds an empty string. -/
theorem string_not_fillsObjects :
    ¬∀ conv beyond strptime now, conv.stod [] = none → ReadsTime conv beyond strptime now →
      NeedsHyphen strptime → ∀ text obj, parseJSON text = .ok obj → ∀ s,
        FillsObjects conv obj s := by
  intro h
  let s : MessageSchema := .new (lit "text") [⟨1, lit "s", .string, 0, false, false, .none, none⟩]
  let obj := document (forest (.object [(lit "s", .object [])]) .nil)
  have hfills := h timeConversions _ _ _ rfl timeConversions_readsTime (fun _ _ => rfl)
    (lit "\x7b\"s\": \x7b\x7d\x7d") obj (by decide +kernel) s s 0 5 .root _ List.mem_cons_self 2
    (cell (.opens .object, 2)) (.value (by rfl) (by decide) (by rfl) rfl)
  have hobject : ∀ id, ¬Typed s (lit "s") id .object := by
    rintro id ⟨hid, htype⟩
    cases hid
    cases htype
  have hread : fromObject timeConversions (fromJSON timeConversions obj 0) 5 (lit "s") 2
      (cell (.opens .object, 2)) ⟨some s, .object 0 []⟩ =
        .ok ⟨some s, .object 0 [.string 1 []]⟩ := by rfl
  cases hfills.other hobject 0 0 [] _ hread

end Stx.Msg.DynamicMessage
