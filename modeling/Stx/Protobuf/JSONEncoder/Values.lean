import Stx.Protobuf.JSONEncoder.Texts
import Stx.Libc

/-! The JSON value of a message. The encoder writes its text, one member for each field that has
values, in the order of the schema. -/
namespace Stx.Msg
open Json
open StringUtil (toStringInt)

/- The value that a message has as JSON. -/

/-- The schema of the field, if it has one. -/
def SchemaField.subschema (f : SchemaField) : MessageSchema := f.schema.getD (.empty [])

def MessageSchema.subschema (s : MessageSchema) (id : UInt32) : MessageSchema :=
  ((s.field? id).map SchemaField.subschema).getD (.empty [])

/-- The member of a field, if the field has values: an array when it is repeated. -/
def memberOf (f : SchemaField) : List JSONValue → Option (Bytes × JSONValue)
  | [] => none
  | v :: vs => some (f.name, if f.repeated then .array (v :: vs) else v)

def membersOf (fields : List SchemaField) (values : List (UInt32 × JSONValue)) :
    List (Bytes × JSONValue) :=
  fields.filterMap fun f => memberOf f ((values.filter fun v => v.1 == f.id).map Prod.snd)

mutual
def jsonOf : MessageObject → MessageSchema → JSONValue
  | .object _ cs, s => .object (membersOf s.fields (childValues cs s))
  | .boolean _ value, _ => if value then .true else .false
  | .string _ value, _ => .string value
  | .uint32 _ value, _ => .number (toStringInt value.toNat)
  | .uint64 _ value, _ => .number (toStringInt (JSONEncoder.toInt64 value))
  | .datetime .., _ => .null
  | .double .., _ => .null

def childValues : List MessageObject → MessageSchema → List (UInt32 × JSONValue)
  | [], _ => []
  | c :: cs, s => (c.id, jsonOf c (s.subschema c.id)) :: childValues cs s
end

/-- A schema of STRING, UINT32, UINT64, BOOLEAN and OBJECT fields, the BOOLEAN ones not repeated and
the OBJECT ones with such a schema. Names and ids are distinct, the names have no character that is
written as a `\u` escape, the maps know the fields, and each field has the property `P`. -/
inductive MessageSchema.Printable (P : SchemaField → Prop) : MessageSchema → Prop
  | mk {s : MessageSchema} (fields : ∀ f ∈ s.fields, P f)
    (types : ∀ f ∈ s.fields, f.type ≠ .double ∧ f.type ≠ .datetime ∧
      (f.type = .boolean → f.repeated = false) ∧ (f.type = .object → f.schema ≠ none))
    (names : (s.fields.map (·.name)).Nodup) (ids : (s.fields.map (·.id)).Nodup)
    (plain : ∀ f ∈ s.fields, ∀ c ∈ f.name, unicodeEscaped c = false)
    (maps : ∀ f ∈ s.fields, s.field_ids.lookup f.name = some f.id ∧
      s.field_types.lookup f.id = some f.type)
    (nested : ∀ f ∈ s.fields, ∀ t, f.schema = some t → t.Printable P) : s.Printable P

/-- A message of the schema, with one value at most for a field that is not repeated. Strings have
no character that is written as a `\u` escape, and strings and vectors are short enough for the
`int` that runs over them. -/
inductive Fits : MessageSchema → MessageObject → Prop
  | mk {s : MessageSchema} {id : UInt32} {cs : List MessageObject} (count : cs.length ≤ 2^31)
    (known : ∀ c ∈ cs, ∃ f ∈ s.fields, c.id = f.id ∧ c.type = f.type)
    (single : ∀ f ∈ s.fields, f.repeated = false → (valuesOf f.id cs).length ≤ 1)
    (strings : ∀ i value, .string i value ∈ cs → ReadBack value)
    (nested : ∀ c ∈ cs, ∀ f ∈ s.fields, c.id = f.id → f.type = .object → ∀ t, f.schema = some t →
      Fits t c) : Fits s (.object id cs)

theorem childValues_eq_map (cs : List MessageObject) (s : MessageSchema) :
    childValues cs s = cs.map fun c => (c.id, jsonOf c (s.subschema c.id)) := by
  induction cs with
  | nil => rfl
  | cons c cs ih => rw [childValues, ih, List.map_cons]

/-- Where keys are distinct, an element is found by its key. -/
theorem find?_key_of_mem {α β : Type} [BEq β] [LawfulBEq β] {key : α → β} {xs : List α}
    (hkeys : (xs.map key).Nodup) {x : α} (hx : x ∈ xs) :
    xs.find? (fun y => key y == key x) = some x := by
  induction xs with
  | nil => cases hx
  | cons y xs ih =>
    rw [List.map_cons, List.nodup_cons] at hkeys
    rw [List.find?_cons]
    cases List.mem_cons.1 hx with
    | inl h => simp [h]
    | inr h =>
      have hne : key y ≠ key x := by
        intro he
        have hmem : key x ∈ xs.map key := List.mem_map_of_mem h
        exact hkeys.1 (he ▸ hmem)
      simp only [beq_eq_false_iff_ne.2 hne]
      exact ih hkeys.2 h

theorem field?_of_mem {s : MessageSchema} (hids : (s.fields.map (·.id)).Nodup) {f : SchemaField}
    (hf : f ∈ s.fields) : s.field? f.id = some f :=
  find?_key_of_mem hids hf

theorem memberOf_eq_some {f : SchemaField} {vs : List JSONValue} {m : Bytes × JSONValue}
    (h : memberOf f vs = some m) : m.1 = f.name ∧ (m.2 ∈ vs ∨ m.2 = .array vs) := by
  cases vs with
  | nil => cases h
  | cons v vs =>
    cases h
    cases f.repeated with
    | true => exact ⟨rfl, .inr rfl⟩
    | false => exact ⟨rfl, .inl List.mem_cons_self⟩

/-- The constructor builds a printable schema from such fields. -/
theorem MessageSchema.Printable.new {P : SchemaField → Prop} {name : Bytes}
    {fields : List SchemaField} (hP : ∀ f ∈ fields, P f)
    (types : ∀ f ∈ fields, f.type ≠ .double ∧ f.type ≠ .datetime ∧
      (f.type = .boolean → f.repeated = false) ∧ (f.type = .object → f.schema ≠ none))
    (names : (fields.map (·.name)).Nodup) (ids : (fields.map (·.id)).Nodup)
    (plain : ∀ f ∈ fields, ∀ c ∈ f.name, unicodeEscaped c = false)
    (nested : ∀ f ∈ fields, ∀ t, f.schema = some t → t.Printable P) :
    (MessageSchema.new name fields).Printable P := by
  have hfields := new_fields name fields
  refine .mk ?_ ?_ ?_ ?_ ?_ (fun f hf => ⟨?_, ?_⟩) ?_
  case refine_6 =>
    rw [hfields] at hf
    rw [new_field_ids, find?_key_of_mem names hf]
    rfl
  case refine_7 =>
    rw [new_types, field?_of_mem (by rw [hfields]; exact ids) hf]
    rfl
  all_goals
    rw [hfields]
    assumption

def fieldValues (f : SchemaField) (cs : List MessageObject) : List JSONValue :=
  (valuesOf f.id cs).map fun c => jsonOf c f.subschema

theorem fieldValues_eq {s : MessageSchema} (hids : (s.fields.map (·.id)).Nodup) {f : SchemaField}
    (hf : f ∈ s.fields) (cs : List MessageObject) :
    ((childValues cs s).filter fun v => v.1 == f.id).map Prod.snd = fieldValues f cs := by
  have hsub : s.subschema f.id = f.subschema := by
    rw [MessageSchema.subschema, field?_of_mem hids hf]
    rfl
  rw [childValues_eq_map, fieldValues, valuesOf, List.filter_map, List.map_map]
  refine List.map_congr_left fun c hc => ?_
  have hid : c.id = f.id := by simpa using (List.mem_filter.1 hc).2
  change jsonOf c (s.subschema c.id) = _
  rw [hid, hsub]

theorem type_eq_of_known {s : MessageSchema} {cs : List MessageObject}
    (hids : (s.fields.map (·.id)).Nodup)
    (hknown : ∀ c ∈ cs, ∃ f ∈ s.fields, c.id = f.id ∧ c.type = f.type) {f : SchemaField}
    (hf : f ∈ s.fields) {c : MessageObject} (hc : c ∈ valuesOf f.id cs) :
    c ∈ cs ∧ c.id = f.id ∧ c.type = f.type := by
  obtain ⟨hcs, hid⟩ := List.mem_filter.1 hc
  have hcid : c.id = f.id := by simpa using hid
  obtain ⟨g, hg, hcg, hgt⟩ := hknown c hcs
  have hsame : g = f := List.inj_on_of_nodup_map hids hg hf (hcg.symm.trans hcid)
  exact ⟨hcs, hcid, by rw [hgt, hsame]⟩

def objectMembers (s : MessageSchema) (cs : List MessageObject) : List (Bytes × JSONValue) :=
  s.fields.filterMap fun f => memberOf f (fieldValues f cs)

/-- The keys are the names of the fields that have values. -/
theorem keys_objectMembers (s : MessageSchema) (cs : List MessageObject) :
    (objectMembers s cs).map Prod.fst =
      (s.fields.filter fun f => !(valuesOf f.id cs).isEmpty).map (·.name) := by
  unfold objectMembers
  induction s.fields with
  | nil => rfl
  | cons f fields ih =>
    rw [List.filterMap_cons, List.filter_cons, fieldValues]
    cases valuesOf f.id cs with
    | nil => exact ih
    | cons c vs => exact congrArg (f.name :: ·) ih

theorem membersOf_eq {s : MessageSchema} (hids : (s.fields.map (·.id)).Nodup)
    (cs : List MessageObject) : membersOf s.fields (childValues cs s) = objectMembers s cs := by
  refine List.filterMap_congr fun f hf => ?_
  rw [fieldValues_eq hids hf]

namespace JSONEncoder

theorem seen_eq {cs : List MessageObject} (hcount : cs.length ≤ 2^31) (id : UInt32) :
    seen id cs = valuesOf id cs := by
  rw [seen, List.take_of_length_le hcount]

theorem textsOf_map {α : Type} {text : α → Result Bytes} {g : α → Bytes} {xs : List α}
    (h : ∀ x ∈ xs, text x = .ok (g x)) : textsOf text xs = .ok (xs.map g) := by
  induction xs with
  | nil => rfl
  | cons x xs ih =>
    rw [textsOf, h x List.mem_cons_self, ih fun y hy => h y (List.mem_cons_of_mem x hy)]
    rfl

section texts
variable {object : MessageObject → MessageSchema → Result Bytes} {f : SchemaField}
  {c : MessageObject} {cs : List MessageObject}

theorem valueText_scalar (htype : c.type = f.type) (hobject : f.type ≠ .object)
    (hdouble : f.type ≠ .double) (hdatetime : f.type ≠ .datetime) :
    valueText object f c = .ok (layout (jsonOf c f.subschema)) := by
  cases c with
  | object id cs => exact absurd htype.symm hobject
  | double id value => exact absurd htype.symm hdouble
  | datetime id value => exact absurd htype.symm hdatetime
  | boolean id value =>
    rw [valueText, ← htype]
    cases value <;> rfl
  | string id value | uint32 id value | uint64 id value =>
    rw [valueText, ← htype]
    rfl

theorem valueText_object {t : MessageSchema} (htype : f.type = .object) (ht : f.schema = some t)
    (h : object c t = .ok (layout (jsonOf c t))) :
    valueText object f c = .ok (layout (jsonOf c f.subschema)) := by
  rw [valueText, htype, SchemaField.subschema, ht]
  exact h

theorem layoutElems_map (g : MessageObject → JSONValue) (vs : List MessageObject) :
    layoutElems (vs.map g) = vs.map fun c => layout (g c) := by
  induction vs with
  | nil => rfl
  | cons c vs ih => rw [List.map_cons, layoutElems, ih, List.map_cons]

/-- The text of the member of a field. -/
theorem memberText_eq (hcount : cs.length ≤ 2^31) (hname : (escapeString f.name).length+4 < 8192)
    (hsingle : f.repeated = false → (valuesOf f.id cs).length ≤ 1)
    (hvalues : ∀ c ∈ valuesOf f.id cs, valueText object f c = .ok (layout (jsonOf c f.subschema)))
    {m : Bytes × JSONValue} (hm : memberOf f (fieldValues f cs) = some m) :
    memberText object cs f = .ok (entry m.1 ++ layout m.2) := by
  have hentry : entryText f.name = .ok (entry f.name) := entryText_eq_ok.2 ⟨hname, rfl⟩
  have htexts := textsOf_map hvalues
  rw [memberText, hentry, Result.ok_bind, seen_eq hcount, htexts, Result.ok_bind, bracketed,
    ← layoutElems_map]
  rw [fieldValues] at hm
  cases hvs : valuesOf f.id cs with
  | nil =>
    rw [hvs] at hm
    cases hm
  | cons c vs =>
    rw [hvs] at hm hsingle
    cases hm
    cases hrepeated : f.repeated with
    | true => rfl
    | false =>
      have hnil : vs = [] := by simpa using hsingle hrepeated
      simp [hnil, layoutElems, commas]

theorem memberTexts_eq (hcount : cs.length ≤ 2^31) {fs : List SchemaField}
    (hnames : ∀ f ∈ fs, (escapeString f.name).length+4 < 8192)
    (hsingle : ∀ f ∈ fs, f.repeated = false → (valuesOf f.id cs).length ≤ 1)
    (hvalues : ∀ f ∈ fs, ∀ c ∈ valuesOf f.id cs,
      valueText object f c = .ok (layout (jsonOf c f.subschema))) :
    textsOf (memberText object cs) (written fs cs) =
      .ok (layoutMembers (fs.filterMap fun f => memberOf f (fieldValues f cs))) := by
  induction fs with
  | nil => rfl
  | cons f fs ih =>
    have htail := ih (fun g hg => hnames g (List.mem_cons_of_mem f hg))
      (fun g hg => hsingle g (List.mem_cons_of_mem f hg))
      (fun g hg => hvalues g (List.mem_cons_of_mem f hg))
    have hmember := @memberText_eq object f cs hcount (hnames f List.mem_cons_self)
      (hsingle f List.mem_cons_self) (hvalues f List.mem_cons_self)
    rw [written_cons, seen_eq hcount, List.filterMap_cons, fieldValues]
    rw [fieldValues] at hmember
    cases hvs : valuesOf f.id cs with
    | nil => exact htail
    | cons c vs =>
      rw [hvs] at hmember
      rw [if_neg (by simp), textsOf, hmember rfl, htail]
      rfl

end texts

theorem nodes_le_of_mem {c : MessageObject} {cs : List MessageObject} (h : c ∈ cs) :
    c.nodes ≤ MessageObject.nodesList cs := by
  induction cs with
  | nil => cases h
  | cons d cs ih =>
    rw [MessageObject.nodesList]
    cases List.mem_cons.1 h with
    | inl h => rw [h]; exact Nat.le_add_right ..
    | inr h => exact (ih h).trans (Nat.le_add_left ..)

theorem messageText_layout {P : SchemaField → Prop}
    (hP : ∀ f, P f → (escapeString f.name).length+4 < 8192) {s : MessageSchema} {m : MessageObject}
    (hm : Fits s m) (hs : s.Printable P) :
    ∀ fuel, m.nodes ≤ fuel → messageText fuel m s = .ok (layout (jsonOf m s)) := by
  induction hm with
  | @mk s id cs hcount hknown hsingle hstrings hnested ih =>
    obtain ⟨hfields, htypes, hnames, hids, hplain, hmaps, hsub⟩ := hs
    intro fuel hfuel
    rw [MessageObject.nodes] at hfuel
    obtain ⟨fuel, rfl⟩ : ∃ k, fuel = k+1 := Nat.exists_eq_add_one.2 (by omega)
    have hvalues : ∀ f ∈ s.fields, ∀ c ∈ valuesOf f.id cs,
        valueText (messageText fuel) f c = .ok (layout (jsonOf c (SchemaField.subschema f))) := by
      intro f hf c hc
      obtain ⟨hcs, hcid, htype⟩ := type_eq_of_known hids hknown hf hc
      obtain ⟨hdouble, hdatetime, -, hschema⟩ := htypes f hf
      by_cases hobject : f.type = .object
      · obtain ⟨t, ht⟩ := Option.ne_none_iff_exists'.1 (hschema hobject)
        have hle := nodes_le_of_mem hcs
        exact valueText_object hobject ht
          (ih c hcs f hf hcid hobject t ht (hsub f hf t ht) fuel (by omega))
      · exact valueText_scalar htype hobject hdouble hdatetime
    have hmembers := memberTexts_eq hcount (fun f hf => hP f (hfields f hf)) hsingle hvalues
    rw [messageText, MessageObject.asObject, Result.ok_bind, hmembers, Result.ok_bind, jsonOf,
      membersOf_eq hids, layout]
    rfl

/-- The encoder writes the text of the value of the message. -/
theorem encode_layout {P : SchemaField → Prop}
    (hP : ∀ f, P f → (escapeString f.name).length+4 < 8192) {s : MessageSchema} {m : MessageObject}
    (hm : Fits s m) (hs : s.Printable P) (fuel : Nat) (hfuel : m.nodes ≤ fuel)
    (json : JSONOutputStream) :
    encode fuel m s json = .ok (json.put (layout (jsonOf m s))) := by
  rw [appends_encode, messageText_layout hP hm hs fuel hfuel]
  rfl

end JSONEncoder

/- The value is printable. -/

theorem isNumeral_toString (n : Nat) : IsNumeral (StringUtil.toString n) := by
  have hdigits : ∀ d ∈ StringUtil.toString n, Libc.isdigit d = true := fun _ =>
    Libc.isdigit_of_mem_toString
  have hfin : ∀ n : Fin 256, Libc.isdigit (.ofFin n) = true →
      JSONInputStream.startsNumber (.ofFin n) = true := by decide +kernel
  have hall : ∀ d, Libc.isdigit d = true → JSONInputStream.startsNumber d = true :=
    fun d => hfin d.toFin
  have hne : StringUtil.toString n ≠ [] := by simp [StringUtil.toString]
  obtain ⟨c, x, hcons⟩ := List.exists_cons_of_ne_nil hne
  rw [hcons] at hdigits ⊢
  refine ⟨c, x, rfl, hall c (hdigits c List.mem_cons_self), fun d hd => ?_⟩
  exact JSONInputStream.inNumber_of_startsNumber (hall d (hdigits d (List.mem_cons_of_mem c hd)))

theorem isNumeral_toStringInt (n : Int) : IsNumeral (toStringInt n) := by
  unfold toStringInt
  split
  · obtain ⟨c, x, hcons, hc, hx⟩ := isNumeral_toString n.natAbs
    rw [hcons]
    refine ⟨45, c :: x, rfl, by decide, ?_⟩
    exact List.forall_mem_cons.2 ⟨JSONInputStream.inNumber_of_startsNumber hc, hx⟩
  · exact isNumeral_toString _

/-- A short text has not been cut off. -/
theorem length_le_of_escapeString {s : Bytes} (h : (escapeString s).length < 2^31) :
    s.length ≤ (escapeString s).length := by
  have hchar : ∀ c : UInt8, 0 < (escapeChar c).length := by
    intro c
    unfold escapeChar
    split_ifs <;> exact Nat.succ_pos _
  have hflat : ∀ t : Bytes, t.length ≤ (t.flatMap escapeChar).length := by
    intro t
    induction t with
    | nil => exact Nat.le_refl 0
    | cons c t ih =>
      have hc := hchar c
      rw [List.flatMap_cons, List.length_append, List.length_cons]
      omega
  have htake := hflat (s.take (2^31))
  rw [List.length_take] at htake
  change min (2^31) s.length ≤ (escapeString s).length at htake
  omega

theorem printable_jsonOf {P : SchemaField → Prop}
    (hP : ∀ f, P f → (escapeString f.name).length+4 < 8192) {s : MessageSchema}
    {m : MessageObject} (hm : Fits s m) (hs : s.Printable P) : Json.Printable (jsonOf m s) := by
  induction hm with
  | @mk s id cs hcount hknown hsingle hstrings hnested ih =>
    obtain ⟨hfields, htypes, hnames, hids, hplain, hmaps, hsub⟩ := hs
    have hvalue : ∀ f ∈ s.fields, ∀ v ∈ fieldValues f cs, Json.Printable v := by
      intro f hf v hv
      obtain ⟨c, hc, rfl⟩ := List.mem_map.1 hv
      obtain ⟨hcs, hcid, htype⟩ := type_eq_of_known hids hknown hf hc
      obtain ⟨-, -, -, hschema⟩ := htypes f hf
      cases c with
      | object i ds =>
        obtain ⟨t, ht⟩ := Option.ne_none_iff_exists'.1 (hschema htype.symm)
        rw [SchemaField.subschema, ht]
        exact ih _ hcs f hf hcid htype.symm t ht (hsub f hf t ht)
      | string i value => exact .string (hstrings i value hcs)
      | boolean i value => cases value <;> constructor
      | uint32 i value => exact .number (isNumeral_toStringInt _)
      | uint64 i value => exact .number (isNumeral_toStringInt _)
      | double i value => exact .null
      | datetime i value => exact .null
    rw [jsonOf, membersOf_eq hids]
    refine .object ?_ ?_
    · intro m hm
      obtain ⟨f, hf, hmember⟩ := List.mem_filterMap.1 hm
      obtain ⟨hkey, -⟩ := memberOf_eq_some hmember
      have hshort := hP f (hfields f hf)
      have hlen := length_le_of_escapeString (s := f.name) (by omega)
      rw [hkey]
      exact ⟨by omega, hplain f hf⟩
    · intro m hm
      obtain ⟨f, hf, hmember⟩ := List.mem_filterMap.1 hm
      cases (memberOf_eq_some hmember).2 with
      | inl h => exact hvalue f hf m.2 h
      | inr h => rw [h]; exact .array (hvalue f hf)

end Stx.Msg
