import Stx.Lib.Indexes
import Stx.Protobuf.MessageSchema

/-! The hash maps of a schema against its list of fields, over runs of `addField` and
`removeField`. -/
namespace Stx.Msg.MessageSchema
open ListIndex

/-- The first field with the name. -/
def fieldNamed? (s : MessageSchema) (name : Bytes) : Option SchemaField :=
  s.fields.find? fun f => f.name == name

/-- What is looked up is there when a field of the list has the name or the id, and is an attribute
of the first such field. The id 0 is that of the message itself. -/
structure LookupsAgree (s : MessageSchema) : Prop where
  hasFieldName : ∀ name, s.hasFieldName name = true ↔ ∃ f ∈ s.fields, f.name = name
  fieldId : ∀ name id, s.fieldId name = .ok id ↔ ∃ f, s.fieldNamed? name = some f ∧ f.id = id
  hasField : ∀ id, id ≠ 0 → (s.hasField id = true ↔ ∃ f ∈ s.fields, f.id = id)
  fieldType : ∀ id, id ≠ 0 → ∀ type,
    s.fieldType id = .ok type ↔ ∃ f, s.field? id = some f ∧ f.type = type
  fieldName : ∀ id, id ≠ 0 → ∀ name,
    s.fieldName id = .ok name ↔ ∃ f, s.field? id = some f ∧ f.name = name

/-- The three maps are indexes of the list. -/
structure Indexed (s : MessageSchema) : Prop where
  ids : Indexes (fun _ => True) MessageSchemaField.name MessageSchemaField.id
    (fun name => s.field_ids.lookup name) s.fields
  types : Indexes (fun id => id ≠ 0) MessageSchemaField.id MessageSchemaField.type
    (fun id => s.field_types.lookup id) s.fields
  names : Indexes (fun id => id ≠ 0) MessageSchemaField.id MessageSchemaField.name
    (fun id => s.field_names.lookup id) s.fields

section lookups
variable {s : MessageSchema}

theorem Indexed.field_ids (h : s.Indexed) (name : Bytes) :
    s.field_ids.lookup name = (s.fieldNamed? name).map (·.id) := h.ids name trivial

theorem Indexed.field_types (h : s.Indexed) {id : UInt32} (hid : id ≠ 0) :
    s.field_types.lookup id = (s.field? id).map (·.type) := h.types id hid

theorem Indexed.field_names (h : s.Indexed) {id : UInt32} (hid : id ≠ 0) :
    s.field_names.lookup id = (s.field? id).map (·.name) := h.names id hid

theorem fieldId_eq_ok {name : Bytes} {id : UInt32} :
    s.fieldId name = .ok id ↔ s.field_ids.lookup name = some id := by
  unfold fieldId
  cases s.field_ids.lookup name <;> simp [Result.RAISEF]

theorem fieldType_eq_ok {id : UInt32} (hid : id ≠ 0) {type : FieldType} :
    s.fieldType id = .ok type ↔ s.field_types.lookup id = some type := by
  rw [fieldType, if_neg hid]
  cases s.field_types.lookup id <;> simp [Result.RAISEF]

theorem fieldName_eq_ok {id : UInt32} (hid : id ≠ 0) {name : Bytes} :
    s.fieldName id = .ok name ↔ s.field_names.lookup id = some name := by
  rw [fieldName, if_neg hid]
  cases s.field_names.lookup id <;> simp [Result.RAISEF]

/-- Two optional values that are the same as soon as the same values are in them. -/
theorem eq_map_of_iff {α β : Type} {x : Option β} {y : Option α} {f : α → β}
    (h : ∀ b, x = some b ↔ ∃ a, y = some a ∧ f a = b) : x = y.map f := by
  refine Option.ext fun b => ?_
  rw [h, Option.map_eq_some_iff]

theorem isSome_find?_iff {α κ : Type} [BEq κ] [LawfulBEq κ] {key : α → κ} {xs : List α} {k : κ} :
    (xs.find? fun x => key x == k).isSome = true ↔ ∃ x ∈ xs, key x = k := by
  simp

theorem lookupsAgree_iff : s.LookupsAgree ↔ s.Indexed := by
  constructor
  · intro h
    constructor
    · exact fun name _ => eq_map_of_iff fun id => fieldId_eq_ok.symm.trans (h.fieldId name id)
    · exact fun id hid => eq_map_of_iff fun type =>
        (fieldType_eq_ok hid).symm.trans (h.fieldType id hid type)
    · exact fun id hid => eq_map_of_iff fun name =>
        (fieldName_eq_ok hid).symm.trans (h.fieldName id hid name)
  · intro h
    constructor
    · intro name
      rw [hasFieldName, h.field_ids, Option.isSome_map, fieldNamed?, isSome_find?_iff]
    · intro name id
      rw [fieldId_eq_ok, h.field_ids, Option.map_eq_some_iff]
    · intro id hid
      rw [hasField, h.field_types hid, Option.isSome_map, field?, isSome_find?_iff]
    · intro id hid type
      rw [fieldType_eq_ok hid, h.field_types hid, Option.map_eq_some_iff]
    · intro id hid name
      rw [fieldName_eq_ok hid, h.field_names hid, Option.map_eq_some_iff]

end lookups

/- Runs. -/

inductive Change where
  | addField (field : SchemaField)
  | removeField (id : UInt32)

/-- A change of the schema. A call that raises leaves it as it was. -/
def change (s : MessageSchema) : Change → MessageSchema
  | .addField field => s.addField field
  | .removeField id =>
    match s.removeField id with
    | .ok s' => s'
    | _ => s

/-- The field that is taken out shares its name with no other field of the schema, and its id with
none if that is not 0. -/
def Change.Unshared (s : MessageSchema) : Change → Prop
  | .addField _ => True
  | .removeField id => ∀ f, s.field? id = some f → ∀ g ∈ s.fields.eraseP fun f => f.id == id,
      g.name ≠ f.name ∧ (f.id ≠ 0 → g.id ≠ f.id)

section steps
variable {s : MessageSchema}

theorem indexed_empty (name : Bytes) : (empty name).Indexed :=
  ⟨fun _ _ => rfl, fun _ _ => rfl, fun _ _ => rfl⟩

theorem Indexed.addField (h : s.Indexed) (field : SchemaField) : (s.addField field).Indexed :=
  ⟨h.ids.append fun k => HashMap.lookup_emplace _ _ k _,
    h.types.append fun k => HashMap.lookup_emplace _ _ k _,
    h.names.append fun k => HashMap.lookup_emplace _ _ k _⟩

theorem lookup_erase {κ υ : Type} [DecidableEq κ] (m : HashMap κ υ) (k k' : κ) :
    (m.erase k).lookup k' = if k' = k then none else m.lookup k' := by
  split
  · next he => rw [he, AList.lookup_erase]
  · next hne => exact AList.lookup_erase_ne hne

theorem change_removeField {id : UInt32} {f : SchemaField} (hf : s.field? id = some f) :
    s.change (.removeField id) =
      { name := s.name
        fields := s.fields.eraseP fun f => f.id == id
        field_ids := s.field_ids.erase f.name
        field_types := s.field_types.erase f.id
        field_names := s.field_names.erase f.id } := by
  simp only [change, removeField, hf]

/-- The field splits the list. -/
theorem exists_split {id : UInt32} {f : SchemaField} (hf : s.field? id = some f) :
    ∃ xs ys, s.fields = xs ++ f :: ys ∧ (s.fields.eraseP fun f => f.id == id) = xs ++ ys := by
  obtain ⟨hid, xs, ys, hfields, hxs⟩ := List.find?_eq_some_iff_append.1 hf
  refine ⟨xs, ys, hfields, ?_⟩
  rw [hfields, List.eraseP_append_right _ fun g hg => by simpa using hxs g hg,
    List.eraseP_cons_of_pos (p := fun g : SchemaField => g.id == id) hid]

theorem Indexed.change_iff (h : s.Indexed) (c : Change) :
    (s.change c).Indexed ↔ c.Unshared s := by
  cases c with
  | addField field => exact ⟨fun _ => trivial, fun _ => h.addField field⟩
  | removeField id =>
    cases hf : s.field? id with
    | none =>
      have hsame : s.change (.removeField id) = s := by simp only [change, removeField, hf]; rfl
      rw [hsame]
      refine ⟨fun _ f hf' => ?_, fun _ => h⟩
      rw [hf] at hf'
      cases hf'
    | some f =>
      obtain ⟨xs, ys, hfields, herase⟩ := exists_split hf
      obtain ⟨ids, types, names⟩ := h
      rw [hfields] at ids types names
      have hids := ids.erase_iff fun k => lookup_erase s.field_ids f.name k
      have htypes := types.erase_iff fun k => lookup_erase s.field_types f.id k
      have hnames := names.erase_iff fun k => lookup_erase s.field_names f.id k
      rw [change_removeField hf, herase]
      constructor
      · intro h' f' hf' g hg
        obtain rfl := Option.some.inj (hf.symm.trans hf')
        rw [herase] at hg
        exact ⟨hids.1 h'.ids trivial g hg, fun hid => htypes.1 h'.types hid g hg⟩
      · intro hunshared
        have hother := hunshared f hf
        rw [herase] at hother
        exact ⟨hids.2 fun _ g hg => (hother g hg).1, htypes.2 fun hid g hg => (hother g hg).2 hid,
          hnames.2 fun hid g hg => (hother g hg).2 hid⟩

end steps

/-- In a run from an empty schema the lookups agree with the list of fields all along if and only
if every field that is taken out shares its name and its id with no other field. -/
theorem lookups_agree_iff (name : Bytes) (changes : List Change) :
    (∀ n : Nat, ((changes.take n).foldl change (empty name)).LookupsAgree) ↔
      ∀ (n : Nat) (c : Change), changes[n]? = some c →
        c.Unshared ((changes.take n).foldl change (empty name)) := by
  have hstep : ∀ (n : Nat) (c : Change), changes[n]? = some c →
      (changes.take (n+1)).foldl change (empty name) =
        ((changes.take n).foldl change (empty name)).change c := by
    intro n c hc
    rw [List.take_add_one, hc, List.foldl_append]
    rfl
  simp only [lookupsAgree_iff]
  constructor
  · intro h n c hc
    rw [← (h n).change_iff, ← hstep n c hc]
    exact h (n+1)
  · intro h n
    induction n with
    | zero => exact indexed_empty name
    | succ n ih =>
      cases hc : changes[n]? with
      | none =>
        have hle : changes.length ≤ n := List.getElem?_eq_none_iff.1 hc
        rwa [List.take_of_length_le (by omega), ← List.take_of_length_le hle]
      | some c =>
        rw [hstep n c hc]
        exact (ih.change_iff c).2 (h n c hc)

/-- Fields 1 and 2 have the same name, and field 2 is taken out. -/
def sharedName : List Change :=
  [.addField { id := 1, name := lit "a", type := .uint32 },
    .addField { id := 2, name := lit "a", type := .uint32 }, .removeField 2]

theorem sharedName_not_agree :
    ¬∀ name changes, (List.foldl change (empty name) changes).LookupsAgree := by
  intro h
  have hname := (h [] sharedName).hasFieldName (lit "a")
  have hlost : (sharedName.foldl change (empty [])).hasFieldName (lit "a") = false := by decide
  rw [hlost] at hname
  exact absurd (hname.2 ⟨_, List.mem_cons_self, rfl⟩) Bool.false_ne_true

end Stx.Msg.MessageSchema
