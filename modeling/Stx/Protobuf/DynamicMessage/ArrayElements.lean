import Stx.Protobuf.DynamicMessage.AddedValues
import Mathlib.Algebra.BigOperators.Ring.List
import Mathlib.Algebra.Order.BigOperators.Group.List

/-! What the elements of an array add to a message, against what each of them adds as the value of
the field. -/
namespace Stx.Msg.DynamicMessage
open Json Json.JSONUtil Brackets

/-- The tokens of an object with one member. -/
def fieldDocument (name : Bytes) (v : JSONValue) : JSONObject :=
  document (forest (.object [(name, v)]) .nil)

/-- Reading the document adds these values to a message of the schema, whatever it has already. -/
def Adds (conv : Conversions) (s : MessageSchema) (obj : JSONObject) (cs : List MessageObject) :
    Prop :=
  ∀ i acc, fromJSONObject conv obj ⟨some s, .object i acc⟩ = .ok ⟨some s, .object i (acc ++ cs)⟩

/-- The array adds what its elements add, each of which is read alone. -/
def ReadsLikeValues (conv : Conversions) (s : MessageSchema) (name : Bytes) (ts : List JSONValue) :
    Prop :=
  ∀ css, List.Forall₂ (fun t cs => Adds conv s (fieldDocument name t) cs) ts css →
    Adds conv s (fieldDocument name (.array ts)) css.flatten

/-- Read alone, no two elements add different values. -/
def SameValues (conv : Conversions) (s : MessageSchema) (name : Bytes) (ts : List JSONValue) :
    Prop :=
  ∀ css, List.Forall₂ (fun t cs => Adds conv s (fieldDocument name t) cs) ts css →
    ∀ c ∈ css.flatten, ∀ c' ∈ css.flatten, c = c'

/-- The fields of the name. The maps of the schema know one of them. -/
def named (s : MessageSchema) (name : Bytes) : List SchemaField :=
  s.fields.filter fun f => f.name = name

section
variable {conv : Conversions} {s : MessageSchema} {name : Bytes} {f : SchemaField} {i : UInt32}
  {acc : List MessageObject} {ts : List JSONValue}

/-- Only the fields with the name find a member. -/
theorem foldlM_readMembers (fields : List SchemaField) (v : JSONValue) (msg : DynamicMessage) :
    fields.foldlM (fun msg f => readMembers conv [(name, v)] f.name msg) msg =
      (fields.filter fun f => f.name = name).foldlM (fun msg _ => readMember conv v name msg)
        msg := by
  induction fields generalizing msg with
  | nil => rfl
  | cons f fields ih =>
    rw [List.foldlM_cons, readMembers]
    by_cases hname : name = f.name
    · subst hname
      rw [if_pos rfl, List.filter_cons_of_pos (by simp), List.foldlM_cons]
      exact congrArg _ (funext ih)
    · rw [if_neg hname, List.filter_cons_of_neg (by simp [Ne.symm hname]), readMembers]
      exact ih msg

theorem fromJSONObject_field {v : JSONValue} (hsize : spanOf (.object [(name, v)]) < 2^32)
    {msg : DynamicMessage} (hschema : msg.schema_ = some s) :
    fromJSONObject conv (fieldDocument name v) msg =
      (named s name).foldlM (fun msg _ => readMember conv v name msg) msg := by
  have hlen : (fieldDocument name v).length = 0+spanOf (.object [(name, v)]) := by
    rw [fieldDocument, length_document, Nat.zero_add]
    rfl
  have hat : At (fieldDocument name v) 0 (forest (.object [(name, v)]) .nil) :=
    ⟨[], (List.append_nil _).symm⟩
  have hread := @fromJSON_tree conv _ ((fieldDocument name v).length+1) 0 _ _ hat hsize
    (by omega) msg
  rw [← hlen] at hread
  rw [fromJSONObject, hread, readFields, hschema, MessageSchema.deref, Result.ok_bind,
    foldlM_readMembers]
  rfl

theorem adds_of_member {v : JSONValue} (hsize : spanOf (.object [(name, v)]) < 2^32)
    {cs : List MessageObject} (h : AddsTo s (readMember conv v name) cs) :
    Adds conv s (fieldDocument name v) (List.replicate (named s name).length cs).flatten :=
  fun i acc => (fromJSONObject_field hsize rfl).trans (h.foldlM (named s name) i acc)

theorem length_lt_of_mem {ts : List JSONValue} {t : JSONValue} (h : t ∈ ts) (name : Bytes) :
    spanOf (.object [(name, t)]) < spanOf (.object [(name, .array ts)]) := by
  have hle : spanOf t ≤ (forestElems ts).spans.length := by
    induction ts with
    | nil => cases h
    | cons v ts ih =>
      rw [length_forestElems_cons]
      cases List.mem_cons.1 h with
      | inl h => rw [h]; omega
      | inr h => have hrest := ih h; omega
  rw [spanOf_object, spanOf_object, length_forestMembers_cons, length_forestMembers_cons,
    spanOf_array]
  omega

/- What is added where the texts of the tokens are the same, or make no difference. -/

def words : List Bytes := [[], lit "true", lit "false"]

/-- A word of JSON is a value for booleans and strings only. -/
theorem readText_word (hconv : ∀ text ∈ words, Refuses conv text)
    (h : ∀ id type, Typed s name id type → type ≠ .boolean ∧ type ≠ .string) {text : Bytes}
    (htext : text ∈ words) {msg : DynamicMessage} (hschema : msg.schema_ = some s) :
    readText conv text name msg = readText conv [] name msg := by
  have hfield : addField conv msg name text = addField conv msg name [] := by
    cases hname : s.hasFieldName name with
    | false => simp only [addField, hschema, MessageSchema.deref, Result.ok_bind, hname]; rfl
    | true =>
      obtain ⟨id, hid⟩ := fieldId_of_hasFieldName hname
      cases htype : s.fieldType id with
      | ok type =>
        have htyped : Typed s name id type := ⟨hid, htype⟩
        obtain ⟨hboolean, hstring⟩ := h id type htyped
        rw [addField_refused (hconv text htext) htyped (fun h => absurd h hboolean) hstring _
          hschema, addField_refused (hconv [] List.mem_cons_self) htyped
          (fun h => absurd h hboolean) hstring _ hschema]
      | raise e | diverge =>
        simp only [addField, addFieldId, hschema, MessageSchema.deref, Result.ok_bind, hname, hid,
          htype]
        rfl
  rw [readText, readText, hfield]

theorem readElement_eq (hconv : ∀ text ∈ words, Refuses conv text) {t : JSONValue}
    (htoken : IsToken t)
    (h : t = .true ∨ t = .false →
      ∀ id type, Typed s name id type → type ≠ .boolean ∧ type ≠ .string)
    {msg : DynamicMessage} (hschema : msg.schema_ = some s) :
    readElement conv t name msg = readMember conv t name msg := by
  cases t with
  | array elems => cases htoken
  | null => cases htoken
  | string text | number text | object members => rw [readElement, readMember]
  | true =>
    rw [readElement, readMember]
    exact (readText_word hconv (h (.inl rfl)) (by decide) hschema).symm
  | false =>
    rw [readElement, readMember]
    exact (readText_word hconv (h (.inr rfl)) (by decide) hschema).symm

/-- The elements come one after the other. -/
theorem addsTo_readElems {css : List (List MessageObject)}
    (h : List.Forall₂ (fun t cs => AddsTo s (readElement conv t name) cs) ts css) :
    AddsTo s (readElems conv ts name) css.flatten := by
  induction h with
  | nil =>
    intro i acc
    rw [readElems, List.flatten_nil, List.append_nil]
  | cons hread _ ih =>
    intro i acc
    rw [readElems, hread, Result.ok_bind, ih, List.flatten_cons, List.append_assoc]

/-- For every field of the name an element adds its value, if it has one. -/
theorem exists_values (hnamed : named s name ≠ []) {css : List (List MessageObject)}
    (helems : ∀ t ∈ ts, AddsOne s (readMember conv t name) ∧
      spanOf (.object [(name, t)]) < 2^32 ∧ ∀ msg, msg.schema_ = some s →
        readElement conv t name msg = readMember conv t name msg)
    (hcss : List.Forall₂ (fun t cs => Adds conv s (fieldDocument name t) cs) ts css) :
    ∃ os : List (Option MessageObject),
      List.Forall₂ (fun t cs => AddsTo s (readElement conv t name) cs) ts (os.map Option.toList) ∧
        css.flatten = (os.map Option.toList).flatten.flatMap
          (List.replicate (named s name).length) := by
  induction hcss with
  | nil => exact ⟨[], .nil, rfl⟩
  | @cons t cs ts css hadds _ ih =>
    obtain ⟨os, hos, hflatten⟩ := ih fun t ht => helems t (List.mem_cons_of_mem _ ht)
    obtain ⟨hone, hsize, hread⟩ := helems t List.mem_cons_self
    have hfields : AddsTo s (fun msg => (named s name).foldlM
        (fun msg _ => readMember conv t name msg) msg) cs :=
      fun i acc => (fromJSONObject_field hsize rfl).symm.trans (hadds i acc)
    obtain ⟨o, ho, rfl⟩ := hone.of_foldlM hnamed hfields
    refine ⟨o :: os, .cons (fun i acc => (hread _ rfl).trans (ho i acc)) hos, ?_⟩
    rw [List.flatten_cons, hflatten, List.map_cons, List.flatten_cons, List.flatMap_append]
    cases o with
    | none => simp
    | some c => simp

/-- The array adds all values for a field before those for the next one. -/
theorem adds_array_iff (hconv : ∀ text ∈ words, Refuses conv text) (hnamed : named s name ≠ [])
    (htokens : ∀ t ∈ ts, IsToken t) (hsize : spanOf (.object [(name, .array ts)]) < 2^32)
    (hwords : ∀ t ∈ ts, t = .true ∨ t = .false →
      ∀ id type, Typed s name id type → type ≠ .boolean ∧ type ≠ .string)
    {css : List (List MessageObject)}
    (hcss : List.Forall₂ (fun t cs => Adds conv s (fieldDocument name t) cs) ts css) :
    Adds conv s (fieldDocument name (.array ts)) css.flatten ↔
      (named s name).length = 1 ∨ ∀ c ∈ css.flatten, ∀ c' ∈ css.flatten, c = c' := by
  obtain ⟨os, hos, hflatten⟩ := exists_values hnamed (fun t ht =>
    ⟨readMember_addsOne (hconv [] List.mem_cons_self) (htokens t ht),
      (length_lt_of_mem ht name).trans hsize,
      fun _ => readElement_eq hconv (htokens t ht) (hwords t ht)⟩) hcss
  have harray := adds_of_member hsize (v := .array ts) (addsTo_readElems hos)
  have hpos := List.length_pos_of_ne_nil hnamed
  rw [hflatten]
  generalize (os.map Option.toList).flatten = w at harray
  have hadds : Adds conv s (fieldDocument name (.array ts))
      (w.flatMap (List.replicate (named s name).length)) ↔
        (List.replicate (named s name).length w).flatten =
          w.flatMap (List.replicate (named s name).length) :=
    ⟨fun h => AddsTo.unique harray h, fun h => h ▸ harray⟩
  have hmem : ∀ c, c ∈ w.flatMap (List.replicate (named s name).length) ↔ c ∈ w := by
    intro c
    rw [List.mem_flatMap]
    constructor
    · rintro ⟨a, ha, hc⟩
      rwa [List.eq_of_mem_replicate hc]
    · exact fun hc => ⟨c, hc, List.mem_replicate.2 ⟨by omega, rfl⟩⟩
  rw [hadds]
  simp only [hmem]
  by_cases hone : (named s name).length = 1
  · have honce : w.flatMap (List.replicate 1) = w := List.ext_getElem? fun j => by
      rw [getElem?_flatMap_replicate Nat.one_pos, Nat.div_one]
    rw [hone, honce]
    exact iff_of_true (by simp) (.inl rfl)
  · rw [flatten_replicate_eq_iff (by omega)]
    exact (or_iff_right hone).symm

/- A word in a field of booleans or strings. -/

/-- The text that `addField` gets for the value of a field. -/
def memberText : JSONValue → Bytes
  | .string text => text
  | .number text => text
  | .true => lit "true"
  | .false => lit "false"
  | _ => []

def elementText : JSONValue → Bytes
  | .string text => text
  | .number text => text
  | _ => []

/-- What the text adds to a field of booleans or strings. -/
def scalarOf (type : FieldType) (id : UInt32) (text : Bytes) : List MessageObject :=
  if type = .boolean then ((Human.parseBoolean text).map (.boolean id)).toList
  else [.string id text]

section scalar
variable {id : UInt32} {type : FieldType} (htyped : Typed s name id type)
  (htype : type = .boolean ∨ type = .string)
include htyped htype

theorem readText_scalar (text : Bytes) :
    readText conv text name ⟨some s, .object i acc⟩ =
      .ok ⟨some s, .object i (acc ++ scalarOf type id text)⟩ := by
  obtain rfl | rfl := htype
  · rw [readText, addField_typed htyped _ rfl, addFieldId, MessageSchema.deref, Result.ok_bind,
      hasField_of_typed htyped (by decide), htyped.2, scalarOf, if_pos rfl]
    cases hvalue : Human.parseBoolean text with
    | none =>
      simp only [Bool.not_true, Bool.false_eq_true, if_false, Result.ok_bind, Option.map_none,
        Option.toList_none, List.append_nil]
      rfl
    | some value =>
      simp only [Bool.not_true, Bool.false_eq_true, if_false, Result.ok_bind]
      rfl
  · rw [readText, addField_string htyped]
    rfl

theorem readObject_scalar (nested : DynamicMessage → Result DynamicMessage) :
    readObject conv nested name ⟨some s, .object i acc⟩ =
      .ok ⟨some s, .object i (acc ++ scalarOf type id [])⟩ := by
  have hobject : type ≠ .object := by
    obtain rfl | rfl := htype <;> decide
  rw [readObject, addObject_other htyped hobject _ _ rfl, Result.ok_bind]
  exact readText_scalar htyped htype []

theorem readMember_scalar {t : JSONValue} (htoken : IsToken t) :
    readMember conv t name ⟨some s, .object i acc⟩ =
      .ok ⟨some s, .object i (acc ++ scalarOf type id (memberText t))⟩ := by
  cases t with
  | array elems => cases htoken
  | null => cases htoken
  | string text | number text | true | false =>
    rw [readMember]
    exact readText_scalar htyped htype _
  | object members =>
    rw [readMember]
    exact readObject_scalar htyped htype _

theorem readElement_scalar {t : JSONValue} (htoken : IsToken t) :
    readElement conv t name ⟨some s, .object i acc⟩ =
      .ok ⟨some s, .object i (acc ++ scalarOf type id (elementText t))⟩ := by
  cases t with
  | array elems => cases htoken
  | null => cases htoken
  | string text | number text | true | false =>
    rw [readElement]
    exact readText_scalar htyped htype _
  | object members =>
    rw [readElement]
    exact readObject_scalar htyped htype _

end scalar

/-- Not an empty string. -/
def isFilled : MessageObject → Bool
  | .string _ text => text ≠ []
  | _ => true

/-- A word adds a boolean or a string as a value, and none of that as an element. -/
theorem filled_lt {id : UInt32} {type : FieldType} (htype : type = .boolean ∨ type = .string)
    {t : JSONValue} (hword : t = .true ∨ t = .false) :
    (scalarOf type id (elementText t)).countP isFilled <
      (scalarOf type id (memberText t)).countP isFilled := by
  obtain rfl | rfl := htype <;> obtain rfl | rfl := hword <;> exact Nat.zero_lt_one

theorem filled_le {id : UInt32} {type : FieldType} (htype : type = .boolean ∨ type = .string)
    (t : JSONValue) :
    (scalarOf type id (elementText t)).countP isFilled ≤
      (scalarOf type id (memberText t)).countP isFilled := by
  cases t with
  | true => exact (filled_lt htype (.inl rfl)).le
  | false => exact (filled_lt htype (.inr rfl)).le
  | string text | number text | object members | array elems | null => exact Nat.le_refl _

theorem countP_flatten_replicate {α : Type} (p : α → Bool) (m : Nat) (w : List α) :
    (List.replicate m w).flatten.countP p = m*w.countP p := by
  rw [List.countP_flatten, List.map_replicate, List.sum_replicate_nat]

theorem ne_of_readsLikeValues (hnamed : named s name ≠ []) (htokens : ∀ t ∈ ts, IsToken t)
    (hsize : spanOf (.object [(name, .array ts)]) < 2^32) (h : ReadsLikeValues conv s name ts)
    {t : JSONValue} (ht : t ∈ ts) (hword : t = .true ∨ t = .false) {id : UInt32}
    {type : FieldType} (htyped : Typed s name id type) : type ≠ .boolean ∧ type ≠ .string := by
  by_contra hnot
  have htype : type = .boolean ∨ type = .string := by
    rw [← or_iff_not_and_not] at hnot
    exact hnot
  have hbare : List.Forall₂ (fun t cs => Adds conv s (fieldDocument name t) cs) ts
      (ts.map fun t => (List.replicate (named s name).length
        (scalarOf type id (memberText t))).flatten) := by
    rw [List.forall₂_map_right_iff, List.forall₂_same]
    exact fun t ht => adds_of_member ((length_lt_of_mem ht name).trans hsize) fun _ _ =>
      readMember_scalar htyped htype (htokens t ht)
  have helems : List.Forall₂ (fun t cs => AddsTo s (readElement conv t name) cs) ts
      (ts.map fun t => scalarOf type id (elementText t)) := by
    rw [List.forall₂_map_right_iff, List.forall₂_same]
    exact fun t ht _ _ => readElement_scalar htyped htype (htokens t ht)
  have hsame := AddsTo.unique (h _ hbare)
    (adds_of_member hsize (v := .array ts) (addsTo_readElems helems))
  -- the same children have as many that are no empty strings
  have hcount := congrArg (List.countP isFilled) hsame
  rw [countP_flatten_replicate, List.countP_flatten, List.countP_flatten, List.map_map,
    List.map_map] at hcount
  have hlt := List.sum_lt_sum (fun t => (scalarOf type id (elementText t)).countP isFilled)
    (fun t => (scalarOf type id (memberText t)).countP isFilled)
    (fun t _ => filled_le htype t) ⟨t, ht, filled_lt htype hword⟩
  have hmul : (ts.map fun t => (List.replicate (named s name).length
      (scalarOf type id (memberText t))).flatten.countP isFilled).sum =
        (named s name).length*(ts.map fun t =>
          (scalarOf type id (memberText t)).countP isFilled).sum := by
    simp only [countP_flatten_replicate, List.sum_map_mul_left]
  have heq := Nat.eq_of_mul_eq_mul_left (List.length_pos_of_ne_nil hnamed)
    (hmul.symm.trans hcount)
  exact absurd heq.symm (Nat.ne_of_lt hlt)

/-- The elements are read like values where no `true` or `false` is one of a field of booleans or
strings, and where the name is not that of several fields, which take the values of the whole array
one after the other. -/
theorem readsLikeValues_iff {beyond : Nat → UInt8} {strptime : Bytes → Option Tm}
    {now : UInt64} (hstod : ∀ text ∈ words, conv.stod text = none)
    (hconv : ReadsTime conv beyond strptime now) (hstrptime : NeedsHyphen strptime)
    (hf : f ∈ s.fields) (htokens : ∀ t ∈ ts, IsToken t)
    (hsize : spanOf (.object [(f.name, .array ts)]) < 2^32) :
    ReadsLikeValues conv s f.name ts ↔
      (∀ t ∈ ts, t = .true ∨ t = .false →
        ∀ id type, Typed s f.name id type → type ≠ .boolean ∧ type ≠ .string) ∧
      ((named s f.name).length = 1 ∨ SameValues conv s f.name ts) := by
  have hnumber : ∀ text ∈ words, stoull text = none := by decide
  have hrefuses : ∀ text ∈ words, Refuses conv text := fun text htext =>
    ⟨hnumber text htext, hstod text htext, parseTime_word hstrptime hconv htext⟩
  have hnamed : named s f.name ≠ [] :=
    List.ne_nil_of_mem (List.mem_filter.2 ⟨hf, decide_eq_true rfl⟩)
  constructor
  · intro h
    have hwords : ∀ t ∈ ts, t = .true ∨ t = .false →
        ∀ id type, Typed s f.name id type → type ≠ .boolean ∧ type ≠ .string :=
      fun t ht hword id type htyped => ne_of_readsLikeValues hnamed htokens hsize h ht hword htyped
    refine ⟨hwords, ?_⟩
    by_cases hone : (named s f.name).length = 1
    · exact .inl hone
    · refine .inr fun css hcss => ?_
      exact ((adds_array_iff hrefuses hnamed htokens hsize hwords hcss).1 (h css hcss)).resolve_left
        hone
  · rintro ⟨hwords, hfields⟩ css hcss
    refine (adds_array_iff hrefuses hnamed htokens hsize hwords hcss).2 ?_
    exact hfields.imp_right fun h => h css hcss

end

theorem parts_readLikeValues :
    ReadsLikeValues timeConversions (.new (lit "node") nodeFields) (lit "part")
      [.object [(lit "n", .number (lit "1"))], .true, .object [], .string (lit "x")] := by
  refine (readsLikeValues_iff (f := ⟨2, lit "part", .object, 0, true, false, .none,
    some (.new (lit "leaf") leafFields)⟩) (fun _ _ => rfl) timeConversions_readsTime
    (fun _ _ => rfl) (List.mem_cons_of_mem _ List.mem_cons_self) ?_ (by decide)).2 ⟨?_, .inl rfl⟩
  · simp [IsToken]
  · intro t _ _ id type htyped
    constructor
    · rintro rfl
      exact not_typed_new (by decide) (by decide) _ _ htyped
    · rintro rfl
      exact not_typed_new (by decide) (by decide) _ _ htyped

/-- `{"ok": [true]}` adds nothing. -/
theorem true_not_readsLikeValues :
    ¬∀ conv beyond strptime now, (∀ text ∈ words, conv.stod text = none) →
      ReadsTime conv beyond strptime now → NeedsHyphen strptime →
        ∀ (s : MessageSchema), ∀ f ∈ s.fields, ∀ ts, (∀ t ∈ ts, IsToken t) →
          spanOf (.object [(f.name, .array ts)]) < 2^32 → ReadsLikeValues conv s f.name ts := by
  intro h
  let f : SchemaField := ⟨1, lit "ok", .boolean, 0, true, false, .none, none⟩
  let s : MessageSchema := .new (lit "flags") [f]
  have hread := h timeConversions _ _ _ (fun _ _ => rfl) timeConversions_readsTime
    (fun _ _ => rfl) s f List.mem_cons_self [.true] (by simp [IsToken]) (by decide)
    [[.boolean 1 true]] ?_ 0 []
  · have hnone : fromJSONObject timeConversions (fieldDocument f.name (.array [.true]))
        ⟨some s, .object 0 []⟩ = .ok ⟨some s, .object 0 []⟩ := by rfl
    cases hnone.symm.trans hread
  · rw [List.forall₂_cons]
    exact ⟨fun i acc => rfl, .nil⟩

end Stx.Msg.DynamicMessage
