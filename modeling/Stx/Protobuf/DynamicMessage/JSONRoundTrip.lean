import Stx.Protobuf.DynamicMessage
import Stx.Protobuf.JSONEncoder.Values
import Stx.Json.JSONUtil.Members

/-! A message that is written as JSON and read back. The values of a field come back in their order,
next to each other and in the order of the schema. -/
namespace Stx.Msg
open Json Json.JSONUtil
open StringUtil (toStringInt)

/-- The same list of values in the same order for every field, at every level. -/
inductive SameValues : MessageSchema → MessageObject → MessageObject → Prop
  | mk {s : MessageSchema} {id id' : UInt32} {cs cs' : List MessageObject}
    (scalars : ∀ f ∈ s.fields, f.type ≠ .object → valuesOf f.id cs' = valuesOf f.id cs)
    (count : ∀ f ∈ s.fields, (valuesOf f.id cs').length = (valuesOf f.id cs).length)
    (objects : ∀ f ∈ s.fields, f.type = .object → ∀ t, f.schema = some t →
      ∀ (i : Nat) (c c' : MessageObject), (valuesOf f.id cs)[i]? = some c →
        (valuesOf f.id cs')[i]? = some c' → SameValues t c c') :
    SameValues s (.object id cs) (.object id' cs')

/-- A value of the field and what has become of it. -/
def SameValue (f : SchemaField) (c c' : MessageObject) : Prop :=
  c'.id = f.id ∧ (f.type ≠ .object → c' = c) ∧
    (f.type = .object → ∀ t, f.schema = some t → SameValues t c c')

namespace DynamicMessage

/- Adding values to a message of a printable schema. -/

section add
variable {conv : Conversions} {s : MessageSchema} {f : SchemaField} {acc : List MessageObject}

/-- A message of the schema with these children. -/
def of (s : MessageSchema) (cs : List MessageObject) : DynamicMessage := ⟨some s, .object 0 cs⟩

/-- The maps of the schema know the field. -/
def Knows (s : MessageSchema) (f : SchemaField) : Prop :=
  s.field_ids.lookup f.name = some f.id ∧ s.field_types.lookup f.id = some f.type

theorem addField_eq (h : Knows s f) (value : Bytes) :
    addField conv (of s acc) f.name value = addFieldId conv (of s acc) f.id value := by
  simp only [addField, of, MessageSchema.deref, Result.ok_bind, MessageSchema.hasFieldName, h.1,
    Option.isSome_some, Bool.not_true, Bool.false_eq_true, if_false, MessageSchema.fieldId]

theorem addFieldId_type (h : Knows s f) (hid : f.type ≠ .object → f.id ≠ 0) :
    s.hasField f.id = true ∧ s.fieldType f.id = .ok f.type := by
  refine ⟨by simp [MessageSchema.hasField, h.2], ?_⟩
  rw [MessageSchema.fieldType, h.2]
  by_cases hz : f.id = 0
  · have hobject : f.type = .object := by
      by_contra hne
      exact hid hne hz
    rw [if_pos hz, hobject]
  · rw [if_neg hz]

/-- The text that a scalar has in its token. -/
def scalarText : MessageObject → Bytes
  | .boolean _ value => if value then lit "true" else lit "false"
  | .string _ value => value
  | .uint32 _ value => toStringInt value.toNat
  | .uint64 _ value => toStringInt (JSONEncoder.toInt64 value)
  | _ => []

theorem stoull_toStringInt {n : Nat} (h : n < 2^64) :
    stoull (toStringInt n) = some (UInt64.ofNat n) := by
  have htext : toStringInt n = StringUtil.toString n := by
    rw [toStringInt, if_neg (by omega), Int.natAbs_natCast]
  rw [stoull, htext, Libc.stoul_toString h]
  rfl

/-- From 2^63 on the text is that of a negative number, and `stoull` takes it modulo 2^64. -/
theorem stoull_toInt64 (v : UInt64) : stoull (toStringInt (JSONEncoder.toInt64 v)) = some v := by
  have hlt := v.toNat_lt
  by_cases hv : v.toNat < 2^63
  · rw [JSONEncoder.toInt64_of_lt hv, stoull_toStringInt hlt, UInt64.ofNat_toNat]
  · have htext : toStringInt (JSONEncoder.toInt64 v) =
        45 :: StringUtil.toString (2^64-v.toNat) := by
      rw [JSONEncoder.toInt64_of_le (Nat.not_lt.1 hv), toStringInt, if_pos (by omega),
        Int.natAbs_neg, Int.natAbs_natCast]
      rfl
    have hback : (2^64-(2^64-v.toNat)) % 2^64 = v.toNat := by omega
    rw [htext, stoull, Libc.stoul_minus_toString (by omega), hback, Option.map_some,
      UInt64.ofNat_toNat]

theorem addField_scalar (h : Knows s f) (hid : f.id ≠ 0) {c : MessageObject} (hcid : c.id = f.id)
    (htype : c.type = f.type) (hobject : f.type ≠ .object) (hdouble : f.type ≠ .double)
    (hdatetime : f.type ≠ .datetime) :
    addField conv (of s acc) f.name (scalarText c) = .ok (true, of s (acc ++ [c])) := by
  obtain ⟨hhas, hft⟩ := addFieldId_type h fun _ => hid
  rw [addField_eq h]
  rw [← htype, ← hcid] at hft
  rw [← hcid] at hhas ⊢
  cases c with
  | object id cs => exact absurd htype.symm hobject
  | double id value => exact absurd htype.symm hdouble
  | datetime id value => exact absurd htype.symm hdatetime
  | boolean id value =>
    simp only [addFieldId, of, MessageSchema.deref, Result.ok_bind, hhas, hft]
    cases value <;> rfl
  | string id value =>
    simp only [addFieldId, of, MessageSchema.deref, Result.ok_bind, hhas, hft]
    rfl
  | uint32 id value =>
    have hlt := value.toNat_lt
    have hback : (UInt64.ofNat value.toNat).toUInt32 = value := by
      rw [← UInt32.toNat_inj, UInt64.toNat_toUInt32, UInt64.toNat_ofNat']
      omega
    simp only [addFieldId, of, MessageSchema.deref, Result.ok_bind, hhas, hft, scalarText,
      stoull_toStringInt (by omega : value.toNat < 2^64), Option.map_some, hback]
    rfl
  | uint64 id value =>
    simp only [addFieldId, of, MessageSchema.deref, Result.ok_bind, hhas, hft, scalarText,
      stoull_toInt64]
    rfl

/-- The string case behind the case of an object adds nothing. -/
theorem addField_object (h : Knows s f) (hobject : f.type = .object) (value : Bytes) :
    addField conv (of s acc) f.name value = .ok (false, of s acc) := by
  obtain ⟨hhas, hft⟩ := addFieldId_type h fun hne => absurd hobject hne
  rw [addField_eq h]
  simp only [addFieldId, of, MessageSchema.deref, Result.ok_bind, hhas, hft, hobject]
  rfl

theorem addObject_eq (h : Knows s f) (hfield : s.field? f.id = some f) (hobject : f.type = .object)
    {fn : DynamicMessage → Result DynamicMessage} {submsg : DynamicMessage}
    (hfn : fn (.new f.schema) = .ok submsg) :
    addObject (of s acc) f.name fn = .ok (true, of s (acc ++ [submsg.data_.setId f.id])) := by
  obtain ⟨-, hft⟩ := addFieldId_type h fun hne => absurd hobject hne
  simp only [addObject, of, MessageSchema.deref, Result.ok_bind, MessageSchema.hasFieldName, h.1,
    Option.isSome_some, Bool.not_true, Bool.false_eq_true, if_false, MessageSchema.fieldId, hft,
    hobject, ne_eq, not_true_eq_false, MessageSchema.fieldSchema, hfield, hfn]
  rfl

end add

/- One value of a field, from the position of its first token. -/

section value
variable {conv : Conversions} {nested : Nat → Nat → DynamicMessage → Result DynamicMessage}
  {obj : JSONObject} {s : MessageSchema} {f : SchemaField} {acc : List MessageObject} {limit : Nat}

/-- The field is one of a printable schema, and no scalar field has the id of the root. -/
structure Readable (s : MessageSchema) (f : SchemaField) : Prop where
  knows : Knows s f
  field : s.field? f.id = some f
  double : f.type ≠ .double
  datetime : f.type ≠ .datetime
  boolean : f.type = .boolean → f.repeated = false
  id : f.type ≠ .object → f.id ≠ 0

theorem fromElement_scalar (hf : Readable s f) {c : MessageObject} (hcid : c.id = f.id)
    (htype : c.type = f.type) (hobject : f.type ≠ .object) (hboolean : f.type ≠ .boolean) {q : Nat}
    {rest : TokenForest} (hat : At obj q (forest (jsonOf c f.subschema) rest)) {t : JSONToken}
    (ht : obj[q]? = some t) (endp : Nat) :
    fromElement conv nested endp f.name q t (of s acc) = .ok (of s (acc ++ [c])) := by
  have hadd := @addField_scalar conv s f acc hf.knows (hf.id hobject) c hcid htype hobject hf.double
    hf.datetime
  cases c with
  | object id cs => exact absurd htype.symm hobject
  | double id value => exact absurd htype.symm hf.double
  | datetime id value => exact absurd htype.symm hf.datetime
  | boolean id value => exact absurd htype.symm hboolean
  | string id value | uint32 id value | uint64 id value =>
    obtain rfl := Option.some.inj (ht.symm.trans hat.atom.1)
    exact congrArg (· >>= fun p => pure p.2) hadd

theorem fromToken_scalar (hf : Readable s f) {c : MessageObject} (hcid : c.id = f.id)
    (htype : c.type = f.type) (hobject : f.type ≠ .object) {q : Nat}
    {rest : TokenForest} (hat : At obj q (forest (jsonOf c f.subschema) rest)) {t : JSONToken}
    (ht : obj[q]? = some t) (endp : Nat) :
    fromToken conv nested obj endp f.name q t (of s acc) = .ok (of s (acc ++ [c])) := by
  have hadd := @addField_scalar conv s f acc hf.knows (hf.id hobject) c hcid htype hobject hf.double
    hf.datetime
  cases c with
  | object id cs => exact absurd htype.symm hobject
  | double id value => exact absurd htype.symm hf.double
  | datetime id value => exact absurd htype.symm hf.datetime
  | boolean id value =>
    cases value with
    | true =>
      obtain rfl := Option.some.inj (ht.symm.trans hat.atom.1)
      exact congrArg (· >>= fun p => pure p.2) hadd
    | false =>
      obtain rfl := Option.some.inj (ht.symm.trans hat.atom.1)
      exact congrArg (· >>= fun p => pure p.2) hadd
  | string id value | uint32 id value | uint64 id value =>
    obtain rfl := Option.some.inj (ht.symm.trans hat.atom.1)
    exact congrArg (· >>= fun p => pure p.2) hadd

theorem fromObject_eq (hf : Readable s f) (hobject : f.type = .object) {sub : MessageSchema}
    {cs : List MessageObject} {q endp : Nat} {t : JSONToken}
    (hnested : nested q (min endp (q+t.size.toNat)) (.new f.schema) = .ok (of sub cs)) :
    fromObject conv nested endp f.name q t (of s acc) =
      .ok (of s (acc ++ [.object f.id cs])) := by
  have hadd := @addObject_eq s f acc hf.knows hf.field hobject
    (nested q (min endp (q+t.size.toNat))) _ hnested
  simp only [fromObject, hadd, Result.ok_bind, addField_object hf.knows hobject]
  rfl

/-- A value of fewer tokens than `limit` is read back where they stand, alone or in an array. -/
def ComesBack (conv : Conversions) (nested : Nat → Nat → DynamicMessage → Result DynamicMessage)
    (obj : JSONObject) (s : MessageSchema) (limit : Nat) (f : SchemaField) (c : MessageObject) :
    Prop :=
  ∀ (q endp : Nat) (rest : TokenForest) (t : JSONToken),
    At obj q (forest (jsonOf c f.subschema) rest) → obj[q]? = some t →
    q+spanOf (jsonOf c f.subschema) ≤ endp → spanOf (jsonOf c f.subschema) < limit →
    ∃ c', SameValue f c c' ∧ ∀ acc,
      (f.type ≠ .boolean →
        fromElement conv nested endp f.name q t (of s acc) = .ok (of s (acc ++ [c']))) ∧
      fromToken conv nested obj endp f.name q t (of s acc) = .ok (of s (acc ++ [c']))

theorem comesBack_scalar (hf : Readable s f) {c : MessageObject} (hcid : c.id = f.id)
    (htype : c.type = f.type) (hobject : f.type ≠ .object) :
    ComesBack conv nested obj s limit f c := by
  intro q endp rest t hat ht _ _
  refine ⟨c, ⟨hcid, fun _ => rfl, fun h => absurd h hobject⟩, fun acc => ⟨fun hboolean => ?_, ?_⟩⟩
  · exact fromElement_scalar hf hcid htype hobject hboolean hat ht endp
  · exact fromToken_scalar hf hcid htype hobject hat ht endp

theorem comesBack_object (hf : Readable s f) (hobject : f.type = .object) {sub : MessageSchema}
    (hsub : f.schema = some sub) (hlimit : limit ≤ 2^32) {id : UInt32} {cs : List MessageObject}
    (hnested : ∀ q rest, At obj q (forest (jsonOf (.object id cs) sub) rest) →
      spanOf (jsonOf (.object id cs) sub) < limit →
      ∃ cs', nested q (q+spanOf (jsonOf (.object id cs) sub)) (.new (some sub)) = .ok (of sub cs') ∧
        ∀ i, SameValues sub (.object id cs) (.object i cs')) :
    ComesBack conv nested obj s limit f (.object id cs) := by
  intro q endp rest t hat ht hle hsize
  have hsubschema : f.subschema = sub := by rw [SchemaField.subschema, hsub]; rfl
  rw [hsubschema] at hat hle hsize
  obtain ⟨cs', hread, hsame⟩ := hnested q rest hat hsize
  obtain ⟨u, hu, husize, -⟩ := hat.value (Nat.lt_of_lt_of_le hsize hlimit)
  obtain rfl := Option.some.inj (hu.symm.trans ht)
  have hend : min endp (q+u.size.toNat) = q+spanOf (jsonOf (.object id cs) sub) := by
    rw [husize]
    exact Nat.min_eq_right hle
  rw [← hsub, ← hend] at hread
  have hbegin : u.type = .objectBegin := by
    obtain rfl := Option.some.inj (ht.symm.trans hat.node.1)
    rfl
  refine ⟨.object f.id cs', ⟨rfl, fun h => absurd hobject h, ?_⟩, fun acc => ⟨fun _ => ?_, ?_⟩⟩
  · intro _ sub' hsub'
    obtain rfl := Option.some.inj (hsub.symm.trans hsub')
    exact hsame f.id
  · rw [fromElement, hbegin]
    exact fromObject_eq hf hobject hread
  · rw [fromToken, hbegin]
    exact fromObject_eq hf hobject hread

/-- The values of a repeated field, up to the end of their array. -/
theorem fromArray_values (hboolean : f.type ≠ .boolean) (hlimit : limit ≤ 2^32)
    {vs : List MessageObject} (hvs : ∀ c ∈ vs, ComesBack conv nested obj s limit f c)
    {elems : List JSONValue}
    (helems : elems = vs.map fun c => jsonOf c f.subschema) {q aend endp : Nat}
    (hat : At obj q (forestElems elems))
    (hlast : obj[q+(forestElems elems).spans.length]? = some (cell (.closes .array, 1)))
    (haend : q+(forestElems elems).spans.length+1 = aend) (hle : aend ≤ endp)
    (hsize : (forestElems elems).spans.length < limit) {fuel : Nat}
    (hfuel : (forestElems elems).spans.length+1 < fuel) :
    ∃ vs', List.Forall₂ (SameValue f) vs vs' ∧ ∀ acc,
      fromArray conv nested obj endp f.name aend fuel q (of s acc) = .ok (of s (acc ++ vs')) := by
  induction vs generalizing elems q fuel with
  | nil =>
    subst helems
    change obj[q]? = _ at hlast
    change q+0+1 = aend at haend
    obtain ⟨fuel, rfl⟩ : ∃ n, fuel = n+2 := ⟨fuel-2, by omega⟩
    refine ⟨[], .nil, fun acc => ?_⟩
    have hone : (cell (.closes .array, 1)).size.toNat = 1 := rfl
    rw [fromArray, if_pos (by omega), deref_eq hlast, Result.ok_bind, fromElement]
    change fromArray conv nested obj endp f.name aend (fuel+1) (q+1) (of s acc) = _
    rw [fromArray, if_neg (by omega), List.append_nil]
  | cons c vs ih =>
    subst helems
    rw [List.map_cons] at hat hlast haend hsize hfuel
    rw [length_forestElems_cons] at hlast haend hsize hfuel
    have hpos := spanOf_pos (jsonOf c f.subschema)
    obtain ⟨fuel, rfl⟩ : ∃ n, fuel = n+1 := Nat.exists_eq_add_one.2 (by omega)
    obtain ⟨t, ht, htsize, hrest⟩ := hat.value (by omega)
    obtain ⟨c', hsame, hread⟩ := hvs c List.mem_cons_self q endp _ t hat ht (by omega) (by omega)
    rw [← Nat.add_assoc] at hlast
    obtain ⟨vs', hall, hloop⟩ := ih (fun d hd => hvs d (List.mem_cons_of_mem c hd)) rfl hrest hlast
      (by omega) (by omega) (by omega : _+1 < fuel)
    refine ⟨c' :: vs', .cons hsame hall, fun acc => ?_⟩
    rw [fromArray, if_pos (by omega), deref_eq ht, Result.ok_bind, (hread acc).1 hboolean,
      Result.ok_bind, htsize, hloop, List.append_assoc]
    rfl

end value

/- One field of an object, and all of them. -/

section fields
variable {conv : Conversions} {nested : Nat → Nat → DynamicMessage → Result DynamicMessage}
  {obj : JSONObject} {s : MessageSchema} {cs : List MessageObject}

theorem fromField_eq {f : SchemaField} (hmem : f ∈ s.fields) (hf : Readable s f)
    (hnames : (s.fields.map (·.name)).Nodup)
    (hsingle : f.repeated = false → (valuesOf f.id cs).length ≤ 1)
    (hvs : ∀ c ∈ valuesOf f.id cs,
      ComesBack conv nested obj s (spanOf (.object (objectMembers s cs))) f c)
    {p : Nat} {rest : TokenForest} (hat : At obj p (forest (.object (objectMembers s cs)) rest))
    (hsize : spanOf (.object (objectMembers s cs)) < 2^32) :
    ∃ vs', List.Forall₂ (SameValue f) (valuesOf f.id cs) vs' ∧ ∀ acc,
      fromField conv nested obj (p+spanOf (.object (objectMembers s cs))) f.name p (of s acc) =
        .ok (of s (acc ++ vs')) := by
  have hkeys : ((objectMembers s cs).map Prod.fst).Nodup := by
    rw [keys_objectMembers]
    exact hnames.sublist (List.filter_sublist.map _)
  cases hvalues : valuesOf f.id cs with
  | nil =>
    have habsent : f.name ∉ (objectMembers s cs).map Prod.fst := by
      rw [keys_objectMembers, List.mem_map]
      intro h
      obtain ⟨g, hg, hname⟩ := h
      obtain ⟨hgmem, hgvalues⟩ := List.mem_filter.1 hg
      obtain rfl := List.inj_on_of_nodup_map hnames hgmem hmem hname
      rw [hvalues] at hgvalues
      cases hgvalues
    refine ⟨[], .nil, fun acc => ?_⟩
    rw [fromField, objectLookup_absent hat hsize (Nat.le_refl _) habsent, Result.ok_bind, if_pos rfl,
      List.append_nil]
    rfl
  | cons c vs =>
    have hmember : (f.name, if f.repeated then .array (fieldValues f cs) else
        jsonOf c f.subschema) ∈ objectMembers s cs := by
      refine List.mem_filterMap.2 ⟨f, hmem, ?_⟩
      rw [fieldValues, hvalues]
      rfl
    obtain ⟨q, after, hq, hlt, hroom, hatq⟩ := objectLookup_found hat hsize (Nat.le_refl _) hkeys hmember
    rw [hvalues] at hsingle hvs
    cases hrepeated : f.repeated with
    | false =>
      rw [hrepeated] at hroom hatq
      simp only [Bool.false_eq_true, if_false] at hroom hatq
      have hnil : vs = [] := by simpa using hsingle hrepeated
      obtain ⟨t, ht, -, -⟩ := hatq.value (by omega)
      obtain ⟨c', hsame, hread⟩ := hvs c List.mem_cons_self q _ after t hatq ht
        (Nat.le_of_lt hroom) (by omega)
      refine ⟨[c'], ?_, fun acc => ?_⟩
      · rw [hnil]
        exact .cons hsame .nil
      · rw [fromField, hq, Result.ok_bind, if_neg (by omega), deref_eq ht, Result.ok_bind]
        exact (hread acc).2
    | true =>
      rw [hrepeated] at hroom hatq
      simp only [if_true] at hroom hatq
      have hboolean : f.type ≠ .boolean := by
        intro h
        rw [hf.boolean h] at hrepeated
        cases hrepeated
      have helems : fieldValues f cs = (c :: vs).map fun c => jsonOf c f.subschema := by
        rw [fieldValues, hvalues]
      rw [spanOf_array] at hroom
      obtain ⟨hfirst, hinner, hlast, -⟩ := hatq.node
      have hcell := @size_cell (.opens .array) ((forestElems (fieldValues f cs)).spans.length+2)
        (by omega)
      have haend : min (p+spanOf (.object (objectMembers s cs)))
          (q+((forestElems (fieldValues f cs)).spans.length+2)) =
            q+1+(forestElems (fieldValues f cs)).spans.length+1 := by omega
      have hturns : q+1+(forestElems (fieldValues f cs)).spans.length+1-q+1 =
          (forestElems (fieldValues f cs)).spans.length+3 := by omega
      obtain ⟨vs', hall, hloop⟩ := fromArray_values hboolean (Nat.le_of_lt hsize) hvs helems hinner
        hlast rfl (by omega : _ ≤ p+spanOf (.object (objectMembers s cs))) (by omega)
        (by omega : _ < (forestElems (fieldValues f cs)).spans.length+3)
      refine ⟨vs', hall, fun acc => ?_⟩
      rw [← hturns, ← haend, ← hcell] at hloop
      rw [fromField, hq, Result.ok_bind, if_neg (by omega), deref_eq hfirst, Result.ok_bind]
      exact hloop acc

theorem id_of_forall₂ {f : SchemaField} {vs vs' : List MessageObject}
    (h : List.Forall₂ (SameValue f) vs vs') : ∀ c ∈ vs', c.id = f.id := by
  induction h with
  | nil => exact List.forall_mem_nil _
  | cons hc _ ih => exact List.forall_mem_cons.2 ⟨hc.1, ih⟩

theorem eq_of_forall₂ {f : SchemaField} (hobject : f.type ≠ .object) {vs vs' : List MessageObject}
    (h : List.Forall₂ (SameValue f) vs vs') : vs' = vs := by
  induction h with
  | nil => rfl
  | cons hc _ ih => rw [hc.2.1 hobject, ih]

theorem valuesOf_of_id {id id' : UInt32} {vs : List MessageObject} (h : ∀ c ∈ vs, c.id = id) :
    valuesOf id' vs = if id = id' then vs else [] := by
  unfold valuesOf
  split
  · next hid => exact List.filter_eq_self.2 fun c hc => by simp [h c hc, hid]
  · next hid => exact List.filter_eq_nil_iff.2 fun c hc => by simp [h c hc, hid]

theorem valuesOf_append (id : UInt32) (cs ds : List MessageObject) :
    valuesOf id (cs ++ ds) = valuesOf id cs ++ valuesOf id ds :=
  List.filter_append ..

/-- The values of the fields come one after the other. -/
theorem foldlM_fields {step : DynamicMessage → SchemaField → Result DynamicMessage}
    {fs : List SchemaField} (hids : (fs.map (·.id)).Nodup)
    (hstep : ∀ f ∈ fs, ∃ vs', List.Forall₂ (SameValue f) (valuesOf f.id cs) vs' ∧
      ∀ acc, step (of s acc) f = .ok (of s (acc ++ vs'))) :
    ∃ cs', (∀ acc, fs.foldlM step (of s acc) = .ok (of s (acc ++ cs'))) ∧
      (∀ c ∈ cs', c.id ∈ fs.map (·.id)) ∧
      ∀ f ∈ fs, List.Forall₂ (SameValue f) (valuesOf f.id cs) (valuesOf f.id cs') := by
  induction fs with
  | nil =>
    refine ⟨[], fun acc => ?_, List.forall_mem_nil _, List.forall_mem_nil _⟩
    rw [List.foldlM_nil, List.append_nil]
    rfl
  | cons f fs ih =>
    rw [List.map_cons, List.nodup_cons] at hids
    obtain ⟨vs', hall, hvs⟩ := hstep f List.mem_cons_self
    obtain ⟨cs', hloop, hmem, hsame⟩ := ih hids.2 fun g hg => hstep g (List.mem_cons_of_mem f hg)
    have hid := id_of_forall₂ hall
    refine ⟨vs' ++ cs', fun acc => ?_, fun c hc => ?_, List.forall_mem_cons.2 ⟨?_, fun g hg => ?_⟩⟩
    · rw [List.foldlM_cons, hvs, Result.ok_bind, hloop, List.append_assoc]
    · rw [List.map_cons, List.mem_cons]
      cases List.mem_append.1 hc with
      | inl h => exact .inl (hid c h)
      | inr h => exact .inr (hmem c h)
    · have hrest : valuesOf f.id cs' = [] := by
        refine List.filter_eq_nil_iff.2 fun c hc h => hids.1 ?_
        rw [← beq_iff_eq.1 h]
        exact hmem c hc
      rw [valuesOf_append, valuesOf_of_id hid, if_pos rfl, hrest, List.append_nil]
      exact hall
    · have hne : f.id ≠ g.id := by
        intro h
        have hmem : g.id ∈ fs.map (·.id) := List.mem_map_of_mem hg
        exact hids.1 (h ▸ hmem)
      rw [valuesOf_append, valuesOf_of_id hid, if_neg hne, List.nil_append]
      exact hsame g hg

end fields

theorem sameValues_of_forall₂ {s : MessageSchema} {cs cs' : List MessageObject}
    (h : ∀ f ∈ s.fields, List.Forall₂ (SameValue f) (valuesOf f.id cs) (valuesOf f.id cs'))
    (id id' : UInt32) : SameValues s (.object id cs) (.object id' cs') := by
  constructor
  · exact fun f hf hobject => eq_of_forall₂ hobject (h f hf)
  · exact fun f hf => (h f hf).length_eq.symm
  · intro f hf hobject t ht i c c' hc hc'
    obtain ⟨hi, rfl⟩ := List.getElem?_eq_some_iff.1 hc
    obtain ⟨hi', rfl⟩ := List.getElem?_eq_some_iff.1 hc'
    exact ((h f hf).get hi hi').2.2 hobject t ht

/-- Reading an object of the schema where its tokens stand. -/
theorem fromJSON_object {P : SchemaField → Prop}
    (hP : ∀ f, P f → f.type ≠ .object → f.id ≠ 0) (conv : Conversions) {s : MessageSchema}
    {m : MessageObject} (hm : Fits s m) (hs : s.Printable P) :
    ∀ (fuel : Nat) (obj : JSONObject) (p : Nat) (rest : TokenForest),
      At obj p (forest (jsonOf m s) rest) → spanOf (jsonOf m s) < 2^32 →
      spanOf (jsonOf m s) ≤ fuel →
      ∃ cs', fromJSON conv obj fuel p (p+spanOf (jsonOf m s)) (.new (some s)) = .ok (of s cs') ∧
        ∀ i, SameValues s m (.object i cs') := by
  induction hm with
  | @mk s id cs hcount hknown hsingle hstrings hnested ih =>
    obtain ⟨hfields, htypes, hnames, hids, hplain, hmaps, hsub⟩ := hs
    intro fuel obj p rest hat hsize hfuel
    rw [jsonOf, membersOf_eq hids] at hat hsize hfuel ⊢
    have hpos := spanOf_pos (.object (objectMembers s cs))
    obtain ⟨fuel, rfl⟩ : ∃ k, fuel = k+1 := Nat.exists_eq_add_one.2 (by omega)
    have hreadable : ∀ f ∈ s.fields, Readable s f := by
      intro f hf
      obtain ⟨hdouble, hdatetime, hboolean, -⟩ := htypes f hf
      exact ⟨hmaps f hf, field?_of_mem hids hf, hdouble, hdatetime, hboolean, hP f (hfields f hf)⟩
    have hvalues : ∀ f ∈ s.fields, ∀ c ∈ valuesOf f.id cs,
        ComesBack conv (fromJSON conv obj fuel) obj s (spanOf (.object (objectMembers s cs))) f
          c := by
      intro f hf c hc
      obtain ⟨hcs, hcid, htype⟩ := type_eq_of_known hids hknown hf hc
      have hread := hreadable f hf
      by_cases hobject : f.type = .object
      · cases c with
        | object i ds =>
          obtain ⟨t, ht⟩ := Option.ne_none_iff_exists'.1 ((htypes f hf).2.2.2 hobject)
          refine comesBack_object hread hobject ht (Nat.le_of_lt hsize) fun q after hatq hlt => ?_
          exact ih _ hcs f hf hcid hobject t ht (hsub f hf t ht) fuel obj q after hatq (by omega)
            (by omega)
        | boolean | string | uint32 | uint64 | double | datetime =>
          rw [hobject] at htype
          cases htype
      · exact comesBack_scalar hread hcid htype hobject
    let step (msg : DynamicMessage) (field : SchemaField) : Result DynamicMessage :=
      fromField conv (fromJSON conv obj fuel) obj (p+spanOf (.object (objectMembers s cs)))
        field.name p msg
    have hstep : ∀ f ∈ s.fields, ∃ vs', List.Forall₂ (SameValue f) (valuesOf f.id cs) vs' ∧
        ∀ acc, step (of s acc) f = .ok (of s (acc ++ vs')) := fun f hf =>
      fromField_eq hf (hreadable f hf) hnames (hsingle f hf) (hvalues f hf) hat hsize
    obtain ⟨cs', hloop, -, hsame⟩ := foldlM_fields hids hstep
    exact ⟨cs', hloop [], sameValues_of_forall₂ hsame id⟩

/-- The message is written, the text is parsed, and an empty message of the same schema reads the
same values from the tokens. -/
def RoundTrips (conv : Conversions) (s : MessageSchema) (m : MessageObject) : Prop :=
  ∃ json doc msg, toJSON ⟨some s, m⟩ {} = .ok json ∧ parseJSON json.output_ = .ok doc ∧
    fromJSONObject conv doc (.new (some s)) = .ok msg ∧ SameValues s m msg.data_

/-- The escaped name is shorter than the buffer of `printf`. -/
def NameFits (f : SchemaField) : Prop := (escapeString f.name).length < 8192

/-- The entry of the field is shorter than the buffer of `printf`, and no scalar field has the id 0,
which is that of the message itself. -/
def EntryFits (f : SchemaField) : Prop :=
  (escapeString f.name).length+4 < 8192 ∧ (f.type ≠ .object → f.id ≠ 0)

theorem roundTrips_of_entryFits (conv : Conversions) {s : MessageSchema} {m : MessageObject}
    (hs : s.Printable EntryFits) (hm : Fits s m) (hlen : spanOf (jsonOf m s) < 2^32) :
    RoundTrips conv s m := by
  have hname : ∀ f, EntryFits f → (escapeString f.name).length+4 < 8192 := fun _ h => h.1
  have hwrite := JSONEncoder.encode_layout hname hm hs m.nodes (Nat.le_refl _) {}
  have hparse := parseJSON_layout (printable_jsonOf hname hm hs)
  have hlength : (document (forest (jsonOf m s) .nil)).length = 0+spanOf (jsonOf m s) := by
    rw [length_document, Nat.zero_add]
    rfl
  have hat : At (document (forest (jsonOf m s) .nil)) 0 (forest (jsonOf m s) .nil) :=
    ⟨[], (List.append_nil _).symm⟩
  obtain ⟨cs', hread, hsame⟩ := fromJSON_object (fun _ h => h.2) conv hm hs
    ((document (forest (jsonOf m s) .nil)).length+1) _ 0 .nil hat hlen (by omega)
  rw [← hlength] at hread
  exact ⟨_, _, _, hwrite, hparse, hread, hsame 0⟩

/- A list of parts, whose name is written with an escape, and a number of 64 bits. -/
def partFields : List SchemaField :=
  [⟨300, lit "te\"xt", .string, 80, false, false, .bitpack, none⟩,
    ⟨2, lit "ok", .boolean, 0, false, false, .none, none⟩]

def listFields : List SchemaField :=
  [⟨1, lit "seq", .uint64, 0, true, false, .leb128, none⟩,
    ⟨2, lit "part", .object, 0, true, false, .none, some (.new (lit "part") partFields)⟩]

def listMessage : MessageObject :=
  .object 0 [.object 2 [.string 300 (lit "a\nb\\"), .boolean 2 true],
    .uint64 1 (UInt64.ofNat (2^63+5)), .object 2 [.boolean 2 false], .uint64 1 12]

theorem partFields_printable : (MessageSchema.new (lit "part") partFields).Printable EntryFits := by
  refine .new ?_ ?_ (by decide) (by decide) (by decide +kernel) ?_
  · simp only [partFields, List.forall_mem_cons, EntryFits]
    decide
  · simp [partFields]
  · simp [partFields]

theorem listFields_printable : (MessageSchema.new (lit "list") listFields).Printable EntryFits := by
  refine .new ?_ ?_ (by decide) (by decide) (by decide +kernel) ?_
  · simp only [listFields, List.forall_mem_cons, EntryFits]
    decide
  · simp [listFields]
  · intro f hf t ht
    simp only [listFields, List.mem_cons, List.not_mem_nil, or_false] at hf
    obtain rfl | rfl := hf
    · cases ht
    · cases ht
      exact partFields_printable

theorem part_fits {id : UInt32} {cs : List MessageObject} (hcount : cs.length ≤ 2^31)
    (hknown : ∀ c ∈ cs, ∃ f ∈ partFields, c.id = f.id ∧ c.type = f.type)
    (hsingle : ∀ f ∈ partFields, (valuesOf f.id cs).length ≤ 1)
    (hstrings : ∀ i value, .string i value ∈ cs → ReadBack value) :
    Fits (.new (lit "part") partFields) (.object id cs) := by
  have hfields := MessageSchema.new_fields (lit "part") partFields
  refine .mk hcount ?_ ?_ hstrings ?_
  · rwa [hfields]
  · rw [hfields]
    exact fun f hf _ => hsingle f hf
  · rw [hfields]
    simp [partFields]

theorem listMessage_fits : Fits (.new (lit "list") listFields) listMessage := by
  have hfields := MessageSchema.new_fields (lit "list") listFields
  refine .mk (by decide) ?_ ?_ ?_ ?_
  · rw [hfields]
    simp [listFields, MessageObject.id, MessageObject.type]
  · rw [hfields]
    simp [listFields]
  · simp
  · rw [hfields]
    intro c hc f hf hid hobject t ht
    simp only [listFields, List.mem_cons, List.not_mem_nil, or_false] at hf
    obtain rfl | rfl := hf
    · cases ht
    · cases ht
      simp only [List.mem_cons, List.not_mem_nil, or_false] at hc
      obtain rfl | rfl | rfl | rfl := hc
      · refine part_fits (by decide) ?_ (by decide) ?_
        · simp [partFields, MessageObject.id, MessageObject.type]
        · simp only [List.mem_cons, MessageObject.string.injEq]
          rintro i value (⟨-, rfl⟩ | h | h)
          · exact ⟨by decide, by decide +kernel⟩
          · cases h
          · cases h
      · exact absurd hid (by decide)
      · refine part_fits (by decide) ?_ (by decide) ?_
        · simp [partFields, MessageObject.id, MessageObject.type]
        · simp
      · exact absurd hid (by decide)

theorem listMessage_roundTrips :
    RoundTrips ⟨fun _ => none, fun _ => none⟩ (.new (lit "list") listFields)
      listMessage :=
  roundTrips_of_entryFits _ listFields_printable listMessage_fits (by decide +kernel)

/-- One UINT32 field with the id of the message itself. -/
def zeroSchema : MessageSchema :=
  .new (lit "zero") [⟨0, lit "n", .uint32, 0, false, false, .none, none⟩]

def zeroMessage : MessageObject := .object 0 [.uint32 0 7]

theorem zeroSchema_printable : zeroSchema.Printable NameFits := by
  refine .new ?_ ?_ (by decide) (by decide) (by decide +kernel) ?_
  · simp only [List.forall_mem_cons, NameFits]
    decide
  · simp
  · simp

theorem zeroMessage_fits : Fits zeroSchema zeroMessage := by
  refine .mk (by decide) ?_ ?_ ?_ ?_
  · simp [zeroSchema, MessageSchema.new_fields, MessageObject.id, MessageObject.type]
  · simp [zeroSchema, MessageSchema.new_fields, valuesOf, MessageObject.id]
  · simp
  · simp [zeroSchema, MessageSchema.new_fields]

theorem zero_not_roundTrips :
    ¬∀ conv s m, MessageSchema.Printable NameFits s → Fits s m → spanOf (jsonOf m s) < 2^32 →
      RoundTrips conv s m := by
  intro h
  have conv : Conversions := ⟨fun _ => none, fun _ => none⟩
  obtain ⟨json, doc, msg, hwrite, hparse, hread, hsame⟩ :=
    h conv zeroSchema zeroMessage zeroSchema_printable zeroMessage_fits (by decide +kernel)
  have htext : toJSON ⟨some zeroSchema, zeroMessage⟩ {} =
      .ok { output_ := lit "\x7b\"n\": 7\x7d" } := rfl
  cases hwrite.symm.trans htext
  have hdoc : parseJSON (lit "\x7b\"n\": 7\x7d") =
      .ok (document (forest (.object [(lit "n", .number (lit "7"))]) .nil)) := by
    decide +kernel
  cases hparse.symm.trans hdoc
  have hnone : fromJSONObject conv (document (forest (.object [(lit "n", .number (lit "7"))]) .nil))
      (.new (some zeroSchema)) = .ok (.new (some zeroSchema)) := rfl
  cases hread.symm.trans hnone
  cases hsame with
  | mk scalars count objects =>
    have hcount := count ⟨0, lit "n", .uint32, 0, false, false, .none, none⟩ List.mem_cons_self
    cases hcount

end DynamicMessage
end Stx.Msg
