import Stx.Protobuf.DynamicMessage.ObjectTokens
import Stx.Protobuf.DynamicMessage.Trees

/-! What reading a token adds to a message: one value or none, whatever the message has already.
Read for several fields of one name, it is added as often. -/
namespace Stx.Msg.DynamicMessage
open Json

/-- The call adds these values to a message of the schema, whatever it has already. -/
def AddsTo (s : MessageSchema) (x : DynamicMessage → Result DynamicMessage)
    (cs : List MessageObject) : Prop :=
  ∀ i acc, x ⟨some s, .object i acc⟩ = .ok ⟨some s, .object i (acc ++ cs)⟩

/-- The call adds one value or none, or it does not return. -/
def AddsOne (s : MessageSchema) (x : DynamicMessage → Result DynamicMessage) : Prop :=
  (∃ o : Option MessageObject, AddsTo s x o.toList) ∨
    ∀ i acc msg, x ⟨some s, .object i acc⟩ ≠ .ok msg

section
variable {conv : Conversions} {s : MessageSchema} {name : Bytes}
  {x : DynamicMessage → Result DynamicMessage} {cs cs' : List MessageObject}

theorem AddsTo.unique (h : AddsTo s x cs) (h' : AddsTo s x cs') : cs = cs' := by
  have hsame := (h 0 []).symm.trans (h' 0 [])
  simpa using hsame

/-- A value that a text is converted to, or none. -/
theorem addFieldId_option {id : UInt32} {type : FieldType} (hfield : s.hasField id = true)
    (htype : s.fieldType id = .ok type) (text : Bytes) :
    ∃ o : Option MessageObject, ∀ i acc, addFieldId conv ⟨some s, .object i acc⟩ id text =
      .ok (o.isSome, ⟨some s, .object i (acc ++ o.toList)⟩) := by
  have hconverted : ∀ (o : Option MessageObject) i acc,
      addConverted ⟨some s, .object i acc⟩ o =
        .ok (o.isSome, ⟨some s, .object i (acc ++ o.toList)⟩) := by
    intro o i acc
    cases o with
    | none => rw [Option.toList_none, List.append_nil]; rfl
    | some c => rfl
  cases type with
  | boolean =>
    refine ⟨(Human.parseBoolean text).map (.boolean id), fun i acc => ?_⟩
    rw [← hconverted, addFieldId, MessageSchema.deref, Result.ok_bind, hfield, htype]
    cases Human.parseBoolean text <;> rfl
  | datetime =>
    refine ⟨(conv.parseTime text).map (.datetime id), fun i acc => ?_⟩
    rw [← hconverted, addFieldId, MessageSchema.deref, Result.ok_bind, hfield, htype]
    simp only [Bool.not_true, Bool.false_eq_true, if_false, Result.ok_bind]
    cases conv.parseTime text <;> rfl
  | string =>
    refine ⟨some (.string id text), fun i acc => ?_⟩
    rw [addFieldId, MessageSchema.deref, Result.ok_bind, hfield, htype]
    rfl
  | object =>
    refine ⟨none, fun i acc => ?_⟩
    rw [← hconverted, addFieldId, MessageSchema.deref, Result.ok_bind, hfield, htype]
    rfl
  | uint32 =>
    refine ⟨(stoull text).map fun v => .uint32 id v.toUInt32, fun i acc => ?_⟩
    rw [← hconverted, addFieldId, MessageSchema.deref, Result.ok_bind, hfield, htype]
    rfl
  | uint64 =>
    refine ⟨(stoull text).map fun v => .uint64 id v, fun i acc => ?_⟩
    rw [← hconverted, addFieldId, MessageSchema.deref, Result.ok_bind, hfield, htype]
    rfl
  | double =>
    refine ⟨(conv.stod text).map fun v => .double id v, fun i acc => ?_⟩
    rw [← hconverted, addFieldId, MessageSchema.deref, Result.ok_bind, hfield, htype]
    rfl

theorem readText_addsOne (text : Bytes) : AddsOne s (readText conv text name) := by
  cases hname : s.hasFieldName name with
  | false =>
    refine .inl ⟨none, fun i acc => ?_⟩
    rw [readText, addField, MessageSchema.deref, Result.ok_bind, hname, Option.toList_none,
      List.append_nil]
    rfl
  | true =>
    obtain ⟨id, hid⟩ := fieldId_of_hasFieldName hname
    have hread : ∀ i acc, readText conv text name ⟨some s, .object i acc⟩ =
        (addFieldId conv ⟨some s, .object i acc⟩ id text >>= fun y => .ok y.2) := by
      intro i acc
      rw [readText, addField, MessageSchema.deref, Result.ok_bind, hname, hid]
      rfl
    cases hfield : s.hasField id with
    | false =>
      refine .inl ⟨none, fun i acc => ?_⟩
      rw [hread, addFieldId, MessageSchema.deref, Result.ok_bind, hfield, Option.toList_none,
        List.append_nil]
      rfl
    | true =>
      cases htype : s.fieldType id with
      | raise e | diverge =>
        refine .inr fun i acc msg h => ?_
        rw [hread, addFieldId, MessageSchema.deref, Result.ok_bind, hfield, htype] at h
        cases h
      | ok type =>
        obtain ⟨o, ho⟩ := @addFieldId_option conv s id type hfield htype text
        exact .inl ⟨o, fun i acc => by rw [hread, ho, Result.ok_bind]⟩

/-- An object is a value for a field of objects, and its text is none for that. -/
theorem readObject_addsOne (hconv : Refuses conv [])
    (nested : DynamicMessage → Result DynamicMessage) :
    AddsOne s (readObject conv nested name) := by
  have hskip : (∀ i acc, addObject ⟨some s, .object i acc⟩ name nested =
      .ok (false, ⟨some s, .object i acc⟩)) → AddsOne s (readObject conv nested name) := by
    intro hobject
    have hread : ∀ i acc, readObject conv nested name ⟨some s, .object i acc⟩ =
        readText conv [] name ⟨some s, .object i acc⟩ := by
      intro i acc
      rw [readObject, hobject, Result.ok_bind]
    obtain ⟨o, ho⟩ | hnone := @readText_addsOne conv s name []
    · exact .inl ⟨o, fun i acc => (hread i acc).trans (ho i acc)⟩
    · exact .inr fun i acc msg h => hnone i acc msg ((hread i acc).symm.trans h)
  cases hname : s.hasFieldName name with
  | false =>
    refine hskip fun i acc => ?_
    rw [addObject, MessageSchema.deref, Result.ok_bind, hname]
    rfl
  | true =>
    obtain ⟨id, hid⟩ := fieldId_of_hasFieldName hname
    cases htype : s.fieldType id with
    | raise e | diverge =>
      refine .inr fun i acc msg h => ?_
      rw [readObject, addObject, MessageSchema.deref, Result.ok_bind, hname, hid, Result.ok_bind,
        htype] at h
      cases h
    | ok type =>
      have htyped : Typed s name id type := ⟨hid, htype⟩
      by_cases hobject : type = .object
      · subst hobject
        have hadds : ∀ i acc, addObject ⟨some s, .object i acc⟩ name nested =
            (s.fieldSchema id >>= fun sub => nested (.new sub) >>= fun submsg =>
              .ok (true, ⟨some s, .object i (acc ++ [submsg.data_.setId id])⟩)) := by
          intro i acc
          rw [addObject, MessageSchema.deref, Result.ok_bind, hname, hid, Result.ok_bind, htype]
          rfl
        cases hsub : s.fieldSchema id with
        | raise e | diverge =>
          refine .inr fun i acc msg h => ?_
          rw [readObject, hadds, hsub] at h
          cases h
        | ok sub =>
          cases hsubmsg : nested (.new sub) with
          | raise e | diverge =>
            refine .inr fun i acc msg h => ?_
            rw [readObject, hadds, hsub, Result.ok_bind, hsubmsg] at h
            cases h
          | ok submsg =>
            refine .inl ⟨some (submsg.data_.setId id), fun i acc => ?_⟩
            rw [readObject, hadds, hsub, Result.ok_bind, hsubmsg, Result.ok_bind, Result.ok_bind]
            change (addField conv _ name [] >>= fun y => .ok y.2) = _
            rw [addField_empty hconv htyped (by decide) _ rfl]
            rfl
      · exact hskip fun i acc => addObject_other htyped hobject nested _ rfl

/-- A string, a number, `true`, `false` or an object. -/
def IsToken : JSONValue → Prop
  | .array _ => False
  | .null => False
  | _ => True

theorem readMember_addsOne (hconv : Refuses conv []) {t : JSONValue} (htoken : IsToken t) :
    AddsOne s (readMember conv t name) := by
  cases t with
  | array elems => cases htoken
  | null => cases htoken
  | string text | number text => exact readText_addsOne text
  | true | false => exact readText_addsOne _
  | object members => exact readObject_addsOne hconv _

/- Several fields of one name. -/

theorem AddsTo.foldlM {α : Type} (h : AddsTo s x cs) (fs : List α) :
    AddsTo s (fun msg => fs.foldlM (fun msg _ => x msg) msg)
      (List.replicate fs.length cs).flatten := by
  induction fs with
  | nil =>
    intro i acc
    change Result.ok _ = _
    rw [List.length_nil, List.replicate_zero, List.flatten_nil, List.append_nil]
  | cons a fs ih =>
    intro i acc
    have hrest := ih i (acc ++ cs)
    rw [List.length_cons, List.replicate_succ, List.flatten_cons, ← List.append_assoc, ← hrest]
    change (x _ >>= _) = _
    rw [h i acc, Result.ok_bind]

/-- What is added for all of the fields is what is added for one of them, again and again. -/
theorem AddsOne.of_foldlM {α : Type} (hx : AddsOne s x) {fs : List α} (hfs : fs ≠ [])
    (h : AddsTo s (fun msg => fs.foldlM (fun msg _ => x msg) msg) cs) :
    ∃ o : Option MessageObject, AddsTo s x o.toList ∧
      cs = (List.replicate fs.length o.toList).flatten := by
  obtain ⟨o, ho⟩ | hnone := hx
  · exact ⟨o, ho, h.unique (ho.foldlM fs)⟩
  · cases fs with
    | nil => exact absurd rfl hfs
    | cons a fs =>
      have hread := h 0 []
      change (x _ >>= _) = _ at hread
      obtain ⟨msg, hmsg, -⟩ := Result.bind_eq_ok hread
      exact absurd hmsg (hnone 0 [] msg)

end

section lists
variable {α : Type} {m : Nat}

theorem getElem?_flatMap_replicate (hm : 0 < m) (w : List α) (j : Nat) :
    (w.flatMap (List.replicate m))[j]? = w[j/m]? := by
  induction w generalizing j with
  | nil => rfl
  | cons a w ih =>
    rw [List.flatMap_cons, List.getElem?_append, List.length_replicate]
    by_cases hj : j < m
    · rw [if_pos hj, Nat.div_eq_of_lt hj, List.getElem?_replicate_of_lt hj]
      rfl
    · rw [if_neg hj, ih, Nat.div_eq_sub_div hm (Nat.not_lt.1 hj)]
      rfl

/-- A list again and again is each of its elements again and again only if they are all the same. -/
theorem flatten_replicate_eq_iff (hm : 2 ≤ m) (w : List α) :
    (List.replicate m w).flatten = w.flatMap (List.replicate m) ↔
      ∀ a ∈ w, ∀ b ∈ w, a = b := by
  constructor
  · intro h
    have hstep : ∀ j < w.length, w[j]? = w[j/m]? := by
      intro j hj
      rw [← getElem?_flatMap_replicate (by omega) w j, ← h]
      obtain ⟨n, rfl⟩ : ∃ n, m = n+1 := Nat.exists_eq_add_one.2 (by omega)
      rw [List.replicate_succ, List.flatten_cons, List.getElem?_append_left hj]
    have hfirst : ∀ j < w.length, w[j]? = w[0]? := by
      intro j
      induction j using Nat.strong_induction_on with
      | _ j ih =>
        intro hj
        by_cases hzero : j = 0
        · rw [hzero]
        · have hlt : j/m < j := Nat.div_lt_self (Nat.pos_of_ne_zero hzero) hm
          rw [hstep j hj, ih (j/m) hlt (hlt.trans hj)]
    intro a ha b hb
    obtain ⟨i, hi, rfl⟩ := List.mem_iff_getElem.1 ha
    obtain ⟨j, hj, rfl⟩ := List.mem_iff_getElem.1 hb
    have hsame := (hfirst i hi).trans (hfirst j hj).symm
    rwa [List.getElem?_eq_getElem hi, List.getElem?_eq_getElem hj, Option.some.injEq] at hsame
  · intro h
    cases w with
    | nil => simp
    | cons c w =>
      have hw : c :: w = List.replicate (c :: w).length c :=
        List.eq_replicate_of_mem fun b hb => h b hb c List.mem_cons_self
      rw [hw, List.flatten_replicate_replicate, List.flatMap_replicate,
        List.flatten_replicate_replicate, Nat.mul_comm]

end lists

end Stx.Msg.DynamicMessage
