import Stx.Protobuf.JSONEncoder
import Stx.Json.JSONOutputStream.Layout

/-! The text of a message. The encoder appends it to what a stream holds, whatever that is, and
raises where there is none. -/
namespace Stx.Msg
open Json
open StringUtil (toStringInt toStringDouble)

def valuesOf (id : UInt32) (cs : List MessageObject) : List MessageObject :=
  cs.filter fun c => c.id == id

namespace JSONEncoder

/-- The values that the encoder finds, those among the first 2^31 children. -/
def seen (id : UInt32) (cs : List MessageObject) : List MessageObject := valuesOf id (cs.take (2^31))

/-- The texts of some things, in their order. -/
def textsOf {α : Type} (text : α → Result Bytes) : List α → Result (List Bytes)
  | [] => .ok []
  | x :: xs => do
    let w ← text x
    let ws ← textsOf text xs
    pure (w :: ws)

section texts
variable (object : MessageObject → MessageSchema → Result Bytes)

def floatText (value : UInt64) : Result Bytes :=
  if Libc.isnormal value then toStringDouble value else .ok (lit "null")

def entryText (key : Bytes) : Result Bytes := do
  let json ← JSONOutputStream.addObjectEntry key {}
  pure json.output_

/-- The text of a value of the field. -/
def valueText (f : SchemaField) (c : MessageObject) : Result Bytes :=
  match f.type with
  | .object => do
    let schema ← MessageSchema.deref f.schema
    object c schema
  | .boolean => do
    let value ← c.asBool
    pure (if value then lit "true" else lit "false")
  | .string => do
    let value ← c.asString
    pure (quoted value)
  | .uint32 => do
    let value ← c.asUInt32
    pure (toStringInt value.toNat)
  | .uint64 => do
    let value ← c.asUInt64
    pure (toStringInt (toInt64 value))
  | .datetime => do
    let value ← c.asUnixTime
    pure (toStringInt (toInt64 value))
  | .double => do
    let value ← c.asDouble
    floatText value

/-- The values of a field, in brackets when it is repeated. -/
def bracketed (f : SchemaField) (ws : List Bytes) : Bytes :=
  if f.repeated then 91 :: (commas 0 ws ++ [93]) else commas 0 ws

def memberText (cs : List MessageObject) (f : SchemaField) : Result Bytes := do
  let key ← entryText f.name
  let ws ← textsOf (valueText object f) (seen f.id cs)
  pure (key ++ bracketed f ws)

end texts

/-- The fields of which the encoder finds a value. -/
def written (fields : List SchemaField) (cs : List MessageObject) : List SchemaField :=
  fields.filter fun f => !(seen f.id cs).isEmpty

/-- The fuel is for the depth of the message, as in `encode`. -/
def messageText : Nat → MessageObject → MessageSchema → Result Bytes
  | 0, _, _ => .diverge
  | fuel+1, m, s => do
    let cs ← m.asObject
    let ws ← textsOf (memberText (messageText fuel) cs) (written s.fields cs)
    pure (123 :: (commas 0 ws ++ [125]))

theorem textsOf_eq_ok {α : Type} {text : α → Result Bytes} {xs : List α} {ws : List Bytes} :
    textsOf text xs = .ok ws ↔ List.Forall₂ (fun x w => text x = .ok w) xs ws := by
  induction xs generalizing ws with
  | nil =>
    rw [textsOf, List.forall₂_nil_left_iff, Result.ok.injEq]
    exact eq_comm
  | cons x xs ih =>
    rw [textsOf, List.forall₂_cons_left_iff]
    constructor
    · intro h
      obtain ⟨w, hw, h⟩ := Result.bind_eq_ok h
      obtain ⟨ws', hws, h⟩ := Result.bind_eq_ok h
      cases h
      exact ⟨w, ws', hw, ih.1 hws, rfl⟩
    · rintro ⟨w, ws', hw, hws, rfl⟩
      rw [hw, Result.ok_bind, ih.2 hws]
      rfl

/-- What is appended to any stream, unless there is an exception. -/
def Appends (x : JSONOutputStream → Result JSONOutputStream) (text : Result Bytes) : Prop :=
  ∀ json, x json = text >>= fun w => .ok (json.put w)

theorem entryText_eq_ok {key w : Bytes} :
    entryText key = .ok w ↔ (escapeString key).length+4 < 8192 ∧ w = entry key := by
  have hlen : (entry key).length = (escapeString key).length+4 := by
    rw [entry, List.length_cons, List.length_append]
    rfl
  constructor
  · intro h
    obtain ⟨json, hjson, h⟩ := Result.bind_eq_ok h
    have hshort : (escapeString key).length+4 < 8192 := by
      by_contra hlong
      rw [JSONOutputStream.addObjectEntry, JSONOutputStream.printf] at hjson
      change (if 2^31 ≤ (entry key).length then _ else if (entry key).length < 8192 then _ else _) =
        Result.ok json at hjson
      rw [if_neg (by omega : ¬(entry key).length < 8192)] at hjson
      split at hjson <;> cases hjson
    rw [JSONOutputStream.addObjectEntry_eq hshort] at hjson
    cases hjson
    cases h
    exact ⟨hshort, rfl⟩
  · rintro ⟨hshort, rfl⟩
    rw [entryText, JSONOutputStream.addObjectEntry_eq hshort]
    rfl

theorem appends_addObjectEntry (key : Bytes) :
    Appends (JSONOutputStream.addObjectEntry key) (entryText key) := by
  intro json
  simp only [entryText, JSONOutputStream.addObjectEntry, JSONOutputStream.printf]
  split
  · rfl
  · split <;> rfl

theorem appends_addFloat (value : UInt64) :
    Appends (JSONOutputStream.addFloat value) (floatText value) := by
  intro json
  rw [JSONOutputStream.addFloat, floatText]
  split <;> rfl

section encoder
variable {enc : MessageObject → MessageSchema → JSONOutputStream → Result JSONOutputStream}
  {object : MessageObject → MessageSchema → Result Bytes}

theorem appends_encodeField (h : ∀ c t, Appends (enc c t) (object c t)) (c : MessageObject)
    (f : SchemaField) : Appends (encodeField enc c f) (valueText object f c) := by
  intro json
  rw [encodeField, valueText]
  cases f.type with
  | object =>
    cases MessageSchema.deref f.schema with
    | ok schema => exact h c schema json
    | raise e => rfl
    | diverge => rfl
  | boolean =>
    cases c.asBool with
    | ok value => cases value <;> rfl
    | raise e => rfl
    | diverge => rfl
  | double =>
    cases c.asDouble with
    | ok value => exact appends_addFloat value json
    | raise e => rfl
    | diverge => rfl
  | string => cases c.asString <;> rfl
  | uint32 => cases c.asUInt32 <;> rfl
  | uint64 => cases c.asUInt64 <;> rfl
  | datetime => cases c.asUnixTime <;> rfl

theorem addComma_eq (n : Nat) (json : JSONOutputStream) :
    (if n+1 > 1 then json.addComma else json) = json.put (if n > 0 then [44] else []) := by
  cases n with
  | zero => exact (JSONOutputStream.put_nil json).symm
  | succ n => rfl

theorem appends_encodeValues (h : ∀ c t, Appends (enc c t) (object c t))
    {fields vs : List MessageObject} (f : SchemaField) {idxs : List Nat}
    (hidxs : idxs.map (fun i => fields[i]?) = vs.map some) (i : Nat) :
    Appends (encodeValues enc fields f i idxs)
      (textsOf (valueText object f) vs >>= fun ws => .ok (commas i ws)) := by
  induction idxs generalizing vs i with
  | nil =>
    cases vs with
    | nil => exact fun json => congrArg Result.ok (JSONOutputStream.put_nil json).symm
    | cons c vs => cases hidxs
  | cons idx idxs ih =>
    cases vs with
    | nil => cases hidxs
    | cons c vs =>
      intro json
      rw [List.map_cons, List.map_cons, List.cons.injEq] at hidxs
      have hvalue := appends_encodeField h c f
      have htail := ih hidxs.2 (i+1)
      rw [encodeValues, hidxs.1, textsOf]
      simp only [addComma_eq, hvalue _]
      cases valueText object f c with
      | raise e => rfl
      | diverge => rfl
      | ok w =>
        simp only [Result.ok_bind, htail _]
        cases textsOf (valueText object f) vs with
        | raise e => rfl
        | diverge => rfl
        | ok ws => simp [commas]

theorem map_indexes (id : UInt32) (cs : List MessageObject) :
    (indexes id cs).map (fun i => cs[i]?) = (seen id cs).map some := by
  have hrange : (List.range (min cs.length (2^31))).map (fun i => cs[i]?) =
      (cs.take (2^31)).map some := by
    refine List.ext_getElem (by simp [Nat.min_comm]) fun i hi _ => ?_
    rw [List.length_map, List.length_range] at hi
    have hlt : i < cs.length := by omega
    simp [hlt]
  rw [indexes, seen, valuesOf]
  change ((List.range (min cs.length (2^31))).filter
    ((fun c => c.any fun c => c.id == id) ∘ (cs[·]?))).map _ = _
  rw [← List.filter_map, hrange, List.filter_map]
  rfl

theorem isEmpty_indexes (id : UInt32) (cs : List MessageObject) :
    (indexes id cs).isEmpty = (seen id cs).isEmpty := by
  have hlen := congrArg List.length (map_indexes id cs)
  rw [List.length_map, List.length_map] at hlen
  rw [Bool.eq_iff_iff, List.isEmpty_iff_length_eq_zero, List.isEmpty_iff_length_eq_zero, hlen]

theorem written_cons (f : SchemaField) (fs : List SchemaField) (cs : List MessageObject) :
    written (f :: fs) cs =
      if (seen f.id cs).isEmpty then written fs cs else f :: written fs cs := by
  rw [written, List.filter_cons]
  cases (seen f.id cs).isEmpty <;> rfl

theorem appends_encodeFields (h : ∀ c t, Appends (enc c t) (object c t)) (cs : List MessageObject)
    (fs : List SchemaField) (n : Nat) :
    Appends (encodeFields enc cs n fs)
      (textsOf (memberText object cs) (written fs cs) >>= fun ws => .ok (commas n ws)) := by
  induction fs generalizing n with
  | nil => exact fun json => congrArg Result.ok (JSONOutputStream.put_nil json).symm
  | cons f fs ih =>
    intro json
    have hentry := appends_addObjectEntry f.name
    have hvalues := appends_encodeValues h f (map_indexes f.id cs) 0
    rw [encodeFields, isEmpty_indexes, written_cons]
    cases (seen f.id cs).isEmpty with
    | true => exact ih n json
    | false =>
      have htail := ih (n+1)
      simp only [Bool.false_eq_true, if_false, textsOf, memberText, addComma_eq, hentry _]
      cases entryText f.name with
      | raise e => rfl
      | diverge => rfl
      | ok key =>
        simp only [Result.ok_bind, hvalues _]
        cases textsOf (valueText object f) (seen f.id cs) with
        | raise e => rfl
        | diverge => rfl
        | ok ws =>
          simp only [Result.ok_bind, Result.pure_eq, htail _]
          cases textsOf (memberText object cs) (written fs cs) with
          | raise e => rfl
          | diverge => rfl
          | ok texts =>
            have hopen : lit "[" = [91] := rfl
            have hclose : lit "]" = [93] := rfl
            cases hrepeated : f.repeated <;>
              simp [commas, bracketed, hrepeated, JSONOutputStream.beginArray,
                JSONOutputStream.endArray, hopen, hclose]

end encoder

theorem appends_encode (fuel : Nat) (m : MessageObject) (s : MessageSchema) :
    Appends (encode fuel m s) (messageText fuel m s) := by
  induction fuel generalizing m s with
  | zero => exact fun json => rfl
  | succ fuel ih =>
    intro json
    rw [encode, messageText]
    cases m.asObject with
    | raise e => rfl
    | diverge => rfl
    | ok cs =>
      have hfields := appends_encodeFields ih cs s.fields 0 json.beginObject
      rw [Result.ok_bind, Result.ok_bind, hfields]
      cases textsOf (memberText (messageText fuel) cs) (written s.fields cs) with
      | raise e => rfl
      | diverge => rfl
      | ok ws =>
        have hopen : lit "\x7b" = [123] := rfl
        have hclose : lit "\x7d" = [125] := rfl
        simp [JSONOutputStream.beginObject, JSONOutputStream.endObject, hopen, hclose]

end JSONEncoder
end Stx.Msg
