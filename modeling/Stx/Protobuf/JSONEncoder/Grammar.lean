import Stx.Protobuf.JSONEncoder.Values
import Stx.Json.JSONOutputStream.Derivations
import Stx.Protobuf.MessageDecoder

/-! When the text of a message is a JSON object. The encoder writes the values of a field one behind
the other, whatever their number is. -/
namespace Stx.Msg.JSONEncoder
open Json Rfc8259
open StringUtil (toStringInt toStringDouble toStringDouble_of_lt toStringDouble_of_not_lt
  exists_number_toStringInt)

/-- The types of the objects that the accessor for a field of the type takes. -/
def readable : FieldType → List FieldType
  | .object => [.object]
  | .boolean => [.boolean, .uint32]
  | .uint32 => [.uint32, .uint64]
  | .string => [.string]
  | .uint64 => [.uint32, .uint64, .datetime]
  | .double => [.double]
  | .datetime => [.datetime]

/-- The value is read as one of the type, and the text of a double fits into the buffer. -/
def ScalarFits (type : FieldType) (c : MessageObject) : Prop :=
  c.type ∈ readable type ∧ ∀ id value, c = .double id value → Libc.isnormal value = true →
    (Libc.fixedNotation value).length < 128

/-- Of the fields that the encoder writes, each has one value, unless it is repeated, its entry is
shorter than the buffer of `printf`, its scalars are read, and its objects have a schema of which
the same is true. -/
inductive Encodable : MessageSchema → MessageObject → Prop
  | mk {s : MessageSchema} {id : UInt32} {cs : List MessageObject}
    (entries : ∀ f ∈ written s.fields cs, (escapeString f.name).length+4 < 8192)
    (single : ∀ f ∈ written s.fields cs, f.repeated = false → (seen f.id cs).length ≤ 1)
    (scalars : ∀ f ∈ written s.fields cs, f.type ≠ .object →
      ∀ c ∈ seen f.id cs, ScalarFits f.type c)
    (schemas : ∀ f ∈ written s.fields cs, f.type = .object → f.schema ≠ none)
    (nested : ∀ f ∈ written s.fields cs, f.type = .object → ∀ c ∈ seen f.id cs, ∀ t,
      f.schema = some t → Encodable t c) : Encodable s (.object id cs)

/- Each accessor answers for the types that are listed. -/

section accessors
variable (c : MessageObject)

theorem asBool_ok_iff : (∃ value, c.asBool = .ok value) ↔ c.type ∈ readable .boolean := by
  cases c <;> simp [MessageObject.asBool, MessageObject.type, readable, Result.RAISE]

theorem asString_ok_iff : (∃ value, c.asString = .ok value) ↔ c.type ∈ readable .string := by
  cases c <;> simp [MessageObject.asString, MessageObject.type, readable, Result.RAISE]

theorem asUInt32_ok_iff : (∃ value, c.asUInt32 = .ok value) ↔ c.type ∈ readable .uint32 := by
  cases c <;> simp [MessageObject.asUInt32, MessageObject.type, readable, Result.RAISE]

theorem asUInt64_ok_iff : (∃ value, c.asUInt64 = .ok value) ↔ c.type ∈ readable .uint64 := by
  cases c <;> simp [MessageObject.asUInt64, MessageObject.type, readable, Result.RAISE]

theorem asUnixTime_ok_iff : (∃ value, c.asUnixTime = .ok value) ↔ c.type ∈ readable .datetime := by
  cases c <;> simp [MessageObject.asUnixTime, MessageObject.type, readable, Result.RAISE]

theorem asDouble_ok_iff : (∃ value, c.asDouble = .ok value) ↔ c.type ∈ readable .double := by
  cases c <;> simp [MessageObject.asDouble, MessageObject.type, readable, Result.RAISE]

end accessors

section values
variable {object : MessageObject → MessageSchema → Result Bytes} {f : SchemaField}
  {c : MessageObject} {w : Bytes}

theorem scalarFits_of_type {type : FieldType} (h : c.type ∈ readable type) (hne : type ≠ .double) :
    ScalarFits type c := by
  refine ⟨h, fun id value hc => ?_⟩
  rw [hc] at h
  cases type <;> simp [readable, MessageObject.type] at h hne

theorem derives_integer (n : Int) : Derives (toStringInt n) fun _ => True := by
  obtain ⟨m, hm⟩ := exists_number_toStringInt n
  rw [← hm]
  exact derives_number m

theorem type_mem_readable (hobject : f.type ≠ .object) (h : valueText object f c = .ok w) :
    c.type ∈ readable f.type := by
  rw [valueText] at h
  cases htype : f.type with
  | object => exact absurd htype hobject
  | boolean =>
    rw [htype] at h
    obtain ⟨value, hvalue, -⟩ := Result.bind_eq_ok h
    exact (asBool_ok_iff c).1 ⟨value, hvalue⟩
  | string =>
    rw [htype] at h
    obtain ⟨value, hvalue, -⟩ := Result.bind_eq_ok h
    exact (asString_ok_iff c).1 ⟨value, hvalue⟩
  | uint32 =>
    rw [htype] at h
    obtain ⟨value, hvalue, -⟩ := Result.bind_eq_ok h
    exact (asUInt32_ok_iff c).1 ⟨value, hvalue⟩
  | uint64 =>
    rw [htype] at h
    obtain ⟨value, hvalue, -⟩ := Result.bind_eq_ok h
    exact (asUInt64_ok_iff c).1 ⟨value, hvalue⟩
  | datetime =>
    rw [htype] at h
    obtain ⟨value, hvalue, -⟩ := Result.bind_eq_ok h
    exact (asUnixTime_ok_iff c).1 ⟨value, hvalue⟩
  | double =>
    rw [htype] at h
    obtain ⟨value, hvalue, -⟩ := Result.bind_eq_ok h
    exact (asDouble_ok_iff c).1 ⟨value, hvalue⟩

theorem derives_float {value : UInt64} (h : floatText value = .ok w) :
    Derives w fun _ => Libc.isnormal value = true → (Libc.fixedNotation value).length < 128 := by
  rw [floatText] at h
  split at h
  · next hnormal =>
    by_cases hlen : (Libc.fixedNotation value).length < 128
    · obtain ⟨n, hn⟩ := toStringDouble_of_lt hnormal hlen
      cases hn.symm.trans h
      exact (derives_number n).imp fun _ _ _ => hlen
    · obtain ⟨d, x, rfl, hd, hx⟩ := toStringDouble_of_not_lt hnormal hlen h
      exact (derives_cutNumber hd hx).imp fun _ hfalse => hfalse.elim
  · next hnormal =>
    cases h
    exact derives_null.imp fun _ _ hvalue => absurd hvalue hnormal

theorem derives_scalar (hobject : f.type ≠ .object) (h : valueText object f c = .ok w) :
    Derives w fun _ => ScalarFits f.type c := by
  have hread := type_mem_readable hobject h
  by_cases hdouble : f.type = .double
  · rw [valueText, hdouble] at h
    obtain ⟨value, hvalue, h⟩ := Result.bind_eq_ok h
    refine (derives_float h).imp fun _ hlen => ⟨hread, fun id v hc => ?_⟩
    rw [hc] at hvalue
    cases hvalue
    exact hlen
  · have hfits := scalarFits_of_type hread hdouble
    have hvalue : Derives w fun _ => True := by
      rw [valueText] at h
      cases htype : f.type with
      | object => exact absurd htype hobject
      | double => exact absurd htype hdouble
      | boolean =>
        rw [htype] at h
        obtain ⟨value, -, h⟩ := Result.bind_eq_ok h
        cases h
        cases value with
        | true => exact derives_true
        | false => exact derives_false
      | string =>
        rw [htype] at h
        obtain ⟨value, -, h⟩ := Result.bind_eq_ok h
        cases h
        exact derives_quoted value
      | uint32 | uint64 | datetime =>
        rw [htype] at h
        obtain ⟨value, -, h⟩ := Result.bind_eq_ok h
        cases h
        exact derives_integer _
    exact hvalue.imp fun _ _ => hfits

/- The texts of scalars that fit are those of values. -/

theorem exists_number (n : Number) : ∃ u, Spells (terminals u) n.text [] := by
  refine ⟨.number n, ?_⟩
  rw [terminals]
  exact spells_text (.number n)

theorem exists_integer (n : Int) : ∃ u, Spells (terminals u) (toStringInt n) [] := by
  obtain ⟨m, hm⟩ := exists_number_toStringInt n
  rw [← hm]
  exact exists_number m

theorem exists_float {value : UInt64}
    (h : Libc.isnormal value = true → (Libc.fixedNotation value).length < 128) :
    ∃ w u, floatText value = .ok w ∧ Spells (terminals u) w [] := by
  rw [floatText]
  cases hnormal : Libc.isnormal value with
  | true =>
    obtain ⟨n, hn⟩ := toStringDouble_of_lt hnormal (h hnormal)
    obtain ⟨u, hu⟩ := exists_number n
    exact ⟨n.text, u, hn, hu⟩
  | false => exact ⟨_, .null, rfl, spells_text .null⟩

theorem exists_scalar (hobject : f.type ≠ .object) (h : ScalarFits f.type c) :
    ∃ w u, valueText object f c = .ok w ∧ Spells (terminals u) w [] := by
  obtain ⟨hread, hlen⟩ := h
  rw [valueText]
  cases htype : f.type with
  | object => exact absurd htype hobject
  | boolean =>
    rw [htype] at hread
    obtain ⟨value, hvalue⟩ := (asBool_ok_iff c).2 hread
    simp only [hvalue]
    cases value with
    | true => exact ⟨_, .true, rfl, spells_text .true⟩
    | false => exact ⟨_, .false, rfl, spells_text .false⟩
  | string =>
    rw [htype] at hread
    obtain ⟨value, hvalue⟩ := (asString_ok_iff c).2 hread
    obtain ⟨t, ht, -⟩ := exists_quoted value
    simp only [hvalue]
    refine ⟨_, .string t, rfl, ?_⟩
    rw [terminals]
    exact ht
  | uint32 =>
    rw [htype] at hread
    obtain ⟨value, hvalue⟩ := (asUInt32_ok_iff c).2 hread
    obtain ⟨u, hu⟩ := exists_integer value.toNat
    simp only [hvalue]
    exact ⟨_, u, rfl, hu⟩
  | uint64 =>
    rw [htype] at hread
    obtain ⟨value, hvalue⟩ := (asUInt64_ok_iff c).2 hread
    obtain ⟨u, hu⟩ := exists_integer (toInt64 value)
    simp only [hvalue]
    exact ⟨_, u, rfl, hu⟩
  | datetime =>
    rw [htype] at hread
    obtain ⟨value, hvalue⟩ := (asUnixTime_ok_iff c).2 hread
    obtain ⟨u, hu⟩ := exists_integer (toInt64 value)
    simp only [hvalue]
    exact ⟨_, u, rfl, hu⟩
  | double =>
    rw [htype] at hread
    cases c with
    | double id value => exact exists_float (hlen id value rfl)
    | object | boolean | uint32 | string | uint64 | datetime =>
      simp [readable, MessageObject.type] at hread

end values

section messages
variable {object : MessageObject → MessageSchema → Result Bytes} {f : SchemaField}
  {cs : List MessageObject}

theorem mem_written {fs : List SchemaField} : f ∈ written fs cs ↔ f ∈ fs ∧ seen f.id cs ≠ [] := by
  simp [written]

/-- A short name has not been cut off. -/
theorem name_length_le {name : Bytes} (h : (escapeString name).length+4 < 8192) :
    name.length ≤ 2^31 := by
  have hle := length_le_of_escapeString (s := name) (by omega)
  omega

theorem mem_of_mem_seen {id : UInt32} {c : MessageObject} (h : c ∈ seen id cs) : c ∈ cs :=
  List.mem_of_mem_take (List.mem_of_mem_filter h)

/-- What is asked of a value, with `P` for the objects. -/
def ValueFits (P : MessageSchema → MessageObject → Prop) (f : SchemaField) (c : MessageObject) :
    Prop :=
  (f.type ≠ .object → ScalarFits f.type c) ∧
    (f.type = .object → ∃ t, f.schema = some t ∧ P t c)

/-- What is asked of a field that is written. -/
def FieldFits (P : MessageSchema → MessageObject → Prop) (cs : List MessageObject)
    (f : SchemaField) : Prop :=
  (escapeString f.name).length+4 < 8192 ∧ (f.repeated = false → (seen f.id cs).length ≤ 1) ∧
    ∀ c ∈ seen f.id cs, ValueFits P f c

theorem derives_value {P : MessageSchema → MessageObject → Prop} {c : MessageObject} {w : Bytes}
    (hobject : ∀ t w, object c t = .ok w → Derives w fun _ => P t c)
    (h : valueText object f c = .ok w) :
    Derives w fun _ => ValueFits P f c := by
  by_cases htype : f.type = .object
  · rw [valueText, htype] at h
    obtain ⟨t, ht, h⟩ := Result.bind_eq_ok h
    have hschema : f.schema = some t := by
      cases hs : f.schema with
      | none =>
        rw [hs] at ht
        cases ht
      | some t' =>
        rw [hs] at ht
        cases ht
        rfl
    exact (hobject t w h).imp fun _ hP => ⟨fun hne => absurd htype hne, fun _ => ⟨t, hschema, hP⟩⟩
  · exact (derives_scalar htype h).imp fun _ hfits => ⟨fun _ => hfits, fun h => absurd h htype⟩

theorem derives_member {P : MessageSchema → MessageObject → Prop} {w : Bytes}
    (hobject : ∀ c ∈ cs, ∀ t w, object c t = .ok w → Derives w fun _ => P t c)
    (hne : seen f.id cs ≠ []) (h : memberText object cs f = .ok w) :
    DerivesMember w fun k => FieldFits P cs f ∧ k.decode = f.name := by
  obtain ⟨key, hkey, h⟩ := Result.bind_eq_ok h
  obtain ⟨ws, hws, h⟩ := Result.bind_eq_ok h
  obtain ⟨hname, rfl⟩ := entryText_eq_ok.1 hkey
  cases h
  have hvalues : List.Forall₂ (fun c w => Derives w fun _ => ValueFits P f c) (seen f.id cs) ws := by
    refine ((List.forall₂_and_left _ _).2 ⟨fun _ hc => hc, textsOf_eq_ok.1 hws⟩).imp ?_
    rintro c w ⟨hc, hw⟩
    exact derives_value (hobject c (mem_of_mem_seen hc)) hw
  rw [bracketed]
  cases hrepeated : f.repeated with
  | true =>
    have harray : List.Forall₂
        (fun (_ : Unit) w => Derives w fun _ => ∀ c ∈ seen f.id cs, ValueFits P f c) [()]
        [91 :: (commas 0 ws ++ [93])] := .cons (derives_array hne hvalues) .nil
    have hmember := derivesMember_entry (name_length_le hname) (List.cons_ne_nil () []) harray
    rw [if_pos rfl]
    simp only [commas, gt_iff_lt, Nat.lt_irrefl, if_false, List.nil_append, List.append_nil]
      at hmember ⊢
    refine hmember.imp fun k hk => ⟨⟨hname, fun h => ?_, hk.2.2 () List.mem_cons_self⟩, hk.1⟩
    rw [hrepeated] at h
    cases h
  | false =>
    rw [if_neg (by decide)]
    exact (derivesMember_entry (name_length_le hname) hne hvalues).imp fun k hk =>
      ⟨⟨hname, fun _ => hk.2.1, hk.2.2⟩, hk.1⟩

theorem encodable_iff {s : MessageSchema} {id : UInt32} :
    Encodable s (.object id cs) ↔ ∀ f ∈ written s.fields cs, FieldFits Encodable cs f := by
  constructor
  · rintro ⟨entries, single, scalars, schemas, nested⟩ f hf
    refine ⟨entries f hf, single f hf, fun c hc => ⟨fun htype => scalars f hf htype c hc, ?_⟩⟩
    intro htype
    obtain ⟨t, ht⟩ := Option.ne_none_iff_exists'.1 (schemas f hf htype)
    exact ⟨t, ht, nested f hf htype c hc t ht⟩
  · intro h
    refine .mk (fun f hf => (h f hf).1) (fun f hf => (h f hf).2.1)
      (fun f hf htype c hc => ((h f hf).2.2 c hc).1 htype) (fun f hf htype => ?_)
      (fun f hf htype c hc t ht => ?_)
    · obtain ⟨c, cs', hcons⟩ := List.exists_cons_of_ne_nil (mem_written.1 hf).2
      have hc : c ∈ seen f.id cs := by
        rw [hcons]
        exact List.mem_cons_self
      obtain ⟨t, ht, -⟩ := ((h f hf).2.2 c hc).2 htype
      rw [ht]
      exact Option.some_ne_none t
    · obtain ⟨t', ht', hfits⟩ := ((h f hf).2.2 c hc).2 htype
      cases ht'.symm.trans ht
      exact hfits

theorem map_decode_eq {fs : List SchemaField} {members : List (Str × Value)}
    (h : List.Forall₂ (fun (f : SchemaField) m => m.1.decode = f.name) fs members) :
    members.map (fun m => m.1.decode) = fs.map (·.name) := by
  induction h with
  | nil => rfl
  | cons hm _ ih => rw [List.map_cons, List.map_cons, hm, ih]

theorem derives_messageText (m : MessageObject) (fuel : Nat) (s : MessageSchema) (w : Bytes)
    (h : messageText fuel m s = .ok w) :
    Derives w fun u => Encodable s m ∧ ∃ members, u = .object members ∧
      members.map (fun m => m.1.decode) = (written s.fields m.children).map (·.name) := by
  induction m using MessageObject.induction generalizing fuel s w with
  | scalar m hm =>
    cases fuel with
    | zero => cases h
    | succ fuel =>
      obtain ⟨cs, hcs, -⟩ := Result.bind_eq_ok h
      cases m with
      | object id cs => exact absurd rfl hm
      | boolean | uint32 | string | uint64 | double | datetime => cases hcs
  | object id cs ih =>
    cases fuel with
    | zero => cases h
    | succ fuel =>
      rw [messageText, MessageObject.asObject, Result.ok_bind] at h
      obtain ⟨ws, hws, h⟩ := Result.bind_eq_ok h
      cases h
      have hmembers : List.Forall₂
          (fun f w => DerivesMember w fun k => FieldFits Encodable cs f ∧ k.decode = f.name)
          (written s.fields cs) ws := by
        refine ((List.forall₂_and_left _ _).2 ⟨fun _ hf => hf, textsOf_eq_ok.1 hws⟩).imp ?_
        rintro f w ⟨hf, hw⟩
        refine derives_member (fun c hc t w hw => ?_) (mem_written.1 hf).2 hw
        exact (ih c hc fuel t w hw).imp fun _ h => h.1
      refine (derives_object hmembers).imp ?_
      rintro u ⟨members, rfl, hall⟩
      obtain ⟨hfields, hkeys⟩ := (List.forall₂_and_left _ _).1 hall
      exact ⟨encodable_iff.2 hfields, members, rfl, map_decode_eq hkeys⟩

/-- Where each thing has a text and a value that is spelled as it, so have all. -/
theorem exists_textsOf {α β : Type} {text : α → Result Bytes} {S : β → Bytes → Prop}
    {Q : α → β → Prop} {xs : List α} (h : ∀ x ∈ xs, ∃ w u, text x = .ok w ∧ S u w ∧ Q x u) :
    ∃ ws us, textsOf text xs = .ok ws ∧ List.Forall₂ S us ws ∧ List.Forall₂ Q xs us := by
  induction xs with
  | nil => exact ⟨[], [], rfl, .nil, .nil⟩
  | cons x xs ih =>
    obtain ⟨w, u, hw, hs, hq⟩ := h x List.mem_cons_self
    obtain ⟨ws, us, hws, hss, hqs⟩ := ih fun y hy => h y (List.mem_cons_of_mem x hy)
    refine ⟨w :: ws, u :: us, ?_, .cons hs hss, .cons hq hqs⟩
    rw [textsOf, hw, Result.ok_bind, hws]
    rfl

theorem exists_member {P : MessageSchema → MessageObject → Prop}
    (hobject : ∀ c ∈ cs, ∀ t, P t c → ∃ w u, object c t = .ok w ∧ Spells (terminals u) w [])
    (hne : seen f.id cs ≠ []) (h : FieldFits P cs f) :
    ∃ w, ∃ m : Str × Value, memberText object cs f = .ok w ∧
      Spells (.string m.1 :: .nameSeparator :: terminals m.2) w [] ∧ m.1.decode = f.name := by
  obtain ⟨hname, hsingle, hvalues⟩ := h
  have htexts : ∀ c ∈ seen f.id cs, ∃ w u, valueText object f c = .ok w ∧
      Spells (terminals u) w [] ∧ True := by
    intro c hc
    obtain ⟨hscalar, hnested⟩ := hvalues c hc
    by_cases htype : f.type = .object
    · obtain ⟨t, ht, hP⟩ := hnested htype
      obtain ⟨w, u, hw, hu⟩ := hobject c (mem_of_mem_seen hc) t hP
      refine ⟨w, u, ?_, hu, trivial⟩
      rw [valueText, htype, ht]
      exact hw
    · obtain ⟨w, u, hw, hu⟩ := exists_scalar htype (hscalar htype)
      exact ⟨w, u, hw, hu, trivial⟩
  obtain ⟨ws, us, hws, hspells, hall⟩ := exists_textsOf htexts
  have hbracketed : ∃ u, Spells (terminals u) (bracketed f ws) [] := by
    rw [bracketed]
    cases hrepeated : f.repeated with
    | true => exact ⟨.array us, spells_array hspells⟩
    | false =>
      have hlen := hsingle hrepeated
      obtain ⟨c, hc⟩ := List.length_eq_one_iff.1
        (le_antisymm hlen (List.length_pos_of_ne_nil hne))
      rw [hc] at hall
      cases hall with
      | cons _ hnil =>
        cases hnil
        cases hspells with
        | cons hu hnil =>
          cases hnil
          exact ⟨_, by simpa [commas] using hu⟩
  obtain ⟨u, hu⟩ := hbracketed
  obtain ⟨k, hk, hentry⟩ := exists_entry (name_length_le hname) hu
  refine ⟨_, (k, u), ?_, hentry, hk⟩
  rw [memberText, entryText_eq_ok.2 ⟨hname, rfl⟩, Result.ok_bind, hws]
  rfl

theorem exists_messageText (m : MessageObject) (s : MessageSchema) (fuel : Nat)
    (h : Encodable s m) (hfuel : m.nodes ≤ fuel) :
    ∃ w members, messageText fuel m s = .ok w ∧ Spells (terminals (.object members)) w [] ∧
      members.map (fun m => m.1.decode) = (written s.fields m.children).map (·.name) := by
  induction m using MessageObject.induction generalizing s fuel with
  | scalar m hm =>
    cases h
    exact absurd rfl hm
  | object id cs ih =>
    rw [MessageObject.nodes] at hfuel
    obtain ⟨fuel, rfl⟩ : ∃ k, fuel = k+1 := Nat.exists_eq_add_one.2 (by omega)
    have hobject : ∀ c ∈ cs, ∀ t, Encodable t c →
        ∃ w u, messageText fuel c t = .ok w ∧ Spells (terminals u) w [] := by
      intro c hc t ht
      have hle := nodes_le_of_mem hc
      obtain ⟨w, members, hw, hspells, -⟩ := ih c hc t fuel ht (by omega)
      exact ⟨w, _, hw, hspells⟩
    obtain ⟨ws, members, hws, hspells, hkeys⟩ := exists_textsOf fun f hf =>
      exists_member hobject (mem_written.1 hf).2 (encodable_iff.1 h f hf)
    refine ⟨_, members, ?_, spells_object hspells, map_decode_eq hkeys⟩
    rw [messageText, MessageObject.asObject, Result.ok_bind, hws]
    rfl

/-- The fields that have values in the message. -/
def present (fields : List SchemaField) (cs : List MessageObject) : List SchemaField :=
  fields.filter fun f => !(valuesOf f.id cs).isEmpty

theorem written_eq (fs : List SchemaField) (cs : List MessageObject) :
    written fs cs = (present fs cs).filter fun f => !(seen f.id cs).isEmpty := by
  rw [written, present, List.filter_filter]
  refine List.filter_congr fun f _ => ?_
  have himp : (valuesOf f.id cs).isEmpty = true → (seen f.id cs).isEmpty = true := by
    intro hvalues
    rw [List.isEmpty_iff, valuesOf, List.filter_eq_nil_iff] at hvalues
    rw [List.isEmpty_iff, seen, valuesOf, List.filter_eq_nil_iff]
    exact fun c hc => hvalues c (List.mem_of_mem_take hc)
  cases hvalues : (valuesOf f.id cs).isEmpty with
  | true => simp [himp hvalues]
  | false => simp

theorem written_eq_present {fs : List SchemaField} :
    written fs cs = present fs cs ↔ ∀ f ∈ present fs cs, seen f.id cs ≠ [] := by
  rw [written_eq, List.filter_eq_self]
  simp

end messages

/-- What is written is one JSON object, with one member for each field that has values. -/
def EncodesJSON (s : MessageSchema) (m : MessageObject) : Prop :=
  ∃ json, ∃ t : Text, ∃ members, encode m.nodes m s {} = .ok json ∧ t.bytes = json.output_ ∧
    t.value = .object members ∧
    (members.map fun m => m.1.decode).Perm ((present s.fields m.children).map (·.name))

theorem encodable_of_encodesJSON {s : MessageSchema} {m : MessageObject} (h : EncodesJSON s m) :
    Encodable s m ∧ ∀ f ∈ present s.fields m.children, seen f.id m.children ≠ [] := by
  obtain ⟨json, t, members, hjson, hbytes, hvalue, hkeys⟩ := h
  rw [appends_encode] at hjson
  obtain ⟨w, hw, hjson⟩ := Result.bind_eq_ok hjson
  cases hjson
  have hend : Spells [.endArray] (blanks t.trailing ++ [93]) [] :=
    spells_cons.2 ⟨t.trailing, [], rfl, spells_nil.2 rfl⟩
  have hspells := spells_extend t.spells hend
  rw [hbytes] at hspells
  obtain ⟨⟨hencodable, members', hobject, hnames⟩, -⟩ :=
    (derives_messageText m m.nodes s w hw).derived t.value [.endArray] [93] [] ⟨_, _, rfl, rfl⟩
      ⟨93, [], rfl, by decide⟩ hspells
  cases hvalue.symm.trans hobject
  refine ⟨hencodable, written_eq_present.1 ?_⟩
  have hlen : (written s.fields m.children).length = (present s.fields m.children).length := by
    have hperm := hkeys.length_eq
    rw [hnames, List.length_map, List.length_map] at hperm
    exact hperm
  rw [written_eq] at hlen ⊢
  exact List.filter_sublist.eq_of_length hlen

/-- The encoder writes a JSON object exactly for these messages. -/
theorem encodesJSON_iff (s : MessageSchema) (m : MessageObject) :
    EncodesJSON s m ↔
      Encodable s m ∧ ∀ f ∈ present s.fields m.children, seen f.id m.children ≠ [] := by
  refine ⟨encodable_of_encodesJSON, fun ⟨hencodable, hseen⟩ => ?_⟩
  obtain ⟨w, members, hw, hspells, hnames⟩ :=
    exists_messageText m s m.nodes hencodable (Nat.le_refl _)
  obtain ⟨t, hvalue, hbytes⟩ := exists_text (w := []) hspells
  refine ⟨JSONOutputStream.put w {}, t, members, ?_, hbytes, hvalue, ?_⟩
  · rw [appends_encode, hw]
    rfl
  · rw [hnames, written_eq_present.2 hseen]

/-- One UINT32 field that is not repeated, and a message with two values of it. -/
def onceSchema : MessageSchema :=
  .new (lit "once") [⟨1, lit "a", .uint32, 0, false, false, .none, none⟩]

theorem twice_not_encodesJSON :
    ¬∀ fuel buf s m, MessageDecoder.decode fuel buf s (.object 0 []) = .ok m → EncodesJSON s m := by
  intro h
  have hdecode : MessageDecoder.decode 8 [8, 1, 8, 2] onceSchema (.object 0 []) =
      .ok (.object 0 [.uint32 1 1, .uint32 1 2]) := rfl
  have hencodes := h 8 [8, 1, 8, 2] onceSchema _ hdecode
  cases (encodable_of_encodesJSON hencodes).1 with
  | mk entries single scalars schemas nested =>
    have hseen : seen 1 [.uint32 1 1, .uint32 1 2] = [.uint32 1 1, .uint32 1 2] := rfl
    have hwritten : ⟨1, lit "a", .uint32, 0, false, false, .none, none⟩ ∈
        written onceSchema.fields [.uint32 1 1, .uint32 1 2] := by
      refine mem_written.2 ⟨?_, ?_⟩
      · rw [onceSchema, MessageSchema.new_fields]
        exact List.mem_singleton_self _
      · rw [hseen]
        exact List.cons_ne_nil _ _
    have hlen := single _ hwritten rfl
    rw [hseen] at hlen
    exact absurd hlen (by decide)

end Stx.Msg.JSONEncoder
