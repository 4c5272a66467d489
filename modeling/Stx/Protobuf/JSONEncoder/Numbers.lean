import Stx.Protobuf.JSONEncoder.Grammar

/-! The numbers in the text of a message. An unsigned value goes through the `int64_t` parameter of
`addInteger`. -/
namespace Stx.Msg.JSONEncoder
open Json
open StringUtil (toStringInt)

/-- The encoder comes to the value `c` of the field `f`, in the message or in one inside of it. -/
inductive Visits : MessageSchema → MessageObject → SchemaField → MessageObject → Prop
  | here {s : MessageSchema} {id : UInt32} {cs : List MessageObject} {f : SchemaField}
    {c : MessageObject} (hf : f ∈ s.fields) (hc : c ∈ seen f.id cs) : Visits s (.object id cs) f c
  | nested {s t : MessageSchema} {id : UInt32} {cs : List MessageObject} {f g : SchemaField}
    {c d : MessageObject} (hf : f ∈ s.fields) (hc : c ∈ seen f.id cs) (hobject : f.type = .object)
    (ht : f.schema = some t) (hd : Visits t c g d) : Visits s (.object id cs) g d

/-- The unsigned value of a child that has one. -/
def number? : MessageObject → Option Nat
  | .uint32 _ value => some value.toNat
  | .uint64 _ value | .datetime _ value => some value.toNat
  | _ => none

/-- The fields whose values go through `addInteger`. -/
def integerTypes : List FieldType := [.uint32, .uint64, .datetime]

/-- Between the two states of the stream the value was encoded, which appended `w`. -/
def Appended (json json' : JSONOutputStream) (f : SchemaField) (c : MessageObject) (w : Bytes) :
    Prop :=
  ∃ pre post, (∀ enc, encodeField enc c f (json.put pre) = .ok (json.put (pre ++ w))) ∧
    json' = json.put (pre ++ w ++ post)

/-- What the accessors of the field and the parameter leave as it is. -/
def InRange (type : FieldType) (n : Nat) : Prop := if type = .uint32 then n < 2^32 else n < 2^63

/- Where the text of a value is in the text of a message. -/

theorem commas_of_mem {w : Bytes} {ws : List Bytes} (h : w ∈ ws) (n : Nat) :
    ∃ pre post, commas n ws = pre ++ w ++ post := by
  induction ws generalizing n with
  | nil => cases h
  | cons x ws ih =>
    cases List.mem_cons.1 h with
    | inl h =>
      subst h
      exact ⟨_, commas (n+1) ws, by rw [commas, List.append_assoc]⟩
    | inr h =>
      obtain ⟨pre, post, htail⟩ := ih h (n+1)
      refine ⟨(if n > 0 then [44] else []) ++ (x ++ pre), post, ?_⟩
      rw [commas, htail]
      simp only [List.append_assoc]

theorem exists_text_of_mem {α : Type} {text : α → Result Bytes} {x : α} {xs : List α}
    {ws : List Bytes} (h : textsOf text xs = .ok ws) (hx : x ∈ xs) : ∃ w ∈ ws, text x = .ok w := by
  induction xs generalizing ws with
  | nil => cases hx
  | cons y xs ih =>
    rw [textsOf] at h
    obtain ⟨w, hw, h⟩ := Result.bind_eq_ok h
    obtain ⟨ws', hws, h⟩ := Result.bind_eq_ok h
    cases h
    cases List.mem_cons.1 hx with
    | inl hy => exact ⟨w, List.mem_cons_self, by rw [hy, hw]⟩
    | inr hx =>
      obtain ⟨v, hv, htext⟩ := ih hws hx
      exact ⟨v, List.mem_cons_of_mem w hv, htext⟩

section place
variable {object : MessageObject → MessageSchema → Result Bytes} {f : SchemaField}
  {c : MessageObject} {cs : List MessageObject}

theorem place_in_member {w : Bytes} (h : memberText object cs f = .ok w) (hc : c ∈ seen f.id cs) :
    ∃ pre v post, w = pre ++ v ++ post ∧ valueText object f c = .ok v := by
  rw [memberText] at h
  obtain ⟨key, -, h⟩ := Result.bind_eq_ok h
  obtain ⟨ws, hws, h⟩ := Result.bind_eq_ok h
  cases h
  obtain ⟨v, hv, htext⟩ := exists_text_of_mem hws hc
  obtain ⟨pre, post, hplace⟩ := commas_of_mem hv 0
  rw [bracketed, hplace]
  cases f.repeated with
  | true => exact ⟨key ++ (91 :: pre), v, post ++ [93], by simp, htext⟩
  | false => exact ⟨key ++ pre, v, post, by simp, htext⟩

/-- The value of a field of the message itself. -/
theorem place_in_message {s : MessageSchema} {id : UInt32} {fuel : Nat} {w : Bytes}
    (h : messageText (fuel+1) (.object id cs) s = .ok w) (hf : f ∈ s.fields)
    (hc : c ∈ seen f.id cs) :
    ∃ pre v post, w = pre ++ v ++ post ∧ valueText (messageText fuel) f c = .ok v := by
  rw [messageText, MessageObject.asObject, Result.ok_bind] at h
  obtain ⟨ws, hws, h⟩ := Result.bind_eq_ok h
  cases h
  have hwritten : f ∈ written s.fields cs := mem_written.2 ⟨hf, List.ne_nil_of_mem hc⟩
  obtain ⟨x, hx, hmember⟩ := exists_text_of_mem hws hwritten
  obtain ⟨pre, v, post, rfl, htext⟩ := place_in_member hmember hc
  obtain ⟨pre', post', hplace⟩ := commas_of_mem hx 0
  exact ⟨123 :: (pre' ++ pre), v, post ++ post' ++ [125], by rw [hplace]; simp, htext⟩

/-- Only the value of an object depends on how objects are written. -/
theorem valueText_congr (hf : f.type ≠ .object)
    (object' : MessageObject → MessageSchema → Result Bytes) :
    valueText object f c = valueText object' f c := by
  rw [valueText, valueText]
  cases htype : f.type with
  | object => exact absurd htype hf
  | boolean | uint32 | string | uint64 | double | datetime => rfl

theorem place_of_visits {s : MessageSchema} {m : MessageObject} (hv : Visits s m f c)
    (hf : f.type ≠ .object) {fuel : Nat} {w : Bytes} (h : messageText fuel m s = .ok w) :
    ∃ pre v post, w = pre ++ v ++ post ∧ valueText object f c = .ok v := by
  induction hv generalizing fuel w with
  | @here s id cs f c hmem hc =>
    cases fuel with
    | zero => cases h
    | succ fuel =>
      obtain ⟨pre, v, post, hw, htext⟩ := place_in_message h hmem hc
      exact ⟨pre, v, post, hw, by rw [← htext, valueText_congr hf]⟩
  | @nested s t id cs g f' c d hmem hc hobject ht hd ih =>
    cases fuel with
    | zero => cases h
    | succ fuel =>
      obtain ⟨pre, v, post, rfl, htext⟩ := place_in_message h hmem hc
      rw [valueText, hobject, ht] at htext
      obtain ⟨pre', v', post', rfl, htext'⟩ := ih hf htext
      exact ⟨pre ++ pre', v', post' ++ post, by simp only [List.append_assoc], htext'⟩

end place

/- The number that is written. -/

theorem digits_ne_minus {k n : Nat} (hk : 0 < k) :
    toStringInt (-(k : Int)) ≠ StringUtil.toString n := by
  intro h
  have hminus : (45 : UInt8) ∈ StringUtil.toString n := by
    rw [← h, toStringInt, if_pos (by omega)]
    exact List.mem_cons_self
  exact absurd (Libc.isdigit_of_mem_toString hminus) (by decide)

theorem toStringInt_natCast (n : Nat) : toStringInt n = StringUtil.toString n := by
  rw [toStringInt, if_neg (by omega), Int.natAbs_natCast]

theorem toString_inj {m n : Nat} : StringUtil.toString m = StringUtil.toString n ↔ m = n := by
  refine ⟨fun h => ?_, congrArg _⟩
  rw [← Libc.digitsVal_toString m, h, Libc.digitsVal_toString]

/-- From 2^63 on the parameter is negative. -/
theorem toStringInt_toInt64_iff (v : UInt64) :
    toStringInt (toInt64 v) = StringUtil.toString v.toNat ↔ v.toNat < 2^63 := by
  by_cases hv : v.toNat < 2^63
  · rw [toInt64_of_lt hv, toStringInt_natCast]
    exact iff_of_true rfl hv
  · have hlt := v.toNat_lt
    rw [toInt64_of_le (Nat.not_lt.1 hv)]
    exact iff_of_false (digits_ne_minus (by omega)) hv

theorem valueText_integer {object : MessageObject → MessageSchema → Result Bytes} {f : SchemaField}
    {c : MessageObject} {n : Nat} {w : Bytes} (hf : f.type ∈ integerTypes)
    (hn : number? c = some n) (h : valueText object f c = .ok w) :
    w = StringUtil.toString n ↔ InRange f.type n := by
  rw [valueText] at h
  simp only [integerTypes, List.mem_cons, List.not_mem_nil, or_false] at hf
  obtain hf | hf | hf := hf
  · rw [hf] at h ⊢
    obtain ⟨value, hvalue, h⟩ := Result.bind_eq_ok h
    cases h
    rw [toStringInt_natCast, toString_inj, InRange, if_pos rfl]
    cases c with
    | uint32 id v =>
      cases hvalue
      cases hn
      exact iff_of_true rfl value.toNat_lt
    | uint64 id v =>
      cases hvalue
      cases hn
      rw [UInt64.toNat_toUInt32]
      exact Nat.mod_eq_iff_lt (by decide)
    | object | boolean | string | double => cases hn
    | datetime => cases hvalue
  · rw [hf] at h ⊢
    obtain ⟨value, hvalue, h⟩ := Result.bind_eq_ok h
    cases h
    have hvalue' : value.toNat = n := by
      cases c with
      | uint32 id v => cases hvalue; cases hn; exact UInt32.toNat_toUInt64 v
      | uint64 id v | datetime id v => cases hvalue; cases hn; rfl
      | object | boolean | string | double => cases hn
    rw [← hvalue', toStringInt_toInt64_iff, InRange, if_neg (by decide)]
  · rw [hf] at h ⊢
    obtain ⟨value, hvalue, h⟩ := Result.bind_eq_ok h
    cases h
    have hvalue' : value.toNat = n := by
      cases c with
      | datetime id v => cases hvalue; cases hn; rfl
      | object | boolean | string | double => cases hn
      | uint32 | uint64 => cases hvalue
    rw [← hvalue', toStringInt_toInt64_iff, InRange, if_neg (by decide)]

theorem encodeField_eq {f : SchemaField} {c : MessageObject} {v : Bytes} (hf : f.type ≠ .object)
    (h : valueText (fun _ _ => .diverge) f c = .ok v)
    (enc : MessageObject → MessageSchema → JSONOutputStream → Result JSONOutputStream)
    (json : JSONOutputStream) : encodeField enc c f json = .ok (json.put v) := by
  have hfield : encodeField (fun _ _ _ => .diverge) c f json =
      valueText (fun _ _ => .diverge) f c >>= fun w => .ok (json.put w) :=
    appends_encodeField (fun _ _ _ => (rfl : _ = Result.diverge >>= _)) c f json
  rw [h, Result.ok_bind] at hfield
  rw [← hfield, encodeField, encodeField]
  cases htype : f.type with
  | object => exact absurd htype hf
  | boolean | uint32 | string | uint64 | double | datetime => rfl

/-- For every number that the encoder comes to, the digits of its unsigned value are appended exactly
when it is in the range of the accessor and of the parameter. -/
theorem number_appended_iff {fuel : Nat} {m : MessageObject} {s : MessageSchema}
    {json json' : JSONOutputStream} (h : encode fuel m s json = .ok json') {f : SchemaField}
    {c : MessageObject} {n : Nat} (hv : Visits s m f c) (hf : f.type ∈ integerTypes)
    (hn : number? c = some n) :
    ∃ w, Appended json json' f c w ∧ (w = StringUtil.toString n ↔ InRange f.type n) := by
  have hobject : f.type ≠ .object := by
    intro htype
    rw [htype] at hf
    exact absurd hf (by decide)
  rw [appends_encode] at h
  obtain ⟨w, hw, h⟩ := Result.bind_eq_ok h
  cases h
  obtain ⟨pre, v, post, rfl, hvalue⟩ :=
    @place_of_visits (fun _ _ => .diverge) _ _ _ _ hv hobject _ _ hw
  refine ⟨v, ⟨pre, post, fun enc => ?_, rfl⟩, valueText_integer hf hn hvalue⟩
  rw [encodeField_eq hobject hvalue, JSONOutputStream.put_put]

/-- A UINT64 field inside of an OBJECT field. -/
def numberField : SchemaField := ⟨2, lit "n", .uint64, 0, false, false, .none, none⟩

def outerFields : List SchemaField :=
  [⟨1, lit "o", .object, 0, true, false, .none, some (.new (lit "inner") [numberField])⟩]

def outerMessage (n : UInt64) : MessageObject := .object 0 [.object 1 [.uint64 2 n]]

theorem outerMessage_visits (n : UInt64) :
    Visits (.new (lit "outer") outerFields) (outerMessage n) numberField (.uint64 2 n) := by
  have hinner : Visits (.new (lit "inner") [numberField]) (.object 1 [.uint64 2 n]) numberField
      (.uint64 2 n) := by
    refine .here ?_ List.mem_cons_self
    rw [MessageSchema.new_fields]
    exact List.mem_cons_self
  refine .nested (f := outerFields.head (by decide)) ?_ List.mem_cons_self rfl rfl hinner
  rw [MessageSchema.new_fields]
  exact List.mem_cons_self

theorem outerMessage_appended :
    ∃ w, Appended {} { output_ := lit "\x7b\"o\": [\x7b\"n\": 7\x7d]\x7d" } numberField
      (.uint64 2 7) w ∧ (w = StringUtil.toString 7 ↔ InRange .uint64 7) :=
  @number_appended_iff 3 _ _ _ _ rfl _ _ 7 (outerMessage_visits 7) (by decide) rfl

theorem number_not_denoted :
    ¬∀ s m json', encode m.nodes m s {} = .ok json' → ∀ f c n, Visits s m f c →
      f.type ∈ integerTypes → c.type = f.type → number? c = some n →
        Appended {} json' f c (StringUtil.toString n) := by
  intro h
  have htext : encode 3 (outerMessage (UInt64.ofNat (2^63))) (.new (lit "outer") outerFields) {} =
      .ok { output_ := lit "\x7b\"o\": [\x7b\"n\": -9223372036854775808\x7d]\x7d" } := by
    decide +kernel
  obtain ⟨pre, post, hfield, -⟩ := h _ (outerMessage (UInt64.ofNat (2^63))) _ htext _ _ _
    (outerMessage_visits _) (by decide) rfl rfl
  have hput : JSONOutputStream.put (toStringInt (toInt64 (UInt64.ofNat (2^63)))) (.put pre {}) =
      .put (pre ++ StringUtil.toString (UInt64.ofNat (2^63)).toNat) {} :=
    Result.ok.inj (hfield fun _ _ => .ok)
  rw [JSONOutputStream.put_put] at hput
  have hdigits : pre ++ toStringInt (toInt64 (UInt64.ofNat (2^63))) =
      pre ++ StringUtil.toString (UInt64.ofNat (2^63)).toNat :=
    congrArg JSONOutputStream.output_ hput
  exact absurd ((toStringInt_toInt64_iff _).1 (List.append_cancel_left hdigits)) (by decide)

end Stx.Msg.JSONEncoder
