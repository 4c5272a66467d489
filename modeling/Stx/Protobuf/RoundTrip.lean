import Stx.Protobuf.MessageEncoder
import Stx.Protobuf.MessageDecoder
import Stx.Protobuf.SchemaEvolution

/-! Decoding what was encoded. The argument is made once, for a decoder whose schema
may know only some of the fields of the encoder's; with the same schema on both sides
it is the round trip. -/
namespace Stx.Msg
open Util (BinaryMessageReader)
open Util.BinaryMessageReader (InBounds unread_skip read_unread readVarUInt_varUIntBytes
  readUInt64_uint64Bytes)
open Util.BinaryMessageWriter (varUIntBytes uint64Bytes varUIntBytes_numeral
  length_varUIntBytes_le length_uint64Bytes)

/- The key has room for 29 bits of an id and for a wire type. -/

/-- What the key keeps of an id. -/
def keptId (id : UInt32) : UInt32 := UInt32.ofNat (id.toNat % 2^29)

theorem keptId_toNat (id : UInt32) : (keptId id).toNat = id.toNat % 2^29 := by
  rw [keptId, UInt32.toNat_ofNat']
  omega

theorem keptId_of_lt {id : UInt32} (hid : id.toNat < 2^29) : keptId id = id := by
  rw [← UInt32.toNat_inj, keptId_toNat, Nat.mod_eq_of_lt hid]

theorem keptId_ne {id : UInt32} (hid : ¬id.toNat < 2^29) : keptId id ≠ id := by
  intro h
  have hkept := keptId_toNat id
  rw [h] at hkept
  omega

theorem fieldKey_toNat (id : UInt32) {w : UInt32} (hw : w.toNat < 8) :
    (fieldKey id w).toNat = 8 * (id.toNat % 2^29)+w.toNat := by
  have hor := Nat.shiftLeft_add_eq_or_of_lt (b := w.toNat) (i := 3) hw (id.toNat % 2^29)
  have hshift : (id <<< 3).toNat = 8 * (id.toNat % 2^29) := by
    rw [UInt32.toNat_shiftLeft]
    simp only [UInt32.reduceToNat, Nat.reduceMod, Nat.shiftLeft_eq, Nat.reducePow]
    omega
  rw [Nat.shiftLeft_eq, Nat.mul_comm (id.toNat % 2^29)] at hor
  rw [fieldKey, UInt32.toNat_toUInt64, UInt32.toNat_or, hshift]
  exact hor.symm

theorem fieldKey_keptId (id : UInt32) {w : UInt32} (hw : w.toNat < 8) :
    (fieldKey id w >>> 3).toUInt32 = keptId id := by
  have hkey := fieldKey_toNat id hw
  rw [← UInt32.toNat_inj, UInt64.toNat_toUInt32, UInt64.toNat_shiftRight, hkey, keptId_toNat]
  simp only [UInt64.reduceToNat, Nat.reduceMod, Nat.shiftRight_eq_div_pow, Nat.reducePow]
  omega

theorem fieldKey_id {id w : UInt32} (hid : id.toNat < 2^29) (hw : w.toNat < 8) :
    (fieldKey id w >>> 3).toUInt32 = id := by
  rw [fieldKey_keptId id hw, keptId_of_lt hid]

theorem fieldKey_wire (id : UInt32) {w : UInt32} (hw : w.toNat < 8) :
    (fieldKey id w &&& 7).toNat = w.toNat := by
  have hkey := fieldKey_toNat id hw
  have hand := Nat.and_two_pow_sub_one_eq_mod (fieldKey id w).toNat 3
  rw [UInt64.toNat_and]
  change (fieldKey id w).toNat &&& 2^3-1 = _
  omega

theorem MessageSchema.Distinct.hasField_eq {s : MessageSchema} (hs : s.Distinct) (id : UInt32) :
    s.hasField id = (s.field? id).isSome := by
  cases hs with
  | mk nodup nonzero types carries nested => simp [hasField, types]

theorem MessageSchema.Valid.id_lt {s : MessageSchema} (hs : s.Valid) {id : UInt32}
    {f : SchemaField} (h : s.field? id = some f) : id.toNat < 2^29 := by
  cases hs with
  | mk nodup range types carries nested =>
    obtain ⟨hmem, rfl⟩ := field?_mem h
    exact (range f hmem).2

namespace MessageDecoder

section turns
variable {r : BinaryMessageReader} {s : MessageSchema} {msg : MessageObject} {rest : Bytes}

/-- After the key of a known field the turn is `parseKnown`, after that of a deleted
one it is `skipUnknown`. -/
theorem readTurn_known {id w : UInt32} (hb : r.InBounds)
    (h : r.unread = varUIntBytes (fieldKey id w) ++ rest) (hid : id.toNat < 2^29)
    (hw : w.toNat < 8) (hs : s.Distinct) {f : SchemaField} (hf : s.field? id = some f) :
    readTurn r s msg = parseKnown id (r.skip (varUIntBytes (fieldKey id w)).length) s msg := by
  simp only [readTurn, readVarUInt_varUIntBytes hb h, Result.ok_bind, readPayload,
    fieldKey_id hid hw, hs.hasField_eq, hf, Option.isSome_some, Bool.not_true,
    Bool.false_eq_true, if_false]

theorem readTurn_unknown {id w : UInt32} (hb : r.InBounds)
    (h : r.unread = varUIntBytes (fieldKey id w) ++ rest) (hw : w.toNat < 8)
    (hf : s.hasField (keptId id) = false) :
    readTurn r s msg =
      (skipUnknown (fieldKey id w) (r.skip (varUIntBytes (fieldKey id w)).length) >>=
        fun r => pure (.skipped r)) := by
  simp only [readTurn, readVarUInt_varUIntBytes hb h, Result.ok_bind, readPayload,
    fieldKey_keptId id hw, hf, Bool.not_false, if_true]

/-- A length prefix and the bytes it announces. -/
theorem read_lenenc {data : Bytes} (hb : r.InBounds)
    (h : r.unread = varUIntBytes (UInt64.ofNat data.length) ++ (data ++ rest)) :
    ∃ r₁, r.readVarUInt = .ok (UInt64.ofNat data.length, r₁) ∧
      (UInt64.ofNat data.length).toNat = data.length ∧ data.length ≤ r₁.remaining ∧
      r₁.read data.length = .ok (data,
        r.skip (varUIntBytes (UInt64.ofNat data.length) ++ data).length) := by
  have hlen := hb.length_unread
  have hlt := hb.size_lt
  rw [h, List.length_append, List.length_append] at hlen
  have hr₁ := unread_skip h
  have hb₁ := hb.skip_unread h
  refine ⟨_, readVarUInt_varUIntBytes hb h, ?_, ?_, ?_⟩
  · rw [UInt64.toNat_ofNat']
    omega
  · rw [hb₁.remaining_eq, hr₁, List.length_append]
    omega
  · rw [read_unread hb₁ hr₁, BinaryMessageReader.skip_skip, List.length_append]

end turns

/-- Skipping consumes exactly the payload that the encoder writes for the type. -/
theorem skipUnknown_wire (c : MessageObject) :
    ∃ w payload, w.toNat < 8 ∧ wireBytes c = varUIntBytes (fieldKey c.id w) ++ payload ∧
      ∀ (r : BinaryMessageReader) (rest : Bytes), r.InBounds → r.unread = payload ++ rest →
        skipUnknown (fieldKey c.id w) r = .ok (r.skip payload.length) := by
  have hvarint : wireType (fieldKey c.id 0) = some .varint := by
    simp [wireType, fieldKey_wire c.id (w := 0) (by decide)]
  have hlenenc : wireType (fieldKey c.id 2) = some .lenenc := by
    simp [wireType, fieldKey_wire c.id (w := 2) (by decide)]
  have hfixed64 : wireType (fieldKey c.id 1) = some .fixed64 := by
    simp [wireType, fieldKey_wire c.id (w := 1) (by decide)]
  cases c with
  | object id cs =>
    refine ⟨2, varUIntBytes (UInt64.ofNat (wireList cs).length) ++ wireList cs, by decide,
      by simp [wireBytes, MessageObject.id], ?_⟩
    intro r rest hb hr
    obtain ⟨r₁, h₁, hn, -, h₂⟩ := read_lenenc hb (hr.trans (List.append_assoc ..))
    simp only [skipUnknown, hlenenc, h₁, Result.ok_bind, hn, h₂, Result.pure_eq]
  | string id value =>
    refine ⟨2, varUIntBytes (UInt64.ofNat value.length) ++ value, by decide,
      by simp [wireBytes, MessageObject.id], ?_⟩
    intro r rest hb hr
    obtain ⟨r₁, h₁, hn, -, h₂⟩ := read_lenenc hb (hr.trans (List.append_assoc ..))
    simp only [skipUnknown, hlenenc, h₁, Result.ok_bind, hn, h₂, Result.pure_eq]
  | double id value =>
    refine ⟨1, uint64Bytes value, by decide, rfl, ?_⟩
    intro r rest hb hr
    simp only [skipUnknown, hfixed64, readUInt64_uint64Bytes hb hr, Result.ok_bind,
      Result.pure_eq, length_uint64Bytes]
  | boolean id value | uint32 id value | uint64 id value | datetime id value =>
    refine ⟨0, _, by decide, rfl, ?_⟩
    intro r rest hb hr
    simp only [skipUnknown, hvarint, readVarUInt_varUIntBytes hb hr, Result.ok_bind,
      Result.pure_eq]

/-- A child that the schema knows and that is no object is read back as it was. -/
theorem readTurn_scalar {c : MessageObject} (hc : c.type ≠ .object) {r : BinaryMessageReader}
    {s : MessageSchema} {msg : MessageObject} {rest : Bytes} {f : SchemaField} (hb : r.InBounds)
    (h : r.unread = wireBytes c ++ rest) (hid : c.id.toNat < 2^29) (hs : s.Distinct)
    (hf : s.field? c.id = some f) (htype : c.type = f.type) :
    readTurn r s msg = .ok (.scalar (r.skip (wireBytes c).length) c) := by
  have hft := hs.fieldType_eq hf
  rw [← htype] at hft
  cases c with
  | object id cs => exact absurd rfl hc
  | string id value =>
    have hr : r.unread = varUIntBytes (fieldKey id 2) ++
        (varUIntBytes (UInt64.ofNat value.length) ++ (value ++ rest)) := by
      simpa [wireBytes] using h
    have hlt := hb.size_lt
    have hlen := hb.length_unread
    rw [hr, List.length_append, List.length_append, List.length_append] at hlen
    obtain ⟨r₁, h₁, hn, -, h₂⟩ := read_lenenc (hb.skip_unread hr) (unread_skip hr)
    have hmk := mkString_ok (by omega : value.length < 2^63) value
    rw [readTurn_known hb hr hid (by decide) hs hf]
    simp only [parseKnown, MessageObject.id, MessageObject.type] at hft ⊢
    simp only [hft, h₁, Result.ok_bind, hn, h₂, hmk, Result.pure_eq,
      BinaryMessageReader.skip_skip, wireBytes, List.length_append, Nat.add_assoc]
  | double id value =>
    have hr : r.unread = varUIntBytes (fieldKey id 1) ++ (uint64Bytes value ++ rest) := by
      simpa [wireBytes] using h
    rw [readTurn_known hb hr hid (by decide) hs hf]
    simp only [parseKnown, MessageObject.id, MessageObject.type] at hft ⊢
    simp only [hft, Result.ok_bind, BinaryMessageReader.readDouble,
      readUInt64_uint64Bytes (hb.skip_unread hr) (unread_skip hr), Result.pure_eq,
      BinaryMessageReader.skip_skip, wireBytes, List.length_append, length_uint64Bytes]
  | uint32 id value =>
    have hr := h.trans (List.append_assoc ..)
    rw [readTurn_known hb hr hid (by decide) hs hf]
    simp only [parseKnown, MessageObject.id, MessageObject.type] at hft ⊢
    simp only [hft, Result.ok_bind, readVarUInt_varUIntBytes (hb.skip_unread hr) (unread_skip hr),
      Result.pure_eq, BinaryMessageReader.skip_skip, wireBytes, List.length_append,
      UInt32.toUInt32_toUInt64]
  | uint64 id value | datetime id value =>
    have hr := h.trans (List.append_assoc ..)
    rw [readTurn_known hb hr hid (by decide) hs hf]
    simp only [parseKnown, MessageObject.id, MessageObject.type] at hft ⊢
    simp only [hft, Result.ok_bind, readVarUInt_varUIntBytes (hb.skip_unread hr) (unread_skip hr),
      Result.pure_eq, BinaryMessageReader.skip_skip, wireBytes, List.length_append]
  | boolean id value =>
    have hr := h.trans (List.append_assoc ..)
    rw [readTurn_known hb hr hid (by decide) hs hf]
    simp only [parseKnown, MessageObject.id, MessageObject.type] at hft ⊢
    simp only [hft, Result.ok_bind, readVarUInt_varUIntBytes (hb.skip_unread hr) (unread_skip hr),
      Result.pure_eq, BinaryMessageReader.skip_skip, wireBytes, List.length_append]
    cases value <;> rfl

/-- An object that the schema knows: its length, then its bytes under the field's
schema. -/
theorem readTurn_object {id : UInt32} {cs : List MessageObject} {r : BinaryMessageReader}
    {s t : MessageSchema} {root : UInt32} {acc : List MessageObject} {rest : Bytes}
    {f : SchemaField} (hb : r.InBounds) (h : r.unread = wireBytes (.object id cs) ++ rest)
    (hid : id.toNat < 2^29) (hs : s.Distinct) (hf : s.field? id = some f)
    (htype : f.type = .object) (ht : f.schema = some t) :
    readTurn r s (.object root acc) =
      .ok (.nested (r.skip (wireBytes (.object id cs)).length) id (wireList cs) t) := by
  have hft := hs.fieldType_eq hf
  have hr : r.unread = varUIntBytes (fieldKey id 2) ++
      (varUIntBytes (UInt64.ofNat (wireList cs).length) ++ (wireList cs ++ rest)) := by
    simpa [wireBytes] using h
  obtain ⟨r₁, h₁, hn, hrem, h₂⟩ := read_lenenc (hb.skip_unread hr) (unread_skip hr)
  rw [readTurn_known hb hr hid (by decide) hs hf]
  simp only [parseKnown, hft, htype, Result.ok_bind, h₁, MessageObject.asObject, hn,
    if_neg (Nat.not_lt.2 hrem), MessageSchema.fieldSchema_eq hf, ht, h₂, MessageSchema.deref,
    Result.pure_eq, BinaryMessageReader.skip_skip, wireBytes, List.length_append, Nat.add_assoc]

theorem wireBytes_ne_nil (c : MessageObject) : wireBytes c ≠ [] := by
  have hne : ∀ (v : UInt64) (u : Bytes), varUIntBytes v ++ u ≠ [] := fun v u h =>
    (varUIntBytes_numeral v).ne_nil (List.append_eq_nil_iff.1 h).1
  cases c <;> simp only [wireBytes, List.append_assoc] <;> exact hne _ _

/-- One turn of the loop over the wire format of `c`, with enough fuel for its
subtree: the projection of `c` is added and the reader stands behind it. -/
def DecodesBack (c : MessageObject) : Prop :=
  ∀ (fuel : Nat) (r : BinaryMessageReader) (s s' : MessageSchema) (root : UInt32)
    (acc : List MessageObject) (rest : Bytes), c.nodes ≤ fuel → r.InBounds →
    r.unread = wireBytes c ++ rest → s.Valid → s'.Valid → s'.Pruned s → Conforms s c →
    decodeLoop (fuel+1) r s' (.object root acc) =
      decodeLoop fuel (r.skip (wireBytes c).length) s'
        (.object root (acc ++ (projectChild c s').toList))

theorem decodeLoop_wireList (cs : List MessageObject) (hcs : ∀ c ∈ cs, DecodesBack c)
    (s s' : MessageSchema) (hs : s.Valid) (hs' : s'.Valid) (hp : s'.Pruned s)
    (hconf : ∀ c ∈ cs, Conforms s c) :
    ∀ (fuel : Nat) (r : BinaryMessageReader) (root : UInt32) (acc : List MessageObject),
      MessageObject.nodesList cs < fuel → r.InBounds → r.unread = wireList cs →
      decodeLoop fuel r s' (.object root acc) =
        .ok (.object root (acc ++ projectChildren cs (some s'))) := by
  induction cs with
  | nil =>
    intro fuel r root acc hfuel hb hr
    obtain ⟨fuel, rfl⟩ : ∃ k, fuel = k+1 := Nat.exists_eq_add_one.2 (by omega)
    rw [decodeLoop_end (by rw [hb.remaining_eq, hr]; rfl)]
    simp [projectChildren]
  | cons c cs ih =>
    intro fuel r root acc hfuel hb hr
    obtain ⟨fuel, rfl⟩ : ∃ k, fuel = k+1 := Nat.exists_eq_add_one.2 (by omega)
    rw [MessageObject.nodesList] at hfuel
    have hpos : 0 < c.nodes := by cases c <;> simp [MessageObject.nodes]
    rw [wireList] at hr
    rw [hcs c (by simp) fuel r s s' root acc _ (by omega) hb hr hs hs' hp (hconf c (by simp)),
      ih (fun x hx => hcs x (by simp [hx])) (fun x hx => hconf x (by simp [hx])) fuel _ root _
        (by omega) (hb.skip_unread hr) (unread_skip hr)]
    simp [projectChildren]

/-- In front of the wire format of a child there is something to read. -/
theorem remaining_pos {c : MessageObject} {r : BinaryMessageReader} {rest : Bytes}
    (hb : r.InBounds) (hr : r.unread = wireBytes c ++ rest) : 0 < r.remaining := by
  have hpos := List.length_pos_iff.2 (wireBytes_ne_nil c)
  rw [hb.remaining_eq, hr, List.length_append]
  omega

/-- The whole payload of a field that the schema does not know is skipped. -/
theorem readTurn_skipped {c : MessageObject} {r : BinaryMessageReader} {s : MessageSchema}
    {msg : MessageObject} {rest : Bytes} (hb : r.InBounds) (hr : r.unread = wireBytes c ++ rest)
    (hf : s.hasField (keptId c.id) = false) :
    readTurn r s msg = .ok (.skipped (r.skip (wireBytes c).length)) := by
  obtain ⟨w, payload, hw, hwire, hskip⟩ := skipUnknown_wire c
  have hr' : r.unread = varUIntBytes (fieldKey c.id w) ++ (payload ++ rest) := by
    rw [hr, hwire, List.append_assoc]
  have hturn : readTurn r s msg = _ := readTurn_unknown hb hr' hw hf
  rw [hskip _ rest (hb.skip_unread hr') (unread_skip hr')] at hturn
  rw [hturn, hwire, BinaryMessageReader.skip_skip, List.length_append]
  rfl

/-- The child of a deleted field has no projection. -/
theorem decodesBack_unknown {c : MessageObject} {fuel : Nat} {r : BinaryMessageReader}
    {s' : MessageSchema} {root : UInt32} {acc : List MessageObject} {rest : Bytes}
    (hid : c.id.toNat < 2^29) (hb : r.InBounds) (hr : r.unread = wireBytes c ++ rest)
    (hs' : s'.Valid) (hf : s'.field? c.id = none) :
    decodeLoop (fuel+1) r s' (.object root acc) =
      decodeLoop fuel (r.skip (wireBytes c).length) s'
        (.object root (acc ++ (projectChild c s').toList)) := by
  have hproj : projectChild c s' = none := by
    cases c <;> simp_all [projectChild, MessageObject.id]
  have hunknown : s'.hasField (keptId c.id) = false := by
    rw [keptId_of_lt hid, hs'.distinct.hasField_eq, hf, Option.isSome_none]
  rw [decodeLoop_skipped (remaining_pos hb hr) (readTurn_skipped hb hr hunknown), hproj]
  simp

theorem decodesBack (c : MessageObject) : DecodesBack c := by
  induction c using MessageObject.induction with
  | object id cs ih =>
    intro fuel r s s' root acc rest hfuel hb hr hs hs' hp hconf
    obtain ⟨hfield, htype, hnested⟩ := hconf
    rename_i f
    have hid : id.toNat < 2^29 := hs.id_lt hfield
    cases hf' : s'.field? id with
    | none => exact decodesBack_unknown hid hb hr hs' hf'
    | some f' =>
      obtain ⟨kept, nested⟩ := hp
      obtain ⟨g, hg, hgt⟩ := kept id f' hf'
      obtain rfl : f = g := Option.some.inj (hfield.symm.trans hg)
      have hobj : f.type = .object := htype.symm
      obtain ⟨t, ht, htv⟩ := hs.object_schema hfield hobj
      obtain ⟨t', ht', htv'⟩ := hs'.object_schema hf' (hgt.symm.trans hobj)
      have hpr := nested id f f' t t' hfield hf' hobj ht ht'
      rw [MessageObject.nodes] at hfuel
      have hsub : (wireList cs).length < 2^63 := by
        have hlen := hb.length_unread
        have hlt := hb.size_lt
        rw [hr] at hlen
        simp only [wireBytes, List.length_append] at hlen
        omega
      have hinner := decodeLoop_wireList cs ih t t' htv htv' hpr (hnested t ht) fuel
        (.new (wireList cs)) id [] (by omega) (.new hsub) rfl
      rw [decodeLoop_nested (remaining_pos hb hr)
        (readTurn_object hb hr hid hs'.distinct hf' (hgt.symm.trans hobj) ht'),
        hinner]
      simp [MessageObject.addChild, projectChild, hf', ht']
  | scalar c hc =>
    intro fuel r s s' root acc rest hfuel hb hr hs hs' hp hconf
    obtain ⟨hfield, htype, -⟩ := hconf
    rename_i f
    have hid := hs.id_lt hfield
    cases hf' : s'.field? c.id with
    | none => exact decodesBack_unknown hid hb hr hs' hf'
    | some f' =>
      obtain ⟨kept, -⟩ := hp
      obtain ⟨g, hg, hgt⟩ := kept c.id f' hf'
      obtain rfl : f = g := Option.some.inj (hfield.symm.trans hg)
      have hproj : projectChild c s' = some c := by
        cases c <;> simp_all [projectChild, MessageObject.id, MessageObject.type]
      rw [decodeLoop_scalar (remaining_pos hb hr)
        (readTurn_scalar hc hb hr hid hs'.distinct hf' (htype.trans hgt)), hproj]
      simp [MessageObject.addChild]

end MessageDecoder

/- A message is never longer on the wire than in memory. -/

theorem length_wireList_le (cs : List MessageObject)
    (h : ∀ c ∈ cs, (wireBytes c).length ≤ c.footprint) :
    (wireList cs).length ≤ MessageObject.footprints cs := by
  induction cs with
  | nil => simp [wireList]
  | cons c cs ih =>
    have hc := h c (by simp)
    have hcs := ih fun x hx => h x (by simp [hx])
    simp only [wireList, MessageObject.footprints, List.length_append]
    omega

theorem length_wireBytes_le (c : MessageObject) : (wireBytes c).length ≤ c.footprint := by
  induction c using MessageObject.induction with
  | object id cs ih =>
    have hcs := length_wireList_le cs ih
    have hkey := length_varUIntBytes_le (fieldKey id 2)
    have hlen := length_varUIntBytes_le (UInt64.ofNat (wireList cs).length)
    simp only [wireBytes, MessageObject.footprint, MessageObject.sizeofMessageObject,
      List.length_append]
    omega
  | scalar c hc =>
    cases c with
    | object id cs => exact absurd rfl hc
    | string id value =>
      have hkey := length_varUIntBytes_le (fieldKey id 2)
      have hlen := length_varUIntBytes_le (UInt64.ofNat value.length)
      simp only [wireBytes, MessageObject.footprint, MessageObject.sizeofMessageObject,
        List.length_append]
      omega
    | double id value =>
      have hkey := length_varUIntBytes_le (fieldKey id 1)
      simp only [wireBytes, MessageObject.footprint, MessageObject.sizeofMessageObject,
        List.length_append, length_uint64Bytes]
      omega
    | boolean id value | uint32 id value | uint64 id value | datetime id value =>
      simp only [wireBytes, MessageObject.footprint, MessageObject.sizeofMessageObject,
        List.length_append]
      exact (Nat.add_le_add (length_varUIntBytes_le _) (length_varUIntBytes_le _)).trans
        (by decide)

/- Under its own schema a message is its own projection. -/

theorem projectChildren_self (cs : List MessageObject) (s : MessageSchema)
    (h : ∀ c ∈ cs, projectChild c s = some c) : projectChildren cs (some s) = cs := by
  induction cs with
  | nil => rfl
  | cons c cs ih =>
    rw [projectChildren, ih fun x hx => h x (by simp [hx])]
    simp [h c (by simp)]

theorem projectChild_self (c : MessageObject) :
    ∀ s : MessageSchema, s.Valid → Conforms s c → projectChild c s = some c := by
  induction c using MessageObject.induction with
  | object id cs ih =>
    intro s hs hconf
    obtain ⟨hfield, htype, hnested⟩ := hconf
    rename_i f
    obtain ⟨t, ht, htv⟩ := hs.object_schema hfield htype.symm
    have hself := projectChildren_self cs t fun d hd => ih d hd t htv (hnested t ht d hd)
    change s.field? id = some f at hfield
    simp [projectChild, hfield, ht, hself]
  | scalar c hc =>
    intro s hs hconf
    obtain ⟨hfield, -, -⟩ := hconf
    cases c <;> simp_all [projectChild, MessageObject.id, MessageObject.type]

/-- Encoding a message of `s` raises nothing and gives its wire format. -/
theorem encode_eq {s : MessageSchema} (hs : s.Distinct) (id : UInt32) {cs : List MessageObject}
    (hconf : ∀ c ∈ cs, Conforms s c) :
    MessageEncoder.encode (.object id cs) s [] = .ok (wireList cs) := by
  obtain ⟨body, hbody, -, hbytes⟩ := MessageEncoder.encodeObjects_wireList cs
    (fun c _ => MessageEncoder.encodes c) s hs hconf _ Util.BinaryMessageWriter.Owned.new
  simp [MessageEncoder.encode, MessageObject.asObject, hbody, hbytes]

/- A schema with an OBJECT field, and children that conform to it, for the instances of
   the two results below. -/
def tsField : SchemaField := { id := 3, name := lit "ts", type := .datetime }

def trackSchema : MessageSchema := .new (lit "track") [tsField]

def nameField : SchemaField := { id := 1, name := lit "name", type := .string }

def trackField : SchemaField :=
  { id := 2, name := lit "track", type := .object, schema := some trackSchema }

def eventSchema : MessageSchema := .new (lit "event") [nameField, trackField]

def eventChildren : List MessageObject :=
  [.object 2 [.datetime 3 7, .datetime 3 300], .string 1 (lit "a"), .object 2 []]

theorem eventSchema_valid : eventSchema.Valid := by
  have htrack : trackSchema.Valid := .new (by decide) (by decide) (by decide) (by simp [tsField])
  refine .new (by decide) (by decide) (by simp [nameField, trackField]) ?_
  intro f hf t ht
  simp only [List.mem_cons, List.not_mem_nil, or_false] at hf
  rcases hf with rfl | rfl
  · cases ht
  · obtain rfl := Option.some.inj ht
    exact htrack

theorem eventChildren_conform : ∀ c ∈ eventChildren, Conforms eventSchema c := by
  have hts : ∀ v, Conforms trackSchema (.datetime 3 v) := fun v =>
    .mk (f := tsField) rfl rfl (by simp [tsField])
  have htrack : ∀ ds, (∀ d ∈ ds, Conforms trackSchema d) →
      Conforms eventSchema (.object 2 ds) := by
    intro ds hds
    refine .mk (f := trackField) rfl rfl fun t ht => ?_
    obtain rfl := Option.some.inj ht
    exact hds
  intro c hc
  simp only [eventChildren, List.mem_cons, List.not_mem_nil, or_false] at hc
  rcases hc with rfl | rfl | rfl
  · refine htrack _ ?_
    simp [hts]
  · exact .mk (f := nameField) rfl rfl (by simp [nameField])
  · exact htrack [] (by simp)

/-- Schema evolution. A decoder that has lost any set of fields, at any nesting levels,
still reads every message of the old schema, and reads its projection. The footprint
bound says that the message is an object in memory. -/
theorem decode_encode_evolved (s s' : MessageSchema) (hs : s.Valid) (he : s.Evolves s')
    (id : UInt32) (cs : List MessageObject) (hconf : ∀ c ∈ cs, Conforms s c)
    (hfit : (MessageObject.object id cs).footprint < 2^63) :
    ∃ buf, MessageEncoder.encode (.object id cs) s [] = .ok buf ∧
      ∃ n, ∀ fuel, n ≤ fuel → MessageDecoder.decode fuel buf s' (.object id []) =
        .ok ((MessageObject.object id cs).project s') := by
  obtain ⟨hs', hp⟩ := he.spec hs
  have hlen := length_wireList_le cs fun c _ => length_wireBytes_le c
  rw [MessageObject.footprint] at hfit
  refine ⟨wireList cs, encode_eq hs.distinct id hconf, MessageObject.nodesList cs+1, fun fuel hfuel => ?_⟩
  have hdec := MessageDecoder.decodeLoop_wireList cs (fun c _ => MessageDecoder.decodesBack c) s s'
    hs hs' hp hconf fuel (.new (wireList cs)) id [] (by omega) (.new (by omega)) rfl
  simpa [MessageDecoder.decode, MessageObject.project] using hdec

theorem decode_encode_without_name : ∃ s', eventSchema.removeField 1 = .ok s' ∧
    ∃ buf, MessageEncoder.encode (.object 0 eventChildren) eventSchema [] = .ok buf ∧
      ∃ n, ∀ fuel, n ≤ fuel → MessageDecoder.decode fuel buf s' (.object 0 []) =
        .ok ((MessageObject.object 0 eventChildren).project s') :=
  ⟨_, rfl, decode_encode_evolved eventSchema _ eventSchema_valid (.single (.here 1 rfl)) 0
    eventChildren eventChildren_conform (by decide)⟩

/-- The round trip: with the encoder's own schema the message comes back as it was,
the same children in the same order at every depth. -/
theorem decode_encode (s : MessageSchema) (hs : s.Valid) (id : UInt32)
    (cs : List MessageObject) (hconf : ∀ c ∈ cs, Conforms s c)
    (hfit : (MessageObject.object id cs).footprint < 2^63) :
    ∃ buf, MessageEncoder.encode (.object id cs) s [] = .ok buf ∧
      ∃ n, ∀ fuel, n ≤ fuel → MessageDecoder.decode fuel buf s (.object id []) =
        .ok (.object id cs) := by
  have hlen := length_wireList_le cs fun c _ => length_wireBytes_le c
  rw [MessageObject.footprint] at hfit
  refine ⟨wireList cs, encode_eq hs.distinct id hconf, MessageObject.nodesList cs+1, fun fuel hfuel => ?_⟩
  have hself := projectChildren_self cs s fun c hc => projectChild_self c s hs (hconf c hc)
  have hdec := MessageDecoder.decodeLoop_wireList cs (fun c _ => MessageDecoder.decodesBack c) s s
    hs hs (.refl hs) hconf fuel (.new (wireList cs)) id [] (by omega) (.new (by omega)) rfl
  rw [hself] at hdec
  simpa [MessageDecoder.decode] using hdec

theorem decode_encode_event :
    ∃ buf, MessageEncoder.encode (.object 0 eventChildren) eventSchema [] = .ok buf ∧
      ∃ n, ∀ fuel, n ≤ fuel → MessageDecoder.decode fuel buf eventSchema (.object 0 []) =
        .ok (.object 0 eventChildren) :=
  decode_encode eventSchema eventSchema_valid 0 eventChildren eventChildren_conform (by decide)

end Stx.Msg
