import Stx.Protobuf.RoundTrip
import Stx.Protobuf.DecoderTermination

/-! For which field the decoder takes a value. A key has 32 bits where it is written, so it keeps
29 bits of an id, and 64 bits where it is read, of whose field number the lower 32 bits are the
id. -/
namespace Stx.Msg.MessageDecoder
open Util (BinaryMessageReader)
open Util.BinaryMessageReader (InBounds unread_skip readVarUInt_varUIntBytes)

/-- The next turn of the same loop, behind a turn that did not raise. -/
inductive Next (h : Head) : Head → Prop
  | skipped {r : BinaryMessageReader} (hrem : 0 < h.reader.remaining)
    (ht : readTurn h.reader h.schema h.msg = .ok (.skipped r)) : Next h { h with reader := r }
  | scalar {r : BinaryMessageReader} {c m : MessageObject} (hrem : 0 < h.reader.remaining)
    (ht : readTurn h.reader h.schema h.msg = .ok (.scalar r c)) (hm : h.msg.addChild c = .ok m) :
    Next h ⟨r, h.schema, m⟩
  | nested {r : BinaryMessageReader} {id : UInt32} {data : Bytes} {t : MessageSchema}
    {fuel : Nat} {nxt m : MessageObject} (hrem : 0 < h.reader.remaining)
    (ht : readTurn h.reader h.schema h.msg = .ok (.nested r id data t))
    (hn : decodeLoop fuel (.new data) t (.object id []) = .ok nxt)
    (hm : h.msg.addChild nxt = .ok m) : Next h ⟨r, h.schema, m⟩

/-- The first turn of the call for a nested object. -/
inductive Enters (h : Head) : Head → Prop
  | enter {r : BinaryMessageReader} {id : UInt32} {data : Bytes} {t : MessageSchema}
    (hrem : 0 < h.reader.remaining)
    (ht : readTurn h.reader h.schema h.msg = .ok (.nested r id data t)) :
    Enters h ⟨.new data, t, .object id []⟩

/-- Decoding from `start`, in front of the encoded children `cs`, comes to a turn which has the
children `ds` still to read. -/
inductive Stands (start : Head) (cs : List MessageObject) : List MessageObject → Head → Prop
  | start : Stands start cs cs start
  | next {c : MessageObject} {ds : List MessageObject} {h h' : Head}
    (hr : Stands start cs (c :: ds) h) (hn : Next h h') : Stands start cs ds h'
  | enter {c : MessageObject} {ds : List MessageObject} {h h' : Head}
    (hr : Stands start cs (c :: ds) h) (he : Enters h h') : Stands start cs c.children h'

/-- The turn takes the value of `c` for that of no other field. -/
def Head.TakesFor (h : Head) (c : MessageObject) : Prop :=
  ∀ fkey r, h.reader.readVarUInt = .ok (fkey, r) →
    h.schema.hasField (fkey >>> 3).toUInt32 = true → (fkey >>> 3).toUInt32 = c.id

/-- Wherever the key loses a part of the id of a child, the rest is not the id of a field. What is
in a child that is skipped does not matter. -/
inductive KeepsApart : MessageSchema → MessageObject → Prop
  | narrow {s : MessageSchema} {c : MessageObject} (hid : c.id.toNat < 2^29)
    (nested : ∀ f t, s.field? c.id = some f → f.schema = some t →
      ∀ d ∈ c.children, KeepsApart t d) : KeepsApart s c
  | wide {s : MessageSchema} {c : MessageObject} (hid : ¬c.id.toNat < 2^29)
    (unknown : s.hasField (keptId c.id) = false) : KeepsApart s c

section stands
variable {a b h k : Head} {c : MessageObject} {cs ds es : List MessageObject}

theorem Stands.trans (hab : Stands a cs ds b) (hbk : Stands b ds es k) : Stands a cs es k := by
  induction hbk with
  | start => exact hab
  | next _ hn ih => exact .next ih hn
  | enter _ he ih => exact .enter ih he

/-- A way to a turn ends where it starts, or goes through the next turn or into the first child. -/
theorem Stands.first (hs : Stands a (c :: cs) es k) :
    (es = c :: cs ∧ k = a) ∨ (∃ b, Next a b ∧ Stands b cs es k) ∨
      ∃ b, Enters a b ∧ Stands b c.children es k := by
  induction hs with
  | start => exact .inl ⟨rfl, rfl⟩
  | next _ hn ih =>
    obtain ⟨heq, rfl⟩ | ⟨b, hb, hrest⟩ | ⟨b, hb, hrest⟩ := ih
    · cases heq
      exact .inr (.inl ⟨_, hn, .start⟩)
    · exact .inr (.inl ⟨b, hb, .next hrest hn⟩)
    · exact .inr (.inr ⟨b, hb, .next hrest hn⟩)
  | enter _ he ih =>
    obtain ⟨heq, rfl⟩ | ⟨b, hb, hrest⟩ | ⟨b, hb, hrest⟩ := ih
    · cases heq
      exact .inr (.inr ⟨_, he, .start⟩)
    · exact .inr (.inl ⟨b, hb, .enter hrest he⟩)
    · exact .inr (.inr ⟨b, hb, .enter hrest he⟩)

theorem Stands.not_nil : ¬Stands a [] (c :: ds) k := by
  suffices hnil : ∀ es, Stands a [] es k → es = [] from fun hs => List.cons_ne_nil c ds (hnil _ hs)
  intro es hs
  induction hs with
  | start => rfl
  | next _ _ ih => cases ih
  | enter _ _ ih => cases ih

end stands

section aligned
variable {r : BinaryMessageReader} {s : MessageSchema} {msg c : MessageObject} {rest : Bytes}

theorem exists_wireBytes_key (c : MessageObject) : ∃ w payload, w.toNat < 8 ∧
    wireBytes c = Util.BinaryMessageWriter.varUIntBytes (fieldKey c.id w) ++ payload := by
  obtain ⟨w, payload, hw, hwire, -⟩ := skipUnknown_wire c
  exact ⟨w, payload, hw, hwire⟩

theorem takesFor_iff (hb : r.InBounds) (hr : r.unread = wireBytes c ++ rest) :
    Head.TakesFor ⟨r, s, msg⟩ c ↔ (s.hasField (keptId c.id) = true → c.id.toNat < 2^29) := by
  obtain ⟨w, payload, hw, hwire⟩ := exists_wireBytes_key c
  rw [hwire, List.append_assoc] at hr
  have hkey := readVarUInt_varUIntBytes hb hr
  have hkept := fieldKey_keptId c.id hw
  constructor
  · intro htakes hfield
    have hsame := htakes _ _ hkey
    rw [hkept] at hsame
    by_contra hid
    exact keptId_ne hid (hsame hfield)
  · intro hnarrow fkey r' hread hfield
    cases hkey.symm.trans hread
    rw [hkept] at hfield ⊢
    exact keptId_of_lt (hnarrow hfield)

/-- The reader stands in front of encoded children of the schema. -/
structure Before (r : BinaryMessageReader) (s : MessageSchema) (cs : List MessageObject) :
    Prop where
  inBounds : r.InBounds
  unread : r.unread = wireList cs
  distinct : s.Distinct
  conforms : ∀ c ∈ cs, Conforms s c

theorem Before.tail {cs : List MessageObject} (h : Before r s (c :: cs)) :
    Before (r.skip (wireBytes c).length) s cs := by
  obtain ⟨hb, hr, hs, hconf⟩ := h
  rw [wireList] at hr
  exact ⟨hb.skip_unread hr, unread_skip hr, hs, fun d hd => hconf d (List.mem_cons_of_mem c hd)⟩

/-- What the turn in front of a child does when it takes the value for no other field. -/
theorem Before.turn {cs : List MessageObject} (h : Before r s (c :: cs)) (root : UInt32)
    (acc : List MessageObject)
    (hkept : s.hasField (keptId c.id) = true → c.id.toNat < 2^29) :
    (readTurn r s (.object root acc) = .ok (.skipped (r.skip (wireBytes c).length)) ∧
      ¬c.id.toNat < 2^29 ∧ s.hasField (keptId c.id) = false) ∨
    (readTurn r s (.object root acc) = .ok (.scalar (r.skip (wireBytes c).length) c) ∧
      c.id.toNat < 2^29 ∧ c.children = []) ∨
    ∃ f t, readTurn r s (.object root acc) =
        .ok (.nested (r.skip (wireBytes c).length) c.id (wireList c.children) t) ∧
      c.id.toNat < 2^29 ∧ s.field? c.id = some f ∧ f.schema = some t ∧ t.Distinct ∧
      ∀ d ∈ c.children, Conforms t d := by
  obtain ⟨hb, hr, hs, hconf⟩ := h
  rw [wireList] at hr
  obtain ⟨hfield, htype, hnested⟩ := hconf c List.mem_cons_self
  rename_i f
  by_cases hid : c.id.toNat < 2^29
  · by_cases hobject : c.type = .object
    · obtain ⟨t, ht, htd⟩ := hs.object_schema hfield (htype.symm.trans hobject)
      cases c with
      | object id cs =>
        exact .inr (.inr ⟨f, t, readTurn_object hb hr hid hs hfield htype.symm ht, hid, hfield, ht,
          htd, hnested t ht⟩)
      | boolean | uint32 | string | uint64 | double | datetime => cases hobject
    · exact .inr (.inl ⟨readTurn_scalar hobject hb hr hid hs hfield htype, hid,
        MessageObject.children_of_type_ne hobject⟩)
  · have hunknown : s.hasField (keptId c.id) = false := by
      by_contra hfield
      exact hid (hkept (by simpa using hfield))
    exact .inl ⟨readTurn_skipped hb hr hunknown, hid, hunknown⟩

theorem KeepsApart.kept (h : KeepsApart s c) :
    s.hasField (keptId c.id) = true → c.id.toNat < 2^29 := by
  intro hfield
  cases h with
  | narrow hid nested => exact hid
  | wide hid unknown =>
    rw [unknown] at hfield
    cases hfield

theorem KeepsApart.children {f : SchemaField} {t : MessageSchema} (h : KeepsApart s c)
    (hid : c.id.toNat < 2^29) (hf : s.field? c.id = some f) (ht : f.schema = some t) :
    ∀ d ∈ c.children, KeepsApart t d := by
  cases h with
  | narrow _ nested => exact nested f t hf ht
  | wide hwide _ => exact absurd hid hwide

end aligned

section decoding
variable {r : BinaryMessageReader} {s : MessageSchema} {cs : List MessageObject}

/-- The bytes of a nested object are shorter than the buffer around them. -/
theorem Before.nested {c : MessageObject} {t : MessageSchema} (h : Before r s (c :: cs))
    (ht : t.Distinct) (hconf : ∀ d ∈ c.children, Conforms t d) :
    Before (.new (wireList c.children)) t c.children := by
  have hlen := h.inBounds.length_unread
  have hlt := h.inBounds.size_lt
  have hle : (wireList c.children).length ≤ (wireBytes c).length := by
    cases c with
    | object id ds =>
      rw [wireBytes, MessageObject.children, List.length_append]
      omega
    | boolean | uint32 | string | uint64 | double | datetime => exact Nat.zero_le _
  rw [h.unread, wireList, List.length_append] at hlen
  exact ⟨.new (by omega), rfl, ht, hconf⟩

theorem Before.remaining_pos {c : MessageObject} (h : Before r s (c :: cs)) : 0 < r.remaining :=
  MessageDecoder.remaining_pos h.inBounds h.unread

theorem Before.next_eq {c : MessageObject} {root : UInt32} {acc : List MessageObject} {b : Head}
    (h : Before r s (c :: cs)) (hkept : s.hasField (keptId c.id) = true → c.id.toNat < 2^29)
    (hb : Next ⟨r, s, .object root acc⟩ b) :
    ∃ acc', b = ⟨r.skip (wireBytes c).length, s, .object root acc'⟩ := by
  have hturn := h.turn root acc hkept
  cases hb with
  | skipped hrem ht =>
    obtain ⟨hskip, -⟩ | ⟨hscalar, -⟩ | ⟨f, t, hnested, -⟩ := hturn
    · cases ht.symm.trans hskip
      exact ⟨acc, rfl⟩
    · cases ht.symm.trans hscalar
    · cases ht.symm.trans hnested
  | scalar hrem ht hm =>
    obtain ⟨hskip, -⟩ | ⟨hscalar, -⟩ | ⟨f, t, hnested, -⟩ := hturn
    · cases ht.symm.trans hskip
    · cases ht.symm.trans hscalar
      cases hm
      exact ⟨_, rfl⟩
    · cases ht.symm.trans hnested
  | nested hrem ht hn hm =>
    obtain ⟨hskip, -⟩ | ⟨hscalar, -⟩ | ⟨f, t, hnested, -⟩ := hturn
    · cases ht.symm.trans hskip
    · cases ht.symm.trans hscalar
    · cases ht.symm.trans hnested
      cases hm
      exact ⟨_, rfl⟩

theorem Before.enters_eq {c : MessageObject} {root : UInt32} {acc : List MessageObject} {b : Head}
    (h : Before r s (c :: cs)) (hkept : s.hasField (keptId c.id) = true → c.id.toNat < 2^29)
    (hb : Enters ⟨r, s, .object root acc⟩ b) :
    ∃ f t, b = ⟨.new (wireList c.children), t, .object c.id []⟩ ∧ c.id.toNat < 2^29 ∧
      s.field? c.id = some f ∧ f.schema = some t ∧ t.Distinct ∧
      ∀ d ∈ c.children, Conforms t d := by
  cases hb with
  | enter hrem ht =>
    obtain ⟨hskip, -⟩ | ⟨hscalar, -⟩ | ⟨f, t, hnested, hid, hf, hft, htd, hconf⟩ :=
      h.turn root acc hkept
    · cases ht.symm.trans hskip
    · cases ht.symm.trans hscalar
    · cases ht.symm.trans hnested
      exact ⟨f, _, rfl, hid, hf, hft, htd, hconf⟩

/-- Where every key leads to its own field or to none, decoding raises nothing. -/
theorem decodeLoop_keepsApart (cs : List MessageObject) :
    ∀ (r : BinaryMessageReader) (s : MessageSchema) (root : UInt32) (acc : List MessageObject),
      Before r s cs → (∀ c ∈ cs, KeepsApart s c) →
      ∃ fuel acc', decodeLoop fuel r s (.object root acc) = .ok (.object root acc') := by
  induction cs using MessageObject.list_induction with
  | step cs hchildren =>
    induction cs with
    | nil =>
      intro r s root acc hbefore _
      refine ⟨1, acc, decodeLoop_end ?_⟩
      rw [hbefore.inBounds.remaining_eq, hbefore.unread]
      rfl
    | cons c cs ih =>
      intro r s root acc hbefore hkeeps
      have hc := hkeeps c List.mem_cons_self
      have hrest := fun acc => ih (fun d hd => hchildren d (List.mem_cons_of_mem c hd)) _ s root acc
        hbefore.tail fun d hd => hkeeps d (List.mem_cons_of_mem c hd)
      have hrem := hbefore.remaining_pos
      obtain ⟨hturn, -⟩ | ⟨hturn, -⟩ | ⟨f, t, hturn, hid, hf, hft, ht, hconf⟩ :=
        hbefore.turn root acc hc.kept
      · obtain ⟨fuel, acc', hloop⟩ := hrest acc
        exact ⟨fuel+1, acc', by rw [decodeLoop_skipped hrem hturn, hloop]⟩
      · obtain ⟨fuel, acc', hloop⟩ := hrest (acc ++ [c])
        refine ⟨fuel+1, acc', ?_⟩
        rw [decodeLoop_scalar hrem hturn, MessageObject.addChild, Result.ok_bind, hloop]
      · obtain ⟨fuel₁, ds, hin⟩ := hchildren c List.mem_cons_self _ t c.id []
          (hbefore.nested ht hconf) (hc.children hid hf hft)
        obtain ⟨fuel₂, acc', hloop⟩ := hrest (acc ++ [.object c.id ds])
        refine ⟨max fuel₁ fuel₂+1, acc', ?_⟩
        have hin' := decodeLoop_mono fuel₁ _ _ _ (by rw [hin]; exact fun h => by cases h) _
          (le_max_left fuel₁ fuel₂)
        have hloop' := decodeLoop_mono fuel₂ _ _ _ (by rw [hloop]; exact fun h => by cases h) _
          (le_max_right fuel₁ fuel₂)
        rw [decodeLoop_nested hrem hturn, hin', hin, Result.ok_bind, MessageObject.addChild,
          Result.ok_bind, hloop', hloop]

/-- Every turn over encoded children takes their values for their own fields if and only if their
keys keep them apart from the other fields. -/
theorem takesFor_iff_keepsApart (cs : List MessageObject) :
    ∀ (r : BinaryMessageReader) (s : MessageSchema) (root : UInt32) (acc : List MessageObject),
      Before r s cs →
      ((∀ c ds k, Stands ⟨r, s, .object root acc⟩ cs (c :: ds) k → k.TakesFor c) ↔
        ∀ c ∈ cs, KeepsApart s c) := by
  induction cs using MessageObject.list_induction with
  | step cs hchildren =>
    induction cs with
    | nil =>
      intro r s root acc hbefore
      refine ⟨fun _ => List.forall_mem_nil _, fun _ c ds k hstands => ?_⟩
      exact absurd hstands Stands.not_nil
    | cons c cs ih =>
      intro r s root acc hbefore
      have hrem := hbefore.remaining_pos
      have hrest := fun acc => ih (fun d hd => hchildren d (List.mem_cons_of_mem c hd)) _ s root acc
        hbefore.tail
      have hhere : Head.TakesFor ⟨r, s, .object root acc⟩ c ↔ _ :=
        takesFor_iff hbefore.inBounds hbefore.unread
      constructor
      · intro htakes
        have hkept := hhere.1 (htakes c cs _ .start)
        rw [List.forall_mem_cons]
        obtain ⟨hturn, hid, hunknown⟩ | ⟨hturn, hid, hnil⟩ | ⟨f, t, hturn, hid, hf, hft, ht, hconf⟩ :=
          hbefore.turn root acc hkept
        · refine ⟨.wide hid hunknown, (hrest acc).1 fun d ds k hstands => ?_⟩
          exact htakes d ds k (Stands.trans (.next .start (.skipped hrem hturn)) hstands)
        · refine ⟨.narrow hid ?_, (hrest (acc ++ [c])).1 fun d ds k hstands => ?_⟩
          · rw [hnil]
            exact fun _ _ _ _ => List.forall_mem_nil _
          · exact htakes d ds k (Stands.trans (.next .start (.scalar hrem hturn rfl)) hstands)
        · have hinner : ∀ d ∈ c.children, KeepsApart t d :=
            (hchildren c List.mem_cons_self _ t c.id [] (hbefore.nested ht hconf)).1
              fun d ds k hstands =>
                htakes d ds k (Stands.trans (.enter .start (.enter hrem hturn)) hstands)
          obtain ⟨fuel, es, hin⟩ := decodeLoop_keepsApart c.children _ t c.id []
            (hbefore.nested ht hconf) hinner
          refine ⟨.narrow hid fun f' t' hf' ht' => ?_,
            (hrest (acc ++ [.object c.id es])).1 fun d ds k hstands => ?_⟩
          · cases hf.symm.trans hf'
            cases hft.symm.trans ht'
            exact hinner
          · exact htakes d ds k (Stands.trans (.next .start (.nested hrem hturn hin rfl)) hstands)
      · intro hkeeps d ds k hstands
        have hc := hkeeps c List.mem_cons_self
        have htail : ∀ acc d ds k, Stands ⟨r.skip (wireBytes c).length, s, .object root acc⟩ cs
            (d :: ds) k → k.TakesFor d :=
          fun acc => (hrest acc).2 fun d hd => hkeeps d (List.mem_cons_of_mem c hd)
        obtain ⟨heq, rfl⟩ | ⟨b, hnext, hb⟩ | ⟨b, henters, hb⟩ := hstands.first
        · cases heq
          exact hhere.2 hc.kept
        · obtain ⟨acc', rfl⟩ := hbefore.next_eq hc.kept hnext
          exact htail acc' d ds k hb
        · obtain ⟨f, t, rfl, hid, hf, hft, ht, hconf⟩ := hbefore.enters_eq hc.kept henters
          exact (hchildren c List.mem_cons_self _ t c.id [] (hbefore.nested ht hconf)).2
            (hc.children hid hf hft) d ds k hb

end decoding

/- Any bytes. -/

/-- The turn adds a child for the key. That of an OBJECT is added before its length is checked. -/
def Head.Adds (h : Head) (fkey : UInt64) : Prop :=
  0 < h.reader.remaining ∧ h.msg.type = .object ∧ ∃ r, h.reader.readVarUInt = .ok (fkey, r) ∧
    h.schema.hasField (fkey >>> 3).toUInt32 = true ∧
    ((∃ turn, parseKnown (fkey >>> 3).toUInt32 r h.schema h.msg = .ok turn) ∨
      h.schema.fieldType (fkey >>> 3).toUInt32 = .ok .object ∧
        ∃ len r', r.readVarUInt = .ok (len, r'))

theorem deref_fieldSchema {s t : MessageSchema} {id : UInt32} {schema : Option MessageSchema}
    (hschema : s.fieldSchema id = .ok schema) (ht : MessageSchema.deref schema = .ok t) :
    ∃ f, s.field? id = some f ∧ f.schema = some t := by
  unfold MessageSchema.fieldSchema at hschema
  cases hf : s.field? id with
  | none =>
    rw [hf] at hschema
    cases hschema
  | some f =>
    rw [hf] at hschema
    cases schema with
    | none => cases ht
    | some t' =>
      cases ht
      exact ⟨f, rfl, Result.ok.inj hschema⟩

/-- The schema of a nested object is that of its field. -/
theorem readTurn_nested_schema {r r' : BinaryMessageReader} {s t : MessageSchema}
    {msg : MessageObject} {id : UInt32} {data : Bytes}
    (h : readTurn r s msg = .ok (.nested r' id data t)) :
    ∃ f, s.field? id = some f ∧ f.schema = some t := by
  obtain ⟨⟨fkey, r₁⟩, -, hpayload⟩ := Result.bind_eq_ok h
  unfold readPayload at hpayload
  dsimp only at hpayload
  split at hpayload
  · obtain ⟨r₂, -, hskip⟩ := Result.bind_eq_ok hpayload
    cases hskip
  · obtain ⟨type, -, hvalue⟩ := Result.bind_eq_ok hpayload
    cases type with
    | object =>
      obtain ⟨⟨len, r₂⟩, -, h⟩ := Result.bind_eq_ok hvalue
      obtain ⟨_, -, h⟩ := Result.bind_eq_ok h
      dsimp only at h
      split at h
      · cases h
      · obtain ⟨obj_schema, hschema, h⟩ := Result.bind_eq_ok h
        obtain ⟨⟨data', r₃⟩, -, h⟩ := Result.bind_eq_ok h
        obtain ⟨t', ht, h⟩ := Result.bind_eq_ok h
        cases h
        exact deref_fieldSchema hschema ht
    | string =>
      obtain ⟨⟨len, r₂⟩, -, h⟩ := Result.bind_eq_ok hvalue
      obtain ⟨⟨val, r₃⟩, -, h⟩ := Result.bind_eq_ok h
      obtain ⟨str, -, h⟩ := Result.bind_eq_ok h
      cases h
    | boolean | uint32 | uint64 | double | datetime =>
      obtain ⟨⟨val, r₂⟩, -, h⟩ := Result.bind_eq_ok hvalue
      cases h

theorem Reaches.schema_distinct {start h : Head} (hr : Reaches start h)
    (hs : start.schema.Distinct) : h.schema.Distinct := by
  induction hr with
  | start => exact hs
  | skipped _ _ _ ih => exact ih
  | scalar _ _ _ _ ih => exact ih
  | leave _ _ _ _ _ ih => exact ih
  | enter _ _ ht ih =>
    obtain ⟨f, hf, hft⟩ := readTurn_nested_schema ht
    cases ih with
    | mk nodup nonzero types carries nested =>
      exact nested f (MessageSchema.field?_mem hf).1 _ hft

/-- A key adds a child for the field of its number, unless the number has more than 32 bits. -/
theorem Head.Adds.field_iff {h : Head} {fkey : UInt64} (hadds : h.Adds fkey)
    (hs : h.schema.Distinct) :
    (∃ f ∈ h.schema.fields, f.id.toNat = (fkey >>> 3).toNat) ↔ (fkey >>> 3).toNat < 2^32 := by
  constructor
  · intro hfield
    obtain ⟨f, -, hf⟩ := hfield
    have hlt := f.id.toNat_lt
    omega
  · intro hlt
    obtain ⟨-, -, r, -, hfield, -⟩ := hadds
    rw [hs.hasField_eq] at hfield
    obtain ⟨f, hf⟩ := Option.isSome_iff_exists.1 hfield
    obtain ⟨hmem, hid⟩ := MessageSchema.field?_mem hf
    refine ⟨f, hmem, ?_⟩
    rw [hid, UInt64.toNat_toUInt32]
    exact Nat.mod_eq_of_lt hlt

/-- For every schema: of a message that conforms to it, no value is taken for another field exactly
when the keys keep the fields apart; and of any bytes, children are added for fields of the schema
only exactly when no child is added for a key whose number has more than 32 bits. -/
theorem field_identity_iff {s : MessageSchema} (hs : s.Distinct) :
    (∀ (root : UInt32) (cs acc : List MessageObject), (∀ c ∈ cs, Conforms s c) →
      (MessageObject.object root cs).footprint < 2^63 →
      ∃ bytes, MessageEncoder.encode (.object root cs) s [] = .ok bytes ∧
        ((∀ c ds k, Stands ⟨.new bytes, s, .object root acc⟩ cs (c :: ds) k → k.TakesFor c) ↔
          ∀ c ∈ cs, KeepsApart s c)) ∧
    ∀ (buf : Buffer) (msg : MessageObject),
      (∀ h, Reaches ⟨.new buf.data, s, msg⟩ h → ∀ fkey, h.Adds fkey →
        ∃ f ∈ h.schema.fields, f.id.toNat = (fkey >>> 3).toNat) ↔
      ∀ h, Reaches ⟨.new buf.data, s, msg⟩ h → ∀ fkey, h.Adds fkey →
        (fkey >>> 3).toNat < 2^32 := by
  constructor
  · intro root cs acc hconf hsize
    have hlen := length_wireList_le cs fun c _ => length_wireBytes_le c
    rw [MessageObject.footprint] at hsize
    refine ⟨wireList cs, encode_eq hs root hconf, ?_⟩
    exact takesFor_iff_keepsApart cs _ s root acc ⟨.new (by omega), rfl, hs, hconf⟩
  · intro buf msg
    refine forall_congr' fun h => forall_congr' fun hr => forall_congr' fun fkey => ?_
    exact forall_congr' fun hadds => hadds.field_iff (hr.schema_distinct hs)

/- Two fields whose ids have the same 29 bits, and two that can be told apart. -/

def clashSchema : MessageSchema :=
  .new [] [{ id := 1, name := lit "a", type := .uint32 },
    { id := 0x20000001, name := lit "b", type := .uint32 }]

def apartSchema : MessageSchema :=
  .new [] [{ id := 1, name := lit "a", type := .uint32 },
    { id := 0x20000002, name := lit "b", type := .uint32 }]

/-- A schema of scalar fields. -/
theorem new_distinct {fields : List SchemaField} (hids : (fields.map (·.id)).Nodup)
    (hzero : ∀ f ∈ fields, f.id ≠ 0) (htype : ∀ f ∈ fields, f.type = .uint32)
    (hschema : ∀ f ∈ fields, f.schema = none) : (MessageSchema.new [] fields).Distinct := by
  have hfields := MessageSchema.new_fields [] fields
  refine .mk ?_ ?_ (MessageSchema.new_types [] fields) ?_ ?_
  · rwa [hfields]
  · rwa [hfields]
  · rw [hfields]
    intro f hf hobject
    rw [htype f hf] at hobject
    cases hobject
  · rw [hfields]
    intro f hf t ht
    rw [hschema f hf] at ht
    cases ht

theorem clashSchema_distinct : clashSchema.Distinct :=
  new_distinct (by decide) (by simp) (by simp) (by simp)

theorem apartSchema_distinct : apartSchema.Distinct :=
  new_distinct (by decide) (by simp) (by simp) (by simp)

theorem field_identity_apart : ∃ bytes,
    MessageEncoder.encode (.object 0 [.uint32 1 5, .uint32 0x20000002 7]) apartSchema [] =
      .ok bytes ∧
    ∀ c ds k, Stands ⟨.new bytes, apartSchema, .object 0 []⟩
      [.uint32 1 5, .uint32 0x20000002 7] (c :: ds) k → k.TakesFor c := by
  have hconf : ∀ c ∈ [.uint32 1 5, .uint32 0x20000002 7], Conforms apartSchema c := by
    simp only [List.forall_mem_cons]
    refine ⟨.mk rfl rfl ?_, .mk rfl rfl ?_, List.forall_mem_nil _⟩
    · exact fun _ _ => List.forall_mem_nil _
    · exact fun _ _ => List.forall_mem_nil _
  have hapart : ∀ c ∈ [.uint32 1 5, .uint32 0x20000002 7], KeepsApart apartSchema c := by
    simp only [List.forall_mem_cons]
    refine ⟨.narrow (by decide) ?_, .wide (by decide) (by decide), List.forall_mem_nil _⟩
    exact fun _ _ _ _ => List.forall_mem_nil _
  obtain ⟨bytes, hencode, htakes⟩ :=
    (field_identity_iff apartSchema_distinct).1 0 _ [] hconf (by decide)
  exact ⟨bytes, hencode, htakes.2 hapart⟩

/- The value of field 0x20000001 comes back as that of field 1. -/
example : decode 2 [0x08, 0x05] clashSchema (.object 0 []) = .ok (.object 0 [.uint32 1 5]) := rfl

theorem clash_not_identity : ¬∀ s : MessageSchema, s.Distinct →
    (∀ (root : UInt32) (cs acc : List MessageObject), (∀ c ∈ cs, Conforms s c) →
      (MessageObject.object root cs).footprint < 2^63 →
      ∃ bytes, MessageEncoder.encode (.object root cs) s [] = .ok bytes ∧
        ∀ c ds k, Stands ⟨.new bytes, s, .object root acc⟩ cs (c :: ds) k → k.TakesFor c) ∧
    ∀ (buf : Buffer) (msg : MessageObject) (h : Head), Reaches ⟨.new buf.data, s, msg⟩ h →
      ∀ fkey, h.Adds fkey → ∃ f ∈ h.schema.fields, f.id.toNat = (fkey >>> 3).toNat := by
  intro hclaim
  have hconf : ∀ c ∈ [.uint32 0x20000001 5], Conforms clashSchema c :=
    List.forall_mem_singleton.2 (.mk rfl rfl fun _ _ => List.forall_mem_nil _)
  obtain ⟨bytes, hencode, htakes⟩ :=
    (hclaim clashSchema clashSchema_distinct).1 0 _ [] hconf (by decide)
  have hbytes : MessageEncoder.encode (.object 0 [.uint32 0x20000001 5]) clashSchema [] =
      .ok [0x08, 0x05] := rfl
  cases hencode.symm.trans hbytes
  have hkey : (BinaryMessageReader.new [0x08, 0x05]).readVarUInt = .ok (8, _) := rfl
  exact absurd (htakes _ _ _ .start _ _ hkey rfl) (by decide)

end Stx.Msg.MessageDecoder
