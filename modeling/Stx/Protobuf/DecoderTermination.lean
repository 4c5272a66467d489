import Stx.Protobuf.MessageDecoder

/-! When the field loop of the decoder comes to an end. Every turn moves the reader
forward, except the skipping of an unknown length-delimited field whose 64-bit length
makes `pos_ + size` wrap around in `readString`. -/
namespace Stx.Msg.MessageDecoder
open Util (BinaryMessageReader)
open Util.BinaryMessageReader (InBounds read_cases readVarUInt_cases)

/-- The state at a test of `while (reader.remaining() > 0)`. -/
structure Head where
  reader : BinaryMessageReader
  schema : MessageSchema
  msg : MessageObject

/-- The loop heads that a call of the decoder reaches, in the call itself and in the
calls for nested objects. -/
inductive Reaches (start : Head) : Head → Prop
  | start : Reaches start start
  | skipped {h : Head} {r : BinaryMessageReader} (hr : Reaches start h)
    (hrem : 0 < h.reader.remaining)
    (ht : readTurn h.reader h.schema h.msg = .ok (.skipped r)) :
    Reaches start { h with reader := r }
  | scalar {h : Head} {r : BinaryMessageReader} {c m : MessageObject} (hr : Reaches start h)
    (hrem : 0 < h.reader.remaining)
    (ht : readTurn h.reader h.schema h.msg = .ok (.scalar r c))
    (hm : h.msg.addChild c = .ok m) : Reaches start ⟨r, h.schema, m⟩
  | enter {h : Head} {r : BinaryMessageReader} {id : UInt32} {data : Bytes} {t : MessageSchema}
    (hr : Reaches start h) (hrem : 0 < h.reader.remaining)
    (ht : readTurn h.reader h.schema h.msg = .ok (.nested r id data t)) :
    Reaches start ⟨.new data, t, .object id []⟩
  | leave {h : Head} {r : BinaryMessageReader} {id : UInt32} {data : Bytes} {t : MessageSchema}
    {fuel : Nat} {nxt m : MessageObject} (hr : Reaches start h) (hrem : 0 < h.reader.remaining)
    (ht : readTurn h.reader h.schema h.msg = .ok (.nested r id data t))
    (hn : decodeLoop fuel (.new data) t (.object id []) = .ok nxt)
    (hm : h.msg.addChild nxt = .ok m) : Reaches start ⟨r, h.schema, m⟩

/-- The next field is unknown and length-delimited, and its length `len`, read up to
the position `p`, carries the position back to the key or before it:
`2 ^ 64 ≤ p + len ≤ 2 ^ 64 + pos`. -/
def Head.CarriedBack (h : Head) : Prop :=
  ∃ fkey r₁ len r₂, h.reader.readVarUInt = .ok (fkey, r₁) ∧
    h.schema.hasField (fkey >>> 3).toUInt32 = false ∧ wireType fkey = some .lenenc ∧
    r₁.readVarUInt = .ok (len, r₂) ∧
    2^64 ≤ r₂.pos+len.toNat ∧ r₂.pos+len.toNat ≤ 2^64+h.reader.pos

theorem Reaches.trans {a b c : Head} (hab : Reaches a b) (hbc : Reaches b c) : Reaches a c := by
  induction hbc with
  | start => exact hab
  | skipped _ hrem ht ih => exact .skipped ih hrem ht
  | scalar _ hrem ht hm ih => exact .scalar ih hrem ht hm
  | enter _ hrem ht ih => exact .enter ih hrem ht
  | leave _ hrem ht hn hm ih => exact .leave ih hrem ht hn hm

/-- Where a reader that started at `r` may stand after part of a turn. -/
def Ahead (r r' : BinaryMessageReader) : Prop := ∃ n, 0 < n ∧ r' = r.skip n ∧ r.pos+n ≤ r.size

theorem Ahead.inBounds {r r' : BinaryMessageReader} (hb : r.InBounds) (h : Ahead r r') :
    r'.InBounds := by
  obtain ⟨n, -, rfl, hle⟩ := h
  exact hb.skip hle

theorem Ahead.skip {r r' : BinaryMessageReader} {n : Nat} (h : Ahead r r')
    (hle : r'.pos+n ≤ r'.size) : Ahead r (r'.skip n) := by
  obtain ⟨k, hk, rfl, -⟩ := h
  refine ⟨k+n, by omega, BinaryMessageReader.skip_skip .., ?_⟩
  simp only [BinaryMessageReader.pos_skip, BinaryMessageReader.size_skip] at hle
  omega

theorem Ahead.size_eq {r r' : BinaryMessageReader} (h : Ahead r r') : r'.size = r.size := by
  obtain ⟨n, -, rfl, -⟩ := h
  rfl

/- A varint, a fixed-width value or a string read after part of a turn. -/

theorem Ahead.readVarUInt_cases {r r' : BinaryMessageReader} (hb : r.InBounds) (h : Ahead r r') :
    (∃ e, r'.readVarUInt = .raise e) ∨ ∃ v r'', r'.readVarUInt = .ok (v, r'') ∧ Ahead r r'' := by
  obtain ⟨e, he⟩ | ⟨v, n, hv, -, hle⟩ := BinaryMessageReader.readVarUInt_cases (h.inBounds hb)
  · exact .inl ⟨e, he⟩
  · exact .inr ⟨v, _, hv, h.skip hle⟩

theorem Ahead.read_cases {r r' : BinaryMessageReader} (hb : r.InBounds) (h : Ahead r r')
    {n : Nat} (hn : n < 2^63) :
    (∃ e, r'.read n = .raise e) ∨
    ∃ bs r'', r'.read n = .ok (bs, r'') ∧ Ahead r r'' ∧ bs.length = n ∧ r'.pos+n ≤ r'.size := by
  obtain ⟨e, he⟩ | ⟨bs, hv, hlen, hle⟩ := BinaryMessageReader.read_cases (h.inBounds hb) hn
  · exact .inl ⟨e, he⟩
  · exact .inr ⟨bs, _, hv, h.skip hle, hlen, hle⟩

theorem read_total (r : BinaryMessageReader) (n : Nat) :
    (∃ e, r.read n = .raise e) ∨ ∃ x, r.read n = .ok x := by
  unfold BinaryMessageReader.read BinaryMessageReader.readString
  split
  · exact .inl ⟨_, rfl⟩
  · exact .inr ⟨_, rfl⟩

/-- A read of a 64-bit length that wraps lands at `pos + len - 2 ^ 64`. -/
theorem read_wrap {r : BinaryMessageReader} (hb : r.InBounds) {n : Nat} (hn : n < 2^64)
    (hwrap : 2^64 ≤ r.pos+n) :
    r.read n = .ok (r.unread.take n, { r with pos := r.pos+n-2^64 }) := by
  have hpos := hb.pos_le
  have hlt := hb.size_lt
  have hmod : (r.pos+n) % 2^64 = r.pos+n-2^64 := by omega
  rw [BinaryMessageReader.read, BinaryMessageReader.readString, hmod, if_neg (by omega),
    BinaryMessageReader.unread]

/-- The reader stands further on in the same buffer. -/
structure Forward (r r' : BinaryMessageReader) : Prop where
  ptr_eq : r'.ptr = r.ptr
  pos_lt : r.pos < r'.pos
  pos_le : r'.pos ≤ r.size

theorem Ahead.forward {r r' : BinaryMessageReader} (h : Ahead r r') : Forward r r' := by
  obtain ⟨n, hn, rfl, hle⟩ := h
  exact ⟨rfl, by simp only [BinaryMessageReader.pos_skip]; omega, hle⟩

theorem Forward.inBounds {r r' : BinaryMessageReader} (hb : r.InBounds) (h : Forward r r') :
    r'.InBounds := by
  have hsize : r'.size = r.size := congrArg List.length h.ptr_eq
  exact ⟨by rw [hsize]; exact h.pos_le, by rw [hsize]; exact hb.size_lt⟩

/-- The length wraps: what the reader does with it in the skip branch. -/
def Wraps (fkey : UInt64) (r r₁ r' : BinaryMessageReader) : Prop :=
  wireType fkey = some .lenenc ∧ ∃ len r₂, r₁.readVarUInt = .ok (len, r₂) ∧ Ahead r r₂ ∧
    2^64 ≤ r₂.pos+len.toNat ∧ r' = { r₂ with pos := r₂.pos+len.toNat-2^64 }

theorem skipUnknown_cases {r r₁ : BinaryMessageReader} (hb : r.InBounds) (h : Ahead r r₁)
    (fkey : UInt64) :
    (∃ e, skipUnknown fkey r₁ = .raise e) ∨
    ∃ r', skipUnknown fkey r₁ = .ok r' ∧ (Ahead r r' ∨ Wraps fkey r r₁ r') := by
  cases hw : wireType fkey with
  | none => exact .inl ⟨_, by rw [skipUnknown, hw]; rfl⟩
  | some w =>
    cases w with
    | varint =>
      obtain ⟨e, he⟩ | ⟨v, r₂, hv, ha⟩ := h.readVarUInt_cases hb
      · exact .inl ⟨e, by simp [skipUnknown, hw, he]⟩
      · exact .inr ⟨r₂, by simp [skipUnknown, hw, hv], .inl ha⟩
    | fixed64 =>
      obtain ⟨e, he⟩ | ⟨bs, r₂, hv, ha, -, -⟩ := h.read_cases hb (n := 8) (by omega)
      · exact .inl ⟨e, by simp [skipUnknown, hw, BinaryMessageReader.readUInt64, he]⟩
      · exact .inr ⟨r₂, by simp [skipUnknown, hw, BinaryMessageReader.readUInt64, hv], .inl ha⟩
    | fixed32 =>
      obtain ⟨e, he⟩ | ⟨bs, r₂, hv, ha, -, -⟩ := h.read_cases hb (n := 4) (by omega)
      · exact .inl ⟨e, by simp [skipUnknown, hw, BinaryMessageReader.readUInt32, he]⟩
      · exact .inr ⟨r₂, by simp [skipUnknown, hw, BinaryMessageReader.readUInt32, hv], .inl ha⟩
    | lenenc =>
      obtain ⟨e, he⟩ | ⟨len, r₂, hv, ha⟩ := h.readVarUInt_cases hb
      · exact .inl ⟨e, by simp [skipUnknown, hw, he]⟩
      · by_cases hwrap : 2^64 ≤ r₂.pos+len.toNat
        · have hread := read_wrap (ha.inBounds hb) len.toNat_lt hwrap
          exact .inr ⟨_, by simp only [skipUnknown, hw, hv, Result.ok_bind, hread, Result.pure_eq],
            .inr ⟨hw, len, r₂, hv, ha, hwrap, rfl⟩⟩
        · have hread := BinaryMessageReader.read_eq (r := r₂) (n := len.toNat) (by omega)
          by_cases hover : r₂.pos+len.toNat > r₂.size
          · rw [if_pos hover] at hread
            exact .inl ⟨_, by simp only [skipUnknown, hw, hv, Result.ok_bind, hread]; rfl⟩
          · rw [if_neg hover] at hread
            exact .inr ⟨r₂.skip len.toNat,
              by simp only [skipUnknown, hw, hv, Result.ok_bind, hread, Result.pure_eq],
              .inl (ha.skip (by omega))⟩

/-- The turn goes forward, and the bytes of a nested object are fewer than those that
were left. -/
def Turn.GoesOn (r : BinaryMessageReader) (turn : Turn) : Prop :=
  Forward r turn.reader ∧
    ∀ r' id data t, turn = .nested r' id data t → data.length < r.remaining

theorem parseKnown_cases {r r₁ : BinaryMessageReader} (hb : r.InBounds) (h : Ahead r r₁)
    (fid : UInt32) (s : MessageSchema) (m : MessageObject) :
    (∃ e, parseKnown fid r₁ s m = .raise e) ∨
    ∃ turn, parseKnown fid r₁ s m = .ok turn ∧ turn.GoesOn r := by
  have hscalar : ∀ r₂ c, Ahead r r₂ → parseKnown fid r₁ s m = .ok (.scalar r₂ c) →
      ∃ turn, parseKnown fid r₁ s m = .ok turn ∧ turn.GoesOn r := fun r₂ c ha h =>
    ⟨_, h, ha.forward, fun r' id data t ht => by cases ht⟩
  obtain ⟨e, he⟩ | ⟨ft, hft⟩ : (∃ e, s.fieldType fid = .raise e) ∨
      ∃ ft, s.fieldType fid = .ok ft := by
    unfold MessageSchema.fieldType
    split
    · exact .inr ⟨_, rfl⟩
    · split
      · exact .inl ⟨_, rfl⟩
      · exact .inr ⟨_, rfl⟩
  · exact .inl ⟨e, by simp [parseKnown, he]⟩
  cases ft with
  | double =>
    obtain ⟨e, he⟩ | ⟨bs, r₂, hv, ha, -, -⟩ := h.read_cases hb (n := 8) (by omega)
    · exact .inl ⟨e, by
        simp [parseKnown, hft, BinaryMessageReader.readDouble, BinaryMessageReader.readUInt64, he]⟩
    · refine .inr (hscalar r₂ (.double fid (UInt64.ofNat (LittleEndian.decode bs))) ha ?_)
      simp only [parseKnown, hft, BinaryMessageReader.readDouble, BinaryMessageReader.readUInt64,
        hv, Result.ok_bind, Result.pure_eq]
  | uint32 | uint64 | datetime | boolean =>
    obtain ⟨e, he⟩ | ⟨v, r₂, hv, ha⟩ := h.readVarUInt_cases hb
    · exact .inl ⟨e, by simp [parseKnown, hft, he]⟩
    · exact .inr (hscalar r₂ _ ha (by
        simp only [parseKnown, hft, hv, Result.ok_bind, Result.pure_eq]
        rfl))
  | string =>
    obtain ⟨e, he⟩ | ⟨len, r₂, hv, ha⟩ := h.readVarUInt_cases hb
    · exact .inl ⟨e, by simp [parseKnown, hft, he]⟩
    · by_cases hlen : len.toNat < 2^63
      · obtain ⟨e, he⟩ | ⟨bs, r₃, hread, ha₃, -, -⟩ := ha.read_cases hb hlen
        · exact .inl ⟨e, by simp [parseKnown, hft, hv, he]⟩
        · have hmk := mkString_ok hlen bs
          refine .inr (hscalar r₃ (.string fid bs) ha₃ ?_)
          simp only [parseKnown, hft, hv, Result.ok_bind, hread, hmk, Result.pure_eq]
      · -- a length that could wrap is more than a string can hold
        have hmk := mkString_raise hlen
        obtain ⟨e, he⟩ | ⟨x, hx⟩ := read_total r₂ len.toNat
        · exact .inl ⟨e, by simp [parseKnown, hft, hv, he]⟩
        · exact .inl ⟨_, by simp only [parseKnown, hft, hv, Result.ok_bind, hx, hmk]; rfl⟩
  | object =>
    obtain ⟨e, he⟩ | ⟨len, r₂, hv, ha⟩ := h.readVarUInt_cases hb
    · exact .inl ⟨e, by simp [parseKnown, hft, he]⟩
    obtain ⟨e, he⟩ | ⟨cs, hcs⟩ : (∃ e, m.asObject = .raise e) ∨ ∃ cs, m.asObject = .ok cs := by
      cases m with
      | object id cs => exact .inr ⟨cs, rfl⟩
      | _ => exact .inl ⟨_, rfl⟩
    · exact .inl ⟨e, by simp [parseKnown, hft, hv, he]⟩
    by_cases hrem : len.toNat > r₂.remaining
    · exact .inl ⟨_, by simp only [parseKnown, hft, hv, hcs, Result.ok_bind, if_pos hrem]; rfl⟩
    cases hfield : s.field? fid with
    | none =>
      exact .inl ⟨_, by
        simp only [parseKnown, hft, hv, hcs, Result.ok_bind, if_neg hrem,
          MessageSchema.fieldSchema, hfield]
        rfl⟩
    | some f =>
      have hsize := ha.size_eq
      have hlt := hb.size_lt
      have hposlt := ha.forward.pos_lt
      unfold BinaryMessageReader.remaining at hrem
      obtain ⟨e, he⟩ | ⟨bs, r₃, hread, ha₃, hbs, hle⟩ := ha.read_cases hb (n := len.toNat) (by omega)
      · exact .inl ⟨e, by
          simp [parseKnown, hft, hv, hcs, hrem, BinaryMessageReader.remaining,
            MessageSchema.fieldSchema, hfield, he]⟩
      · cases hsch : f.schema with
        | none =>
          exact .inl ⟨_, by
            simp only [parseKnown, hft, hv, hcs, Result.ok_bind, BinaryMessageReader.remaining,
              if_neg hrem, MessageSchema.fieldSchema, hfield, hread, hsch, MessageSchema.deref]
            rfl⟩
        | some t =>
          refine .inr ⟨.nested r₃ fid bs t, ?_, ha₃.forward, ?_⟩
          · simp only [parseKnown, hft, hv, hcs, Result.ok_bind, BinaryMessageReader.remaining,
              if_neg hrem, MessageSchema.fieldSchema, hfield, hread, hsch, MessageSchema.deref,
              Result.pure_eq]
          · intro r' id data t' ht
            cases ht
            unfold BinaryMessageReader.remaining
            omega

/-- What one turn can do on any bytes: raise, go on, or be carried back. -/
theorem readTurn_cases (h : Head) (hb : h.reader.InBounds) :
    (∃ e, readTurn h.reader h.schema h.msg = .raise e) ∨
    (∃ turn, readTurn h.reader h.schema h.msg = .ok turn ∧ turn.GoesOn h.reader) ∨
    (h.CarriedBack ∧ ∃ r', readTurn h.reader h.schema h.msg = .ok (.skipped r') ∧
      r'.ptr = h.reader.ptr ∧ r'.pos ≤ h.reader.pos) := by
  obtain ⟨e, he⟩ | ⟨fkey, n, hv, hn, hle⟩ := readVarUInt_cases hb
  · exact .inl ⟨e, by simp [readTurn, he]⟩
  have ha : Ahead h.reader (h.reader.skip n) := ⟨n, hn, rfl, hle⟩
  cases hknown : h.schema.hasField (fkey >>> 3).toUInt32 with
  | true =>
    have hturn : readTurn h.reader h.schema h.msg =
        parseKnown (fkey >>> 3).toUInt32 (h.reader.skip n) h.schema h.msg := by
      simp only [readTurn, hv, Result.ok_bind, readPayload, hknown, Bool.not_true,
        Bool.false_eq_true, if_false]
    rw [hturn]
    obtain hr | ht := parseKnown_cases hb ha (fkey >>> 3).toUInt32 h.schema h.msg
    · exact .inl hr
    · exact .inr (.inl ht)
  | false =>
    have hturn : readTurn h.reader h.schema h.msg =
        (skipUnknown fkey (h.reader.skip n) >>= fun r => pure (.skipped r)) := by
      simp only [readTurn, hv, Result.ok_bind, readPayload, hknown, Bool.not_false, if_true]
    rw [hturn]
    obtain ⟨e, he⟩ | ⟨r', hr', ha' | hw⟩ := skipUnknown_cases hb ha fkey
    · exact .inl ⟨e, by rw [he]; rfl⟩
    · exact .inr (.inl ⟨.skipped r', by rw [hr']; rfl, ha'.forward, fun _ _ _ _ ht => by cases ht⟩)
    · obtain ⟨hwire, len, r₂, hlen, ha₂, hwrap, heq⟩ := hw
      have hpos₂ := ha₂.forward
      have hlenlt := len.toNat_lt
      have hpos' : r'.pos = r₂.pos+len.toNat-2^64 := by rw [heq]
      by_cases hback : r₂.pos+len.toNat ≤ 2^64+h.reader.pos
      · have hcarried : h.CarriedBack := ⟨fkey, _, len, r₂, hv, hknown, hwire, hlen, hwrap, hback⟩
        exact .inr (.inr ⟨hcarried, r', by rw [hr']; rfl, by rw [heq]; exact hpos₂.ptr_eq, by omega⟩)
      · have hfwd : Forward h.reader r' := by
          refine ⟨by rw [heq]; exact hpos₂.ptr_eq, by omega, ?_⟩
          have := hpos₂.pos_le
          omega
        exact .inr (.inl ⟨.skipped r', by rw [hr']; rfl, hfwd, fun _ _ _ _ ht => by cases ht⟩)

theorem Head.CarriedBack.remaining_pos {h : Head} (hb : h.reader.InBounds) (hc : h.CarriedBack) :
    0 < h.reader.remaining := by
  obtain ⟨fkey, r₁, len, r₂, hkey, -⟩ := hc
  obtain ⟨e, he⟩ | ⟨v, n, -, hn, hle⟩ := readVarUInt_cases hb
  · rw [he] at hkey
    cases hkey
  · unfold BinaryMessageReader.remaining
    omega

/-- More fuel never changes an outcome. -/
theorem decodeLoop_mono (fuel : Nat) :
    ∀ (r : BinaryMessageReader) (s : MessageSchema) (m : MessageObject),
      (decodeLoop fuel r s m).Terminates → ∀ k, fuel ≤ k →
        decodeLoop k r s m = decodeLoop fuel r s m := by
  induction fuel with
  | zero => exact fun r s m h => absurd rfl h
  | succ fuel ih =>
    intro r s m h k hk
    obtain ⟨k, rfl⟩ : ∃ j, k = j+1 := Nat.exists_eq_add_one.2 (by omega)
    by_cases hrem : 0 < r.remaining
    · cases hturn : readTurn r s m with
      | raise e => rw [decodeLoop_raise hrem hturn, decodeLoop_raise hrem hturn]
      | diverge => exact absurd (by simp [decodeLoop, hrem, hturn]) h
      | ok turn =>
        cases turn with
        | skipped r' =>
          rw [decodeLoop_skipped hrem hturn] at h ⊢
          rw [decodeLoop_skipped hrem hturn]
          exact ih r' s m h k (by omega)
        | scalar r' c =>
          rw [decodeLoop_scalar hrem hturn] at h ⊢
          rw [decodeLoop_scalar hrem hturn]
          cases hm : m.addChild c with
          | raise e => rfl
          | diverge => rfl
          | ok m' =>
            rw [hm] at h
            exact ih r' s m' h k (by omega)
        | nested r' id data t =>
          rw [decodeLoop_nested hrem hturn] at h ⊢
          rw [decodeLoop_nested hrem hturn]
          have hinner : (decodeLoop fuel (.new data) t (.object id [])).Terminates := by
            intro hd
            rw [hd] at h
            exact h rfl
          rw [ih _ _ _ hinner k (by omega)]
          cases hn : decodeLoop fuel (.new data) t (.object id []) with
          | raise e => rfl
          | diverge => exact absurd hn hinner
          | ok nxt =>
            rw [hn, Result.ok_bind] at h
            simp only [Result.ok_bind]
            cases hm : m.addChild nxt with
            | raise e => rfl
            | diverge => rfl
            | ok m' =>
              rw [hm] at h
              exact ih r' s m' h k (by omega)
    · have hz : r.remaining = 0 := by omega
      rw [decodeLoop_end hz, decodeLoop_end hz]

/-- Readers stay inside their buffers at every loop head, carried back or not. -/
theorem Reaches.inBounds {start h : Head} (hr : Reaches start h) (hb : start.reader.InBounds) :
    h.reader.InBounds := by
  induction hr with
  | start => exact hb
  | @scalar h r' c m hreach hrem hturn hm ih
  | @leave h r' id data t fuel nxt m hreach hrem hturn hn hm ih =>
    obtain ⟨e, he⟩ | ⟨turn, hok, hfwd, -⟩ | ⟨-, r'', hok, -⟩ := readTurn_cases h ih
    · rw [he] at hturn
      cases hturn
    · rw [hok] at hturn
      cases hturn
      exact hfwd.inBounds ih
    · rw [hok] at hturn
      cases hturn
  | @skipped h r' hreach hrem hturn ih =>
    obtain ⟨e, he⟩ | ⟨turn, hok, hfwd, -⟩ | ⟨-, r'', hok, hptr, hle⟩ := readTurn_cases h ih
    · rw [he] at hturn
      cases hturn
    · rw [hok] at hturn
      cases hturn
      exact hfwd.inBounds ih
    · rw [hok] at hturn
      cases hturn
      have hsize : r'.size = h.reader.size := congrArg List.length hptr
      exact ⟨by rw [hsize]; exact hle.trans ih.pos_le, by rw [hsize]; exact ih.size_lt⟩
  | @enter h r' id data t hreach hrem hturn ih =>
    obtain ⟨e, he⟩ | ⟨turn, hok, -, hnest⟩ | ⟨-, r'', hok, -⟩ := readTurn_cases h ih
    · rw [he] at hturn
      cases hturn
    · rw [hok] at hturn
      cases hturn
      have hdata := hnest r' id data t rfl
      have hsize := ih.size_lt
      unfold BinaryMessageReader.remaining at hdata
      exact .new (by omega)
    · rw [hok] at hturn
      cases hturn

end Stx.Msg.MessageDecoder
