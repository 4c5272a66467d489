import Stx.Io.InputStream

/-! The variable-length numbers of `BinaryMessageWriter` and `OutputStream` against their readers in
`BinaryMessageReader` and `InputStream`. -/
namespace Stx.Io

open Util

/-- Both writers write `bs` for `value`, and both readers take it back. -/
structure VarUIntCodec (value : UInt64) (bs : Bytes) : Prop where
  owned_writer : ∀ w : BinaryMessageWriter, w.Owned →
    ∃ w', w.appendVarUInt value = .ok w' ∧ w'.Owned ∧ w'.bytes = w.bytes ++ bs
  writer : ∀ w w' : BinaryMessageWriter, w.used ≤ w.ptr.length →
    w.appendVarUInt value = .ok w' → w'.bytes = w.bytes ++ bs
  stream : ∀ {α : Type} (write : Bytes → α), OutputStream.appendVarUInt write value = write bs
  /-- More room in the buffer changes nothing. -/
  room : ∀ room, BinaryMessageWriter.varUIntLoop (10+room) value = bs
  length_le : bs.length ≤ 10
  messageReader : ∀ (r : BinaryMessageReader) (rest : Bytes), r.InBounds →
    r.unread = bs ++ rest → r.readVarUInt = .ok (value, r.skip bs.length)
  inputStream : ∀ {σ : Type} [RewindableInputStream σ] {rest : σ → Bytes}, Delivers rest →
    Reads rest (InputStream.readVarUInt : Sys σ UInt64) bs value

theorem append_bytes {w w' : BinaryMessageWriter} {data : Bytes} (h : w.used ≤ w.ptr.length)
    (hok : w.append data = .ok w') : w'.bytes = w.bytes ++ data := by
  have hbytes := BinaryMessageWriter.copy_at_used w.ptr data w.used h
  obtain ⟨resize, -, hcopy⟩ := Result.bind_eq_ok hok
  split_ifs at hcopy
  · cases hcopy
  · cases hcopy
    exact hbytes
  · cases hcopy
    exact hbytes

/-- The loop is over when the groups of the value are. -/
theorem varUIntLoop_room {k : Nat} (room : Nat) {value : UInt64} (h : value.toNat < 128^(k+1)) :
    BinaryMessageWriter.varUIntLoop (k+1+room) value
      = BinaryMessageWriter.varUIntLoop (k+1) value := by
  induction k generalizing value with
  | zero =>
    have hz : value >>> 7 = 0 := (BinaryMessageWriter.shr7_eq_zero_iff value).2 (by omega)
    rw [Nat.add_comm (0+1) room, ← Nat.add_assoc, BinaryMessageWriter.varUIntLoop,
      BinaryMessageWriter.varUIntLoop, if_neg (not_not.2 hz), if_neg (not_not.2 hz)]
  | succ k ih =>
    have hnext : (value >>> 7).toNat < 128^(k+1) := by
      rw [BinaryMessageWriter.shr7_toNat]
      rw [pow_succ] at h
      exact Nat.div_lt_of_lt_mul (by omega)
    rw [Nat.add_right_comm (k+1) 1 room, BinaryMessageWriter.varUIntLoop,
      BinaryMessageWriter.varUIntLoop, ih hnext]

theorem varUIntBytes_prefix {value value' : UInt64}
    (h : BinaryMessageWriter.varUIntBytes value <+: BinaryMessageWriter.varUIntBytes value') :
    value' = value := by
  obtain ⟨tail, ht⟩ := h
  have hnum' := BinaryMessageWriter.varUIntBytes_numeral value'
  rw [← ht] at hnum'
  have hnil := (BinaryMessageWriter.varUIntBytes_numeral value).eq_nil_of_append hnum'
  rw [hnil, List.append_nil] at ht
  apply UInt64.toNat_inj.1
  rw [← BinaryMessageWriter.varUIntBytes_value value', ← ht,
    BinaryMessageWriter.varUIntBytes_value]

theorem varUInt_codec (value : UInt64) :
    VarUIntCodec value (BinaryMessageWriter.varUIntBytes value) ∧
      ∀ value', BinaryMessageWriter.varUIntBytes value <+: BinaryMessageWriter.varUIntBytes value' →
        value' = value where
  left := {
    owned_writer := fun _ hw => BinaryMessageWriter.append_owned hw _
    writer := fun _ _ hw hok => append_bytes hw hok
    stream := fun _ => rfl
    room := fun room => varUIntLoop_room room (Nat.lt_trans value.toNat_lt (by decide))
    length_le := BinaryMessageWriter.length_varUIntBytes_le value
    messageReader := fun _ _ hr h => BinaryMessageReader.readVarUInt_varUIntBytes hr h
    inputStream := fun hd => hd.reads_varUInt value }
  right := fun _ h => varUIntBytes_prefix h

end Stx.Io
