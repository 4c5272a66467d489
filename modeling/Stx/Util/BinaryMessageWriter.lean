import Stx.Base
import Stx.Lib.Base128
import Stx.Lib.LittleEndian

/-! `util/binarymessagewriter.cc`. A writer is a block of memory with two counters;
`bytes` is the byte string it stands for. Block sizes are natural numbers and
`realloc` succeeds: no block comes near the end of the address space. -/
namespace Stx.Util

/-- `ptr` holds the bytes of the block written so far and `alloc` the number of
bytes last asked of the allocator; the other fields are the source's own. -/
structure BinaryMessageWriter where
  ptr : Bytes
  alloc : Nat
  size_ : Nat
  used : Nat
  owned : Bool
  deriving DecidableEq, Repr

namespace BinaryMessageWriter

def kInitialDataSize : Nat := 4096

def new (initial_size : Nat := kInitialDataSize) : BinaryMessageWriter :=
  ⟨[], initial_size, initial_size, 0, true⟩

/-- `data()[0 .. size())`. -/
def bytes (w : BinaryMessageWriter) : Bytes := w.ptr.take w.used

def size (w : BinaryMessageWriter) : Nat := w.used

/-- `while (need > resize) resize *= 2`; a `resize` of zero never gets there. -/
def resizeLoop (need : Nat) : Nat → Nat → Result Nat
  | 0, _ => .diverge
  | fuel+1, resize =>
    if need > resize then resizeLoop need fuel (resize*2) else .ok resize

/-- `memcpy` into the block; memory that was never written reads as zero. -/
def copy (ptr : Bytes) (offset : Nat) (data : Bytes) : Bytes :=
  (ptr ++ List.replicate (offset-ptr.length) 0).take offset ++ data ++
    ptr.drop (offset+data.length)

/- `size_` keeps its first value when the block grows, as in the source, so every
   append past it computes the block size again from `size_`. -/
def append (w : BinaryMessageWriter) (data : Bytes) : Result BinaryMessageWriter := do
  let resize ← resizeLoop (w.used+data.length) (w.used+data.length+1) w.size_
  if resize > w.size_ then
    if !w.owned then
      Result.RAISE .bufferOverflowError "provided buffer is too small"
    else
      pure { w with
        ptr := copy w.ptr w.used data, alloc := resize, used := w.used+data.length }
  else
    pure { w with ptr := copy w.ptr w.used data, used := w.used+data.length }

/- The `do ... while (value)` loop over `unsigned char buf[10]`: the fuel is the
   room left in `buf`. -/
def varUIntLoop : Nat → UInt64 → Bytes
  | 0, _ => []
  | room+1, value =>
    let b := (value &&& 0x7f).toUInt8
    if value >>> 7 ≠ 0 then (b ||| 0x80) :: varUIntLoop room (value >>> 7) else [b]

def varUIntBytes (value : UInt64) : Bytes := varUIntLoop 10 value

def appendVarUInt (w : BinaryMessageWriter) (value : UInt64) : Result BinaryMessageWriter :=
  w.append (varUIntBytes value)

/-- The bytes of a `uint64_t` in memory, on a little-endian machine. -/
def uint64Bytes (value : UInt64) : Bytes := LittleEndian.encode 8 value.toNat

def appendUInt64 (w : BinaryMessageWriter) (value : UInt64) : Result BinaryMessageWriter :=
  w.append (uint64Bytes value)

/-- A double is its 64-bit pattern, so `IEEE754::toBytes` is the identity. -/
def appendDouble (w : BinaryMessageWriter) (value : UInt64) : Result BinaryMessageWriter :=
  w.appendUInt64 value

def appendUInt8 (w : BinaryMessageWriter) (value : UInt8) : Result BinaryMessageWriter :=
  w.append [value]

def appendLenencString (w : BinaryMessageWriter) (string : Bytes) :
    Result BinaryMessageWriter := do
  let w ← w.appendVarUInt (UInt64.ofNat string.length)
  w.append string

/-- What holds of every writer that owns its block. -/
structure Owned (w : BinaryMessageWriter) : Prop where
  owned : w.owned = true
  size_pos : 0 < w.size_
  used_le : w.used ≤ w.ptr.length

theorem Owned.new : Owned BinaryMessageWriter.new :=
  ⟨rfl, by decide, Nat.le_refl 0⟩

@[simp] theorem bytes_new : BinaryMessageWriter.new.bytes = [] := rfl

theorem Owned.length_bytes {w : BinaryMessageWriter} (h : w.Owned) :
    w.bytes.length = w.used := by
  rw [bytes, List.length_take]
  exact Nat.min_eq_left h.used_le

/- Doubling reaches `need`: the bound `need ≤ resize + fuel` survives every turn. -/
theorem resizeLoop_ok (need fuel resize : Nat) (hpos : 0 < resize) (h : need ≤ resize+fuel) :
    ∃ r, resizeLoop need (fuel+1) resize = .ok r := by
  induction fuel generalizing resize with
  | zero => exact ⟨resize, by rw [resizeLoop, if_neg (by omega)]⟩
  | succ fuel ih =>
    rw [resizeLoop]
    split
    · exact ih (resize*2) (by omega) (by omega)
    · exact ⟨resize, rfl⟩

theorem copy_at_used (ptr data : Bytes) (used : Nat) (h : used ≤ ptr.length) :
    (copy ptr used data).take (used+data.length) = ptr.take used ++ data := by
  have hlen : ((ptr ++ List.replicate (used-ptr.length) 0).take used).length = used := by
    simp only [List.length_take, List.length_append, List.length_replicate]
    omega
  rw [copy, List.append_assoc, List.take_append, hlen, List.take_of_length_le (by omega),
    Nat.add_sub_cancel_left, List.take_left, List.take_append_of_le_length h]

theorem length_copy_ge (ptr data : Bytes) (used : Nat) (h : used ≤ ptr.length) :
    used+data.length ≤ (copy ptr used data).length := by
  have htake := congrArg List.length (copy_at_used ptr data used h)
  simp only [List.length_take, List.length_append] at htake
  omega

/-- An owned writer is a growable byte string. -/
theorem append_owned {w : BinaryMessageWriter} (h : w.Owned) (data : Bytes) :
    ∃ w', w.append data = .ok w' ∧ w'.Owned ∧ w'.bytes = w.bytes ++ data := by
  obtain ⟨r, hr⟩ := resizeLoop_ok (w.used+data.length) (w.used+data.length) w.size_
    h.size_pos (by omega)
  have hbytes := copy_at_used w.ptr data w.used h.used_le
  have hlen := length_copy_ge w.ptr data w.used h.used_le
  simp only [append, hr, Result.ok_bind, h.owned, Bool.not_true, Bool.false_eq_true, if_false]
  split
  · exact ⟨_, rfl, ⟨rfl, h.size_pos, hlen⟩, hbytes⟩
  · exact ⟨_, rfl, ⟨rfl, h.size_pos, hlen⟩, hbytes⟩

/-- The call `x` puts exactly `data` behind what an owned writer holds. -/
def Writes (x : BinaryMessageWriter → Result BinaryMessageWriter) (data : Bytes) : Prop :=
  ∀ w : BinaryMessageWriter, w.Owned → ∃ w', x w = .ok w' ∧ w'.Owned ∧ w'.bytes = w.bytes ++ data

theorem Writes.pure : Writes Pure.pure [] := fun w h => ⟨w, rfl, h, (List.append_nil _).symm⟩

theorem Writes.append (data : Bytes) : Writes (·.append data) data :=
  fun _ h => append_owned h data

theorem Writes.bind {x f : BinaryMessageWriter → Result BinaryMessageWriter} {a b : Bytes}
    (hx : Writes x a) (hf : Writes f b) : Writes (fun w => x w >>= f) (a ++ b) := by
  intro w hw
  obtain ⟨w₁, h₁, hw₁, hb₁⟩ := hx w hw
  obtain ⟨w₂, h₂, hw₂, hb₂⟩ := hf w₁ hw₁
  have h : x w >>= f = .ok w₂ := by rw [h₁, Result.ok_bind, h₂]
  exact ⟨w₂, h, hw₂, by rw [hb₂, hb₁, List.append_assoc]⟩

theorem Writes.varUInt (value : UInt64) : Writes (·.appendVarUInt value) (varUIntBytes value) :=
  Writes.append _

theorem Writes.uint8 (value : UInt8) : Writes (·.appendUInt8 value) [value] := Writes.append _

/-- A string behind its length. -/
def lenencBytes (string : Bytes) : Bytes :=
  varUIntBytes (UInt64.ofNat string.length) ++ string

theorem Writes.lenencString (string : Bytes) :
    Writes (·.appendLenencString string) (lenencBytes string) :=
  (Writes.varUInt _).bind (Writes.append string)

/- Machine facts of one turn of the varint loop. -/

theorem shr7_toNat (v : UInt64) : (v >>> 7).toNat = v.toNat / 128 := by
  rw [UInt64.toNat_shiftRight]
  simp [Nat.shiftRight_eq_div_pow]

theorem shr7_eq_zero_iff (v : UInt64) : v >>> 7 = 0 ↔ v.toNat < 128 := by
  rw [← UInt64.toNat_inj, shr7_toNat]
  simp

theorem low7_toNat (v : UInt64) : ((v &&& 0x7f).toUInt8).toNat = v.toNat % 128 := by
  rw [UInt64.toNat_toUInt8, UInt64.toNat_and]
  have h := Base128.and_127 v.toNat
  change (v.toNat &&& 127) % 2 ^ 8 = _
  omega

/-- The loop writes one base-128 numeral of the value, never more than it has room for. -/
theorem varUIntLoop_spec (room : Nat) (v : UInt64) (h : v.toNat < 128 ^ (room+1)) :
    Base128.Numeral (varUIntLoop (room+1) v) ∧
    Base128.value (varUIntLoop (room+1) v) = v.toNat ∧
    (varUIntLoop (room+1) v).length ≤ room+1 := by
  induction room generalizing v with
  | zero =>
    have hz : v >>> 7 = 0 := (shr7_eq_zero_iff v).2 (by omega)
    have hlow := low7_toNat v
    have hmore : ¬ Base128.more (v &&& 0x7f).toUInt8 := by
      unfold Base128.more
      omega
    simp only [varUIntLoop, hz, ne_eq, not_true_eq_false, if_false, List.length_singleton,
      Base128.value, Base128.digit]
    exact ⟨Base128.numeral_last hmore, by omega, by omega⟩
  | succ room ih =>
    have hlow := low7_toNat v
    rw [varUIntLoop]
    by_cases hz : v >>> 7 = 0
    · have hlt := (shr7_eq_zero_iff v).1 hz
      have hmore : ¬ Base128.more (v &&& 0x7f).toUInt8 := by
        unfold Base128.more
        omega
      simp only [hz, ne_eq, not_true_eq_false, if_false, List.length_singleton,
        Base128.value, Base128.digit]
      exact ⟨Base128.numeral_last hmore, by omega, by omega⟩
    · have hnext : (v >>> 7).toNat < 128 ^ (room+1) := by
        rw [shr7_toNat]
        rw [pow_succ] at h
        exact Nat.div_lt_of_lt_mul (by omega)
      obtain ⟨hnum, hval, hlen⟩ := ih (v >>> 7) hnext
      have hor := Base128.or_128_toNat (b := (v &&& 0x7f).toUInt8) (by omega)
      have hmore : Base128.more ((v &&& 0x7f).toUInt8 ||| 0x80) := by
        unfold Base128.more
        omega
      have hdigit : Base128.digit ((v &&& 0x7f).toUInt8 ||| 0x80) = v.toNat % 128 := by
        change ((v &&& 0x7f).toUInt8 ||| 128).toNat % 128 = _
        omega
      simp only [hz, ne_eq, not_false_eq_true, if_true]
      refine ⟨Base128.numeral_cons hmore hnum, ?_, ?_⟩
      · rw [Base128.value, hdigit, hval, shr7_toNat]
        omega
      · simp only [List.length_cons]
        omega

theorem varUIntBytes_numeral (v : UInt64) : Base128.Numeral (varUIntBytes v) :=
  (varUIntLoop_spec 9 v (by have := v.toNat_lt; omega)).1

theorem varUIntBytes_value (v : UInt64) : Base128.value (varUIntBytes v) = v.toNat :=
  (varUIntLoop_spec 9 v (by have := v.toNat_lt; omega)).2.1

/-- The ten bytes of `buf` always suffice. -/
theorem length_varUIntBytes_le (v : UInt64) : (varUIntBytes v).length ≤ 10 :=
  (varUIntLoop_spec 9 v (by have := v.toNat_lt; omega)).2.2

/-- No numeral of the value is shorter. -/
theorem length_varUIntLoop_le_of_lt (room k : Nat) (v : UInt64) (h : v.toNat < 128^(k+1)) :
    (varUIntLoop room v).length ≤ k+1 := by
  induction room generalizing k v with
  | zero => simp [varUIntLoop]
  | succ room ih =>
    rw [varUIntLoop]
    by_cases hz : v >>> 7 = 0
    · simp [hz]
    · rw [if_pos hz, List.length_cons]
      have hge : 128 ≤ v.toNat := not_lt.1 (mt (shr7_eq_zero_iff v).2 hz)
      cases k with
      | zero => omega
      | succ k =>
        rw [pow_succ] at h
        have hlt : (v >>> 7).toNat < 128^(k+1) := by
          rw [shr7_toNat]
          exact Nat.div_lt_of_lt_mul (by omega)
        have := ih k (v >>> 7) hlt
        omega

@[simp] theorem length_uint64Bytes (v : UInt64) : (uint64Bytes v).length = 8 := by
  simp [uint64Bytes]

end BinaryMessageWriter
end Stx.Util
