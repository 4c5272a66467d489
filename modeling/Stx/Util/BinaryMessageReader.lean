import Stx.Util.BinaryMessageWriter

/-! `util/binarymessagereader_impl.h`, built with its bounds checks. `size_t` and
`uint64_t` arithmetic is modulo `2 ^ 64`, so the sum in `readString` wraps around as
it does in the source. -/
namespace Stx.Util

/-- The buffer `ptr`, of `size_ = ptr.length` bytes, and the read position. -/
structure BinaryMessageReader where
  ptr : Bytes
  pos : Nat
  deriving DecidableEq, Repr

namespace BinaryMessageReader

def new (buf : Bytes) : BinaryMessageReader := ⟨buf, 0⟩

def size (r : BinaryMessageReader) : Nat := r.ptr.length

def remaining (r : BinaryMessageReader) : Nat := r.size-r.pos

/- The result is the memory at the returned pointer, cut at the end of the buffer. -/
def readString (r : BinaryMessageReader) (size : Nat) : Result (Bytes × BinaryMessageReader) :=
  if (r.pos+size) % 2^64 > r.size then
    Result.RAISE .bufferOverflowError "requested read exceeds message bounds"
  else
    .ok ((r.ptr.drop r.pos).take size, { r with pos := (r.pos+size) % 2^64 })

def read (r : BinaryMessageReader) (size : Nat) : Result (Bytes × BinaryMessageReader) :=
  r.readString size

/- Each turn reads one byte; there are never more turns than bytes left. The shift
   count `7 * i` acts modulo 64, as the x86-64 shift does where C++ leaves a count
   of 64 or more undefined. -/
def readVarUIntLoop : Nat → Nat → UInt64 → BinaryMessageReader →
    Result (UInt64 × BinaryMessageReader)
  | 0, _, _, _ => .diverge
  | fuel+1, i, value, r => do
    let (bytes, r) ← r.read 1
    let b := bytes.headD 0
    let value := value ||| ((b.toUInt64 &&& 0x7f) <<< UInt64.ofNat (7*i))
    if b &&& 0x80 = 0 then pure (value, r) else readVarUIntLoop fuel (i+1) value r

def readVarUInt (r : BinaryMessageReader) : Result (UInt64 × BinaryMessageReader) :=
  readVarUIntLoop (r.remaining+1) 0 0 r

def readUInt32 (r : BinaryMessageReader) : Result (UInt32 × BinaryMessageReader) := do
  let (bytes, r) ← r.read 4
  pure (UInt32.ofNat (LittleEndian.decode bytes), r)

def readUInt64 (r : BinaryMessageReader) : Result (UInt64 × BinaryMessageReader) := do
  let (bytes, r) ← r.read 8
  pure (UInt64.ofNat (LittleEndian.decode bytes), r)

/-- A double is its 64-bit pattern, so `IEEE754::fromBytes` is the identity. -/
def readDouble (r : BinaryMessageReader) : Result (UInt64 × BinaryMessageReader) := r.readUInt64

def readUInt8 (r : BinaryMessageReader) : Result (UInt8 × BinaryMessageReader) := do
  let (bytes, r) ← r.read 1
  pure (bytes.headD 0, r)

/-- The position is inside the buffer, and the buffer is an object in memory: its
size fits in `ptrdiff_t`. -/
structure InBounds (r : BinaryMessageReader) : Prop where
  pos_le : r.pos ≤ r.size
  size_lt : r.size < 2^63

def unread (r : BinaryMessageReader) : Bytes := r.ptr.drop r.pos

def skip (r : BinaryMessageReader) (n : Nat) : BinaryMessageReader := { r with pos := r.pos+n }

@[simp] theorem size_skip (r : BinaryMessageReader) (n : Nat) : (r.skip n).size = r.size := rfl
@[simp] theorem pos_skip (r : BinaryMessageReader) (n : Nat) : (r.skip n).pos = r.pos+n := rfl

@[simp] theorem skip_skip (r : BinaryMessageReader) (m n : Nat) :
    (r.skip m).skip n = r.skip (m+n) := by
  simp [skip, Nat.add_assoc]

theorem InBounds.new {buf : Bytes} (h : buf.length < 2^63) : (new buf).InBounds :=
  ⟨Nat.zero_le _, h⟩

@[simp] theorem unread_new (buf : Bytes) : (new buf).unread = buf := rfl

theorem InBounds.length_unread {r : BinaryMessageReader} (h : r.InBounds) :
    r.pos+r.unread.length = r.size := by
  have := h.pos_le
  unfold unread size at *
  rw [List.length_drop]
  omega

theorem InBounds.remaining_eq {r : BinaryMessageReader} (h : r.InBounds) :
    r.remaining = r.unread.length := by
  have := h.length_unread
  unfold remaining
  omega

theorem InBounds.skip {r : BinaryMessageReader} {n : Nat} (h : r.InBounds)
    (hn : r.pos+n ≤ r.size) : (r.skip n).InBounds :=
  ⟨hn, h.size_lt⟩

theorem unread_skip {r : BinaryMessageReader} {bs rest : Bytes} (h : r.unread = bs ++ rest) :
    (r.skip bs.length).unread = rest := by
  unfold unread at *
  rw [skip, ← List.drop_drop, h, List.drop_left]

theorem InBounds.skip_unread {r : BinaryMessageReader} {bs rest : Bytes} (hb : r.InBounds)
    (h : r.unread = bs ++ rest) : (r.skip bs.length).InBounds := by
  have hlen := hb.length_unread
  rw [h, List.length_append] at hlen
  exact hb.skip (by omega)

/-- Without a wrap, `read` is a plain bounds check. -/
theorem read_eq {r : BinaryMessageReader} {n : Nat} (h : r.pos+n < 2^64) :
    r.read n = if r.pos+n > r.size then
        Result.RAISE .bufferOverflowError "requested read exceeds message bounds"
      else .ok (r.unread.take n, r.skip n) := by
  simp only [read, readString, Nat.mod_eq_of_lt h, unread, skip]

theorem read_unread {r : BinaryMessageReader} {bs rest : Bytes} (hb : r.InBounds)
    (h : r.unread = bs ++ rest) : r.read bs.length = .ok (bs, r.skip bs.length) := by
  have hs := (hb.skip_unread h).pos_le
  have hlt := hb.size_lt
  simp only [pos_skip, size_skip] at hs
  rw [read_eq (by omega), if_neg (by omega), h, List.take_left]

/-- A read of one byte: the loop body of the varint reader. -/
theorem read_one {r : BinaryMessageReader} {b : UInt8} {rest : Bytes} (hb : r.InBounds)
    (h : r.unread = b :: rest) : r.read 1 = .ok ([b], r.skip 1) :=
  @read_unread r [b] rest hb h

/- The accumulator after one more group, on numbers. `i ≤ 9` keeps the shift below
   the word size. -/
theorem toNat_or_group {value : UInt64} {b : UInt8} {i : Nat} (hi : i ≤ 9)
    (hv : value.toNat < 2^(7*i)) (hfit : Base128.digit b * 2^(7*i) < 2^64) :
    (value ||| ((b.toUInt64 &&& 0x7f) <<< UInt64.ofNat (7*i))).toNat =
      value.toNat+Base128.digit b * 2^(7*i) := by
  have hd : (b.toUInt64 &&& 0x7f).toNat = Base128.digit b := by
    rw [UInt64.toNat_and, UInt8.toNat_toUInt64]
    exact Base128.and_127 b.toNat
  have hk : (UInt64.ofNat (7*i)).toNat % 64 = 7*i := by
    rw [UInt64.toNat_ofNat']
    omega
  rw [← Nat.shiftLeft_eq] at hfit
  rw [UInt64.toNat_or, UInt64.toNat_shiftLeft, hd, hk, Nat.mod_eq_of_lt hfit,
    Base128.or_shift_eq_add hv]

/-- What is accumulated with one more group, and what the groups behind it are still to add. -/
theorem accumulate_group {value v : UInt64} {b : UInt8} {bs : Bytes} {i : Nat} (hi : i ≤ 9)
    (hvalue : value.toNat < 2^(7*i))
    (hv : v.toNat = value.toNat+Base128.value (b :: bs) * 2^(7*i)) :
    (value ||| ((b.toUInt64 &&& 0x7f) <<< UInt64.ofNat (7*i))).toNat < 2^(7*(i+1)) ∧
    v.toNat = (value ||| ((b.toUInt64 &&& 0x7f) <<< UInt64.ofNat (7*i))).toNat+
      Base128.value bs * 2^(7*(i+1)) := by
  have hpow : 2^(7*(i+1)) = 2^(7*i) * 128 := by
    rw [Nat.mul_succ, pow_add]
    norm_num
  simp only [Base128.value] at hv
  have hsum : (Base128.digit b+128 * Base128.value bs) * 2^(7*i) =
      Base128.digit b * 2^(7*i)+Base128.value bs * 2^(7*(i+1)) := by
    rw [hpow]
    ring
  rw [hsum] at hv
  have hacc := toNat_or_group (b := b) hi hvalue (by have := v.toNat_lt; omega)
  have hlt : Base128.digit b * 2^(7*i) ≤ 127 * 2^(7*i) :=
    Nat.mul_le_mul_right _ (by have := Base128.digit_lt b; omega)
  rw [hacc]
  exact ⟨by omega, by omega⟩

theorem readVarUIntLoop_step {fuel i : Nat} {value : UInt64} {r r' : BinaryMessageReader}
    {b : UInt8} (h : r.read 1 = .ok ([b], r')) :
    readVarUIntLoop (fuel+1) i value r =
      if b &&& 0x80 = 0 then
        .ok (value ||| ((b.toUInt64 &&& 0x7f) <<< UInt64.ofNat (7*i)), r')
      else readVarUIntLoop fuel (i+1)
        (value ||| ((b.toUInt64 &&& 0x7f) <<< UInt64.ofNat (7*i))) r' := by
  rw [readVarUIntLoop, h]
  rfl

/-- The loop reads back a numeral, added above what it has accumulated. -/
theorem readVarUIntLoop_numeral (bs : Bytes) (hnum : Base128.Numeral bs) :
    ∀ (fuel i : Nat) (value v : UInt64) (r : BinaryMessageReader) (rest : Bytes),
      bs.length ≤ fuel → i+bs.length ≤ 10 → value.toNat < 2^(7*i) →
      v.toNat = value.toNat+Base128.value bs * 2^(7*i) →
      r.InBounds → r.unread = bs ++ rest →
      readVarUIntLoop fuel i value r = .ok (v, r.skip bs.length) := by
  induction bs with
  | nil => exact absurd hnum id
  | cons b bs ih =>
    intro fuel i value v r rest hfuel hi hvalue hv hb hr
    obtain ⟨fuel, rfl⟩ : ∃ k, fuel = k+1 := Nat.exists_eq_add_one.2 (Nat.lt_of_lt_of_le
      (Nat.succ_pos _) hfuel)
    simp only [List.length_cons] at hfuel hi
    obtain ⟨hlt, hadd⟩ := accumulate_group (by omega) hvalue hv
    have hr' : (r.skip 1).unread = bs ++ rest := @unread_skip r [b] (bs ++ rest) hr
    have hb' : (r.skip 1).InBounds := @InBounds.skip_unread r [b] (bs ++ rest) hb hr
    rw [readVarUIntLoop_step (read_one hb hr)]
    by_cases hmore : Base128.more b
    · -- the numeral goes on: one more group is accumulated
      have hand : b &&& 0x80 ≠ 0 := fun hz => (Base128.and_128_eq_zero_iff b).1 hz hmore
      have hnum' : Base128.Numeral bs := by simpa [Base128.Numeral, hmore] using hnum
      rw [if_neg hand, ih hnum' fuel (i+1) _ v (r.skip 1) rest (by omega) (by omega)
        hlt hadd hb' hr', skip_skip, Nat.add_comm 1]
      rfl
    · have hand : b &&& 0x80 = 0 := (Base128.and_128_eq_zero_iff b).2 hmore
      have hbs : bs = [] := by simpa [Base128.Numeral, hmore] using hnum
      subst hbs
      have hv' : value ||| ((b.toUInt64 &&& 0x7f) <<< UInt64.ofNat (7*i)) = v := by
        rw [← UInt64.toNat_inj, hadd]
        simp [Base128.value]
      rw [if_pos hand, hv']
      rfl

/-- Reading back what `appendVarUInt` wrote, whatever follows. -/
theorem readVarUInt_varUIntBytes {r : BinaryMessageReader} {v : UInt64} {rest : Bytes}
    (hb : r.InBounds) (h : r.unread = BinaryMessageWriter.varUIntBytes v ++ rest) :
    r.readVarUInt = .ok (v, r.skip (BinaryMessageWriter.varUIntBytes v).length) := by
  have hlen := hb.remaining_eq
  rw [h, List.length_append] at hlen
  refine readVarUIntLoop_numeral _ (BinaryMessageWriter.varUIntBytes_numeral v) _ 0 0 v r rest
    (by omega) (by have := BinaryMessageWriter.length_varUIntBytes_le v; omega) (by simp) ?_ hb h
  rw [BinaryMessageWriter.varUIntBytes_value]
  simp

theorem readUInt64_uint64Bytes {r : BinaryMessageReader} {v : UInt64} {rest : Bytes}
    (hb : r.InBounds) (h : r.unread = BinaryMessageWriter.uint64Bytes v ++ rest) :
    r.readUInt64 = .ok (v, r.skip 8) := by
  have hread := read_unread hb h
  have hv : LittleEndian.decode (BinaryMessageWriter.uint64Bytes v) = v.toNat :=
    LittleEndian.decode_encode_of_lt (by have := v.toNat_lt; omega)
  rw [BinaryMessageWriter.length_uint64Bytes] at hread
  simp only [readUInt64, hread, Result.ok_bind, hv, UInt64.ofNat_toNat, Result.pure_eq]

theorem readUInt8_cons {r : BinaryMessageReader} {b : UInt8} {rest : Bytes} (hb : r.InBounds)
    (h : r.unread = b :: rest) : r.readUInt8 = .ok (b, r.skip 1) := by
  rw [readUInt8, read_one hb h]
  rfl

section consumes
variable {α β : Type}

/-- Where `data` comes next, whatever follows it, the call `x` returns `a` and stands
right behind `data`. -/
def Consumes (x : BinaryMessageReader → Result (α × BinaryMessageReader)) (data : Bytes)
    (a : α) : Prop :=
  ∀ (r : BinaryMessageReader) (rest : Bytes), r.InBounds → r.unread = data ++ rest →
    x r = .ok (a, r.skip data.length)

theorem Consumes.pure (a : α) : Consumes (fun r => Pure.pure (a, r)) [] a := fun _ _ _ _ => rfl

theorem Consumes.bind_pure {x : BinaryMessageReader → Result (α × BinaryMessageReader)}
    {f : α × BinaryMessageReader → Result (β × BinaryMessageReader)} {d : Bytes} {a : α} {b : β}
    (hx : Consumes x d a) (hf : ∀ r, f (a, r) = .ok (b, r)) :
    Consumes (fun r => x r >>= f) d b := by
  intro r rest hb hr
  have h : x r >>= f = f (a, r.skip d.length) := by rw [hx r rest hb hr, Result.ok_bind]
  rw [← hf, ← h]

theorem Consumes.bind {x : BinaryMessageReader → Result (α × BinaryMessageReader)}
    {f : α × BinaryMessageReader → Result (β × BinaryMessageReader)} {d d' : Bytes} {a : α}
    {b : β} (hx : Consumes x d a) (hf : Consumes (fun r => f (a, r)) d' b) :
    Consumes (fun r => x r >>= f) (d ++ d') b := by
  intro r rest hb hr
  rw [List.append_assoc] at hr
  have h₁ : x r >>= f = f (a, r.skip d.length) := by rw [hx r (d' ++ rest) hb hr, Result.ok_bind]
  have h₂ : f (a, r.skip d.length) = .ok (b, (r.skip d.length).skip d'.length) :=
    hf (r.skip d.length) rest (hb.skip_unread hr) (unread_skip hr)
  rw [skip_skip, ← List.length_append] at h₂
  exact h₁.trans h₂

theorem Consumes.varUInt (v : UInt64) :
    Consumes readVarUInt (BinaryMessageWriter.varUIntBytes v) v :=
  fun _ _ hb hr => readVarUInt_varUIntBytes hb hr

theorem Consumes.uint8 (b : UInt8) : Consumes readUInt8 [b] b :=
  fun _ _ hb hr => readUInt8_cons hb hr

theorem Consumes.read (data : Bytes) : Consumes (·.read data.length) data data :=
  fun _ _ hb hr => read_unread hb hr

end consumes

/- What a read can do on any bytes at all: these drive the termination argument. -/

/-- A read below `2 ^ 63` raises or moves forward by exactly its size. -/
theorem read_cases {r : BinaryMessageReader} (hb : r.InBounds) {n : Nat} (hn : n < 2^63) :
    (∃ e, r.read n = .raise e) ∨
    ∃ bs, r.read n = .ok (bs, r.skip n) ∧ bs.length = n ∧ r.pos+n ≤ r.size := by
  have hpos := hb.pos_le
  have hlen := hb.length_unread
  have hlt := hb.size_lt
  rw [read_eq (by omega)]
  split
  · exact .inl ⟨_, rfl⟩
  · refine .inr ⟨_, rfl, ?_, by omega⟩
    rw [List.length_take]
    omega

theorem readVarUIntLoop_cases (fuel : Nat) :
    ∀ (i : Nat) (value : UInt64) (r : BinaryMessageReader), r.InBounds → r.remaining < fuel →
      (∃ e, readVarUIntLoop fuel i value r = .raise e) ∨
      ∃ v n, readVarUIntLoop fuel i value r = .ok (v, r.skip n) ∧ 0 < n ∧ r.pos+n ≤ r.size := by
  induction fuel with
  | zero => intro i value r hb hf; omega
  | succ fuel ih =>
    intro i value r hb hf
    obtain ⟨e, he⟩ | ⟨bs, hread, hlen, hn⟩ := read_cases hb (n := 1) (by omega)
    · exact .inl ⟨e, by rw [readVarUIntLoop, he]; rfl⟩
    · obtain ⟨b, rfl⟩ := List.length_eq_one_iff.1 hlen
      have hb' := hb.skip hn
      have hrem : (r.skip 1).remaining < fuel := by
        simp only [remaining, size_skip, pos_skip] at hf ⊢
        omega
      rw [readVarUIntLoop_step hread]
      split
      · exact .inr ⟨_, 1, rfl, by omega, hn⟩
      · obtain ⟨e, he⟩ | ⟨v, n, hv, hpos, hle⟩ := ih (i+1)
          (value ||| ((b.toUInt64 &&& 0x7f) <<< UInt64.ofNat (7*i))) (r.skip 1) hb' hrem
        · exact .inl ⟨e, he⟩
        · refine .inr ⟨v, 1+n, by rw [hv, skip_skip], by omega, ?_⟩
          simp only [pos_skip, size_skip] at hle
          omega

/-- On any bytes the varint reader raises or moves forward inside the buffer. -/
theorem readVarUInt_cases {r : BinaryMessageReader} (hb : r.InBounds) :
    (∃ e, r.readVarUInt = .raise e) ∨
    ∃ v n, r.readVarUInt = .ok (v, r.skip n) ∧ 0 < n ∧ r.pos+n ≤ r.size :=
  readVarUIntLoop_cases _ 0 0 r hb (by omega)

end BinaryMessageReader
end Stx.Util

/- The `maybeRead` family of `util/binarymessagereader_impl.h`, for buffers that more data is still
to arrive for. What is returned is the value, or none for false, and the reader. -/
namespace Stx.Util.BinaryMessageReader

def readUInt16 (r : BinaryMessageReader) : Result (UInt16 × BinaryMessageReader) := do
  let (bytes, r) ← r.read 2
  pure (UInt16.ofNat (LittleEndian.decode bytes), r)

/-- The test of the numbers of a fixed size asks for more than the size. -/
def maybeRead {α : Type} (size : Nat)
    (read : BinaryMessageReader → Result (α × BinaryMessageReader)) (r : BinaryMessageReader) :
    Result (Option α × BinaryMessageReader) :=
  if r.remaining > size then do
    let (val, r) ← read r
    pure (some val, r)
  else pure (none, r)

def maybeReadUInt8 := maybeRead 1 readUInt8

def maybeReadUInt16 := maybeRead 2 readUInt16

def maybeReadUInt32 := maybeRead 4 readUInt32

def maybeReadUInt64 := maybeRead 8 readUInt64

/-- A double is its 64-bit pattern. -/
def maybeReadDouble := maybeRead 8 readUInt64

def maybeReadVarUIntLoop : Nat → Nat → UInt64 → BinaryMessageReader →
    Result (Option UInt64 × BinaryMessageReader)
  | 0, _, _, _ => .diverge
  | fuel+1, i, value, r =>
    if r.pos ≥ r.size then pure (none, r)
    else do
      let (bytes, r) ← r.read 1
      let b := bytes.headD 0
      let value := value ||| ((b.toUInt64 &&& 0x7f) <<< UInt64.ofNat (7*i))
      if b &&& 0x80 = 0 then pure (some value, r) else maybeReadVarUIntLoop fuel (i+1) value r

/-- What was read stays read when the buffer ends inside the number. -/
def maybeReadVarUInt (r : BinaryMessageReader) : Result (Option UInt64 × BinaryMessageReader) :=
  maybeReadVarUIntLoop (r.remaining+1) 0 0 r

def maybeReadLenencString (r : BinaryMessageReader) :
    Result (Option Bytes × BinaryMessageReader) := do
  let (strlen, r') ← r.maybeReadVarUInt
  match strlen with
  | none => pure (none, r')
  | some strlen =>
    if strlen.toNat ≤ r'.remaining then do
      let (val, r') ← r'.read strlen.toNat
      pure (some val, r')
    else pure (none, r)

end Stx.Util.BinaryMessageReader
