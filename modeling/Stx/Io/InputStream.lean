import Stx.Io.OutputStream
import Stx.Util.BinaryMessageReader

/-! `io/inputstream.{h,cc}`: what a stream has to offer, the functions that `InputStream` builds on
it, and the streams over strings. -/
namespace Stx.Io

/-- The virtual functions of a `RewindableInputStream`. -/
class RewindableInputStream (σ : Type) where
  readNextByte : Sys σ (Option UInt8)
  readNextBytes : Nat → Sys σ Bytes
  skipNextBytes : Nat → Sys σ Nat
  eof : Sys σ Bool
  rewind : Sys σ Unit
  /-- No more bytes than this are left. It bounds the loops that read to the end. -/
  bytesLeft : σ → Nat

namespace InputStream
variable {σ : Type}

/-- `InputStream::readNextBytes(void*, size_t)`, for the streams that do not override it. -/
def readNextBytesLoop (readNextByte : Sys σ (Option UInt8)) : Nat → Sys σ Bytes
  | 0 => pure []
  | n+1 => do
    match ← readNextByte with
    | none => return []
    | some byte => return byte :: (← readNextBytesLoop readNextByte n)

variable [RewindableInputStream σ]
open RewindableInputStream

/-- `InputStream::readNextBytes(std::string*, size_t)`. No block of memory has 2^63 bytes. -/
def readNextBytesToString (n_bytes : Nat) : Sys σ Bytes := do
  if 2^63 ≤ n_bytes then Sys.reads fun _ => Result.RAISE .mallocError "malloc() failed"
  else readNextBytes n_bytes

/- The shift acts modulo 64, as on x86-64. -/
def readVarUIntLoop : Nat → Nat → UInt64 → Sys σ UInt64
  | 0, _, _ => Sys.reads fun _ => .diverge
  | fuel+1, i, val => do
    match ← readNextByte with
    | none => Sys.reads fun _ => Result.RAISE .eofError "unexpected end of stream"
    | some b =>
      let val := val ||| ((b.toUInt64 &&& 0x7f) <<< UInt64.ofNat (7*i))
      if b &&& 0x80 = 0 then return val
      else readVarUIntLoop fuel (i+1) val

def readVarUInt : Sys σ UInt64 := fun s => readVarUIntLoop (bytesLeft s+1) 0 0 s

def readLenencString : Sys σ Bytes := do
  let size ← readVarUInt
  let val ← readNextBytesToString size.toNat
  if val.length ≠ size.toNat then
    Sys.reads fun _ => Result.RAISE .eofError "unexpected end of stream"
  else return val

end InputStream

/-- `StringInputStream`. -/
structure StringInputStream where
  str_ : Bytes
  cur_ : Nat
  deriving DecidableEq, Repr

namespace StringInputStream

def fromString (string : Bytes) : StringInputStream := ⟨string, 0⟩

def readNextByte : Sys StringInputStream (Option UInt8) := fun s =>
  match s.str_[s.cur_]? with
  | some byte => (.ok (some byte), { s with cur_ := s.cur_+1 })
  | none => (.ok none, s)

/- The sum is one of `size_t`. -/
def skipNextBytes (n_bytes : Nat) : Sys StringInputStream Nat := fun s =>
  let nskipped := if (s.cur_+n_bytes) % 2^64 > s.str_.length then s.str_.length-s.cur_ else n_bytes
  (.ok nskipped, { s with cur_ := (s.cur_+nskipped) % 2^64 })

instance : RewindableInputStream StringInputStream where
  readNextByte := readNextByte
  readNextBytes := InputStream.readNextBytesLoop readNextByte
  skipNextBytes := skipNextBytes
  eof := Sys.reads fun s => .ok (decide (s.str_.length ≤ s.cur_))
  rewind := Sys.modify fun s => { s with cur_ := 0 }
  bytesLeft s := s.str_.length-s.cur_

end StringInputStream

section reads
variable {σ α β : Type} {rest : σ → Bytes}

/-- Where `data` comes next, the call returns `a` and leaves what stands behind `data`. -/
def Reads (rest : σ → Bytes) (x : Sys σ α) (data : Bytes) (a : α) : Prop :=
  ∀ s tail, rest s = data ++ tail → ∃ s', x s = (.ok a, s') ∧ rest s' = tail

/-- A call that returns has taken at least so many bytes. -/
def Takes (rest : σ → Bytes) (x : Sys σ α) (cost : α → Nat) : Prop :=
  ∀ s a s', x s = (.ok a, s') → (rest s').length+cost a ≤ (rest s).length

theorem Reads.pure (a : α) : Reads rest (Pure.pure a : Sys σ α) [] a := fun s _ hs => ⟨s, rfl, hs⟩

theorem Reads.bind {x : Sys σ α} {f : α → Sys σ β} {d d' : Bytes} {a : α} {b : β}
    (hx : Reads rest x d a) (hf : Reads rest (f a) d' b) : Reads rest (x >>= f) (d ++ d') b := by
  intro s tail hs
  rw [List.append_assoc] at hs
  obtain ⟨s', hok, hs'⟩ := hx s _ hs
  obtain ⟨s'', hok', hs''⟩ := hf s' tail hs'
  exact ⟨s'', (Sys.bind_of_ok hok).trans hok', hs''⟩

theorem Reads.bind_pure {x : Sys σ α} {d : Bytes} {a : α} (hx : Reads rest x d a) (f : α → β) :
    Reads rest (x >>= fun a => Pure.pure (f a)) d (f a) := by
  have hbind := Reads.bind hx (f := fun a => Pure.pure (f a)) (Reads.pure (f a))
  rwa [List.append_nil] at hbind

theorem takes_raise (r : Result α) (h : ∀ a, r ≠ .ok a) (cost : α → Nat) :
    Takes rest (Sys.reads fun _ => r) cost := by
  intro s a s' hok
  rw [Sys.reads_apply] at hok
  exact absurd (Prod.mk.inj hok).1 (h a)

end reads

section delivers
variable {σ : Type} [RewindableInputStream σ]
open RewindableInputStream InputStream

/-- The stream is the text `rest s`, from which every read takes what it returns. -/
structure Delivers (rest : σ → Bytes) : Prop where
  readNextByte : ∀ s, ∃ s', readNextByte s = (.ok (rest s).head?, s') ∧ rest s' = (rest s).tail
  readNextBytes : ∀ n s, ∃ s', readNextBytes n s = (.ok ((rest s).take n), s') ∧
    rest s' = (rest s).drop n
  eof : ∀ s, ∃ s', eof s = (.ok (rest s).isEmpty, s') ∧ rest s' = rest s
  length_le : ∀ s : σ, (rest s).length ≤ bytesLeft s

variable {rest : σ → Bytes} (hd : Delivers rest)
include hd

theorem Delivers.reads_byte (b : UInt8) :
    Reads rest (RewindableInputStream.readNextByte : Sys σ _) [b] (some b) := by
  intro s tail hs
  obtain ⟨s', hok, hs'⟩ := hd.readNextByte s
  rw [hs] at hok hs'
  exact ⟨s', hok, hs'⟩

theorem Delivers.takes_byte :
    Takes rest (RewindableInputStream.readNextByte : Sys σ _) fun b => b.toList.length := by
  intro s b s' hok
  obtain ⟨t, ht, hrest⟩ := hd.readNextByte s
  rw [ht] at hok
  cases hok
  rw [hrest]
  cases rest s <;> simp

theorem Delivers.reads_string {data : Bytes} (h : data.length < 2^63) :
    Reads rest (readNextBytesToString data.length : Sys σ Bytes) data data := by
  intro s tail hs
  obtain ⟨s', hok, hs'⟩ := hd.readNextBytes data.length s
  rw [hs, List.take_left] at hok
  rw [hs, List.drop_left] at hs'
  rw [readNextBytesToString, if_neg (by omega)]
  exact ⟨s', hok, hs'⟩

theorem Delivers.takes_string (n : Nat) :
    Takes rest (readNextBytesToString n : Sys σ Bytes) List.length := by
  unfold readNextBytesToString
  split
  · exact takes_raise _ (fun a h => by cases h) _
  · intro s a s' hok
    obtain ⟨t, ht, hrest⟩ := hd.readNextBytes n s
    rw [ht] at hok
    cases hok
    rw [hrest, List.length_drop, List.length_take]
    omega

/-- The loop reads a numeral, added above what it has accumulated. -/
theorem Delivers.reads_varUIntLoop {bs : Bytes} (hnum : Base128.Numeral bs) {fuel i : Nat}
    {val v : UInt64} (hfuel : bs.length ≤ fuel) (hi : i+bs.length ≤ 10)
    (hval : val.toNat < 2^(7*i)) (hv : v.toNat = val.toNat+Base128.value bs * 2^(7*i)) :
    Reads rest (readVarUIntLoop fuel i val : Sys σ UInt64) bs v := by
  induction bs generalizing fuel i val with
  | nil => exact absurd hnum id
  | cons b bs ih =>
    rw [List.length_cons] at hfuel hi
    obtain ⟨fuel, rfl⟩ : ∃ k, fuel = k+1 := Nat.exists_eq_add_one.2 (by omega)
    obtain ⟨hlt, hadd⟩ := Util.BinaryMessageReader.accumulate_group (by omega) hval hv
    have htail : Reads rest (if b &&& 0x80 = 0 then
        Pure.pure (val ||| ((b.toUInt64 &&& 0x7f) <<< UInt64.ofNat (7*i)))
        else readVarUIntLoop fuel (i+1)
          (val ||| ((b.toUInt64 &&& 0x7f) <<< UInt64.ofNat (7*i))) : Sys σ UInt64) bs v := by
      by_cases hmore : Base128.more b
      · have hand : b &&& 0x80 ≠ 0 := fun hz => (Base128.and_128_eq_zero_iff b).1 hz hmore
        have hnum' : Base128.Numeral bs := by simpa [Base128.Numeral, hmore] using hnum
        rw [if_neg hand]
        exact ih hnum' (by omega) (by omega) hlt hadd
      · have hand : b &&& 0x80 = 0 := (Base128.and_128_eq_zero_iff b).2 hmore
        have hbs : bs = [] := by simpa [Base128.Numeral, hmore] using hnum
        subst hbs
        have hv' : val ||| ((b.toUInt64 &&& 0x7f) <<< UInt64.ofNat (7*i)) = v := by
          rw [← UInt64.toNat_inj, hadd]
          simp [Base128.value]
        rw [if_pos hand, hv']
        exact Reads.pure v
    exact Reads.bind (hd.reads_byte b) htail

theorem Delivers.reads_varUInt (v : UInt64) :
    Reads rest (readVarUInt : Sys σ UInt64) (Util.BinaryMessageWriter.varUIntBytes v) v := by
  intro s tail hs
  have hle := hd.length_le s
  rw [hs, List.length_append] at hle
  have hten := Util.BinaryMessageWriter.length_varUIntBytes_le v
  refine hd.reads_varUIntLoop (Util.BinaryMessageWriter.varUIntBytes_numeral v) (i := 0)
    (by omega) (by omega) (by simp) ?_ s tail hs
  rw [Util.BinaryMessageWriter.varUIntBytes_value]
  simp

/-- A string of memory's size is read back from behind its length. -/
theorem Delivers.reads_lenencString {data : Bytes} (h : data.length < 2^63) :
    Reads rest (readLenencString : Sys σ Bytes) (Util.BinaryMessageWriter.lenencBytes data) data := by
  have hsize : (UInt64.ofNat data.length).toNat = data.length := by
    rw [UInt64.toNat_ofNat']
    omega
  refine Reads.bind (hd.reads_varUInt _) ?_
  rw [hsize]
  have hstring : Reads rest (readNextBytesToString data.length >>= fun val : Bytes =>
      if val.length ≠ data.length then
        Sys.reads fun _ => Result.RAISE .eofError "unexpected end of stream"
      else Pure.pure val : Sys σ Bytes) (data ++ []) data := by
    refine Reads.bind (hd.reads_string h) ?_
    rw [if_neg (by simp)]
    exact Reads.pure data
  rwa [List.append_nil] at hstring

omit hd in
theorem toNat_or_group_lt {val : UInt64} {i : Nat} (b : UInt8) (h : val.toNat < 128^i) :
    (val ||| ((b.toUInt64 &&& 0x7f) <<< UInt64.ofNat (7*i))).toNat < 128^(i+1) := by
  by_cases hi : i ≤ 9
  · have hshift : (UInt64.ofNat (7*i)).toNat % 64 = 7*i := by
      rw [UInt64.toNat_ofNat']
      omega
    have hpow : ∀ n, 128^n = 2^(7*n) := fun n => by rw [pow_mul]; norm_num
    rw [hpow] at h ⊢
    rw [UInt64.toNat_or, UInt64.toNat_shiftLeft, hshift]
    apply Nat.or_lt_two_pow
    · exact h.trans (Nat.pow_lt_pow_right (by decide) (by omega))
    · have hdigit : (b.toUInt64 &&& 0x7f).toNat < 2^7 := by
        rw [UInt64.toNat_and]
        exact Nat.lt_succ_of_le Nat.and_le_right
      calc (b.toUInt64 &&& 0x7f).toNat <<< (7*i) % 2^64
          ≤ (b.toUInt64 &&& 0x7f).toNat <<< (7*i) := Nat.mod_le _ _
        _ = (b.toUInt64 &&& 0x7f).toNat * 2^(7*i) := Nat.shiftLeft_eq _ _
        _ < 2^7 * 2^(7*i) := Nat.mul_lt_mul_of_pos_right hdigit (Nat.two_pow_pos _)
        _ = 2^(7*(i+1)) := by rw [← pow_add]; congr 1; omega
  · calc (val ||| ((b.toUInt64 &&& 0x7f) <<< UInt64.ofNat (7*i))).toNat < 2^64 := UInt64.toNat_lt _
      _ ≤ 128^10 := by decide
      _ ≤ 128^(i+1) := Nat.pow_le_pow_right (by decide) (by omega)

/-- A numeral has at least as many bytes as the one that is written for its value. -/
theorem Delivers.takes_varUIntLoop {fuel i : Nat} {val v : UInt64} {s s' : σ}
    (hval : val.toNat < 128^i) (h : readVarUIntLoop fuel i val s = (.ok v, s')) :
    ∃ k, (rest s').length+(k+1) ≤ (rest s).length ∧ v.toNat < 128^(i+(k+1)) := by
  induction fuel generalizing i val s with
  | zero => cases h
  | succ fuel ih =>
    rw [readVarUIntLoop] at h
    obtain ⟨b, t, hbyte, hnext⟩ := Sys.bind_eq_ok h
    have htake := hd.takes_byte s b t hbyte
    cases b with
    | none => cases hnext
    | some b =>
      have hlt := toNat_or_group_lt b hval
      simp only [Option.toList_some, List.length_singleton] at htake
      simp only at hnext
      split at hnext
      · cases hnext
        exact ⟨0, by omega, hlt⟩
      · obtain ⟨k, hk, hv⟩ := ih hlt hnext
        have hsum : i+1+(k+1) = i+(k+1+1) := by omega
        exact ⟨k+1, by omega, hsum ▸ hv⟩

theorem Delivers.takes_varUInt : Takes rest (readVarUInt : Sys σ UInt64)
    fun v => (Util.BinaryMessageWriter.varUIntBytes v).length := by
  intro s v s' h
  obtain ⟨k, hk, hv⟩ := hd.takes_varUIntLoop (i := 0) (by simp) h
  rw [Nat.zero_add] at hv
  have hle := Util.BinaryMessageWriter.length_varUIntLoop_le_of_lt 10 k v hv
  change (rest s').length+(Util.BinaryMessageWriter.varUIntLoop 10 v).length ≤ _
  omega

theorem Delivers.takes_lenencString : Takes rest (readLenencString : Sys σ Bytes)
    fun val => (Util.BinaryMessageWriter.lenencBytes val).length := by
  intro s val s' h
  obtain ⟨size, t, hsize, hnext⟩ := Sys.bind_eq_ok h
  obtain ⟨val', t', hval, hlast⟩ := Sys.bind_eq_ok hnext
  have htake := hd.takes_varUInt s size t hsize
  have htake' := hd.takes_string size.toNat t val' t' hval
  simp only at htake htake'
  split at hlast
  · cases hlast
  · next heq =>
    cases hlast
    rw [not_not] at heq
    simp only [Util.BinaryMessageWriter.lenencBytes, heq, UInt64.ofNat_toNat, List.length_append]
    omega

end delivers

namespace StringInputStream

theorem readNextByte_eq (s : StringInputStream) : ∃ s', readNextByte s =
    (.ok (s.str_.drop s.cur_).head?, s') ∧ s'.str_.drop s'.cur_ = (s.str_.drop s.cur_).tail := by
  unfold readNextByte
  rw [List.head?_drop, List.tail_drop]
  cases h : s.str_[s.cur_]? with
  | some byte => exact ⟨_, rfl, rfl⟩
  | none =>
    refine ⟨s, rfl, ?_⟩
    have hlen := List.getElem?_eq_none_iff.1 h
    rw [List.drop_of_length_le hlen, List.drop_of_length_le (by omega)]

theorem readNextBytes_eq (n : Nat) (s : StringInputStream) : ∃ s',
    InputStream.readNextBytesLoop readNextByte n s = (.ok ((s.str_.drop s.cur_).take n), s') ∧
      s'.str_.drop s'.cur_ = (s.str_.drop s.cur_).drop n := by
  induction n generalizing s with
  | zero => exact ⟨s, rfl, rfl⟩
  | succ n ih =>
    obtain ⟨t, hbyte, ht⟩ := readNextByte_eq s
    rw [InputStream.readNextBytesLoop, Sys.bind_of_ok hbyte]
    cases hrest : s.str_.drop s.cur_ with
    | nil =>
      rw [hrest] at ht
      exact ⟨t, rfl, ht⟩
    | cons byte tail =>
      rw [hrest, List.tail_cons] at ht
      obtain ⟨u, hbytes, hu⟩ := ih t
      rw [ht] at hbytes hu
      exact ⟨u, Sys.bind_of_ok hbytes, hu⟩

def unread (s : StringInputStream) : Bytes := s.str_.drop s.cur_

@[simp] theorem unread_fromString (string : Bytes) : (fromString string).unread = string := rfl

theorem delivers : Delivers unread where
  readNextByte := readNextByte_eq
  readNextBytes := readNextBytes_eq
  eof s := by
    have hempty : decide (s.str_.length ≤ s.cur_) = s.unread.isEmpty := by
      rw [Bool.eq_iff_iff, decide_eq_true_iff, unread, List.isEmpty_iff, List.drop_eq_nil_iff]
    exact ⟨s, by rw [← hempty]; rfl, rfl⟩
  length_le s := by
    rw [unread, List.length_drop]
    exact le_rfl

end StringInputStream

end Stx.Io
