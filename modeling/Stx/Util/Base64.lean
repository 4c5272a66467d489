import Stx.StringUtil
import Mathlib.Tactic.IntervalCases

/-! `util/Base64.{h,cc}`. -/
namespace Stx.Base64
open StringUtil

def chrtbl : Bytes := lit "ABCDEFGHIJKLMNOPQRSTUVWXYZabcdefghijklmnopqrstuvwxyz0123456789+/"

def pr2six : Bytes := [
  64, 64, 64, 64, 64, 64, 64, 64, 64, 64, 64, 64, 64, 64, 64, 64,
  64, 64, 64, 64, 64, 64, 64, 64, 64, 64, 64, 64, 64, 64, 64, 64,
  64, 64, 64, 64, 64, 64, 64, 64, 64, 64, 64, 62, 64, 64, 64, 63,
  52, 53, 54, 55, 56, 57, 58, 59, 60, 61, 64, 64, 64, 64, 64, 64,
  64,  0,  1,  2,  3,  4,  5,  6,  7,  8,  9, 10, 11, 12, 13, 14,
  15, 16, 17, 18, 19, 20, 21, 22, 23, 24, 25, 64, 64, 64, 64, 64,
  64, 26, 27, 28, 29, 30, 31, 32, 33, 34, 35, 36, 37, 38, 39, 40,
  41, 42, 43, 44, 45, 46, 47, 48, 49, 50, 51, 64, 64, 64, 64, 64,
  64, 64, 64, 64, 64, 64, 64, 64, 64, 64, 64, 64, 64, 64, 64, 64,
  64, 64, 64, 64, 64, 64, 64, 64, 64, 64, 64, 64, 64, 64, 64, 64,
  64, 64, 64, 64, 64, 64, 64, 64, 64, 64, 64, 64, 64, 64, 64, 64,
  64, 64, 64, 64, 64, 64, 64, 64, 64, 64, 64, 64, 64, 64, 64, 64,
  64, 64, 64, 64, 64, 64, 64, 64, 64, 64, 64, 64, 64, 64, 64, 64,
  64, 64, 64, 64, 64, 64, 64, 64, 64, 64, 64, 64, 64, 64, 64, 64,
  64, 64, 64, 64, 64, 64, 64, 64, 64, 64, 64, 64, 64, 64, 64, 64,
  64, 64, 64, 64, 64, 64, 64, 64, 64, 64, 64, 64, 64, 64, 64, 64]

def digit (six : UInt8) : UInt8 := chrtbl.getD six.toNat 0

def value (chr : UInt8) : UInt8 := pr2six.getD chr.toNat 0

/- The four sextets of three bytes, and the three bytes of four sextets. -/

def sextet₀ (a : UInt8) : UInt8 := (a >>> 2) &&& 0x3f

def sextet₁ (a b : UInt8) : UInt8 := ((a &&& 0x3) <<< 4) ||| ((b &&& 0xf0) >>> 4)

def sextet₂ (b c : UInt8) : UInt8 := ((b &&& 0xf) <<< 2) ||| ((c &&& 0xc0) >>> 6)

def sextet₃ (c : UInt8) : UInt8 := c &&& 0x3f

def byte₀ (w x : UInt8) : UInt8 := (value w <<< 2) ||| (value x >>> 4)

def byte₁ (x y : UInt8) : UInt8 := (value x <<< 4) ||| (value y >>> 2)

def byte₂ (y z : UInt8) : UInt8 := (value y <<< 6) ||| value z

/- `s` are the bytes from `i` on; behind them there is nothing that may be read. -/
def encodeTail (len i : Nat) (s : Bytes) : Option Bytes :=
  if i < len then do
    let a ← s[0]?
    if i = len-1 then
      return [digit (sextet₀ a), digit ((a &&& 0x3) <<< 4), 61, 61]
    else
      let b ← s[1]?
      return [digit (sextet₀ a), digit (sextet₁ a b), digit ((b &&& 0xf) <<< 2), 61]
  else return []

/-- A difference of type `size_t`. -/
@[irreducible]
def sub (a b : Nat) : Nat := (a+2^64-b) % 2^64

def encodeLoop (len i : Nat) (s : Bytes) : Option Bytes :=
  if i < sub len 2 then
    match s with
    | a :: b :: c :: s =>
      (encodeLoop len (i+3) s).map
        ([digit (sextet₀ a), digit (sextet₁ a b), digit (sextet₂ b c), digit (sextet₃ c)] ++ ·)
    | _ => none
  else encodeTail len i s

/-- `Base64::encode`. There is no result where memory behind the buffer would be read. -/
def encode (data : Bytes) : Option Bytes := encodeLoop data.length 0 data

/- `bufin` never runs past the `nprbytes` characters of the alphabet. -/
def decodeTail (nprbytes : Int) (bufin : Bytes) : Bytes :=
  (if 1 < nprbytes then [byte₀ (bufin.getD 0 0) (bufin.getD 1 0)] else []) ++
  (if 2 < nprbytes then [byte₁ (bufin.getD 1 0) (bufin.getD 2 0)] else []) ++
  (if 3 < nprbytes then [byte₂ (bufin.getD 2 0) (bufin.getD 3 0)] else [])

def decodeLoop (nprbytes : Int) : Bytes → Bytes
  | w :: x :: y :: z :: bufin =>
    if 4 < nprbytes then byte₀ w x :: byte₁ x y :: byte₂ y z :: decodeLoop (nprbytes-4) bufin
    else decodeTail nprbytes (w :: x :: y :: z :: bufin)
  | bufin => decodeTail nprbytes bufin

/-- The first character outside of the alphabet ends the text, if only the NUL behind it. -/
def decode (text : Bytes) : Bytes :=
  decodeLoop (toInt (text.takeWhile fun c => value c ≤ 63).length) text

section sextets
variable (a b c : UInt8)

/- Bit by bit: a sextet has no other bits than its six, and the sextets of three bytes hold all of
   their bits. -/

theorem sextet₀_and : sextet₀ a &&& 0x3f = sextet₀ a := by
  apply UInt8.eq_of_toBitVec_eq
  ext i hi
  interval_cases i <;> simp [sextet₀]

theorem sextet₁_and : sextet₁ a b &&& 0x3f = sextet₁ a b := by
  apply UInt8.eq_of_toBitVec_eq
  ext i hi
  interval_cases i <;> simp [sextet₁]

theorem sextet₂_and : sextet₂ b c &&& 0x3f = sextet₂ b c := by
  apply UInt8.eq_of_toBitVec_eq
  ext i hi
  interval_cases i <;> simp [sextet₂]

theorem sextet₃_and : sextet₃ c &&& 0x3f = sextet₃ c := by
  apply UInt8.eq_of_toBitVec_eq
  ext i hi
  interval_cases i <;> simp [sextet₃]

theorem sextets_byte₀ : (sextet₀ a <<< 2) ||| (sextet₁ a b >>> 4) = a := by
  apply UInt8.eq_of_toBitVec_eq
  ext i hi
  interval_cases i <;> simp [sextet₀, sextet₁]

theorem sextets_byte₁ : (sextet₁ a b <<< 4) ||| (sextet₂ b c >>> 2) = b := by
  apply UInt8.eq_of_toBitVec_eq
  ext i hi
  interval_cases i <;> simp [sextet₁, sextet₂]

theorem sextets_byte₂ : (sextet₂ b c <<< 6) ||| sextet₃ c = c := by
  apply UInt8.eq_of_toBitVec_eq
  ext i hi
  interval_cases i <;> simp [sextet₂, sextet₃]

theorem sextet₁_zero : sextet₁ a 0 = (a &&& 0x3) <<< 4 := by simp [sextet₁]

theorem sextet₂_zero : sextet₂ b 0 = (b &&& 0xf) <<< 2 := by simp [sextet₂]

end sextets

theorem value_digit {six : UInt8} (h : six &&& 0x3f = six) : value (digit six) = six := by
  have hall : ∀ n : Fin 64, value (digit (UInt8.ofNat n.val)) = UInt8.ofNat n.val := by
    decide +kernel
  have hlt : six.toNat < 64 := by
    rw [← h, UInt8.toNat_and]
    exact Nat.lt_succ_of_le Nat.and_le_right
  simpa using hall ⟨six.toNat, hlt⟩

theorem value_digit_le {six : UInt8} (h : six &&& 0x3f = six) : value (digit six) ≤ 63 := by
  rw [value_digit h, UInt8.le_iff_toNat_le, ← h, UInt8.toNat_and]
  exact Nat.and_le_right

/-- The characters of the alphabet that stand for the bytes. -/
def digits : Bytes → Bytes
  | a :: b :: c :: s =>
    digit (sextet₀ a) :: digit (sextet₁ a b) :: digit (sextet₂ b c) :: digit (sextet₃ c) :: digits s
  | [a, b] => [digit (sextet₀ a), digit (sextet₁ a b), digit (sextet₂ b 0)]
  | [a] => [digit (sextet₀ a), digit (sextet₁ a 0)]
  | [] => []

/-- What makes their number a multiple of four. -/
def padding (size : Nat) : Bytes := List.replicate ((3-size % 3) % 3) 61

theorem length_digits (s : Bytes) : (digits s).length = (4*s.length+2)/3 := by
  fun_induction digits s with
  | case1 a b c s ih =>
    simp only [List.length_cons, ih]
    omega
  | case2 | case3 | case4 => simp

theorem length_padding (size : Nat) : (4*size+2)/3+(padding size).length = 4*((size+2)/3) := by
  rw [padding, List.length_replicate]
  omega

theorem value_le_of_mem_digits {s : Bytes} {c : UInt8} (h : c ∈ digits s) : value c ≤ 63 := by
  fun_induction digits s with
  | case1 x y z s ih =>
    simp only [List.mem_cons] at h
    rcases h with rfl | rfl | rfl | rfl | h
    · exact value_digit_le (sextet₀_and x)
    · exact value_digit_le (sextet₁_and x y)
    · exact value_digit_le (sextet₂_and y z)
    · exact value_digit_le (sextet₃_and z)
    · exact ih h
  | case2 x y =>
    simp only [List.mem_cons, List.not_mem_nil, or_false] at h
    rcases h with rfl | rfl | rfl
    · exact value_digit_le (sextet₀_and x)
    · exact value_digit_le (sextet₁_and x y)
    · exact value_digit_le (sextet₂_and y 0)
  | case3 x =>
    simp only [List.mem_cons, List.not_mem_nil, or_false] at h
    rcases h with rfl | rfl
    · exact value_digit_le (sextet₀_and x)
    · exact value_digit_le (sextet₁_and x 0)
  | case4 => cases h

/-- Of at least two bytes, the loop writes all threes. -/
theorem encodeLoop_eq {len i : Nat} {s : Bytes} (hlen : i+s.length = len) (h2 : 2 ≤ len)
    (hlt : len < 2^64) : encodeLoop len i s = some (digits s ++ padding s.length) := by
  have hsize : sub len 2 = len-2 := by
    unfold sub
    omega
  fun_induction digits s generalizing i with
  | case1 a b c s ih =>
    simp only [List.length_cons] at hlen ⊢
    have hpad : padding (s.length+1+1+1) = padding s.length := by
      rw [padding, padding]
      congr 1
      omega
    unfold encodeLoop
    rw [hsize, if_pos (by omega)]
    simp only
    rw [ih (by omega), Option.map_some, hpad]
    rfl
  | case2 a b =>
    have htwo : i+2 = len := hlen
    unfold encodeLoop
    rw [hsize, if_neg (by omega), encodeTail, if_pos (by omega)]
    simp only [List.getElem?_cons_zero, List.getElem?_cons_succ, Option.pure_def,
      Option.bind_eq_bind, Option.bind_some]
    rw [if_neg (by omega), ← sextet₂_zero]
    rfl
  | case3 a =>
    have hone : i+1 = len := hlen
    unfold encodeLoop
    rw [hsize, if_neg (by omega), encodeTail, if_pos (by omega)]
    simp only [List.getElem?_cons_zero, Option.pure_def, Option.bind_eq_bind, Option.bind_some]
    rw [if_pos (by omega), ← sextet₁_zero]
    rfl
  | case4 =>
    have hnone : i = len := hlen
    unfold encodeLoop
    rw [hsize, if_neg (by omega), encodeTail, if_neg (by omega)]
    rfl

theorem encode_eq {data : Bytes} (h2 : 2 ≤ data.length) (hlt : data.length < 2^64) :
    encode data = some (digits data ++ padding data.length) :=
  encodeLoop_eq (Nat.zero_add _) h2 hlt

theorem decodeLoop_of_le {n : Int} (s : Bytes) (h : n ≤ 4) : decodeLoop n s = decodeTail n s := by
  unfold decodeLoop
  split
  · exact if_neg (by omega)
  · rfl

theorem byte₀_digits (a b : UInt8) : byte₀ (digit (sextet₀ a)) (digit (sextet₁ a b)) = a := by
  rw [byte₀, value_digit (sextet₀_and a), value_digit (sextet₁_and a b), sextets_byte₀]

theorem byte₁_digits (a b c : UInt8) :
    byte₁ (digit (sextet₁ a b)) (digit (sextet₂ b c)) = b := by
  rw [byte₁, value_digit (sextet₁_and a b), value_digit (sextet₂_and b c), sextets_byte₁]

theorem byte₂_digits (b c : UInt8) : byte₂ (digit (sextet₂ b c)) (digit (sextet₃ c)) = c := by
  rw [byte₂, value_digit (sextet₂_and b c), value_digit (sextet₃_and c), sextets_byte₂]

/-- As many characters as there are digits are read back, whatever follows them. -/
theorem decodeLoop_digits (s rest : Bytes) :
    decodeLoop (digits s).length (digits s ++ rest) = s := by
  fun_induction digits s with
  | case1 a b c s ih =>
    cases s with
    | nil =>
      rw [decodeLoop_of_le _ (by simp [digits])]
      simp [decodeTail, digits, byte₀_digits, byte₁_digits, byte₂_digits]
    | cons d s =>
      have hmore : 4 < ((digits (d :: s)).length+1+1+1+1 : Int) := by
        rw [length_digits, List.length_cons]
        omega
      have hrest : ((digits (d :: s)).length+1+1+1+1-4 : Int) = (digits (d :: s)).length := by omega
      simp only [List.length_cons, List.cons_append, Nat.cast_succ]
      rw [decodeLoop, if_pos hmore, hrest, ih, byte₀_digits, byte₁_digits, byte₂_digits]
  | case2 a b =>
    rw [decodeLoop_of_le _ (by simp)]
    simp [decodeTail, byte₀_digits, byte₁_digits]
  | case3 a =>
    rw [decodeLoop_of_le _ (by simp)]
    simp [decodeTail, byte₀_digits]
  | case4 => rw [decodeLoop_of_le _ (by simp)]; rfl

theorem length_decodeTail (n : Int) (s : Bytes) : 4*(decodeTail n s).length ≤ 3*n.toNat := by
  unfold decodeTail
  simp only [List.length_append]
  split <;> split <;> split <;> simp <;> omega

theorem length_decodeLoop (n : Int) (s : Bytes) : 4*(decodeLoop n s).length ≤ 3*n.toNat := by
  fun_induction decodeLoop n s with
  | case1 n w x y z s h ih =>
    simp only [List.length_cons]
    omega
  | case2 n w x y z s h => exact length_decodeTail n _
  | case3 n s h => exact length_decodeTail n s

theorem length_decode_lt (text : Bytes) : (decode text).length < 2^31 := by
  have hlen := length_decodeLoop (toInt (text.takeWhile fun c => value c ≤ 63).length) text
  have hrange := toInt_range (text.takeWhile fun c => value c ≤ 63).length
  rw [← decode] at hlen
  omega

theorem takeWhile_digits (s : Bytes) (size : Nat) :
    (digits s ++ padding size).takeWhile (fun c => value c ≤ 63) = digits s := by
  have hpad : (padding size).takeWhile (fun c => decide (value c ≤ 63)) = [] := by
    rw [padding, List.takeWhile_replicate, if_neg (by decide)]
  rw [List.takeWhile_append_of_pos fun c hc => decide_eq_true (value_le_of_mem_digits hc), hpad,
    List.append_nil]

/-- What is written is read back as long as the number of its digits fits in an `int`. -/
theorem decode_digits_iff (s : Bytes) (size : Nat) :
    decode (digits s ++ padding size) = s ↔ s.length < 3*2^29 := by
  have hdigits := length_digits s
  rw [decode, takeWhile_digits]
  constructor
  · intro h
    have hlen := length_decodeLoop (toInt (digits s).length) (digits s ++ padding size)
    rw [h, toInt] at hlen
    by_contra hge
    omega
  · intro h
    rw [toInt_of_lt (by omega)]
    exact decodeLoop_digits s _

/-- The text has four characters for every three bytes, and the bytes are read back. -/
def RoundTrip (data : Bytes) : Prop :=
  ∃ text, encode data = some text ∧ text.length = 4*((data.length+2)/3) ∧ decode text = data

/-- The number of the digits is kept in an `int`. -/
theorem roundTrip_iff {data : Bytes} (h2 : 2 ≤ data.length) (hlt : data.length < 2^64) :
    RoundTrip data ↔ data.length < 3*2^29 := by
  have hencode := encode_eq h2 hlt
  constructor
  · rintro ⟨text, htext, -, hdecode⟩
    obtain rfl := Option.some.inj (hencode.symm.trans htext)
    exact (decode_digits_iff data _).1 hdecode
  · intro hsize
    refine ⟨_, hencode, ?_, (decode_digits_iff data _).2 hsize⟩
    rw [List.length_append, length_digits, length_padding]

theorem roundTrip_iff_at_any : RoundTrip (lit "any") :=
  (roundTrip_iff (by decide) (by decide)).2 (by decide)

theorem large_not_roundTrip : ¬RoundTrip (List.replicate (3*2^29) 0) := by
  have hlen : (List.replicate (3*2^29) (0 : UInt8)).length = 3*2^29 := List.length_replicate
  rintro ⟨text, htext, -, hdecode⟩
  have hencode := @encode_eq (List.replicate (3*2^29) 0) (by rw [hlen]; decide)
    (by rw [hlen]; decide)
  obtain rfl := Option.some.inj (hencode.symm.trans htext)
  have hlt := (decode_digits_iff _ _).1 hdecode
  rw [hlen] at hlt
  exact Nat.lt_irrefl _ hlt

example : (encode (lit "any")).map decode = some (lit "any") := by decide +kernel

end Stx.Base64
