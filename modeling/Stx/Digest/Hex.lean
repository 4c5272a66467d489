import Stx.Digest
import Stx.Libc

/-! `SHA1Hash::toString` and `SHA1Hash::fromHexString`. -/
namespace Stx

def hexTable : Bytes := lit "0123456789abcdef"

def hexByte (byte : UInt8) : Bytes :=
  [hexTable.getD ((byte &&& 0xf0) >>> 4).toNat 0, hexTable.getD (byte &&& 0x0f).toNat 0]

/-- `BufferUtil::hexPrint` without separators, from the first byte on. -/
def BufferUtil.hexPrint (data : Bytes) : Bytes := data.flatMap hexByte

namespace SHA1Hash
open BufferUtil (hexPrint)

def toString (hash : SHA1Hash) : Bytes := hexPrint hash.hash

def decode_char (c : UInt8) : Result UInt8 :=
  if 48 ≤ c ∧ c ≤ 57 then .ok (c-48)
  else if 65 ≤ c ∧ c ≤ 70 then .ok (c-65+10)
  else if 97 ≤ c ∧ c ≤ 102 then .ok (c-97+10)
  else Result.RAISE .runtimeError "invalid hex SHA1 string"

/- For so many bytes of the hash. A last character without a second one is paired with the NUL
   behind the text. -/
def decodeLoop : Nat → Bytes → Result Bytes
  | 0, _ => .ok []
  | _+1, [] => .ok []
  | n+1, c :: str => do
    let hi ← decode_char c
    let lo ← decode_char (str.headD 0)
    let hash ← decodeLoop n str.tail
    return ((hi <<< 4)+lo) :: hash

def fromHexString (str : Bytes) : Result SHA1Hash := do
  let hash ← decodeLoop kSize str
  if h : hash.length = 20 then return ⟨hash, h⟩
  else Result.RAISE .runtimeError "invalid hex SHA1 string"

def isHexDigit (c : UInt8) : Bool :=
  (48 ≤ c && c ≤ 57) || (65 ≤ c && c ≤ 70) || (97 ≤ c && c ≤ 102)

theorem decode_char_of_not {c : UInt8} (h : isHexDigit c = false) :
    decode_char c = Result.RAISE .runtimeError "invalid hex SHA1 string" := by
  simp only [isHexDigit, Bool.or_eq_false_iff, Bool.and_eq_false_imp, decide_eq_true_eq,
    decide_eq_false_iff_not] at h
  obtain ⟨⟨hnum, hupper⟩, hlower⟩ := h
  rw [decode_char, if_neg fun h => hnum h.1 h.2, if_neg fun h => hupper h.1 h.2,
    if_neg fun h => hlower h.1 h.2]

/-- A digit reads as the half byte that its lower case is written for. -/
theorem decode_char_of_hex {c : UInt8} (h : isHexDigit c = true) :
    ∃ n, decode_char c = .ok n ∧ n.toNat < 16 ∧ hexTable.getD n.toNat 0 = Libc.tolower c := by
  have hall : ∀ c : Fin 256, isHexDigit (UInt8.ofNat c.val) = true →
      ∃ n : Fin 16, decode_char (UInt8.ofNat c.val) = .ok (UInt8.ofNat n.val) ∧
        hexTable.getD n.val 0 = Libc.tolower (UInt8.ofNat c.val) := by
    decide +kernel
  obtain ⟨n, hdecode, hlower⟩ := hall ⟨c.toNat, c.toNat_lt⟩ (by simpa using h)
  have hn : (UInt8.ofNat n.val).toNat = n.val := by
    rw [UInt8.toNat_ofNat']
    omega
  refine ⟨UInt8.ofNat n.val, by simpa using hdecode, by omega, ?_⟩
  rw [hn]
  simpa using hlower

theorem hexByte_halves {hi lo : UInt8} (hhi : hi.toNat < 16) (hlo : lo.toNat < 16) :
    hexByte ((hi <<< 4)+lo) = [hexTable.getD hi.toNat 0, hexTable.getD lo.toNat 0] := by
  have hall : ∀ hi lo : Fin 16, hexByte ((UInt8.ofNat hi.val <<< 4)+UInt8.ofNat lo.val) =
      [hexTable.getD hi.val 0, hexTable.getD lo.val 0] := by
    decide +kernel
  simpa using hall ⟨hi.toNat, hhi⟩ ⟨lo.toNat, hlo⟩

/-- The text starts with the digits of `n` bytes. -/
def Digits (n : Nat) (str : Bytes) : Prop :=
  2*n ≤ str.length ∧ (str.take (2*n)).all isHexDigit = true

instance (n : Nat) (str : Bytes) : Decidable (Digits n str) := inferInstanceAs (Decidable (_ ∧ _))

theorem digits_cons {n : Nat} {c d : UInt8} {str : Bytes} :
    Digits (n+1) (c :: d :: str) ↔ isHexDigit c = true ∧ isHexDigit d = true ∧ Digits n str := by
  simp only [Digits, Nat.mul_succ, List.take_succ_cons, List.all_cons, Bool.and_eq_true,
    List.length_cons]
  constructor
  · rintro ⟨hlen, hc, hd, hall⟩
    exact ⟨hc, hd, by omega, hall⟩
  · rintro ⟨hc, hd, hlen, hall⟩
    exact ⟨by omega, hc, hd, hall⟩

/-- Digits are read to the bytes that are written with them; where they end too early, the text
is refused or fewer bytes are read. -/
theorem decodeLoop_cases (n : Nat) (str : Bytes) :
    (Digits n str ∧ ∃ hash, decodeLoop n str = .ok hash ∧ hash.length = n ∧
      hexPrint hash = (str.take (2*n)).map Libc.tolower) ∨
    (¬Digits n str ∧ (decodeLoop n str = Result.RAISE .runtimeError "invalid hex SHA1 string" ∨
      ∃ hash, decodeLoop n str = .ok hash ∧ hash.length < n)) := by
  induction n generalizing str with
  | zero => exact .inl ⟨by simp [Digits], [], by simp [decodeLoop], rfl, rfl⟩
  | succ n ih =>
    match str with
    | [] =>
      refine .inr ⟨by simp [Digits], .inr ⟨[], by simp [decodeLoop], by simp⟩⟩
    | [c] =>
      have hshort : ¬Digits (n+1) [c] := fun h => by
        have := h.1
        simp at this
        omega
      refine .inr ⟨hshort, .inl ?_⟩
      rw [decodeLoop]
      cases hc : isHexDigit c with
      | false => rw [decode_char_of_not hc]; rfl
      | true =>
        obtain ⟨hi, hdecode, -⟩ := decode_char_of_hex hc
        rw [hdecode]
        rfl
    | c :: d :: str =>
      rw [decodeLoop, digits_cons, List.headD_cons, List.tail_cons]
      cases hc : isHexDigit c with
      | false =>
        rw [decode_char_of_not hc]
        exact .inr ⟨by simp, .inl rfl⟩
      | true =>
        obtain ⟨hi, hhi, hhi16, hhilower⟩ := decode_char_of_hex hc
        rw [hhi, Result.ok_bind]
        cases hd : isHexDigit d with
        | false =>
          rw [decode_char_of_not hd]
          exact .inr ⟨by simp, .inl rfl⟩
        | true =>
          obtain ⟨lo, hlo, hlo16, hlolower⟩ := decode_char_of_hex hd
          rw [hlo, Result.ok_bind]
          rcases ih str with ⟨hdigits, hash, hloop, hlen, hprint⟩ | ⟨hnot, hraise | ⟨hash, hloop, hlen⟩⟩
          · refine .inl ⟨⟨rfl, rfl, hdigits⟩, ((hi <<< 4)+lo) :: hash, by rw [hloop]; rfl,
              by simp [hlen], ?_⟩
            rw [hexPrint, List.flatMap_cons, hexByte_halves hhi16 hlo16, ← hexPrint, hprint,
              hhilower, hlolower]
            rfl
          · exact .inr ⟨by simp [hnot], .inl (by rw [hraise]; rfl)⟩
          · exact .inr ⟨by simp [hnot], .inr ⟨((hi <<< 4)+lo) :: hash, by rw [hloop]; rfl,
              by simpa using hlen⟩⟩

/-- A text is a hash exactly when it starts with forty digits, and it is refused otherwise. -/
theorem fromHexString_cases (str : Bytes) :
    (Digits 20 str ∧ ∃ hash : SHA1Hash, fromHexString str = .ok hash ∧
      hash.toString = (str.take 40).map Libc.tolower) ∨
    (¬Digits 20 str ∧
      fromHexString str = Result.RAISE .runtimeError "invalid hex SHA1 string") := by
  rcases decodeLoop_cases 20 str with
    ⟨hdigits, hash, hloop, hlen, hprint⟩ | ⟨hnot, hraise | ⟨hash, hloop, hlen⟩⟩
  · refine .inl ⟨hdigits, ⟨hash, hlen⟩, ?_, hprint⟩
    rw [fromHexString, kSize, hloop, Result.ok_bind, dif_pos hlen]
    rfl
  · refine .inr ⟨hnot, ?_⟩
    rw [fromHexString, kSize, hraise]
    rfl
  · refine .inr ⟨hnot, ?_⟩
    rw [fromHexString, kSize, hloop, Result.ok_bind, dif_neg (by omega)]

/-- The two digits of a byte are digits in lower case, and they are read back to it. -/
theorem hexByte_digits (byte : UInt8) : ∃ c d hi lo, hexByte byte = [c, d] ∧
    decode_char c = .ok hi ∧ decode_char d = .ok lo ∧ (hi <<< 4)+lo = byte ∧
    isHexDigit c = true ∧ isHexDigit d = true ∧ Libc.tolower c = c ∧ Libc.tolower d = d := by
  have hall : ∀ b : Fin 256,
      let byte := UInt8.ofNat b.val
      let c := hexTable.getD ((byte &&& 0xf0) >>> 4).toNat 0
      let d := hexTable.getD (byte &&& 0x0f).toNat 0
      decode_char c = .ok ((byte &&& 0xf0) >>> 4) ∧ decode_char d = .ok (byte &&& 0x0f) ∧
      (((byte &&& 0xf0) >>> 4) <<< 4)+(byte &&& 0x0f) = byte ∧
      isHexDigit c = true ∧ isHexDigit d = true ∧ Libc.tolower c = c ∧ Libc.tolower d = d := by
    decide +kernel
  have hbyte := hall ⟨byte.toNat, byte.toNat_lt⟩
  rw [UInt8.ofNat_toNat] at hbyte
  exact ⟨_, _, _, _, rfl, hbyte⟩

theorem decodeLoop_hexPrint (data rest : Bytes) :
    decodeLoop data.length (hexPrint data ++ rest) = .ok data := by
  induction data with
  | nil => simp [decodeLoop]
  | cons byte data ih =>
    obtain ⟨c, d, hi, lo, hbyte, hc, hd, hjoin, -⟩ := hexByte_digits byte
    rw [hexPrint, List.flatMap_cons, ← hexPrint, hbyte, List.length_cons]
    simp only [List.cons_append, List.nil_append, decodeLoop, hc, hd, List.headD_cons, List.tail_cons,
      ih, Result.ok_bind, Result.pure_eq, hjoin]

theorem length_hexPrint (data : Bytes) : (hexPrint data).length = 2*data.length := by
  induction data with
  | nil => rfl
  | cons byte data ih =>
    rw [hexPrint, List.flatMap_cons, ← hexPrint, List.length_append, ih]
    simp [hexByte]
    omega

@[simp] theorem length_toString (hash : SHA1Hash) : hash.toString.length = 40 := by
  rw [toString, length_hexPrint, hash.size_eq]

theorem digit_of_mem_toString {hash : SHA1Hash} {c : UInt8} (h : c ∈ hash.toString) :
    isHexDigit c = true ∧ Libc.tolower c = c := by
  obtain ⟨byte, -, hc⟩ := List.mem_flatMap.1 h
  obtain ⟨x, y, -, -, hbyte, -, -, -, hx, hy, hx', hy'⟩ := hexByte_digits byte
  rw [hbyte] at hc
  simp only [List.mem_cons, List.not_mem_nil, or_false] at hc
  rcases hc with rfl | rfl
  · exact ⟨hx, hx'⟩
  · exact ⟨hy, hy'⟩

/-- What is written is read back. What stands behind it is not looked at. -/
theorem fromHexString_toString (hash : SHA1Hash) (rest : Bytes) :
    fromHexString (hash.toString ++ rest) = .ok hash := by
  have hloop := decodeLoop_hexPrint hash.hash rest
  rw [hash.size_eq] at hloop
  rw [fromHexString, kSize, toString, hloop, Result.ok_bind, dif_pos hash.size_eq]
  rfl

theorem toString_injective : Function.Injective toString := by
  intro a b h
  have hread := fromHexString_toString a []
  rw [h, fromHexString_toString] at hread
  cases hread
  rfl

/-- What is read to a hash starts with its digits, in either case. -/
theorem toString_of_fromHexString {str : Bytes} {hash : SHA1Hash}
    (h : fromHexString str = .ok hash) : hash.toString = (str.take 40).map Libc.tolower := by
  rcases fromHexString_cases str with ⟨-, hash', hok, hprint⟩ | ⟨-, hraise⟩
  · rw [h] at hok
    cases hok
    exact hprint
  · rw [h] at hraise
    cases hraise

/-- Of the texts of a hash, the one that is written is told by its length and its case. -/
theorem eq_toString_iff {str : Bytes} {hash : SHA1Hash} (h : fromHexString str = .ok hash) :
    str = hash.toString ↔ str.length = 40 ∧ ∀ c ∈ str, Libc.tolower c = c := by
  constructor
  · rintro rfl
    exact ⟨length_toString hash, fun c hc => (digit_of_mem_toString hc).2⟩
  · rintro ⟨hlen, hlower⟩
    rw [toString_of_fromHexString h, List.take_of_length_le hlen.le, List.map_congr_left hlower,
      List.map_id']

end SHA1Hash
end Stx
