import Stx.Uri
import Stx.StringUtil.Split

/-! What `urlEncode` writes is read back, and it can be substituted for a placeholder. -/
namespace Stx.URI
open StringUtil

/- One character. -/

theorem encodeChar_kept {c : UInt8} (h : isKept c = true) : encodeChar c = [c] := if_pos h

/-- Of the characters that mean something to `urlDecode`, none is kept. -/
theorem ne_of_isKept {c : UInt8} (h : isKept c = true) : c ≠ 37 ∧ c ≠ 43 := by
  constructor
  · rintro rfl
    exact absurd h (by decide)
  · rintro rfl
    exact absurd h (by decide)

theorem encodeChar_digits {c : UInt8} (h : isKept c = false) : ∃ hi lo : UInt8,
    encodeChar c = [37, hi, lo] ∧ isKept hi = true ∧ isKept lo = true ∧
      isHexString [hi, lo] = true ∧ UInt8.ofNat (Libc.stoulHex [hi, lo]) = c := by
  refine ⟨_, _, if_neg (by simp [h]), ?_⟩
  have hall : ∀ c : Fin 256, (fun hi lo => isKept hi = true ∧ isKept lo = true ∧
      isHexString [hi, lo] = true ∧ UInt8.ofNat (Libc.stoulHex [hi, lo]) = UInt8.ofNat c.val)
      (hextbl.getD ((UInt8.ofNat c.val >>> 4) &&& 0xf).toNat 0)
      (hextbl.getD (UInt8.ofNat c.val &&& 0xf).toNat 0) := by
    decide +kernel
  simpa using hall ⟨c.toNat, c.toNat_lt⟩

theorem urlDecode_cons {c : UInt8} (h : c ≠ 37) (rest : Bytes) : urlDecode (c :: rest) = (do
    let decoded ← urlDecode rest
    return (if c = 43 then 32 else c) :: decoded) := by
  rw [urlDecode.eq_def]
  exact if_neg h

theorem urlDecode_encodeChar (c : UInt8) (rest : Bytes) :
    urlDecode (encodeChar c ++ rest) = (do
      let decoded ← urlDecode rest
      return c :: decoded) := by
  cases h : isKept c with
  | true =>
    obtain ⟨hpercent, hplus⟩ := ne_of_isKept h
    rw [encodeChar_kept h, List.singleton_append, urlDecode_cons hpercent, if_neg hplus]
  | false =>
    obtain ⟨hi, lo, hchar, -, -, hhex, hval⟩ := encodeChar_digits h
    rw [hchar, List.cons_append, List.cons_append, List.cons_append, List.nil_append, urlDecode,
      if_pos rfl]
    simp only [hhex, if_true, hval]

theorem mem_encodeChar {c d : UInt8} (h : d ∈ encodeChar c) : d = 37 ∨ isKept d = true := by
  cases hc : isKept c with
  | true =>
    rw [encodeChar_kept hc, List.mem_singleton] at h
    exact .inr (h ▸ hc)
  | false =>
    obtain ⟨hi, lo, hchar, hhi, hlo, -, -⟩ := encodeChar_digits hc
    rw [hchar] at h
    simp only [List.mem_cons, List.not_mem_nil, or_false] at h
    rcases h with rfl | rfl | rfl
    · exact .inl rfl
    · exact .inr hhi
    · exact .inr hlo

/- Strings. -/

theorem urlDecode_urlEncode (str : Bytes) : urlDecode (urlEncode str) = .ok str := by
  induction str with
  | nil => rfl
  | cons c str ih =>
    change urlDecode (encodeChar c ++ urlEncode str) = _
    rw [urlDecode_encodeChar, ih]
    rfl

/-- A character that is neither kept nor a percent sign does not occur. -/
theorem not_mem_urlEncode {c : UInt8} (str : Bytes) (hkept : isKept c = false) (hc : c ≠ 37) :
    c ∉ urlEncode str := by
  intro h
  obtain ⟨d, -, hd⟩ := List.mem_flatMap.1 h
  cases mem_encodeChar hd with
  | inl heq => exact hc heq
  | inr heq => exact absurd (hkept.symm.trans heq) (by simp)

theorem urlEncode_ne_nil {str : Bytes} (h : str ≠ []) : urlEncode str ≠ [] := by
  obtain ⟨c, rest, rfl⟩ := List.exists_cons_of_ne_nil h
  intro hnil
  have hchar : encodeChar c = [] := (List.append_eq_nil_iff.1 hnil).1
  rw [encodeChar] at hchar
  split at hchar <;> cases hchar

theorem length_urlEncode_replicate (n : Nat) : (urlEncode (List.replicate n 97)).length = n := by
  have hletter : encodeChar 97 = [97] := by decide
  induction n with
  | zero => rfl
  | succ n ih =>
    change (encodeChar 97 ++ urlEncode (List.replicate n 97)).length = n+1
    rw [List.length_append, ih, hletter, List.length_singleton, Nat.add_comm]

/- `StringUtil::format("$0=$1", key, value)`. -/

theorem not_infix_drop {pattern str : Bytes} (h : ¬pattern <:+: str) (pos : Nat) :
    indexOf pattern (str.drop pos) = none := by
  cases hindex : indexOf pattern (str.drop pos) with
  | none => rfl
  | some k =>
    have hne : pattern ≠ [] := by
      rintro rfl
      exact h (List.nil_infix)
    rcases replaceAll_indexOf (str.drop pos) [] hne with ⟨hnone, -, -⟩ | ⟨a, b, -, hstr, -⟩
    · rw [hindex] at hnone
      cases hnone
    · have hin : pattern <:+: str.drop pos := ⟨a, b, hstr.symm⟩
      exact absurd (hin.trans (List.drop_suffix pos str).isInfix) h

theorem find_eq_none {pattern str : Bytes} (h : ¬pattern <:+: str) (pos : Nat) :
    find str pattern pos = none := by
  rw [find]
  split
  · rfl
  · rw [not_infix_drop h, Option.map_none]

theorem find_behind {p : UInt8} (pattern b : Bytes) {a : Bytes} (ha : p ∉ a) :
    find (a ++ (p :: pattern ++ b)) (p :: pattern) 0 = some a.length := by
  have hfirst : indexOf (p :: pattern) (p :: pattern ++ b) = some 0 := by
    simp [indexOf, List.isPrefixOf_iff_prefix]
  rw [find, if_neg (by simp), List.drop_zero, indexOf_append ha, hfirst]
  simp

/-- The only match is replaced if its position is an `int`. -/
theorem replaceAllInt_once {p : UInt8} (pattern : Bytes) {a b replacement : Bytes} (ha : p ∉ a)
    (hpos : a.length < 2^31) (hlast : ¬p :: pattern <:+: a ++ replacement ++ b) :
    replaceAllInt (a ++ (p :: pattern ++ b)) (p :: pattern) replacement =
      .ok (a ++ replacement ++ b) := by
  have hfind := find_behind pattern b ha
  have hdrop : (a ++ (p :: pattern ++ b)).drop (a.length+(p :: pattern).length) = b := by
    rw [← List.append_assoc, List.drop_left' (by simp)]
  have hlen : (a ++ (p :: pattern ++ b)).length = a.length+(pattern.length+1+b.length) := by
    simp only [List.length_append, List.length_cons]
  have hcur : ¬(((a.length : Int) < 0) ∨
      ((a ++ (p :: pattern ++ b)).length : Int) < (a.length : Int)) := by
    rw [hlen]
    omega
  rw [replaceAllInt, hlen, replaceAllLoop]
  have hzero : ((0 : Int) % 2^64).toNat = 0 := rfl
  rw [hzero, hfind]
  simp only [toInt_of_lt hpos]
  rw [if_neg (by omega), if_neg hcur, Int.toNat_natCast, hdrop, List.take_left]
  have hfuel : a.length+(pattern.length+1+b.length) = a.length+pattern.length+b.length+1 := by omega
  rw [hfuel, replaceAllLoop, find_eq_none hlast]

/-- A match at a position that becomes negative makes `std::string::replace` throw. -/
theorem replaceAllInt_raises {p : UInt8} (pattern : Bytes) {a b : Bytes} (replacement : Bytes) (ha : p ∉ a)
    (hlo : 2^31 ≤ a.length) (hhi : a.length < 2^32-1) :
    replaceAllInt (a ++ (p :: pattern ++ b)) (p :: pattern) replacement =
      .raise ⟨.outOfRange, []⟩ := by
  have hfind := find_behind pattern b ha
  have hint : toInt (a.length : Int) = (a.length : Int)-2^32 := by
    unfold toInt
    omega
  rw [replaceAllInt, replaceAllLoop]
  have hzero : ((0 : Int) % 2^64).toNat = 0 := rfl
  rw [hzero, hfind]
  simp only [hint]
  rw [if_neg (by omega), if_pos (by omega)]

theorem not_infix_of_not_mem {c : UInt8} {pattern str : Bytes} (hc : c ∈ pattern) (h : c ∉ str) :
    ¬pattern <:+: str := fun hin => h (hin.subset hc)

theorem not_infix_next {x : Bytes} (h : 36 ∉ x) : ¬[36, 48] <:+: x ++ [61, 36, 49] := by
  induction x with
  | nil => decide
  | cons c x ih =>
    rw [List.mem_cons, not_or] at h
    rw [List.cons_append, List.infix_cons_iff, not_or]
    refine ⟨fun hpre => ?_, ih h.2⟩
    exact h.1 (List.cons_prefix_cons.1 hpre).1

section pair
variable {key value : Bytes} (hkey : 36 ∉ key)

include hkey in
/-- The key is put in front whatever its length is. -/
theorem replaceAllInt_key : replaceAllInt (lit "$0=$1") (lit "$" ++ StringUtil.toString 0) key =
    .ok (key ++ [61, 36, 49]) := by
  have hpattern : lit "$" ++ StringUtil.toString 0 = [36, 48] := by decide
  have htext : lit "$0=$1" = [] ++ ([36, 48] ++ [61, 36, 49]) := by decide
  rw [hpattern, htext]
  exact replaceAllInt_once [48] List.not_mem_nil (by decide) (not_infix_next hkey)

include hkey in
theorem formatInt_pair (hvalue : 36 ∉ value) (hpos : key.length+1 < 2^31) :
    formatInt "$0=$1" [key, value] = .ok (key ++ 61 :: value) := by
  have hpattern : lit "$" ++ StringUtil.toString 1 = [36, 49] := by decide
  have htext : key ++ [61, 36, 49] = (key ++ [61]) ++ ([36, 49] ++ []) := by simp
  have hlast : ¬[36, 49] <:+: key ++ [61] ++ value ++ [] :=
    not_infix_of_not_mem List.mem_cons_self (by simp [hkey, hvalue])
  rw [formatInt, formatImplInt, replaceAllInt_key hkey, Result.ok_bind, formatImplInt, hpattern, htext,
    replaceAllInt_once [49] (by simp [hkey]) (by simpa using hpos) hlast,
    Result.ok_bind, formatImplInt]
  simp

include hkey in
theorem formatInt_pair_raises (value : Bytes) (hlo : 2^31 ≤ key.length+1)
    (hhi : key.length+1 < 2^32-1) :
    formatInt "$0=$1" [key, value] = .raise ⟨.outOfRange, []⟩ := by
  have hpattern : lit "$" ++ StringUtil.toString 1 = [36, 49] := by decide
  have htext : key ++ [61, 36, 49] = (key ++ [61]) ++ ([36, 49] ++ []) := by simp
  rw [formatInt, formatImplInt, replaceAllInt_key hkey, Result.ok_bind, formatImplInt, hpattern, htext,
    replaceAllInt_raises [49] value (by simp [hkey]) (by simpa using hlo)
      (by simpa using hhi), Result.raise_bind]

end pair

/- Encoded keys and values. -/

/-- A key and a value as they are written. -/
def pairText (p : Bytes × Bytes) : Bytes := urlEncode p.1 ++ 61 :: urlEncode p.2

/-- The position of the second placeholder is an `int`. -/
def ShortKey (key : Bytes) : Prop := (urlEncode key).length+1 < 2^31

theorem formatInt_pair_eq {p : Bytes × Bytes} (h : ShortKey p.1) :
    formatInt "$0=$1" [urlEncode p.1, urlEncode p.2] = .ok (pairText p) :=
  formatInt_pair (not_mem_urlEncode _ (by decide) (by decide))
    (not_mem_urlEncode _ (by decide) (by decide)) h

theorem shortKey_of_formatInt {p : Bytes × Bytes} {text : Bytes}
    (hmoderate : (urlEncode p.1).length+1 < 2^32-1)
    (h : formatInt "$0=$1" [urlEncode p.1, urlEncode p.2] = .ok text) : ShortKey p.1 := by
  by_contra hlong
  rw [formatInt_pair_raises (not_mem_urlEncode _ (by decide) (by decide)) _ (Nat.le_of_not_lt hlong)
    hmoderate] at h
  cases h

end Stx.URI
