import Stx.StringUtil
import Stx.Lib.Rfc8259

/-! `StringUtil::toString(double)`, on bit patterns. The decimal texts of integers and of doubles
are numbers of the JSON grammar, except where the buffer is too small. An integer that a double
holds has its own digits in the text. -/
namespace Stx
open Rfc8259

namespace Libc

def exponent (value : UInt64) : UInt64 := (value >>> 52) &&& 0x7ff

def fraction (value : UInt64) : Nat := value.toNat % 2^52

/-- `std::isnormal`: the exponent is neither the smallest nor the largest. -/
def isnormal (value : UInt64) : Bool := exponent value ≠ 0 ∧ exponent value ≠ 0x7ff

/-- The quotient, rounded to the nearest integer and to the even one of two. -/
def roundedDiv (n d : Nat) : Nat :=
  if 2*(n % d) < d ∨ 2*(n % d) = d ∧ n/d % 2 = 0 then n/d else n/d+1

/-- The magnitude of a finite double in millionths. A subnormal one has the exponent of the
smallest normal ones. -/
def millionths (value : UInt64) : Nat :=
  if exponent value = 0 then roundedDiv (fraction value*10^6*2) (2^1075)
  else roundedDiv ((2^52+fraction value)*10^6*2^(exponent value).toNat) (2^1075)

/-- The text of `printf("%f")`. -/
def fixedNotation (value : UInt64) : Bytes :=
  (if value >>> 63 = 1 then [45] else []) ++
    if exponent value = 0x7ff then if fraction value = 0 then lit "inf" else lit "nan"
    else StringUtil.toString (millionths value/10^6) ++
      46 :: [5, 4, 3, 2, 1, 0].map fun k => 48+UInt8.ofNat (millionths value/10^k % 10)

end Libc

namespace StringUtil

/-- `while (len > 2 && buf[len - 1] == '0' && buf[len - 2] != '.')`, on the characters from the last
one on. -/
def stripZeros : Bytes → Bytes
  | 48 :: c :: d :: text => if c = 46 then 48 :: c :: d :: text else stripZeros (c :: d :: text)
  | text => text

/-- `StringUtil::toString(double)`. `snprintf` cuts the text off at the end of the buffer, but not
the length that it returns: of a text of 128 characters the last one is the NUL behind the others,
and a longer one would be read behind the buffer. -/
def toStringDouble (value : UInt64) : Result Bytes :=
  let text := Libc.fixedNotation value
  if text.length < 128 then .ok (stripZeros text.reverse).reverse
  else if text.length = 128 then .ok (text.take 127 ++ [0])
  else Result.RAISE .outOfRange

/- Integers. -/

theorem toString_of_lt {n : Nat} (h : n < 10) : toString n = [48+UInt8.ofNat n] := by
  have hdigits : ∀ d : Fin 10, toString d.1 = [48+UInt8.ofNat d.1] := by decide
  exact hdigits ⟨n, h⟩

theorem toString_of_le {n : Nat} (h : 10 ≤ n) :
    toString n = toString (n/10) ++ [48+UInt8.ofNat (n % 10)] := by
  have hlast := toString_of_lt (Nat.mod_lt n (by decide : 10 > 0))
  rw [toString, Nat.toDigits_of_base_le (by decide) h, List.map_append, ← hlast, toString, toString,
    Nat.toDigits_of_lt_base (Nat.mod_lt n (by decide))]

/-- A positive number has no zero in front. -/
theorem exists_digits {n : Nat} (h : 0 < n) :
    ∃ first rest, (IntPart.digits first rest).text = toString n := by
  induction n using Nat.strong_induction_on with
  | _ n ih =>
    by_cases hlt : n < 10
    · have hfirst : ∀ d : Fin 9, 49+UInt8.ofNat d.1 = 48+UInt8.ofNat (d.1+1) := by decide
      refine ⟨⟨n-1, by omega⟩, [], ?_⟩
      rw [toString_of_lt hlt, IntPart.text, hfirst, Nat.sub_add_cancel h]
      rfl
    · obtain ⟨first, rest, htext⟩ := ih (n/10) (by omega) (by omega)
      refine ⟨first, rest ++ [⟨n % 10, Nat.mod_lt n (by decide)⟩], ?_⟩
      rw [toString_of_le (Nat.not_lt.1 hlt), ← htext, IntPart.text, IntPart.text, List.map_append]
      rfl

theorem exists_intPart (n : Nat) : ∃ i : IntPart, i.text = toString n := by
  cases n with
  | zero => exact ⟨.zero, rfl⟩
  | succ n =>
    obtain ⟨first, rest, htext⟩ := exists_digits (Nat.succ_pos n)
    exact ⟨.digits first rest, htext⟩

theorem exists_number_toStringInt (n : Int) : ∃ m : Number, m.text = toStringInt n := by
  obtain ⟨i, hi⟩ := exists_intPart n.natAbs
  unfold toStringInt
  split
  · refine ⟨⟨true, i, none, none⟩, ?_⟩
    rw [← hi]
    simp [Number.text, lit]
  · refine ⟨⟨false, i, none, none⟩, ?_⟩
    rw [← hi]
    simp [Number.text]

/- Doubles. -/

/-- The text of a normal double is a number with digits behind the point. -/
theorem exists_fixedNotation {value : UInt64} (h : Libc.isnormal value = true) :
    ∃ minus int first rest,
      Libc.fixedNotation value = (Number.mk minus int (some (first, rest)) none).text := by
  have hexponent : Libc.exponent value ≠ 0x7ff := by
    simp only [Libc.isnormal, decide_eq_true_eq] at h
    exact h.2
  obtain ⟨i, hi⟩ := exists_intPart (Libc.millionths value/10^6)
  have hdigit : ∀ k, Libc.millionths value/10^k % 10 < 10 := fun k => Nat.mod_lt _ (by decide)
  refine ⟨decide (value >>> 63 = 1), i, ⟨_, hdigit 5⟩,
    [4, 3, 2, 1, 0].map fun k => ⟨_, hdigit k⟩, ?_⟩
  rw [Libc.fixedNotation, if_neg hexponent, ← hi]
  simp [Number.text, Digit.char]

/-- Zeros are stripped from digits, but not the one behind the point. -/
theorem stripZeros_digits {ds : List Digit} (hne : ds ≠ []) (c : UInt8) (x : Bytes) :
    ∃ es : List Digit, es ≠ [] ∧
      stripZeros (ds.map Digit.char ++ 46 :: c :: x) = es.map Digit.char ++ 46 :: c :: x := by
  induction ds with
  | nil => exact absurd rfl hne
  | cons d ds ih =>
    by_cases hzero : d.char = 48
    · cases ds with
      | nil => exact ⟨[d], by simp, by simp [hzero, stripZeros]⟩
      | cons e ds =>
        have hpoint : ∀ e : Digit, e.char ≠ 46 := by decide
        obtain ⟨es, hes, hstrip⟩ := ih (by simp)
        refine ⟨es, hes, ?_⟩
        rw [← hstrip]
        cases ds <;> simp [hzero, stripZeros, hpoint e]
    · exact ⟨d :: ds, by simp, by simp [hzero, stripZeros]⟩

theorem toStringDouble_of_lt {value : UInt64} (hnormal : Libc.isnormal value = true)
    (h : (Libc.fixedNotation value).length < 128) :
    ∃ n : Number, toStringDouble value = .ok n.text := by
  obtain ⟨minus, i, first, rest, htext⟩ := exists_fixedNotation hnormal
  have hrev : (Libc.fixedNotation value).reverse =
      (first :: rest).reverse.map Digit.char ++
        46 :: ((if minus then [45] else []) ++ i.text).reverse := by
    rw [htext]
    simp [Number.text]
  have hne : ((if minus then [45] else []) ++ i.text).reverse ≠ [] := by
    obtain ⟨c, x, hint, -⟩ := i.text_cons
    simp [hint]
  obtain ⟨c, x, hcons⟩ := List.exists_cons_of_ne_nil hne
  obtain ⟨es, hes, hstrip⟩ := @stripZeros_digits (first :: rest).reverse (by simp) c x
  obtain ⟨e, es', hes'⟩ := List.exists_cons_of_ne_nil (mt List.reverse_eq_nil_iff.1 hes)
  refine ⟨⟨minus, i, some (e, es'), none⟩, ?_⟩
  have hmap : e.char :: es'.map Digit.char = (es.map Digit.char).reverse := by
    rw [← List.map_reverse, hes']
    rfl
  rw [toStringDouble, if_pos h, hrev, hcons, hstrip, ← hcons]
  simp [Number.text, hmap]

example : toStringDouble 0x4059100000000000 = .ok (lit "100.25") := by decide +kernel

/-- Behind the end of the buffer, if the text is returned at all, it has a NUL. -/
theorem toStringDouble_of_not_lt {value : UInt64} (hnormal : Libc.isnormal value = true)
    (h : ¬(Libc.fixedNotation value).length < 128) {text : Bytes}
    (htext : toStringDouble value = .ok text) :
    ∃ c x, text = c :: (x ++ [0]) ∧ (c = 45 ∨ c ∈ digitChars) ∧ ∀ d ∈ c :: x, d ∈ numberChars := by
  obtain ⟨minus, i, first, rest, hnumber⟩ := exists_fixedNotation hnormal
  obtain ⟨c, x, hcons, hc⟩ := Number.text_cons ⟨minus, i, some (first, rest), none⟩
  rw [toStringDouble, if_neg h] at htext
  split at htext
  · cases htext
    rw [hnumber] at *
    refine ⟨c, x.take 126, by rw [hcons]; rfl, hc, fun d hd => ?_⟩
    have hmem : d ∈ c :: x := by
      cases List.mem_cons.1 hd with
      | inl hd => exact hd ▸ List.mem_cons_self
      | inr hd => exact List.mem_cons_of_mem c (List.mem_of_mem_take hd)
    rw [← hcons] at hmem
    exact Number.mem_text hmem
  · cases htext

end StringUtil

/- Integers as doubles. -/

namespace Libc

/-- The magnitude of the double that is nearest to an integer. Its last bits are zero where there
are more of them than the 53 of the significand. -/
def nearest (n : Nat) : Nat :=
  if n.log2 ≤ 52 then n else roundedDiv n (2^(n.log2-52)) * 2^(n.log2-52)

/-- Conversion of an integer to `double`, and the difference of two doubles that are integers. -/
def toDouble (n : Int) : Int := if n < 0 then -(nearest n.natAbs : Int) else nearest n.natAbs

/-- The bits of a double that is an integer. -/
def bitsOf (n : Int) : UInt64 :=
  if n = 0 then 0
  else
    let l := n.natAbs.log2
    UInt64.ofNat ((if n < 0 then 2^63 else 0)+((l+1022)*2^52+n.natAbs*2^52/2^l))

/-- An integer with a significand of at most 53 bits. -/
def IsDouble (n : Nat) : Prop := ∃ m e, m < 2^53 ∧ n = m*2^e

theorem roundedDiv_le {n d m : Nat} (h : n ≤ m*d) (hd : 0 < d) : roundedDiv n d ≤ m := by
  have hle : n/d ≤ m := Nat.div_le_of_le_mul (by rwa [Nat.mul_comm])
  unfold roundedDiv
  split
  · exact hle
  · rename_i hround
    obtain hlt | rfl := Nat.lt_or_eq_of_le hle
    · exact hlt
    · -- Nothing is left over, so there is nothing to round up.
      have hmod : n % d = 0 := by
        have hjoin := Nat.div_add_mod n d
        rw [Nat.mul_comm] at hjoin
        omega
      exact absurd (.inl (by omega)) hround

theorem isDouble_of_le {m : Nat} (h : m ≤ 2^53) (e : Nat) : IsDouble (m*2^e) := by
  obtain hlt | rfl := Nat.lt_or_eq_of_le h
  · exact ⟨m, e, hlt, rfl⟩
  · exact ⟨2^52, e+1, by decide, by rw [← Nat.pow_add, ← Nat.pow_add]; congr 1; omega⟩

theorem lt_of_log2_le {n k : Nat} (h : n.log2 ≤ k) : n < 2^(k+1) := by
  exact Nat.lt_of_lt_of_le Nat.lt_log2_self (Nat.pow_le_pow_right (by decide) (by omega))

theorem isDouble_nearest (n : Nat) : IsDouble (nearest n) := by
  unfold nearest
  split
  · rename_i h
    exact ⟨n, 0, lt_of_log2_le h, by simp⟩
  · rename_i h
    refine isDouble_of_le (roundedDiv_le ?_ (Nat.two_pow_pos _)) _
    rw [← Nat.pow_add]
    have hlog : 53+(n.log2-52) = n.log2+1 := by omega
    rw [hlog]
    exact Nat.lt_log2_self.le

theorem nearest_le {n k : Nat} (h : n ≤ 2^k) : nearest n ≤ 2^k := by
  unfold nearest
  split
  · exact h
  · rename_i hlog
    have hne : n ≠ 0 := by
      rintro rfl
      simp at hlog
    have hk : n.log2 ≤ k :=
      (Nat.pow_le_pow_iff_right (by decide)).1 ((Nat.log2_self_le hne).trans h)
    have hdiv : roundedDiv n (2^(n.log2-52)) ≤ 2^(k-(n.log2-52)) := by
      refine roundedDiv_le ?_ (Nat.two_pow_pos _)
      rwa [← Nat.pow_add, Nat.sub_add_cancel (by omega)]
    calc
      roundedDiv n (2^(n.log2-52)) * 2^(n.log2-52)
          ≤ 2^(k-(n.log2-52)) * 2^(n.log2-52) := Nat.mul_le_mul_right _ hdiv
      _ = 2^k := by rw [← Nat.pow_add, Nat.sub_add_cancel (by omega)]

theorem nearest_of_lt {n : Nat} (h : n < 2^53) : nearest n = n := by
  by_cases hzero : n = 0
  · subst hzero
    rfl
  · have hlog : n.log2 < 53 := (Nat.log2_lt hzero).2 h
    rw [nearest, if_pos (by omega)]

@[simp] theorem natAbs_toDouble (n : Int) : (toDouble n).natAbs = nearest n.natAbs := by
  unfold toDouble
  split <;> simp

theorem toDouble_of_lt {n : Int} (h : n.natAbs < 2^53) : toDouble n = n := by
  rw [toDouble, nearest_of_lt h]
  split <;> omega

/-- The significand of a double has its first bit in front of the 52 others. -/
theorem IsDouble.dvd {n : Nat} (h : IsDouble n) (hpos : n ≠ 0) : 2^n.log2 ∣ n*2^52 := by
  obtain ⟨m, e, hm, rfl⟩ := h
  have hne : m ≠ 0 := by
    rintro rfl
    simp at hpos
  have hlog : (m*2^e).log2 = m.log2+e := by
    rw [Nat.log2_eq_iff hpos]
    have hlow := Nat.log2_self_le hne
    have hhigh := @Nat.lt_log2_self m
    constructor
    · rw [Nat.pow_add]
      exact Nat.mul_le_mul_right _ hlow
    · rw [Nat.add_right_comm, Nat.pow_add]
      exact Nat.mul_lt_mul_of_pos_right hhigh (Nat.two_pow_pos e)
  have hle : m.log2 < 53 := (Nat.log2_lt hne).2 hm
  rw [hlog, Nat.pow_add, Nat.mul_right_comm]
  refine Nat.mul_dvd_mul ?_ (dvd_refl _)
  exact Dvd.dvd.mul_left (pow_dvd_pow 2 (by omega)) m

theorem roundedDiv_mul (n : Nat) {d : Nat} (h : 0 < d) : roundedDiv (n*d) d = n := by
  have hmod : n*d % d = 0 := Nat.mul_mod_left n d
  rw [roundedDiv, hmod, if_pos (.inl (by omega)), Nat.mul_div_cancel _ h]

theorem roundedDiv_zero {d : Nat} (h : 0 < d) : roundedDiv 0 d = 0 := by
  simpa using roundedDiv_mul 0 h

section
variable {n : Int} (hne : n ≠ 0) (hdouble : IsDouble n.natAbs) (hlog : n.natAbs.log2 ≤ 64)

/-- The significand. -/
def significand (n : Int) : Nat := n.natAbs*2^52/2^n.natAbs.log2

include hne in
theorem significand_range : 2^52 ≤ significand n ∧ significand n < 2^53 := by
  have hpos : n.natAbs ≠ 0 := by omega
  constructor
  · rw [significand, Nat.le_div_iff_mul_le (Nat.two_pow_pos _), Nat.mul_comm]
    exact Nat.mul_le_mul_right _ (Nat.log2_self_le hpos)
  · rw [significand, Nat.div_lt_iff_lt_mul (Nat.two_pow_pos _)]
    have hlt := @Nat.lt_log2_self n.natAbs
    rw [Nat.pow_succ] at hlt
    omega

include hne hlog in
theorem toNat_bitsOf : (bitsOf n).toNat =
    (if n < 0 then 2^63 else 0)+((n.natAbs.log2+1022)*2^52+significand n) := by
  have hrange := significand_range hne
  rw [bitsOf, if_neg hne, UInt64.toNat_ofNat', ← significand, Nat.mod_eq_of_lt]
  split <;> omega

include hne hlog in
theorem exponent_bitsOf : (exponent (bitsOf n)).toNat = n.natAbs.log2+1023 := by
  have hrange := significand_range hne
  have hbits := toNat_bitsOf hne hlog
  rw [exponent, UInt64.toNat_and, UInt64.toNat_shiftRight, hbits]
  change _ >>> 52 &&& (2^11-1) = _
  rw [Nat.and_two_pow_sub_one_eq_mod, Nat.shiftRight_eq_div_pow]
  split <;> omega

include hne hlog in
theorem fraction_bitsOf : 2^52+fraction (bitsOf n) = significand n := by
  have hrange := significand_range hne
  have hbits := toNat_bitsOf hne hlog
  rw [fraction, hbits]
  split <;> omega

include hne hlog in
theorem sign_bitsOf : bitsOf n >>> 63 = 1 ↔ n < 0 := by
  have hrange := significand_range hne
  have hbits := toNat_bitsOf hne hlog
  have hshift : (bitsOf n >>> 63).toNat = (bitsOf n).toNat/2^63 := by
    rw [UInt64.toNat_shiftRight, ← Nat.shiftRight_eq_div_pow]
    rfl
  rw [← UInt64.toNat_inj, hshift, hbits]
  change _ = 1 ↔ _
  split <;> omega

include hne hdouble hlog in
theorem millionths_bitsOf : millionths (bitsOf n) = n.natAbs*10^6 := by
  have hpos : n.natAbs ≠ 0 := by omega
  have hexponent := exponent_bitsOf hne hlog
  have hzero : exponent (bitsOf n) ≠ 0 := by
    intro h
    rw [h] at hexponent
    exact absurd hexponent (by simp)
  have hscale : ∀ k, significand n*10^6*2^(n.natAbs.log2+k) = n.natAbs*10^6*2^(52+k) := by
    intro k
    calc
      significand n*10^6*2^(n.natAbs.log2+k) = significand n*2^n.natAbs.log2*10^6*2^k := by
            rw [Nat.pow_add, ← Nat.mul_assoc, Nat.mul_right_comm (significand n)]
      _ = n.natAbs*2^52*10^6*2^k := by
            rw [significand, Nat.div_mul_cancel (hdouble.dvd hpos)]
      _ = n.natAbs*10^6*2^(52+k) := by
            rw [Nat.pow_add, ← Nat.mul_assoc, Nat.mul_right_comm n.natAbs]
  have hsum : 52+1023 = 1075 := rfl
  rw [millionths, if_neg hzero, fraction_bitsOf hne hlog, hexponent, hscale, hsum,
    roundedDiv_mul _ (Nat.two_pow_pos _)]

include hne hdouble hlog in
theorem fixedNotation_bitsOf :
    fixedNotation (bitsOf n) = StringUtil.toStringInt n ++ lit ".000000" := by
  have hexponent : exponent (bitsOf n) ≠ 0x7ff := by
    intro h
    have htoNat := exponent_bitsOf hne hlog
    rw [h] at htoNat
    have : (0x7ff : UInt64).toNat = 2047 := rfl
    omega
  have hdigit : ∀ k ≤ 5, n.natAbs*10^6/10^k % 10 = 0 := by
    intro k hk
    have hpow : 10^6 = 10^(6-k)*10^k := by
      rw [← Nat.pow_add]
      congr 1
      omega
    have hten : 10^(6-k) = 10^(5-k)*10 := by
      rw [← Nat.pow_succ]
      congr 1
      omega
    rw [hpow, ← Nat.mul_assoc, Nat.mul_div_cancel _ (Nat.pow_pos (by decide)), hten, ← Nat.mul_assoc]
    exact Nat.mul_mod_left _ _
  rw [fixedNotation, if_neg hexponent, millionths_bitsOf hne hdouble hlog,
    Nat.mul_div_cancel _ (by decide)]
  simp only [List.map_cons, List.map_nil, sign_bitsOf hne hlog, StringUtil.toStringInt]
  rw [hdigit 5 (by decide), hdigit 4 (by decide), hdigit 3 (by decide), hdigit 2 (by decide),
    hdigit 1 (by decide), hdigit 0 (by decide)]
  split <;> rfl

end

theorem fixedNotation_zero : fixedNotation (bitsOf 0) = lit "0.000000" := by
  have hmillionths : millionths 0 = 0 := by
    have hexponent : exponent 0 = 0 := rfl
    have hfraction : fraction 0 = 0 := rfl
    rw [millionths, if_pos hexponent, hfraction, Nat.zero_mul, Nat.zero_mul,
      roundedDiv_zero (Nat.two_pow_pos _)]
  rw [bitsOf, if_pos rfl, fixedNotation, hmillionths]
  decide

end Libc

namespace StringUtil

theorem toStringInt_ne_nil (n : Int) : toStringInt n ≠ [] := by
  unfold toStringInt
  split <;> simp [toString]

/-- The digits behind the point are zeros, of which one is kept. -/
theorem toStringDouble_bitsOf {n : Int} (hdouble : Libc.IsDouble n.natAbs)
    (hn : n.natAbs ≤ 2^64) : toStringDouble (Libc.bitsOf n) = .ok (toStringInt n ++ lit ".0") := by
  have hfixed : Libc.fixedNotation (Libc.bitsOf n) = toStringInt n ++ lit ".000000" := by
    by_cases hne : n = 0
    · subst hne
      exact Libc.fixedNotation_zero
    · have hlow := Nat.log2_self_le (Int.natAbs_ne_zero.2 hne)
      exact Libc.fixedNotation_bitsOf hne hdouble
        ((Nat.pow_le_pow_iff_right (by decide)).1 (hlow.trans hn))
  have hlength : (toStringInt n).length ≤ 21 := by
    have hle : (toString n.natAbs).length ≤ 20 :=
      length_toString_le (Nat.lt_of_le_of_lt hn (by decide))
    unfold toStringInt
    split
    · rw [List.length_append]
      exact Nat.add_le_add (by decide : (lit "-").length ≤ 1) hle
    · exact Nat.le_succ_of_le hle
  have hzeros : (lit ".000000").length = 7 := by decide
  obtain ⟨c, x, hx⟩ :=
    List.exists_cons_of_ne_nil (mt List.reverse_eq_nil_iff.1 (toStringInt_ne_nil n))
  have hstrip : stripZeros (toStringInt n ++ lit ".000000").reverse =
      (toStringInt n ++ lit ".0").reverse := by
    rw [List.reverse_append, List.reverse_append, hx]
    rfl
  rw [toStringDouble, hfixed, if_pos, hstrip,
    List.reverse_reverse]
  rw [List.length_append, hzeros]
  omega

end StringUtil
end Stx
