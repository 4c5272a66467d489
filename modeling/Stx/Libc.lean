import Stx.Base
import Mathlib.Data.List.TakeWhile

/-! The C and C++ library functions that the HTTP code applies to bytes, in the "C" locale. -/
namespace Stx.Libc

def tolower (c : UInt8) : UInt8 := if 65 ≤ c ∧ c ≤ 90 then c+32 else c

def toupper (c : UInt8) : UInt8 := if 97 ≤ c ∧ c ≤ 122 then c-32 else c

def isspace (c : UInt8) : Bool := c == 32 || (9 ≤ c && c ≤ 13)

def isdigit (c : UInt8) : Bool := 48 ≤ c && c ≤ 57

/-- At most `n` pairs of characters are compared, and none behind a NUL. The end of a list
reads as the NUL that terminates a literal. -/
def strncasecmp : Bytes → Bytes → Nat → Int
  | _, _, 0 => 0
  | a, b, n+1 =>
    let x := a.headD 0
    let y := b.headD 0
    if tolower x ≠ tolower y then (tolower x).toNat-(tolower y).toNat
    else if x = 0 then 0
    else strncasecmp a.tail b.tail n

/-- What `strtoul` and `strtol` read with base 10: white space, a sign, digits. -/
structure Numeral where
  negative : Bool
  digits : Bytes

def Numeral.ofText (text : Bytes) : Numeral :=
  match text.dropWhile isspace with
  | [] => ⟨false, []⟩
  | c :: rest =>
    if c = 45 then ⟨true, rest.takeWhile isdigit⟩
    else if c = 43 then ⟨false, rest.takeWhile isdigit⟩
    else ⟨false, (c :: rest).takeWhile isdigit⟩

def digitsVal (digits : Bytes) : Nat := digits.foldl (fun n d => 10*n+(d.toNat-48)) 0

/-- `std::stoul`. A text without digits and a number that is out of range throw; a minus
sign negates in 64 bits. -/
def stoul (text : Bytes) : Option Nat :=
  let m := Numeral.ofText text
  if m.digits = [] ∨ 2^64 ≤ digitsVal m.digits then none
  else if m.negative then some ((2^64-digitsVal m.digits) % 2^64)
  else some (digitsVal m.digits)

/-- `std::stoull`. -/
def stoull (text : Bytes) : Result UInt64 :=
  if (Numeral.ofText text).digits = [] then Result.RAISE .invalidArgument "stoull"
  else
    match stoul text with
    | none => Result.RAISE .outOfRange "stoull"
    | some n => .ok (UInt64.ofNat n)

/-- A number is read where there are digits and their value is in range. -/
theorem stoull_cases (text : Bytes) :
    (∃ n, stoul text = some n ∧ stoull text = .ok (UInt64.ofNat n)) ∨
    (stoul text = none ∧ ∃ e, stoull text = .raise e) := by
  by_cases hdigits : (Numeral.ofText text).digits = []
  · refine .inr ⟨by simp [stoul, hdigits], ⟨.invalidArgument, lit "stoull"⟩, ?_⟩
    rw [stoull, if_pos hdigits]
    rfl
  · rw [stoull, if_neg hdigits]
    cases hstoul : stoul text with
    | none => exact .inr ⟨rfl, _, rfl⟩
    | some n => exact .inl ⟨n, rfl, rfl⟩

/-- `std::stoi`, with an `int` of 32 bits. -/
def stoi (text : Bytes) : Option Int :=
  let m := Numeral.ofText text
  let val : Int := if m.negative then -digitsVal m.digits else digitsVal m.digits
  if m.digits = [] ∨ val < -2^31 ∨ 2^31 ≤ val then none else some val

theorem stoul_lt {text : Bytes} {n : Nat} (h : stoul text = some n) : n < 2^64 := by
  unfold stoul at h
  simp only at h
  split at h
  · cases h
  · next hnot =>
    rw [not_or] at hnot
    split at h
    · cases h
      exact Nat.mod_lt _ (by decide)
    · cases h
      exact Nat.lt_of_not_le hnot.2

/- The decimal text of a number is read back. -/

theorem toNat_toUInt8_of_isDigit {c : Char} (h : c.isDigit = true) :
    c.toNat.toUInt8.toNat = c.toNat ∧ 48 ≤ c.toNat ∧ c.toNat ≤ 57 := by
  have hrange : 48 ≤ c.toNat ∧ c.toNat ≤ 57 := by
    simpa [Char.isDigit, UInt32.le_iff_toNat_le] using h
  refine ⟨?_, hrange⟩
  rw [Nat.toUInt8_eq, UInt8.toNat_ofNat']
  omega

theorem isdigit_of_mem_toString {n : Nat} {d : UInt8} (h : d ∈ StringUtil.toString n) :
    isdigit d = true := by
  obtain ⟨c, hc, rfl⟩ := List.mem_map.1 h
  have hdigit := toNat_toUInt8_of_isDigit (Nat.isDigit_of_mem_toDigits (by decide) (by decide) hc)
  simp only [isdigit, Bool.and_eq_true, decide_eq_true_eq, UInt8.le_iff_toNat_le]
  change 48 ≤ _ ∧ _ ≤ 57
  omega

theorem digitsVal_toString (n : Nat) : digitsVal (StringUtil.toString n) = n := by
  have hfold : ∀ (cs : List Char) (m : Nat), (∀ c ∈ cs, c.isDigit = true) →
      (cs.map fun c => c.toNat.toUInt8).foldl (fun n d => 10*n+(d.toNat-48)) m =
        Nat.ofDigitChars 10 cs m := by
    intro cs
    induction cs with
    | nil => exact fun _ _ => rfl
    | cons c cs ih =>
      intro m hall
      obtain ⟨hc, hcs⟩ := List.forall_mem_cons.1 hall
      rw [List.map_cons, List.foldl_cons, (toNat_toUInt8_of_isDigit hc).1, ih _ hcs,
        Nat.ofDigitChars_cons]
      rfl
  have hdigits : ∀ c ∈ Nat.toDigits 10 n, c.isDigit = true := fun c hc =>
    Nat.isDigit_of_mem_toDigits (by decide) (by decide) hc
  rw [digitsVal, StringUtil.toString, hfold _ _ hdigits,
    Nat.ofDigitChars_toDigits (by decide) (by decide)]

theorem isspace_of_isdigit {c : UInt8} (h : isdigit c = true) : isspace c = false := by
  have hrange : 48 ≤ c.toNat ∧ c.toNat ≤ 57 := by
    simpa [isdigit, UInt8.le_iff_toNat_le] using h
  have hne32 : c ≠ 32 := by rintro rfl; exact absurd hrange.1 (by decide)
  have hne13 : ¬c ≤ 13 := by
    rw [UInt8.le_iff_toNat_le]
    change ¬c.toNat ≤ 13
    omega
  simp [isspace, hne32, hne13]

theorem dropWhile_blanks {blanks rest : Bytes} (hblanks : ∀ c ∈ blanks, isspace c = true)
    (hrest : ∀ c ∈ rest.head?, isspace c = false) : (blanks ++ rest).dropWhile isspace = rest := by
  rw [List.dropWhile_append_of_pos hblanks]
  cases rest with
  | nil => rfl
  | cons c rest => rw [List.dropWhile_cons_of_neg (by simp [hrest c rfl])]

theorem head_isspace {digits : Bytes} (h : ∀ c ∈ digits, isdigit c = true) :
    ∀ c ∈ digits.head?, isspace c = false := fun c hc =>
  isspace_of_isdigit (h c (List.mem_of_mem_head? hc))

theorem takeWhile_digits {digits rest : Bytes} (hdigits : ∀ c ∈ digits, isdigit c = true)
    (hrest : ∀ c ∈ rest.head?, isdigit c = false) :
    (digits ++ rest).takeWhile isdigit = digits := by
  rw [List.takeWhile_append_of_pos hdigits]
  cases rest with
  | nil => rw [List.takeWhile_nil, List.append_nil]
  | cons c rest =>
    rw [List.takeWhile_cons_of_neg (by simp [hrest c rfl]), List.append_nil]

/-- Without a sign, the digits in front are what is read. -/
theorem ofText_cons {c : UInt8} (hc : isdigit c = true) (rest : Bytes) :
    Numeral.ofText (c :: rest) = ⟨false, (c :: rest).takeWhile isdigit⟩ := by
  have hminus : c ≠ 45 := by rintro rfl; exact absurd hc (by decide)
  have hplus : c ≠ 43 := by rintro rfl; exact absurd hc (by decide)
  unfold Numeral.ofText
  rw [List.dropWhile_cons_of_neg (by simp [isspace_of_isdigit hc])]
  simp only [if_neg hminus, if_neg hplus]

theorem ofText_append {digits rest : Bytes} (hne : digits ≠ [])
    (hdigits : ∀ c ∈ digits, isdigit c = true) (hrest : ∀ c ∈ rest.head?, isdigit c = false) :
    Numeral.ofText (digits ++ rest) = ⟨false, digits⟩ := by
  cases digits with
  | nil => exact absurd rfl hne
  | cons c digits =>
    rw [List.cons_append, ofText_cons (hdigits c List.mem_cons_self), ← List.cons_append,
      takeWhile_digits hdigits hrest]

theorem ofText_digits {text : Bytes} (h : ∀ d ∈ text, isdigit d = true) :
    Numeral.ofText text = ⟨false, text⟩ := by
  by_cases hne : text = []
  · subst hne
    rfl
  · have happend := @ofText_append text [] hne h (by simp)
    rwa [List.append_nil] at happend

theorem stoul_append {digits rest : Bytes} (hne : digits ≠ [])
    (hdigits : ∀ c ∈ digits, isdigit c = true) (hrest : ∀ c ∈ rest.head?, isdigit c = false) :
    stoul (digits ++ rest) =
      if 2^64 ≤ digitsVal digits then none else some (digitsVal digits) := by
  unfold stoul
  rw [ofText_append hne hdigits hrest]
  simp [hne]

theorem stoul_digits {text : Bytes} (hne : text ≠ []) (h : ∀ d ∈ text, isdigit d = true)
    (hlt : digitsVal text < 2^64) : stoul text = some (digitsVal text) := by
  have happend := @stoul_append text [] hne h (by simp)
  rwa [List.append_nil, if_neg (Nat.not_le.2 hlt)] at happend

theorem stoul_toString {n : Nat} (h : n < 2^64) : stoul (StringUtil.toString n) = some n := by
  have hne : StringUtil.toString n ≠ [] := by simp [StringUtil.toString]
  have hval := digitsVal_toString n
  have hstoul := stoul_digits hne (fun _ => isdigit_of_mem_toString) (by rw [hval]; exact h)
  rwa [hval] at hstoul

theorem stoul_minus_toString {n : Nat} (h : n < 2^64) :
    stoul (45 :: StringUtil.toString n) = some ((2^64-n) % 2^64) := by
  have htake : (StringUtil.toString n).takeWhile isdigit = StringUtil.toString n :=
    List.takeWhile_eq_self_iff.2 fun _ => isdigit_of_mem_toString
  have hnum : Numeral.ofText (45 :: StringUtil.toString n) = ⟨true, StringUtil.toString n⟩ := by
    unfold Numeral.ofText
    rw [List.dropWhile_cons_of_neg (by decide)]
    simp only [if_true, htake]
  have hne : StringUtil.toString n ≠ [] := by simp [StringUtil.toString]
  unfold stoul
  rw [hnum]
  simp only [digitsVal_toString]
  rw [if_neg (by simp [hne]; omega), if_pos trivial]

/-- Below the letters, only the character itself is mapped to it. -/
theorem eq_of_tolower_eq {c d : UInt8} (h : tolower c = d) (hd : d < 65) : c = d := by
  unfold tolower at h
  split at h
  · next hc =>
    have hsum := congrArg UInt8.toNat h
    simp only [UInt8.le_iff_toNat_le, UInt8.lt_iff_toNat_lt, UInt8.toNat_add] at hc hsum hd
    change (c.toNat+32) % 256 = d.toNat at hsum
    have hlo : 65 ≤ c.toNat := hc.1
    have hhi : c.toNat ≤ 90 := hc.2
    have hsmall : d.toNat < 65 := hd
    omega
  · exact h

theorem eq_of_map_tolower {a b : Bytes} (h : a.map tolower = b) (hb : ∀ d ∈ b, d < 65) :
    a = b := by
  induction a generalizing b with
  | nil => exact h
  | cons c a ih =>
    subst h
    obtain ⟨hc, ha⟩ := List.forall_mem_cons.1 hb
    rw [List.map_cons, ← ih rfl ha, ← eq_of_tolower_eq rfl hc]

theorem strncasecmp_cons (x y : UInt8) (a b : Bytes) (n : Nat) :
    strncasecmp (x :: a) (y :: b) (n+1) =
      if tolower x ≠ tolower y then ((tolower x).toNat : Int)-(tolower y).toNat
      else if x = 0 then 0
      else strncasecmp a b n := rfl

/-- Strings that are compared to their end are the same up to case. -/
theorem strncasecmp_eq_zero {a b : Bytes} (hlen : a.length = b.length) (hnul : 0 ∉ b)
    (h : strncasecmp a b a.length = 0) : a.map tolower = b.map tolower := by
  induction a generalizing b with
  | nil =>
    cases b with
    | nil => rfl
    | cons y b => cases hlen
  | cons x a ih =>
    cases b with
    | nil => cases hlen
    | cons y b =>
      have hy : y ≠ 0 := fun h => hnul (h ▸ List.mem_cons_self)
      rw [List.length_cons, strncasecmp_cons] at h
      by_cases heq : tolower x = tolower y
      · rw [if_neg (by simpa using heq)] at h
        have hx : x ≠ 0 := by
          rintro rfl
          exact hy (eq_of_tolower_eq heq.symm (by decide))
        rw [if_neg hx] at h
        rw [List.map_cons, List.map_cons, heq,
          ih (by simpa using hlen) (fun hm => hnul (List.mem_cons_of_mem y hm)) h]
      · rw [if_pos heq] at h
        have hsame : (tolower x).toNat = (tolower y).toNat := by omega
        exact absurd (UInt8.toNat_inj.1 hsame) heq

theorem strncasecmp_of_map_eq {a b : Bytes} (hlen : a.length = b.length)
    (h : a.map tolower = b.map tolower) : strncasecmp a b a.length = 0 := by
  induction a generalizing b with
  | nil => rfl
  | cons x a ih =>
    cases b with
    | nil => cases hlen
    | cons y b =>
      simp only [List.map_cons, List.cons.injEq] at h
      rw [List.length_cons, strncasecmp_cons, if_neg (by simpa using h.1),
        ih (by simpa using hlen) h.2, ite_self]

example : stoul (lit " -1x") = some (2^64-1) ∧ stoi (lit "302") = some 302 := by decide

end Stx.Libc
