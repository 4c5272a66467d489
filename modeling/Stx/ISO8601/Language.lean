import Stx.ISO8601
import Mathlib.Data.Set.List

/-! Which strings are times in the notation of ISO 8601, and which of them `parse` takes. -/
namespace Stx.ISO8601

/-- A number of two digits. -/
structure TwoDigits where
  tens : Fin 10
  ones : Fin 10
  deriving DecidableEq

def digit (d : Fin 10) : UInt8 := 48+UInt8.ofNat d

def TwoDigits.text (t : TwoDigits) : Bytes := [digit t.tens, digit t.ones]

def TwoDigits.value (t : TwoDigits) : Nat := 10*t.tens+t.ones

/-- `Z` or `z`, or an offset to UTC. -/
inductive Zone where
  | utc (lower : Bool)
  | offset (minus : Bool) (hour minute : TwoDigits)

def Zone.text : Zone → Bytes
  | .utc lower => [if lower then 122 else 90]
  | .offset minus hour minute => (if minus then 45 else 43) :: (hour.text ++ 58 :: minute.text)

def Zone.seconds : Zone → Int
  | .utc _ => 0
  | .offset minus hour minute => (if minus then -1 else 1)*(hour.value*3600+minute.value*60)

/-- A time of day behind `T` or `t`. No digits stand for no fraction of a second. -/
structure Clock where
  lower : Bool
  hour : TwoDigits
  minute : TwoDigits
  second : TwoDigits
  frac : List (Fin 10)
  zone : Zone

def fracText (frac : List (Fin 10)) : Bytes := if frac = [] then [] else 46 :: frac.map digit

def millis (frac : List (Fin 10)) : Nat := Libc.digitsVal (frac.map digit)*10^(3-frac.length)

def Clock.text (k : Clock) : Bytes :=
  (if k.lower then 116 else 84) :: (k.hour.text ++ 58 :: (k.minute.text ++ 58 :: (k.second.text ++
    (fracText k.frac ++ k.zone.text))))

/-- A year of four digits, and as much of the rest as is given. -/
inductive Stamp where
  | year (century year : TwoDigits)
  | month (century year month : TwoDigits)
  | day (century year month day : TwoDigits)
  | time (century year month day : TwoDigits) (clock : Clock)

namespace Stamp

def text : Stamp → Bytes
  | year c y => c.text ++ y.text
  | month c y m => c.text ++ (y.text ++ 45 :: m.text)
  | day c y m d => c.text ++ (y.text ++ 45 :: (m.text ++ 45 :: d.text))
  | time c y m d k => c.text ++ (y.text ++ 45 :: (m.text ++ 45 :: (d.text ++ k.text)))

/-- The fields that are denoted. -/
def civil : Stamp → CivilTime
  | year c y => { year_ := 100*c.value+y.value }
  | month c y m => { year_ := 100*c.value+y.value, month_ := m.value }
  | day c y m d => { year_ := 100*c.value+y.value, month_ := m.value, day_ := d.value }
  | time c y m d k =>
    { year_ := 100*c.value+y.value
      month_ := m.value
      day_ := d.value
      hour_ := k.hour.value
      minute_ := k.minute.value
      second_ := k.second.value
      millisecond_ := millis k.frac
      offset_ := k.zone.seconds }

end Stamp

/- The times that exist. -/

def IsLeap (year : Nat) : Prop := 4 ∣ year ∧ (100 ∣ year → 400 ∣ year)

/-- The months of the Gregorian calendar. -/
def IsDate (year month day : Nat) : Prop :=
  1 ≤ day ∧
    (month ∈ [1, 3, 5, 7, 8, 10, 12] ∧ day ≤ 31 ∨ month ∈ [4, 6, 9, 11] ∧ day ≤ 30 ∨
      month = 2 ∧ (day ≤ 28 ∨ IsLeap year ∧ day ≤ 29))

def Zone.Exists : Zone → Prop
  | .utc _ => True
  | .offset _ hour minute => hour.value ≤ 23 ∧ minute.value ≤ 59

structure Clock.Exists (k : Clock) : Prop where
  hour : k.hour.value ≤ 23
  minute : k.minute.value ≤ 59
  second : k.second.value ≤ 59
  frac : k.frac.length ≤ 3
  zone : k.zone.Exists

def Stamp.Exists : Stamp → Prop
  | .year _ _ => True
  | .month _ _ m => 1 ≤ m.value ∧ m.value ≤ 12
  | .day c y m d => IsDate (100*c.value+y.value) m.value d.value
  | .time c y m d k => IsDate (100*c.value+y.value) m.value d.value ∧ k.Exists

/-- The string is a time that exists, with these fields. -/
def Denotes (s : Bytes) (date : CivilTime) : Prop :=
  ∃ stamp : Stamp, s = stamp.text ∧ stamp.Exists ∧ date = stamp.civil

/- What `parse` takes. -/

/-- Behind a `Z` the string has to end, behind an offset it has not. -/
def Zone.Taken (rest : Bytes) : Zone → Prop
  | .utc _ => rest = []
  | .offset _ hour minute => hour.value ≤ 24 ∧ minute.value ≤ 59

structure Clock.Taken (rest : Bytes) (k : Clock) : Prop where
  hour : k.hour.value ≤ 24
  minute : k.minute.value ≤ 59
  second : k.second.value ≤ 59
  frac : k.frac.length ≤ 3
  zone : k.zone.Taken rest

/-- Every month has 31 days. -/
def Stamp.Taken (rest : Bytes) : Stamp → Prop
  | .year _ _ => rest = []
  | .month _ _ m => (1 ≤ m.value ∧ m.value ≤ 12) ∧ rest = []
  | .day _ _ m d => (1 ≤ m.value ∧ m.value ≤ 12) ∧ (1 ≤ d.value ∧ d.value ≤ 31) ∧ rest = []
  | .time _ _ m d k =>
    (1 ≤ m.value ∧ m.value ≤ 12) ∧ (1 ≤ d.value ∧ d.value ≤ 31) ∧ k.Taken rest

/-- The month has no such day, an hour is 24, or something follows. -/
def Stamp.Excess (rest : Bytes) : Stamp → Prop
  | .year _ _ => False
  | .month _ _ _ => False
  | .day c y m d => ¬IsDate (100*c.value+y.value) m.value d.value
  | .time c y m d k =>
    ¬IsDate (100*c.value+y.value) m.value d.value ∨ k.hour.value = 24 ∨
      (∃ minus hour minute, k.zone = .offset minus hour minute ∧ hour.value = 24) ∨ rest ≠ []

/- Digits. -/

theorem toNat_digit (d : Fin 10) : (digit d).toNat = 48+d := by
  revert d
  decide

theorem isdigit_digit (d : Fin 10) : Libc.isdigit (digit d) = true := by
  revert d
  decide

theorem exists_digit {c : UInt8} (h : Libc.isdigit c = true) : ∃ d, digit d = c := by
  have hrange : 48 ≤ c.toNat ∧ c.toNat ≤ 57 := by
    simpa [Libc.isdigit, UInt8.le_iff_toNat_le] using h
  have hlt : c.toNat-48 < 10 := by omega
  refine ⟨⟨c.toNat-48, hlt⟩, UInt8.toNat_inj.1 ?_⟩
  rw [toNat_digit]
  change 48+(c.toNat-48) = c.toNat
  omega

theorem digit_injective : Function.Injective digit := by
  intro a b h
  have hsum := congrArg UInt8.toNat h
  rw [toNat_digit, toNat_digit] at hsum
  exact Fin.ext (by omega)

theorem isdigit_of_mem_map {ds : List (Fin 10)} {c : UInt8} (h : c ∈ ds.map digit) :
    Libc.isdigit c = true := by
  obtain ⟨d, -, rfl⟩ := List.mem_map.1 h
  exact isdigit_digit d

theorem exists_map_digit {u : Bytes} (h : ∀ c ∈ u, Libc.isdigit c = true) :
    ∃ ds : List (Fin 10), ds.map digit = u := by
  have hrange : u ∈ Set.range (List.map digit) := by
    rw [Set.range_list_map]
    exact fun c hc => exists_digit (h c hc)
  exact hrange

theorem digitsVal_lt (ds : List (Fin 10)) : Libc.digitsVal (ds.map digit) < 10^ds.length := by
  suffices h : ∀ n, (ds.map digit).foldl (fun n d => 10*n+(d.toNat-48)) n < (n+1)*10^ds.length by
    have hzero := h 0
    rwa [Nat.zero_add, Nat.one_mul] at hzero
  induction ds with
  | nil => simp
  | cons d ds ih =>
    intro n
    have hd := d.isLt
    have hstep : (10*n+d.1+1)*10^ds.length ≤ (n+1)*10^(d :: ds).length := by
      rw [List.length_cons, Nat.pow_succ']
      calc (10*n+d.1+1)*10^ds.length ≤ ((n+1)*10)*10^ds.length :=
            Nat.mul_le_mul_right _ (by omega)
        _ = (n+1)*(10*10^ds.length) := by ring
    rw [List.map_cons, List.foldl_cons, toNat_digit, Nat.add_sub_cancel_left]
    exact Nat.lt_of_lt_of_le (ih _) hstep

theorem stoi_digits {text : Bytes} (hne : text ≠ []) (h : ∀ d ∈ text, Libc.isdigit d = true)
    (hlt : Libc.digitsVal text < 2^31) : Libc.stoi text = some (Libc.digitsVal text : Int) := by
  unfold Libc.stoi
  rw [Libc.ofText_digits h]
  simp only [Bool.false_eq_true, if_false]
  rw [if_neg]
  rintro (h | h | h)
  · exact hne h
  · omega
  · omega

theorem TwoDigits.value_le (t : TwoDigits) : t.value ≤ 99 := by
  have htens := t.tens.isLt
  have hones := t.ones.isLt
  rw [value]
  omega

theorem stoi_text (t : TwoDigits) : Libc.stoi t.text = some (t.value : Int) := by
  have hval : Libc.digitsVal t.text = t.value := by
    simp [Libc.digitsVal, TwoDigits.text, TwoDigits.value, toNat_digit]
  have hle := t.value_le
  have hne : t.text ≠ [] := List.cons_ne_nil _ _
  rw [stoi_digits hne (by simp [TwoDigits.text, isdigit_digit]) (by rw [hval]; omega), hval]

theorem stoi_year (c y : TwoDigits) :
    Libc.stoi (c.text ++ y.text) = some ((100*c.value+y.value : Nat) : Int) := by
  have hval : Libc.digitsVal (c.text ++ y.text) = 100*c.value+y.value := by
    simp [Libc.digitsVal, TwoDigits.text, TwoDigits.value, toNat_digit]
    omega
  have hc := c.value_le
  have hy := y.value_le
  have hne : c.text ++ y.text ≠ [] := List.cons_ne_nil _ _
  rw [stoi_digits hne (by simp [TwoDigits.text, isdigit_digit]) (by rw [hval]; omega), hval]

theorem isDigitString_text (t : TwoDigits) : StringUtil.isDigitString t.text = true := by
  simp [StringUtil.isDigitString, TwoDigits.text, isdigit_digit]

/- The memory behind a position. -/

section memory
variable (beyond : Nat → UInt8) {s : Bytes}

theorem c_str_of_drop {p : Nat} {c : UInt8} {u : Bytes} (h : s.drop p = c :: u) :
    c_str beyond s p = c := by
  have hget : s[p]? = some c := by rw [← List.head?_drop, h]; rfl
  have hlt := (List.getElem?_eq_some_iff.1 hget).1
  rw [c_str, List.getElem?_append_left hlt, hget]
  rfl

theorem c_str_length : c_str beyond s s.length = 0 := by
  simp [c_str]

/-- The NUL is part of the characters that are known. -/
theorem chars_eq {p k : Nat} (h : p+k ≤ s.length+1) :
    chars (c_str beyond s) p k = ((s ++ [0]).drop p).take k := by
  have hlen : (((s ++ [0]).drop p).take k).length = k := by
    rw [List.length_take, List.length_drop, List.length_append, List.length_singleton]
    omega
  refine List.ext_getElem (by simp [chars, hlen]) fun i hi hi' => ?_
  rw [hlen] at hi'
  have hlt : p+i < (s ++ [0]).length := by
    rw [List.length_append, List.length_singleton]
    omega
  simp only [chars, List.getElem_map, List.getElem_range, c_str, List.getElem?_eq_getElem hlt,
    Option.getD_some, List.getElem_take, List.getElem_drop]

theorem chars_eq_take {p k : Nat} (h : p+k ≤ s.length) :
    chars (c_str beyond s) p k = (s.drop p).take k := by
  rw [chars_eq beyond (by omega), List.drop_append_of_le_length (by omega),
    List.take_append_of_le_length (by rw [List.length_drop]; omega)]

theorem chars_end {p : Nat} (hp : p ≤ s.length) :
    chars (c_str beyond s) p (s.length+1-p) = s.drop p ++ [0] := by
  rw [chars_eq beyond (by omega), List.drop_append_of_le_length hp]
  refine List.take_of_length_le ?_
  rw [List.length_append, List.length_drop, List.length_singleton]
  omega

/-- Digits end in front of the NUL. -/
theorem chars_digits {p k : Nat} (hp : p ≤ s.length)
    (h : StringUtil.isDigitString (chars (c_str beyond s) p k) = true) : p+k ≤ s.length := by
  by_contra hlong
  have hmem : c_str beyond s s.length ∈ chars (c_str beyond s) p k := by
    refine List.mem_map.2 ⟨s.length-p, List.mem_range.2 (by omega), ?_⟩
    rw [Nat.add_sub_cancel' hp]
  have hdigit := List.all_eq_true.1 h _ hmem
  rw [c_str_length] at hdigit
  exact absurd hdigit (by decide)

theorem exists_twoDigits {c d : UInt8} (hc : Libc.isdigit c = true) (hd : Libc.isdigit d = true) :
    ∃ t : TwoDigits, [c, d] = t.text := by
  obtain ⟨a, rfl⟩ := exists_digit hc
  obtain ⟨b, rfl⟩ := exists_digit hd
  exact ⟨⟨a, b⟩, rfl⟩

theorem chars_two_iff {p : Nat} (hp : p ≤ s.length) :
    StringUtil.isDigitString (chars (c_str beyond s) p 2) = true ↔
      ∃ (t : TwoDigits) (u : Bytes), s.drop p = t.text ++ u := by
  constructor
  · intro h
    have hle := chars_digits beyond hp h
    rw [chars_eq_take beyond hle] at h
    have hlen : (s.drop p).length ≥ 2 := by
      rw [List.length_drop]
      omega
    cases hu : s.drop p with
    | nil => rw [hu] at hlen; cases hlen
    | cons c u =>
      cases u with
      | nil =>
        rw [hu, List.length_singleton] at hlen
        omega
      | cons d u =>
        rw [hu] at h
        simp only [StringUtil.isDigitString, List.take_succ_cons, List.take_zero, List.all_cons,
          List.all_nil, Bool.and_true, Bool.and_eq_true] at h
        obtain ⟨t, ht⟩ := exists_twoDigits h.1 h.2
        exact ⟨t, u, by rw [← ht]; rfl⟩
  · rintro ⟨t, u, h⟩
    have hlen := congrArg List.length h
    rw [List.length_drop, List.length_append] at hlen
    have htwo : t.text.length = 2 := rfl
    rw [chars_eq_take beyond (by omega), h, List.take_left' htwo]
    exact isDigitString_text t

theorem chars_two {p : Nat} {t : TwoDigits} {u : Bytes} (h : s.drop p = t.text ++ u) :
    chars (c_str beyond s) p 2 = t.text := by
  have hlen := congrArg List.length h
  have htwo : t.text.length = 2 := rfl
  rw [List.length_drop, List.length_append] at hlen
  rw [chars_eq_take beyond (by omega), h, List.take_left' htwo]

theorem drop_add {p k : Nat} {a u : Bytes} (h : s.drop p = a ++ u) (ha : a.length = k) :
    s.drop (p+k) = u := by
  rw [← List.drop_drop, h, ← ha, List.drop_left]

theorem le_of_drop {p : Nat} {a u : Bytes} (h : s.drop p = a ++ u) (ha : a ≠ []) :
    p+a.length ≤ s.length := by
  have hpos := List.length_pos_of_ne_nil ha
  have hlen := congrArg List.length h
  rw [List.length_drop, List.length_append] at hlen
  omega

end memory

end Stx.ISO8601
