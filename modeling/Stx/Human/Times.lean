import Stx.Human
import Stx.ISO8601.Parsers

/-! Which strings `parseTime` and `parseDuration` take, and the times before now that they stand
for. -/
namespace Stx

namespace Libc

theorem digitsVal_append_ge (a b : Bytes) : digitsVal a ≤ digitsVal (a ++ b) := by
  have hfold : ∀ (b : Bytes) (n : Nat), n ≤ b.foldl (fun n d => 10*n+(d.toNat-48)) n := by
    intro b
    induction b with
    | nil => exact fun n => Nat.le_refl n
    | cons d b ih =>
      intro n
      exact Nat.le_trans (by omega) (ih (10*n+(d.toNat-48)))
  rw [digitsVal, digitsVal, List.foldl_append]
  exact hfold b _

theorem head_dropWhile_digits (text : Bytes) :
    ∀ c ∈ (text.dropWhile isdigit).head?, isdigit c = false := by
  intro c hc
  have hnot := List.head?_dropWhile_not isdigit text
  rw [Option.mem_def.1 hc] at hnot
  simpa using hnot

end Libc

namespace Human

/-- White space, a sign and the digits of a number that fits into 64 bits are in front. -/
def StartsWithNumber (str : Bytes) : Prop :=
  ∃ white sign digits rest, str = white ++ (sign ++ (digits ++ rest)) ∧
    (∀ c ∈ white, Libc.isspace c = true) ∧ sign ∈ [[], [43], [45]] ∧ digits ≠ [] ∧
    (∀ c ∈ digits, Libc.isdigit c = true) ∧ (∀ c ∈ rest.head?, Libc.isdigit c = false) ∧
    Libc.digitsVal digits < 2^64

/-- No minus with a number behind it that does not fit into 64 bits is in front. -/
def OffsetFits (str : Bytes) : Prop :=
  ∀ digits rest, str = 45 :: (digits ++ rest) → (∀ c ∈ digits, Libc.isdigit c = true) →
    Libc.digitsVal digits < 2^64

/-- The number is seconds, milliseconds or microseconds by its magnitude. At the bounds either
unit will do. -/
def ReadAs (ts : Nat) (micros : Nat) : Prop :=
  ts ≤ bound_milli ∧ micros = ts*kMicrosPerSecond ∨
    (bound_milli ≤ ts ∧ ts ≤ bound_micro) ∧ micros = ts*kMillisPerSecond ∨
    bound_micro ≤ ts ∧ micros = ts

theorem ofText_signed {white sign digits rest : Bytes}
    (hwhite : ∀ c ∈ white, Libc.isspace c = true) (hsign : sign ∈ [[], [43], [45]])
    (hne : digits ≠ []) (hdigits : ∀ c ∈ digits, Libc.isdigit c = true)
    (hrest : ∀ c ∈ rest.head?, Libc.isdigit c = false) :
    (Libc.Numeral.ofText (white ++ (sign ++ (digits ++ rest)))).digits = digits := by
  have htake := Libc.takeWhile_digits hdigits hrest
  have hblanks : ∀ {text : Bytes}, (∀ c ∈ text.head?, Libc.isspace c = false) →
      Libc.Numeral.ofText (white ++ text) = Libc.Numeral.ofText text := by
    intro text htext
    have hself := @Libc.dropWhile_blanks [] text (by simp) htext
    rw [List.nil_append] at hself
    rw [Libc.Numeral.ofText, Libc.Numeral.ofText, Libc.dropWhile_blanks hwhite htext, hself]
  simp only [List.mem_cons, List.not_mem_nil, or_false] at hsign
  obtain rfl | rfl | rfl := hsign
  · have hhead : ∀ c ∈ (digits ++ rest).head?, Libc.isspace c = false := by
      rw [List.head?_append_of_ne_nil _ hne]
      exact Libc.head_isspace hdigits
    rw [List.nil_append, hblanks hhead, Libc.ofText_append hne hdigits hrest]
  · rw [hblanks (by rintro c ⟨⟩; rfl)]
    exact htake
  · rw [hblanks (by rintro c ⟨⟩; rfl)]
    exact htake

theorem stoul_isSome_iff (str : Bytes) : (Libc.stoul str).isSome = true ↔ StartsWithNumber str := by
  have hsome : (Libc.stoul str).isSome = true ↔ (Libc.Numeral.ofText str).digits ≠ [] ∧
      Libc.digitsVal (Libc.Numeral.ofText str).digits < 2^64 := by
    unfold Libc.stoul
    simp only
    split
    · next hnone => simpa using fun hne => hnone.resolve_left hne
    · next hnone =>
      rw [not_or, Nat.not_le] at hnone
      split <;> simpa using hnone
  rw [hsome]
  constructor
  · rintro ⟨hne, hlt⟩
    have hjoin := @List.takeWhile_append_dropWhile _ Libc.isspace str
    have hstarts : ∀ sign text : Bytes, str.dropWhile Libc.isspace = sign ++ text →
        sign ∈ [[], [43], [45]] → text.takeWhile Libc.isdigit ≠ [] →
        Libc.digitsVal (text.takeWhile Libc.isdigit) < 2^64 → StartsWithNumber str := by
      intro sign text hdrop hsign hne hlt
      refine ⟨str.takeWhile Libc.isspace, sign, text.takeWhile Libc.isdigit,
        text.dropWhile Libc.isdigit, ?_, fun c hc => List.mem_takeWhile_imp hc, hsign, hne,
        fun c hc => List.mem_takeWhile_imp hc, Libc.head_dropWhile_digits text, hlt⟩
      rw [List.takeWhile_append_dropWhile, ← hdrop, hjoin]
    rw [Libc.Numeral.ofText] at hne hlt
    cases hrest : str.dropWhile Libc.isspace with
    | nil =>
      rw [hrest] at hne
      exact absurd rfl hne
    | cons c rest =>
      rw [hrest] at hne hlt
      simp only at hne hlt
      by_cases hminus : c = 45
      · rw [if_pos hminus] at hne hlt
        exact hstarts [45] rest (by rw [hrest, hminus]; rfl) (by simp) hne hlt
      · rw [if_neg hminus] at hne hlt
        by_cases hplus : c = 43
        · rw [if_pos hplus] at hne hlt
          exact hstarts [43] rest (by rw [hrest, hplus]; rfl) (by simp) hne hlt
        · rw [if_neg hplus] at hne hlt
          exact hstarts [] (c :: rest) (by rw [hrest, List.nil_append]) (by simp) hne hlt
  · rintro ⟨white, sign, digits, rest, rfl, hwhite, hsign, hne, hdigits, hrest, hlt⟩
    rw [ofText_signed hwhite hsign hne hdigits hrest]
    exact ⟨hne, hlt⟩

theorem parseDuration_returns_iff (str : Bytes) :
    (∃ duration, parseDuration str = .ok duration) ↔ StartsWithNumber str := by
  rw [← stoul_isSome_iff, parseDuration]
  obtain ⟨n, hvalue, hread⟩ | ⟨hnone, e, hread⟩ := Libc.stoull_cases str
  · rw [hread, hvalue]
    exact iff_of_true ⟨_, rfl⟩ rfl
  · simp [hread, hnone]

theorem parseOffset_of_head {str : Bytes} (h : str.head? ≠ some 45) : parseOffset str = .ok none := by
  unfold parseOffset
  split
  · exact absurd rfl h
  · rfl

theorem stoul_minus_isSome_iff {c : UInt8} (hc : Libc.isdigit c = true) (rest : Bytes) :
    (Libc.stoul (c :: rest)).isSome = true ↔ OffsetFits (45 :: c :: rest) := by
  have hjoin := @List.takeWhile_append_dropWhile _ Libc.isdigit (c :: rest)
  have hne : (c :: rest).takeWhile Libc.isdigit ≠ [] := by
    rw [List.takeWhile_cons_of_pos hc]
    exact List.cons_ne_nil _ _
  have hdigits : ∀ d ∈ (c :: rest).takeWhile Libc.isdigit, Libc.isdigit d = true :=
    fun d hd => List.mem_takeWhile_imp hd
  have hstoul := Libc.stoul_append hne hdigits (Libc.head_dropWhile_digits (c :: rest))
  rw [hjoin] at hstoul
  rw [hstoul]
  constructor
  · intro hsome digits behind heq hall
    have hlt : Libc.digitsVal ((c :: rest).takeWhile Libc.isdigit) < 2^64 := by
      by_contra hle
      rw [if_pos (Nat.not_lt.1 hle)] at hsome
      cases hsome
    have hfront : (c :: rest).takeWhile Libc.isdigit = digits ++ behind.takeWhile Libc.isdigit := by
      rw [(List.cons.inj heq).2, List.takeWhile_append_of_pos hall]
    rw [hfront] at hlt
    exact Nat.lt_of_le_of_lt (Libc.digitsVal_append_ge _ _) hlt
  · intro hfits
    have hlt := hfits _ _ (congrArg (List.cons 45) hjoin.symm) hdigits
    rw [if_neg (Nat.not_le.2 hlt)]
    rfl

/-- Whether `parseTime` returns is decided at its duration. -/
theorem parseOffset_returns_iff (str : Bytes) :
    (∃ offset, parseOffset str = .ok offset) ↔ OffsetFits str := by
  by_cases hminus : ∃ c rest, str = 45 :: c :: rest ∧ Libc.isdigit c = true
  · obtain ⟨c, rest, rfl, hc⟩ := hminus
    have hoffset : parseOffset (45 :: c :: rest) = parseDuration (c :: rest) := if_pos hc
    rw [hoffset, parseDuration_returns_iff, ← stoul_isSome_iff, stoul_minus_isSome_iff hc]
  · have hnone : parseOffset str = .ok none := by
      unfold parseOffset
      split
      · next c rest =>
        exact if_neg fun hc => hminus ⟨c, rest, rfl, hc⟩
      · rfl
    refine iff_of_true ⟨none, hnone⟩ fun digits rest heq hdigits => ?_
    cases digits with
    | nil => decide
    | cons c digits =>
      exact absurd ⟨c, digits ++ rest, heq, hdigits c List.mem_cons_self⟩ hminus

section
variable (beyond : Nat → UInt8) (strptime : Bytes → Option Tm)

theorem parseTime_of_no_offset {str : Bytes} (now : UInt64) (hnow : str ≠ lit "now")
    (h : parseOffset str = .ok none) :
    parseTime beyond strptime now str =
      .ok ((parseTimestamp str).or (parseCivil beyond strptime str)) := by
  rw [parseTime, if_neg hnow, h]
  cases parseTimestamp str <;> rfl

theorem parseTime_returns_iff (now : UInt64) (str : Bytes) :
    (∃ time, parseTime beyond strptime now str = .ok time) ↔ OffsetFits str := by
  by_cases hnow : str = lit "now"
  · subst hnow
    refine iff_of_true ⟨some now, rfl⟩ fun digits rest heq => ?_
    exact absurd (List.cons.inj heq).1 (by decide)
  · rw [← parseOffset_returns_iff]
    cases hoffset : parseOffset str with
    | ok offset =>
      refine iff_of_true ?_ ⟨offset, rfl⟩
      cases offset with
      | some offset => exact ⟨some (now-offset), by rw [parseTime, if_neg hnow, hoffset]; rfl⟩
      | none => exact ⟨_, parseTime_of_no_offset beyond strptime now hnow hoffset⟩
    | raise e => simp [parseTime, hnow, hoffset]
    | diverge => simp [parseTime, hnow, hoffset]

theorem parseTimestamp_eq {str : Bytes} (hne : str ≠ []) (h : ∀ c ∈ str, Libc.isdigit c = true)
    (hlt : Libc.digitsVal str < 2^64) :
    parseTimestamp str =
      if Libc.digitsVal str < bound_milli then
        some (UInt64.ofNat (Libc.digitsVal str*kMicrosPerSecond))
      else if Libc.digitsVal str > bound_milli ∧ Libc.digitsVal str < bound_micro then
        some (UInt64.ofNat (Libc.digitsVal str*kMillisPerSecond))
      else if Libc.digitsVal str > bound_micro then some (UInt64.ofNat (Libc.digitsVal str))
      else none := by
  have hall : StringUtil.isDigitString str = true := List.all_eq_true.2 h
  rw [parseTimestamp, if_pos hall, Libc.stoul_digits hne h hlt]

theorem not_mem_digits {str : Bytes} {c : UInt8} (h : ∀ c ∈ str, Libc.isdigit c = true)
    (hc : Libc.isdigit c = false) : c ∉ str := by
  intro hmem
  rw [h c hmem] at hc
  cases hc

/-- Between four digits and more there is a dash. -/
theorem parse_digits {str : Bytes} (h : ∀ c ∈ str, Libc.isdigit c = true)
    (hlen : str.length ≠ 4) : ISO8601.parse beyond str = none := by
  cases hparse : ISO8601.parse beyond str with
  | none => rfl
  | some civil =>
    obtain ⟨century, year, u, rfl⟩ := ISO8601.exists_year beyond hparse
    obtain ⟨rfl, -⟩ | ⟨month, u', rfl, -⟩ := (ISO8601.parse_iff beyond rfl).1 hparse
    · exact absurd rfl hlen
    · exact absurd (by simp) (not_mem_digits h (show Libc.isdigit 45 = false by decide))

theorem length_gt_of_digitsVal {str : Bytes} (h : ∀ c ∈ str, Libc.isdigit c = true) {n : Nat}
    (hval : 10^n ≤ Libc.digitsVal str) : n < str.length := by
  obtain ⟨ds, rfl⟩ := ISO8601.exists_map_digit h
  have hlt := Nat.lt_of_le_of_lt hval (ISO8601.digitsVal_lt ds)
  rw [List.length_map]
  exact (Nat.pow_lt_pow_iff_right (by decide)).1 hlt

theorem parseCivil_digits (hstrptime : ∀ str, (∀ c ∈ str, Libc.isdigit c = true) →
    strptime str = none) {str : Bytes} (h : ∀ c ∈ str, Libc.isdigit c = true)
    (hlen : str.length ≠ 4) : parseCivil beyond strptime str = none := by
  rw [parseCivil, parse_digits beyond h hlen, CivilTime.parseString_none (hstrptime str h)]
  refine if_neg fun hfront => ?_
  have hdash : (45 : UInt8) ∈ str :=
    (List.isPrefixOf_iff_prefix.1 hfront).subset (by decide)
  exact not_mem_digits h (show Libc.isdigit 45 = false by decide) hdash

/-- Only the bounds themselves have no unit. -/
theorem parseTime_number_iff (hstrptime : ∀ str, (∀ c ∈ str, Libc.isdigit c = true) →
    strptime str = none) (now : UInt64) {str : Bytes} (hne : str ≠ [])
    (h : ∀ c ∈ str, Libc.isdigit c = true) (hlt : Libc.digitsVal str < 2^64) :
    (∃ time, parseTime beyond strptime now str = .ok (some time) ∧
      ReadAs (Libc.digitsVal str) time.toNat) ↔
      Libc.digitsVal str ≠ bound_milli ∧ Libc.digitsVal str ≠ bound_micro := by
  have hnow : str ≠ lit "now" := by
    rintro rfl
    exact absurd (h 110 (by decide)) (by decide)
  have hhead : str.head? ≠ some 45 := fun hminus =>
    not_mem_digits h (show Libc.isdigit 45 = false by decide) (List.mem_of_mem_head? hminus)
  rw [parseTime_of_no_offset beyond strptime now hnow (parseOffset_of_head hhead),
    parseTimestamp_eq hne h hlt]
  have htoNat : ∀ n < 2^64, (UInt64.ofNat n).toNat = n := fun n hn => by
    rw [UInt64.toNat_ofNat', Nat.mod_eq_of_lt hn]
  constructor
  · rintro ⟨time, htime, -⟩
    by_contra hbound
    have hval : Libc.digitsVal str = bound_milli ∨ Libc.digitsVal str = bound_micro := by
      rwa [not_and_or, not_not, not_not] at hbound
    have hlen : 4 < str.length := length_gt_of_digitsVal h (by
      obtain hval | hval := hval <;> rw [hval] <;> decide)
    rw [parseCivil_digits beyond strptime hstrptime h (Nat.ne_of_gt hlen)] at htime
    obtain hval | hval := hval <;> rw [hval] at htime <;> cases htime
  · rintro ⟨hmilli, hmicro⟩
    by_cases hseconds : Libc.digitsVal str < bound_milli
    · refine ⟨_, by rw [if_pos hseconds]; rfl, .inl ⟨Nat.le_of_lt hseconds, htoNat _ ?_⟩⟩
      simp only [bound_milli, kMicrosPerSecond] at hseconds ⊢
      omega
    · have hge : bound_milli < Libc.digitsVal str := by omega
      rw [if_neg hseconds]
      by_cases hmillis : Libc.digitsVal str < bound_micro
      · refine ⟨_, by rw [if_pos ⟨hge, hmillis⟩]; rfl,
          .inr (.inl ⟨⟨Nat.le_of_lt hge, Nat.le_of_lt hmillis⟩, htoNat _ ?_⟩)⟩
        simp only [bound_micro, kMillisPerSecond] at hmillis ⊢
        omega
      · have hmicros : bound_micro < Libc.digitsVal str := by omega
        rw [if_neg fun hboth => hmillis hboth.2, if_pos hmicros]
        exact ⟨_, rfl, .inr (.inr ⟨Nat.le_of_lt hmicros, htoNat _ hlt⟩)⟩

/-- Both functions return exactly for these strings, and a number is a time exactly off the
bounds. -/
theorem total_iff (hstrptime : ∀ str, (∀ c ∈ str, Libc.isdigit c = true) → strptime str = none)
    (str : Bytes) :
    ((∀ now, ∃ time, parseTime beyond strptime now str = .ok time) ↔ OffsetFits str) ∧
      ((∃ duration, parseDuration str = .ok duration) ↔ StartsWithNumber str) ∧
      (str ≠ [] → (∀ c ∈ str, Libc.isdigit c = true) → Libc.digitsVal str < 2^64 → ∀ now,
        ((∃ time, parseTime beyond strptime now str = .ok (some time) ∧
          ReadAs (Libc.digitsVal str) time.toNat) ↔
          Libc.digitsVal str ≠ bound_milli ∧ Libc.digitsVal str ≠ bound_micro)) := by
  refine ⟨?_, parseDuration_returns_iff str, fun hne h hlt now =>
    parseTime_number_iff beyond strptime hstrptime now hne h hlt⟩
  exact ⟨fun h => (parseTime_returns_iff beyond strptime 0 str).1 (h 0),
    fun h now => (parseTime_returns_iff beyond strptime now str).2 h⟩

end

theorem total_iff_at_timestamp :
    ∃ time, parseTime (fun _ => 0) (fun _ => none) 0 (lit "1414956190") = .ok (some time) ∧
      ReadAs (Libc.digitsVal (lit "1414956190")) time.toNat := by
  have htotal := (total_iff (fun _ => 0) (fun _ => none) (fun _ _ => rfl) (lit "1414956190")).2.2
    (by decide) (List.all_eq_true.1 rfl) (by decide) 0
  exact htotal.2 (by decide)

/-- What is promised of every string: both functions return, and a number is a time. -/
def Total (beyond : Nat → UInt8) (strptime : Bytes → Option Tm) (str : Bytes) : Prop :=
  (∀ now, ∃ time, parseTime beyond strptime now str = .ok time) ∧
    (∃ duration, parseDuration str = .ok duration) ∧
    (str ≠ [] → (∀ c ∈ str, Libc.isdigit c = true) → Libc.digitsVal str < 2^64 → ∀ now,
      ∃ time, parseTime beyond strptime now str = .ok (some time) ∧
        ReadAs (Libc.digitsVal str) time.toNat)

theorem large_offset_not_total :
    ¬∀ beyond strptime, (∀ str, (∀ c ∈ str, Libc.isdigit c = true) → strptime str = none) →
      ∀ str, Total beyond strptime str := by
  intro h
  obtain ⟨htime, -, -⟩ :=
    h (fun _ => 0) (fun _ => none) (fun _ _ => rfl) (lit "-99999999999999999999s")
  obtain ⟨time, htime⟩ := htime 0
  rw [show parseTime (fun _ => 0) (fun _ => none) 0 (lit "-99999999999999999999s") =
    Result.RAISE .outOfRange "stoull" by decide] at htime
  cases htime

/- Times before now. -/

/-- A name of a unit stands for the factor of its group alone, and no name begins with a digit. -/
theorem durationUnits_find :
    ∀ u ∈ durationUnits, ∀ name ∈ u.1,
      (durationUnits.find? fun v => v.1.contains name) = some u ∧
        ∀ c ∈ name.head?, Libc.isdigit c = false := by
  have hall : ∀ u ∈ durationUnits, ∀ name ∈ u.1,
      (durationUnits.find? fun v => v.1.contains name) = some u ∧
        name.head?.any Libc.isdigit = false := by
    decide
  intro u hu name hname
  obtain ⟨hfind, hhead⟩ := hall u hu name hname
  refine ⟨hfind, fun c hc => ?_⟩
  rw [Option.mem_def.1 hc] at hhead
  exact hhead

section
variable {digits name : Bytes} {factor : Nat}

theorem parseDuration_append (hne : digits ≠ []) (hdigits : ∀ c ∈ digits, Libc.isdigit c = true)
    {names : List Bytes} (hunit : (names, factor) ∈ durationUnits) (hname : name ∈ names) :
    parseDuration (digits ++ name) =
      if 2^64 ≤ Libc.digitsVal digits then Result.RAISE .outOfRange "stoull"
      else .ok (some (UInt64.ofNat (Libc.digitsVal digits*factor))) := by
  obtain ⟨hfind, hhead⟩ := durationUnits_find _ hunit name hname
  have hblanks : ∀ c ∈ (digits ++ name).head?, Libc.isspace c = false := by
    rw [List.head?_append_of_ne_nil _ hne]
    exact Libc.head_isspace hdigits
  have hlength : numeralLength (digits ++ name) = digits.length := by
    have hdrop := @Libc.dropWhile_blanks [] (digits ++ name) (by simp) hblanks
    rw [List.nil_append] at hdrop
    have hsign : ¬((digits ++ name).head? = some 45 ∨ (digits ++ name).head? = some 43) := by
      rw [List.head?_append_of_ne_nil _ hne]
      rintro (h | h) <;> exact absurd (hdigits _ (List.mem_of_mem_head? h)) (by decide)
    rw [numeralLength, hdrop, if_neg hsign, Libc.ofText_append hne hdigits hhead]
    simp
  have hsome : (Libc.Numeral.ofText (digits ++ name)).digits ≠ [] := by
    rw [Libc.ofText_append hne hdigits hhead]
    exact hne
  rw [parseDuration, Libc.stoull, if_neg hsome, Libc.stoul_append hne hdigits hhead]
  by_cases hle : 2^64 ≤ Libc.digitsVal digits
  · rw [if_pos hle, if_pos hle]
    rfl
  · rw [if_neg hle, if_neg hle, UInt64.ofNat_mul]
    simp only [Result.ok_bind, hlength, List.drop_left]
    exact congrArg (fun u => Result.ok (Option.map (fun u => _*UInt64.ofNat u.2) u)) hfind

theorem parseTime_offset (beyond : Nat → UInt8) (strptime : Bytes → Option Tm)
    (now : UInt64) (hne : digits ≠ []) (hdigits : ∀ c ∈ digits, Libc.isdigit c = true)
    {names : List Bytes} (hunit : (names, factor) ∈ durationUnits) (hname : name ∈ names) :
    parseTime beyond strptime now (45 :: (digits ++ name)) =
      if 2^64 ≤ Libc.digitsVal digits then Result.RAISE .outOfRange "stoull"
      else .ok (some (now-UInt64.ofNat (Libc.digitsVal digits*factor))) := by
  have hnow : 45 :: (digits ++ name) ≠ lit "now" := fun h =>
    absurd (List.cons.inj h).1 (by decide)
  have hoffset : parseOffset (45 :: (digits ++ name)) = parseDuration (digits ++ name) := by
    cases digits with
    | nil => exact absurd rfl hne
    | cons c digits => exact if_pos (hdigits c List.mem_cons_self)
  rw [parseTime, if_neg hnow, hoffset, parseDuration_append hne hdigits hunit hname]
  split <;> rfl

/-- A time before now is right exactly when now is late enough. -/
theorem past_iff (beyond : Nat → UInt8) (strptime : Bytes → Option Tm) (now : UInt64)
    (hne : digits ≠ []) (hdigits : ∀ c ∈ digits, Libc.isdigit c = true)
    {names : List Bytes} (hunit : (names, factor) ∈ durationUnits) (hname : name ∈ names) :
    (∀ time, parseTime beyond strptime now (45 :: (digits ++ name)) = .ok (some time) →
      time ≤ now ∧ now.toNat-time.toNat = Libc.digitsVal digits*factor) ↔
      2^64 ≤ Libc.digitsVal digits ∨ Libc.digitsVal digits*factor ≤ now.toNat := by
  rw [parseTime_offset beyond strptime now hne hdigits hunit hname]
  by_cases hlarge : 2^64 ≤ Libc.digitsVal digits
  · rw [if_pos hlarge]
    refine iff_of_true ?_ (.inl hlarge)
    intro time h
    cases h
  · rw [if_neg hlarge]
    constructor
    · intro h
      obtain ⟨-, hduration⟩ := h _ rfl
      exact .inr (hduration ▸ Nat.sub_le _ _)
    · rintro (h | hle) time heq
      · exact absurd h hlarge
      · cases heq
        have hnow := now.toNat_lt
        have hoffset : (UInt64.ofNat (Libc.digitsVal digits*factor)).toNat =
            Libc.digitsVal digits*factor := by
          rw [UInt64.toNat_ofNat', Nat.mod_eq_of_lt (Nat.lt_of_le_of_lt hle hnow)]
        have hsub : (now-UInt64.ofNat (Libc.digitsVal digits*factor)).toNat =
            now.toNat-Libc.digitsVal digits*factor := by
          rw [UInt64.toNat_sub_of_le _ _ (by rwa [UInt64.le_iff_toNat_le, hoffset]), hoffset]
        rw [UInt64.le_iff_toNat_le, hsub]
        omega

end

theorem past_iff_at_two_hours :
    (1414948990000000 : UInt64) ≤ 1414956190000000 ∧
      (1414956190000000 : UInt64).toNat-(1414948990000000 : UInt64).toNat = 2*kMicrosPerHour := by
  have hpast := @past_iff (lit "2") (lit "hours") kMicrosPerHour (fun _ => 0) (fun _ => none)
    1414956190000000 (by decide) (List.all_eq_true.1 rfl) [lit "h", lit "hour", lit "hours"]
    (by decide) (by decide)
  exact hpast.2 (.inr (by decide)) 1414948990000000 (by decide)

theorem before_epoch_not_past :
    ¬∀ (now : UInt64) (u : List Bytes × Nat) (digits name : Bytes), u ∈ durationUnits → name ∈ u.1 →
      digits ≠ [] → (∀ c ∈ digits, Libc.isdigit c = true) → ∀ time,
        parseTime (fun _ => 0) (fun _ => none) now (45 :: (digits ++ name)) = .ok (some time) →
          time ≤ now ∧ now.toNat-time.toNat = Libc.digitsVal digits*u.2 := by
  intro h
  have hyears := h 1414956190000000 ([lit "y", lit "year", lit "years"], kMicrosPerYear)
    (lit "100") (lit "years") (by decide) (by decide) (by decide) (List.all_eq_true.1 rfl) _
    (show _ = Result.ok (some (18445005429899551616 : UInt64)) by decide)
  exact absurd hyears.1 (by decide)

end Human
end Stx
