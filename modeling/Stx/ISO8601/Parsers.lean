import Stx.ISO8601.Language

/-! What each parser takes from a position on, and from that what `parse` takes. -/
namespace Stx.ISO8601

section parsers
variable (beyond : Nat → UInt8) {s : Bytes} {p : Nat} {date c : CivilTime}

/-- What stands at a position that has a character other than the NUL behind the string. -/
theorem drop_eq_cons (hp : p ≤ s.length) (h : c_str beyond s p ≠ 0) :
    s.drop p = c_str beyond s p :: s.drop (p+1) := by
  have hlt : p < s.length := by
    by_contra hend
    obtain rfl : p = s.length := by omega
    exact h (c_str_length beyond)
  rw [List.drop_eq_getElem_cons hlt, c_str, List.getElem?_append_left hlt,
    List.getElem?_eq_getElem hlt]
  rfl

theorem parsePart_iff {room : Nat} {separators : List UInt8} {inRange : CivilTime → Int → Bool}
    {set : CivilTime → Nat → CivilTime} {next : Nat → CivilTime → Bool × CivilTime}
    (hp : p ≤ s.length) (hroom : room ≤ 2) (hseparators : 0 ∉ separators) :
    parsePart (c_str beyond s) s.length room separators inRange set next p date = (true, c) ↔
      ∃ (b : UInt8) (t : TwoDigits) (u : Bytes), s.drop p = b :: (t.text ++ u) ∧ b ∈ separators ∧
        inRange date t.value = true ∧ next (p+3) (set date t.value) = (true, c) := by
  rw [parsePart]
  constructor
  · intro h
    split at h
    · cases h
    · next hcond =>
      simp only [not_or, not_not] at hcond
      obtain ⟨hend, hmem, hdigits⟩ := hcond
      have hcons := drop_eq_cons beyond hp fun h => hseparators (h ▸ hmem)
      obtain ⟨t, u, hu⟩ := (chars_two_iff beyond (by omega : p+1 ≤ s.length)).1 hdigits
      rw [chars_two beyond hu, stoi_text] at h
      simp only [Int.toNat_natCast] at h
      split at h
      · next hrange => exact ⟨_, t, u, by rw [hcons, hu], hmem, hrange, h⟩
      · cases h
  · rintro ⟨b, t, u, hdrop, hb, hrange, hnext⟩
    have hrest : s.drop (p+1) = t.text ++ u := drop_add (a := [b]) hdrop rfl
    have htwo : t.text.length = 2 := rfl
    have hlen := le_of_drop (a := b :: t.text) hdrop (List.cons_ne_nil b t.text)
    rw [List.length_cons, htwo] at hlen
    have hcond : ¬(s.length < p+1+room ∨ c_str beyond s p ∉ separators ∨
        ¬StringUtil.isDigitString t.text = true) := by
      simp only [not_or, not_not]
      exact ⟨by omega, by rwa [c_str_of_drop beyond hdrop], isDigitString_text t⟩
    simp only [chars_two beyond hrest, if_neg hcond, stoi_text, Int.toNat_natCast, if_pos hrange,
      hnext]

/-- A parser that is called at a part, when the rest of the part is there. -/
theorem drop_part {b : UInt8} {t : TwoDigits} {u : Bytes} (h : s.drop p = b :: (t.text ++ u)) :
    p+3 ≤ s.length ∧ s.drop (p+3) = u := by
  have hdrop : s.drop p = (b :: t.text) ++ u := h
  exact ⟨le_of_drop hdrop (List.cons_ne_nil b t.text), drop_add hdrop rfl⟩

/-- What the branch that returns `true` has seen, in the memory alone. -/
theorem parseTimeOffset_cases {mem : Nat → UInt8} {endp : Nat}
    (h : parseTimeOffset mem endp p date = (true, c)) :
    (p+1 = endp ∧ (mem p = 122 ∨ mem p = 90)) ∧ c = { date with offset_ := 0 } ∨
      (mem p = 43 ∨ mem p = 45) ∧
        (p+3 ≤ endp ∧ StringUtil.isDigitString (chars mem (p+1) 2) = true) ∧
        (p+6 ≤ endp ∧ mem (p+3) = 58 ∧ StringUtil.isDigitString (chars mem (p+4) 2) = true) ∧
        ∃ hour minute, Libc.stoi (chars mem (p+1) 2) = some hour ∧ (0 ≤ hour ∧ hour ≤ 24) ∧
          Libc.stoi (chars mem (p+4) 2) = some minute ∧ (0 ≤ minute ∧ minute ≤ 59) ∧
          c = { date with
            offset_ := (if mem p = 43 then 1 else -1)*(hour*3600+minute*60) } := by
  rw [parseTimeOffset] at h
  by_cases hutc : p+1 = endp ∧ (mem p = 122 ∨ mem p = 90)
  · rw [if_pos hutc] at h
    cases h
    exact .inl ⟨hutc, rfl⟩
  rw [if_neg hutc] at h
  by_cases hsign : mem p = 43 ∨ mem p = 45
  swap
  · rw [if_pos (not_or.1 hsign)] at h
    cases h
  rw [if_neg (by rwa [← not_or, not_not])] at h
  simp only at h
  split at h
  · cases h
  next hhours =>
  rw [not_or, not_not, Nat.not_lt] at hhours
  cases hhour : Libc.stoi (chars mem (p+1) 2) with
  | none => rw [hhour] at h; cases h
  | some hour =>
    rw [hhour] at h
    simp only at h
    split at h
    · cases h
    next hrange =>
    split at h
    · cases h
    next hminutes =>
    rw [not_or, not_or, not_not, not_not, Nat.not_lt] at hminutes
    cases hminute : Libc.stoi (chars mem (p+4) 2) with
    | none => rw [hminute] at h; cases h
    | some minute =>
      rw [hminute] at h
      simp only at h
      split at h
      · next hrange' =>
        cases h
        exact .inr ⟨hsign, hhours, hminutes, hour, minute, rfl, not_not.1 hrange, rfl, hrange', rfl⟩
      · cases h

theorem zone_of_parseTimeOffset (hp : p ≤ s.length)
    (h : parseTimeOffset (c_str beyond s) s.length p date = (true, c)) :
    ∃ (z : Zone) (rest : Bytes), s.drop p = z.text ++ rest ∧ z.Taken rest ∧
      c = { date with offset_ := z.seconds } := by
  obtain ⟨⟨hend, hz⟩, rfl⟩ |
    ⟨hsign, ⟨hend, hhours⟩, ⟨hend', hcolon, hminutes⟩, h, m, hhour, hrange, hminute, hrange', rfl⟩ :=
    parseTimeOffset_cases h
  · have hcons := drop_eq_cons beyond hp fun h => by rw [h] at hz; revert hz; decide
    rw [List.drop_eq_nil_of_le (by omega : s.length ≤ p+1)] at hcons
    cases hz with
    | inl h => exact ⟨.utc true, [], by rw [hcons, h]; rfl, rfl, rfl⟩
    | inr h => exact ⟨.utc false, [], by rw [hcons, h]; rfl, rfl, rfl⟩
  · obtain ⟨hour, u, hu⟩ := (chars_two_iff beyond (by omega : p+1 ≤ s.length)).1 hhours
    obtain ⟨minute, v, hv⟩ := (chars_two_iff beyond (by omega : p+4 ≤ s.length)).1 hminutes
    rw [chars_two beyond hu, stoi_text] at hhour
    rw [chars_two beyond hv, stoi_text] at hminute
    cases hhour
    cases hminute
    have hcons := drop_eq_cons beyond hp fun h => by rw [h] at hsign; revert hsign; decide
    have hu' : s.drop (p+3) = u := drop_add (p := p+1) hu rfl
    have hcons' := drop_eq_cons beyond (by omega : p+3 ≤ s.length) (by rw [hcolon]; decide)
    rw [hu', hv, hcolon] at hcons'
    have htaken : hour.value ≤ 24 ∧ minute.value ≤ 59 := by omega
    cases hsign with
    | inl hplus =>
      refine ⟨.offset false hour minute, v, ?_, htaken, ?_⟩
      · rw [hcons, hu, hcons', hplus]
        simp [Zone.text]
      · simp [Zone.seconds, hplus]
    | inr hminus =>
      refine ⟨.offset true hour minute, v, ?_, htaken, ?_⟩
      · rw [hcons, hu, hcons', hminus]
        simp [Zone.text]
      · simp [Zone.seconds, hminus]

theorem parseTimeOffset_of_taken {z : Zone} {rest : Bytes} (hdrop : s.drop p = z.text ++ rest)
    (htaken : z.Taken rest) :
    parseTimeOffset (c_str beyond s) s.length p date =
      (true, { date with offset_ := z.seconds }) := by
  rw [parseTimeOffset]
  cases z with
  | utc lower =>
    obtain rfl : rest = [] := htaken
    have hlen := congrArg List.length hdrop
    rw [List.length_drop] at hlen
    have hone : (Zone.text (.utc lower) ++ []).length = 1 := rfl
    rw [hone] at hlen
    have hchar : c_str beyond s p = if lower then 122 else 90 := c_str_of_drop beyond hdrop
    rw [if_pos ⟨by omega, by rw [hchar]; cases lower <;> decide⟩]
    rfl
  | offset minus hour minute =>
    obtain ⟨hhour, hminute⟩ : hour.value ≤ 24 ∧ minute.value ≤ 59 := htaken
    have hchar : c_str beyond s p = if minus then 45 else 43 := c_str_of_drop beyond hdrop
    have hsix : (Zone.text (.offset minus hour minute)).length = 6 := rfl
    have hlen := le_of_drop hdrop (List.cons_ne_nil _ _)
    rw [hsix] at hlen
    have hu : s.drop (p+1) = hour.text ++ (58 :: (minute.text ++ rest)) := by
      exact drop_add (a := [_]) hdrop rfl
    have hcolon : s.drop (p+3) = 58 :: (minute.text ++ rest) := drop_add (p := p+1) hu rfl
    have hv : s.drop (p+4) = minute.text ++ rest := drop_add (p := p+3) (a := [58]) hcolon rfl
    have hnot : ¬(p+1 = s.length ∧ (c_str beyond s p = 122 ∨ c_str beyond s p = 90)) := by
      omega
    have hsign : ¬(c_str beyond s p ≠ 43 ∧ c_str beyond s p ≠ 45) := by
      rw [hchar]
      cases minus <;> decide
    have hrange : ¬¬((0 : Int) ≤ hour.value ∧ (hour.value : Int) ≤ 24) := by omega
    have hrange' : (0 : Int) ≤ minute.value ∧ (minute.value : Int) ≤ 59 := by omega
    have hroom : ¬(s.length < p+3 ∨ ¬StringUtil.isDigitString hour.text = true) := by
      rw [isDigitString_text]
      simp
      omega
    have hroom' : ¬(s.length < p+6 ∨ c_str beyond s (p+3) ≠ 58 ∨
        ¬StringUtil.isDigitString minute.text = true) := by
      rw [isDigitString_text, c_str_of_drop beyond hcolon]
      simp
      omega
    rw [if_neg hnot, if_neg hsign]
    simp only [chars_two beyond hu, chars_two beyond hv, stoi_text, if_neg hroom, if_neg hroom',
      if_neg hrange, if_pos hrange', hchar]
    cases minus <;> rfl

theorem parseTimeOffset_iff (hp : p ≤ s.length) :
    parseTimeOffset (c_str beyond s) s.length p date = (true, c) ↔
      ∃ (z : Zone) (rest : Bytes), s.drop p = z.text ++ rest ∧ z.Taken rest ∧
        c = { date with offset_ := z.seconds } := by
  constructor
  · exact zone_of_parseTimeOffset beyond hp
  · rintro ⟨z, rest, hdrop, htaken, rfl⟩
    exact parseTimeOffset_of_taken beyond hdrop htaken

theorem Zone.head_not_digit (z : Zone) (rest : Bytes) :
    ∀ c ∈ (z.text ++ rest).head?, Libc.isdigit c = false := by
  intro c hc
  cases z with
  | utc lower =>
    cases hc
    cases lower <;> rfl
  | offset minus hour minute =>
    cases hc
    cases minus <;> rfl

/-- Digits in front of something else are taken apart in one way only. -/
theorem digits_append_inj {frac frac' : List (Fin 10)} {v v' : Bytes}
    (hv : ∀ c ∈ v.head?, Libc.isdigit c = false) (hv' : ∀ c ∈ v'.head?, Libc.isdigit c = false)
    (h : frac.map digit ++ v = frac'.map digit ++ v') : frac = frac' ∧ v = v' := by
  induction frac generalizing frac' with
  | nil =>
    cases frac' with
    | nil => exact ⟨rfl, h⟩
    | cons d frac' =>
      have hdigit := hv (digit d) (by rw [List.map_nil, List.nil_append] at h; rw [h]; rfl)
      rw [isdigit_digit] at hdigit
      cases hdigit
  | cons d frac ih =>
    cases frac' with
    | nil =>
      have hdigit := hv' (digit d) (by rw [List.map_nil, List.nil_append] at h; rw [← h]; rfl)
      rw [isdigit_digit] at hdigit
      cases hdigit
    | cons d' frac' =>
      simp only [List.map_cons, List.cons_append, List.cons.injEq] at h
      obtain ⟨rfl, rfl⟩ := ih h.2
      exact ⟨by rw [digit_injective h.1], rfl⟩

theorem exists_digits_append (u : Bytes) :
    ∃ (frac : List (Fin 10)) (v : Bytes), u = frac.map digit ++ v ∧
      ∀ c ∈ v.head?, Libc.isdigit c = false := by
  obtain ⟨frac, hfrac⟩ := exists_map_digit fun c (hc : c ∈ u.takeWhile Libc.isdigit) =>
    List.mem_takeWhile_imp hc
  refine ⟨frac, u.dropWhile Libc.isdigit, by rw [hfrac, List.takeWhile_append_dropWhile], ?_⟩
  intro c hc
  have hnot := List.head?_dropWhile_not Libc.isdigit u
  rw [Option.mem_def.1 hc] at hnot
  simpa using hnot

/-- The loop counts the digits behind the point. -/
theorem takeWhile_chars {frac : List (Fin 10)} {v : Bytes}
    (h : s.drop p = 46 :: (frac.map digit ++ v)) (hv : ∀ c ∈ v.head?, Libc.isdigit c = false) :
    (chars (c_str beyond s) (p+1) (s.length-p)).takeWhile Libc.isdigit = frac.map digit := by
  have hlen := congrArg List.length h
  have hdigits : ∀ c ∈ frac.map digit, Libc.isdigit c = true := fun c hc => isdigit_of_mem_map hc
  rw [List.length_drop, List.length_cons, List.length_append] at hlen
  have hrest : s.drop (p+1) = frac.map digit ++ v := drop_add (a := [46]) h rfl
  have hchars : chars (c_str beyond s) (p+1) (s.length-p) = frac.map digit ++ (v ++ [0]) := by
    rw [show s.length-p = s.length+1-(p+1) by omega, chars_end beyond (by omega),
      hrest, List.append_assoc]
  rw [hchars, List.takeWhile_append_of_pos hdigits]
  cases v with
  | nil => rw [List.nil_append, List.takeWhile_cons_of_neg (by decide), List.append_nil]
  | cons c v =>
    rw [List.cons_append, List.takeWhile_cons_of_neg (by rw [hv c rfl]; decide), List.append_nil]

theorem parseSecondFrac_eq {frac : List (Fin 10)} {v : Bytes}
    (h : s.drop p = 46 :: (frac.map digit ++ v)) (hv : ∀ c ∈ v.head?, Libc.isdigit c = false) :
    parseSecondFrac (c_str beyond s) s.length p date =
      if frac.length < 1 ∨ frac.length > 3 then (false, date)
      else parseTimeOffset (c_str beyond s) s.length (p+1+frac.length)
        { date with millisecond_ := millis frac } := by
  have hdrop : s.drop p = (46 :: frac.map digit) ++ v := h
  have hlen := le_of_drop hdrop (List.cons_ne_nil _ _)
  rw [List.length_cons, List.length_map] at hlen
  have hfirst : ¬(s.length < p+1 ∨ c_str beyond s p ≠ 46) := by
    rw [c_str_of_drop beyond h]
    simp
    omega
  rw [parseSecondFrac, if_neg hfirst]
  simp only [takeWhile_chars beyond h hv, List.length_map]
  by_cases hcount : frac.length < 1 ∨ frac.length > 3
  · rw [if_pos hcount, if_pos hcount]
  · have hrest : s.drop (p+1) = frac.map digit ++ v := drop_add (a := [46]) h rfl
    have htext : chars (c_str beyond s) (p+1) frac.length = frac.map digit := by
      rw [chars_eq_take beyond (by omega), hrest, List.take_left' (List.length_map _)]
    have hne : frac.map digit ≠ [] := by
      intro hnil
      rw [List.map_eq_nil_iff] at hnil
      rw [hnil] at hcount
      exact hcount (.inl Nat.one_pos)
    have hnumber : Libc.stoul (frac.map digit) = some (Libc.digitsVal (frac.map digit)) := by
      have hlt := digitsVal_lt frac
      have hle : 10^frac.length ≤ 10^3 := Nat.pow_le_pow_right (by decide) (by omega)
      exact Libc.stoul_digits hne (fun c hc => isdigit_of_mem_map hc) (by omega)
    rw [if_neg hcount, if_neg hcount, htext, hnumber]
    rfl

theorem fracText_cons {frac : List (Fin 10)} (h : frac ≠ []) :
    fracText frac = 46 :: frac.map digit := if_neg h

/-- A zone does not begin with a point. -/
theorem Zone.text_ne {z : Zone} {rest u : Bytes} : z.text ++ rest ≠ 46 :: u := by
  intro h
  cases z with
  | utc lower =>
    have hhead := (List.cons_eq_cons.1 h).1
    cases lower <;> exact absurd hhead (by decide)
  | offset minus hour minute =>
    have hhead := (List.cons_eq_cons.1 h).1
    cases minus <;> exact absurd hhead (by decide)

theorem parseSecondFrac_of_no_point (hp : p ≤ s.length) (h : ∀ u, s.drop p ≠ 46 :: u) :
    parseSecondFrac (c_str beyond s) s.length p date = (false, date) := by
  rw [parseSecondFrac, if_pos]
  by_contra hcond
  simp only [not_or, not_not] at hcond
  have hcons := drop_eq_cons beyond hp (by rw [hcond.2]; decide)
  rw [hcond.2] at hcons
  exact h _ hcons

theorem parseSecondEnd_iff (hp : p ≤ s.length) (hzero : date.millisecond_ = 0) :
    parseSecondEnd (c_str beyond s) s.length p date = (true, c) ↔
      ∃ (frac : List (Fin 10)) (z : Zone) (rest : Bytes),
        s.drop p = fracText frac ++ (z.text ++ rest) ∧ frac.length ≤ 3 ∧ z.Taken rest ∧
          c = { date with millisecond_ := millis frac, offset_ := z.seconds } := by
  by_cases hpoint : ∃ u, s.drop p = 46 :: u
  · obtain ⟨u, hu⟩ := hpoint
    obtain ⟨frac, v, rfl, hv⟩ := exists_digits_append u
    have hlen := le_of_drop (a := 46 :: frac.map digit) hu (List.cons_ne_nil _ _)
    rw [List.length_cons, List.length_map] at hlen
    have hrest : s.drop (p+1+frac.length) = v :=
      drop_add (drop_add (a := [46]) hu rfl) (List.length_map _)
    have hnone : ∀ d, parseTimeOffset (c_str beyond s) s.length p d ≠ (true, c) := by
      intro d hd
      obtain ⟨z, rest, hz, -, -⟩ := (parseTimeOffset_iff beyond hp).1 hd
      exact Zone.text_ne (hz.symm.trans hu)
    have hfrac : parseSecondEnd (c_str beyond s) s.length p date = (true, c) ↔
        parseSecondFrac (c_str beyond s) s.length p date = (true, c) := by
      rw [parseSecondEnd]
      split
      · next d hd => rw [hd]
      · next d hd => rw [hd]; exact iff_of_false (hnone d) (by simp)
    rw [hfrac, parseSecondFrac_eq beyond hu hv]
    constructor
    · intro h
      split at h
      · cases h
      · next hcount =>
        obtain ⟨z, rest, hz, htaken, rfl⟩ := (parseTimeOffset_iff beyond (by omega)).1 h
        have hne : frac ≠ [] := by
          rintro rfl
          exact hcount (.inl Nat.one_pos)
        exact ⟨frac, z, rest, by rw [fracText_cons hne, hu, ← hrest, hz]; rfl, by omega, htaken, rfl⟩
    · rintro ⟨frac', z, rest, hdrop, hcount, htaken, rfl⟩
      have hne : frac' ≠ [] := by
        rintro rfl
        exact Zone.text_ne (hdrop.symm.trans hu)
      rw [fracText_cons hne, hu, List.cons_append, List.cons.injEq] at hdrop
      obtain ⟨rfl, rfl⟩ := digits_append_inj hv (z.head_not_digit rest) hdrop.2
      have hpos := List.length_pos_of_ne_nil hne
      rw [if_neg (by omega)]
      exact (parseTimeOffset_iff beyond (by omega)).2 ⟨z, rest, hrest, htaken, rfl⟩
  · have hnil' : millis [] = date.millisecond_ := hzero.symm
    rw [parseSecondEnd, parseSecondFrac_of_no_point beyond hp (not_exists.1 hpoint),
      parseTimeOffset_iff beyond hp]
    constructor
    · rintro ⟨z, rest, hdrop, htaken, rfl⟩
      refine ⟨[], z, rest, hdrop, Nat.zero_le 3, htaken, ?_⟩
      rw [hnil']
    · rintro ⟨frac, z, rest, hdrop, -, htaken, rfl⟩
      have hnil : frac = [] := by
        by_contra hne
        rw [fracText_cons hne] at hdrop
        exact hpoint ⟨_, hdrop⟩
      subst hnil
      refine ⟨z, rest, hdrop, htaken, ?_⟩
      rw [hnil']

theorem parseSecond_iff (hp : p ≤ s.length) (hzero : date.millisecond_ = 0) :
    parseSecond (c_str beyond s) s.length p date = (true, c) ↔
      ∃ (second : TwoDigits) (frac : List (Fin 10)) (z : Zone) (rest : Bytes),
        s.drop p = 58 :: (second.text ++ (fracText frac ++ (z.text ++ rest))) ∧
          second.value ≤ 59 ∧ frac.length ≤ 3 ∧ z.Taken rest ∧
          c = { date with
            second_ := second.value, millisecond_ := millis frac, offset_ := z.seconds } := by
  rw [parseSecond, parsePart_iff beyond hp (by decide) (by decide)]
  constructor
  · rintro ⟨b, second, u, hdrop, hb, hrange, hnext⟩
    obtain ⟨hle, hu⟩ := drop_part hdrop
    obtain ⟨frac, z, rest, hend, hlen, htaken, rfl⟩ :=
      (parseSecondEnd_iff beyond hle (by exact hzero)).1 hnext
    obtain rfl := List.mem_singleton.1 hb
    rw [hu] at hend
    exact ⟨second, frac, z, rest, by rw [hdrop, hend], by simpa using hrange, hlen, htaken, rfl⟩
  · rintro ⟨second, frac, z, rest, hdrop, hsecond, hlen, htaken, rfl⟩
    obtain ⟨hle, hu⟩ := drop_part hdrop
    exact ⟨58, second, _, hdrop, List.mem_singleton_self _, by simpa using hsecond,
      (parseSecondEnd_iff beyond hle (by exact hzero)).2 ⟨frac, z, rest, hu, hlen, htaken, rfl⟩⟩

theorem parseMinute_iff (hp : p ≤ s.length) (hzero : date.millisecond_ = 0) :
    parseMinute (c_str beyond s) s.length p date = (true, c) ↔
      ∃ (minute second : TwoDigits) (frac : List (Fin 10)) (z : Zone) (rest : Bytes),
        s.drop p = 58 ::
          (minute.text ++ 58 :: (second.text ++ (fracText frac ++ (z.text ++ rest)))) ∧
          minute.value ≤ 59 ∧ second.value ≤ 59 ∧ frac.length ≤ 3 ∧ z.Taken rest ∧
          c = { date with
            minute_ := minute.value, second_ := second.value, millisecond_ := millis frac
            offset_ := z.seconds } := by
  rw [parseMinute, parsePart_iff beyond hp (by decide) (by decide)]
  constructor
  · rintro ⟨b, minute, u, hdrop, hb, hrange, hnext⟩
    obtain ⟨hle, hu⟩ := drop_part hdrop
    obtain ⟨second, frac, z, rest, hend, hsecond, hlen, htaken, rfl⟩ :=
      (parseSecond_iff beyond hle (by exact hzero)).1 hnext
    obtain rfl := List.mem_singleton.1 hb
    rw [hu] at hend
    exact ⟨minute, second, frac, z, rest, by rw [hdrop, hend], by simpa using hrange, hsecond, hlen,
      htaken, rfl⟩
  · rintro ⟨minute, second, frac, z, rest, hdrop, hminute, hsecond, hlen, htaken, rfl⟩
    obtain ⟨hle, hu⟩ := drop_part hdrop
    exact ⟨58, minute, _, hdrop, List.mem_singleton_self _, by simpa using hminute,
      (parseSecond_iff beyond hle (by exact hzero)).2
        ⟨second, frac, z, rest, hu, hsecond, hlen, htaken, rfl⟩⟩

/-- The fields of a time of day. -/
def Clock.set (k : Clock) (date : CivilTime) : CivilTime :=
  { date with
    hour_ := k.hour.value
    minute_ := k.minute.value
    second_ := k.second.value
    millisecond_ := millis k.frac
    offset_ := k.zone.seconds }

theorem parseHour_iff (hp : p ≤ s.length) (hzero : date.millisecond_ = 0) :
    parseHour (c_str beyond s) s.length p date = (true, c) ↔
      ∃ (k : Clock) (rest : Bytes), s.drop p = k.text ++ rest ∧ k.Taken rest ∧ c = k.set date := by
  rw [parseHour, parsePart_iff beyond hp (by decide) (by decide)]
  constructor
  · rintro ⟨b, hour, u, hdrop, hb, hrange, hnext⟩
    obtain ⟨hle, hu⟩ := drop_part hdrop
    obtain ⟨minute, second, frac, z, rest, hend, hminute, hsecond, hlen, htaken, rfl⟩ :=
      (parseMinute_iff beyond hle (by exact hzero)).1 hnext
    rw [hu] at hend
    have hhour : hour.value ≤ 24 := by simpa using hrange
    have htext : ∀ lower, s.drop p = (if lower = true then 116 else 84) :: (hour.text ++ u) →
        s.drop p = (Clock.mk lower hour minute second frac z).text ++ rest := by
      intro lower h
      rw [h, hend]
      simp [Clock.text]
    have hletter : b = 84 ∨ b = 116 := by
      simpa [lit] using hb
    cases hletter with
    | inl h =>
      subst h
      exact ⟨_, rest, htext false hdrop, ⟨hhour, hminute, hsecond, hlen, htaken⟩, rfl⟩
    | inr h =>
      subst h
      exact ⟨_, rest, htext true hdrop, ⟨hhour, hminute, hsecond, hlen, htaken⟩, rfl⟩
  · rintro ⟨⟨lower, hour, minute, second, frac, z⟩, rest, hdrop, htaken, rfl⟩
    have hdrop' : s.drop p = (if lower = true then 116 else 84) :: (hour.text ++
        58 :: (minute.text ++ 58 :: (second.text ++ (fracText frac ++ (z.text ++ rest))))) := by
      rw [hdrop]
      simp [Clock.text]
    obtain ⟨hle, hu⟩ := drop_part hdrop'
    have hhour : hour.value ≤ 24 := htaken.hour
    refine ⟨_, hour, _, hdrop', by cases lower <;> decide, by simpa using hhour,
      (parseMinute_iff beyond hle (by exact hzero)).2 ⟨minute, second, frac, z, rest, hu,
        htaken.minute, htaken.second, htaken.frac, htaken.zone, rfl⟩⟩

/-- The days that a month has when it is looked up by the day. -/
theorem day_inRange_iff (year : Nat) {day : Int} (hle : day ≤ 99) :
    (day > 0 ∧ day ≤ daysInMonth year day) ↔ 1 ≤ day ∧ day ≤ 31 := by
  rw [daysInMonth]
  by_cases hpos : day > 0
  · have hmod : ((day-1).tmod 7).tmod 2 = (day-1) % 7 % 2 := by
      rw [Int.tmod_eq_emod_of_nonneg (a := day-1) (by omega), Int.tmod_eq_emod_of_nonneg (by omega)]
    rw [hmod]
    split_ifs <;> omega
  · omega

/-- Where the string is over, what was read up to there is all. -/
theorem tail_iff (hp : p ≤ s.length) (next : Nat → CivilTime → Bool × CivilTime) :
    (if p < s.length then next p date else (true, date)) = (true, c) ↔
      s.drop p = [] ∧ c = date ∨ s.drop p ≠ [] ∧ next p date = (true, c) := by
  by_cases hlt : p < s.length
  · have hne : s.drop p ≠ [] := by
      rw [Ne, List.drop_eq_nil_iff]
      omega
    simp [if_pos hlt, hne]
  · have hnil : s.drop p = [] := List.drop_eq_nil_of_le (by omega)
    simp [if_neg hlt, hnil, eq_comm]

theorem parseDay_iff (hp : p ≤ s.length) (hzero : date.millisecond_ = 0) :
    parseDay (c_str beyond s) s.length p date = (true, c) ↔
      ∃ (day : TwoDigits) (u : Bytes), s.drop p = 45 :: (day.text ++ u) ∧
        (1 ≤ day.value ∧ day.value ≤ 31) ∧
        (u = [] ∧ c = { date with day_ := day.value } ∨ ∃ (k : Clock) (rest : Bytes),
          u = k.text ++ rest ∧ k.Taken rest ∧ c = k.set { date with day_ := day.value }) := by
  rw [parseDay, parsePart_iff beyond hp (by decide) (by decide)]
  constructor
  · rintro ⟨b, day, u, hdrop, hb, hrange, hnext⟩
    obtain ⟨hle, hu⟩ := drop_part hdrop
    obtain rfl := List.mem_singleton.1 hb
    have hday := day.value_le
    have hin := (day_inRange_iff date.year_ (by omega)).1 (of_decide_eq_true hrange)
    refine ⟨day, u, hdrop, by omega, ?_⟩
    cases (tail_iff hle _).1 hnext with
    | inl h => exact .inl ⟨hu.symm.trans h.1, h.2⟩
    | inr h =>
      obtain ⟨k, rest, hk, htaken, rfl⟩ := (parseHour_iff beyond hle (by exact hzero)).1 h.2
      exact .inr ⟨k, rest, hu.symm.trans hk, htaken, rfl⟩
  · rintro ⟨day, u, hdrop, hday, hend⟩
    obtain ⟨hle, hu⟩ := drop_part hdrop
    have hin := (day_inRange_iff date.year_ (by omega : (day.value : Int) ≤ 99)).2 (by omega)
    refine ⟨45, day, u, hdrop, List.mem_singleton_self _, decide_eq_true hin, (tail_iff hle _).2 ?_⟩
    rw [hu]
    cases hend with
    | inl h => exact .inl h
    | inr h =>
      obtain ⟨k, rest, rfl, htaken, rfl⟩ := h
      exact .inr ⟨List.cons_ne_nil _ _,
        (parseHour_iff beyond hle (by exact hzero)).2 ⟨k, rest, hu, htaken, rfl⟩⟩

theorem parseMonth_iff (hp : p ≤ s.length) (hzero : date.millisecond_ = 0) :
    parseMonth (c_str beyond s) s.length p date = (true, c) ↔
      ∃ (month : TwoDigits) (u : Bytes), s.drop p = 45 :: (month.text ++ u) ∧
        (1 ≤ month.value ∧ month.value ≤ 12) ∧
        (u = [] ∧ c = { date with month_ := month.value } ∨
          ∃ (day : TwoDigits) (v : Bytes), u = 45 :: (day.text ++ v) ∧
            (1 ≤ day.value ∧ day.value ≤ 31) ∧
            (v = [] ∧ c = { date with month_ := month.value, day_ := day.value } ∨
              ∃ (k : Clock) (rest : Bytes), v = k.text ++ rest ∧ k.Taken rest ∧
                c = k.set { date with month_ := month.value, day_ := day.value })) := by
  rw [parseMonth, parsePart_iff beyond hp (by decide) (by decide)]
  constructor
  · rintro ⟨b, month, u, hdrop, hb, hrange, hnext⟩
    obtain ⟨hle, hu⟩ := drop_part hdrop
    obtain rfl := List.mem_singleton.1 hb
    have hin := of_decide_eq_true hrange
    refine ⟨month, u, hdrop, by omega, ?_⟩
    cases (tail_iff hle _).1 hnext with
    | inl h => exact .inl ⟨hu.symm.trans h.1, h.2⟩
    | inr h =>
      obtain ⟨day, v, hv, hrest⟩ := (parseDay_iff beyond hle (by exact hzero)).1 h.2
      exact .inr ⟨day, v, hu.symm.trans hv, hrest⟩
  · rintro ⟨month, u, hdrop, hmonth, hend⟩
    obtain ⟨hle, hu⟩ := drop_part hdrop
    refine ⟨45, month, u, hdrop, List.mem_singleton_self _, decide_eq_true (by omega),
      (tail_iff hle _).2 ?_⟩
    rw [hu]
    cases hend with
    | inl h => exact .inl h
    | inr h =>
      obtain ⟨day, v, rfl, hrest⟩ := h
      exact .inr ⟨List.cons_ne_nil _ _,
        (parseDay_iff beyond hle (by exact hzero)).2 ⟨day, v, hu, hrest⟩⟩

theorem chars_four_iff :
    (¬s.length < 4 ∧ StringUtil.isDigitString (chars (c_str beyond s) 0 4) = true) ↔
      ∃ (century year : TwoDigits) (u : Bytes), s = century.text ++ (year.text ++ u) := by
  constructor
  · rintro ⟨hlen, hdigits⟩
    rw [chars_eq_take beyond (by omega), List.drop_zero] at hdigits
    obtain ⟨ds, hds⟩ := exists_map_digit (List.all_eq_true.1 hdigits)
    have hfour := congrArg List.length hds
    rw [List.length_map, List.length_take, Nat.min_eq_left (by omega)] at hfour
    obtain ⟨a, b, d, e, rfl⟩ := List.length_eq_four.1 hfour
    refine ⟨⟨a, b⟩, ⟨d, e⟩, s.drop 4, ?_⟩
    rw [← List.append_assoc]
    exact (List.take_append_drop 4 s).symm.trans (congrArg (· ++ s.drop 4) hds.symm)
  · rintro ⟨century, year, u, rfl⟩
    have hlen : ¬(century.text ++ (year.text ++ u)).length < 4 := by
      simp [TwoDigits.text]
    refine ⟨hlen, ?_⟩
    rw [chars_eq_take beyond (by omega), List.drop_zero]
    simp [StringUtil.isDigitString, TwoDigits.text, isdigit_digit]

theorem parseYear_iff {century year : TwoDigits} {u : Bytes}
    (h : s = century.text ++ (year.text ++ u)) :
    parseYear (c_str beyond s) s.length 0 {} = (true, c) ↔
      u = [] ∧ c = { year_ := 100*century.value+year.value } ∨
        u ≠ [] ∧ parseMonth (c_str beyond s) s.length 4
          { year_ := 100*century.value+year.value } = (true, c) := by
  obtain ⟨hlen, hdigits⟩ := (chars_four_iff beyond).2 ⟨century, year, u, h⟩
  have hdrop : s.drop 4 = u := by rw [h]; rfl
  have htext : chars (c_str beyond s) 0 4 = century.text ++ year.text := by
    rw [chars_eq_take beyond (by omega), h]
    rfl
  have hle : 4 ≤ s.length := Nat.not_lt.1 hlen
  have htail := @tail_iff s 4 { year_ := 100*century.value+year.value } c hle
    (parseMonth (c_str beyond s) s.length)
  rw [hdrop] at htail
  rw [← htail, parseYear]
  simp only [Nat.zero_add, htext] at hdigits ⊢
  rw [if_neg (by rw [hdigits]; simpa using hlen), stoi_year]
  rfl

theorem parse_eq_some (beyond : Nat → UInt8) (s : Bytes) (c : CivilTime) :
    parse beyond s = some c ↔ parseYear (c_str beyond s) s.length 0 {} = (true, c) := by
  rw [parse]
  split
  · next d hd => simp [hd]
  · next d hd => simp [hd]

/-- Anything that is taken begins with four digits. -/
theorem exists_year (h : parse beyond s = some c) :
    ∃ (century year : TwoDigits) (u : Bytes), s = century.text ++ (year.text ++ u) := by
  rw [parse_eq_some] at h
  refine (chars_four_iff beyond).1 ?_
  by_contra hnot
  rw [parseYear] at h
  simp only [Nat.zero_add] at h
  rw [if_pos (by rwa [not_and_or, not_not] at hnot)] at h
  cases h

theorem parse_iff {century year : TwoDigits} {u : Bytes}
    (h : s = century.text ++ (year.text ++ u)) :
    parse beyond s = some c ↔
      u = [] ∧ c = { year_ := 100*century.value+year.value } ∨
        ∃ (month : TwoDigits) (u' : Bytes), u = 45 :: (month.text ++ u') ∧
          (1 ≤ month.value ∧ month.value ≤ 12) ∧
          (u' = [] ∧ c = { year_ := 100*century.value+year.value, month_ := month.value } ∨
            ∃ (day : TwoDigits) (v : Bytes), u' = 45 :: (day.text ++ v) ∧
              (1 ≤ day.value ∧ day.value ≤ 31) ∧
              (v = [] ∧ c = (Stamp.day century year month day).civil ∨
                ∃ (k : Clock) (rest : Bytes), v = k.text ++ rest ∧ k.Taken rest ∧
                  c = (Stamp.time century year month day k).civil)) := by
  have hdrop : s.drop 4 = u := by rw [h]; rfl
  have hle : 4 ≤ s.length := by
    rw [h]
    simp [TwoDigits.text]
  have hmonth := @parseMonth_iff beyond s 4 { year_ := 100*century.value+year.value } c hle rfl
  rw [hdrop] at hmonth
  rw [parse_eq_some, parseYear_iff beyond h, hmonth]
  refine or_congr_right (and_iff_right_of_imp ?_)
  rintro ⟨month, u', rfl, -⟩
  exact List.cons_ne_nil _ _

/-- The strings that are taken, and the fields that are returned for them. -/
theorem parse_eq_some_iff (beyond : Nat → UInt8) (s : Bytes) (c : CivilTime) :
    parse beyond s = some c ↔
      ∃ (stamp : Stamp) (rest : Bytes), s = stamp.text ++ rest ∧ stamp.Taken rest ∧
        c = stamp.civil := by
  constructor
  · intro h
    obtain ⟨century, year, u, hs⟩ := exists_year beyond h
    obtain ⟨rfl, rfl⟩ | ⟨month, u', rfl, hin, hend⟩ := (parse_iff beyond hs).1 h
    · exact ⟨.year century year, [], by rw [hs, Stamp.text]; simp, rfl, rfl⟩
    obtain ⟨rfl, rfl⟩ | ⟨day, v, rfl, hday, hend⟩ := hend
    · exact ⟨.month century year month, [], by rw [hs, Stamp.text]; simp, ⟨hin, rfl⟩, rfl⟩
    obtain ⟨rfl, rfl⟩ | ⟨k, rest, rfl, htaken, rfl⟩ := hend
    · exact ⟨.day century year month day, [], by rw [hs, Stamp.text]; simp, ⟨hin, hday, rfl⟩, rfl⟩
    · exact ⟨.time century year month day k, rest, by rw [hs, Stamp.text]; simp,
        ⟨hin, hday, htaken⟩, rfl⟩
  · rintro ⟨stamp, rest, hs, htaken, rfl⟩
    cases stamp with
    | year century year =>
      obtain rfl : rest = [] := htaken
      have hs' : s = century.text ++ (year.text ++ []) := by
        rw [hs, Stamp.text]
        simp
      exact (parse_iff beyond hs').2 (.inl ⟨rfl, rfl⟩)
    | month century year month =>
      obtain ⟨hin, rfl⟩ := htaken
      have hs' : s = century.text ++ (year.text ++ 45 :: (month.text ++ [])) := by
        rw [hs, Stamp.text]
        simp
      exact (parse_iff beyond hs').2 (.inr ⟨month, [], rfl, hin, .inl ⟨rfl, rfl⟩⟩)
    | day century year month day =>
      obtain ⟨hin, hday, rfl⟩ := htaken
      have hs' : s = century.text ++ (year.text ++
          45 :: (month.text ++ 45 :: (day.text ++ []))) := by
        rw [hs, Stamp.text]
        simp
      exact (parse_iff beyond hs').2
        (.inr ⟨month, _, rfl, hin, .inr ⟨day, [], rfl, hday, .inl ⟨rfl, rfl⟩⟩⟩)
    | time century year month day k =>
      obtain ⟨hin, hday, htaken⟩ := htaken
      have hs' : s = century.text ++ (year.text ++
          45 :: (month.text ++ 45 :: (day.text ++ (k.text ++ rest)))) := by
        rw [hs, Stamp.text]
        simp
      exact (parse_iff beyond hs').2
        (.inr ⟨month, _, rfl, hin, .inr ⟨day, _, rfl, hday, .inr ⟨k, rest, rfl, htaken, rfl⟩⟩⟩)

end parsers

/- When the strings that are taken are the times that exist. -/

theorem isDate_le {year month day : Nat} (h : IsDate year month day) :
    (1 ≤ month ∧ month ≤ 12) ∧ 1 ≤ day ∧ day ≤ 31 := by
  obtain ⟨hday, hmonth | hmonth | hmonth⟩ := h
  · have hin := hmonth.1
    simp only [List.mem_cons, List.not_mem_nil, or_false] at hin
    omega
  · have hin := hmonth.1
    simp only [List.mem_cons, List.not_mem_nil, or_false] at hin
    omega
  · omega

theorem Zone.Exists.taken {z : Zone} (h : z.Exists) : z.Taken [] := by
  cases z with
  | utc lower => rfl
  | offset minus hour minute =>
    obtain ⟨hhour, hminute⟩ : hour.value ≤ 23 ∧ minute.value ≤ 59 := h
    exact ⟨by omega, hminute⟩

theorem Clock.Exists.taken {k : Clock} (h : k.Exists) : k.Taken [] :=
  ⟨by have := h.hour; omega, h.minute, h.second, h.frac, h.zone.taken⟩

theorem Stamp.Exists.taken {stamp : Stamp} (h : stamp.Exists) : stamp.Taken [] := by
  cases stamp with
  | year c y => rfl
  | month c y m => exact ⟨h, rfl⟩
  | day c y m d => exact ⟨(isDate_le h).1, (isDate_le h).2, rfl⟩
  | time c y m d k => exact ⟨(isDate_le h.1).1, (isDate_le h.1).2, h.2.taken⟩

/-- Without an excess, what is taken is a time that exists, and nothing follows it. -/
theorem Stamp.Taken.exists_of_not_excess {stamp : Stamp} {rest : Bytes} (h : stamp.Taken rest)
    (hnot : ¬stamp.Excess rest) : stamp.Exists ∧ rest = [] := by
  cases stamp with
  | year c y => exact ⟨trivial, h⟩
  | month c y m => exact ⟨h.1, h.2⟩
  | day c y m d => exact ⟨not_not.1 hnot, h.2.2⟩
  | time c y m d k =>
    simp only [Excess, not_or, not_not] at hnot
    obtain ⟨hdate, hhour, hzone, hrest⟩ := hnot
    obtain ⟨-, -, htaken⟩ := h
    have hle := htaken.hour
    refine ⟨⟨hdate, ⟨by omega, htaken.minute, htaken.second, htaken.frac, ?_⟩⟩, hrest⟩
    have hz := htaken.zone
    cases hk : k.zone with
    | utc lower => trivial
    | offset minus hour minute =>
      rw [hk] at hz
      obtain ⟨hhour', hminute'⟩ : hour.value ≤ 24 ∧ minute.value ≤ 59 := hz
      have hne : hour.value ≠ 24 := fun h24 => hzone ⟨minus, hour, minute, hk, h24⟩
      exact ⟨by omega, hminute'⟩

theorem Zone.rest_eq_nil {z z' : Zone} {rest : Bytes} (htaken : z.Taken rest)
    (h : z.text ++ rest = z'.text) : rest = [] := by
  cases z with
  | utc lower => exact htaken
  | offset minus hour minute =>
    have hlen := congrArg List.length h
    have hsix : (Zone.offset minus hour minute).text.length = 6 := rfl
    have hle : z'.text.length ≤ 6 := by
      cases z' with
      | utc lower => exact (by decide : 1 ≤ 6)
      | offset minus' hour' minute' => exact Nat.le_refl 6
    rw [List.length_append, hsix] at hlen
    exact List.eq_nil_of_length_eq_zero (by omega)

/-- Behind the seconds a text is taken apart in one way only. -/
theorem rest_eq_nil_of_end {frac frac' : List (Fin 10)} {z z' : Zone} {rest : Bytes}
    (htaken : z.Taken rest)
    (h : fracText frac ++ (z.text ++ rest) = fracText frac' ++ (z'.text ++ [])) : rest = [] := by
  by_cases hfrac : frac = []
  · subst hfrac
    by_cases hfrac' : frac' = []
    · subst hfrac'
      rw [List.append_nil] at h
      exact Zone.rest_eq_nil htaken h
    · rw [fracText_cons hfrac'] at h
      exact absurd h Zone.text_ne
  · rw [fracText_cons hfrac] at h
    by_cases hfrac' : frac' = []
    · subst hfrac'
      exact absurd h.symm Zone.text_ne
    · rw [fracText_cons hfrac'] at h
      have hsame := digits_append_inj (z.head_not_digit rest) (z'.head_not_digit [])
        (List.cons_eq_cons.1 h).2
      exact Zone.rest_eq_nil htaken (hsame.2.trans (List.append_nil _))

/-- The characters up to the seconds. -/
def Clock.front (k : Clock) : Bytes :=
  (if k.lower then 116 else 84) :: (k.hour.text ++ 58 :: (k.minute.text ++ 58 :: k.second.text))

def Stamp.front (c y m d : TwoDigits) (k : Clock) : Bytes :=
  c.text ++ (y.text ++ 45 :: (m.text ++ 45 :: (d.text ++ k.front)))

theorem Stamp.time_text (c y m d : TwoDigits) (k : Clock) (rest : Bytes) :
    (Stamp.time c y m d k).text ++ rest =
      Stamp.front c y m d k ++ (fracText k.frac ++ (k.zone.text ++ rest)) := by
  simp [Stamp.text, Stamp.front, Clock.text, Clock.front]

/-- A text that is taken with something behind it is not the text of a time. -/
theorem Stamp.rest_eq_nil {c y m d : TwoDigits} {k : Clock} {rest : Bytes} {stamp : Stamp}
    (h : (Stamp.time c y m d k).text ++ rest = stamp.text) (htaken : k.zone.Taken rest) :
    rest = [] := by
  have hfront : ∀ c y m d k, (Stamp.front c y m d k).length = 19 := fun _ _ _ _ _ => rfl
  have hlen := congrArg List.length h
  rw [Stamp.time_text, List.length_append, hfront] at hlen
  cases stamp with
  | year c' y' =>
    have hshort : (Stamp.year c' y').text.length = 4 := rfl
    omega
  | month c' y' m' =>
    have hshort : (Stamp.month c' y' m').text.length = 7 := rfl
    omega
  | day c' y' m' d' =>
    have hshort : (Stamp.day c' y' m' d').text.length = 10 := rfl
    omega
  | time c' y' m' d' k' =>
    rw [← List.append_nil (Stamp.text (.time c' y' m' d' k')), Stamp.time_text,
      Stamp.time_text] at h
    exact rest_eq_nil_of_end htaken (List.append_inj_right h rfl)

/- The fields of a time that exists. -/

theorem Stamp.Exists.isDate {stamp : Stamp} (h : stamp.Exists) (hday : 1 ≤ stamp.civil.day_) :
    IsDate stamp.civil.year_ stamp.civil.month_ stamp.civil.day_ := by
  cases stamp with
  | year c y => exact absurd hday (Nat.not_succ_le_zero 0)
  | month c y m => exact absurd hday (Nat.not_succ_le_zero 0)
  | day c y m d => exact h
  | time c y m d k => exact h.1

theorem Stamp.Exists.hour_le {stamp : Stamp} (h : stamp.Exists) : stamp.civil.hour_ ≤ 23 := by
  cases stamp with
  | year c y => exact Nat.zero_le 23
  | month c y m => exact Nat.zero_le 23
  | day c y m d => exact Nat.zero_le 23
  | time c y m d k => exact h.2.hour

theorem Stamp.Exists.offset_lt {stamp : Stamp} (h : stamp.Exists) :
    stamp.civil.offset_.natAbs < 24*3600 := by
  cases stamp with
  | year c y => exact (by decide : 0 < 24*3600)
  | month c y m => exact (by decide : 0 < 24*3600)
  | day c y m d => exact (by decide : 0 < 24*3600)
  | time c y m d k =>
    have hz := h.2.zone
    change k.zone.seconds.natAbs < 24*3600
    cases hk : k.zone with
    | utc lower => exact (by decide : 0 < 24*3600)
    | offset minus hour minute =>
      rw [hk] at hz
      obtain ⟨hhour, hminute⟩ : hour.value ≤ 23 ∧ minute.value ≤ 59 := hz
      cases minus <;> simp only [Zone.seconds, Bool.false_eq_true, if_true, if_false] <;> omega

theorem Zone.offset_ge (minus : Bool) {hour : TwoDigits} (minute : TwoDigits)
    (h : hour.value = 24) : 24*3600 ≤ (Zone.offset minus hour minute).seconds.natAbs := by
  cases minus <;> simp only [Zone.seconds, Bool.false_eq_true, if_true, if_false] <;> omega

theorem not_excess_of_exists {stamp stamp' : Stamp} {rest : Bytes} (htaken : stamp.Taken rest)
    (htext : stamp.text ++ rest = stamp'.text) (hexists : stamp'.Exists)
    (hcivil : stamp.civil = stamp'.civil) : ¬stamp.Excess rest := by
  intro hexcess
  have hdate : 1 ≤ stamp.civil.day_ →
      IsDate stamp.civil.year_ stamp.civil.month_ stamp.civil.day_ := by
    rw [hcivil]
    exact hexists.isDate
  cases stamp with
  | year c y => exact hexcess
  | month c y m => exact hexcess
  | day c y m d => exact hexcess (hdate htaken.2.1.1)
  | time c y m d k =>
    obtain ⟨-, hday, hclock⟩ := htaken
    obtain hnot | hhour | ⟨minus, hour, minute, hzone, hhour⟩ | hrest := hexcess
    · exact hnot (hdate hday.1)
    · have hle := hexists.hour_le
      rw [← hcivil] at hle
      change k.hour.value ≤ 23 at hle
      omega
    · have hlt := hexists.offset_lt
      rw [← hcivil] at hlt
      change k.zone.seconds.natAbs < 24*3600 at hlt
      rw [hzone] at hlt
      exact absurd (Zone.offset_ge minus minute hhour) (Nat.not_le.2 hlt)
    · exact hrest (Stamp.rest_eq_nil htext hclock.zone)

/-- `parse` returns the fields of the times that exist, and nothing for other strings. -/
def ParsesLanguage (beyond : Nat → UInt8) (s : Bytes) : Prop :=
  ∀ date, parse beyond s = some date ↔ Denotes s date

/-- That is so for exactly the strings that are not taken for a day that the month has not, an hour
24, or a time that something follows. -/
theorem parsesLanguage_iff (beyond : Nat → UInt8) (s : Bytes) :
    ParsesLanguage beyond s ↔ ∀ (stamp : Stamp) (rest : Bytes), s = stamp.text ++ rest →
      stamp.Taken rest → ¬stamp.Excess rest := by
  constructor
  · intro h stamp rest hs htaken hexcess
    have hparse := (parse_eq_some_iff beyond s stamp.civil).2 ⟨stamp, rest, hs, htaken, rfl⟩
    obtain ⟨stamp', hs', hexists, hcivil⟩ := (h stamp.civil).1 hparse
    exact not_excess_of_exists htaken (hs.symm.trans hs') hexists hcivil hexcess
  · intro h date
    rw [parse_eq_some_iff]
    constructor
    · rintro ⟨stamp, rest, hs, htaken, rfl⟩
      obtain ⟨hexists, rfl⟩ := htaken.exists_of_not_excess (h stamp rest hs htaken)
      exact ⟨stamp, by rw [hs, List.append_nil], hexists, rfl⟩
    · rintro ⟨stamp, hs, hexists, rfl⟩
      exact ⟨stamp, [], by rw [hs, List.append_nil], hexists.taken, rfl⟩

theorem february_not_parsesLanguage : ¬∀ beyond s, ParsesLanguage beyond s := by
  intro h
  have hparse : parse (fun _ => 0) (lit "2014-02-30") =
      some { year_ := 2014, month_ := 2, day_ := 30 } := by decide
  obtain ⟨stamp, -, hexists, hcivil⟩ := (h _ _ _).1 hparse
  have hdate := hexists.isDate (by rw [← hcivil]; decide)
  rw [← hcivil] at hdate
  obtain ⟨-, hmonth | hmonth | ⟨-, hday | hday⟩⟩ := hdate
  · exact absurd hmonth.1 (by decide)
  · exact absurd hmonth.1 (by decide)
  · exact absurd hday (by decide)
  · exact absurd hday.2 (by decide)

end Stx.ISO8601
