import Stx.ISO8601.Accesses

/-! No parser looks behind the NUL of a string, but for the copy that `parseDay` makes when the string
ends in front of the day. -/
namespace Stx.ISO8601

section
variable {beyond : Nat → UInt8} {s : Bytes}

/-- Every index is the one of a character, or of the NUL. -/
def Inside (s : Bytes) {α : Type} (m : Access α) : Prop := m.All (· ≤ s.length)

theorem inside_pure {α : Type} (a : α) : Inside s (pure a : Access α) := Traced.all_pure a

theorem inside_failed (date : CivilTime) : Inside s (failed date) := inside_pure _

theorem inside_bind {α β : Type} {m : Access α} {f : α → Access β} :
    Inside s (m >>= f) ↔ Inside s m ∧ Inside s (f m.value) := Traced.all_bind

theorem inside_ite {α : Type} {c : Prop} [Decidable c] {m m' : Access α} :
    Inside s (if c then m else m') ↔ (c → Inside s m) ∧ (¬c → Inside s m') := Traced.all_ite

theorem inside_look {mem : Nat → UInt8} {i : Nat} : Inside s (look mem i) ↔ i ≤ s.length := by
  simp [Inside, look]

theorem inside_copy {mem : Nat → UInt8} {i n : Nat} :
    Inside s (copy mem i (n+1)) ↔ i+n ≤ s.length := by
  simp only [Inside, copy, Traced.all_mk, List.mem_range'_1]
  constructor
  · exact fun h => h (i+n) (by omega)
  · intro h j hj
    omega

/-- Digits end in front of the NUL, and the NUL ends the loop. -/
theorem inside_lookDigits {i : Nat} (h : i ≤ s.length) (n : Nat) :
    Inside s (lookDigits (c_str beyond s) i n) := by
  induction n generalizing i with
  | zero => exact inside_pure true
  | succ n ih =>
    rw [lookDigits, inside_bind, inside_look, inside_ite]
    refine ⟨h, fun hdigit => ih ?_, fun _ => inside_pure false⟩
    have hone := @chars_digits beyond s i 1 h (by simpa [chars, StringUtil.isDigitString] using hdigit)
    exact hone

theorem inside_lookFrac {mem : Nat → UInt8} {i n : Nat} (h : i+n ≤ s.length+1) :
    Inside s (lookFrac mem i n) := by
  induction n generalizing i with
  | zero => exact inside_pure 0
  | succ n ih =>
    rw [lookFrac, inside_bind, inside_look, inside_ite]
    refine ⟨by omega, fun _ => ?_, fun _ => inside_pure 0⟩
    exact Traced.all_map.2 (ih (by omega))

theorem inside_lookTwo {i : Nat} (h : i ≤ s.length) (copied : Bool) :
    Inside s (lookTwo (c_str beyond s) copied i) ↔ (copied = true → i+1 ≤ s.length) := by
  cases copied with
  | true =>
    simp only [lookTwo, if_true, forall_const]
    exact Traced.all_map.trans inside_copy
  | false =>
    simp only [lookTwo, Bool.false_eq_true, if_false, false_implies, iff_true]
    exact inside_lookDigits h 2

/-- What a part looks at, and when the next one is called. -/
theorem inside_lookPart_iff {room : Nat} {copied : Bool} {separators : List UInt8}
    {inRange : CivilTime → Int → Bool} {set : CivilTime → Nat → CivilTime}
    {next : Nat → CivilTime → Access (Bool × CivilTime)} {p : Nat} {date : CivilTime}
    (hp : p ≤ s.length) :
    Inside s (lookPart (c_str beyond s) s.length room copied separators inRange set next p date) ↔
      (p+1+room ≤ s.length → c_str beyond s p ∈ separators →
        (copied = true → p+2 ≤ s.length) ∧
          (StringUtil.isDigitString (chars (c_str beyond s) (p+1) 2) = true →
            ∀ value, Libc.stoi (chars (c_str beyond s) (p+1) 2) = some value →
              inRange date value = true → Inside s (next (p+3) (set date value.toNat)))) := by
  rw [lookPart, inside_ite, Nat.not_lt, inside_bind, inside_look, value_look, inside_ite, not_not]
  refine (and_iff_right fun _ => inside_failed date).trans (imp_congr_right fun hroom => ?_)
  refine (and_iff_right hp).trans
    ((and_iff_right fun _ => inside_failed date).trans (imp_congr_right fun hsep => ?_))
  rw [inside_bind, inside_lookTwo (by omega), value_lookTwo, inside_ite, not_not]
  refine and_congr Iff.rfl
    ((and_iff_right fun _ => inside_failed date).trans (imp_congr_right fun hdigits => ?_))
  have hend := chars_digits beyond (by omega : p+1 ≤ s.length) hdigits
  rw [inside_bind, inside_copy, value_copy]
  refine (and_iff_right (by omega)).trans ?_
  cases Libc.stoi (chars (c_str beyond s) (p+1) 2) with
  | none => simp [inside_failed]
  | some value =>
    rw [inside_ite]
    simp [inside_failed]

/-- A part whose digits are not copied to be looked at. -/
theorem inside_lookPart {separators : List UInt8}
    {inRange : CivilTime → Int → Bool} {set : CivilTime → Nat → CivilTime}
    {next : Nat → CivilTime → Access (Bool × CivilTime)}
    (hnext : ∀ p ≤ s.length, ∀ date, Inside s (next p date)) (p : Nat) (hp : p ≤ s.length)
    (date : CivilTime) :
    Inside s (lookPart (c_str beyond s) s.length 0 false separators inRange set next p date) := by
  refine (inside_lookPart_iff hp).2 fun hroom _ => ⟨by simp, fun hdigits value _ _ => ?_⟩
  have hend := chars_digits beyond (by omega : p+1 ≤ s.length) hdigits
  exact hnext (p+3) hend _

theorem inside_lookNumber {next : Int → Access (Bool × CivilTime)} {p : Nat} {date : CivilTime}
    (hp : p ≤ s.length) (hnext : ∀ value, Inside s (next value)) :
    Inside s (lookNumber (c_str beyond s) p date next) := by
  rw [lookNumber, inside_bind, value_lookDigits, inside_ite, not_not]
  refine ⟨inside_lookDigits hp 2, fun _ => inside_failed date, fun hdigits => ?_⟩
  have hend := chars_digits beyond hp hdigits
  rw [inside_bind, inside_copy, value_copy]
  refine ⟨by omega, ?_⟩
  cases Libc.stoi (chars (c_str beyond s) p 2) with
  | none => exact inside_failed date
  | some value => exact hnext value

theorem inside_lookTimeOffset (p : Nat) (hp : p ≤ s.length) (date : CivilTime) :
    Inside s (lookTimeOffset (c_str beyond s) s.length p date) := by
  rw [lookTimeOffset, inside_bind, inside_ite, inside_bind, inside_look, value_look, inside_ite,
    inside_ite]
  refine ⟨?_, fun _ => inside_pure _, fun _ => ⟨hp, fun _ => inside_failed date, fun _ =>
    ⟨fun _ => inside_failed date, fun hend => ?_⟩⟩⟩
  · rw [lookUtc, inside_ite]
    exact ⟨fun _ => Traced.all_map.2 (inside_look.2 hp), fun _ => inside_pure false⟩
  refine inside_lookNumber (by omega) fun hour => ?_
  rw [inside_ite, inside_ite]
  refine ⟨fun _ => inside_failed date, fun _ => ⟨fun _ => inside_failed date, fun hend' => ?_⟩⟩
  rw [inside_bind, inside_look, inside_ite]
  refine ⟨by omega, fun _ => inside_failed date, fun _ =>
    inside_lookNumber (by omega) fun minute => ?_⟩
  rw [inside_ite]
  exact ⟨fun _ => inside_pure _, fun _ => inside_failed date⟩

/-- The digits of a fraction end in front of the NUL too. -/
theorem fracLength_le {p : Nat} (hp : p+1 ≤ s.length) :
    p+1+((chars (c_str beyond s) (p+1) (s.length-p)).takeWhile Libc.isdigit).length ≤ s.length := by
  have hchars : chars (c_str beyond s) (p+1) (s.length-p) = s.drop (p+1) ++ [0] := by
    rw [← chars_end beyond hp, Nat.add_sub_add_right]
  have hnul : [(0 : UInt8)].takeWhile Libc.isdigit = [] := rfl
  have hle : ((s.drop (p+1)).takeWhile Libc.isdigit).length ≤ (s.drop (p+1)).length :=
    (List.takeWhile_sublist _).length_le
  rw [hchars, List.takeWhile_append, hnul, List.append_nil]
  have hlen := @List.length_drop _ (p+1) s
  split <;> omega

theorem inside_lookSecondFrac (p : Nat) (hp : p ≤ s.length) (date : CivilTime) :
    Inside s (lookSecondFrac (c_str beyond s) s.length p date) := by
  rw [lookSecondFrac, inside_ite, Nat.not_lt, inside_bind, inside_look, inside_ite, inside_bind,
    value_lookFrac, inside_ite]
  refine ⟨fun _ => inside_failed date, fun hend => ⟨hp, fun _ => inside_failed date, fun _ =>
    ⟨inside_lookFrac (by omega), fun _ => inside_failed date, fun hlen => ?_⟩⟩⟩
  have hle := @fracLength_le beyond s p hend
  rw [inside_bind, value_copy]
  refine ⟨?_, ?_⟩
  · obtain ⟨n, hn⟩ := Nat.exists_eq_add_of_le' (Nat.not_lt.1 (not_or.1 hlen).1)
    rw [hn] at hle ⊢
    exact inside_copy.2 (by omega)
  · cases Libc.stoul (chars (c_str beyond s) (p+1)
        ((chars (c_str beyond s) (p+1) (s.length-p)).takeWhile Libc.isdigit).length) with
    | none => exact inside_failed date
    | some millis => exact inside_lookTimeOffset _ hle _

theorem inside_lookSecondEnd (p : Nat) (hp : p ≤ s.length) (date : CivilTime) :
    Inside s (lookSecondEnd (c_str beyond s) s.length p date) := by
  rw [lookSecondEnd, inside_bind, inside_ite]
  exact ⟨inside_lookSecondFrac p hp date, fun _ => inside_pure _, fun _ =>
    inside_lookTimeOffset p hp _⟩

theorem inside_lookHour (p : Nat) (hp : p ≤ s.length) (date : CivilTime) :
    Inside s (lookHour (c_str beyond s) s.length p date) :=
  inside_lookPart (inside_lookPart (inside_lookPart inside_lookSecondEnd)) p hp date

/-- `parseDay` copies two characters whether they are there or not. -/
theorem inside_lookDay_iff {p : Nat} (hp : p < s.length) (date : CivilTime) :
    Inside s (lookDay (c_str beyond s) s.length p date) ↔
      (c_str beyond s p = 45 → p+2 ≤ s.length) := by
  rw [lookDay, inside_lookPart_iff (Nat.le_of_lt hp)]
  constructor
  · exact fun h hsep => (h hp (List.mem_singleton.2 hsep)).1 rfl
  · intro h _ hsep
    refine ⟨fun _ => h (List.mem_singleton.1 hsep), fun hdigits value _ _ => ?_⟩
    have hend := chars_digits beyond hp hdigits
    rw [inside_ite]
    exact ⟨fun _ => inside_lookHour _ hend _, fun _ => inside_pure _⟩

/-- The month is the last part that is there as a whole when it is copied. -/
theorem inside_lookMonth_iff {p : Nat} (hp : p ≤ s.length) (date : CivilTime) :
    Inside s (lookMonth (c_str beyond s) s.length p date) ↔
      ∀ m : TwoDigits, 1 ≤ m.value ∧ m.value ≤ 12 → s.drop p ≠ 45 :: (m.text ++ [45]) := by
  rw [lookMonth, inside_lookPart_iff hp]
  constructor
  · intro h m hm hdrop
    have hrest : s.drop (p+1) = m.text ++ [45] := drop_add (a := [45]) hdrop rfl
    have hthree : s.drop (p+3) = [45] := drop_add (p := p+1) hrest rfl
    have hlen := congrArg List.length hdrop
    have htwo : m.text.length = 2 := rfl
    rw [List.length_drop, List.length_cons, List.length_append, htwo] at hlen
    simp only [List.length_singleton] at hlen
    have hday := (h (by omega) (List.mem_singleton.2 (c_str_of_drop beyond hdrop))).2
      ((chars_two_iff beyond (by omega)).2 ⟨m, _, hrest⟩) m.value
      (by rw [chars_two beyond hrest, stoi_text]) (by simpa using by omega)
    rw [inside_ite] at hday
    have hdash := (inside_lookDay_iff (by omega) _).1 (hday.1 (by omega))
      (c_str_of_drop beyond hthree)
    omega
  · intro h hroom hsep
    refine ⟨fun _ => by omega, fun hdigits value hvalue hrange => ?_⟩
    rw [inside_ite]
    refine ⟨fun hlt => (inside_lookDay_iff hlt _).2 fun hdash => ?_, fun _ => inside_pure _⟩
    by_contra hshort
    obtain ⟨m, u, hu⟩ := (chars_two_iff beyond (by omega)).1 hdigits
    rw [chars_two beyond hu, stoi_text] at hvalue
    cases hvalue
    have hthree : s.drop (p+3) = u := drop_add (p := p+1) hu rfl
    have hcons := drop_eq_cons beyond (Nat.le_of_lt hlt) (by rw [hdash]; decide)
    rw [hthree, hdash, List.drop_eq_nil_of_le (by omega)] at hcons
    have hfirst := drop_eq_cons beyond hp (by rw [List.mem_singleton.1 hsep]; decide)
    rw [hu, hcons, List.mem_singleton.1 hsep] at hfirst
    have hin := of_decide_eq_true hrange
    exact h m (by omega) hfirst

end

/-- Only a month with a dash behind it, and nothing more, has the parsers look behind the NUL. -/
theorem inside_lookParse_iff (beyond : Nat → UInt8) (s : Bytes) :
    (∀ i ∈ (lookParse beyond s).trace, i ≤ s.length) ↔
      ¬∃ c y m : TwoDigits, (1 ≤ m.value ∧ m.value ≤ 12) ∧
        s = (Stamp.month c y m).text ++ [45] := by
  change Inside s (lookParse beyond s) ↔ _
  rw [lookParse, lookYear, inside_ite, Nat.not_lt, inside_bind, Traced.value_map, value_copy,
    inside_ite, not_not, inside_bind, value_copy]
  constructor
  · rintro h ⟨c, y, m, hm, hs⟩
    have hs' : s = c.text ++ (y.text ++ 45 :: (m.text ++ [45])) := by
      rw [hs, Stamp.text]
      simp
    obtain ⟨hlen, hdigits⟩ := (chars_four_iff beyond).2 ⟨c, y, _, hs'⟩
    have hdrop : s.drop 4 = 45 :: (m.text ++ [45]) := by rw [hs']; rfl
    have height : s.length = 8 := by rw [hs']; rfl
    have htext : chars (c_str beyond s) 0 4 = c.text ++ y.text := by
      rw [chars_eq_take beyond (by omega), hs']
      rfl
    have hyear := ((h.2 (Nat.not_lt.1 hlen)).2.2 hdigits).2
    rw [htext, stoi_year] at hyear
    simp only [inside_ite] at hyear
    exact (inside_lookMonth_iff (by omega) _).1 (hyear.1 (by omega)) m hm hdrop
  · intro h
    refine ⟨fun _ => inside_failed _, fun hlen => ⟨Traced.all_map.2 (inside_copy.2 (by omega)),
      fun _ => inside_failed _, fun hdigits => ⟨inside_copy.2 (by omega), ?_⟩⟩⟩
    cases Libc.stoi (chars (c_str beyond s) 0 4) with
    | none => exact inside_failed _
    | some value =>
      simp only [inside_ite]
      refine ⟨fun hlt => (inside_lookMonth_iff (by omega) _).2 fun m hm hdrop => ?_,
        fun _ => inside_pure _⟩
      obtain ⟨c, y, u, hu⟩ := (chars_four_iff beyond).1 ⟨Nat.not_lt.2 hlen, hdigits⟩
      have hrest : s.drop 4 = u := by rw [hu]; rfl
      refine h ⟨c, y, m, hm, ?_⟩
      rw [hu, ← hrest, Stamp.text]
      simpa using hdrop

/-- The copy of the two characters behind `2014-11-` takes the NUL and what is behind it. -/
theorem november_not_inside :
    ¬∀ beyond s, ∀ i ∈ (lookParse beyond s).trace, i ≤ s.length := by
  intro h
  exact absurd (h (fun _ => 0) (lit "2014-11-") 9 (by decide)) (by decide)

end Stx.ISO8601
