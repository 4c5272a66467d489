import Stx.Json.JSONOutputStream
import Stx.Json.JSONInputStream.Tokens

/-! Reading the strings back that `escapeString` has written. The reader passes over `\u` escapes. -/
namespace Stx.Json
open JSONInputStream

/-- The characters that become a `\u` escape. -/
def unicodeEscaped (c : UInt8) : Bool := c < 32 ∧ c ∉ [8, 9, 10, 12, 13]

/-- A `\u` escape for the character adds nothing to the string, every other text the character. -/
theorem readStringLoop_escapeChar (c : UInt8) (json : JSONInputStream) :
    readStringLoop 0 (escapeChar c ++ json) =
      if unicodeEscaped c then readStringLoop 0 json
      else readStringLoop 0 json >>= fun p => pure (c :: p.1, p.2) := by
  by_cases h8 : c = 8
  · subst h8
    rfl
  by_cases h9 : c = 9
  · subst h9
    rfl
  by_cases h10 : c = 10
  · subst h10
    rfl
  by_cases h12 : c = 12
  · subst h12
    rfl
  by_cases h13 : c = 13
  · subst h13
    rfl
  by_cases hlow : c < 32
  · have hescaped : unicodeEscaped c = true := by simp [unicodeEscaped, hlow, h8, h9, h10, h12, h13]
    rw [if_pos hescaped]
    simp only [escapeChar, h8, h9, h10, h12, h13, hlow, if_true, if_false]
    exact readStringLoop_unicode _ _ _ _ json
  have hplain : ¬unicodeEscaped c = true := by simp [unicodeEscaped, hlow]
  rw [if_neg hplain]
  by_cases h34 : c = 34
  · subst h34
    rfl
  by_cases h92 : c = 92
  · subst h92
    rfl
  · have hzero : c ≠ 0 := by
      rintro rfl
      exact hlow (by decide)
    simp only [escapeChar, h8, h9, h10, h12, h13, hlow, h34, h92, if_false, List.singleton_append,
      readStringLoop_plain h92 h34 hzero]

theorem readStringLoop_escaped (s : Bytes) (rest : JSONInputStream) :
    readStringLoop 0 (s.flatMap escapeChar ++ 34 :: rest) =
      .ok (s.filter fun c => !unicodeEscaped c, rest) := by
  induction s with
  | nil => exact readStringLoop_quote rest
  | cons c s ih =>
    rw [List.flatMap_cons, List.append_assoc, readStringLoop_escapeChar, ih, List.filter_cons]
    cases unicodeEscaped c <;> rfl

/-- What comes back of a string. -/
theorem readString_escapeString (s : Bytes) (rest : JSONInputStream) :
    readString (34 :: (escapeString s ++ 34 :: rest)) =
      .ok ((s.take (2^31)).filter fun c => !unicodeEscaped c, rest) :=
  readStringLoop_escaped (s.take (2^31)) rest

def ReadBack (s : Bytes) : Prop := s.length ≤ 2^31 ∧ ∀ c ∈ s, unicodeEscaped c = false

theorem take_filter_eq_iff (s : Bytes) :
    ((s.take (2^31)).filter fun c => !unicodeEscaped c) = s ↔ ReadBack s := by
  constructor
  · intro h
    have hlen : s.length ≤ 2^31 := by
      have hle := List.length_filter_le (fun c => !unicodeEscaped c) (s.take (2^31))
      rw [h] at hle
      exact hle.trans (List.length_take_le _ _)
    rw [List.take_of_length_le hlen, List.filter_eq_self] at h
    exact ⟨hlen, fun c hc => by simpa using h c hc⟩
  · rintro ⟨hlen, hplain⟩
    rw [List.take_of_length_le hlen, List.filter_eq_self]
    exact fun c hc => by simpa using hplain c hc

theorem readString_escapeString_iff (s : Bytes) (rest : JSONInputStream) :
    readString (34 :: (escapeString s ++ 34 :: rest)) = .ok (s, rest) ↔
      s.length ≤ 2^31 ∧ ∀ c ∈ s, ¬(c < 32 ∧ c ∉ [8, 9, 10, 12, 13]) := by
  have hreadBack : ReadBack s ↔ s.length ≤ 2^31 ∧ ∀ c ∈ s, ¬(c < 32 ∧ c ∉ [8, 9, 10, 12, 13]) := by
    simp only [ReadBack, unicodeEscaped, decide_eq_false_iff_not]
  rw [readString_escapeString, ← hreadBack, ← take_filter_eq_iff]
  simp only [Result.ok.injEq, Prod.mk.injEq, and_true]

/-- The escape character of terminals is lost. -/
theorem escape_not_read_back :
    ¬∀ s, readString (34 :: (escapeString s ++ [34])) = .ok (s, []) := by
  intro h
  have hread := (readString_escapeString [27] []).symm.trans (h [27])
  revert hread
  decide

end Stx.Json
