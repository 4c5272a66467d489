import Stx.Human.DataType

/-! Which texts `isNumber` takes, and the types that follow from it. -/
namespace Stx

namespace StringUtil

/-- An optional minus and digits, at least one. -/
def IsInteger (str : Bytes) : Prop :=
  ∃ sign digits, str = sign ++ digits ∧ sign ∈ [[], [45]] ∧ digits ≠ [] ∧
    ∀ c ∈ digits, Libc.isdigit c = true

/-- An integer, a point or a comma, and digits, at least one. -/
def IsFraction (str : Bytes) : Prop :=
  ∃ integer separator digits, str = integer ++ separator :: digits ∧ IsInteger integer ∧
    separator ∈ lit ".," ∧ digits ≠ [] ∧ ∀ c ∈ digits, Libc.isdigit c = true

theorem digitLoop_eq (str : Bytes) :
    digitLoop str = if str.all Libc.isdigit then some [] else none := by
  induction str with
  | nil => rfl
  | cons c str ih =>
    rw [digitLoop, ih, List.all_cons]
    by_cases hc : Libc.isdigit c = true
    · rw [if_pos hc, hc, Bool.true_and]
    · rw [if_neg hc, Bool.eq_false_iff.2 hc, Bool.false_and, if_neg Bool.false_ne_true]

theorem isNumber_eq (str : Bytes) :
    isNumber str = true ↔
      ∀ c ∈ (if str.head? = some 45 then str.tail else str), Libc.isdigit c = true := by
  unfold isNumber
  simp only
  generalize (if str.head? = some 45 then str.tail else str) = cur
  rw [digitLoop_eq, ← List.all_eq_true]
  by_cases hcur : cur.all Libc.isdigit = true
  · rw [if_pos hcur]
    exact iff_of_true rfl hcur
  · rw [if_neg hcur]
    exact iff_of_false (by decide) hcur

/-- No separator is ever looked for, and no digit is asked for. -/
theorem isNumber_iff (str : Bytes) :
    isNumber str = true ↔
      ∃ sign digits, str = sign ++ digits ∧ sign ∈ [[], [45]] ∧
        ∀ c ∈ digits, Libc.isdigit c = true := by
  rw [isNumber_eq]
  constructor
  · intro h
    by_cases hminus : str.head? = some 45
    · rw [if_pos hminus] at h
      obtain ⟨rest, rfl⟩ := List.head?_eq_some_iff.1 hminus
      exact ⟨[45], rest, rfl, by simp, h⟩
    · rw [if_neg hminus] at h
      exact ⟨[], str, rfl, by simp, h⟩
  · rintro ⟨sign, digits, rfl, hsign, hdigits⟩
    simp only [List.mem_cons, List.not_mem_nil, or_false] at hsign
    obtain rfl | rfl := hsign
    · have hminus : ([] ++ digits).head? ≠ some 45 := fun h =>
        absurd (hdigits 45 (List.mem_of_mem_head? h)) (by decide)
      rwa [if_neg hminus]
    · exact hdigits

theorem IsInteger.isNumber {str : Bytes} (h : IsInteger str) : isNumber str = true := by
  obtain ⟨sign, digits, heq, hsign, -, hdigits⟩ := h
  exact (isNumber_iff str).2 ⟨sign, digits, heq, hsign, hdigits⟩

/-- What is taken is an integer but for two strings. -/
theorem isInteger_of_isNumber {str : Bytes} (h : isNumber str = true) (hempty : str ≠ [])
    (hminus : str ≠ lit "-") : IsInteger str := by
  obtain ⟨sign, digits, rfl, hsign, hdigits⟩ := (isNumber_iff str).1 h
  refine ⟨sign, digits, rfl, hsign, ?_, hdigits⟩
  rintro rfl
  simp only [List.mem_cons, List.not_mem_nil, or_false] at hsign
  obtain rfl | rfl := hsign
  · exact hempty rfl
  · exact hminus rfl

theorem not_mem_of_isNumber {str : Bytes} (h : isNumber str = true) {c : UInt8}
    (hc : c ∈ lit ".,") : c ∉ str := by
  obtain ⟨sign, digits, rfl, hsign, hdigits⟩ := (isNumber_iff str).1 h
  have hdigit : ∀ c ∈ lit ".,", Libc.isdigit c = false ∧ c ≠ 45 :=
    List.forall_mem_cons.2 ⟨by decide, List.forall_mem_singleton.2 (by decide)⟩
  obtain ⟨hdigit, hne⟩ := hdigit c hc
  rw [List.mem_append, not_or]
  constructor
  · simp only [List.mem_cons, List.not_mem_nil, or_false] at hsign
    obtain rfl | rfl := hsign
    · exact List.not_mem_nil
    · simpa using hne
  · intro hmem
    rw [hdigits c hmem] at hdigit
    cases hdigit

end StringUtil

namespace Human
open StringUtil

/-- A fraction is a type that no value has. -/
theorem detectDataType_ne_float (beyond : Nat → UInt8) (strptime : Bytes → Option Tm)
    (now : UInt64) (value : Bytes) : detectDataType beyond strptime now value ≠ .ok .float := by
  intro h
  rw [detectDataType] at h
  split at h
  · next hnumber =>
    have hincludes : ∀ c ∈ lit ".,", includes value [c] = false := by
      intro c hc
      obtain ⟨-, hnone⟩ | ⟨a, b, rfl, -⟩ := indexOf_singleton value c
      · simp [includes, find, hnone]
      · exact absurd (by simp) (not_mem_of_isNumber hnumber hc)
    have hpoint : includes value (lit ".") = false := hincludes 46 (by decide)
    have hcomma : includes value (lit ",") = false := hincludes 44 (by decide)
    rw [hpoint, hcomma, if_neg (by decide)] at h
    split at h <;> cases h
  · split at h
    · cases h
    · split at h
      · cases h
      · obtain ⟨time, -, h⟩ := Result.bind_eq_ok h
        split at h
        · cases h
        · obtain ⟨valid, -, h⟩ := Result.bind_eq_ok h
          cases valid <;> cases h

/-- `isNumber` takes the integers and the fractions, and the types follow. -/
def NumberDetected (beyond : Nat → UInt8) (strptime : Bytes → Option Tm) (now : UInt64)
    (s : Bytes) : Prop :=
  (isNumber s = true ↔ IsInteger s ∨ IsFraction s) ∧
    (IsFraction s → detectDataType beyond strptime now s = .ok .float) ∧
    (s = [] → detectDataType beyond strptime now s = .ok .nullOrEmpty)

theorem numberDetected_iff (beyond : Nat → UInt8) (strptime : Bytes → Option Tm)
    (now : UInt64) (s : Bytes) :
    NumberDetected beyond strptime now s ↔ s ≠ [] ∧ s ≠ lit "-" ∧ ¬IsFraction s := by
  constructor
  · rintro ⟨hnumber, hfraction, hempty⟩
    have hnot : ¬IsFraction s := fun h =>
      detectDataType_ne_float beyond strptime now s (hfraction h)
    refine ⟨?_, ?_, hnot⟩
    · rintro rfl
      cases hempty rfl
    · rintro rfl
      obtain ⟨sign, digits, heq, -, hne, hdigits⟩ := (hnumber.1 (by decide)).resolve_right hnot
      cases hlast : digits.getLast? with
      | none => exact hne (List.getLast?_eq_none_iff.1 hlast)
      | some c =>
        have hmem := List.mem_of_getLast? hlast
        have hminus : c ∈ lit "-" := heq ▸ List.mem_append_right sign hmem
        rw [List.mem_singleton.1 hminus] at hmem
        exact absurd (hdigits _ hmem) (by decide)
  · rintro ⟨hempty, hminus, hnot⟩
    refine ⟨⟨fun h => .inl (isInteger_of_isNumber h hempty hminus), ?_⟩,
      fun h => absurd h hnot, fun h => absurd h hempty⟩
    rintro (h | h)
    · exact h.isNumber
    · exact absurd h hnot

theorem fraction_not_numberDetected :
    ¬∀ beyond strptime now s, NumberDetected beyond strptime now s := by
  intro h
  obtain ⟨-, hfraction, -⟩ := h (fun _ => 0) (fun _ => none) 0 (lit "1.5")
  have hfloat := hfraction ⟨[49], 46, [53], rfl,
    ⟨[], [49], rfl, by decide, by decide, List.all_eq_true.1 rfl⟩, by decide, by decide,
    List.all_eq_true.1 rfl⟩
  cases hfloat

end Human
end Stx
