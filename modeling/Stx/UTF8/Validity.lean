import Stx.UTF8

/-! `UTF8::isValidUTF8` against the decoder that it is to answer for. -/
namespace Stx.UTF8

/-- The decoder, called again and again, reaches the end of the string without raising. -/
inductive Decodes : Bytes → Prop where
  | nil : Decodes []
  | step {s rest : Bytes} {c : UInt32} (h : nextCodepoint s = .ok (c, rest))
      (hrest : Decodes rest) : Decodes s

/-- The validator returns, and it returns true for the strings that can be decoded. -/
def Agrees (s : Bytes) : Prop := ∃ b, isValidUTF8 s = .ok b ∧ (b = true ↔ Decodes s)

/-- Bytes of ASCII and complete sequences, one behind the other. -/
inductive Whole : Bytes → Prop where
  | nil : Whole []
  | ascii {b : UInt8} {cur : Bytes} (h : b < 0b10000000) (hcur : Whole cur) : Whole (b :: cur)
  | group {b : UInt8} {cur : Bytes} {k : Nat} (h : sequenceTail b = some k)
      (hk : k ≤ cur.length) (hcur : Whole (cur.drop k)) : Whole (b :: cur)

/-- Complete sequences of more than one byte up to the end, to a sequence that is cut off, or to a
byte of ASCII with a whole string behind it. -/
inductive Judged : Bytes → Prop where
  | nil : Judged []
  | ascii {b : UInt8} {cur : Bytes} (h : b < 0b10000000) (hcur : Whole cur) : Judged (b :: cur)
  | cut {b : UInt8} {cur : Bytes} {k : Nat} (h : sequenceTail b = some k)
      (hk : cur.length < k) : Judged (b :: cur)
  | group {b : UInt8} {cur : Bytes} {k : Nat} (h : sequenceTail b = some k)
      (hk : k ≤ cur.length) (hcur : Judged (cur.drop k)) : Judged (b :: cur)

theorem tails_snd (shifts : List UInt32) (chr : UInt32) (cur : Bytes) :
    (tails shifts chr cur).2 = cur.drop shifts.length := by
  induction shifts generalizing chr cur with
  | nil => cases cur <;> rfl
  | cons shift shifts ih =>
    cases cur with
    | nil => rfl
    | cons b cur => exact ih _ cur

theorem sequence_eq (mask : UInt8) (lead : UInt32) (shifts : List UInt32) (b : UInt8)
    (cur : Bytes) :
    ∃ c, sequence mask lead shifts b cur
      = if cur.length < shifts.length then .RAISE .encodingError "invalid UTF8 encoding"
        else .ok (c, cur.drop shifts.length) := by
  refine ⟨(tails shifts ((b &&& mask).toUInt32 <<< lead) cur).1, ?_⟩
  rw [sequence, ← tails_snd shifts ((b &&& mask).toUInt32 <<< lead) cur]

/-- The bits of a sequence are set in a byte that is not of ASCII. -/
theorem not_lt_of_sequenceTail {b : UInt8} {k : Nat} (h : sequenceTail b = some k) :
    ¬ b < 0b10000000 := by
  have le_of {m n : UInt8} (hm : 0b10000000 ≤ m) (hb : b &&& n = m) : ¬ b < 0b10000000 := by
    have hle := @UInt8.and_le_left b n
    rw [hb] at hle
    exact UInt8.not_lt.2 (UInt8.le_trans hm hle)
  unfold sequenceTail at h
  split_ifs at h with h1 h2 h3 h4 h5
  · exact le_of (by decide) h1
  · exact le_of (by decide) h2
  · exact le_of (by decide) h3
  · exact le_of (by decide) h4
  · exact le_of (by decide) h5

/-- The decoder goes by the same classes of first bytes as the validator. -/
theorem nextCodepoint_of_some {b : UInt8} {k : Nat} (h : sequenceTail b = some k) (cur : Bytes) :
    ∃ c, nextCodepoint (b :: cur)
      = if cur.length < k then .RAISE .encodingError "invalid UTF8 encoding"
        else .ok (c, cur.drop k) := by
  rw [nextCodepoint, if_neg (not_lt_of_sequenceTail h)]
  unfold sequenceTail at h
  split_ifs at h with h1 h2 h3 h4 h5
  · cases h
    rw [if_pos h1]
    exact sequence_eq _ _ [0] b cur
  · cases h
    rw [if_neg h1, if_pos h2]
    exact sequence_eq _ _ [6, 0] b cur
  · cases h
    rw [if_neg h1, if_neg h2, if_pos h3]
    exact sequence_eq _ _ [12, 6, 0] b cur
  · cases h
    rw [if_neg h1, if_neg h2, if_neg h3, if_pos h4]
    exact sequence_eq _ _ [18, 12, 6, 0] b cur
  · cases h
    rw [if_neg h1, if_neg h2, if_neg h3, if_neg h4, if_pos h5]
    exact sequence_eq _ _ [24, 18, 12, 6, 0] b cur

theorem nextCodepoint_of_none {b : UInt8} (hb : ¬ b < 0b10000000) (h : sequenceTail b = none)
    (cur : Bytes) :
    nextCodepoint (b :: cur) = .RAISE .encodingError "invalid UTF8 encoding" := by
  unfold sequenceTail at h
  split_ifs at h with h1 h2 h3 h4 h5
  rw [nextCodepoint, if_neg hb, if_neg h1, if_neg h2, if_neg h3, if_neg h4, if_neg h5]

theorem nextCodepoint_ascii {b : UInt8} (hb : b < 0b10000000) (cur : Bytes) :
    nextCodepoint (b :: cur) = .ok (b.toUInt32, cur) := by
  rw [nextCodepoint, if_pos hb]

/-- What is left is decoded where the first codepoint is. -/
theorem decodes_iff_of_ok {s rest : Bytes} {c : UInt32} (h : nextCodepoint s = .ok (c, rest))
    (hs : s ≠ []) : Decodes s ↔ Decodes rest := by
  refine ⟨fun hd => ?_, Decodes.step h⟩
  cases hd with
  | nil => exact absurd rfl hs
  | step h' hrest =>
    rw [h] at h'
    cases h'
    exact hrest

theorem not_decodes_of_raise {s : Bytes} {type : ErrorType} {message : String}
    (h : nextCodepoint s = .RAISE type message) : ¬ Decodes s := by
  intro hd
  cases hd with
  | nil => cases h
  | step h' _ => cases h.symm.trans h'

/-- Every string is taken apart as both loops do it, from one first byte to the next. -/
theorem firstByte_induction {P : Bytes → Prop} (nil : P [])
    (ascii : ∀ b cur, b < 0b10000000 → P cur → P (b :: cur))
    (stray : ∀ b cur, ¬ b < 0b10000000 → sequenceTail b = none → P (b :: cur))
    (cut : ∀ b cur k, sequenceTail b = some k → cur.length < k → P (b :: cur))
    (group : ∀ b cur k, sequenceTail b = some k → k ≤ cur.length → P (cur.drop k) → P (b :: cur))
    (s : Bytes) : P s := by
  induction hn : s.length using Nat.strong_induction_on generalizing s with
  | _ n ih =>
    subst hn
    cases s with
    | nil => exact nil
    | cons b cur =>
      by_cases hb : b < 0b10000000
      · exact ascii b cur hb (ih cur.length (Nat.lt_succ_self _) cur rfl)
      · cases h : sequenceTail b with
        | none => exact stray b cur hb h
        | some k =>
          by_cases hk : cur.length < k
          · exact cut b cur k h hk
          · refine group b cur k h (Nat.not_lt.1 hk) (ih _ ?_ _ rfl)
            rw [List.length_drop, List.length_cons]
            omega

theorem decodes_iff_whole (s : Bytes) : Decodes s ↔ Whole s := by
  induction s using firstByte_induction with
  | nil => exact iff_of_true .nil .nil
  | ascii b cur hb ih =>
    rw [decodes_iff_of_ok (nextCodepoint_ascii hb cur) (List.cons_ne_nil b cur), ih]
    refine ⟨Whole.ascii hb, fun h => ?_⟩
    cases h with
    | ascii _ hcur => exact hcur
    | group h _ _ => exact absurd hb (not_lt_of_sequenceTail h)
  | stray b cur hb h =>
    refine iff_of_false (not_decodes_of_raise (nextCodepoint_of_none hb h cur)) fun hw => ?_
    cases hw with
    | ascii hlt _ => exact hb hlt
    | group h' _ _ => cases h.symm.trans h'
  | cut b cur k h hk =>
    obtain ⟨c, hc⟩ := nextCodepoint_of_some h cur
    rw [if_pos hk] at hc
    refine iff_of_false (not_decodes_of_raise hc) fun hw => ?_
    cases hw with
    | ascii hlt _ => exact not_lt_of_sequenceTail h hlt
    | group h' hk' _ =>
      cases h.symm.trans h'
      omega
  | group b cur k h hk ih =>
    obtain ⟨c, hc⟩ := nextCodepoint_of_some h cur
    rw [if_neg (Nat.not_lt.2 hk)] at hc
    rw [decodes_iff_of_ok hc (List.cons_ne_nil b cur), ih]
    refine ⟨Whole.group h hk, fun hw => ?_⟩
    cases hw with
    | ascii hlt _ => exact absurd hlt (not_lt_of_sequenceTail h)
    | group h' _ hcur =>
      cases h.symm.trans h'
      exact hcur

theorem validLoop_skip (k : Nat) (cur : Bytes) : validLoop k cur = validLoop 0 (cur.drop k) := by
  induction k generalizing cur with
  | zero => rw [List.drop_zero]
  | succ k ih =>
    cases cur with
    | nil => rfl
    | cons b cur => exact ih cur

theorem isValidUTF8_ascii {b : UInt8} (hb : b < 0b10000000) (cur : Bytes) :
    isValidUTF8 (b :: cur) = .ok true := by
  rw [isValidUTF8, validLoop, if_pos hb]

theorem isValidUTF8_stray {b : UInt8} (hb : ¬ b < 0b10000000) (h : sequenceTail b = none)
    (cur : Bytes) : isValidUTF8 (b :: cur) = .diverge := by
  rw [isValidUTF8, validLoop, if_neg hb, h]

theorem isValidUTF8_cut {b : UInt8} {k : Nat} {cur : Bytes} (h : sequenceTail b = some k)
    (hk : cur.length < k) : isValidUTF8 (b :: cur) = .ok false := by
  rw [isValidUTF8, validLoop, if_neg (not_lt_of_sequenceTail h), h]
  exact if_pos hk

theorem isValidUTF8_group {b : UInt8} {k : Nat} {cur : Bytes} (h : sequenceTail b = some k)
    (hk : k ≤ cur.length) : isValidUTF8 (b :: cur) = isValidUTF8 (cur.drop k) := by
  rw [isValidUTF8, validLoop, if_neg (not_lt_of_sequenceTail h), h, isValidUTF8, ← validLoop_skip]
  exact if_neg (Nat.not_lt.2 hk)

theorem agrees_of_ok {s : Bytes} {b : Bool} (h : isValidUTF8 s = .ok b) :
    Agrees s ↔ (b = true ↔ Decodes s) := by
  refine ⟨fun ⟨b', hb', hd⟩ => ?_, fun hd => ⟨b, h, hd⟩⟩
  rw [h] at hb'
  cases hb'
  exact hd

theorem agrees_group {b : UInt8} {k : Nat} {cur : Bytes} (h : sequenceTail b = some k)
    (hk : k ≤ cur.length) : Agrees (b :: cur) ↔ Agrees (cur.drop k) := by
  obtain ⟨c, hc⟩ := nextCodepoint_of_some h cur
  rw [if_neg (Nat.not_lt.2 hk)] at hc
  unfold Agrees
  rw [isValidUTF8_group h hk, decodes_iff_of_ok hc (List.cons_ne_nil b cur)]

/-- The validator returns true at the first byte of ASCII, and stays at a byte that begins no
sequence. -/
theorem validator_agrees_iff (s : Bytes) : Agrees s ↔ Judged s := by
  induction s using firstByte_induction with
  | nil => exact iff_of_true ⟨true, rfl, iff_of_true rfl .nil⟩ .nil
  | ascii b cur hb _ =>
    rw [agrees_of_ok (isValidUTF8_ascii hb cur),
      decodes_iff_of_ok (nextCodepoint_ascii hb cur) (List.cons_ne_nil b cur), decodes_iff_whole]
    refine ⟨fun h => Judged.ascii hb (h.1 rfl), fun h => iff_of_true rfl ?_⟩
    cases h with
    | ascii _ hcur => exact hcur
    | cut h _ => exact absurd hb (not_lt_of_sequenceTail h)
    | group h _ _ => exact absurd hb (not_lt_of_sequenceTail h)
  | stray b cur hb h =>
    refine iff_of_false (fun ⟨r, hr, _⟩ => ?_) fun hj => ?_
    · rw [isValidUTF8_stray hb h] at hr
      cases hr
    · cases hj with
      | ascii hlt _ => exact hb hlt
      | cut h' _ => cases h.symm.trans h'
      | group h' _ _ => cases h.symm.trans h'
  | cut b cur k h hk =>
    rw [agrees_of_ok (isValidUTF8_cut h hk)]
    refine iff_of_true (iff_of_false Bool.false_ne_true fun hd => ?_) (Judged.cut h hk)
    cases (decodes_iff_whole _).1 hd with
    | ascii hlt _ => exact not_lt_of_sequenceTail h hlt
    | group h' hk' _ =>
      cases h.symm.trans h'
      omega
  | group b cur k h hk ih =>
    rw [agrees_group h hk, ih]
    refine ⟨Judged.group h hk, fun hj => ?_⟩
    cases hj with
    | ascii hlt _ => exact absurd hlt (not_lt_of_sequenceTail h)
    | cut h' hk' =>
      cases h.symm.trans h'
      omega
    | group h' _ hcur =>
      cases h.symm.trans h'
      exact hcur

/-- A stray byte behind one of ASCII is accepted, and in front it is never passed. -/
theorem stray_not_agrees : ¬ Agrees [0x61, 0x80] ∧ ¬ Agrees [0x80] := by
  constructor
  · rw [agrees_of_ok rfl,
      decodes_iff_of_ok (nextCodepoint_ascii (by decide) _) (List.cons_ne_nil _ _)]
    intro h
    exact not_decodes_of_raise (nextCodepoint_of_none (by decide) rfl []) (h.1 rfl)
  · rintro ⟨b, hb, -⟩
    rw [isValidUTF8_stray (by decide) rfl] at hb
    cases hb

end Stx.UTF8
