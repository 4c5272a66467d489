import Stx.Base
import Mathlib.Data.UInt

/-! The byte sequences of `UTF8.{h,cc}`: the decoder, the encoder and the validator. -/
namespace Stx.UTF8

/-- Six bits of a byte behind the first one, at their place in the codepoint. -/
def tailBits (shift : UInt32) (b : UInt8) : UInt32 := (b &&& 0b00111111).toUInt32 <<< shift

def tails : List UInt32 → UInt32 → Bytes → UInt32 × Bytes
  | shift :: shifts, chr, b :: cur => tails shifts (chr ||| tailBits shift b) cur
  | _, chr, cur => (chr, cur)

/-- A sequence with the mask and the shift of its first byte and the shifts of the others. -/
def sequence (mask : UInt8) (lead : UInt32) (shifts : List UInt32) (b : UInt8) (cur : Bytes) :
    Result (UInt32 × Bytes) :=
  if cur.length < shifts.length then .RAISE .encodingError "invalid UTF8 encoding"
  else .ok (tails shifts ((b &&& mask).toUInt32 <<< lead) cur)

/-- The codepoint in front and the bytes behind it, and 0 where nothing is left. The sequence of
five bytes shifts its first one by 14. -/
def nextCodepoint : Bytes → Result (UInt32 × Bytes)
  | [] => .ok (0, [])
  | b :: cur =>
    if b < 0b10000000 then .ok (b.toUInt32, cur)
    else if b &&& 0b11100000 = 0b11000000 then sequence 0b00011111 6 [0] b cur
    else if b &&& 0b11110000 = 0b11100000 then sequence 0b00001111 12 [6, 0] b cur
    else if b &&& 0b11111000 = 0b11110000 then sequence 0b00000111 18 [12, 6, 0] b cur
    else if b &&& 0b11111100 = 0b11111000 then sequence 0b00000011 14 [18, 12, 6, 0] b cur
    else if b &&& 0b11111110 = 0b11111100 then sequence 0b00000001 30 [24, 18, 12, 6, 0] b cur
    else .RAISE .encodingError "invalid UTF8 encoding"

/-- How many bytes of a sequence are behind its first one. -/
def sequenceTail (b : UInt8) : Option Nat :=
  if b &&& 0b11100000 = 0b11000000 then some 1
  else if b &&& 0b11110000 = 0b11100000 then some 2
  else if b &&& 0b11111000 = 0b11110000 then some 3
  else if b &&& 0b11111100 = 0b11111000 then some 4
  else if b &&& 0b11111110 = 0b11111100 then some 5
  else none

/-- The first argument counts the bytes of a sequence that are still to be passed. A byte that
begins no sequence is looked at again and again, and one of ASCII is the end. -/
def validLoop : Nat → Bytes → Result Bool
  | _, [] => .ok true
  | skip+1, _ :: cur => validLoop skip cur
  | 0, b :: cur =>
    if b < 0b10000000 then .ok true
    else
      match sequenceTail b with
      | none => .diverge
      | some k => if cur.length < k then .ok false else validLoop k cur

def isValidUTF8 (str : Bytes) : Result Bool := validLoop 0 str

def leadByte (mark mask shift codepoint : UInt32) : UInt8 :=
  (mark ||| ((codepoint >>> shift) &&& mask)).toUInt8

def tailByte (codepoint shift : UInt32) : UInt8 :=
  (0b10000000 ||| ((codepoint >>> shift) &&& 0b00111111)).toUInt8

/-- The bytes that are put behind `target`. The sequence of six bytes shifts by 11 where its
neighbours are shifted by 18 and by 6. -/
def encodeCodepoint (codepoint : UInt32) : Bytes :=
  if codepoint < 0b10000000 then [codepoint.toUInt8]
  else if codepoint < 0b100000000000 then
    leadByte 0b11000000 0b00011111 6 codepoint :: [0].map (tailByte codepoint)
  else if codepoint < 0b10000000000000000 then
    leadByte 0b11100000 0b00001111 12 codepoint :: [6, 0].map (tailByte codepoint)
  else if codepoint < 0b1000000000000000000000 then
    leadByte 0b11110000 0b00000111 18 codepoint :: [12, 6, 0].map (tailByte codepoint)
  else if codepoint < 0b100000000000000000000000000 then
    leadByte 0b11111000 0b00000011 24 codepoint :: [18, 12, 6, 0].map (tailByte codepoint)
  else
    leadByte 0b11111100 0b00000001 30 codepoint :: [24, 18, 11, 6, 0].map (tailByte codepoint)

/-- The codepoint without its bits below `shift`. -/
def above (shift codepoint : UInt32) : UInt32 := (codepoint >>> shift) <<< shift

theorem testBit_63 (i : Nat) : Nat.testBit 63 i = decide (i < 6) :=
  Nat.testBit_two_pow_sub_one 6 i

theorem above_or (c : UInt32) {s t : UInt32} (ht : t.toNat = s.toNat + 6) (h : t.toNat < 32) :
    above t c ||| ((c >>> s) &&& 0b00111111) <<< s = above s c := by
  apply UInt32.toNat_inj.1
  apply Nat.eq_of_testBit_eq
  intro i
  have hs : s.toNat % 32 = s.toNat := Nat.mod_eq_of_lt (by omega)
  have ht' : t.toNat % 32 = s.toNat + 6 := by omega
  simp only [above, UInt32.toNat_or, UInt32.toNat_and, UInt32.toNat_shiftLeft,
    UInt32.toNat_shiftRight, Nat.testBit_or, Nat.testBit_and, Nat.testBit_mod_two_pow,
    Nat.testBit_shiftLeft, Nat.testBit_shiftRight, UInt32.reduceToNat, testBit_63, hs, ht']
  by_cases hi : s.toNat + 6 ≤ i
  · simp [show s.toNat ≤ i by omega, hi, show ¬ i - s.toNat < 6 by omega,
      show s.toNat + (i - s.toNat) = s.toNat + 6 + (i - (s.toNat+6)) by omega]
  · by_cases hi' : s.toNat ≤ i
    · simp [hi, hi', show i - s.toNat < 6 by omega]
    · simp [hi, hi']

theorem and_marked (mark x mask n : UInt8) :
    (mark ||| (x &&& mask)) &&& n = (mark &&& n) ||| (x &&& (mask &&& n)) := by
  apply UInt8.toBitVec_inj.1
  ext i hi
  simp only [UInt8.toBitVec_and, UInt8.toBitVec_or, BitVec.getElem_and, BitVec.getElem_or,
    Bool.and_or_distrib_right, Bool.and_assoc]

theorem leadByte_and (mark mask s c : UInt32) (n : UInt8) :
    leadByte mark mask s c &&& n
      = (mark.toUInt8 &&& n) ||| ((c >>> s).toUInt8 &&& (mask.toUInt8 &&& n)) := by
  rw [leadByte, UInt32.toUInt8_or, UInt32.toUInt8_and, and_marked]

theorem tailByte_and (c s : UInt32) :
    tailByte c s &&& 0b00111111 = (c >>> s).toUInt8 &&& 0b00111111 := by
  rw [tailByte, UInt32.toUInt8_or, UInt32.toUInt8_and, and_marked]
  exact UInt8.zero_or

theorem tailBits_tailByte (c s s' : UInt32) :
    tailBits s' (tailByte c s) = ((c >>> s) &&& 0b00111111) <<< s' := by
  have h : ((c >>> s).toUInt8 &&& 0b00111111).toUInt32 = (c >>> s) &&& 0b00111111 := by
    apply UInt32.toNat_inj.1
    have h63 (n : Nat) : n &&& 63 = n % 64 := Nat.and_two_pow_sub_one_eq_mod n 6
    simp only [UInt8.toNat_toUInt32, UInt8.toNat_and, UInt32.toNat_and, UInt32.toNat_toUInt8,
      UInt8.reduceToNat, UInt32.reduceToNat, h63]
    omega
  rw [tailBits, tailByte_and, h]

theorem tails_map (c : UInt32) (shifts : List UInt32) (chr : UInt32) (rest : Bytes) :
    tails shifts chr (shifts.map (tailByte c) ++ rest)
      = (shifts.foldl (fun chr s => chr ||| ((c >>> s) &&& 0b00111111) <<< s) chr, rest) := by
  induction shifts generalizing chr with
  | nil => rfl
  | cons s shifts ih =>
    rw [List.map_cons, List.cons_append, tails, tailBits_tailByte, ih, List.foldl_cons]

theorem leadBits {mark mask s c : UInt32} (k : Nat) (hk : k ≤ 5) (hmask : mask.toNat = 2^k - 1)
    (hmark : mark.toUInt8 &&& mask.toUInt8 = 0) (hc : c.toNat >>> (s.toNat % 32) < 2^k) :
    (leadByte mark mask s c &&& mask.toUInt8).toUInt32 = c >>> s := by
  apply UInt32.toNat_inj.1
  have h2 : 2^k ≤ 2^5 := Nat.pow_le_pow_right (by decide) hk
  rw [leadByte_and, hmark, UInt8.and_self]
  simp only [UInt8.zero_or, UInt8.toNat_toUInt32, UInt8.toNat_and, UInt32.toNat_toUInt8,
    UInt32.toNat_shiftRight, hmask]
  rw [Nat.mod_eq_of_lt (show 2^k - 1 < 2^8 by omega), Nat.and_two_pow_sub_one_eq_mod,
    Nat.mod_eq_of_lt (show c.toNat >>> (s.toNat % 32) < 2^8 by omega), Nat.mod_eq_of_lt hc]

theorem le_leadByte (mark mask s c : UInt32) : mark.toUInt8 ≤ leadByte mark mask s c := by
  rw [leadByte, UInt32.toUInt8_or, UInt8.le_iff_toNat_le, UInt8.toNat_or]
  exact Nat.left_le_or

theorem leadByte_not_lt {mark mask s c : UInt32} (h : 0b10000000 ≤ mark.toUInt8) :
    ¬ leadByte mark mask s c < 0b10000000 :=
  UInt8.not_lt.2 (UInt8.le_trans h (le_leadByte mark mask s c))

/-- A test of bits that the codepoint does not reach sees the mark alone. -/
theorem leadByte_and_eq_iff {mark mask s c : UInt32} {n m : UInt8} (h : mask.toUInt8 &&& n = 0) :
    leadByte mark mask s c &&& n = m ↔ mark.toUInt8 &&& n = m := by
  rw [leadByte_and, h, UInt8.and_zero, UInt8.or_zero]

theorem nextCodepoint_two (c : UInt32) (cur : Bytes) :
    nextCodepoint (leadByte 0b11000000 0b00011111 6 c :: cur)
      = sequence 0b00011111 6 [0] (leadByte 0b11000000 0b00011111 6 c) cur := by
  rw [nextCodepoint, if_neg (leadByte_not_lt (by decide))]
  exact if_pos ((leadByte_and_eq_iff rfl).2 rfl)

theorem nextCodepoint_three (c : UInt32) (cur : Bytes) :
    nextCodepoint (leadByte 0b11100000 0b00001111 12 c :: cur)
      = sequence 0b00001111 12 [6, 0] (leadByte 0b11100000 0b00001111 12 c) cur := by
  rw [nextCodepoint, if_neg (leadByte_not_lt (by decide)),
    if_neg (mt (leadByte_and_eq_iff rfl).1 (by decide))]
  exact if_pos ((leadByte_and_eq_iff rfl).2 rfl)

theorem nextCodepoint_four (c : UInt32) (cur : Bytes) :
    nextCodepoint (leadByte 0b11110000 0b00000111 18 c :: cur)
      = sequence 0b00000111 18 [12, 6, 0] (leadByte 0b11110000 0b00000111 18 c) cur := by
  rw [nextCodepoint, if_neg (leadByte_not_lt (by decide)),
    if_neg (mt (leadByte_and_eq_iff rfl).1 (by decide)),
    if_neg (mt (leadByte_and_eq_iff rfl).1 (by decide))]
  exact if_pos ((leadByte_and_eq_iff rfl).2 rfl)

theorem nextCodepoint_five (c : UInt32) (cur : Bytes) :
    nextCodepoint (leadByte 0b11111000 0b00000011 24 c :: cur)
      = sequence 0b00000011 14 [18, 12, 6, 0] (leadByte 0b11111000 0b00000011 24 c) cur := by
  rw [nextCodepoint, if_neg (leadByte_not_lt (by decide)),
    if_neg (mt (leadByte_and_eq_iff rfl).1 (by decide)),
    if_neg (mt (leadByte_and_eq_iff rfl).1 (by decide)),
    if_neg (mt (leadByte_and_eq_iff rfl).1 (by decide))]
  exact if_pos ((leadByte_and_eq_iff rfl).2 rfl)

/-- Reading back the first byte and the bytes behind it, each at its own shift. -/
theorem sequence_encoded {mark mask lead s c : UInt32} {shifts : List UInt32} (k : Nat)
    (hk : k ≤ 5) (hmask : mask.toNat = 2^k - 1) (hmark : mark.toUInt8 &&& mask.toUInt8 = 0)
    (hc : c.toNat < 2^(s.toNat % 32 + k)) (rest : Bytes) :
    sequence mask.toUInt8 lead shifts (leadByte mark mask s c) (shifts.map (tailByte c) ++ rest)
      = .ok (shifts.foldl (fun chr s => chr ||| ((c >>> s) &&& 0b00111111) <<< s)
          ((c >>> s) <<< lead), rest) := by
  have hlead : c.toNat >>> (s.toNat % 32) < 2^k := by
    rw [Nat.shiftRight_eq_div_pow]
    exact Nat.div_lt_of_lt_mul (by rwa [← pow_add])
  rw [sequence, if_neg (by simp), tails_map, leadBits k hk hmask hmark hlead]

theorem above_zero (c : UInt32) : above 0 c = c := by simp [above]

/-- The five bytes hold no bit of their first one where the codepoint ends below it. -/
theorem shiftRight_eq_zero {c : UInt32} (h : c.toNat < 2^24) : c >>> 24 = 0 := by
  apply UInt32.toNat_inj.1
  rw [UInt32.toNat_shiftRight, Nat.shiftRight_eq_div_pow]
  exact Nat.div_eq_of_lt h

theorem toUInt32_toUInt8_of_lt {c : UInt32} (h : c < 0b10000000) : c.toUInt8.toUInt32 = c := by
  have hn : c.toNat < 128 := h
  apply UInt32.toNat_inj.1
  rw [UInt8.toNat_toUInt32, UInt32.toNat_toUInt8, Nat.mod_eq_of_lt (by omega)]

theorem nextCodepoint_encodeCodepoint {c : UInt32} (h : c < 2^24) (rest : Bytes) :
    nextCodepoint (encodeCodepoint c ++ rest) = .ok (c, rest) := by
  have hn : c.toNat < 2^24 := h
  unfold encodeCodepoint
  split_ifs with h7 h11 h16 h21 h26
  · have hb : c.toUInt8 < 0b10000000 := by
      have hc : c.toNat < 128 := h7
      rw [UInt8.lt_iff_toNat_lt, UInt32.toNat_toUInt8]
      exact Nat.lt_of_le_of_lt (Nat.mod_le _ _) hc
    rw [List.singleton_append, nextCodepoint, if_pos hb, toUInt32_toUInt8_of_lt h7]
  · rw [List.cons_append, nextCodepoint_two]
    refine (sequence_encoded 5 (by decide) rfl rfl ?_ rest).trans ?_
    · exact h11
    change Result.ok (above 6 c ||| ((c >>> 0) &&& 0b00111111) <<< 0, rest) = _
    rw [above_or c rfl (by decide), above_zero]
  · rw [List.cons_append, nextCodepoint_three]
    refine (sequence_encoded 4 (by decide) rfl rfl ?_ rest).trans ?_
    · exact h16
    change Result.ok (above 12 c ||| ((c >>> 6) &&& 0b00111111) <<< 6
      ||| ((c >>> 0) &&& 0b00111111) <<< 0, rest) = _
    rw [above_or c rfl (by decide), above_or c rfl (by decide), above_zero]
  · rw [List.cons_append, nextCodepoint_four]
    refine (sequence_encoded 3 (by decide) rfl rfl ?_ rest).trans ?_
    · exact h21
    change Result.ok (above 18 c ||| ((c >>> 12) &&& 0b00111111) <<< 12
      ||| ((c >>> 6) &&& 0b00111111) <<< 6 ||| ((c >>> 0) &&& 0b00111111) <<< 0, rest) = _
    rw [above_or c rfl (by decide), above_or c rfl (by decide), above_or c rfl (by decide),
      above_zero]
  · rw [List.cons_append, nextCodepoint_five]
    refine (sequence_encoded 2 (by decide) rfl rfl ?_ rest).trans ?_
    · exact h26
    have hlead : (c >>> 24) <<< 14 = above 24 c := by
      rw [above, shiftRight_eq_zero hn]; rfl
    change Result.ok ((c >>> 24) <<< 14 ||| ((c >>> 18) &&& 0b00111111) <<< 18
      ||| ((c >>> 12) &&& 0b00111111) <<< 12 ||| ((c >>> 6) &&& 0b00111111) <<< 6
      ||| ((c >>> 0) &&& 0b00111111) <<< 0, rest) = _
    rw [hlead, above_or c rfl (by decide), above_or c rfl (by decide),
      above_or c rfl (by decide), above_or c rfl (by decide), above_zero]
  · exact absurd (UInt32.lt_trans h (by decide)) h26

/-- A codepoint of the long sequences has a first byte that no other codepoint has. -/
def LongLead (b : UInt8) : Prop :=
  b &&& 0b11111000 = 0b11111000 ∧ b &&& 0b00000111 ≠ 0

theorem not_longLead_of_and {b n : UInt8} (hn : 0b11111000 &&& n = n) (h : b &&& n ≠ n) :
    ¬ LongLead b := by
  intro hb
  apply h
  calc b &&& n = (b &&& 0b11111000) &&& n := by rw [UInt8.and_assoc, hn]
    _ = n := by rw [hb.1, hn]

theorem encodeCodepoint_cons (c : UInt32) :
    ∃ b cur, encodeCodepoint c = b :: cur ∧ (LongLead b ↔ 2^24 ≤ c) := by
  have lt_of {n : UInt32} (hc : c < n) (hn : n ≤ 2^24) : ¬ 2^24 ≤ c :=
    UInt32.not_le.2 (UInt32.lt_of_lt_of_le hc hn)
  unfold encodeCodepoint
  split_ifs with h7 h11 h16 h21 h26
  · refine ⟨_, _, rfl, iff_of_false ?_ (lt_of h7 (by decide))⟩
    rintro ⟨hb, -⟩
    have h := @UInt8.and_le_left c.toUInt8 0b11111000
    rw [hb, UInt8.le_iff_toNat_le, UInt32.toNat_toUInt8] at h
    have hc : c.toNat < 128 := h7
    have : (248 : Nat) ≤ c.toNat % 256 := h
    omega
  · refine ⟨_, _, rfl, iff_of_false (@not_longLead_of_and _ 0b11100000 rfl ?_)
      (lt_of h11 (by decide))⟩
    exact mt (leadByte_and_eq_iff rfl).1 (by decide)
  · refine ⟨_, _, rfl, iff_of_false (@not_longLead_of_and _ 0b11110000 rfl ?_)
      (lt_of h16 (by decide))⟩
    exact mt (leadByte_and_eq_iff rfl).1 (by decide)
  · refine ⟨_, _, rfl, iff_of_false (@not_longLead_of_and _ 0b11111000 rfl ?_)
      (lt_of h21 (by decide))⟩
    exact mt (leadByte_and_eq_iff rfl).1 (by decide)
  · have hc : c.toNat < 2^26 := h26
    have h3 : leadByte 0b11111000 0b00000011 24 c &&& 0b00000111
        = leadByte 0b11111000 0b00000011 24 c &&& 0b00000011 := by
      rw [leadByte_and, leadByte_and]
      rfl
    have hlead : (leadByte 0b11111000 0b00000011 24 c &&& 0b00000011).toUInt32 = c >>> 24 :=
      leadBits 2 (by decide) rfl rfl (by
        change c.toNat >>> 24 < 2^2
        rw [Nat.shiftRight_eq_div_pow]
        omega)
    refine ⟨_, _, rfl, ⟨fun hb => ?_, fun h => ⟨(leadByte_and_eq_iff rfl).2 rfl, fun h0 => ?_⟩⟩⟩
    · by_contra hlow
      apply hb.2
      rw [h3]
      apply UInt8.toUInt32_inj.1
      rw [hlead, shiftRight_eq_zero (UInt32.not_le.1 hlow)]
      rfl
    · rw [h3] at h0
      rw [h0] at hlead
      have hn : 2^24 ≤ c.toNat := h
      have hz : c.toNat >>> 24 = 0 := congrArg UInt32.toNat hlead.symm
      rw [Nat.shiftRight_eq_div_pow] at hz
      omega
  · refine ⟨_, _, rfl, iff_of_true ⟨(leadByte_and_eq_iff rfl).2 rfl, fun h0 => ?_⟩ ?_⟩
    · have h4 : leadByte 0b11111100 0b00000001 30 c &&& 0b00000100 = 0b00000100 :=
        (leadByte_and_eq_iff rfl).2 rfl
      have hz := congrArg (· &&& (0b00000100 : UInt8)) h0
      simp only [UInt8.and_assoc] at hz
      exact absurd (h4.symm.trans hz) (by decide)
    · exact UInt32.le_trans (by decide) (UInt32.not_lt.1 h26)

/-- The codepoints that UTF-8 with up to six bytes is for. -/
def Codepoint (c : UInt32) : Prop := 0 < c ∧ c < 2^31

/-- The codepoint is read back from its bytes, whatever follows, and no other one has bytes of
which these are a part in front, or the other way round. -/
def Faithful (c : UInt32) : Prop :=
  (∀ rest, nextCodepoint (encodeCodepoint c ++ rest) = .ok (c, rest)) ∧
  ∀ c', Codepoint c' → c' ≠ c →
    ¬ encodeCodepoint c <+: encodeCodepoint c' ∧ ¬ encodeCodepoint c' <+: encodeCodepoint c

theorem prefix_imp_eq {c c' : UInt32} (h : c < 2^24) (h' : c' < 2^24)
    (hp : encodeCodepoint c <+: encodeCodepoint c') : c' = c := by
  obtain ⟨rest, hrest⟩ := hp
  have hread := nextCodepoint_encodeCodepoint h' []
  rw [List.append_nil, ← hrest, nextCodepoint_encodeCodepoint h] at hread
  injection hread with hread
  exact (congrArg Prod.fst hread).symm

theorem not_prefix_of_lt {c c' : UInt32} (h : c < 2^24 ↔ ¬ c' < 2^24) :
    ¬ encodeCodepoint c <+: encodeCodepoint c' := by
  intro hp
  obtain ⟨b, cur, hb, hlong⟩ := encodeCodepoint_cons c
  obtain ⟨b', cur', hb', hlong'⟩ := encodeCodepoint_cons c'
  rw [hb, hb', List.cons_prefix_cons] at hp
  rw [← hp.1, hlong, ← UInt32.not_lt, h, not_not, ← UInt32.not_lt] at hlong'
  exact not_iff_self hlong'.symm

theorem faithful_of_lt {c : UInt32} (h : c < 2^24) : Faithful c := by
  refine ⟨nextCodepoint_encodeCodepoint h, fun c' _ hne => ?_⟩
  by_cases h' : c' < 2^24
  · exact ⟨fun hp => hne (prefix_imp_eq h h' hp), fun hp => hne (prefix_imp_eq h' h hp).symm⟩
  · exact ⟨not_prefix_of_lt (iff_of_true h h'),
      not_prefix_of_lt (iff_of_false h' (not_not.2 h))⟩

theorem xor_and {c s mask : UInt32} (h : (2^17 >>> s) &&& mask = 0) :
    ((c ^^^ 2^17) >>> s) &&& mask = (c >>> s) &&& mask := by
  apply UInt32.toNat_inj.1
  rw [UInt32.shiftRight_xor, UInt32.toNat_and, UInt32.toNat_xor, Nat.and_xor_distrib_right,
    ← UInt32.toNat_and, ← UInt32.toNat_and, h]
  exact Nat.xor_zero _

theorem tailByte_xor {c s : UInt32} (h : (2^17 >>> s) &&& (0b00111111 : UInt32) = 0) :
    tailByte (c ^^^ 2^17) s = tailByte c s := by
  rw [tailByte, tailByte, xor_and h]

theorem le_xor {c : UInt32} (h : 2^26 ≤ c) : 2^26 ≤ c ^^^ 2^17 := by
  have hs : (c ^^^ 2^17) >>> 26 = c >>> 26 := by
    rw [UInt32.shiftRight_xor]
    exact UInt32.xor_zero
  have hn := congrArg UInt32.toNat hs
  rw [UInt32.toNat_shiftRight, UInt32.toNat_shiftRight, Nat.shiftRight_eq_div_pow,
    Nat.shiftRight_eq_div_pow] at hn
  have hc : 2^26 ≤ c.toNat := h
  change 2^26 ≤ (c ^^^ 2^17).toNat
  have hn' : (c ^^^ 2^17).toNat / 2^26 = c.toNat / 2^26 := hn
  omega

theorem encodeCodepoint_of_le {c : UInt32} (h : 2^26 ≤ c) :
    encodeCodepoint c
      = leadByte 0b11111100 0b00000001 30 c :: [24, 18, 11, 6, 0].map (tailByte c) := by
  have not_lt {n : UInt32} (hn : n ≤ 2^26) : ¬ c < n := UInt32.not_lt.2 (UInt32.le_trans hn h)
  rw [encodeCodepoint, if_neg (not_lt (by decide)), if_neg (not_lt (by decide)),
    if_neg (not_lt (by decide)), if_neg (not_lt (by decide)), if_neg (not_lt (by decide))]

/-- Bit 17 is in none of the six bytes. -/
theorem encodeCodepoint_xor {c : UInt32} (h : 2^26 ≤ c) :
    encodeCodepoint (c ^^^ 2^17) = encodeCodepoint c := by
  rw [encodeCodepoint_of_le (le_xor h), encodeCodepoint_of_le h]
  simp only [List.map_cons, List.map_nil]
  rw [leadByte, xor_and rfl, tailByte_xor rfl, tailByte_xor rfl, tailByte_xor rfl,
    tailByte_xor rfl, tailByte_xor rfl, ← leadByte]

theorem or_lt {a b : UInt32} (ha : a < 2^24) (hb : b < 2^24) : a ||| b < 2^24 := by
  rw [UInt32.lt_iff_toNat_lt, UInt32.toNat_or]
  exact @Nat.or_lt_two_pow _ _ 24 ha hb

theorem digit_lt (c : UInt32) {s : UInt32} (hs : s.toNat ≤ 18) :
    ((c >>> s) &&& 0b00111111) <<< s < 2^24 := by
  have h63 : ((c >>> s) &&& 0b00111111).toNat < 2^6 := by
    rw [UInt32.toNat_and]
    exact Nat.and_lt_two_pow _ (by decide)
  rw [UInt32.lt_iff_toNat_lt, UInt32.toNat_shiftLeft, Nat.mod_eq_of_lt (show s.toNat < 32 by omega),
    Nat.shiftLeft_eq]
  have hp : 2^s.toNat ≤ 2^18 := Nat.pow_le_pow_right (by decide) hs
  refine Nat.lt_of_le_of_lt (Nat.mod_le _ _) ?_
  calc ((c >>> s) &&& 0b00111111).toNat * 2^s.toNat
    _ ≤ ((c >>> s) &&& 0b00111111).toNat * 2^18 := Nat.mul_le_mul_left _ hp
    _ < 2^6 * 2^18 := Nat.mul_lt_mul_of_pos_right h63 (by decide)

/-- The first of the five bytes is read back below bit 24, as are the others. -/
theorem not_nextCodepoint_encodeCodepoint {c : UInt32} (h : 2^24 ≤ c) (h26 : c < 2^26) :
    nextCodepoint (encodeCodepoint c) ≠ .ok (c, []) := by
  have not_lt {n : UInt32} (hn : n ≤ 2^24) : ¬ c < n := UInt32.not_lt.2 (UInt32.le_trans hn h)
  have hlead : (c >>> 24) <<< 14 < 2^24 := by
    have hc : c.toNat < 2^26 := h26
    have h3 : (c >>> 24).toNat < 2^2 := by
      rw [UInt32.toNat_shiftRight, Nat.shiftRight_eq_div_pow]
      exact Nat.div_lt_of_lt_mul hc
    rw [UInt32.lt_iff_toNat_lt, UInt32.toNat_shiftLeft, Nat.shiftLeft_eq]
    refine Nat.lt_of_le_of_lt (Nat.mod_le _ _) ?_
    exact Nat.lt_trans (Nat.mul_lt_mul_of_pos_right h3 (by decide)) (by decide)
  rw [encodeCodepoint, if_neg (not_lt (by decide)), if_neg (not_lt (by decide)),
    if_neg (not_lt (by decide)), if_neg (not_lt (by decide)), if_pos (by exact h26),
    nextCodepoint_five,
    ← List.append_nil (List.map _ _)]
  intro he
  have hread := (sequence_encoded 2 (by decide) rfl rfl (by exact h26) []).symm.trans he
  injection hread with hread
  have hlt : ((c >>> 24) <<< 14 ||| ((c >>> 18) &&& 0b00111111) <<< 18
      ||| ((c >>> 12) &&& 0b00111111) <<< 12 ||| ((c >>> 6) &&& 0b00111111) <<< 6
      ||| ((c >>> 0) &&& 0b00111111) <<< 0) < 2^24 :=
    or_lt (or_lt (or_lt (or_lt hlead (digit_lt c (by decide))) (digit_lt c (by decide)))
      (digit_lt c (by decide))) (digit_lt c (by decide))
  apply not_lt (UInt32.le_refl _)
  calc c = _ := (congrArg Prod.fst hread).symm
    _ < 2^24 := hlt

theorem not_faithful_of_le {c : UInt32} (hc : Codepoint c) (h : 2^24 ≤ c) : ¬ Faithful c := by
  intro hf
  by_cases h26 : c < 2^26
  · exact not_nextCodepoint_encodeCodepoint h h26 (by simpa using hf.1 [])
  · rw [UInt32.not_lt] at h26
    have hne : c ^^^ 2^17 ≠ c := by
      intro he
      have : (c ^^^ 2^17) ^^^ c = 0 := by rw [he, UInt32.xor_self]
      rw [UInt32.xor_comm c, UInt32.xor_assoc, UInt32.xor_self] at this
      exact absurd this (by decide)
    have hc' : Codepoint (c ^^^ 2^17) := by
      refine ⟨UInt32.lt_of_lt_of_le (by decide) (le_xor h26), ?_⟩
      exact @Nat.xor_lt_two_pow _ _ 31 hc.2 (by decide)
    have hsame := encodeCodepoint_xor h26
    exact (hf.2 _ hc' hne).1 (hsame ▸ List.prefix_rfl)

theorem codepoint_faithful_iff (c : UInt32) (hc : Codepoint c) : Faithful c ↔ c < 2^24 := by
  refine ⟨fun hf => ?_, faithful_of_lt⟩
  by_contra h
  exact not_faithful_of_le hc (UInt32.not_lt.1 h) hf

theorem codepoint_faithful_iff_euro : Faithful 0x20AC ↔ (0x20AC : UInt32) < 2^24 :=
  codepoint_faithful_iff 0x20AC ⟨by decide, by decide⟩

theorem five_bytes_not_faithful :
    ¬ ∀ c, Codepoint c → Faithful c :=
  fun h => not_faithful_of_le ⟨by decide, by decide⟩ (by decide)
    (h 0x1000000 ⟨by decide, by decide⟩)

end Stx.UTF8
