import Stx.UTF8
import Mathlib.Data.List.TakeWhile

/-! The conversions between byte strings and strings of wide characters of `stringutil.cc`. -/
namespace Stx

namespace StringUtil

/-- The loop of both conversions from UTF-8; `chr` is of the type that `unit` converts to. It goes
on as long as the character is above zero. -/
def codepointLoop {α : Type} [OfNat α 0] [DecidableEq α] (unit : UInt32 → α) :
    Nat → Bytes → Result (List α)
  | 0, _ => .diverge
  | fuel+1, cur => do
    let next ← UTF8.nextCodepoint cur
    if unit next.1 = 0 then pure []
    else do
      let out ← codepointLoop unit fuel next.2
      pure (unit next.1 :: out)

/-- One turn for each byte at most, and one at the end. -/
def convertUTF8To32 (str : Bytes) : Result (List UInt32) := codepointLoop id (str.length+1) str

def convertUTF8To16 (str : Bytes) : Result (List UInt16) :=
  codepointLoop UInt32.toUInt16 (str.length+1) str

def convertUTF32To8 (str : List UInt32) : Bytes := str.flatMap UTF8.encodeCodepoint

def convertUTF16To8 (str : List UInt16) : Bytes :=
  str.flatMap fun c => UTF8.encodeCodepoint c.toUInt32

end StringUtil

namespace UTF8

/-- The bytes of a well-formed string. -/
def wellFormed (t : String) : Bytes := t.toList.flatMap String.utf8EncodeChar

theorem wellFormed_eq (t : String) : (wellFormed t).toByteArray = t.toByteArray :=
  String.utf8Encode_toList

theorem val_lt (c : Char) : c.val.toNat < 0x110000 := by
  rcases c.valid with h | h
  · exact Nat.lt_trans h (by decide)
  · exact h.2

theorem leadByte_eq (mark mask s c : UInt32) :
    leadByte mark mask s c = (c >>> s).toUInt8 &&& mask.toUInt8 ||| mark.toUInt8 := by
  rw [leadByte, UInt32.toUInt8_or, UInt32.toUInt8_and, UInt8.or_comm]

theorem tailByte_eq (c s : UInt32) :
    tailByte c s = (c >>> s).toUInt8 &&& 0b00111111 ||| 0b10000000 := by
  rw [tailByte, UInt32.toUInt8_or, UInt32.toUInt8_and, UInt8.or_comm]
  rfl

/-- Up to four bytes the encoder is UTF-8 as it is defined for the scalar values. -/
theorem encodeCodepoint_val (c : Char) : encodeCodepoint c.val = String.utf8EncodeChar c := by
  have le_iff {m n : UInt32} (h : n.toNat = m.toNat+1) : c.val ≤ m ↔ c.val < n := by
    rw [UInt32.le_iff_toNat_le, UInt32.lt_iff_toNat_lt]
    omega
  have h21 : c.val < 0b1000000000000000000000 :=
    UInt32.lt_iff_toNat_lt.2 (Nat.lt_trans (val_lt c) (by decide))
  rw [String.utf8EncodeChar_eq_utf8EncodeCharFast, String.utf8EncodeCharFast, encodeCodepoint,
    if_pos h21]
  simp only [@le_iff 0x7f 0b10000000 rfl, @le_iff 0x7ff 0b100000000000 rfl,
    @le_iff 0xffff 0b10000000000000000 rfl, List.map_cons, List.map_nil, leadByte_eq, tailByte_eq,
    UInt32.shiftRight_zero]
  rfl

theorem encodeCodepoint_flatMap (s : List Char) :
    (s.map Char.val).flatMap encodeCodepoint = s.flatMap String.utf8EncodeChar := by
  rw [List.flatMap_map]
  exact congrArg (s.flatMap ·) (funext encodeCodepoint_val)

end UTF8

namespace StringUtil

/-- The loop gives the characters up to the first one that is zero. -/
theorem codepointLoop_eq {α : Type} [OfNat α 0] [DecidableEq α] {unit : UInt32 → α}
    (h0 : unit 0 = 0) {s : List UInt32} (hs : ∀ c ∈ s, c < 2^24) {fuel : Nat}
    (hfuel : s.length < fuel) :
    codepointLoop unit fuel (s.flatMap UTF8.encodeCodepoint)
      = .ok ((s.map unit).takeWhile (· ≠ 0)) := by
  induction s generalizing fuel with
  | nil =>
    cases fuel with
    | zero => exact absurd hfuel (Nat.lt_irrefl 0)
    | succ fuel =>
      rw [List.flatMap_nil, codepointLoop, UTF8.nextCodepoint, Result.ok_bind, if_pos h0]
      rfl
  | cons c s ih =>
    cases fuel with
    | zero => exact absurd hfuel (Nat.not_lt_zero _)
    | succ fuel =>
      rw [List.flatMap_cons, codepointLoop,
        UTF8.nextCodepoint_encodeCodepoint (hs c List.mem_cons_self), Result.ok_bind,
        List.map_cons]
      by_cases hc : unit c = 0
      · rw [if_pos hc, List.takeWhile_cons_of_neg (by simpa using hc)]
        rfl
      · rw [if_neg hc, List.takeWhile_cons_of_pos (by simpa using hc),
          ih (fun d hd => hs d (List.mem_cons_of_mem c hd)) (Nat.lt_of_succ_lt_succ hfuel)]
        rfl

/-- Every character has a byte of its own. -/
theorem length_le_flatMap (s : List UInt32) :
    s.length ≤ (s.flatMap UTF8.encodeCodepoint).length := by
  induction s with
  | nil => exact Nat.zero_le _
  | cons c s ih =>
    obtain ⟨b, cur, hb, -⟩ := UTF8.encodeCodepoint_cons c
    rw [List.flatMap_cons, List.length_append, hb, List.length_cons, List.length_cons]
    omega

theorem val_lt_of_mem (s : List Char) : ∀ c ∈ s.map Char.val, c < 2^24 := by
  intro c hc
  obtain ⟨d, -, rfl⟩ := List.mem_map.1 hc
  exact UInt32.lt_iff_toNat_lt.2 (Nat.lt_trans (UTF8.val_lt d) (by decide))

theorem convertUTF8To32_eq (s : List Char) :
    convertUTF8To32 (convertUTF32To8 (s.map Char.val))
      = .ok ((s.map Char.val).takeWhile (· ≠ 0)) := by
  rw [convertUTF32To8, convertUTF8To32, codepointLoop_eq rfl (val_lt_of_mem s)
    (Nat.lt_succ_of_le (length_le_flatMap _)), List.map_id]

theorem convertUTF8To16_eq (t : String) :
    convertUTF8To16 (UTF8.wellFormed t)
      = .ok ((t.toList.map fun c => c.val.toUInt16).takeWhile (· ≠ 0)) := by
  rw [UTF8.wellFormed, ← UTF8.encodeCodepoint_flatMap, convertUTF8To16,
    codepointLoop_eq rfl (val_lt_of_mem _) (Nat.lt_succ_of_le (length_le_flatMap _)), List.map_map]
  rfl

/-- There and back again the sequence is what it was. -/
def Lossless32 (s : List Char) : Prop :=
  convertUTF8To32 (convertUTF32To8 (s.map Char.val)) = .ok (s.map Char.val)

def Lossless16 (t : String) : Prop :=
  ∃ u, convertUTF8To16 (UTF8.wellFormed t) = .ok u ∧ convertUTF16To8 u = UTF8.wellFormed t

theorem lossless32_iff (s : List Char) : Lossless32 s ↔ ∀ c ∈ s, c.val ≠ 0 := by
  rw [Lossless32, convertUTF8To32_eq, Result.ok.injEq, List.takeWhile_eq_self_iff]
  simp

theorem unit_eq {c : Char} (h : c.val < 0x10000) : c.val.toUInt16.toUInt32 = c.val := by
  have hn : c.val.toNat < 0x10000 := h
  apply UInt32.toNat_inj.1
  rw [UInt16.toNat_toUInt32, UInt32.toNat_toUInt16, Nat.mod_eq_of_lt hn]

theorem length_encodeCodepoint_le {c : UInt32} (h : c < 0x10000) :
    (UTF8.encodeCodepoint c).length ≤ 3 := by
  unfold UTF8.encodeCodepoint
  split_ifs with h7 h11
  · exact Nat.le_of_ble_eq_true rfl
  · exact Nat.le_of_ble_eq_true rfl
  · exact Nat.le_of_ble_eq_true rfl

/-- A unit of 16 bits takes three bytes at most, and a character beyond it takes four. -/
theorem length_unit_lt {c : Char} (h : ¬ c.val < 0x10000) :
    (UTF8.encodeCodepoint c.val.toUInt16.toUInt32).length < (String.utf8EncodeChar c).length := by
  have not_lt {n : UInt32} (hn : n ≤ 0x10000) : ¬ c.val < n :=
    fun hc => h (UInt32.lt_of_lt_of_le hc hn)
  have h4 : (UTF8.encodeCodepoint c.val).length = 4 := by
    have h21 : c.val < 0b1000000000000000000000 :=
      UInt32.lt_iff_toNat_lt.2 (Nat.lt_trans (UTF8.val_lt c) (by decide))
    rw [UTF8.encodeCodepoint, if_neg (not_lt (by decide)), if_neg (not_lt (by decide)),
      if_neg (not_lt (by decide)), if_pos h21]
    rfl
  rw [← UTF8.encodeCodepoint_val, h4]
  refine Nat.lt_succ_of_le (length_encodeCodepoint_le ?_)
  rw [UInt32.lt_iff_toNat_lt, UInt16.toNat_toUInt32]
  exact UInt16.toNat_lt _

/-- The bytes that come back for characters that went through units of 16 bits. -/
theorem narrow_eq {s : List Char} (h : ∀ c ∈ s, 0 < c.val ∧ c.val < 0x10000) :
    convertUTF16To8 ((s.map fun c => c.val.toUInt16).takeWhile (· ≠ 0))
      = s.flatMap String.utf8EncodeChar := by
  induction s with
  | nil => rfl
  | cons c s ih =>
    obtain ⟨hpos, hlt⟩ := h c List.mem_cons_self
    have hne : c.val.toUInt16 ≠ 0 := by
      intro hz
      have hc := unit_eq hlt
      rw [hz] at hc
      rw [← hc] at hpos
      exact absurd hpos (by decide)
    rw [List.map_cons, List.takeWhile_cons_of_pos (by simpa using hne), convertUTF16To8,
      List.flatMap_cons, List.flatMap_cons, unit_eq hlt, UTF8.encodeCodepoint_val,
      ← ih fun d hd => h d (List.mem_cons_of_mem c hd), convertUTF16To8]

/-- What is cut off, and what ends the loop, is missing. -/
theorem length_narrow (s : List Char) :
    (convertUTF16To8 ((s.map fun c => c.val.toUInt16).takeWhile (· ≠ 0))).length
        ≤ (s.flatMap String.utf8EncodeChar).length ∧
      ((convertUTF16To8 ((s.map fun c => c.val.toUInt16).takeWhile (· ≠ 0))).length
        = (s.flatMap String.utf8EncodeChar).length → ∀ c ∈ s, 0 < c.val ∧ c.val < 0x10000) := by
  induction s with
  | nil => exact ⟨Nat.le_refl _, fun _ _ hc => absurd hc List.not_mem_nil⟩
  | cons c s ih =>
    rw [List.flatMap_cons, List.length_append, List.map_cons]
    by_cases hz : c.val.toUInt16 = 0
    · have hpos : 0 < (String.utf8EncodeChar c).length :=
        List.length_pos_iff.2 String.utf8EncodeChar_ne_nil
      rw [List.takeWhile_cons_of_neg (by simpa using hz)]
      change 0 ≤ _ ∧ (0 = _ → _)
      omega
    · rw [List.takeWhile_cons_of_pos (by simpa using hz), convertUTF16To8, List.flatMap_cons,
        List.length_append, ← convertUTF16To8]
      by_cases hlt : c.val < 0x10000
      · rw [unit_eq hlt, UTF8.encodeCodepoint_val]
        refine ⟨Nat.add_le_add_left ih.1 _, fun he => ?_⟩
        rw [List.forall_mem_cons]
        refine ⟨⟨UInt32.pos_iff_ne_zero.2 fun h0 => ?_, hlt⟩, ih.2 (Nat.add_left_cancel he)⟩
        rw [h0] at hz
        exact hz rfl
      · have h := length_unit_lt hlt
        omega

theorem lossless16_iff (t : String) :
    Lossless16 t ↔ ∀ c ∈ t.toList, 0 < c.val ∧ c.val < 0x10000 := by
  constructor
  · rintro ⟨u, hu, hback⟩
    rw [convertUTF8To16_eq] at hu
    cases hu
    exact (length_narrow t.toList).2 (congrArg List.length hback)
  · exact fun h => ⟨_, convertUTF8To16_eq t, narrow_eq h⟩

/-- U+0000 ends both loops, and a character beyond the 16 bits of a unit is cut off. -/
theorem wideStrings_lossless_iff (s : List Char) (t : String) :
    (Lossless32 s ↔ ∀ c ∈ s, c.val ≠ 0) ∧
      (Lossless16 t ↔ ∀ c ∈ t.toList, 0 < c.val ∧ c.val < 0x10000) :=
  ⟨lossless32_iff s, lossless16_iff t⟩

theorem wide_strings_lose : ¬ Lossless32 ['\x00'] ∧ ¬ Lossless16 "😀" := by
  constructor
  · rw [lossless32_iff]
    intro h
    exact h _ List.mem_cons_self rfl
  · rw [lossless16_iff]
    intro h
    exact absurd (h '😀' (by simp)).2 (by decide)

end StringUtil
end Stx
