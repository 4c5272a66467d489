import Mathlib.Data.List.Basic
import Mathlib.Tactic.Ring

/-! Base-128 numerals: little-endian groups of seven bits, one to a byte, where the
top bit of a byte says that another one follows. Machine words enter only through
the bit identities at the end. -/
namespace Base128

/-- The seven payload bits. -/
def digit (b : UInt8) : Nat := b.toNat % 128

/-- The continuation bit. -/
def more (b : UInt8) : Prop := 128 ≤ b.toNat

instance (b : UInt8) : Decidable (more b) := inferInstanceAs (Decidable (_ ≤ _))

def value : List UInt8 → Nat
  | [] => 0
  | b :: bs => digit b + 128 * value bs

/-- A complete numeral: every byte but the last continues. -/
def Numeral : List UInt8 → Prop
  | [] => False
  | b :: bs => if more b then Numeral bs else bs = []

attribute [local simp] value Numeral

theorem Numeral.ne_nil {bs : List UInt8} (h : Numeral bs) : bs ≠ [] := by
  rintro rfl
  exact h

/-- The last byte does not continue. -/
theorem Numeral.exists_not_more {bs : List UInt8} (h : Numeral bs) : ∃ b ∈ bs, ¬ more b := by
  induction bs with
  | nil => exact absurd rfl h.ne_nil
  | cons b bs ih =>
    by_cases hb : more b
    · simp only [Numeral, hb, if_true] at h
      obtain ⟨c, hc, hmore⟩ := ih h
      exact ⟨c, List.mem_cons_of_mem b hc, hmore⟩
    · exact ⟨b, List.mem_cons_self, hb⟩

theorem numeral_last {b : UInt8} (h : ¬ more b) : Numeral [b] := by
  simp [h]

theorem numeral_cons {b : UInt8} {bs : List UInt8} (hb : more b) (h : Numeral bs) :
    Numeral (b :: bs) := by
  simpa [hb] using h

/-- Nothing is behind the last byte of a numeral. -/
theorem Numeral.eq_nil_of_append {bs tail : List UInt8} (h : Numeral bs)
    (ht : Numeral (bs ++ tail)) : tail = [] := by
  induction bs with
  | nil => exact absurd rfl h.ne_nil
  | cons b bs ih =>
    rw [List.cons_append] at ht
    by_cases hb : more b
    · simp only [Numeral, hb, if_true] at h ht
      exact ih h ht
    · simp only [Numeral, hb, if_false] at ht
      exact (List.append_eq_nil_iff.1 ht).2

theorem digit_lt (b : UInt8) : digit b < 128 := Nat.mod_lt _ (by decide)

theorem value_append (bs tail : List UInt8) :
    value (bs ++ tail) = value bs + 128 ^ bs.length * value tail := by
  induction bs with
  | nil => simp
  | cons b bs ih =>
    rw [List.cons_append, value, ih, value, List.length_cons, pow_succ]
    ring

theorem value_lt (bs : List UInt8) : value bs < 128 ^ bs.length := by
  induction bs with
  | nil => exact Nat.one_pos
  | cons b bs ih =>
    have hd := digit_lt b
    rw [value, List.length_cons, pow_succ]
    omega

/-- The bytes that a reader looks at: it goes on to the first one that does not continue. -/
def scanned : List UInt8 → List UInt8
  | [] => []
  | b :: bs => if more b then b :: scanned bs else [b]

theorem Numeral.scanned_append {bs : List UInt8} (h : Numeral bs) (tail : List UInt8) :
    scanned (bs ++ tail) = bs := by
  induction bs with
  | nil => exact absurd rfl h.ne_nil
  | cons b bs ih =>
    rw [List.cons_append, scanned]
    by_cases hb : more b
    · simp only [Numeral, hb, if_true] at h ⊢
      rw [ih h]
    · simp only [Numeral, hb, if_false] at h ⊢
      rw [h]

/-- There is a numeral in front, or every byte continues. -/
theorem scanned_cases (s : List UInt8) :
    (Numeral (scanned s) ∧ ∃ tail, s = scanned s ++ tail) ∨
      (scanned s = s ∧ ∀ b ∈ s, more b) := by
  induction s with
  | nil => exact .inr ⟨rfl, fun _ h => absurd h List.not_mem_nil⟩
  | cons b s ih =>
    rw [scanned]
    by_cases hb : more b
    · rw [if_pos hb]
      obtain ⟨hnum, tail, ht⟩ | ⟨hs, hall⟩ := ih
      · exact .inl ⟨numeral_cons hb hnum, tail, congrArg (b :: ·) ht⟩
      · exact .inr ⟨by rw [hs], List.forall_mem_cons.2 ⟨hb, hall⟩⟩
    · rw [if_neg hb]
      exact .inl ⟨numeral_last hb, s, rfl⟩

/-- The groups are all bits of a word of 64: there are ten at most, and the tenth is one bit. -/
def FitsWord (bs : List UInt8) : Prop :=
  bs.length ≤ 10 ∧ ∀ b, bs[9]? = some b → digit b ≤ 1

theorem fitsWord_iff {bs : List UInt8} (h : bs.length ≤ 10) : FitsWord bs ↔ value bs < 2 ^ 64 := by
  have hsplit := value_append (bs.take 9) (bs.drop 9)
  have hlow := value_lt (bs.take 9)
  rw [List.take_append_drop] at hsplit
  by_cases hlen : bs.length ≤ 9
  · rw [List.drop_of_length_le hlen, value, Nat.mul_zero] at hsplit
    refine iff_of_true ⟨h, fun b hb => ?_⟩ ?_
    · rw [List.getElem?_eq_none hlen] at hb
      cases hb
    · have hpow : 128 ^ (bs.take 9).length ≤ 128 ^ 9 :=
        Nat.pow_le_pow_right (by decide) (List.length_take_le 9 bs)
      omega
  · have hnine : (bs.take 9).length = 9 := by
      rw [List.length_take]
      omega
    have hdrop : (bs.drop 9).length = 1 := by
      rw [List.length_drop]
      omega
    obtain ⟨b, hb⟩ := List.length_eq_one_iff.1 hdrop
    have hnth : bs[9]? = some b := by
      have hhead := congrArg List.head? hb
      rwa [List.head?_drop] at hhead
    rw [hnine] at hsplit hlow
    rw [hb, value, value] at hsplit
    constructor
    · intro hf
      have := hf.2 b hnth
      omega
    · intro hv
      refine ⟨h, fun b' hb' => ?_⟩
      rw [hnth] at hb'
      cases hb'
      omega

/- The bit identities shared by every writer and reader of such numerals. -/

theorem and_127 (n : Nat) : n &&& 127 = n % 128 := Nat.and_two_pow_sub_one_eq_mod n 7

theorem and_128_eq_zero_iff (b : UInt8) : b &&& 128 = 0 ↔ ¬ more b := by
  have h : ∀ n : Fin 256, ((n.val &&& 128) = 0 ↔ ¬ 128 ≤ n.val) := by decide +kernel
  rw [← UInt8.toNat_inj, UInt8.toNat_and]
  exact h ⟨b.toNat, b.toNat_lt⟩

theorem or_128_toNat {b : UInt8} (h : b.toNat < 128) : (b ||| 128).toNat = b.toNat + 128 := by
  have hor := Nat.two_pow_add_eq_or_of_lt (i := 7) h 1
  rw [UInt8.toNat_or, Nat.or_comm]
  simp only [Nat.mul_one] at hor
  change 2 ^ 7 ||| b.toNat = _
  omega

/-- Setting a group of bits above `acc` adds its weight. -/
theorem or_shift_eq_add {acc d k : Nat} (h : acc < 2 ^ k) :
    acc ||| (d <<< k) = acc + d * 2 ^ k := by
  rw [Nat.or_comm, ← Nat.shiftLeft_add_eq_or_of_lt h, Nat.shiftLeft_eq, Nat.add_comm]

end Base128
