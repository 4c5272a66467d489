import Mathlib.Data.Nat.Digits.Lemmas
import Mathlib.Tactic.Ring
import Mathlib.Data.List.Basic

/-! Sequences that are made of blocks of one length, and numbers that are made of digits of one
base: what is at a place. -/
namespace Blocks
variable {α β : Type*} {f : α → List β} {k : Nat}

theorem drop_flatMap {l : List α} (h : ∀ a ∈ l, (f a).length = k) (j : Nat) :
    (l.flatMap f).drop (k*j) = (l.drop j).flatMap f := by
  induction l generalizing j with
  | nil => simp
  | cons a l ih =>
    obtain ⟨ha, hl⟩ := List.forall_mem_cons.1 h
    cases j with
    | zero => rfl
    | succ j =>
      rw [List.flatMap_cons, Nat.mul_succ, Nat.add_comm, ← List.drop_drop, List.drop_left' ha, ih hl]
      rfl

theorem length_flatMap {l : List α} (h : ∀ a ∈ l, (f a).length = k) :
    (l.flatMap f).length = k*l.length := by
  induction l with
  | nil => rfl
  | cons a l ih =>
    obtain ⟨ha, hl⟩ := List.forall_mem_cons.1 h
    rw [List.flatMap_cons, List.length_append, ha, ih hl, List.length_cons, Nat.mul_succ,
      Nat.add_comm]

theorem take_drop_flatMap {l : List α} (h : ∀ a ∈ l, (f a).length = k) {j : Nat} {a : α}
    (hj : l[j]? = some a) : ((l.flatMap f).drop (k*j)).take k = f a := by
  obtain ⟨hlt, rfl⟩ := List.getElem?_eq_some_iff.1 hj
  rw [drop_flatMap h, List.drop_eq_getElem_cons hlt, List.flatMap_cons]
  exact List.take_left' (h _ (List.getElem_mem hlt))

variable {b : Nat}

/-- The digit at an index. -/
theorem digit_ofDigits {digits : List Nat} (h : ∀ d ∈ digits, d < b) {i d : Nat}
    (hi : digits[i]? = some d) : Nat.ofDigits b digits / b^i % b = d := by
  obtain ⟨hlt, rfl⟩ := List.getElem?_eq_some_iff.1 hi
  have hd := h _ (List.getElem_mem hlt)
  rw [Nat.ofDigits_div_pow_eq_ofDigits_drop i (Nat.zero_lt_of_lt hd) digits h,
    List.drop_eq_getElem_cons hlt, Nat.ofDigits_cons, Nat.add_mul_mod_self_left,
    Nat.mod_eq_of_lt hd]

/-- The number that is left of a number in its first digits. -/
theorem ofDigits_range (b n count : Nat) :
    Nat.ofDigits b ((List.range count).map fun i => n / b^i % b) = n % b^count := by
  induction count with
  | zero => simp [Nat.mod_one]
  | succ count ih =>
    rw [List.range_succ, List.map_append, Nat.ofDigits_append, ih, List.length_map,
      List.length_range, Nat.mod_pow_succ]
    simp

end Blocks

/- A list of records of one width, written one after the other: reading, cutting and
replacing at a multiple of the width is reading, cutting and replacing in the list. -/
namespace Records
variable {α β : Type} {enc : α → List β} {width : Nat}

section
variable (hw : ∀ a, (enc a).length = width)
include hw

theorem length_flatMap (l : List α) : (l.flatMap enc).length = width * l.length := by
  induction l with
  | nil => rfl
  | cons a l ih => rw [List.flatMap_cons, List.length_append, hw, ih, List.length_cons]; ring

theorem drop_flatMap (l : List α) (n : Nat) :
    (l.flatMap enc).drop (width*n) = (l.drop n).flatMap enc := by
  induction n generalizing l with
  | zero => rfl
  | succ n ih =>
    cases l with
    | nil => simp
    | cons a l =>
      have hlen : width*(n+1) = (enc a).length+width*n := by rw [hw]; ring
      rw [List.flatMap_cons, hlen, ← List.drop_drop, List.drop_left, ih, List.drop_succ_cons]

theorem take_flatMap (l : List α) (n : Nat) :
    (l.flatMap enc).take (width*n) = (l.take n).flatMap enc := by
  induction n generalizing l with
  | zero => rfl
  | succ n ih =>
    cases l with
    | nil => simp
    | cons a l =>
      have hlen : width*(n+1) = (enc a).length+width*n := by rw [hw]; ring
      rw [List.flatMap_cons, hlen, List.take_length_add_append, ih, List.take_succ_cons,
        List.flatMap_cons]

theorem take_drop_flatMap {l : List α} {i : Nat} (hi : i < l.length) :
    ((l.flatMap enc).drop (width*i)).take width = enc l[i] := by
  rw [drop_flatMap hw, List.drop_eq_getElem_cons hi, List.flatMap_cons, ← hw l[i], List.take_left]

theorem set_flatMap {l : List α} {i : Nat} (hi : i < l.length) (a : α) :
    (l.flatMap enc).take (width*i) ++ enc a ++ (l.flatMap enc).drop (width*i+width) =
      (l.set i a).flatMap enc := by
  have hnext : width*i+width = width*(i+1) := by ring
  rw [hnext, take_flatMap hw, drop_flatMap hw, List.set_eq_take_append_cons_drop, if_pos hi,
    List.flatMap_append, List.flatMap_cons, List.append_assoc]

end
end Records
