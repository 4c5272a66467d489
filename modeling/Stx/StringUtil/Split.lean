import Stx.StringUtil

/-! `StringUtil::split` and `StringUtil::findLast`. -/
namespace Stx.StringUtil

/- Where the pattern is empty, `begin` does not move and the loop does not end. -/
def splitLoop (str pattern : Bytes) : Nat → Nat → List Bytes → Result (List Bytes)
  | 0, _, _ => .diverge
  | fuel+1, begin, parts =>
    match find str pattern begin with
    | none => .ok (parts ++ [str.drop begin])
    | some stop =>
      splitLoop str pattern fuel (stop+pattern.length)
        (parts ++ [(str.drop begin).take (stop-begin)])

/-- One turn for each match, and one in which there is none. -/
def split (str pattern : Bytes) : Result (List Bytes) :=
  splitLoop str pattern (str.length+1) 0 []

/- `for (int i = str.length() - 1; i >= 0; --i)`, by the number of characters that are left. -/
def findLastLoop (str : Bytes) (chr : UInt8) : Nat → Nat
  | 0 => 2^64-1
  | i+1 => if str.getD i 0 = chr then i else findLastLoop str chr i

/-- The last place at which `chr` occurs, or `size_t(-1)`. In a string of more than 2^31 characters
the search does not start at the end, or does not start at all. -/
def findLast (str : Bytes) (chr : UInt8) : Nat :=
  findLastLoop str chr (toInt ((str.length : Int)-1)+1).toNat

/-- A string without the first character of the pattern is searched through to its end. -/
theorem indexOf_append {p : UInt8} {pattern str : Bytes} (h : p ∉ str) (rest : Bytes) :
    indexOf (p :: pattern) (str ++ rest) = (indexOf (p :: pattern) rest).map (str.length+·) := by
  induction str with
  | nil => simp
  | cons c str ih =>
    rw [List.mem_cons, not_or] at h
    have hpre : (p :: pattern).isPrefixOf (c :: (str ++ rest)) = false := by
      simp [List.isPrefixOf, h.1]
    rw [List.cons_append, indexOf, if_neg (by simp [hpre]), ih h.2, Option.map_map,
      List.length_cons]
    congr 1
    funext k
    simp only [Function.comp_apply]
    omega

theorem indexOf_singleton (str : Bytes) (c : UInt8) :
    (c ∉ str ∧ indexOf [c] str = none) ∨
      ∃ a b, str = a ++ c :: b ∧ c ∉ a ∧ indexOf [c] str = some a.length := by
  induction str with
  | nil => exact .inl ⟨List.not_mem_nil, rfl⟩
  | cons d str ih =>
    by_cases hd : c = d
    · subst hd
      exact .inr ⟨[], str, rfl, List.not_mem_nil, by simp [indexOf, List.isPrefixOf]⟩
    · have hnext : indexOf [c] (d :: str) = (indexOf [c] str).map (·+1) := by
        simp [indexOf, List.isPrefixOf, hd]
      rcases ih with ⟨hc, hnone⟩ | ⟨a, b, rfl, ha, hsome⟩
      · exact .inl ⟨by simp [hd, hc], by rw [hnext, hnone]; rfl⟩
      · exact .inr ⟨d :: a, b, rfl, by simp [hd, ha], by rw [hnext, hsome]; rfl⟩

theorem splitLoop_singleton (c : UInt8) {fuel : Nat} (done : Bytes) {rest : Bytes}
    (parts : List Bytes) (h : rest.length < fuel) :
    splitLoop (done ++ rest) [c] fuel done.length parts = .ok (parts ++ rest.splitOn c) := by
  induction fuel generalizing done rest parts with
  | zero => omega
  | succ fuel ih =>
    rw [splitLoop, find_append]
    rcases indexOf_singleton rest c with ⟨hc, hnone⟩ | ⟨a, b, rfl, ha, hsome⟩
    · rw [hnone, List.splitOn_eq_singleton hc]
      simp
    · have hshift : done ++ (a ++ c :: b) = (done ++ (a ++ [c])) ++ b := by simp
      have hlen : done.length+a.length+[c].length = (done ++ (a ++ [c])).length := by
        simp [Nat.add_assoc]
      have hfuel : b.length < fuel := by
        rw [List.length_append, List.length_cons] at h
        omega
      rw [hsome, Option.map_some]
      simp only [List.drop_left, Nat.add_sub_cancel_left, List.take_left]
      rw [hlen, hshift, ih _ _ hfuel, List.splitOn_append_cons_self_of_not_mem ha,
        List.append_assoc, List.singleton_append]

/-- At a pattern of one character a string is split as a list is. -/
theorem split_singleton (str : Bytes) (c : UInt8) : split str [c] = .ok (str.splitOn c) :=
  splitLoop_singleton c [] [] (Nat.lt_succ_self str.length)

theorem not_mem_of_mem_splitOn {c : UInt8} {str part : Bytes} (h : part ∈ str.splitOn c) :
    c ∉ part := by
  induction str generalizing part with
  | nil =>
    rw [List.splitOn_nil, List.mem_singleton] at h
    exact h ▸ List.not_mem_nil
  | cons d str ih =>
    rw [List.splitOn_cons_eq_if_modifyHead] at h
    split at h
    · rcases List.mem_cons.1 h with rfl | h
      · exact List.not_mem_nil
      · exact ih h
    · next hd =>
      obtain ⟨p, ps, hps⟩ := List.exists_cons_of_ne_nil (List.splitOn_ne_nil c str)
      rw [hps] at h ih
      rcases List.mem_cons.1 h with rfl | h
      · have hp := ih List.mem_cons_self
        have hne : c ≠ d := fun he => hd (by simp [he])
        simp [hp, hne]
      · exact ih (List.mem_cons_of_mem _ h)

theorem findLastLoop_of_not_mem {a b : Bytes} {c : UInt8} (hb : c ∉ b) {k : Nat}
    (hk : k ≤ b.length) : findLastLoop (a ++ c :: b) c (a.length+1+k) = a.length := by
  induction k with
  | zero => simp [findLastLoop]
  | succ k ih =>
    have hget : (a ++ c :: b).getD (a.length+1+k) 0 = b[k] := by
      rw [List.getD_eq_getElem?_getD, List.getElem?_append_right (by omega), Nat.add_assoc,
        Nat.add_sub_cancel_left, Nat.add_comm 1, List.getElem?_cons_succ, List.getElem?_eq_getElem hk,
        Option.getD_some]
    have hne : b[k] ≠ c := fun h => hb (h ▸ List.getElem_mem hk)
    rw [← Nat.add_assoc, findLastLoop, if_neg (by rwa [hget]), ih (by omega)]

/-- As long as its positions fit, the last character of its kind is found. -/
theorem findLast_of_le {a b : Bytes} {c : UInt8} (hb : c ∉ b)
    (hlen : (a ++ c :: b).length ≤ 2^31) : findLast (a ++ c :: b) c = a.length := by
  have hstart : (toInt (((a ++ c :: b).length : Int)-1)+1).toNat = a.length+1+b.length := by
    rw [List.length_append, List.length_cons] at hlen ⊢
    unfold toInt
    omega
  rw [findLast, hstart]
  exact findLastLoop_of_not_mem hb le_rfl

/-- Behind 2^31 characters no search takes place, up to the next power. -/
theorem findLast_of_lt {str : Bytes} (c : UInt8) (hlo : 2^31 < str.length)
    (hhi : str.length ≤ 2^32) : findLast str c = 2^64-1 := by
  have hstart : (toInt ((str.length : Int)-1)+1).toNat = 0 := by
    unfold toInt
    omega
  rw [findLast, hstart, findLastLoop]

end Stx.StringUtil
