import Mathlib.Data.List.Basic

/-! A map that indexes a list: under each key it has the value of the first element with that key.
An element that is appended keeps an older entry, and one that is taken out takes its entry with
it. -/
namespace ListIndex
variable {α κ υ : Type} [BEq κ]

/-- The map knows the first element of each key that `P` asks for. -/
def Indexes (P : κ → Prop) (key : α → κ) (val : α → υ) (m : κ → Option υ) (xs : List α) : Prop :=
  ∀ k, P k → m k = (xs.find? fun x => key x == k).map val

variable [LawfulBEq κ] {P : κ → Prop} {key : α → κ} {val : α → υ} {m m' : κ → Option υ}
  {xs ys : List α} {x : α}

/-- Between the others an element is found by its own key only. -/
theorem find?_middle {k : κ} (h : k ≠ key x) :
    (xs ++ x :: ys).find? (fun y => key y == k) = (xs ++ ys).find? fun y => key y == k := by
  have hx : (key x == k) = false := beq_eq_false_iff_ne.2 h.symm
  rw [List.find?_append, List.find?_append, List.find?_cons, hx]

variable [DecidableEq κ]

theorem find?_append_singleton (xs : List α) (x : α) (k : κ) :
    (xs ++ [x]).find? (fun y => key y == k) =
      (xs.find? fun y => key y == k).or (if key x = k then some x else none) := by
  rw [List.find?_append, List.find?_cons, List.find?_nil]
  by_cases he : key x = k
  · simp [he]
  · simp [he, beq_eq_false_iff_ne.2 he]

theorem Indexes.append (h : Indexes P key val m xs)
    (hm : ∀ k, m' k = (m k).or (if key x = k then some (val x) else none)) :
    Indexes P key val m' (xs ++ [x]) := by
  intro k hk
  rw [hm, h k hk, find?_append_singleton]
  cases xs.find? fun y => key y == k with
  | some y => rfl
  | none =>
    split
    · rfl
    · rfl

/-- The index stays right exactly when no other element has the key that is taken out. -/
theorem Indexes.erase_iff (h : Indexes P key val m (xs ++ x :: ys))
    (hm : ∀ k, m' k = if k = key x then none else m k) :
    Indexes P key val m' (xs ++ ys) ↔ (P (key x) → ∀ y ∈ xs ++ ys, key y ≠ key x) := by
  constructor
  · intro h' hP y hy heq
    have hkey := h' (key x) hP
    rw [hm, if_pos rfl] at hkey
    have hnone := Option.map_eq_none_iff.1 hkey.symm
    exact List.find?_eq_none.1 hnone y hy (beq_iff_eq.2 heq)
  · intro hother k hk
    rw [hm]
    split
    · next heq =>
      subst heq
      have hnone : (xs ++ ys).find? (fun y => key y == key x) = none :=
        List.find?_eq_none.2 fun y hy hbeq => hother hk y hy (beq_iff_eq.1 hbeq)
      rw [hnone]
      rfl
    · next hne => rw [h k hk, find?_middle hne]

end ListIndex
