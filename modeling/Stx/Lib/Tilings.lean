import Mathlib.Data.Set.BooleanAlgebra
import Mathlib.Order.CompletePartialOrder
import Mathlib.Order.Interval.Set.LinearOrder
import Mathlib.Data.List.Perm.Basic
import Mathlib.Data.Set.Pairwise.Basic

/-! Elements with ranges of natural numbers that follow one another from `a` to `b`. In any order, such
ranges are disjoint and make up the whole. -/
namespace Tilings
variable {α : Type} {first size : α → Nat} {a b : Nat} {xs ys : List α} {x : α}

def range (first size : α → Nat) (x : α) : Set Nat := Set.Ico (first x) (first x+size x)

def Tiles (first size : α → Nat) : Nat → List α → Nat → Prop
  | a, [], b => a = b
  | a, x :: xs, b => first x = a ∧ Tiles first size (a+size x) xs b

/-- The elements divide what lies between `a` and `b` among themselves. -/
structure Partition (first size : α → Nat) (a : Nat) (xs : List α) (b : Nat) : Prop where
  inside : ∀ x ∈ xs, a ≤ first x ∧ first x+size x ≤ b
  disjoint : xs.Pairwise fun x y => Disjoint (range first size x) (range first size y)
  covers : ∀ n, n ∈ Set.Ico a b ↔ ∃ x ∈ xs, n ∈ range first size x

theorem Tiles.le (h : Tiles first size a xs b) : a ≤ b := by
  induction xs generalizing a with
  | nil => exact Nat.le_of_eq h
  | cons x xs ih => exact Nat.le_trans (Nat.le_add_right _ _) (ih h.2)

theorem Tiles.append_singleton (h : Tiles first size a xs b) (hx : first x = b) :
    Tiles first size a (xs ++ [x]) (b+size x) := by
  induction xs generalizing a with
  | nil =>
    obtain rfl : a = b := h
    exact ⟨hx, rfl⟩
  | cons y xs ih => exact ⟨h.1, ih h.2⟩

theorem Tiles.inside (h : Tiles first size a xs b) :
    ∀ x ∈ xs, a ≤ first x ∧ first x+size x ≤ b := by
  induction xs generalizing a with
  | nil => exact fun x hx => by cases hx
  | cons y xs ih =>
    obtain ⟨rfl, hrest⟩ := h
    refine List.forall_mem_cons.2 ⟨⟨Nat.le_refl _, hrest.le⟩, fun x hx => ?_⟩
    obtain ⟨hlo, hhi⟩ := ih hrest x hx
    exact ⟨Nat.le_trans (Nat.le_add_right _ _) hlo, hhi⟩

theorem Tiles.disjoint (h : Tiles first size a xs b) :
    xs.Pairwise fun x y => Disjoint (range first size x) (range first size y) := by
  induction xs generalizing a with
  | nil => exact .nil
  | cons y xs ih =>
    obtain ⟨rfl, hrest⟩ := h
    refine .cons (fun x hx => ?_) (ih hrest)
    exact Set.disjoint_left.2 fun n hy hn =>
      absurd (Nat.le_trans (hrest.inside x hx).1 hn.1) (Nat.not_le_of_lt hy.2)

theorem Tiles.covers (h : Tiles first size a xs b) (n : Nat) :
    n ∈ Set.Ico a b ↔ ∃ x ∈ xs, n ∈ range first size x := by
  induction xs generalizing a with
  | nil =>
    obtain rfl : a = b := h
    simp
  | cons y xs ih =>
    obtain ⟨rfl, hrest⟩ := h
    rw [List.exists_mem_cons_iff, ← ih hrest, ← Set.mem_union]
    have hunion := Set.Ico_union_Ico_eq_Ico (Nat.le_add_right (first y) (size y)) hrest.le
    rw [range, hunion]

theorem Tiles.partition (h : Tiles first size a xs b) (hperm : ys.Perm xs) :
    Partition first size a ys b where
  inside x hx := h.inside x (hperm.mem_iff.1 hx)
  disjoint := hperm.symm.pairwise h.disjoint fun hxy => hxy.symm
  covers n := by simp only [h.covers n, hperm.mem_iff]

end Tilings
