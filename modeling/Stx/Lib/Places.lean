import Mathlib.Data.List.Perm.Basic

/-! One place of a list, with what stands before and behind it. A list of threads is changed at one
place at a time. -/
namespace Places
variable {α β : Type} {l : List α} {i : Nat} {a : α}

/-- A new value at a place: what the list has of it instead of what it had of the old one. -/
theorem flatMap_set_perm (f : α → List β) (h : l[i]? = some a) (b : α) :
    (f a ++ (l.set i b).flatMap f).Perm (f b ++ l.flatMap f) := by
  obtain ⟨hi, rfl⟩ := List.getElem?_eq_some_iff.1 h
  have hset := (List.set_perm_cons_eraseIdx hi b).flatMap_right f
  have hget := (List.getElem_cons_eraseIdx_perm hi).flatMap_right f
  rw [List.flatMap_cons] at hset hget
  exact ((hset.append_left _).trans (List.perm_append_comm_assoc _ _ _)).trans (hget.append_left _)

/-- A place is given up. -/
theorem flatMap_eraseIdx_perm (f : α → List β) (h : l[i]? = some a) :
    (f a ++ (l.eraseIdx i).flatMap f).Perm (l.flatMap f) := by
  obtain ⟨hi, rfl⟩ := List.getElem?_eq_some_iff.1 h
  have hget := (List.getElem_cons_eraseIdx_perm hi).flatMap_right f
  rwa [List.flatMap_cons] at hget

/-- The same for the number of those that meet a test. -/
theorem countP_set_add (p : α → Bool) (h : l[i]? = some a) (b : α) :
    (l.set i b).countP p + (p a).toNat = l.countP p + (p b).toNat := by
  obtain ⟨hi, rfl⟩ := List.getElem?_eq_some_iff.1 h
  have hset := (List.set_perm_cons_eraseIdx hi b).countP_eq p
  have hget := (List.getElem_cons_eraseIdx_perm hi).countP_eq p
  have htoNat : ∀ c : Bool, (if c = true then 1 else 0) = c.toNat := by decide
  rw [List.countP_cons, htoNat] at hset hget
  omega

theorem forall_mem_set {P : α → Prop} (hall : ∀ x ∈ l, P x) {b : α} (hb : P b) :
    ∀ x ∈ l.set i b, P x := by
  intro x hx
  obtain hx | rfl := List.mem_or_eq_of_mem_set hx
  · exact hall x hx
  · exact hb

theorem forall_mem_eraseIdx {P : α → Prop} (hall : ∀ x ∈ l, P x) : ∀ x ∈ l.eraseIdx i, P x :=
  fun x hx => hall x (List.mem_of_mem_eraseIdx hx)

end Places
