import Mathlib.Init

/-! Computations that note down what they do, one entry behind the other. -/

structure Traced (ε α : Type) where
  value : α
  trace : List ε

namespace Traced
variable {ε α β : Type}

instance : Monad (Traced ε) where
  pure a := ⟨a, []⟩
  bind m f := ⟨(f m.value).value, m.trace ++ (f m.value).trace⟩

@[simp] theorem value_pure (a : α) : (pure a : Traced ε α).value = a := rfl

@[simp] theorem value_bind (m : Traced ε α) (f : α → Traced ε β) :
    (m >>= f).value = (f m.value).value := rfl

@[simp] theorem value_map (f : α → β) (m : Traced ε α) : (f <$> m).value = f m.value := rfl

@[simp] theorem value_ite {c : Prop} [Decidable c] (m m' : Traced ε α) :
    (if c then m else m').value = if c then m.value else m'.value := by
  split <;> rfl

/-- Every entry is as it should be. -/
def All (P : ε → Prop) (m : Traced ε α) : Prop := ∀ e ∈ m.trace, P e

variable {P : ε → Prop}

@[simp] theorem all_mk {a : α} {es : List ε} : All P ⟨a, es⟩ ↔ ∀ e ∈ es, P e := Iff.rfl

@[simp] theorem all_pure (a : α) : All P (pure a : Traced ε α) :=
  fun _ h => absurd h List.not_mem_nil

@[simp] theorem all_bind {m : Traced ε α} {f : α → Traced ε β} :
    All P (m >>= f) ↔ All P m ∧ All P (f m.value) :=
  List.forall_mem_append

@[simp] theorem all_map {f : α → β} {m : Traced ε α} : All P (f <$> m) ↔ All P m := by
  change All P (m >>= fun a => pure (f a)) ↔ All P m
  rw [all_bind]
  exact and_iff_left (all_pure _)

@[simp] theorem all_ite {c : Prop} [Decidable c] {m m' : Traced ε α} :
    All P (if c then m else m') ↔ (c → All P m) ∧ (¬c → All P m') := by
  split <;> simp_all

end Traced
