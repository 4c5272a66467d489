import Mathlib.Data.List.Basic

/-! Items on their way through a buffer: what is put in at the back is passed on from the
front, in portions of any size. -/
namespace Pipes
variable {α : Type}

/-- `out` was passed on, `held` was not yet. -/
@[ext] structure Pipe (α : Type) where
  out : List α := []
  held : List α := []

namespace Pipe
variable (p q : Pipe α) (xs ys : List α) (n : Nat)

def all : List α := p.out ++ p.held

def put : Pipe α := { p with held := p.held ++ xs }

def pass : Pipe α := ⟨p.out ++ p.held.take n, p.held.drop n⟩

@[simp] theorem all_put : (p.put xs).all = p.all ++ xs := by simp [all, put]
@[simp] theorem all_pass : (p.pass n).all = p.all := by simp [all, pass]

@[simp] theorem put_nil : p.put [] = p := by simp [put]
@[simp] theorem pass_zero : p.pass 0 = p := by simp [pass]

/-- Nothing is held exactly when everything was passed on. -/
theorem held_eq_nil_iff : p.held = [] ↔ p.out = p.all := by simp [all]

/-- `q` is `p` after `xs` was put in and any portion passed on. -/
def Flows (p q : Pipe α) (xs : List α) : Prop := ∃ n, q = (p.put xs).pass n

variable {p q xs ys}

theorem Flows.stays : Flows p p [] := ⟨0, by simp⟩

theorem Flows.puts : Flows p (p.put xs) xs := ⟨0, by simp⟩

theorem Flows.passes (n : Nat) : Flows p (p.pass n) [] := ⟨n, by simp⟩

theorem Flows.all_eq (h : Flows p q xs) : q.all = p.all ++ xs := by
  obtain ⟨n, rfl⟩ := h
  rw [all_pass, all_put]

end Pipe
end Pipes
