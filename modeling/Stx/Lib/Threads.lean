import Mathlib.Logic.Function.Basic
import Mathlib.Logic.Relation

/-! Threads over a shared state with mutexes. A program is a tree of atomic steps, and a
pool interleaves the steps of any number of threads in any order. The tree is finite, so
a program that is never kept waiting comes to its end. -/
namespace Threads
variable {σ M Λ C α β : Type}

/-- The program of a thread. An action finds its effect and the rest of the program from
the state it meets; a note can be seen from outside and changes nothing. -/
inductive Prog (σ M Λ α : Type) where
  | ret (a : α)
  | act (f : σ → σ) (k : σ → Prog σ M Λ α)
  | acquire (m : M) (k : Prog σ M Λ α)
  | release (m : M) (k : Prog σ M Λ α)
  | note (l : Λ) (k : Prog σ M Λ α)

namespace Prog

def bind : Prog σ M Λ α → (α → Prog σ M Λ β) → Prog σ M Λ β
  | ret a, g => g a
  | act f k, g => act f fun s => (k s).bind g
  | acquire m k, g => acquire m (k.bind g)
  | release m k, g => release m (k.bind g)
  | note l k, g => note l (k.bind g)

/-- One step that changes the state and returns a value. -/
def atomic (x : σ → α × σ) : Prog σ M Λ α := act (fun s => (x s).2) fun s => ret (x s).1

/-- `std::unique_lock` around a program. -/
def holding (m : M) (p : Prog σ M Λ α) : Prog σ M Λ α :=
  acquire m (p.bind fun a => release m (ret a))

/-- The meaning of a program that no other thread runs along with. -/
def run : Prog σ M Λ α → σ → α × σ
  | ret a, s => (a, s)
  | act f k, s => (k s).run (f s)
  | acquire _ k, s => k.run s
  | release _ k, s => k.run s
  | note _ k, s => k.run s

/-- The notes that it makes then. -/
def noted : Prog σ M Λ α → σ → List Λ
  | ret _, _ => []
  | act f k, s => (k s).noted (f s)
  | acquire _ k, s => k.noted s
  | release _ k, s => k.noted s
  | note l k, s => l :: k.noted s

theorem run_bind (p : Prog σ M Λ α) (g : α → Prog σ M Λ β) (s : σ) :
    (p.bind g).run s = (g (p.run s).1).run (p.run s).2 := by
  induction p generalizing s with
  | ret a => rfl
  | act f k ih => exact ih s (f s)
  | acquire m k ih => exact ih s
  | release m k ih => exact ih s
  | note l k ih => exact ih s

theorem noted_bind (p : Prog σ M Λ α) (g : α → Prog σ M Λ β) (s : σ) :
    (p.bind g).noted s = p.noted s ++ (g (p.run s).1).noted (p.run s).2 := by
  induction p generalizing s with
  | ret a => rfl
  | act f k ih => exact ih s (f s)
  | acquire m k ih => exact ih s
  | release m k ih => exact ih s
  | note l k ih => exact congrArg (l :: ·) (ih s)

@[simp] theorem run_atomic (x : σ → α × σ) (s : σ) :
    (atomic x : Prog σ M Λ α).run s = x s := rfl

@[simp] theorem run_holding (m : M) (p : Prog σ M Λ α) (s : σ) :
    (holding m p).run s = p.run s := run_bind p _ s

/-- The program only looks at the state. -/
def ReadOnly : Prog σ M Λ α → Prop
  | ret _ => True
  | act f k => (∀ s, f s = s) ∧ ∀ s, (k s).ReadOnly
  | acquire _ _ => False
  | release _ _ => False
  | note _ _ => False

theorem ReadOnly.bind {p : Prog σ M Λ α} {g : α → Prog σ M Λ β} (hp : p.ReadOnly)
    (hg : ∀ a, (g a).ReadOnly) : (p.bind g).ReadOnly := by
  induction p with
  | ret a => exact hg a
  | act f k ih => exact ⟨hp.1, fun s => ih s (hp.2 s)⟩
  | acquire m k => exact hp.elim
  | release m k => exact hp.elim
  | note l k => exact hp.elim

theorem ReadOnly.run_snd {p : Prog σ M Λ α} (hp : p.ReadOnly) (s : σ) : (p.run s).2 = s := by
  induction p with
  | ret a => rfl
  | act f k ih =>
    rw [run, hp.1 s]
    exact ih s (hp.2 s)
  | acquire m k => exact hp.elim
  | release m k => exact hp.elim
  | note l k => exact hp.elim

end Prog

/-- What the threads share: the state, and for each mutex the thread that holds it. -/
structure View (σ M : Type) where
  state : σ
  holder : M → Option Nat

namespace View

def put (v : View σ M) (s : σ) : View σ M := { v with state := s }

def lock [DecidableEq M] (v : View σ M) (m : M) (t : Nat) : View σ M :=
  { v with holder := Function.update v.holder m (some t) }

def unlock [DecidableEq M] (v : View σ M) (m : M) : View σ M :=
  { v with holder := Function.update v.holder m none }

@[simp] theorem put_state (v : View σ M) (s : σ) : (v.put s).state = s := rfl
@[simp] theorem put_holder (v : View σ M) (s : σ) : (v.put s).holder = v.holder := rfl

variable [DecidableEq M]

@[simp] theorem lock_state (v : View σ M) (m : M) (t : Nat) : (v.lock m t).state = v.state := rfl
@[simp] theorem unlock_state (v : View σ M) (m : M) : (v.unlock m).state = v.state := rfl
@[simp] theorem lock_self (v : View σ M) (m : M) (t : Nat) : (v.lock m t).holder m = some t :=
  Function.update_self ..
@[simp] theorem unlock_self (v : View σ M) (m : M) : (v.unlock m).holder m = none :=
  Function.update_self ..

theorem lock_of_ne (v : View σ M) {m m' : M} (h : m' ≠ m) (t : Nat) :
    (v.lock m t).holder m' = v.holder m' := Function.update_of_ne h ..

theorem unlock_of_ne (v : View σ M) {m m' : M} (h : m' ≠ m) :
    (v.unlock m).holder m' = v.holder m' := Function.update_of_ne h ..

end View

/-- A step of the thread `t`, with the notes it makes. -/
inductive Move [DecidableEq M] (t : Nat) : View σ M → Prog σ M Λ α → View σ M → Prog σ M Λ α → List Λ → Prop
  | act (v : View σ M) (f : σ → σ) (k : σ → Prog σ M Λ α) :
    Move t v (.act f k) (v.put (f v.state)) (k v.state) []
  | acquire (v : View σ M) (m : M) (k : Prog σ M Λ α) (h : v.holder m = none) :
    Move t v (.acquire m k) (v.lock m t) k []
  | release (v : View σ M) (m : M) (k : Prog σ M Λ α) :
    Move t v (.release m k) (v.unlock m) k []
  | note (v : View σ M) (l : Λ) (k : Prog σ M Λ α) : Move t v (.note l k) v k [l]

/-- Calls that run at the same time, each in a thread of its own. -/
structure Pool (σ M Λ C α : Type) where
  view : View σ M
  threads : Nat → Option (C × Prog σ M Λ α)
  notes : List (Nat × Λ)

namespace Pool

/-- The thread `t` has come to `prog'`, the shared state to `v'`, and `ls` was noted. -/
def moved (p : Pool σ M Λ C α) (t : Nat) (c : C) (v' : View σ M) (prog' : Prog σ M Λ α)
    (ls : List Λ) : Pool σ M Λ C α where
  view := v'
  threads := Function.update p.threads t (some (c, prog'))
  notes := p.notes ++ ls.map (t, ·)

/-- The call `c` of the thread `t` has ended with `a`. -/
def Returned (p : Pool σ M Λ C α) (t : Nat) (c : C) (a : α) : Prop :=
  p.threads t = some (c, .ret a)

/-- A call begins, or one of the threads makes a step. -/
inductive Step [DecidableEq M] (code : C → Prog σ M Λ α) (p : Pool σ M Λ C α) : Pool σ M Λ C α → Prop
  | start (t : Nat) (c : C) (h : p.threads t = none) :
    Step code p (p.moved t c p.view (code c) [])
  | move (t : Nat) (c : C) (prog prog' : Prog σ M Λ α) (v' : View σ M) (ls : List Λ)
    (h : p.threads t = some (c, prog)) (hm : Move t p.view prog v' prog' ls) :
    Step code p (p.moved t c v' prog' ls)

def Run [DecidableEq M] (code : C → Prog σ M Λ α) : Pool σ M Λ C α → Pool σ M Λ C α → Prop :=
  Relation.ReflTransGen (Step code)

/-- No call has begun. -/
def init (s : σ) : Pool σ M Λ C α := ⟨⟨s, fun _ => none⟩, fun _ => none, []⟩

theorem moved_self (p : Pool σ M Λ C α) (t : Nat) (c : C) (v' : View σ M) (prog' : Prog σ M Λ α)
    (ls : List Λ) : (p.moved t c v' prog' ls).threads t = some (c, prog') := Function.update_self ..

theorem moved_of_ne (p : Pool σ M Λ C α) {t u : Nat} (h : u ≠ t) (c : C) (v' : View σ M)
    (prog' : Prog σ M Λ α) (ls : List Λ) : (p.moved t c v' prog' ls).threads u = p.threads u :=
  Function.update_of_ne h ..

end Pool
end Threads
