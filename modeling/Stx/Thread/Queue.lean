import Stx.Base

/-! `thread/queue.h` by the sections that hold `mutex_`. A section ends with the call or in
`wakeup_.wait`; where it has changed the queue, `wakeup_.notify_all` follows it. -/
namespace Stx.Thread

/-- `max_size_` is `size_t(-1)` where the queue has no bound. -/
structure Queue (τ : Type) where
  queue_ : List τ := []
  max_size_ : UInt64 := 18446744073709551615
  length_ : UInt64 := 0

inductive Insertion (τ : Type) where
  | waits
  | raises (e : Exception)
  | inserted (q : Queue τ)

namespace Queue
variable {τ : Type}

def insert (q : Queue τ) (job : τ) (block : Bool) : Insertion τ :=
  if q.max_size_ ≠ 18446744073709551615 ∧ q.max_size_ ≤ q.length_ then
    if block then .waits else .raises ⟨.runtimeError, lit "queue is full"⟩
  else
    .inserted { q with queue_ := q.queue_ ++ [job], length_ := q.length_+1 }

/-- A section of `interruptiblePop` from the first test on, or from the second if the call has waited
already. It comes to nothing where the call goes on to wait. -/
def interruptiblePop (q : Queue τ) (waited : Bool) : Option (Option τ × Queue τ) :=
  match q.queue_ with
  | [] => if waited then some (none, q) else none
  | job :: rest => some (some job, { q with queue_ := rest, length_ := q.length_-1 })

def waitUntilEmpty (q : Queue τ) : Bool := q.queue_.isEmpty

end Queue
end Stx.Thread
