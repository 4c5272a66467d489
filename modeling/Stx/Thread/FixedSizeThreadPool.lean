import Stx.Thread.Queue
import Stx.Lib.Runs

/-! `thread/FixedSizeThreadPool.{h,cc}`: its workers, the callers of `run` and the caller of `stop`,
who all wait on the condition variable of the queue. There are no spurious wakeups. -/
namespace Stx.Thread

namespace FixedSizeThreadPool

/-- Where a worker is: before its test of `running_`, behind it, in `wakeup_.wait`, woken, behind its
section with a job and before its `notify_all`, in the call of the job, and out of its loop. -/
inductive Worker (τ : Type) where
  | tests
  | pops
  | waits
  | woken
  | notifies (job : τ)
  | calls (job : τ)
  | left
  deriving DecidableEq

/-- Where a call of `run` is. -/
inductive Caller (τ : Type) where
  | inserts (task : τ)
  | waits (task : τ)
  | notifies
  | returned
  | raised (e : Exception)

/-- Where the call of `stop` is; `joins i` is the call of `join` for the thread `i`. -/
inductive Stopper where
  | idle
  | waitsUntilEmpty
  | waits
  | clears
  | notifies
  | joins (i : Nat)
  | returned
  deriving DecidableEq

def Worker.wake {τ : Type} : Worker τ → Worker τ
  | .waits => .woken
  | w => w

def Caller.wake {τ : Type} : Caller τ → Caller τ
  | .waits task => .inserts task
  | c => c

def Stopper.wake : Stopper → Stopper
  | .waits => .waitsUntilEmpty
  | s => s

/-- `stop` is behind its `notify_all`. -/
def Stopper.notified : Stopper → Bool
  | .joins _ => true
  | .returned => true
  | _ => false

/-- `stop` has set `running_` to false. -/
def Stopper.cleared : Stopper → Bool
  | .notifies => true
  | s => s.notified

/-- What can happen. The job that a worker calls returns or raises; one that blocks does neither. -/
inductive Action (τ : Type) where
  | start
  | run (task : τ)
  | caller (i : Nat)
  | worker (i : Nat)
  | returns (i : Nat)
  | raises (i : Nat) (e : Exception)
  | stop
  | stopper

/-- The worker whose step it is. -/
def Action.worker? {τ : Type} : Action τ → Option Nat
  | .worker i => some i
  | .returns i => some i
  | .raises i _ => some i
  | _ => none

end FixedSizeThreadPool

open FixedSizeThreadPool in
/-- The pool with the calls of `run` and `stop`, and the exceptions that `error_handler_` was called
with. -/
structure FixedSizeThreadPool (τ : Type) where
  nthreads_ : Nat
  queue_ : Queue τ
  block_ : Bool
  running_ : Bool := false
  threads_ : List (Worker τ) := []
  callers : List (Caller τ) := []
  stopper : Stopper := .idle
  onException : List Exception := []

namespace FixedSizeThreadPool
variable {τ : Type}

def new (nthreads : Nat) (maxqueuelen : UInt64) (block : Bool) : FixedSizeThreadPool τ :=
  { nthreads_ := nthreads, queue_ := { max_size_ := maxqueuelen }, block_ := block }

def set (p : FixedSizeThreadPool τ) (i : Nat) (w : Worker τ) : FixedSizeThreadPool τ :=
  { p with threads_ := p.threads_.set i w }

def setCaller (p : FixedSizeThreadPool τ) (i : Nat) (c : Caller τ) : FixedSizeThreadPool τ :=
  { p with callers := p.callers.set i c }

/-- `wakeup_.notify_all`. -/
def notifyAll (p : FixedSizeThreadPool τ) : FixedSizeThreadPool τ :=
  { p with
    threads_ := p.threads_.map Worker.wake
    callers := p.callers.map Caller.wake
    stopper := p.stopper.wake }

/-- The section of `interruptiblePop`, and the test of the job that it returns. -/
def pop (p : FixedSizeThreadPool τ) (i : Nat) (waited : Bool) : FixedSizeThreadPool τ :=
  match p.queue_.interruptiblePop waited with
  | none => p.set i .waits
  | some (none, q) => { p.set i .tests with queue_ := q }
  | some (some job, q) => { p.set i (.notifies job) with queue_ := q }

def stepWorker (p : FixedSizeThreadPool τ) (i : Nat) : Option (FixedSizeThreadPool τ) :=
  match p.threads_[i]? with
  | some .tests => some (p.set i (if p.running_ then .pops else .left))
  | some .pops => some (p.pop i false)
  | some .woken => some (p.pop i true)
  | some (.notifies job) => some (p.set i (.calls job)).notifyAll
  | _ => none

/-- The job of the worker `i` comes to its end, with an exception or without one. -/
def endCall (p : FixedSizeThreadPool τ) (i : Nat) (raised : List Exception) :
    Option (FixedSizeThreadPool τ) :=
  match p.threads_[i]? with
  | some (.calls _) => some { p.set i .tests with onException := p.onException ++ raised }
  | _ => none

def stepCaller (p : FixedSizeThreadPool τ) (i : Nat) : Option (FixedSizeThreadPool τ) :=
  match p.callers[i]? with
  | some (.inserts task) =>
    match p.queue_.insert task p.block_ with
    | .waits => some (p.setCaller i (.waits task))
    | .raises e => some (p.setCaller i (.raised e))
    | .inserted q => some { p.setCaller i .notifies with queue_ := q }
  | some .notifies => some (p.setCaller i .returned).notifyAll
  | _ => none

def stepStopper (p : FixedSizeThreadPool τ) : Option (FixedSizeThreadPool τ) :=
  match p.stopper with
  | .waitsUntilEmpty =>
    some { p with stopper := if p.queue_.waitUntilEmpty then .clears else .waits }
  | .clears => some { p with running_ := false, stopper := .notifies }
  | .notifies => some { p.notifyAll with stopper := .joins 0 }
  | .joins i =>
    match p.threads_[i]? with
    | none => some { p with stopper := .returned }
    | some .left => some { p with stopper := .joins (i+1) }
    | some _ => none
  | _ => none

/-- `start` is called at most once, and `stop` at most once behind it. -/
def step (p : FixedSizeThreadPool τ) : Action τ → Option (FixedSizeThreadPool τ)
  | .start =>
    match p.running_, p.threads_, p.stopper with
    | false, [], .idle =>
      some { p with running_ := true, threads_ := List.replicate p.nthreads_ .tests }
    | _, _, _ => none
  | .run task => some { p with callers := p.callers ++ [.inserts task] }
  | .caller i => p.stepCaller i
  | .worker i => p.stepWorker i
  | .returns i => p.endCall i []
  | .raises i e => p.endCall i [e]
  | .stop =>
    match p.running_, p.stopper with
    | true, .idle => some { p with stopper := .waitsUntilEmpty }
    | _, _ => none
  | .stopper => p.stepStopper

/-- What a step can be. -/
inductive Moves (p : FixedSizeThreadPool τ) : Action τ → FixedSizeThreadPool τ → Prop
  | start (hstopper : p.stopper = .idle) :
    Moves p .start { p with running_ := true, threads_ := List.replicate p.nthreads_ .tests }
  | run (task : τ) : Moves p (.run task) { p with callers := p.callers ++ [.inserts task] }
  | caller (i : Nat) {callers : List (Caller τ)} {q : Queue τ}
    (hqueue : p.queue_.queue_ <+: q.queue_) :
    Moves p (.caller i) { p with callers := callers, queue_ := q }
  | callerNotifies (i : Nat) : Moves p (.caller i) (p.setCaller i .returned).notifyAll
  | stop {a : Action τ} {stopper : Stopper} (ha : a.worker? = none)
    (hstopper : p.stopper.cleared = false) (hnext : stopper.cleared = false) :
    Moves p a { p with stopper := stopper }
  | clears (hstopper : p.stopper = .clears) :
    Moves p .stopper { p with running_ := false, stopper := .notifies }
  | notifies (hstopper : p.stopper = .notifies) :
    Moves p .stopper { p.notifyAll with stopper := .joins 0 }
  | joins {stopper : Stopper} (hstopper : p.stopper.notified = true)
    (hnext : stopper.notified = true) : Moves p .stopper { p with stopper := stopper }
  | tests {i : Nat} (hi : p.threads_[i]? = some .tests) :
    Moves p (.worker i) (p.set i (if p.running_ then .pops else .left))
  | waits {i : Nat} (hi : p.threads_[i]? = some .pops) (hempty : p.queue_.queue_ = []) :
    Moves p (.worker i) (p.set i .waits)
  | gives {i : Nat} (hi : p.threads_[i]? = some .woken) (hempty : p.queue_.queue_ = []) :
    Moves p (.worker i) (p.set i .tests)
  | takes {i : Nat} {job : τ} {q : Queue τ}
    (hi : p.threads_[i]? = some .pops ∨ p.threads_[i]? = some .woken)
    (hqueue : p.queue_.queue_ = job :: q.queue_) :
    Moves p (.worker i) { p.set i (.notifies job) with queue_ := q }
  | workerNotifies {i : Nat} {job : τ} (hi : p.threads_[i]? = some (.notifies job)) :
    Moves p (.worker i) (p.set i (.calls job)).notifyAll
  | ends {a : Action τ} {i : Nat} {job : τ} {raised : List Exception}
    (ha : a = .returns i ∨ ∃ e, a = .raises i e) (hi : p.threads_[i]? = some (.calls job)) :
    Moves p a { p.set i .tests with onException := p.onException ++ raised }

section steps
variable {p u : FixedSizeThreadPool τ} {i : Nat}

theorem moves_of_stepWorker (h : p.stepWorker i = some u) : p.Moves (.worker i) u := by
  have htakes : ∀ (waited : Bool) (job : τ) (rest : List τ), p.queue_.queue_ = job :: rest →
      p.threads_[i]? = some .pops ∨ p.threads_[i]? = some .woken →
      p.Moves (.worker i) (p.pop i waited) := by
    intro waited job rest hqueue hi
    rw [pop, Queue.interruptiblePop, hqueue]
    exact .takes hi hqueue
  unfold stepWorker at h
  split at h
  · next hi =>
    cases h
    exact .tests hi
  · next hi =>
    cases h
    cases hqueue : p.queue_.queue_ with
    | nil =>
      rw [pop, Queue.interruptiblePop, hqueue]
      exact .waits hi hqueue
    | cons job rest => exact htakes false job rest hqueue (.inl hi)
  · next hi =>
    cases h
    cases hqueue : p.queue_.queue_ with
    | nil =>
      rw [pop, Queue.interruptiblePop, hqueue]
      exact .gives hi hqueue
    | cons job rest => exact htakes true job rest hqueue (.inr hi)
  · next hi =>
    cases h
    exact .workerNotifies hi
  · cases h

theorem moves_of_stepCaller (h : p.stepCaller i = some u) : p.Moves (.caller i) u := by
  unfold stepCaller at h
  split at h
  · next task hi =>
    split at h
    · cases h
      exact .caller i (List.prefix_refl _)
    · cases h
      exact .caller i (List.prefix_refl _)
    · next q hinsert =>
      cases h
      refine .caller i ?_
      unfold Queue.insert at hinsert
      split at hinsert
      · split at hinsert <;> cases hinsert
      · cases hinsert
        exact List.prefix_append _ _
  · cases h
    exact .callerNotifies i
  · cases h

theorem moves_of_stepStopper (h : p.stepStopper = some u) : p.Moves .stopper u := by
  unfold stepStopper at h
  split at h
  · next hstopper =>
    cases h
    refine .stop rfl (by rw [hstopper]; rfl) ?_
    split <;> rfl
  · next hstopper =>
    cases h
    exact .clears hstopper
  · next hstopper =>
    cases h
    exact .notifies hstopper
  · next hstopper =>
    have hnotified : p.stopper.notified = true := by rw [hstopper]; rfl
    split at h
    · cases h
      exact .joins hnotified rfl
    · cases h
      exact .joins hnotified rfl
    · cases h
  · cases h

theorem moves_of_step {a : Action τ} (h : p.step a = some u) : p.Moves a u := by
  have hends : ∀ (i : Nat) (raised : List Exception) (a : Action τ),
      a = .returns i ∨ (∃ e, a = .raises i e) → p.endCall i raised = some u → p.Moves a u := by
    intro i raised a ha h
    unfold endCall at h
    split at h
    · next hi =>
      cases h
      exact .ends ha hi
    · cases h
  cases a with
  | start =>
    rw [step] at h
    split at h
    · next hstopper =>
      cases h
      exact .start hstopper
    · cases h
  | run task =>
    cases h
    exact .run task
  | caller i => exact moves_of_stepCaller h
  | worker i => exact moves_of_stepWorker h
  | returns i => exact hends i _ _ (.inl rfl) h
  | raises i e => exact hends i _ _ (.inr ⟨e, rfl⟩) h
  | stop =>
    rw [step] at h
    split at h
    · next hstopper =>
      cases h
      exact .stop rfl (by rw [hstopper]; rfl) rfl
    · cases h
  | stopper => exact moves_of_stepStopper h

end steps

end FixedSizeThreadPool
end Stx.Thread
