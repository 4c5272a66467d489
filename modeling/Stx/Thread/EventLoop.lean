import Stx.Base
import Stx.Lib.Runs
import Mathlib.Data.Finset.Card
import Mathlib.Data.Finset.Lattice.Lemmas

/-! `thread/eventloop.{h,cc}`. Descriptors are numbers and an `fd_set` is a set of those below
`FD_SETSIZE`; for the others C leaves the macros undefined. What poll calls is code of any kind, so
poll is taken apart into the steps between which that code, and the other threads, run. -/
namespace Stx.Thread

abbrev FdSet := Finset Nat

def FD_SETSIZE : Nat := 1024

/-- The bytes that a pipe takes before `write` waits. -/
def pipeCapacity : Nat := 65536

inductive Op where
  | read | write
  deriving DecidableEq, Repr

/-- Functions are values of any type `τ`; of the pipe it is the end that is read. -/
structure EventLoop (τ : Type) where
  op_read_ : FdSet := ∅
  op_write_ : FdSet := ∅
  op_error_ : FdSet := ∅
  max_fd_ : Nat := 1
  running_ : Bool := true
  runq_wakeup_pipe_ : Nat
  runq_ : List τ := []
  callbacks_ : Nat → Option τ := fun _ => none
  num_fds_ : UInt64 := 0

namespace EventLoop
variable {τ : Type}

/-- The constructor, where `pipe` has given the descriptor, which it puts into the set unseen. -/
def new (runq_fd : Nat) : EventLoop τ where
  op_read_ := {runq_fd}
  max_fd_ := if runq_fd > 1 then runq_fd else 1
  runq_wakeup_pipe_ := runq_fd

def ops (l : EventLoop τ) : Op → FdSet
  | .read => l.op_read_
  | .write => l.op_write_

def setOps (l : EventLoop τ) (ops : FdSet) : Op → EventLoop τ
  | .read => { l with op_read_ := ops }
  | .write => { l with op_write_ := ops }

/-- What `runOnReadable` and `runOnWritable` do on the thread of the loop, or nothing where `FD_SET`
is undefined: `FD_SETSIZE` itself is not refused. On another thread they append a task that calls
them. -/
def runOn (op : Op) (task : τ) (fd : Nat) (l : EventLoop τ) : Option (Result (EventLoop τ)) :=
  if fd > FD_SETSIZE then
    some (Result.RAISEF .ioError "fd is too large: $0, max is $1"
      [StringUtil.toString fd, StringUtil.toString FD_SETSIZE])
  else if fd < FD_SETSIZE then
    some (.ok { l.setOps (insert fd (l.ops op)) op with
      max_fd_ := if fd > l.max_fd_ then fd else l.max_fd_
      op_error_ := insert fd l.op_error_
      num_fds_ := l.num_fds_ + 1
      callbacks_ := Function.update l.callbacks_ fd (some task) })
  else none

def runOnReadable (task : τ) (fd : Nat) (l : EventLoop τ) : Option (Result (EventLoop τ)) :=
  l.runOn .read task fd

def runOnWritable (task : τ) (fd : Nat) (l : EventLoop τ) : Option (Result (EventLoop τ)) :=
  l.runOn .write task fd

/-- `cancelFD` for a descriptor that an `fd_set` has a place for. -/
def cancel (fd : Nat) (l : EventLoop τ) : EventLoop τ :=
  { l with
    num_fds_ := if fd ∈ l.op_read_ ∨ fd ∈ l.op_write_ then l.num_fds_ - 1 else l.num_fds_
    op_read_ := l.op_read_.erase fd
    op_write_ := l.op_write_.erase fd
    op_error_ := l.op_error_.erase fd
    callbacks_ := Function.update l.callbacks_ fd none }

/-- On the thread of the loop. Nothing is refused, and `FD_ISSET` is undefined from `FD_SETSIZE`
on. -/
def cancelFD (fd : Nat) (l : EventLoop τ) : Option (Result (EventLoop τ)) :=
  if fd < FD_SETSIZE then some (.ok (l.cancel fd)) else none

/-- The part of `appendToRunQ` under the mutex. -/
def append (task : τ) (l : EventLoop τ) : EventLoop τ := { l with runq_ := l.runq_ ++ [task] }

/-- What poll does with a descriptor before it calls the callback. -/
def clear (op : Op) (fd : Nat) (l : EventLoop τ) : EventLoop τ :=
  { l.setOps ((l.ops op).erase fd) op with
    op_error_ := l.op_error_.erase fd
    num_fds_ := l.num_fds_ - 1 }

/-- Whether `runOnce` returns instead of calling `poll`. -/
def runOnceReturns (l : EventLoop τ) : Bool :=
  !l.running_ || l.runq_.isEmpty && l.num_fds_ == 0

section sets
variable {l : EventLoop τ} {op op' : Op} {ops : FdSet} {fd : Nat}

theorem ops_setOps : (l.setOps ops op).ops op' = if op' = op then ops else l.ops op' := by
  cases op <;> cases op' <;> rfl

@[simp] theorem setOps_runq_wakeup_pipe_ :
    (l.setOps ops op).runq_wakeup_pipe_ = l.runq_wakeup_pipe_ := by
  cases op <;> rfl

@[simp] theorem setOps_runq_ : (l.setOps ops op).runq_ = l.runq_ := by
  cases op <;> rfl

@[simp] theorem setOps_running_ : (l.setOps ops op).running_ = l.running_ := by
  cases op <;> rfl

@[simp] theorem setOps_callbacks_ : (l.setOps ops op).callbacks_ = l.callbacks_ := by
  cases op <;> rfl

@[simp] theorem setOps_max_fd_ : (l.setOps ops op).max_fd_ = l.max_fd_ := by
  cases op <;> rfl

theorem mem_ops_cancel {x : Nat} : x ∈ (l.cancel fd).ops op ↔ x ≠ fd ∧ x ∈ l.ops op := by
  cases op <;> exact Finset.mem_erase

theorem mem_ops_clear {x : Nat} :
    x ∈ (l.clear op fd).ops op' ↔ x ∈ l.ops op' ∧ (op' = op → x ≠ fd) := by
  have hops : (l.clear op fd).ops op' = (l.setOps ((l.ops op).erase fd) op).ops op' := by
    cases op' <;> rfl
  rw [hops, ops_setOps]
  split
  · next he =>
    subst he
    rw [Finset.mem_erase, and_comm]
    exact and_congr_right fun _ => ⟨fun h _ => h, fun h => h rfl⟩
  · next hne => exact ⟨fun h => ⟨h, fun he => absurd he hne⟩, fun h => h.1⟩

/-- What `runOnReadable` and `runOnWritable` change when they do not raise. -/
structure RunOn (l : EventLoop τ) (op : Op) (task : τ) (fd : Nat) (l' : EventLoop τ) : Prop where
  fd_lt : fd < FD_SETSIZE
  mem_ops : ∀ op' x, x ∈ l'.ops op' ↔ x ∈ l.ops op' ∨ op' = op ∧ x = fd
  num_fds_ : l'.num_fds_ = l.num_fds_ + 1
  callbacks_ : l'.callbacks_ = Function.update l.callbacks_ fd (some task)
  runq_wakeup_pipe_ : l'.runq_wakeup_pipe_ = l.runq_wakeup_pipe_
  runq_ : l'.runq_ = l.runq_
  running_ : l'.running_ = l.running_
  max_fd_ : l'.max_fd_ = if fd > l.max_fd_ then fd else l.max_fd_

theorem runOn_lt (task : τ) (hlt : fd < FD_SETSIZE) :
    ∃ l', l.runOn op task fd = some (.ok l') ∧ RunOn l op task fd l' := by
  rw [runOn, if_neg (by omega), if_pos hlt]
  have hmem : ∀ op' x, x ∈ (l.setOps (insert fd (l.ops op)) op).ops op' ↔
      x ∈ l.ops op' ∨ op' = op ∧ x = fd := by
    intro op' x
    rw [ops_setOps]
    split
    · next he => rw [Finset.mem_insert, he, or_comm, eq_self, true_and]
    · next hne => exact ⟨.inl, fun h => h.resolve_right fun he => hne he.1⟩
  refine ⟨_, rfl, hlt, fun op' x => ?_, rfl, rfl, setOps_runq_wakeup_pipe_, setOps_runq_,
    setOps_running_, rfl⟩
  cases op' with
  | read => exact hmem .read x
  | write => exact hmem .write x

end sets

end EventLoop

/-- The local sets of `poll` behind `select`. -/
structure Ready where
  op_read : FdSet
  op_write : FdSet
  deriving DecidableEq

def Ready.ops (ready : Ready) : Op → FdSet
  | .read => ready.op_read
  | .write => ready.op_write

/-- The branch that `poll` takes for a descriptor. -/
def Ready.op? (ready : Ready) (fd : Nat) : Option Op :=
  if fd ∈ ready.op_read then some .read
  else if fd ∈ ready.op_write then some .write
  else none

/-- Where the thread of the loop is: not in `poll`; in `onRunQWakeup`, before the pipe is read, before
the queue is taken, or with these tasks left; in the loop over the descriptors, of which `fd` is the
next; in a `write` to the full pipe, which nobody else reads; or behind a use of the macros that C
leaves undefined. -/
inductive Position (τ : Type) where
  | outside
  | woken (ready : Ready)
  | drained (ready : Ready)
  | tasks (rest : List τ) (ready : Ready)
  | fds (fd : Nat) (ready : Ready)
  | waiting
  | undefined

/-- The loop with its threads. `calling` is true while a function that `poll` has called runs, `pipe`
counts the bytes in the pipe, and `waking` the calls of `wakeup()` still to be made. -/
structure System (τ : Type) where
  loop : EventLoop τ
  position : Position τ := .outside
  calling : Bool := false
  pipe : Nat := 0
  waking : Nat := 0

/-- The calls that the loop's own thread makes, the last of which is its `appendToRunQ`; `append`,
`wakeup` and `shutdown` of the other threads; and the steps of `poll`. A step that calls a function
names it. -/
inductive Action (τ : Type) where
  | runOnReadable (task : τ) (fd : Nat)
  | runOnWritable (task : τ) (fd : Nat)
  | cancelFD (fd : Nat)
  | appendToRunQ (task : τ)
  | append (task : τ)
  | wakeup
  | shutdown
  | interrupted
  | select (ready : Ready)
  | drain
  | splice
  | task (task : τ)
  | scan
  | visit (fd : Nat) (called : Option τ)
  | leave
  | returns
  | raises

/-- `runOnReadable` or `runOnWritable`. -/
def Action.runOn {τ : Type} : Op → τ → Nat → Action τ
  | .read => .runOnReadable
  | .write => .runOnWritable

namespace System
variable {τ : Type}

def new (runq_fd : Nat) : System τ where
  loop := .new runq_fd
  position := if runq_fd < FD_SETSIZE then .outside else .undefined

/-- Code on the thread of the loop runs outside of `poll` or is called by it. -/
def onThread (s : System τ) : Bool :=
  match s.position with
  | .outside => true
  | _ => s.calling

/-- The thread of the loop does nothing from here on that could be said. -/
def undefined (s : System τ) : System τ := { s with position := .undefined, calling := false }

def waiting (s : System τ) : System τ := { s with position := .waiting, calling := false }

/-- A call that raises has changed nothing; whoever made it may catch the exception. -/
def call (s : System τ) (l : Option (Result (EventLoop τ))) : Option (System τ) :=
  if s.onThread then
    match l with
    | some (.ok l) => some { s with loop := l }
    | some _ => some s
    | none => some s.undefined
  else none

/-- `appendToRunQ` on the thread of the loop, which reads the pipe only in `poll`. -/
def appendToRunQ (s : System τ) (task : τ) : Option (System τ) :=
  if s.onThread then
    let s := { s with loop := s.loop.append task }
    if s.pipe < pipeCapacity then some { s with pipe := s.pipe+1 } else some s.waiting
  else none

/-- `if (FD_ISSET(fd, ...))`, with the callback that is called. -/
def visit [DecidableEq τ] (s : System τ) (fd : Nat) (ready : Ready) (called : Option τ) :
    Option (System τ) :=
  let next := { s with position := .fds (fd+1) ready }
  if fd = s.loop.runq_wakeup_pipe_ then
    if called = none then some next else none
  else if ¬fd < FD_SETSIZE then some s.undefined
  else
    match ready.op? fd with
    | none => if called = none then some next else none
    | some op =>
      if called = s.loop.callbacks_ fd then
        some { next with loop := s.loop.clear op fd, calling := called.isSome }
      else none

def step [DecidableEq τ] (s : System τ) : Action τ → Option (System τ)
  | .runOnReadable task fd => s.call (s.loop.runOnReadable task fd)
  | .runOnWritable task fd => s.call (s.loop.runOnWritable task fd)
  | .cancelFD fd => s.call (s.loop.cancelFD fd)
  | .appendToRunQ task => s.appendToRunQ task
  | .append task => some { s with loop := s.loop.append task, waking := s.waking+1 }
  | .wakeup =>
    if 0 < s.waking ∧ s.pipe < pipeCapacity then
      some { s with pipe := s.pipe+1, waking := s.waking-1 }
    else none
  | .shutdown => some { s with loop := { s.loop with running_ := false }, waking := s.waking+1 }
  | .interrupted =>
    match s.position with
    | .outside => some s
    | _ => none
  | .select ready =>
    match s.position with
    | .outside =>
      if ready.op_read ⊆ s.loop.op_read_ ∧ ready.op_write ⊆ s.loop.op_write_ then
        if s.loop.runq_wakeup_pipe_ ∈ ready.op_read then some { s with position := .woken ready }
        else some { s with position := .fds 0 ready }
      else none
    | _ => none
  | .drain =>
    match s.position with
    | .woken ready => some { s with position := .drained ready, pipe := 0 }
    | _ => none
  | .splice =>
    match s.position with
    | .drained ready =>
      some { s with position := .tasks s.loop.runq_ ready, loop := { s.loop with runq_ := [] } }
    | _ => none
  | .task task =>
    match s.position with
    | .tasks (t :: rest) ready =>
      if s.calling = false ∧ task = t then
        some { s with position := .tasks rest ready, calling := true }
      else none
    | _ => none
  | .scan =>
    match s.position with
    | .tasks [] ready => if s.calling then none else some { s with position := .fds 0 ready }
    | _ => none
  | .visit fd called =>
    match s.position with
    | .fds n ready =>
      if s.calling = false ∧ fd = n ∧ fd ≤ s.loop.max_fd_ then s.visit fd ready called else none
    | _ => none
  | .leave =>
    match s.position with
    | .fds n _ =>
      if s.calling = false ∧ s.loop.max_fd_ < n then some { s with position := .outside } else none
    | _ => none
  | .returns => if s.calling then some { s with calling := false } else none
  | .raises => if s.calling then some { s with calling := false, position := .outside } else none

/-- What each action does, with what it takes to be possible. -/
inductive Takes (s : System τ) : Action τ → System τ → Prop
  | runOn {op : Op} {task : τ} {fd : Nat} {l : EventLoop τ} (hthread : s.onThread = true)
    (hl : s.loop.RunOn op task fd l) : Takes s (.runOn op task fd) { s with loop := l }
  | refused {op : Op} {task : τ} {fd : Nat} (hthread : s.onThread = true) (hfd : FD_SETSIZE < fd) :
    Takes s (.runOn op task fd) s
  | passed {op : Op} {task : τ} (hthread : s.onThread = true) :
    Takes s (.runOn op task FD_SETSIZE) s.undefined
  | cancelFD {fd : Nat} (hthread : s.onThread = true) (hfd : fd < FD_SETSIZE) :
    Takes s (.cancelFD fd) { s with loop := s.loop.cancel fd }
  | strayed {fd : Nat} (hthread : s.onThread = true) (hfd : FD_SETSIZE ≤ fd) :
    Takes s (.cancelFD fd) s.undefined
  | appendToRunQ {task : τ} (hthread : s.onThread = true) (hroom : s.pipe < pipeCapacity) :
    Takes s (.appendToRunQ task) { s with loop := s.loop.append task, pipe := s.pipe+1 }
  | waits {task : τ} (hthread : s.onThread = true) (hfull : pipeCapacity ≤ s.pipe) :
    Takes s (.appendToRunQ task) (waiting { s with loop := s.loop.append task })
  | append {task : τ} :
    Takes s (.append task) { s with loop := s.loop.append task, waking := s.waking+1 }
  | wakeup (hwaking : 0 < s.waking) :
    Takes s .wakeup { s with pipe := s.pipe+1, waking := s.waking-1 }
  | shutdown :
    Takes s .shutdown { s with loop := { s.loop with running_ := false }, waking := s.waking+1 }
  | interrupted (hpos : s.position = .outside) : Takes s .interrupted s
  | select {ready : Ready} (hpos : s.position = .outside)
    (hops : ∀ op, ready.ops op ⊆ s.loop.ops op) :
    Takes s (.select ready)
      { s with
        position :=
          if s.loop.runq_wakeup_pipe_ ∈ ready.op_read then .woken ready else .fds 0 ready }
  | drain {ready : Ready} (hpos : s.position = .woken ready) :
    Takes s .drain { s with position := .drained ready, pipe := 0 }
  | splice {ready : Ready} (hpos : s.position = .drained ready) :
    Takes s .splice
      { s with position := .tasks s.loop.runq_ ready, loop := { s.loop with runq_ := [] } }
  | task {task : τ} {rest : List τ} {ready : Ready} (hpos : s.position = .tasks (task :: rest) ready)
    (hcalling : s.calling = false) :
    Takes s (.task task) { s with position := .tasks rest ready, calling := true }
  | scan {ready : Ready} (hpos : s.position = .tasks [] ready) (hcalling : s.calling = false) :
    Takes s .scan { s with position := .fds 0 ready }
  | pass {fd : Nat} {ready : Ready} (hpos : s.position = .fds fd ready)
    (hcalling : s.calling = false)
    (hpass : fd = s.loop.runq_wakeup_pipe_ ∨ ready.op? fd = none) :
    Takes s (.visit fd none) { s with position := .fds (fd+1) ready }
  | overrun {fd : Nat} {ready : Ready} {called : Option τ} (hpos : s.position = .fds fd ready)
    (hcalling : s.calling = false) (hfd : FD_SETSIZE ≤ fd) (hmax : fd ≤ s.loop.max_fd_) :
    Takes s (.visit fd called) s.undefined
  | dispatch {fd : Nat} {ready : Ready} {op : Op} (hpos : s.position = .fds fd ready)
    (hcalling : s.calling = false) (hfd : fd ≠ s.loop.runq_wakeup_pipe_)
    (hop : ready.op? fd = some op) :
    Takes s (.visit fd (s.loop.callbacks_ fd))
      { s with
        position := .fds (fd+1) ready, loop := s.loop.clear op fd
        calling := (s.loop.callbacks_ fd).isSome }
  | leave {fd : Nat} {ready : Ready} (hpos : s.position = .fds fd ready)
    (hcalling : s.calling = false) : Takes s .leave { s with position := .outside }
  | returns (hcalling : s.calling = true) : Takes s .returns { s with calling := false }
  | raises (hcalling : s.calling = true) :
    Takes s .raises { s with calling := false, position := .outside }

section takes
variable {s t : System τ}

theorem takes_of_runOn {op : Op} {task : τ} {fd : Nat}
    (h : s.call (s.loop.runOn op task fd) = some t) : Takes s (.runOn op task fd) t := by
  unfold call at h
  split at h
  · next hthread =>
    obtain hlt | heq | hgt := Nat.lt_trichotomy fd FD_SETSIZE
    · obtain ⟨l, hl, hrun⟩ := @EventLoop.runOn_lt _ s.loop op fd task hlt
      rw [hl] at h
      cases h
      exact .runOn hthread hrun
    · subst heq
      rw [EventLoop.runOn, if_neg (Nat.lt_irrefl _), if_neg (Nat.lt_irrefl _)] at h
      cases h
      exact .passed hthread
    · rw [EventLoop.runOn, if_pos hgt] at h
      cases h
      exact .refused hthread hgt
  · cases h

theorem takes_of_cancelFD {fd : Nat} (h : s.call (s.loop.cancelFD fd) = some t) :
    Takes s (.cancelFD fd) t := by
  unfold call at h
  split at h
  · next hthread =>
    by_cases hlt : fd < FD_SETSIZE
    · rw [EventLoop.cancelFD, if_pos hlt] at h
      cases h
      exact .cancelFD hthread hlt
    · rw [EventLoop.cancelFD, if_neg hlt] at h
      cases h
      exact .strayed hthread (Nat.not_lt.1 hlt)
  · cases h

theorem takes_of_appendToRunQ {task : τ} (h : s.appendToRunQ task = some t) :
    Takes s (.appendToRunQ task) t := by
  unfold appendToRunQ at h
  split at h
  · next hthread =>
    dsimp only at h
    split at h
    · next hroom =>
      cases h
      exact .appendToRunQ hthread hroom
    · next hfull =>
      cases h
      exact .waits hthread (Nat.not_lt.1 hfull)
  · cases h

variable [DecidableEq τ]

theorem takes_of_select {ready : Ready} (h : s.step (.select ready) = some t) :
    Takes s (.select ready) t := by
  simp only [step] at h
  split at h
  · next hpos =>
    split at h
    · next hops =>
      have htakes := Takes.select (s := s) hpos fun op => by
        cases op with
        | read => exact hops.1
        | write => exact hops.2
      split at h
      · next hpipe =>
        cases h
        rwa [if_pos hpipe] at htakes
      · next hpipe =>
        cases h
        rwa [if_neg hpipe] at htakes
    · cases h
  · cases h

theorem takes_of_task {task : τ} (h : s.step (.task task) = some t) : Takes s (.task task) t := by
  simp only [step] at h
  split at h
  · next hpos =>
    split at h
    · next hcalling =>
      cases h
      rw [hcalling.2]
      exact .task hpos hcalling.1
    · cases h
  · cases h

theorem takes_of_scan (h : s.step .scan = some t) : Takes s .scan t := by
  simp only [step] at h
  split at h
  · next hpos =>
    split at h
    · cases h
    · next hcalling =>
      cases h
      exact .scan hpos (Bool.eq_false_iff.2 hcalling)
  · cases h

theorem takes_of_leave (h : s.step .leave = some t) : Takes s .leave t := by
  simp only [step] at h
  split at h
  · next hpos =>
    split at h
    · next hcalling =>
      cases h
      exact .leave hpos hcalling.1
    · cases h
  · cases h

theorem takes_of_branch {fd : Nat} {ready : Ready} {called : Option τ}
    (hpos : s.position = .fds fd ready) (hcalling : s.calling = false)
    (hmax : fd ≤ s.loop.max_fd_) (h : s.visit fd ready called = some t) :
    Takes s (.visit fd called) t := by
  unfold visit at h
  dsimp only at h
  split at h
  · next hpipe =>
    split at h
    · next hnone =>
      cases h
      rw [hnone]
      exact .pass hpos hcalling (.inl hpipe)
    · cases h
  · next hpipe =>
    split at h
    · next hfd =>
      cases h
      exact .overrun hpos hcalling (Nat.not_lt.1 hfd) hmax
    · cases hop : ready.op? fd with
      | none =>
        simp only [hop] at h
        split at h
        · next hnone =>
          cases h
          rw [hnone]
          exact .pass hpos hcalling (.inr hop)
        · cases h
      | some op =>
        simp only [hop] at h
        split at h
        · next hcalled =>
          cases h
          rw [hcalled]
          exact .dispatch hpos hcalling hpipe hop
        · cases h

theorem takes_of_visit {fd : Nat} {called : Option τ} (h : s.step (.visit fd called) = some t) :
    Takes s (.visit fd called) t := by
  simp only [step] at h
  split at h
  · next hpos =>
    split at h
    · next hfd =>
      rw [← hfd.2.1] at hpos
      exact takes_of_branch hpos hfd.1 hfd.2.2 h
    · cases h
  · cases h

/-- The steps that are possible at one position only, and those that are always. -/
theorem takes_of_step {a : Action τ} (h : s.step a = some t) : Takes s a t := by
  cases a with
  | runOnReadable task fd => exact takes_of_runOn h
  | runOnWritable task fd => exact takes_of_runOn h
  | cancelFD fd => exact takes_of_cancelFD h
  | appendToRunQ task => exact takes_of_appendToRunQ h
  | select ready => exact takes_of_select h
  | task task => exact takes_of_task h
  | scan => exact takes_of_scan h
  | visit fd called => exact takes_of_visit h
  | leave => exact takes_of_leave h
  | append task =>
    cases h
    exact .append
  | shutdown =>
    cases h
    exact .shutdown
  | wakeup =>
    obtain ⟨hwaking, heq⟩ := Option.ite_none_right_eq_some.1 h
    cases heq
    exact .wakeup hwaking.1
  | returns =>
    obtain ⟨hcalling, heq⟩ := Option.ite_none_right_eq_some.1 h
    cases heq
    exact .returns hcalling
  | raises =>
    obtain ⟨hcalling, heq⟩ := Option.ite_none_right_eq_some.1 h
    cases heq
    exact .raises hcalling
  | interrupted =>
    simp only [step] at h
    split at h
    · next hpos =>
      cases h
      exact .interrupted hpos
    · cases h
  | drain =>
    simp only [step] at h
    split at h
    · next hpos =>
      cases h
      exact .drain hpos
    · cases h
  | splice =>
    simp only [step] at h
    split at h
    · next hpos =>
      cases h
      exact .splice hpos
    · cases h

end takes

section bound
variable {s t : System τ} {a : Action τ}

/-- The thread of the loop has not left what C defines. -/
def Defined (s : System τ) : Prop := s.position ≠ .undefined

theorem Takes.max_fd_lt (h : Takes s a t) (hs : s.loop.max_fd_ < FD_SETSIZE) :
    t.loop.max_fd_ < FD_SETSIZE := by
  cases h with
  | runOn hthread hl =>
    dsimp only
    rw [hl.max_fd_]
    split
    · exact hl.fd_lt
    · exact hs
  | @dispatch fd ready op =>
    have hmax : (s.loop.clear op fd).max_fd_ = s.loop.max_fd_ := EventLoop.setOps_max_fd_
    exact hmax ▸ hs
  | refused | passed | cancelFD | strayed | appendToRunQ | waits | append | wakeup | shutdown |
    interrupted | select | drain | splice | task | scan | pass | overrun | leave | returns |
    raises => exact hs

/-- The loop over the descriptors does not leave the sets. -/
theorem max_fd_lt_of_run [DecidableEq τ] {runq_fd : Nat} {as : List (Action τ)}
    (hpipe : runq_fd < FD_SETSIZE) (h : Runs.Run step (new runq_fd) as s) :
    s.loop.max_fd_ < FD_SETSIZE := by
  refine h.invariant ?_ fun _ _ _ hs _ hstep => (takes_of_step hstep).max_fd_lt hs
  have hmax : (new runq_fd : System τ).loop.max_fd_ = if runq_fd > 1 then runq_fd else 1 := rfl
  rw [hmax]
  split
  · exact hpipe
  · decide

end bound

end System
end Stx.Thread
