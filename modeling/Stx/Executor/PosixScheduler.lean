import Stx.Base
import Stx.Lib.Runs

/-! `executor/PosixScheduler.{h,cc}`: its timers and its watchers. Pointers to watchers are places of
`watchers_`, and a `MonotonicTime` counts nanoseconds, a `Duration` and a `UnixTime` microseconds. -/
namespace Stx.Executor

/-- The number stands for the address. -/
structure Timer (τ : Type) where
  number : Nat
  when_ : UInt64
  action : τ
  deriving DecidableEq

inductive Mode where
  | READABLE | WRITABLE
  deriving DecidableEq, Repr

structure Watcher (τ : Type) where
  fd : Int := -1
  mode : Mode := .READABLE
  onIO : Option τ := none
  timeout : UInt64 := 0
  onTimeout : Option τ := none
  prev : Option Nat := none
  next : Option Nat := none
  deriving DecidableEq

/-- What is collected to be run: a timer, a watcher of which `onTimeout` is run, or an `onIO`. -/
inductive Due (τ : Type) where
  | timer (job : Timer τ)
  | timeout (w : Nat)
  | io (task : Option τ)
  deriving DecidableEq

structure PosixScheduler (τ : Type) where
  tasks_ : List τ := []
  timers_ : List (Timer τ) := []
  watchers_ : Nat → Watcher τ := fun _ => {}
  firstWatcher_ : Option Nat := none
  lastWatcher_ : Option Nat := none
  readerCount_ : UInt64 := 0
  writerCount_ : UInt64 := 0

namespace PosixScheduler
variable {τ : Type}

/-- `watchers_.size()`. -/
def kWatchers : Nat := 32768

/-- `MonotonicTime + Duration`. -/
def plus (time duration : UInt64) : UInt64 := time+duration*1000

/-- `MonotonicTime - MonotonicTime`, in microseconds. -/
def minus (time other : UInt64) : UInt64 := time/1000-other/1000

/-- `UnixTime - UnixTime`. -/
def unixMinus (time other : UInt64) : UInt64 := if other < time then time-other else other-time

def execute (task : τ) (s : PosixScheduler τ) : PosixScheduler τ :=
  { s with tasks_ := s.tasks_ ++ [task] }

/- `behind` are the timers that the search has passed, and the others come in reverse. -/
def insertLoop (t : Timer τ) (behind : List (Timer τ)) : List (Timer τ) → List (Timer τ)
  | [] => t :: behind
  | current :: before =>
    if t.when_ ≤ current.when_ then before.reverse ++ t :: current :: behind
    else insertLoop t (current :: behind) before

def insertIntoTimersList (t : Timer τ) (s : PosixScheduler τ) : PosixScheduler τ :=
  { s with timers_ := insertLoop t [] s.timers_.reverse }

def executeAfter (now : UInt64) (number : Nat) (delay : UInt64) (task : τ) (s : PosixScheduler τ) :
    PosixScheduler τ :=
  s.insertIntoTimersList ⟨number, plus now delay, task⟩

def executeAt (now wall : UInt64) (number : Nat) (when_ : UInt64) (task : τ) (s : PosixScheduler τ) :
    PosixScheduler τ :=
  s.executeAfter now number (unixMinus when_ wall) task

/-- The cancel handler of a timer. It searches the list from its end. -/
def onCancel (number : Nat) (s : PosixScheduler τ) : PosixScheduler τ :=
  { s with timers_ := (s.timers_.reverse.eraseP fun t => t.number == number).reverse }

def setWatcher (w : Nat) (f : Watcher τ → Watcher τ) (s : PosixScheduler τ) : PosixScheduler τ :=
  { s with watchers_ := Function.update s.watchers_ w (f (s.watchers_ w)) }

def setNext (pred next : Option Nat) (s : PosixScheduler τ) : PosixScheduler τ :=
  match pred with
  | some pred => s.setWatcher pred fun w => { w with next := next }
  | none => { s with firstWatcher_ := next }

def setPrev (succ prev : Option Nat) (s : PosixScheduler τ) : PosixScheduler τ :=
  match succ with
  | some succ => s.setWatcher succ fun w => { w with prev := prev }
  | none => { s with lastWatcher_ := prev }

def linkWatcher (w pred : Nat) (s : PosixScheduler τ) : PosixScheduler τ :=
  let succ := (s.watchers_ pred).next
  let s := s.setWatcher w fun w => { w with prev := some pred, next := succ }
  let s := s.setNext (some pred) (some w)
  s.setPrev succ (some w)

def clear (w : Watcher τ) : Watcher τ :=
  { w with fd := -1, timeout := 0, prev := none, next := none }

/-- It returns the successor. -/
def unlinkWatcher (w : Nat) : Sys (PosixScheduler τ) (Option Nat) := fun s =>
  let pred := (s.watchers_ w).prev
  let succ := (s.watchers_ w).next
  (.ok succ, ((s.setNext pred succ).setPrev succ pred).setWatcher w clear)

/-- The part of `setupWatcher` from the search on. The search does not move, so that it ends in its first
turn or not at all. -/
def insertWatcher (interest : Nat) : Sys (PosixScheduler τ) Nat := fun s =>
  match s.lastWatcher_ with
  | some succ =>
    match (s.watchers_ succ).prev with
    | some prev =>
      if (s.watchers_ interest).timeout ≤ (s.watchers_ prev).timeout then
        (.ok interest, s.linkWatcher interest prev)
      else (.diverge, s)
    | none =>
      -- put in front
      let s := s.setWatcher interest fun w => { w with next := s.firstWatcher_ }
      let s := s.setPrev s.firstWatcher_ (some interest)
      (.ok interest, { s with firstWatcher_ := some interest })
  | none => (.ok interest, { s with firstWatcher_ := some interest, lastWatcher_ := some interest })

/-- The type of the second error is the text `AlreadyWatchingOnResource`. -/
def setupWatcher (now : UInt64) (fd : Int) (mode : Mode) (task : τ) (tmo : UInt64) (tcb : Option τ) :
    Sys (PosixScheduler τ) Nat := do
  let timeout := plus now tmo
  let s ← Sys.get
  if fd < 0 ∨ kWatchers ≤ fd then Sys.reads fun _ => .RAISE .ioError "fd number too high"
  else if (s.watchers_ fd.toNat).fd ≥ 0 then
    Sys.reads fun _ => .RAISE .runtimeError "Already watching on resource"
  else do
    Sys.modify (·.setWatcher fd.toNat fun _ =>
      { fd := fd, mode := mode, onIO := some task, timeout := timeout, onTimeout := tcb })
    insertWatcher fd.toNat

def countUp (mode : Mode) (s : PosixScheduler τ) : PosixScheduler τ :=
  match mode with
  | .READABLE => { s with readerCount_ := s.readerCount_+1 }
  | .WRITABLE => { s with writerCount_ := s.writerCount_+1 }

def countDown (mode : Mode) (s : PosixScheduler τ) : PosixScheduler τ :=
  match mode with
  | .READABLE => { s with readerCount_ := s.readerCount_-1 }
  | .WRITABLE => { s with writerCount_ := s.writerCount_-1 }

/-- `executeOnReadable` and `executeOnWritable`. -/
def executeOn (now : UInt64) (mode : Mode) (fd : Int) (task : τ) (tmo : UInt64) (tcb : Option τ) :
    Sys (PosixScheduler τ) Nat := do
  Sys.modify (countUp mode)
  setupWatcher now fd mode task tmo tcb

def executeOnReadable (now : UInt64) : Int → τ → UInt64 → Option τ → Sys (PosixScheduler τ) Nat :=
  executeOn now .READABLE

def executeOnWritable (now : UInt64) : Int → τ → UInt64 → Option τ → Sys (PosixScheduler τ) Nat :=
  executeOn now .WRITABLE

/- The clock stands still while the loops run. -/

def timeoutLoop (now : UInt64) : Nat → Option Nat → Sys (PosixScheduler τ) (List (Due τ))
  | _, none => return []
  | 0, some _ => Sys.reads fun _ => .diverge
  | fuel+1, some w => do
    let s ← Sys.get
    if (s.watchers_ w).timeout ≤ now then
      Sys.modify (countDown (s.watchers_ w).mode)
      let succ ← unlinkWatcher w
      let result ← timeoutLoop now fuel succ
      return .timeout w :: result
    else return []

/-- The timers that are handed out. -/
def popTimers (now : UInt64) : Sys (PosixScheduler τ) (List (Timer τ)) := fun s =>
  (.ok (s.timers_.takeWhile (·.when_ ≤ now)),
    { s with timers_ := s.timers_.dropWhile (·.when_ ≤ now) })

def collectTimeouts (now : UInt64) : Sys (PosixScheduler τ) (List (Due τ)) := do
  let s ← Sys.get
  let watchers ← timeoutLoop now kWatchers s.firstWatcher_
  let timers ← popTimers now
  return watchers ++ timers.map .timer

/-- The mode under which a watcher is active, if it is. -/
def activeMode (w : Watcher τ) (input output : Int → Bool) : Option Mode :=
  if input w.fd then some .READABLE else if output w.fd then some .WRITABLE else none

def handleLoop (input output : Int → Bool) : Nat → Option Nat → Sys (PosixScheduler τ) (List (Due τ))
  | _, none => return []
  | 0, some _ => Sys.reads fun _ => .diverge
  | fuel+1, some w => do
    let s ← Sys.get
    match activeMode (s.watchers_ w) input output with
    | some mode =>
      Sys.modify (countDown mode)
      let succ ← unlinkWatcher w
      let result ← handleLoop input output fuel succ
      return .io ( Watcher.onIO (s.watchers_ w)) :: result
    | none => handleLoop input output fuel (s.watchers_ w).next

def collectActiveHandles (input output : Int → Bool) : Sys (PosixScheduler τ) (List (Due τ)) := do
  let s ← Sys.get
  handleLoop input output kWatchers s.firstWatcher_

def nextTimeout (now : UInt64) (s : PosixScheduler τ) : UInt64 :=
  if s.tasks_ ≠ [] then 0
  else
    let a := match s.timers_ with
      | job :: _ => minus job.when_ now
      | [] => 5*1000000
    let b := match s.firstWatcher_ with
      | some w => minus (s.watchers_ w).timeout now
      | none => 6*1000000
    min a b

/-- A call of `collectTimeouts`: the timers before it, and those that it hands out. -/
structure Collected (τ : Type) where
  pending : List (Timer τ)
  now : UInt64
  handed : List (Timer τ)
  deriving DecidableEq

/-- A call of `nextTimeout`. -/
structure Waited (τ : Type) where
  pending : List (Timer τ)
  now : UInt64
  timeout : UInt64
  deriving DecidableEq

/-- The scheduler, the clocks, and what the calls of the event loop came to. A call that does not end
keeps the mutex, and nothing else happens. -/
structure World (τ : Type) where
  sched : PosixScheduler τ := {}
  now : UInt64 := 0
  wall : UInt64 := 0
  timers : Nat := 0
  collected : List (Collected τ) := []
  waited : List (Waited τ) := []
  hung : Bool := false

inductive Action (τ : Type) where
  | tick (now wall : UInt64)
  | execute (task : τ)
  | takeTasks
  | executeAfter (delay : UInt64) (task : τ)
  | executeAt (when_ : UInt64) (task : τ)
  | cancel (number : Nat)
  | executeOn (mode : Mode) (fd : Int) (task : τ) (tmo : UInt64) (tcb : Option τ)
  | collectActiveHandles (input output : List Int)
  | collectTimeouts
  | nextTimeout

namespace World

/-- What is left of a call. An exception goes to the caller. -/
def after {α : Type} (w : World τ) : Result α × PosixScheduler τ → World τ
  | (.diverge, s) => { w with sched := s, hung := true }
  | (_, s) => { w with sched := s }

def timersOf (dues : List (Due τ)) : List (Timer τ) :=
  dues.filterMap fun
    | .timer job => some job
    | _ => none

def enter (w : World τ) : Action τ → World τ
  | .tick now wall => { w with now := now, wall := wall }
  | .execute task => { w with sched := w.sched.execute task }
  | .takeTasks => { w with sched := { w.sched with tasks_ := [] } }
  | .executeAfter delay task =>
    { w with sched := w.sched.executeAfter w.now w.timers delay task, timers := w.timers+1 }
  | .executeAt when_ task =>
    { w with sched := w.sched.executeAt w.now w.wall w.timers when_ task, timers := w.timers+1 }
  | .cancel number => { w with sched := w.sched.onCancel number }
  | .executeOn mode fd task tmo tcb =>
    w.after (PosixScheduler.executeOn w.now mode fd task tmo tcb w.sched)
  | .collectActiveHandles input output =>
    w.after (PosixScheduler.collectActiveHandles (· ∈ input) (· ∈ output) w.sched)
  | .collectTimeouts =>
    match PosixScheduler.collectTimeouts w.now w.sched with
    | (.ok dues, s) =>
      { w with sched := s, collected := w.collected ++ [⟨w.sched.timers_, w.now, timersOf dues⟩] }
    | other => w.after other
  | .nextTimeout =>
    { w with waited := w.waited ++ [⟨w.sched.timers_, w.now, w.sched.nextTimeout w.now⟩] }

/-- The clock does not go back. -/
def Possible (w : World τ) : Action τ → Prop
  | .tick now _ => w.now ≤ now
  | _ => True

instance (w : World τ) : (a : Action τ) → Decidable (w.Possible a)
  | .tick now _ => inferInstanceAs (Decidable (w.now ≤ now))
  | .execute _ | .takeTasks | .executeAfter .. | .executeAt .. | .cancel _ | .executeOn ..
  | .collectActiveHandles .. | .collectTimeouts | .nextTimeout => inferInstanceAs (Decidable True)

def step (w : World τ) (a : Action τ) : Option (World τ) :=
  if w.hung = false ∧ w.Possible a then some (w.enter a) else none

theorem eq_enter_of_step {w u : World τ} {a : Action τ} (h : w.step a = some u) : u = w.enter a := by
  obtain ⟨-, heq⟩ := Option.ite_none_right_eq_some.1 h
  exact (Option.some.inj heq).symm

end World

end PosixScheduler
end Stx.Executor
