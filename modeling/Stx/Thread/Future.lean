import Stx.Base
import Stx.Lib.Runs

/-! `thread/future_impl.h`: a promise, its futures and the functions that are registered on them, with
`status.{h,cc}` as far as they need it. The sections that hold the mutex are the steps. -/
namespace Stx

/-- `kStatusType`. -/
inductive StatusType where
  | success | bufferOverflowError | concurrentModificationError | divideByZeroError | flagError
  | foreignError | ioError | illegalArgumentError | illegalFormatError | illegalStateError
  | indexError | invalidOptionError | keyError | mallocError | noSuchMethodError
  | notImplementedError | notYetImplementedError | nullPointerError | parseError | rangeError
  | reflectionError | resolveError | rpcError | runtimeError | typeError | usageError
  | versionMismatchError | wouldBlockError
  deriving DecidableEq

structure Status where
  type : StatusType
  message : Bytes := []
  deriving DecidableEq

def Status.isError (s : Status) : Bool := s.type ≠ .success

def Status.isSuccess (s : Status) : Bool := s.type = .success

namespace Future

/-- What a function is called with; `null` is a reference to `*value` where there is none. -/
inductive Argument (υ : Type) where
  | value (v : υ)
  | status (s : Status)
  | nothing
  | null
  deriving DecidableEq

structure Call (κ υ : Type) where
  fn : κ
  argument : Argument υ
  deriving DecidableEq

/-- A call of `onSuccess`, `onFailure` or `onReady`. -/
inductive Registration (κ : Type) where
  | onSuccess (fn : κ)
  | onFailure (fn : κ)
  | onReady (fn : κ)
  deriving DecidableEq

/-- What the promise was fulfilled with. -/
inductive Outcome (υ : Type) where
  | success (value : υ)
  | failure (status : Status)
  deriving DecidableEq

/-- What can happen: a registration, the section of a call that fulfils the promise, and the rest of
that call. -/
inductive Action (κ υ : Type) where
  | register (r : Registration κ)
  | fulfill (o : Outcome υ)
  | invoke

end Future

open Future

/-- The slots hold what is to be called, given the value or the status. -/
structure PromiseState (κ υ : Type) where
  status : Status := { type := .success }
  ready : Bool := false
  value : Option υ := none
  on_failure : Option (Status → Call κ υ) := none
  on_success : Option (υ → Call κ υ) := none

namespace PromiseState
variable {κ υ : Type}

def onFailure (s : PromiseState κ υ) (fn : κ) : List (Call κ υ) × PromiseState κ υ :=
  if !s.ready then ([], { s with on_failure := some fun status => ⟨fn, .status status⟩ })
  else if s.status.isError then ([⟨fn, .status s.status⟩], s)
  else ([], s)

def onSuccess (s : PromiseState κ υ) (fn : κ) : List (Call κ υ) × PromiseState κ υ :=
  if !s.ready then ([], { s with on_success := some fun value => ⟨fn, .value value⟩ })
  else if s.status.isSuccess then
    match s.value with
    | some value => ([⟨fn, .value value⟩], s)
    | none => ([⟨fn, .null⟩], s)
  else ([], s)

def onReady (s : PromiseState κ υ) (fn : κ) : List (Call κ υ) × PromiseState κ υ :=
  if s.ready then ([⟨fn, .nothing⟩], s)
  else
    ([], { s with
      on_success := some fun _ => ⟨fn, .nothing⟩, on_failure := some fun _ => ⟨fn, .nothing⟩ })

def register (s : PromiseState κ υ) : Registration κ → List (Call κ υ) × PromiseState κ υ
  | .onSuccess fn => s.onSuccess fn
  | .onFailure fn => s.onFailure fn
  | .onReady fn => s.onReady fn

/-- The section of `Promise::failure`. -/
def failure (s : PromiseState κ υ) (status : Status) : Result (PromiseState κ υ) :=
  if s.ready then Result.RAISE .futureError "promise was already fulfilled"
  else .ok { s with status := status, ready := true }

/-- The section of `Promise::success`. -/
def success (s : PromiseState κ υ) (value : υ) : Result (PromiseState κ υ) :=
  if s.ready then Result.RAISE .futureError "promise was already fulfilled"
  else .ok { s with value := some value, ready := true }

def fulfill (s : PromiseState κ υ) : Outcome υ → Result (PromiseState κ υ)
  | .success value => s.success value
  | .failure status => s.failure status

/-- What `success` and `failure` call behind their sections. -/
def invoke (s : PromiseState κ υ) : Outcome υ → List (Call κ υ)
  | .success value => (s.on_success.map fun fn => fn value).toList
  | .failure status => (s.on_failure.map fun fn => fn status).toList

end PromiseState

/-- A promise with the calls that were made so far. Of the registrations, `early` are those that
found it pending and `late` the others; `returned` says that the call that fulfilled it has ended. -/
structure Future (κ υ : Type) where
  state : PromiseState κ υ := {}
  calls : List (Call κ υ) := []
  early : List (Registration κ) := []
  late : List (Registration κ) := []
  outcome : Option (Outcome υ) := none
  returned : Bool := false
  raised : List Exception := []

namespace Future
variable {κ υ : Type}

def step (f : Future κ υ) : Action κ υ → Option (Future κ υ)
  | .register r =>
    let (calls, state) := f.state.register r
    if f.state.ready then
      some { f with state := state, calls := f.calls ++ calls, late := f.late ++ [r] }
    else some { f with state := state, calls := f.calls ++ calls, early := f.early ++ [r] }
  | .fulfill o =>
    match f.state.fulfill o with
    | .ok state => some { f with state := state, outcome := some o }
    | .raise e => some { f with raised := f.raised ++ [e] }
    | .diverge => none
  | .invoke =>
    match f.outcome, f.returned with
    | some o, false => some { f with calls := f.calls ++ f.state.invoke o, returned := true }
    | _, _ => none

end Future
end Stx
