import Stx.Http.HTTPServerConnection
import Stx.Lib.Runs

/-! `http/HTTPResponseStream.{h,cc}`, and what any number of threads do with one stream. Every
section under `mutex_` is one step, and so is every call of the connection behind a section. -/
namespace Stx.Http

/-- A write of the connection, with the data that it is given. -/
inductive ConnWrite where
  | writeResponse (resp : HTTPResponse)
  | writeResponseBody (data : Bytes)
  deriving DecidableEq

/-- A call of the connection. -/
inductive ConnCall where
  | write (w : ConnWrite)
  | finishResponse
  deriving DecidableEq

structure HTTPResponseStream where
  callback_running_ : Bool := false
  headers_written_ : Bool := false
  response_finished_ : Bool := false
  buf_ : Bytes := []
  error_ : Bool := false
  deriving DecidableEq

namespace HTTPResponseStream

def kMaxWriteBufferSize : Nat := 4 * 1024 * 1024

/-- What a thread goes on to. Only `conn_->finishResponse()` is called under the mutex, and
`bodyWritten` is the call of `on_body_written_`, if there is one. -/
inductive Next where
  | nothing
  | call (c : ConnCall)
  | bodyWritten
  deriving DecidableEq

/-- The part of `onStateChanged` for a `buf_` with data: at most `kMaxWriteBufferSize` bytes leave
it for the connection. -/
def handOver : Sys HTTPResponseStream Next := fun s =>
  (.ok (.call (.write (.writeResponseBody (s.buf_.take kMaxWriteBufferSize)))),
    { s with buf_ := s.buf_.drop kMaxWriteBufferSize, callback_running_ := true })

def onStateChanged : Sys HTTPResponseStream Next := do
  let s ← Sys.get
  if s.callback_running_ then return .nothing
  else if !s.headers_written_ then return .nothing -- should never happen!
  else if s.buf_.length > 0 then handOver
  else if s.response_finished_ then return .call .finishResponse
  else return .bodyWritten

def startResponse (resp : HTTPResponse) : Sys HTTPResponseStream Next := do
  Sys.reads fun s =>
    if s.headers_written_ then .RAISE .runtimeError "headers already written"
    else if s.error_ then .RAISE .ioError "client error"
    else .ok ()
  Sys.modify fun s => { s with headers_written_ := true, callback_running_ := true }
  return .call (.write (.writeResponse resp))

def checkClient : Sys HTTPResponseStream Unit := Sys.reads fun s =>
  if s.error_ then .RAISE .ioError "client error" else .ok ()

def writeBodyChunk (data : Bytes) : Sys HTTPResponseStream Next := do
  checkClient
  Sys.modify fun s => { s with buf_ := s.buf_ ++ data }
  onStateChanged

def finishResponse : Sys HTTPResponseStream Next := do
  let s ← Sys.get
  if s.response_finished_ then return .nothing
  else
    checkClient
    Sys.modify fun s => { s with response_finished_ := true }
    onStateChanged

def onCallbackCompleted : Sys HTTPResponseStream Next := do
  Sys.modify fun s => { s with callback_running_ := false }
  onStateChanged

def onCallbackError : Sys HTTPResponseStream Next := do
  Sys.modify fun s => { s with callback_running_ := false, error_ := true }
  return .nothing

/-- The two members that the connection is given as callbacks. -/
inductive StreamCallback where
  | completed
  | error
  deriving DecidableEq, Repr

def runWrite : ConnWrite → Sys (HTTPServerConnection StreamCallback) Unit
  | .writeResponse resp => HTTPServerConnection.writeResponse resp .completed .error
  | .writeResponseBody data => HTTPServerConnection.writeResponseBody data .completed .error

/-- The stream, its connection, and the threads. `pending` are the writes of threads that have left
the mutex and not yet called the connection, and `completing` are those of them that have the
`decRef()` of `onCallbackCompleted` to come; `outstanding` counts the writes that the connection has
taken and not yet called back for; `closing` is a connection between the error callback and its
`close()`. `made`, `accepted` and `closeRaised` record the calls of the connection, the chunks that
the stream took, and whether a `close()` raised. -/
structure World where
  stream : HTTPResponseStream := {}
  conn : HTTPServerConnection StreamCallback
  refcount_ : Nat := 1
  pending : List ConnWrite := []
  completing : List ConnWrite := []
  outstanding : Nat := 0
  closing : Bool := false
  made : List ConnCall := []
  accepted : Bytes := []
  closeRaised : Bool := false

def raises {α : Type} : Result α → Bool
  | .ok _ => false
  | _ => true

namespace World

/-- The thread goes on. -/
def goOn (w : World) : Next → World
  | .call (.write write) => { w with pending := w.pending ++ [write] }
  | .call .finishResponse =>
    { w with
      conn := (HTTPServerConnection.finishResponse w.conn).2
      made := w.made ++ [.finishResponse]
      closeRaised := w.closeRaised || raises (HTTPServerConnection.finishResponse w.conn).1 }
  | .nothing | .bodyWritten => w

/-- A section of the stream. An exception goes to the caller. -/
def enter (w : World) (x : Sys HTTPResponseStream Next) : World :=
  match x w.stream with
  | (.ok next, s) => goOn { w with stream := s } next
  | (_, s) => { w with stream := s }

/-- The references that a thread gives back when it returns from a write. -/
def decRefs (w : World) (write : ConnWrite) : Nat := if write ∈ w.completing then 1 else 0

/-- A thread that has left the mutex calls the connection. The stream holds a reference to itself
from here to the callback. An exception goes past the `decRef()` of `onCallbackCompleted`. -/
def callWrite (w : World) (write : ConnWrite) : World :=
  { w with
    refcount_ := w.refcount_ + 1 - if raises (runWrite write w.conn).1 then 0 else w.decRefs write
    pending := w.pending.erase write
    completing := w.completing.erase write
    made := w.made ++ [.write write]
    conn := (runWrite write w.conn).2
    outstanding := w.outstanding + if raises (runWrite write w.conn).1 then 0 else 1 }

def callback (w : World) : World := { w with outstanding := w.outstanding - 1 }

/-- `onCallbackCompleted`, with the `decRef()` where no write of the connection comes before it. -/
def complete (w : World) : World :=
  let w' := w.callback.enter HTTPResponseStream.onCallbackCompleted
  match (HTTPResponseStream.onCallbackCompleted w.stream).1 with
  | .ok (.call (.write write)) => { w' with completing := w.completing ++ [write] }
  | .ok (.call .finishResponse) =>
    { w' with
      refcount_ :=
        w.refcount_ - if raises (HTTPServerConnection.finishResponse w.conn).1 then 0 else 1 }
  | _ => { w' with refcount_ := w.refcount_ - 1 }

/-- The connection closes itself behind the error callback. -/
def closeConn (w : World) : World :=
  { w with
    conn := (HTTPServerConnection.close w.conn).2, closing := false
    closeRaised := w.closeRaised || raises (HTTPServerConnection.close w.conn).1 }

end World

/-- What can happen next. `elsewhere` is anything that the connection does apart from the callbacks
and from finishing its request. -/
inductive Action where
  | startResponse (resp : HTTPResponse)
  | writeBodyChunk (data : Bytes)
  | finishResponse
  | callWrite (write : ConnWrite)
  | onCallbackCompleted
  | onCallbackError
  | close
  | elsewhere (conn : HTTPServerConnection StreamCallback)

def World.Possible (w : World) : Action → Prop
  | .callWrite write => write ∈ w.pending
  | .onCallbackCompleted | .onCallbackError => 0 < w.outstanding
  | .close => w.closing
  | .elsewhere conn =>
    conn.closed_ = w.conn.closed_ ∧ conn.stats_.current_requests = w.conn.stats_.current_requests
  | _ => True

instance (w : World) (a : Action) : Decidable (w.Possible a) :=
  match a with
  | .callWrite write => inferInstanceAs (Decidable (write ∈ w.pending))
  | .onCallbackCompleted | .onCallbackError => inferInstanceAs (Decidable (0 < w.outstanding))
  | .close => inferInstanceAs (Decidable (w.closing = true))
  | .elsewhere conn =>
    inferInstanceAs (Decidable (conn.closed_ = w.conn.closed_ ∧
      conn.stats_.current_requests = w.conn.stats_.current_requests))
  | .startResponse _ | .writeBodyChunk _ | .finishResponse => inferInstanceAs (Decidable True)

def World.act (w : World) : Action → World
  | .startResponse resp => w.enter (HTTPResponseStream.startResponse resp)
  | .writeBodyChunk data =>
    let w := if w.stream.error_ then w else { w with accepted := w.accepted ++ data }
    w.enter (HTTPResponseStream.writeBodyChunk data)
  | .finishResponse => w.enter HTTPResponseStream.finishResponse
  | .callWrite write => w.callWrite write
  | .onCallbackCompleted => w.complete
  | .onCallbackError =>
    { w.callback.enter HTTPResponseStream.onCallbackError with
      refcount_ := w.refcount_ - 1, closing := true }
  | .close => w.closeConn
  | .elsewhere conn => { w with conn }

def World.step (w : World) (a : Action) : Option World :=
  if w.Possible a then some (w.act a) else none

end HTTPResponseStream
end Stx.Http
