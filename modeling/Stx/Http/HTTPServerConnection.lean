import Stx.Http.HTTPRequest
import Stx.Http.HTTPGenerator

/-! `http/httpserverconnection.{h,cc}`, over `net/tcpconnection.cc`. What a thread does while it
holds `mutex_` is one call; what it goes on to without the mutex is the answer of the call. -/
namespace Stx.Net

/-- `errno` after a system call that failed. -/
inductive Errno where
  | wouldBlock
  | other (text : Bytes)
  deriving DecidableEq, Repr

/-- `strerror_r`. -/
def Errno.strerror : Errno → Bytes
  | wouldBlock => lit "Resource temporarily unavailable"
  | other text => text

def RAISE_ERRNO {α : Type} (type : ErrorType) (message : String) (errno : Errno) : Result α :=
  .raise (.printf type (lit message ++ lit ": " ++ errno.strerror))

namespace TCPConnection

/-- `read()`, from what the system call gave. -/
def read : Except Errno Bytes → Result Bytes
  | .ok data => .ok data
  | .error .wouldBlock => .RAISE .wouldBlockError
  | .error errno => RAISE_ERRNO .ioError "read() failed" errno

/-- `write()`. A call that would block is an error like any other here. -/
def write : Except Errno Nat → Result Nat
  | .ok len => .ok len
  | .error errno => RAISE_ERRNO .ioError "write() failed" errno

end TCPConnection
end Stx.Net

namespace Stx.Http

/-- `stx::Buffer` with its mark. -/
structure MarkedBuffer where
  data : Bytes := []
  mark : Nat := 0
  deriving DecidableEq

namespace MarkedBuffer

def append (b : MarkedBuffer) (data : Bytes) : MarkedBuffer := { b with data := b.data ++ data }
def setMark (b : MarkedBuffer) (mark : Nat) : MarkedBuffer := { b with mark }
def clear (_ : MarkedBuffer) : MarkedBuffer := {}

/-- What is left between the mark and the size. -/
def unsent (b : MarkedBuffer) : Bytes := b.data.drop b.mark

end MarkedBuffer

/-- The call of a body callback that `readRequestBody` passes to `runAsync`. -/
structure Task (κ : Type) where
  callback : κ
  chunk : Bytes
  last_chunk : Bool
  deriving DecidableEq, Repr

/-- What the connection asks of its `TaskScheduler`. -/
inductive Request (κ : Type) where
  | runOnReadable
  | runOnWritable
  | cancelFD
  | runAsync (task : Task κ)
  deriving DecidableEq, Repr

def Request.task? {κ : Type} : Request κ → Option (Task κ)
  | runAsync task => some task
  | _ => none

/-- The counters of `HTTPServerStats` that a connection changes after it was made. -/
structure HTTPServerStats where
  total_requests : UInt64 := 0
  current_requests : UInt64 := 0
  received_bytes : UInt64 := 0
  sent_bytes : UInt64 := 0

/-- Callbacks are values of any type `κ`. Without an `on_body_chunk_cb_` the parser has the
callback that `nextRequest` gave it, which only fills `body_buf_`. -/
structure HTTPServerConnection (κ : Type) where
  parser_ : HTTPParser
  on_body_chunk_cb_ : Option κ := none
  on_write_completed_cb_ : Option κ := none
  on_error_cb_ : Option κ := none
  write_buf_ : MarkedBuffer := {}
  body_buf_ : Bytes := []
  cur_request_ : HTTPRequest := {}
  closed_ : Bool := false
  scheduler_ : List (Request κ) := []
  stats_ : HTTPServerStats := {}

namespace HTTPServerConnection
variable {κ : Type}

/-- What a thread does when it has left the mutex: nothing, the call of
`on_write_completed_cb_`, or `close()`. In the last case `on_error_cb_` was called before. -/
inductive Next (κ : Type) where
  | nothing
  | writeCompleted
  | close (on_error : Option κ)
  deriving DecidableEq, Repr

/-- The parser callbacks that the constructor and `nextRequest` set. -/
def callbacks : Callback → Bool
  | .statusCode | .statusName => false
  | _ => true

def schedule (request : Request κ) : Sys (HTTPServerConnection κ) Unit := Sys.modify fun c =>
  { c with scheduler_ := c.scheduler_ ++ [request] }

def checkOpen (error : String) : Sys (HTTPServerConnection κ) Unit := Sys.reads fun c =>
  if c.closed_ then .RAISE .illegalStateError error else .ok ()

def awaitRead : Sys (HTTPServerConnection κ) Unit := do
  checkOpen "read() on closed HTTP connection"
  schedule .runOnReadable

def awaitWrite : Sys (HTTPServerConnection κ) Unit := do
  checkOpen "write() on closed HTTP connection"
  schedule .runOnWritable

def nextRequest : Sys (HTTPServerConnection κ) Unit := do
  Sys.modify fun c =>
    { c with
      parser_ := (HTTPParser.reset c.parser_).2, cur_request_ := {}
      on_write_completed_cb_ := none, on_error_cb_ := none, body_buf_ := []
      on_body_chunk_cb_ := none }
  awaitRead

/-- A connection as `start` leaves it. -/
def start (stats : HTTPServerStats) : HTTPServerConnection κ :=
  (nextRequest { parser_ := HTTPParser.new .request callbacks, stats_ := stats }).2

/-- `dispatchRequest`. The handler that it calls runs sections of its own. -/
def dispatchRequest (c : HTTPServerConnection κ) : HTTPServerConnection κ :=
  { c with
    stats_ :=
      { c.stats_ with
        total_requests := c.stats_.total_requests + 1
        current_requests := c.stats_.current_requests + 1 } }

/-- The lambda of `readRequestBody`. -/
def read_body_chunk_fn (callback : κ) (data : Bytes) (c : HTTPServerConnection κ) :
    HTTPServerConnection κ :=
  let chunk := c.body_buf_ ++ data
  let last_chunk := decide (c.parser_.state_ = .done)
  if last_chunk ∨ 0 < chunk.length then
    { c with
      scheduler_ := c.scheduler_ ++ [.runAsync ⟨callback, chunk, last_chunk⟩], body_buf_ := [] }
  else { c with body_buf_ := chunk }

/-- The callbacks of the parser. -/
def onEvent (c : HTTPServerConnection κ) : Event → HTTPServerConnection κ
  | .headersComplete => dispatchRequest c
  | .bodyChunk data =>
    match c.on_body_chunk_cb_ with
    | none => { c with body_buf_ := c.body_buf_ ++ data }
    | some callback => read_body_chunk_fn callback data c
  | event => { c with cur_request_ := c.cur_request_.onEvent event }

/-- The parser with no callback made yet. -/
def clearCalls (p : HTTPParser) : HTTPParser := { p with calls := [] }

/-- `parser_.parse(...)` with the callbacks that it makes. A body chunk is the last of them in a
request, so that it meets the parser in the state that the call leaves it in. -/
def parse (data : Bytes) : Sys (HTTPServerConnection κ) Unit := fun c =>
  let (r, p) := HTTPParser.parse data (clearCalls c.parser_)
  (r, p.calls.foldl onEvent { c with parser_ := p })

def eof : Sys (HTTPServerConnection κ) Unit := fun c =>
  let (r, p) := HTTPParser.eof c.parser_
  (r, { c with parser_ := p })

/-- `on_error_cb_()`, and `close()` after the mutex. -/
def giveUp : Sys (HTTPServerConnection κ) (Next κ) := Sys.reads fun c => .ok (.close c.on_error_cb_)

/-- `try { ... } catch (Exception& e)`. -/
def tryCatch {α β : Type} (x : Sys (HTTPServerConnection κ) α)
    (ok : α → Sys (HTTPServerConnection κ) β)
    (handler : Exception → Sys (HTTPServerConnection κ) β) : Sys (HTTPServerConnection κ) β :=
  fun c =>
    match x c with
    | (.ok a, c) => ok a c
    | (.raise e, c) => handler e c
    | (.diverge, c) => (.diverge, c)

/-- `read()` behind a `parse` that returned: the request is complete, or there is more of it. -/
def readMore : Sys (HTTPServerConnection κ) (Next κ) := do
  let c ← Sys.get
  if c.parser_.state_ = .done then return .nothing
  else
    awaitRead
    return .nothing

/-- `read()` with what the socket gave; nothing is the end of the stream. -/
def readData : Bytes → Sys (HTTPServerConnection κ) (Next κ)
  | [] => tryCatch eof (fun _ => giveUp) fun _ => giveUp
  | data => tryCatch (parse data) (fun _ => readMore) fun _ => giveUp

def countReceived (len : Nat) (c : HTTPServerConnection κ) : HTTPServerConnection κ :=
  { c with
    stats_ := { c.stats_ with received_bytes := c.stats_.received_bytes + len.toUInt64 } }

/-- `read()`, where `conn_->read(...)` has the outcome `res`. -/
def read (res : Result Bytes) : Sys (HTTPServerConnection κ) (Next κ) :=
  tryCatch (Sys.reads fun _ => res)
    (fun data => do
      Sys.modify (countReceived data.length)
      readData data)
    fun e =>
      if e.type = .wouldBlockError then do
        awaitRead
        return .nothing
      else giveUp

def countSent (len : Nat) (c : HTTPServerConnection κ) : HTTPServerConnection κ :=
  { c with
    write_buf_ := c.write_buf_.setMark (c.write_buf_.mark + len)
    stats_ := { c.stats_ with sent_bytes := c.stats_.sent_bytes + len.toUInt64 } }

/-- `write()` behind a write to the socket that returned. -/
def writeMore : Sys (HTTPServerConnection κ) (Next κ) := do
  let c ← Sys.get
  if c.write_buf_.mark < c.write_buf_.data.length then
    awaitWrite
    return .nothing
  else
    Sys.modify fun c => { c with write_buf_ := c.write_buf_.clear }
    return .writeCompleted

/-- `write()`, where `conn_->write(...)` has the outcome `res`. -/
def write (res : Result Nat) : Sys (HTTPServerConnection κ) (Next κ) :=
  tryCatch (Sys.reads fun _ => res)
    (fun len => do
      Sys.modify (countSent len)
      writeMore)
    fun e =>
      if e.type = .wouldBlockError then do
        awaitWrite
        return .nothing
      else giveUp

/-- The states in which `readRequestBody` has a body to read. -/
def headersParsed : ParserState → Bool
  | .body | .done => true
  | _ => false

/-- The first section of `readRequestBody`. The thread goes on to `read_body_chunk_fn` without
data, in a section of its own. -/
def readRequestBody (callback on_error : κ) : Sys (HTTPServerConnection κ) Unit := do
  Sys.reads fun c =>
    if headersParsed c.parser_.state_ then .ok ()
    else .RAISE .illegalStateError "can't read body before headers are parsed"
  Sys.modify fun c =>
    { c with on_body_chunk_cb_ := some callback, on_error_cb_ := some on_error }

def checkRequestRead : Sys (HTTPServerConnection κ) Unit := Sys.reads fun c =>
  if c.parser_.state_ ≠ .done then
    .RAISE .illegalStateError "can't write response before request is read"
  else .ok ()

/-- `BufferOutputStream os(&write_buf_)`. -/
def toWriteBuf (x : Sys Bytes Unit) : Sys (HTTPServerConnection κ) Unit := fun c =>
  let (r, data) := x c.write_buf_.data
  (r, { c with write_buf_ := { c.write_buf_ with data } })

def setCallbacks (ready_callback on_error : κ) : Sys (HTTPServerConnection κ) Unit :=
  Sys.modify fun c =>
    { c with on_write_completed_cb_ := some ready_callback, on_error_cb_ := some on_error }

def writeResponse (resp : HTTPResponse) (ready_callback on_error : κ) :
    Sys (HTTPServerConnection κ) Unit := do
  checkRequestRead
  toWriteBuf (HTTPGenerator.writeResponse resp)
  setCallbacks ready_callback on_error
  awaitWrite

def writeResponseBody (data : Bytes) (ready_callback on_error : κ) :
    Sys (HTTPServerConnection κ) Unit := do
  checkRequestRead
  Sys.modify fun c => { c with write_buf_ := c.write_buf_.append data }
  setCallbacks ready_callback on_error
  awaitWrite

def close : Sys (HTTPServerConnection κ) Unit := do
  checkOpen "HTTP connection is already closed"
  Sys.modify fun c => { c with closed_ := true }
  schedule .cancelFD

/-- Connections are not kept alive. -/
def finishResponse : Sys (HTTPServerConnection κ) Unit := do
  Sys.modify fun c =>
    { c with stats_ := { c.stats_ with current_requests := c.stats_.current_requests - 1 } }
  close

theorem keeps_tryCatch {R : HTTPServerConnection κ → HTTPServerConnection κ → Prop}
    (trans : ∀ c d e, R c d → R d e → R c e) {α β : Type} {x : Sys (HTTPServerConnection κ) α}
    {ok : α → Sys (HTTPServerConnection κ) β} {handler : Exception → Sys (HTTPServerConnection κ) β}
    (hx : x.Keeps R) (hok : ∀ a, (ok a).Keeps R) (hhandler : ∀ e, (handler e).Keeps R) :
    (tryCatch x ok handler).Keeps R := by
  intro c
  have hc := hx c
  unfold tryCatch
  cases hxc : x c with
  | mk r d =>
    rw [hxc] at hc
    cases r with
    | ok a => exact trans _ _ _ hc (hok a d)
    | raise e => exact trans _ _ _ hc (hhandler e d)
    | diverge => exact hc

theorem checkOpen_of_open {c : HTTPServerConnection κ} (h : c.closed_ = false) (error : String) :
    checkOpen error c = (.ok (), c) := by
  simp [checkOpen, h]

theorem checkOpen_of_closed {c : HTTPServerConnection κ} (h : c.closed_ = true) (error : String) :
    checkOpen error c = (.raise ⟨.illegalStateError, lit error⟩, c) := by
  simp [checkOpen, h, Result.RAISE]

theorem awaitWrite_of_open {c : HTTPServerConnection κ} (h : c.closed_ = false) :
    awaitWrite c = (.ok (), { c with scheduler_ := c.scheduler_ ++ [.runOnWritable] }) :=
  Sys.bind_of_ok (checkOpen_of_open h _)

theorem awaitWrite_of_closed {c : HTTPServerConnection κ} (h : c.closed_ = true) :
    awaitWrite c = (.raise ⟨.illegalStateError, lit "write() on closed HTTP connection"⟩, c) :=
  Sys.bind_of_raise (checkOpen_of_closed h _)

theorem checkRequestRead_of_done {c : HTTPServerConnection κ} (h : c.parser_.state_ = .done) :
    checkRequestRead c = (.ok (), c) := by
  simp [checkRequestRead, h]

theorem checkRequestRead_of_not_done {c : HTTPServerConnection κ} (h : c.parser_.state_ ≠ .done) :
    checkRequestRead c =
      (.raise ⟨.illegalStateError, lit "can't write response before request is read"⟩, c) := by
  simp [checkRequestRead, h, Result.RAISE]

/-- What is generated of a response comes to `write_buf_`, also where an exception follows. -/
theorem toWriteBuf_writeResponse (resp : HTTPResponse) (c : HTTPServerConnection κ) :
    toWriteBuf (HTTPGenerator.writeResponse resp) c =
      ((HTTPGenerator.writeResponse resp []).1,
        { c with write_buf_ := c.write_buf_.append (HTTPGenerator.responseText resp) }) := by
  rw [toWriteBuf, HTTPGenerator.appends_writeResponse resp c.write_buf_.data]
  rfl

/-- A section under the mutex, with what it is given. -/
inductive Section (κ : Type) where
  | read (res : Result Bytes)
  | write (res : Result Nat)
  | readRequestBody (callback on_error : κ)
  | read_body_chunk_fn (callback : κ) (data : Bytes)
  | writeResponse (resp : HTTPResponse) (ready_callback on_error : κ)
  | writeResponseBody (data : Bytes) (ready_callback on_error : κ)
  | finishResponse
  | close

def Section.run : Section κ → Sys (HTTPServerConnection κ) (Next κ)
  | .read res => HTTPServerConnection.read res
  | .write res => HTTPServerConnection.write res
  | .readRequestBody callback on_error => do
    HTTPServerConnection.readRequestBody callback on_error
    return .nothing
  | .read_body_chunk_fn callback data => fun c =>
    (.ok .nothing, HTTPServerConnection.read_body_chunk_fn callback data c)
  | .writeResponse resp ready_callback on_error => do
    HTTPServerConnection.writeResponse resp ready_callback on_error
    return .nothing
  | .writeResponseBody data ready_callback on_error => do
    HTTPServerConnection.writeResponseBody data ready_callback on_error
    return .nothing
  | .finishResponse => do
    HTTPServerConnection.finishResponse
    return .nothing
  | .close => do
    HTTPServerConnection.close
    return .nothing

end HTTPServerConnection
end Stx.Http
