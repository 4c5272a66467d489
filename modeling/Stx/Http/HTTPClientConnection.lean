import Stx.Http.HTTPServerConnection

/-! `http/httpclientconnection.{h,cc}`, `httpresponsefuture.cc` and `httpconnectionpool.cc` on an
event loop: what it calls for a descriptor is one step. It runs the tasks of a wakeup within it. -/
namespace Stx.Http

/-- Nothing is read at the end of the file. -/
def HTTPParser.receive (data : Bytes) : Sys HTTPParser Unit :=
  if data = [] then eof else parse data

/-- A call of a function of `HTTPResponseHandler`. -/
inductive HandlerCall where
  | event (event : Event)
  | responseComplete
  | error (e : Exception)
  deriving DecidableEq

/-- `HTTPResponseFuture`, with all that its promise is fulfilled with. It deletes itself with the
first of them. -/
structure HTTPResponseFuture where
  res_ : HTTPResponse := {}
  promise_ : List (Except Exception HTTPResponse) := []

namespace HTTPResponseFuture

def onEvent (res : HTTPResponse) : Event → HTTPResponse
  | .version version => { res with version_ := version }
  | .statusCode status_code => { res with status_code_ := status_code }
  | .statusName status => { res with status_ := status }
  | .header key value => { res with toHTTPMessage := res.addHeader key value }
  | .bodyChunk data => { res with toHTTPMessage := res.appendBody data }
  | _ => res

def call (future : HTTPResponseFuture) : HandlerCall → HTTPResponseFuture
  | .event event => { future with res_ := onEvent future.res_ event }
  | .responseComplete => { future with promise_ := future.promise_ ++ [.ok future.res_] }
  | .error e => { future with promise_ := future.promise_ ++ [.error e] }

/-- A future behind the calls of its functions. -/
def after (calls : List HandlerCall) : HTTPResponseFuture := calls.foldl call {}

end HTTPResponseFuture

structure HTTPClientStats where
  current_connections : UInt64 := 0
  total_connections : UInt64 := 0
  current_requests : UInt64 := 0
  total_requests : UInt64 := 0
  received_bytes : UInt64 := 0
  sent_bytes : UInt64 := 0

/-- `kHTTPClientConnectionState`. -/
inductive ClientState where
  | idle | busy | closed
  deriving DecidableEq

/-- What the scheduler waits for on behalf of a connection. -/
inductive Interest where
  | readable | writable
  deriving DecidableEq

/-- A task that waits for a wakeup. Connections and handlers have numbers. -/
inductive WakeupTask (α : Type) where
  | parkConnection (conn : Nat) (addr : α)
  | responseComplete (handler : Nat)
  deriving DecidableEq

/-- The other side of a socket: what was written to it, and what the reads gave. -/
structure Wire where
  sent : Bytes := []
  received : List Bytes := []

structure HTTPClientConnection (α : Type) where
  conn_ : Wire := {}
  scheduler_ : List Interest := []
  state_ : ClientState := .idle
  parser_ : HTTPParser := HTTPParser.new .response fun _ => false
  buf_ : MarkedBuffer := {}
  cur_handler_ : Option Nat := none
  on_ready_ : List (WakeupTask α) := []
  keepalive_ : Bool := false
  deleted : Nat := 0

/-- What the connections of a pool have in common: its counters, its cache, the calls of the
handlers, and whether a connection was used behind its deletion. -/
structure Shared (α : Type) where
  stats_ : HTTPClientStats := {}
  connection_cache_ : List (α × Nat) := []
  calls : List (Nat × HandlerCall) := []
  misused : Bool := false

structure Client (α : Type) where
  conn : HTTPClientConnection α
  shared : Shared α

namespace HTTPClientConnection
variable {α : Type}

/-- A connection as the constructor leaves it. -/
def new : HTTPClientConnection α := { conn_ := {} }

def modify (f : HTTPClientConnection α → HTTPClientConnection α) : Sys (Client α) Unit :=
  Sys.modify fun c => { c with conn := f c.conn }

def modifyStats (f : HTTPClientStats → HTTPClientStats) : Sys (Client α) Unit :=
  Sys.modify fun c => { c with shared := { c.shared with stats_ := f c.shared.stats_ } }

/-- Calls of `cur_handler_`. -/
def tell (calls : List HandlerCall) : Sys (Client α) Unit := Sys.modify fun c =>
  { c with
    shared :=
      { c.shared with
        calls := c.shared.calls ++ c.conn.cur_handler_.toList.flatMap fun h => calls.map (h, ·) } }

/-- The callbacks that `executeRequest` gives to the parser. -/
def callbacks : Callback → Bool
  | .method | .uri => false
  | _ => true

def awaitRead : Sys (Client α) Unit := modify fun conn =>
  { conn with scheduler_ := conn.scheduler_ ++ [.readable] }

def awaitWrite : Sys (Client α) Unit := modify fun conn =>
  { conn with scheduler_ := conn.scheduler_ ++ [.writable] }

def close : Sys (Client α) Unit := do
  Sys.reads fun c =>
    if c.conn.state_ = .closed then .RAISE .illegalStateError "connection already closed"
    else .ok ()
  modify fun conn => { conn with state_ := .closed, scheduler_ := [] }

def keepalive : Sys (Client α) Unit := modify fun conn =>
  { conn with
    state_ := .idle, parser_ := (HTTPParser.reset conn.parser_).2, buf_ := conn.buf_.clear,
    keepalive_ := false }

/-- `scheduler_->runOnNextWakeup(task, &on_ready_)`. -/
def runOnNextWakeup (task : WakeupTask α) : Sys (Client α) Unit := modify fun conn =>
  { conn with on_ready_ := conn.on_ready_ ++ [task] }

def isIdle (conn : HTTPClientConnection α) : Bool := conn.state_ = .idle

/-- A member of the connection is used. -/
def use : Sys (Client α) Unit := Sys.modify fun c =>
  { c with shared.misused := c.shared.misused || c.conn.deleted ≠ 0 }

/-- `delete conn`. -/
def delete : Sys (Client α) Unit := do
  modifyStats fun stats => { stats with current_connections := stats.current_connections-1 }
  let c ← Sys.get
  if c.conn.state_ ≠ .closed then close
  modify fun conn => { conn with deleted := conn.deleted+1 }

end HTTPClientConnection

section
variable {α : Type}

/-- `parkConnection`, for a connection with its number. -/
def HTTPConnectionPool.parkConnection (i : Nat) (addr : α) : Sys (Client α) Unit := do
  HTTPClientConnection.use
  let c ← Sys.get
  if c.conn.isIdle then
    Sys.modify fun c =>
      { c with shared.connection_cache_ := c.shared.connection_cache_ ++ [(addr, i)] }
  else HTTPClientConnection.delete

def WakeupTask.run : WakeupTask α → Sys (Client α) Unit
  | .parkConnection i addr => HTTPConnectionPool.parkConnection i addr
  | .responseComplete handler => Sys.modify fun c =>
    { c with shared.calls := c.shared.calls ++ [(handler, .responseComplete)] }

end

namespace HTTPClientConnection
variable {α : Type}

/-- `on_ready_.wakeup()`. On the thread of the event loop, `run` of a task calls it at once. -/
def wakeup : Sys (Client α) Unit := do
  let c ← Sys.get
  modify fun conn => { conn with on_ready_ := [] }
  c.conn.on_ready_.forM WakeupTask.run

/-- The wakeup may have deleted the connection whose handler is called. -/
def error (e : Exception) : Sys (Client α) Unit := do
  let c ← Sys.get
  if c.conn.cur_handler_.isSome then
    modifyStats fun stats => { stats with current_requests := stats.current_requests-1 }
  wakeup
  use
  tell [.error e]

def tryCatch {β γ : Type} (x : Sys (Client α) β) (ok : β → Sys (Client α) γ)
    (handler : Exception → Sys (Client α) γ) : Sys (Client α) γ := fun c =>
  match x c with
  | (.ok a, c) => ok a c
  | (.raise e, c) => handler e c
  | (.diverge, c) => (.diverge, c)

/-- The parser in `executeRequest`. -/
def setUp (request : HTTPRequest) (parser : HTTPParser) : HTTPParser :=
  let parser := { parser with registered := callbacks }
  if request.method_ = .head then (HTTPParser.ignoreBody parser).2 else parser

def executeRequest (request : HTTPRequest) (response_handler : Nat) : Sys (Client α) Unit := do
  Sys.reads fun c =>
    if c.conn.state_ ≠ .idle then
      .RAISE .illegalStateError "executeRequest called on non-idle HTTP connection"
    else .ok ()
  modify fun conn =>
    { conn with parser_ := setUp request conn.parser_, buf_ := conn.buf_.clear }
  let text ← Sys.reads fun _ => HTTPGenerator.generate request
  modify fun conn =>
    { conn with
      buf_ := conn.buf_.append text, state_ := .busy, cur_handler_ := some response_handler }
  modifyStats fun stats =>
    { stats with
      current_requests := stats.current_requests+1, total_requests := stats.total_requests+1 }
  awaitWrite

/-- The parser with what was read, and its callbacks with the handler. -/
def parse (data : Bytes) : Sys (Client α) Unit := fun c =>
  let (res, parser) := HTTPParser.receive data c.conn.parser_
  let events := parser.calls.drop c.conn.parser_.calls.length
  (res, (tell (events.map .event) { c with conn := { c.conn with parser_ := parser } }).2)

/-- `read()` behind the parser. -/
def readDone : Sys (Client α) Unit := do
  let c ← Sys.get
  if c.conn.parser_.state_ = .done then
    modifyStats fun stats => { stats with current_requests := stats.current_requests-1 }
    if c.conn.keepalive_ then keepalive else close
    match c.conn.cur_handler_ with
    | some handler => runOnNextWakeup (.responseComplete handler)
    | none => pure ()
    wakeup
  else awaitRead

/-- `close()` and `error(e)`, in a handler of `read()` and `write()`. -/
def giveUp (e : Exception) : Sys (Client α) Unit := do
  close
  error e

/-- `read()`, where `conn_->read(...)` has the outcome `res`. -/
def read (res : Result Bytes) : Sys (Client α) Unit :=
  tryCatch (Sys.reads fun _ => res)
    (fun data => do
      modify fun conn => { conn with conn_.received := conn.conn_.received ++ [data] }
      modifyStats fun stats =>
        { stats with received_bytes := stats.received_bytes+data.length.toUInt64 }
      tryCatch (parse data) (fun _ => readDone) giveUp)
    fun e => if e.type = .wouldBlockError then awaitRead else giveUp e

/-- `write()`, where `conn_->write(...)` has the outcome `res`. -/
def write (res : Result Nat) : Sys (Client α) Unit :=
  tryCatch (Sys.reads fun _ => res)
    (fun len => do
      modify fun conn =>
        { conn with
          conn_.sent := conn.conn_.sent ++ conn.buf_.unsent.take len
          buf_ := conn.buf_.setMark (conn.buf_.mark+len) }
      modifyStats fun stats => { stats with sent_bytes := stats.sent_bytes+len.toUInt64 }
      let c ← Sys.get
      if c.conn.buf_.mark < c.conn.buf_.data.length then awaitWrite
      else do
        modify fun conn => { conn with buf_ := conn.buf_.clear }
        awaitRead)
    fun e => if e.type = .wouldBlockError then awaitWrite else giveUp e

end HTTPClientConnection

/-- A request that waits until its connection is established. -/
structure Connecting (α : Type) where
  handler : Nat
  addr : α
  request : HTTPRequest

/-- The pool with all the connections and requests that were made so far. The numbers of the
requests are those of their handlers. -/
structure HTTPConnectionPool (α : Type) where
  connections : List (HTTPClientConnection α) := []
  connecting : List (Connecting α) := []
  requests : List HTTPRequest := []
  shared : Shared α := {}

namespace HTTPConnectionPool
variable {α : Type} [DecidableEq α]

/-- A call of a connection. -/
def onConnection (pool : HTTPConnectionPool α) (i : Nat) (conn : HTTPClientConnection α)
    (call : Sys (Client α) Unit) : Result Unit × HTTPConnectionPool α :=
  let (res, c) := (do HTTPClientConnection.use; call) ⟨conn, pool.shared⟩
  (res, { pool with connections := pool.connections.set i c.conn, shared := c.shared })

/-- The future, or where there is none yet its promise, fails. -/
def onError (pool : HTTPConnectionPool α) (handler : Nat) (e : Exception) : HTTPConnectionPool α :=
  { pool with shared := { pool.shared with calls := pool.shared.calls ++ [(handler, .error e)] } }

/-- The callback of `executeRequest`, with a connection that it was given. The text of the request
need not come to an end. -/
def onLease (pool : HTTPConnectionPool α) (i : Nat) (addr : α) (conn : HTTPClientConnection α)
    (request : HTTPRequest) (handler : Nat) : Option (HTTPConnectionPool α) :=
  match pool.onConnection i conn (do
      HTTPClientConnection.runOnNextWakeup (.parkConnection i addr)
      HTTPClientConnection.executeRequest request handler) with
  | (.ok _, pool) => some pool
  | (.raise e, pool) => some (pool.onError handler e)
  | (.diverge, _) => none

/-- `executeRequest` up to the callback of `leaseConnection`, or up to `connectAsync`. -/
def executeRequest (pool : HTTPConnectionPool α) (request : HTTPRequest) (addr : α) :
    Option (HTTPConnectionPool α) :=
  let handler := pool.requests.length
  let pool := { pool with requests := pool.requests ++ [request] }
  match pool.shared.connection_cache_.find? fun entry => entry.1 = addr with
  | some entry => do
    let conn ← pool.connections[entry.2]?
    let cache := pool.shared.connection_cache_.erase entry
    { pool with shared.connection_cache_ := cache }.onLease entry.2 addr conn request handler
  | none => some { pool with connecting := pool.connecting ++ [⟨handler, addr, request⟩] }

/-- The callback of `connectAsync`, with what `checkErrors()` says. The constructor counts the
connection. -/
def onConnected (pool : HTTPConnectionPool α) (request : Connecting α) :
    Result Unit → Option (HTTPConnectionPool α)
  | .ok () =>
    let stats := pool.shared.stats_
    onLease
      { pool with
        connections := pool.connections ++ [.new]
        shared.stats_ :=
          { stats with
            current_connections := stats.current_connections+1
            total_connections := stats.total_connections+1 } }
      pool.connections.length request.addr .new request.request request.handler
  | .raise e => some (pool.onError request.handler e)
  | .diverge => none

/-- What happens on the event loop: a request is made, a connection is established or not, or the
socket of a connection becomes ready. -/
inductive Action (α : Type) where
  | executeRequest (request : HTTPRequest) (addr : α)
  | connected (k : Nat) (res : Result Unit)
  | readable (i : Nat) (res : Result Bytes)
  | writable (i : Nat) (res : Result Nat)

/-- The interest in a descriptor ends with the call. -/
def onReady (pool : HTTPConnectionPool α) (i : Nat) (interest : Interest)
    (call : Sys (Client α) Unit) : Option (HTTPConnectionPool α) := do
  let conn ← pool.connections[i]?
  if interest ∈ conn.scheduler_ then
    let conn := { conn with scheduler_ := conn.scheduler_.erase interest }
    some (pool.onConnection i conn call).2
  else none

/-- A call of the socket does not take more than it is given. -/
def takes (pool : HTTPConnectionPool α) (i : Nat) : Result Nat → Bool
  | .ok len => (pool.connections[i]?).all fun conn => len ≤ conn.buf_.unsent.length
  | .raise _ => true
  | .diverge => false

def act (pool : HTTPConnectionPool α) : Action α → Option (HTTPConnectionPool α)
  | .executeRequest request addr => pool.executeRequest request addr
  | .connected k res => do
    let request ← pool.connecting[k]?
    { pool with connecting := pool.connecting.eraseIdx k }.onConnected request res
  | .readable i res =>
    if res = .diverge then none
    else pool.onReady i .readable (HTTPClientConnection.read res)
  | .writable i res =>
    if pool.takes i res then pool.onReady i .writable (HTTPClientConnection.write res) else none

/-- Nothing is defined any more once a connection was used behind its deletion. -/
def step (pool : HTTPConnectionPool α) (action : Action α) : Option (HTTPConnectionPool α) :=
  if pool.shared.misused then none else pool.act action

end HTTPConnectionPool

namespace HTTPParser

theorem ok_ne_diverge {β : Type} (b : β) : Result.ok b ≠ .diverge := by simp

theorem raise_ne_diverge {β : Type} (e : Exception) : (.raise e : Result β) ≠ .diverge := by simp

/-- The call comes to an end, and what was told before stays told. -/
def Tells {β : Type} (x : Sys HTTPParser β) : Prop :=
  ∀ p, (x p).1 ≠ .diverge ∧ p.calls <+: (x p).2.calls

section tells
variable {β γ : Type}

theorem tells_reads {f : HTTPParser → Result β} (h : ∀ p, f p ≠ .diverge) : Tells (Sys.reads f) :=
  fun p => ⟨h p, List.prefix_refl _⟩

theorem tells_pure (b : β) : Tells (pure b : Sys HTTPParser β) := fun _ =>
  ⟨ok_ne_diverge b, List.prefix_refl _⟩

theorem tells_get : Tells (Sys.get : Sys HTTPParser HTTPParser) := fun p =>
  ⟨ok_ne_diverge p, List.prefix_refl _⟩

theorem tells_modify {f : HTTPParser → HTTPParser} (h : ∀ p, (f p).calls = p.calls) :
    Tells (Sys.modify f) := fun p => ⟨ok_ne_diverge (), by simp [h p]⟩

theorem Tells.bind {x : Sys HTTPParser β} {f : β → Sys HTTPParser γ} (hx : Tells x)
    (hf : ∀ b, Tells (f b)) : Tells (x >>= f) := by
  intro p
  obtain ⟨hend, hcalls⟩ := hx p
  cases hp : x p with
  | mk r q =>
    rw [hp] at hend hcalls
    cases r with
    | ok b =>
      rw [Sys.bind_of_ok hp]
      exact ⟨(hf b q).1, hcalls.trans (hf b q).2⟩
    | raise e =>
      rw [Sys.bind_of_raise hp]
      exact ⟨raise_ne_diverge e, hcalls⟩
    | diverge => exact absurd rfl hend

theorem tells_call (e : Event) : Tells (call e) := fun p =>
  ⟨ok_ne_diverge (), by
    rw [call_apply, called_calls]
    exact List.prefix_append _ _⟩

theorem tells_advance (st : ParserState) : Tells (advance st) := tells_modify fun _ => rfl

theorem tells_checkSize (max : Nat) (error : String) : Tells (checkSize max error) :=
  tells_reads fun p => by
    split
    · exact raise_ne_diverge _
    · exact ok_ne_diverge _

theorem tells_readLineEnd (event : Bytes → Event) : Tells (readLineEnd event) := by
  apply Tells.bind
  · exact tells_modify fun _ => rfl
  · exact fun _ => tells_get.bind fun _ => (tells_call _).bind fun _ => tells_advance _

theorem tells_readMethod : Tells readMethod := by
  apply Tells.bind
  · exact tells_modify fun _ => rfl
  · intro _
    refine tells_get.bind fun p => ?_
    split
    · split
      · exact (tells_call _).bind fun _ => tells_modify fun _ => rfl
      · exact tells_reads fun _ => raise_ne_diverge _
    · exact tells_checkSize _ _

theorem tells_processHeader (key val : Bytes) : Tells (processHeader key val) := by
  intro p
  rw [processHeader_apply]
  split
  · exact ⟨ok_ne_diverge (), by
      rw [called_calls]
      exact List.prefix_append _ _⟩
  · exact ⟨raise_ne_diverge _, List.prefix_refl _⟩

theorem tells_readHeader : Tells readHeader := by
  apply Tells.bind
  · exact tells_modify fun _ => rfl
  · intro _
    refine tells_get.bind fun p => ?_
    split
    · split
      · exact tells_reads fun _ => raise_ne_diverge _
      · exact (tells_processHeader _ _).bind fun _ => tells_advance _
    · apply Tells.bind
      · exact tells_modify fun _ => rfl
      · exact fun _ => tells_call _

theorem tells_read {st : ParserState} {t : Token} (ht : token? st = some t) : Tells t.read := by
  cases st with
  | reqMethod =>
    cases ht
    exact tells_readMethod
  | reqURI =>
    cases ht
    exact tells_get.bind fun _ => (tells_call _).bind fun _ => tells_advance _
  | reqVersion =>
    cases ht
    exact tells_readLineEnd _
  | resVersion =>
    cases ht
    apply Tells.bind
    · exact tells_modify fun p => by split <;> rfl
    · exact fun _ => tells_get.bind fun _ => (tells_call _).bind fun _ => tells_advance _
  | resStatusCode =>
    cases ht
    refine tells_get.bind fun p => ?_
    split
    · exact tells_reads fun _ => raise_ne_diverge _
    · exact (tells_call _).bind fun _ => tells_advance _
  | resStatusName =>
    cases ht
    exact tells_readLineEnd _
  | header =>
    cases ht
    exact tells_readHeader
  | body => cases ht
  | done => cases ht

theorem tells_readUntil (data : Bytes) (search : UInt8) : Tells (readUntil data search) := fun _ =>
  ⟨ok_ne_diverge _, List.prefix_refl _⟩

theorem Token.tells_parse {t : Token} (h : Tells t.read) (data : Bytes) : Tells (t.parse data) := by
  refine (tells_readUntil _ _).bind fun found => ?_
  obtain ⟨found, cur⟩ := found
  dsimp only
  split
  · exact h.bind fun _ => tells_pure _
  · exact (tells_checkSize _ _).bind fun _ => tells_pure _

theorem tells_readBody (data : Bytes) : Tells (readBody data) := by
  apply Tells.bind
  · exact tells_modify fun _ => rfl
  · intro _
    apply Tells.bind
    · exact tells_modify fun p => by split <;> rfl
    · exact fun _ => (tells_call _).bind fun _ => tells_pure _

theorem tells_turn (data : Bytes) : Tells (turn data) := by
  intro p
  cases ht : token? p.state_ with
  | some t =>
    rw [turn_token ht]
    exact t.tells_parse (tells_read ht) data p
  | none =>
    rw [turn, Sys.get_bind]
    cases hs : p.state_ with
    | body => exact tells_readBody data p
    | done =>
      by_cases hmode : p.mode_ = .request
      · simp only [hmode, if_true]
        exact tells_reads (fun _ => raise_ne_diverge _) p
      · simp only [hmode, if_false]
        exact tells_readBody data p
    | _ =>
      rw [hs] at ht
      cases ht

theorem tells_parseLoop {fuel : Nat} {data : Bytes} (h : data.length ≤ fuel) :
    Tells (parseLoop fuel data) := by
  induction fuel generalizing data with
  | zero =>
    obtain rfl := List.length_eq_zero_iff.1 (Nat.le_zero.1 h)
    exact tells_pure ()
  | succ fuel ih =>
    cases data with
    | nil => exact tells_pure ()
    | cons b data =>
      intro p
      obtain ⟨hend, hcalls⟩ := tells_turn (b :: data) p
      cases hp : turn (b :: data) p with
      | mk r q =>
        rw [hp] at hend hcalls
        cases r with
        | ok rest =>
          have hshort := turn_shorter (List.cons_ne_nil b data) hp
          have hrest := @ih rest (by omega) q
          rw [parseLoop, Sys.bind_of_ok hp]
          exact ⟨hrest.1, hcalls.trans hrest.2⟩
        | raise e =>
          rw [parseLoop, Sys.bind_of_raise hp]
          exact ⟨raise_ne_diverge e, hcalls⟩
        | diverge => exact absurd rfl hend

theorem tells_parse (data : Bytes) : Tells (parse data) := tells_parseLoop (Nat.le_refl _)

theorem tells_eof : Tells eof := by
  refine tells_get.bind fun p => ?_
  split
  · exact tells_pure ()
  · split
    · exact tells_reads fun _ => raise_ne_diverge _
    · exact tells_modify fun _ => rfl

theorem tells_receive (data : Bytes) : Tells (receive data) := by
  unfold receive
  split
  · exact tells_eof
  · exact tells_parse data

end tells
end HTTPParser

namespace HTTPClientConnection
variable {α : Type}

/-- A request is under way on the connection with the number `i`. -/
structure Busy (conn : HTTPClientConnection α) (i h : Nat) : Prop where
  state : conn.state_ = .busy
  handler : conn.cur_handler_ = some h
  keepalive : conn.keepalive_ = false
  live : conn.deleted = 0
  task : ∃ addr, conn.on_ready_ = [.parkConnection i addr]

theorem Busy.unscheduled {conn : HTTPClientConnection α} {i h : Nat} (hbusy : Busy conn i h) :
    Busy { conn with scheduler_ := [] } i h :=
  ⟨hbusy.state, hbusy.handler, hbusy.keepalive, hbusy.live, hbusy.task⟩

/- What becomes of a connection, and of what it shares with others. -/

def ending (conn : HTTPClientConnection α) : HTTPClientConnection α :=
  { conn with state_ := .closed, scheduler_ := [], on_ready_ := [], deleted := conn.deleted+1 }

def answered (stats : HTTPClientStats) : HTTPClientStats :=
  { stats with
    current_requests := stats.current_requests-1
    current_connections := stats.current_connections-1 }

/-- The handler is called by a connection that is deleted. -/
def failed (h : Nat) (e : Exception) (c : Client α) : Client α where
  conn := c.conn.ending
  shared :=
    { c.shared with
      stats_ := answered c.shared.stats_, calls := c.shared.calls ++ [(h, .error e)]
      misused := true }

def completed (h : Nat) (c : Client α) : Client α where
  conn := c.conn.ending
  shared :=
    { c.shared with
      stats_ := answered c.shared.stats_, calls := c.shared.calls ++ [(h, .responseComplete)] }

def awaiting (interest : Interest) (c : Client α) : Client α :=
  { c with conn.scheduler_ := c.conn.scheduler_ ++ [interest] }

/-- Behind a read from the socket, and the parser. -/
def got (h : Nat) (data : Bytes) (parser : HTTPParser) (c : Client α) : Client α where
  conn := { c.conn with conn_.received := c.conn.conn_.received ++ [data], parser_ := parser }
  shared :=
    { c.shared with
      stats_ :=
        { c.shared.stats_ with
          received_bytes := c.shared.stats_.received_bytes+data.length.toUInt64 }
      calls := c.shared.calls ++
        (parser.calls.drop c.conn.parser_.calls.length).map fun event => (h, .event event) }

/-- Behind a write to the socket. -/
def put (len : Nat) (c : Client α) : Client α where
  conn :=
    { c.conn with
      conn_.sent := c.conn.conn_.sent ++ c.conn.buf_.unsent.take len
      buf_ := c.conn.buf_.setMark (c.conn.buf_.mark+len) }
  shared :=
    { c.shared with
      stats_ := { c.shared.stats_ with sent_bytes := c.shared.stats_.sent_bytes+len.toUInt64 } }

section
variable {c : Client α} {i h : Nat}

@[simp] theorem modify_bind {β : Type} (f : HTTPClientConnection α → HTTPClientConnection α)
    (g : Unit → Sys (Client α) β) : (modify f >>= g) c = g () { c with conn := f c.conn } := rfl

@[simp] theorem modifyStats_bind {β : Type} (f : HTTPClientStats → HTTPClientStats)
    (g : Unit → Sys (Client α) β) : (modifyStats f >>= g) c =
      g () { c with shared := { c.shared with stats_ := f c.shared.stats_ } } := rfl

theorem use_bind {β : Type} (hlive : c.conn.deleted = 0) (f : Unit → Sys (Client α) β) :
    (use >>= f) c = f () c := by
  have huse : use c = (.ok (), c) := by simp [use, hlive]
  rw [Sys.bind_of_ok huse]

theorem use_bind_deleted {β : Type} (hdeleted : c.conn.deleted ≠ 0)
    (f : Unit → Sys (Client α) β) : (use >>= f) c = f () { c with shared.misused := true } := by
  have huse : use c = (.ok (), { c with shared.misused := true }) := by simp [use, hdeleted]
  rw [Sys.bind_of_ok huse]

theorem close_eq (hc : c.conn.state_ ≠ .closed) :
    close c = (.ok (), { c with conn := { c.conn with state_ := .closed, scheduler_ := [] } }) := by
  have hcheck : (Sys.reads fun c : Client α => if c.conn.state_ = .closed then
      .RAISE .illegalStateError "connection already closed" else .ok ()) c = (.ok (), c) := by
    rw [Sys.reads_apply, if_neg hc]
  exact Sys.bind_of_ok hcheck

/-- Behind `delete`, for a connection that was closed before. -/
def gone (c : Client α) : Client α where
  conn := { c.conn with deleted := c.conn.deleted+1 }
  shared :=
    { c.shared with
      stats_ :=
        { c.shared.stats_ with
          current_connections := c.shared.stats_.current_connections-1 } }

/-- A connection that is closed is not parked. -/
theorem parkConnection_closed (hc : c.conn.state_ = .closed) (hlive : c.conn.deleted = 0)
    (addr : α) : HTTPConnectionPool.parkConnection i addr c = (.ok (), gone c) := by
  have hidle : c.conn.isIdle = false := by simp [isIdle, hc]
  rw [HTTPConnectionPool.parkConnection, use_bind hlive, Sys.get_bind]
  simp only [hidle, Bool.false_eq_true, if_false]
  rw [delete, modifyStats_bind, Sys.get_bind]
  simp only [hc, ne_eq, not_true_eq_false, if_false]
  rfl

/-- The first task of a connection that is closed deletes it. -/
theorem wakeup_closed (hc : c.conn.state_ = .closed) (hlive : c.conn.deleted = 0) {addr : α}
    {tasks : List (WakeupTask α)} (htasks : c.conn.on_ready_ = .parkConnection i addr :: tasks) :
    wakeup c = tasks.forM WakeupTask.run (gone { c with conn.on_ready_ := [] }) := by
  have hpark := @parkConnection_closed α { c with conn.on_ready_ := [] } i hc hlive addr
  rw [wakeup, Sys.get_bind, modify_bind, htasks]
  exact Sys.bind_of_ok hpark

/-- Behind `close`, and the end of the request in the counters. -/
def shut (c : Client α) : Client α where
  conn := { c.conn with state_ := .closed, scheduler_ := [] }
  shared :=
    { c.shared with
      stats_ :=
        { c.shared.stats_ with current_requests := c.shared.stats_.current_requests-1 } }

theorem giveUp_eq (hb : Busy c.conn i h) (e : Exception) :
    giveUp e c = (.ok (), failed h e c) := by
  have hopen : c.conn.state_ ≠ .closed := by simp [hb.state]
  have hsome : c.conn.cur_handler_.isSome = true := by simp [hb.handler]
  obtain ⟨addr, htask⟩ := hb.task
  have hwakeup : wakeup (shut c) = (.ok (), gone { shut c with conn.on_ready_ := [] }) :=
    @wakeup_closed α (shut c) i rfl hb.live addr [] htask
  have htell : tell [.error e]
      { gone { shut c with conn.on_ready_ := [] } with shared.misused := true } =
        (.ok (), failed h e c) := by
    simp [tell, gone, shut, failed, ending, answered, hb.handler]
  rw [giveUp, Sys.bind_of_ok (close_eq hopen), error, Sys.get_bind]
  simp only [hsome, if_true, modifyStats_bind]
  exact (Sys.bind_of_ok hwakeup).trans ((use_bind_deleted (Nat.succ_ne_zero _) _).trans htell)

theorem readDone_eq (hb : Busy c.conn i h) :
    readDone c = (.ok (),
      if c.conn.parser_.state_ = .done then completed h c else awaiting .readable c) := by
  rw [readDone, Sys.get_bind]
  by_cases hdone : c.conn.parser_.state_ = .done
  · obtain ⟨addr, htask⟩ := hb.task
    have hopen : ({ c with
        shared.stats_.current_requests := c.shared.stats_.current_requests-1 } :
          Client α).conn.state_ ≠ .closed := by simp [hb.state]
    have htasks : (shut c).conn.on_ready_ ++ [.responseComplete h] =
        [.parkConnection i addr, .responseComplete h] := by
      change c.conn.on_ready_ ++ _ = _
      rw [htask]
      rfl
    have hwakeup := @wakeup_closed α
      { shut c with conn.on_ready_ := (shut c).conn.on_ready_ ++ [.responseComplete h] } i rfl
      hb.live addr [.responseComplete h] htasks
    rw [if_pos hdone, if_pos hdone, modifyStats_bind]
    simp only [hb.keepalive, Bool.false_eq_true, if_false, hb.handler]
    exact (Sys.bind_of_ok (close_eq hopen)).trans hwakeup
  · rw [if_neg hdone, if_neg hdone]
    rfl

theorem parse_eq (hb : Busy c.conn i h) (data : Bytes) :
    parse data c = ((HTTPParser.receive data c.conn.parser_).1,
      { conn := { c.conn with parser_ := (HTTPParser.receive data c.conn.parser_).2 }
        shared :=
          { c.shared with
            calls := c.shared.calls ++ ((HTTPParser.receive data c.conn.parser_).2.calls.drop
              c.conn.parser_.calls.length).map fun event => (h, .event event) } }) := by
  simp [parse, tell, hb.handler]
  rfl

/-- `read()` behind the socket. -/
def reading (data : Bytes) (c : Client α) : Client α where
  conn := { c.conn with conn_.received := c.conn.conn_.received ++ [data] }
  shared :=
    { c.shared with
      stats_ :=
        { c.shared.stats_ with
          received_bytes := c.shared.stats_.received_bytes+data.length.toUInt64 } }

theorem read_eq (data : Bytes) :
    read (.ok data) c = tryCatch (parse data) (fun _ => readDone) giveUp (reading data c) := rfl

theorem read_data (hb : Busy c.conn i h) {data : Bytes} {parser : HTTPParser}
    (hparse : HTTPParser.receive data c.conn.parser_ = (.ok (), parser)) :
    read (.ok data) c = (.ok (), if parser.state_ = .done then completed h (got h data parser c)
      else awaiting .readable (got h data parser c)) := by
  have hreading : Busy (reading data c).conn i h :=
    ⟨hb.state, hb.handler, hb.keepalive, hb.live, hb.task⟩
  have hgot : Busy (got h data parser c).conn i h :=
    ⟨hb.state, hb.handler, hb.keepalive, hb.live, hb.task⟩
  have hparse' : HTTPParser.receive data (reading data c).conn.parser_ = (.ok (), parser) := hparse
  rw [read_eq, tryCatch, parse_eq hreading, hparse']
  exact readDone_eq hgot

theorem read_refused (hb : Busy c.conn i h) {data : Bytes} {parser : HTTPParser} {e : Exception}
    (hparse : HTTPParser.receive data c.conn.parser_ = (.raise e, parser)) :
    read (.ok data) c = (.ok (), failed h e (got h data parser c)) := by
  have hreading : Busy (reading data c).conn i h :=
    ⟨hb.state, hb.handler, hb.keepalive, hb.live, hb.task⟩
  have hgot : Busy (got h data parser c).conn i h :=
    ⟨hb.state, hb.handler, hb.keepalive, hb.live, hb.task⟩
  have hparse' : HTTPParser.receive data (reading data c).conn.parser_ = (.raise e, parser) :=
    hparse
  rw [read_eq, tryCatch, parse_eq hreading, hparse']
  exact giveUp_eq hgot e

/-- A read from the socket, in all its outcomes. -/
inductive Reads (h : Nat) (c : Client α) : Result Bytes → Client α → Prop
  | again {e : Exception} (type : e.type = .wouldBlockError) :
    Reads h c (.raise e) (awaiting .readable c)
  | failed {e : Exception} (type : e.type ≠ .wouldBlockError) :
    Reads h c (.raise e) (failed h e c)
  | refused {data : Bytes} {parser : HTTPParser} {e : Exception}
    (parse : HTTPParser.receive data c.conn.parser_ = (.raise e, parser)) :
    Reads h c (.ok data) (HTTPClientConnection.failed h e (got h data parser c))
  | more {data : Bytes} {parser : HTTPParser}
    (parse : HTTPParser.receive data c.conn.parser_ = (.ok (), parser))
    (state : parser.state_ ≠ .done) :
    Reads h c (.ok data) (awaiting .readable (got h data parser c))
  | completed {data : Bytes} {parser : HTTPParser}
    (parse : HTTPParser.receive data c.conn.parser_ = (.ok (), parser))
    (state : parser.state_ = .done) :
    Reads h c (.ok data) (HTTPClientConnection.completed h (got h data parser c))

theorem read_cases (hb : Busy c.conn i h) {res : Result Bytes} (hres : res ≠ .diverge) :
    Reads h c res (read res c).2 := by
  cases res with
  | ok data =>
    cases hparse : HTTPParser.receive data c.conn.parser_ with
    | mk r parser =>
      cases r with
      | ok _ =>
        rw [read_data hb hparse]
        by_cases hdone : parser.state_ = .done
        · rw [if_pos hdone]
          exact .completed hparse hdone
        · rw [if_neg hdone]
          exact .more hparse hdone
      | raise e =>
        rw [read_refused hb hparse]
        exact .refused hparse
      | diverge =>
        have hend := (HTTPParser.tells_receive data c.conn.parser_).1
        rw [hparse] at hend
        exact absurd rfl hend
  | raise e =>
    by_cases hblock : e.type = .wouldBlockError
    · have hread : read (.raise e) c = awaitRead c := by simp [read, tryCatch, hblock]
      rw [hread]
      exact .again hblock
    · have hread : read (.raise e) c = giveUp e c := by simp [read, tryCatch, hblock]
      rw [hread, giveUp_eq hb]
      exact .failed hblock
  | diverge => exact absurd rfl hres

/-- A write to the socket, in all its outcomes. -/
inductive Writes (h : Nat) (c : Client α) : Result Nat → Client α → Prop
  | again {e : Exception} (type : e.type = .wouldBlockError) :
    Writes h c (.raise e) (awaiting .writable c)
  | failed {e : Exception} (type : e.type ≠ .wouldBlockError) :
    Writes h c (.raise e) (failed h e c)
  | more {len : Nat} (left : c.conn.buf_.mark+len < c.conn.buf_.data.length) :
    Writes h c (.ok len) (awaiting .writable (put len c))
  | done {len : Nat} (left : c.conn.buf_.data.length ≤ c.conn.buf_.mark+len) :
    Writes h c (.ok len) (awaiting .readable { put len c with conn.buf_ := {} })

theorem write_cases (hb : Busy c.conn i h) {res : Result Nat} (hres : res ≠ .diverge) :
    Writes h c res (write res c).2 := by
  cases res with
  | ok len =>
    have hwrite : write (.ok len) c =
        (if c.conn.buf_.mark+len < c.conn.buf_.data.length then awaitWrite
        else do
          modify fun conn => { conn with buf_ := conn.buf_.clear }
          awaitRead) (put len c) := rfl
    rw [hwrite]
    by_cases hleft : c.conn.buf_.mark+len < c.conn.buf_.data.length
    · rw [if_pos hleft]
      exact .more hleft
    · rw [if_neg hleft]
      exact .done (Nat.not_lt.1 hleft)
  | raise e =>
    by_cases hblock : e.type = .wouldBlockError
    · have hwrite : write (.raise e) c = awaitWrite c := by simp [write, tryCatch, hblock]
      rw [hwrite]
      exact .again hblock
    · have hwrite : write (.raise e) c = giveUp e c := by simp [write, tryCatch, hblock]
      rw [hwrite, giveUp_eq hb]
      exact .failed hblock
  | diverge => exact absurd rfl hres

/-- The parser of a connection that executes a request. -/
def startParser (request : HTTPRequest) : HTTPParser :=
  setUp request (HTTPParser.new .response fun _ => false)

/-- A connection that was given its first request. -/
def started (request : HTTPRequest) (h : Nat) (text : Bytes) (c : Client α) : Client α where
  conn :=
    { c.conn with
      scheduler_ := [.writable], state_ := .busy, parser_ := startParser request
      buf_ := { data := text }, cur_handler_ := some h }
  shared :=
    { c.shared with
      stats_ :=
        { c.shared.stats_ with
          current_requests := c.shared.stats_.current_requests+1
          total_requests := c.shared.stats_.total_requests+1 } }

/-- One that was not. -/
def unused (request : HTTPRequest) (c : Client α) : Client α :=
  { c with conn.parser_ := startParser request }

theorem executeRequest_new (request : HTTPRequest) {tasks : List (WakeupTask α)}
    (hnew : c.conn = { (new : HTTPClientConnection α) with on_ready_ := tasks }) :
    (∃ text, HTTPGenerator.generate request = .ok text ∧
      executeRequest request h c = (.ok (), started request h text c)) ∨
    (∃ e, HTTPGenerator.generate request = .raise e ∧
      executeRequest request h c = (.raise e, unused request c)) ∨
    (executeRequest request h c).1 = .diverge := by
  obtain ⟨conn, shared⟩ := c
  obtain rfl : conn = _ := hnew
  have hcheck : (Sys.reads fun c : Client α => if c.conn.state_ ≠ .idle then
      .RAISE .illegalStateError "executeRequest called on non-idle HTTP connection"
      else .ok ()) ⟨{ (new : HTTPClientConnection α) with on_ready_ := tasks }, shared⟩ =
        (.ok (), ⟨{ (new : HTTPClientConnection α) with on_ready_ := tasks }, shared⟩) := rfl
  rw [executeRequest, Sys.bind_of_ok hcheck, modify_bind]
  cases hgenerate : HTTPGenerator.generate request with
  | ok text => exact .inl ⟨text, rfl, rfl⟩
  | raise e => exact .inr (.inl ⟨e, rfl, rfl⟩)
  | diverge => exact .inr (.inr rfl)

end
end HTTPClientConnection
end Stx.Http
