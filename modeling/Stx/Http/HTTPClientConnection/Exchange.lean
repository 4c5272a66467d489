import Mathlib.Data.UInt
import Stx.Http.HTTPClientConnection

/-! A request on a connection: the states of the connection, and what a call of it does. -/
namespace Stx.Http

/-- The calls behind which there is no other. -/
def HandlerCall.isFinal : HandlerCall → Bool
  | event _ => false
  | _ => true

def callsOf (calls : List (Nat × HandlerCall)) (handler : Nat) : List HandlerCall :=
  (calls.filter fun call => call.1 = handler).map Prod.snd

/-- The handlers that were told how their request ended. -/
def answers (calls : List (Nat × HandlerCall)) : List Nat :=
  (calls.filter fun call => call.2.isFinal).map Prod.fst

/-- A handler is not called behind its last call. -/
def Orderly (calls : List (Nat × HandlerCall)) : Prop :=
  calls.Pairwise fun call call' => call.1 = call'.1 → call.2.isFinal = false

/-- All that the parser was given. -/
def HTTPParser.receiveAll : List Bytes → Sys HTTPParser Unit
  | [] => pure ()
  | data :: chunks => do
    receive data
    receiveAll chunks

namespace HTTPClientConnection
variable {α : Type}

/-- The request that is under way on a connection. -/
def underway (conn : HTTPClientConnection α) : List Nat :=
  if conn.state_ = .busy then conn.cur_handler_.toList else []

/-- It is not deleted. -/
def live (conn : HTTPClientConnection α) : Bool := conn.deleted = 0

/-- All of the request was sent, and the response was read to its end. That of the file can only
have come last. -/
structure Exchanged (request : HTTPRequest) (conn : HTTPClientConnection α) : Prop where
  sent : HTTPGenerator.generate request = .ok conn.conn_.sent
  received : HTTPParser.receiveAll conn.conn_.received (startParser request) =
    (.ok (), conn.parser_)
  unended : [] ∉ conn.conn_.received.dropLast
  state : conn.parser_.state_ = .done

/-- Nothing is read from a connection before all of the request is sent. -/
def SendsFirst (request : HTTPRequest) (conn : HTTPClientConnection α) : Prop :=
  ∃ unsent, HTTPGenerator.generate request = .ok (conn.conn_.sent ++ unsent) ∧
    (conn.conn_.received ≠ [] → unsent = [])

/-- A connection with its number, by its state. -/
inductive Stage (requests : List HTTPRequest) (shared : Shared α) (i : Nat)
    (conn : HTTPClientConnection α) : Prop
  | unused (state : conn.state_ = .idle) (handler : conn.cur_handler_ = none)
      (live : conn.deleted = 0) (scheduler : conn.scheduler_ = [])
  | sending {h : Nat} {request : HTTPRequest} (request_eq : requests[h]? = some request)
      (busy : Busy conn i h) (scheduler : conn.scheduler_ = [.writable])
      (sent : HTTPGenerator.generate request = .ok (conn.conn_.sent ++ conn.buf_.unsent))
      (received : conn.conn_.received = []) (parser : conn.parser_ = startParser request)
      (calls : callsOf shared.calls h = [])
  | receiving {h : Nat} {request : HTTPRequest} (request_eq : requests[h]? = some request)
      (busy : Busy conn i h) (scheduler : conn.scheduler_ = [.readable])
      (sent : HTTPGenerator.generate request = .ok conn.conn_.sent)
      (received : HTTPParser.receiveAll conn.conn_.received (startParser request) =
        (.ok (), conn.parser_))
      (unended : [] ∉ conn.conn_.received)
      (state : conn.parser_.state_ ≠ .done)
      (calls : callsOf shared.calls h = conn.parser_.calls.map .event)
  | completed {h : Nat} {request : HTTPRequest} (request_eq : requests[h]? = some request)
      (state : conn.state_ = .closed) (handler : conn.cur_handler_ = some h)
      (deleted : conn.deleted = 1) (task : conn.on_ready_ = []) (scheduler : conn.scheduler_ = [])
      (calls : callsOf shared.calls h = conn.parser_.calls.map .event ++ [.responseComplete])
      (exchanged : Exchanged request conn)

/-- What a call of a busy connection does that does not fail: it calls its handler. -/
structure Turn (requests : List HTTPRequest) (i h : Nat) (c c' : Client α)
    (told : List HandlerCall) : Prop where
  calls : c'.shared.calls = c.shared.calls ++ told.map (h, ·)
  whereabouts : (c'.conn.underway ++ answers (told.map (h, ·))).Perm [h]
  orderly : told.Pairwise fun call _ => call.isFinal = false
  stage : Stage requests c'.shared i c'.conn
  completing : .responseComplete ∈ told → c'.conn.state_ = .closed
  handler : c'.conn.cur_handler_ = some h
  cache : c'.shared.connection_cache_ = c.shared.connection_cache_
  safe : c'.shared.misused = c.shared.misused
  current_requests : c'.shared.stats_.current_requests+1 =
    c.shared.stats_.current_requests+UInt64.ofNat c'.conn.underway.length
  current_connections : c'.shared.stats_.current_connections+1 =
    c.shared.stats_.current_connections+UInt64.ofNat c'.conn.live.toNat

end HTTPClientConnection

section calls
variable {calls calls' : List (Nat × HandlerCall)} {h h' : Nat}

theorem callsOf_append : callsOf (calls ++ calls') h = callsOf calls h ++ callsOf calls' h := by
  simp [callsOf]

theorem callsOf_map (told : List HandlerCall) : callsOf (told.map (h, ·)) h = told := by
  induction told with
  | nil => rfl
  | cons call told ih => simpa [callsOf] using ih

theorem callsOf_map_of_ne (hne : h ≠ h') (told : List HandlerCall) :
    callsOf (told.map (h, ·)) h' = [] := by
  simp [callsOf, hne]

theorem callsOf_eq_nil (hknown : ∀ call ∈ calls, call.1 < h) : callsOf calls h = [] := by
  rw [callsOf, List.map_eq_nil_iff, List.filter_eq_nil_iff]
  intro call hcall
  have hlt := hknown call hcall
  simp
  omega

theorem mem_callsOf {call : HandlerCall} : call ∈ callsOf calls h ↔ (h, call) ∈ calls := by
  simp [callsOf]

theorem answers_append : answers (calls ++ calls') = answers calls ++ answers calls' := by
  simp [answers]

theorem answers_events (events : List Event) :
    answers ((events.map HandlerCall.event).map (h, ·)) = [] := by
  simp [answers, HandlerCall.isFinal]

theorem mem_answers : h ∈ answers calls ↔ ∃ call ∈ callsOf calls h, call.isFinal = true := by
  simp [answers, callsOf]

theorem Orderly.append (hcalls : Orderly calls) {told : List HandlerCall}
    (hnew : h ∉ answers calls) (htold : told.Pairwise fun call _ => call.isFinal = false) :
    Orderly (calls ++ told.map (h, ·)) := by
  refine List.pairwise_append.2 ⟨hcalls, ?_, ?_⟩
  · rw [List.pairwise_map]
    refine htold.imp ?_
    intro _ _ hcall _
    exact hcall
  · intro call hcall call' hcall' heq
    obtain ⟨call', -, rfl⟩ := List.mem_map.1 hcall'
    obtain ⟨h', call⟩ := call
    obtain rfl : h' = h := heq
    by_contra hfinal
    exact hnew (mem_answers.2 ⟨call, mem_callsOf.2 hcall, by simpa using hfinal⟩)

end calls

/-- The end of the file is the end of the response, or an error. -/
theorem HTTPParser.state_of_receive_nil {p q : HTTPParser} (h : receive [] p = (.ok (), q)) :
    q.state_ = .done := by
  rw [receive, if_pos rfl, eof, Sys.get_bind] at h
  cases hstate : p.state_ with
  | done =>
    simp only [hstate] at h
    cases h
    exact hstate
  | _ =>
    simp only [hstate] at h
    split at h
    · cases h
    · cases h
      rfl

namespace HTTPClientConnection
variable {α : Type} {requests : List HTTPRequest} {i h : Nat} {c c' : Client α}
  {request : HTTPRequest} {events : List Event}

theorem underway_busy {conn : HTTPClientConnection α} (hb : Busy conn i h) :
    conn.underway = [h] := by
  simp [underway, hb.state, hb.handler]

theorem live_busy {conn : HTTPClientConnection α} (hb : Busy conn i h) : conn.live = true := by
  simp [live, hb.live]

theorem underway_closed {conn : HTTPClientConnection α} (hc : conn.state_ = .closed) :
    conn.underway = [] := by
  simp [underway, hc]

/-- What a call of a busy connection has done while it is still busy: its handler is told of
events. -/
structure Told (requests : List HTTPRequest) (i h : Nat) (request : HTTPRequest) (c c' : Client α)
    (events : List Event) : Prop where
  request_eq : requests[h]? = some request
  busy : Busy c'.conn i h
  calls : c'.shared.calls = c.shared.calls ++ (events.map HandlerCall.event).map (h, ·)
  all : callsOf c'.shared.calls h = c'.conn.parser_.calls.map .event
  cache : c'.shared.connection_cache_ = c.shared.connection_cache_
  safe : c'.shared.misused = c.shared.misused
  current_requests : c'.shared.stats_.current_requests = c.shared.stats_.current_requests
  current_connections : c'.shared.stats_.current_connections = c.shared.stats_.current_connections

theorem pairwise_events :
    (events.map HandlerCall.event).Pairwise fun call _ => call.isFinal = false := by
  rw [List.pairwise_map]
  exact List.pairwise_of_forall fun _ _ => rfl

theorem Told.awaiting (ht : Told requests i h request c c' events) (interest : Interest)
    (hstage : Stage requests c'.shared i (awaiting interest c').conn) :
    Turn requests i h c (awaiting interest c') (events.map .event) := by
  have hbusy : Busy (HTTPClientConnection.awaiting interest c').conn i h :=
    ⟨ht.busy.state, ht.busy.handler, ht.busy.keepalive, ht.busy.live, ht.busy.task⟩
  exact {
    calls := ht.calls
    whereabouts := by
      rw [underway_busy hbusy, answers_events]
      rfl
    orderly := pairwise_events
    stage := hstage
    completing hor := by simp at hor
    handler := ht.busy.handler
    cache := ht.cache
    safe := ht.safe
    current_requests := by
      rw [underway_busy hbusy]
      exact congrArg (· + 1) ht.current_requests
    current_connections := by
      rw [live_busy hbusy]
      exact congrArg (· + 1) ht.current_connections }

theorem Told.completed (ht : Told requests i h request c c' events)
    (hexchanged : Exchanged request c'.conn) :
    Turn requests i h c (completed h c') (events.map .event ++ [.responseComplete]) := by
  have hclosed : (HTTPClientConnection.completed h c').conn.underway = [] := underway_closed rfl
  have hdeleted : (HTTPClientConnection.completed h c').conn.live = false := by
    simp [HTTPClientConnection.completed, ending, live]
  have hcalls : (HTTPClientConnection.completed h c').shared.calls =
      c'.shared.calls ++ [HandlerCall.responseComplete].map (h, ·) := rfl
  exact {
    calls := by rw [hcalls, ht.calls, List.map_append, List.append_assoc]
    whereabouts := by
      rw [hclosed, List.map_append, answers_append, answers_events]
      exact List.Perm.refl _
    orderly := by
      refine List.pairwise_append.2 ⟨pairwise_events, List.pairwise_singleton _ _, ?_⟩
      intro call hcall _ _
      obtain ⟨_, -, rfl⟩ := List.mem_map.1 hcall
      rfl
    stage := by
      refine .completed ht.request_eq rfl ht.busy.handler ?_ rfl rfl ?_
        ⟨hexchanged.sent, hexchanged.received, hexchanged.unended, hexchanged.state⟩
      · exact congrArg (· + 1) ht.busy.live
      · rw [hcalls, callsOf_append, callsOf_map, ht.all]
        rfl
    completing _ := rfl
    handler := ht.busy.handler
    cache := ht.cache
    safe := ht.safe
    current_requests := by
      rw [hclosed, List.length_nil, ← ht.current_requests]
      exact sub_add_cancel _ _ |>.trans (add_zero _).symm
    current_connections := by
      rw [hdeleted, Bool.toNat_false, ← ht.current_connections]
      exact sub_add_cancel _ _ |>.trans (add_zero _).symm }

theorem Told.got (ht : Told requests i h request c c []) (data : Bytes) :
    Told requests i h request c (got h data (HTTPParser.receive data c.conn.parser_).2 c)
      ((HTTPParser.receive data c.conn.parser_).2.calls.drop c.conn.parser_.calls.length) := by
  have hprefix := (HTTPParser.tells_receive data c.conn.parser_).2
  generalize HTTPParser.receive data c.conn.parser_ = r at hprefix ⊢
  obtain ⟨res, parser⟩ := r
  obtain ⟨new, hnew⟩ := hprefix
  obtain rfl : parser.calls.drop c.conn.parser_.calls.length = new := by
    rw [← hnew, List.drop_left]
  have hcalls : (HTTPClientConnection.got h data parser c).shared.calls = c.shared.calls ++
      ((parser.calls.drop c.conn.parser_.calls.length).map HandlerCall.event).map (h, ·) := by
    simp [HTTPClientConnection.got, Function.comp_def]
  exact {
    request_eq := ht.request_eq
    busy := ⟨ht.busy.state, ht.busy.handler, ht.busy.keepalive, ht.busy.live, ht.busy.task⟩
    calls := hcalls
    all := by
      have hparser : (HTTPClientConnection.got h data parser c).conn.parser_ = parser := rfl
      rw [hcalls, callsOf_append, callsOf_map, ht.all, ← List.map_append, hnew, hparser]
    cache := rfl
    safe := rfl
    current_requests := rfl
    current_connections := rfl }

theorem startParser_calls : (startParser request).calls = [] := by
  rw [startParser, setUp]
  split <;> rfl

theorem startParser_state : (startParser request).state_ = .resVersion := by
  rw [startParser, setUp]
  split <;> rfl

theorem receiveAll_concat {chunks : List Bytes} {p q : HTTPParser}
    (hall : HTTPParser.receiveAll chunks p = (.ok (), q)) (data : Bytes) :
    HTTPParser.receiveAll (chunks ++ [data]) p = HTTPParser.receive data q := by
  induction chunks generalizing p with
  | nil =>
    obtain rfl : p = q := congrArg Prod.snd hall
    exact congrFun (Sys.bind_pure_unit (HTTPParser.receive data)) p
  | cons chunk chunks ih =>
    obtain ⟨_, p', hp, hrest⟩ := Sys.bind_eq_ok hall
    exact (Sys.bind_of_ok hp).trans (ih hrest)

/-- Behind a write: some of what is unsent is sent. -/
theorem unsent_put (c : Client α) (len : Nat) :
    (put len c).conn.conn_.sent ++ (put len c).conn.buf_.unsent =
      c.conn.conn_.sent ++ c.conn.buf_.unsent := by
  simp [put, MarkedBuffer.setMark, MarkedBuffer.unsent, ← List.drop_drop]

variable {conn : HTTPClientConnection α} {shared : Shared α}

/-- What a read gives does not make the connection fail. -/
def Readable (conn : HTTPClientConnection α) : Result Bytes → Prop
  | .ok data => (HTTPParser.receive data conn.parser_).1 = .ok ()
  | .raise e => e.type = .wouldBlockError
  | .diverge => True

/-- The same for a write. -/
def Writable : Result Nat → Prop
  | .raise e => e.type = .wouldBlockError
  | _ => True

theorem misused_read_iff (hbusy : Busy conn i h) (hsafe : shared.misused = false)
    {res : Result Bytes} (hres : res ≠ .diverge) :
    (HTTPClientConnection.read res ⟨conn, shared⟩).2.shared.misused = false ↔
      conn.Readable res := by
  have hreads := read_cases (c := ⟨conn, shared⟩) hbusy hres
  generalize HTTPClientConnection.read res ⟨conn, shared⟩ = r at hreads ⊢
  obtain ⟨_, c'⟩ := r
  cases hreads with
  | again htype => exact iff_of_true hsafe htype
  | failed htype => exact iff_of_false (by simp) htype
  | refused hparse => exact iff_of_false (by simp) (by simp [Readable, hparse])
  | more hparse => exact iff_of_true hsafe (by simp [Readable, hparse])
  | completed hparse => exact iff_of_true hsafe (by simp [Readable, hparse])

theorem misused_write_iff (hbusy : Busy conn i h) (hsafe : shared.misused = false)
    {res : Result Nat} (hres : res ≠ .diverge) :
    (HTTPClientConnection.write res ⟨conn, shared⟩).2.shared.misused = false ↔ Writable res := by
  have hwrites := write_cases (c := ⟨conn, shared⟩) hbusy hres
  generalize HTTPClientConnection.write res ⟨conn, shared⟩ = r at hwrites ⊢
  obtain ⟨_, c'⟩ := r
  cases hwrites with
  | again htype => exact iff_of_true hsafe htype
  | failed htype => exact iff_of_false (by simp) htype
  | more => exact iff_of_true hsafe trivial
  | done => exact iff_of_true hsafe trivial

/-- `write()` on a connection that sends its request. -/
theorem write_turns (hrequest : requests[h]? = some request) (hbusy : Busy conn i h)
    (hscheduler : conn.scheduler_ = [])
    (hsent : HTTPGenerator.generate request = .ok (conn.conn_.sent ++ conn.buf_.unsent))
    (hreceived : conn.conn_.received = []) (hparser : conn.parser_ = startParser request)
    (hcalls : callsOf shared.calls h = []) {res : Result Nat} (hres : res ≠ .diverge)
    (hsafe : Writable res) :
    ∃ told, Turn requests i h ⟨conn, shared⟩ (HTTPClientConnection.write res ⟨conn, shared⟩).2
      told := by
  have hnone : conn.parser_.calls = [] := by
    rw [hparser, startParser_calls]
  have htold : Told requests i h request ⟨conn, shared⟩ ⟨conn, shared⟩ [] :=
    ⟨hrequest, hbusy, by simp, by rw [hnone]; exact hcalls, rfl, rfl, rfl, rfl⟩
  have hput (len : Nat) : Told requests i h request ⟨conn, shared⟩ (put len ⟨conn, shared⟩) [] :=
    ⟨hrequest, ⟨hbusy.state, hbusy.handler, hbusy.keepalive, hbusy.live, hbusy.task⟩, by simp [put],
      htold.all, rfl, rfl, rfl, rfl⟩
  have hwrites := write_cases hbusy (c := ⟨conn, shared⟩) hres
  generalize HTTPClientConnection.write res ⟨conn, shared⟩ = r at hwrites ⊢
  obtain ⟨_, c'⟩ := r
  cases hwrites with
  | again =>
    refine ⟨_, htold.awaiting .writable (.sending hrequest ?_ ?_ hsent hreceived hparser hcalls)⟩
    · exact ⟨hbusy.state, hbusy.handler, hbusy.keepalive, hbusy.live, hbusy.task⟩
    · exact congrArg (· ++ [Interest.writable]) hscheduler
  | failed htype => exact absurd hsafe htype
  | @more len hleft =>
    refine ⟨_, (hput len).awaiting .writable (.sending hrequest ?_ ?_ ?_ hreceived hparser hcalls)⟩
    · exact ⟨hbusy.state, hbusy.handler, hbusy.keepalive, hbusy.live, hbusy.task⟩
    · exact congrArg (· ++ [Interest.writable]) hscheduler
    · exact hsent.trans (congrArg Result.ok (unsent_put ⟨conn, shared⟩ len).symm)
  | @done len hleft =>
    have hall : conn.buf_.unsent.take len = conn.buf_.unsent := by
      apply List.take_of_length_le
      simp only [MarkedBuffer.unsent, List.length_drop]
      change conn.buf_.data.length ≤ conn.buf_.mark+len at hleft
      omega
    have hdone : Told requests i h request ⟨conn, shared⟩
        { put len ⟨conn, shared⟩ with conn.buf_ := {} } [] :=
      ⟨hrequest, ⟨hbusy.state, hbusy.handler, hbusy.keepalive, hbusy.live, hbusy.task⟩,
        by simp [put], htold.all, rfl, rfl, rfl, rfl⟩
    refine ⟨_, hdone.awaiting .readable (.receiving hrequest ?_ ?_ ?_ ?_ ?_ ?_ htold.all)⟩
    · exact ⟨hbusy.state, hbusy.handler, hbusy.keepalive, hbusy.live, hbusy.task⟩
    · exact congrArg (· ++ [Interest.readable]) hscheduler
    · rw [hsent]
      exact congrArg (fun s => Result.ok (conn.conn_.sent ++ s)) hall.symm
    · change HTTPParser.receiveAll conn.conn_.received (startParser request) =
        (.ok (), conn.parser_)
      rw [hreceived, hparser]
      rfl
    · change [] ∉ conn.conn_.received
      simp [hreceived]
    · change conn.parser_.state_ ≠ .done
      simp [hparser, startParser_state]

/-- `read()` on a connection that waits for its response. -/
theorem read_turns (hrequest : requests[h]? = some request) (hbusy : Busy conn i h)
    (hscheduler : conn.scheduler_ = [])
    (hsent : HTTPGenerator.generate request = .ok conn.conn_.sent)
    (hreceived : HTTPParser.receiveAll conn.conn_.received (startParser request) =
      (.ok (), conn.parser_))
    (hunended : [] ∉ conn.conn_.received) (hstate : conn.parser_.state_ ≠ .done)
    (hcalls : callsOf shared.calls h = conn.parser_.calls.map .event)
    {res : Result Bytes} (hres : res ≠ .diverge) (hsafe : conn.Readable res) :
    ∃ told, Turn requests i h ⟨conn, shared⟩ (HTTPClientConnection.read res ⟨conn, shared⟩).2
      told := by
  have htold : Told requests i h request ⟨conn, shared⟩ ⟨conn, shared⟩ [] :=
    ⟨hrequest, hbusy, by simp, hcalls, rfl, rfl, rfl, rfl⟩
  have hreads := read_cases hbusy (c := ⟨conn, shared⟩) hres
  generalize HTTPClientConnection.read res ⟨conn, shared⟩ = r at hreads ⊢
  obtain ⟨_, c'⟩ := r
  cases hreads with
  | again =>
    refine ⟨_, htold.awaiting .readable (.receiving hrequest ?_ ?_ hsent hreceived hunended hstate
      hcalls)⟩
    · exact ⟨hbusy.state, hbusy.handler, hbusy.keepalive, hbusy.live, hbusy.task⟩
    · exact congrArg (· ++ [Interest.readable]) hscheduler
  | failed htype => exact absurd hsafe htype
  | refused hparse => simp [Readable, hparse] at hsafe
  | @more data parser hparse hopen =>
    have hgot := htold.got data
    rw [hparse] at hgot
    refine ⟨_, hgot.awaiting .readable (.receiving hrequest ?_ ?_ hsent ?_ ?_ hopen hgot.all)⟩
    · exact ⟨hbusy.state, hbusy.handler, hbusy.keepalive, hbusy.live, hbusy.task⟩
    · exact congrArg (· ++ [Interest.readable]) hscheduler
    · exact (receiveAll_concat hreceived data).trans hparse
    · have hne : data ≠ [] := by
        rintro rfl
        exact hopen (HTTPParser.state_of_receive_nil hparse)
      change [] ∉ conn.conn_.received ++ [data]
      simp [hunended, hne.symm]
  | @completed data parser hparse hdone =>
    have hgot := htold.got data
    rw [hparse] at hgot
    exact ⟨_, hgot.completed ⟨hsent, (receiveAll_concat hreceived data).trans hparse,
      by simpa [got] using hunended, hdone⟩⟩

/-- A connection whose handler is left alone. -/
theorem Stage.frame {requests requests' : List HTTPRequest} {shared shared' : Shared α}
    {conn : HTTPClientConnection α} (hs : Stage requests shared i conn)
    (hrequests : requests <+: requests')
    (hcalls : ∀ h, conn.cur_handler_ = some h → callsOf shared'.calls h = callsOf shared.calls h) :
    Stage requests' shared' i conn := by
  have hget {h : Nat} {request : HTTPRequest} (hrequest : requests[h]? = some request) :
      requests'[h]? = some request := by
    obtain ⟨more, rfl⟩ := hrequests
    exact List.getElem?_append_left (List.getElem?_eq_some_iff.1 hrequest).1 |>.trans hrequest
  cases hs with
  | unused state handler live scheduler => exact .unused state handler live scheduler
  | sending request_eq busy scheduler sent received parser calls =>
    exact .sending (hget request_eq) busy scheduler sent received parser
      ((hcalls _ busy.handler).trans calls)
  | receiving request_eq busy scheduler sent received unended state calls =>
    exact .receiving (hget request_eq) busy scheduler sent received unended state
      ((hcalls _ busy.handler).trans calls)
  | completed request_eq state handler deleted task scheduler calls exchanged =>
    exact .completed (hget request_eq) state handler deleted task scheduler
      ((hcalls _ handler).trans calls) exchanged

end HTTPClientConnection
end Stx.Http
