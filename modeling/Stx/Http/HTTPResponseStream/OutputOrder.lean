import Stx.Http.HTTPResponseStream
import Stx.Lib.Pipes

/-! The order in which the body leaves a stream, whatever the threads and the connection do. -/
namespace Stx.Http.HTTPResponseStream
open Runs Pipes

/-- The bytes of the body in a call of the connection. -/
def ConnCall.body : ConnCall → Bytes
  | .write (.writeResponseBody data) => data
  | _ => []

namespace World

/-- The calls that were made, and the one that a thread is about to make. -/
def issued (w : World) : List ConnCall := w.made ++ w.pending.map .write

def pipe (w : World) : Pipe UInt8 := ⟨w.issued.flatMap ConnCall.body, w.stream.buf_⟩

/-- What `onStateChanged` makes of a world. -/
inductive Settled (w : World) : World → Prop
  | idle (h : w.stream.callback_running_ = true ∨ w.stream.headers_written_ = false ∨
      w.stream.buf_ = [] ∧ w.stream.response_finished_ = false) : Settled w w
  | handOver (idle : w.stream.callback_running_ = false)
      (headers : w.stream.headers_written_ = true) (data : w.stream.buf_ ≠ []) :
      Settled w
        { w with
          stream :=
            { w.stream with
              buf_ := w.stream.buf_.drop kMaxWriteBufferSize, callback_running_ := true }
          pending := w.pending ++ [.writeResponseBody (w.stream.buf_.take kMaxWriteBufferSize)] }
  | finish (idle : w.stream.callback_running_ = false)
      (headers : w.stream.headers_written_ = true) (empty : w.stream.buf_ = [])
      (finished : w.stream.response_finished_ = true) :
      Settled w (w.goOn (.call .finishResponse))

theorem settled (w : World) : Settled w (w.enter onStateChanged) := by
  unfold enter onStateChanged
  rw [Sys.get_bind]
  cases hrunning : w.stream.callback_running_ with
  | true => exact .idle (.inl hrunning)
  | false =>
    cases hheaders : w.stream.headers_written_ with
    | false => exact .idle (.inr (.inl hheaders))
    | true =>
      cases hbuf : w.stream.buf_ with
      | cons b data => exact .handOver hrunning hheaders (by simp [hbuf])
      | nil =>
        cases hfinished : w.stream.response_finished_ with
        | true => exact .finish hrunning hheaders hbuf hfinished
        | false => exact .idle (.inr (.inr ⟨hbuf, hfinished⟩))

theorem enter_of_ok {w : World} {x : Sys HTTPResponseStream Next} {next : Next}
    {s : HTTPResponseStream} (h : x w.stream = (.ok next, s)) :
    w.enter x = goOn { w with stream := s } next := by
  simp only [enter, h]

theorem enter_of_raise {w : World} {x : Sys HTTPResponseStream Next} {e : Exception}
    (h : x w.stream = (.raise e, w.stream)) : w.enter x = w := by
  simp only [enter, h]

/-- A section that changes the stream and then runs `onStateChanged`. -/
theorem enter_settles {w : World} {x : Sys HTTPResponseStream Next} {s : HTTPResponseStream}
    (h : x w.stream = onStateChanged s) : Settled { w with stream := s } (w.enter x) := by
  have henter : w.enter x = enter { w with stream := s } onStateChanged := by
    simp only [enter, h]
  rw [henter]
  exact settled _

/-- The call ends with an exception, or finds nothing to do. -/
def Refuses (s : HTTPResponseStream) : Action → Prop
  | .startResponse _ => s.headers_written_ = true ∨ s.error_ = true
  | .writeBodyChunk _ => s.error_ = true
  | .finishResponse => s.response_finished_ = true ∨ s.error_ = true
  | _ => False

/-- What an action can do. -/
inductive ActCase (w : World) : Action → World → Prop
  | refused (a : Action) (refuses : Refuses w.stream a) : ActCase w a w
  | startResponse (resp : HTTPResponse) (headers : w.stream.headers_written_ = false)
      (error : w.stream.error_ = false) :
      ActCase w (.startResponse resp)
        { w with
          stream := { w.stream with headers_written_ := true, callback_running_ := true }
          pending := w.pending ++ [.writeResponse resp] }
  | writeBodyChunk (data : Bytes) (error : w.stream.error_ = false) {w' : World}
      (settled : Settled
        { w with
          stream := { w.stream with buf_ := w.stream.buf_ ++ data }
          accepted := w.accepted ++ data } w') : ActCase w (.writeBodyChunk data) w'
  | finishResponse (finished : w.stream.response_finished_ = false)
      (error : w.stream.error_ = false) {w' : World}
      (settled : Settled { w with stream := { w.stream with response_finished_ := true } } w') :
      ActCase w .finishResponse w'
  | callWrite (write : ConnWrite) (pending : write ∈ w.pending) :
      ActCase w (.callWrite write) (w.callWrite write)
  | onCallbackCompleted (outstanding : 0 < w.outstanding) {w' : World}
      (settled : Settled
        { w.callback with stream := { w.stream with callback_running_ := false } } w')
      (refcount_ : Nat) (completing : List ConnWrite) :
      ActCase w .onCallbackCompleted { w' with refcount_, completing }
  | onCallbackError (outstanding : 0 < w.outstanding) :
      ActCase w .onCallbackError
        { w.callback with
          stream := { w.stream with callback_running_ := false, error_ := true }
          refcount_ := w.refcount_ - 1
          closing := true }
  | close (closing : w.closing = true) : ActCase w .close w.closeConn
  | elsewhere (conn : HTTPServerConnection StreamCallback)
      (closed : conn.closed_ = w.conn.closed_)
      (requests : conn.stats_.current_requests = w.conn.stats_.current_requests) :
      ActCase w (.elsewhere conn) { w with conn }

section sections
variable {s : HTTPResponseStream}

theorem checkClient_of_error (h : s.error_ = true) :
    checkClient s = (.raise ⟨.ioError, lit "client error"⟩, s) := by
  simp [checkClient, h, Result.RAISE]

theorem checkClient_of_ok (h : s.error_ = false) : checkClient s = (.ok (), s) := by
  simp [checkClient, h]

theorem startResponse_of_refused (resp : HTTPResponse)
    (h : s.headers_written_ = true ∨ s.error_ = true) :
    ∃ e, HTTPResponseStream.startResponse resp s = (.raise e, s) := by
  unfold HTTPResponseStream.startResponse
  by_cases hheaders : s.headers_written_ = true
  · refine ⟨⟨.runtimeError, lit "headers already written"⟩, Sys.bind_of_raise ?_⟩
    rw [Sys.reads_apply, if_pos hheaders]
    rfl
  · refine ⟨⟨.ioError, lit "client error"⟩, Sys.bind_of_raise ?_⟩
    rw [Sys.reads_apply, if_neg hheaders, if_pos (h.resolve_left hheaders)]
    rfl

theorem startResponse_of_ok (resp : HTTPResponse) (hheaders : s.headers_written_ = false)
    (herror : s.error_ = false) :
    HTTPResponseStream.startResponse resp s =
      (.ok (.call (.write (.writeResponse resp))),
        { s with headers_written_ := true, callback_running_ := true }) := by
  apply Sys.bind_of_ok
  rw [Sys.reads_apply, if_neg (by simp [hheaders]), if_neg (by simp [herror])]

theorem writeBodyChunk_of_ok (data : Bytes) (herror : s.error_ = false) :
    HTTPResponseStream.writeBodyChunk data s = onStateChanged { s with buf_ := s.buf_ ++ data } := by
  rw [HTTPResponseStream.writeBodyChunk, Sys.bind_of_ok (checkClient_of_ok herror)]
  rfl

theorem finishResponse_of_finished (h : s.response_finished_ = true) :
    HTTPResponseStream.finishResponse s = (.ok .nothing, s) := by
  rw [HTTPResponseStream.finishResponse, Sys.get_bind, if_pos h]
  rfl

theorem finishResponse_of_error (hfinished : s.response_finished_ = false)
    (herror : s.error_ = true) :
    HTTPResponseStream.finishResponse s = (.raise ⟨.ioError, lit "client error"⟩, s) := by
  rw [HTTPResponseStream.finishResponse, Sys.get_bind, if_neg (by simp [hfinished]),
    Sys.bind_of_raise (checkClient_of_error herror)]

theorem finishResponse_of_ok (hfinished : s.response_finished_ = false)
    (herror : s.error_ = false) :
    HTTPResponseStream.finishResponse s = onStateChanged { s with response_finished_ := true } := by
  rw [HTTPResponseStream.finishResponse, Sys.get_bind, if_neg (by simp [hfinished]),
    Sys.bind_of_ok (checkClient_of_ok herror)]
  rfl

end sections

theorem step_cases {w w' : World} {a : Action} (h : w.step a = some w') : ActCase w a w' := by
  unfold step at h
  by_cases hp : w.Possible a
  swap
  · rw [if_neg hp] at h
    cases h
  rw [if_pos hp, Option.some_inj] at h
  subst h
  cases a with
  | startResponse resp =>
    by_cases hrefused : w.stream.headers_written_ = true ∨ w.stream.error_ = true
    · obtain ⟨e, hrun⟩ := startResponse_of_refused resp hrefused
      have hact : w.act (.startResponse resp) = w := enter_of_raise hrun
      rw [hact]
      exact .refused _ hrefused
    · rw [not_or, Bool.not_eq_true, Bool.not_eq_true] at hrefused
      have hact : w.act (.startResponse resp) = goOn
          { w with
            stream := { w.stream with headers_written_ := true, callback_running_ := true } }
          (.call (.write (.writeResponse resp))) :=
        enter_of_ok (startResponse_of_ok resp hrefused.1 hrefused.2)
      rw [hact]
      exact .startResponse resp hrefused.1 hrefused.2
  | writeBodyChunk data =>
    cases herror : w.stream.error_ with
    | true =>
      have hact : w.act (.writeBodyChunk data) = w := by
        simp only [act, herror, if_true]
        exact enter_of_raise (Sys.bind_of_raise (checkClient_of_error herror))
      rw [hact]
      exact .refused _ herror
    | false =>
      have hact : w.act (.writeBodyChunk data) =
          enter { w with accepted := w.accepted ++ data }
            (HTTPResponseStream.writeBodyChunk data) := by
        simp only [act, herror, if_false, Bool.false_eq_true]
      have hsettles := @enter_settles { w with accepted := w.accepted ++ data } _ _
        (writeBodyChunk_of_ok data herror)
      rw [hact]
      exact .writeBodyChunk data herror hsettles
  | finishResponse =>
    cases hfinished : w.stream.response_finished_ with
    | true =>
      have hact : w.act .finishResponse = w := enter_of_ok (finishResponse_of_finished hfinished)
      rw [hact]
      exact .refused _ (.inl hfinished)
    | false =>
      cases herror : w.stream.error_ with
      | true =>
        have hact : w.act .finishResponse = w :=
          enter_of_raise (finishResponse_of_error hfinished herror)
        rw [hact]
        exact .refused _ (.inr herror)
      | false =>
        exact .finishResponse hfinished herror
          (enter_settles (finishResponse_of_ok hfinished herror))
  | callWrite write => exact .callWrite write hp
  | onCallbackCompleted =>
    have hsettles : Settled
        { w.callback with stream := { w.stream with callback_running_ := false } }
        (w.callback.enter HTTPResponseStream.onCallbackCompleted) := enter_settles rfl
    change ActCase w .onCallbackCompleted w.complete
    unfold complete
    split
    · exact .onCallbackCompleted hp hsettles _ _
    · exact .onCallbackCompleted hp hsettles _ _
    · exact .onCallbackCompleted hp hsettles _ _
  | onCallbackError => exact .onCallbackError hp
  | close => exact .close hp
  | elsewhere conn => exact .elsewhere conn hp.1 hp.2

/-- What every run keeps. A connection write that is under way keeps `callback_running_` set. -/
structure Inv (w : World) : Prop where
  writes_le : w.pending.length + w.outstanding ≤ if w.stream.callback_running_ then 1 else 0
  headers : w.stream.callback_running_ = true → w.stream.headers_written_ = true
  all_eq : w.pipe.all = w.accepted
  sizes : ∀ data, .write (.writeResponseBody data) ∈ w.issued →
    1 ≤ data.length ∧ data.length ≤ kMaxWriteBufferSize

theorem Inv.quiet {w : World} (h : w.Inv) (hidle : w.stream.callback_running_ = false) :
    w.pending = [] ∧ w.outstanding = 0 := by
  have hle := h.writes_le
  simp only [hidle, Bool.false_eq_true, if_false, Nat.le_zero, Nat.add_eq_zero_iff,
    List.length_eq_zero_iff] at hle
  exact hle

theorem issued_goOn_finish {w : World} (h : w.pending = []) :
    (w.goOn (.call .finishResponse)).issued = w.issued ++ [.finishResponse] := by
  simp [issued, goOn, h]

theorem Settled.inv {w w' : World} (hs : Settled w w') (h : w.Inv) : w'.Inv := by
  cases hs with
  | idle => exact h
  | handOver idle headers data =>
    obtain ⟨hpending, houtstanding⟩ := h.quiet idle
    have hissued : w.made ++ (w.pending ++
        [ConnWrite.writeResponseBody (w.stream.buf_.take kMaxWriteBufferSize)]).map .write =
        w.issued ++ [.write (.writeResponseBody (w.stream.buf_.take kMaxWriteBufferSize))] := by
      simp [issued]
    constructor
    · simp [hpending, houtstanding]
    · exact fun _ => headers
    · have hall := h.all_eq
      rw [← Pipe.all_pass w.pipe kMaxWriteBufferSize] at hall
      rw [← hall, Pipe.pass, pipe, issued, hissued]
      simp [pipe, ConnCall.body]
    · intro data' hmem
      rw [issued, hissued, List.mem_append, List.mem_singleton] at hmem
      rcases hmem with hmem | hmem
      · exact h.sizes data' hmem
      · cases hmem
        have hlen := List.length_pos_iff.2 data
        rw [List.length_take]
        exact ⟨Nat.le_min.2 ⟨by decide, hlen⟩, Nat.min_le_left _ _⟩
  | finish idle headers empty finished =>
    have hissued := issued_goOn_finish (h.quiet idle).1
    refine ⟨h.writes_le, h.headers, ?_, ?_⟩
    · rw [pipe, hissued, List.flatMap_append]
      simpa [ConnCall.body, goOn, pipe] using h.all_eq
    · rw [hissued]
      intro data hmem
      exact h.sizes data (by simpa using hmem)

/-- A thread that calls the connection is the only one that was about to. -/
theorem Inv.called {w : World} (h : w.Inv) {write : ConnWrite} (hmem : write ∈ w.pending) :
    w.pending = [write] ∧ w.outstanding = 0 ∧ w.stream.callback_running_ = true := by
  have hle := h.writes_le
  have hpos := List.length_pos_of_mem hmem
  cases hrunning : w.stream.callback_running_ with
  | false => simp only [hrunning, Bool.false_eq_true, if_false] at hle; omega
  | true =>
    simp only [hrunning, if_true] at hle
    obtain ⟨other, hother⟩ := List.length_eq_one_iff.1 (by omega : w.pending.length = 1)
    rw [hother, List.mem_singleton] at hmem
    rw [hother, hmem]
    exact ⟨rfl, by omega, rfl⟩

theorem Inv.running {w : World} (h : w.Inv) (houtstanding : 0 < w.outstanding) :
    w.stream.callback_running_ = true ∧ w.pending = [] ∧ w.outstanding = 1 := by
  have hle := h.writes_le
  cases hrunning : w.stream.callback_running_ with
  | false => simp only [hrunning, Bool.false_eq_true, if_false] at hle; omega
  | true =>
    simp only [hrunning, if_true] at hle
    exact ⟨rfl, List.length_eq_zero_iff.1 (by omega), by omega⟩

theorem issued_callWrite {w : World} {write : ConnWrite} (h : w.pending = [write]) :
    (w.callWrite write).issued = w.issued := by
  simp [issued, callWrite, h]

theorem Inv.append {w : World} (h : w.Inv) (data : Bytes) :
    Inv { w with
      stream := { w.stream with buf_ := w.stream.buf_ ++ data }
      accepted := w.accepted ++ data } where
  writes_le := h.writes_le
  headers := h.headers
  all_eq := (Pipe.all_put w.pipe data).trans (congrArg (· ++ data) h.all_eq)
  sizes := h.sizes

theorem Inv.markFinished {w : World} (h : w.Inv) :
    Inv { w with stream := { w.stream with response_finished_ := true } } :=
  ⟨h.writes_le, h.headers, h.all_eq, h.sizes⟩

theorem Inv.completed {w : World} (h : w.Inv) (houtstanding : 0 < w.outstanding) :
    Inv { w.callback with stream := { w.stream with callback_running_ := false } } := by
  obtain ⟨-, hpending, hone⟩ := h.running houtstanding
  refine ⟨?_, fun hrunning => ?_, h.all_eq, h.sizes⟩
  · simp [callback, hpending, hone]
  · cases hrunning

theorem Inv.step {w w' : World} {a : Action} (h : w.Inv) (hstep : w.step a = some w') : w'.Inv := by
  cases step_cases hstep with
  | refused => exact h
  | startResponse resp headers error =>
    have hidle : w.stream.callback_running_ = false := by
      by_contra hne
      rw [h.headers (by simpa using hne)] at headers
      cases headers
    obtain ⟨hpending, houtstanding⟩ := h.quiet hidle
    have hissued : w.made ++ (w.pending ++ [ConnWrite.writeResponse resp]).map .write =
        w.issued ++ [.write (.writeResponse resp)] := by
      simp [issued]
    constructor
    · simp [hpending, houtstanding]
    · exact fun _ => rfl
    · rw [pipe, issued, hissued]
      simpa [ConnCall.body, pipe] using h.all_eq
    · intro data hmem
      rw [issued, hissued] at hmem
      exact h.sizes data (by simpa using hmem)
  | writeBodyChunk data error settled => exact settled.inv (h.append data)
  | finishResponse finished error settled => exact settled.inv h.markFinished
  | callWrite write pending =>
    obtain ⟨hpending, houtstanding, hrunning⟩ := h.called pending
    have hissued := issued_callWrite hpending
    constructor
    · have hcount : (if raises (runWrite write w.conn).1 then 0 else 1) ≤ 1 := by split <;> omega
      simpa [callWrite, hpending, houtstanding, hrunning] using hcount
    · exact h.headers
    · rw [pipe, hissued]
      exact h.all_eq
    · rw [hissued]
      exact h.sizes
  | onCallbackCompleted outstanding settled =>
    have hinv := settled.inv (h.completed outstanding)
    exact ⟨hinv.writes_le, hinv.headers, hinv.all_eq, hinv.sizes⟩
  | onCallbackError outstanding =>
    obtain ⟨-, hpending, hone⟩ := h.running outstanding
    refine ⟨?_, fun hrunning => ?_, h.all_eq, h.sizes⟩
    · simp [callback, hpending, hone]
    · cases hrunning
  | close => exact ⟨h.writes_le, h.headers, h.all_eq, h.sizes⟩
  | elsewhere => exact ⟨h.writes_le, h.headers, h.all_eq, h.sizes⟩

theorem Settled.quiet_of_finish {w w' : World} (hs : Settled w w') (h : w.Inv)
    (hmade : w'.made.count .finishResponse ≠ w.made.count .finishResponse) :
    w'.stream.buf_ = [] ∧ w'.pending = [] ∧ w'.outstanding = 0 := by
  cases hs with
  | idle => exact absurd rfl hmade
  | handOver => exact absurd rfl hmade
  | finish idle headers empty finished => exact ⟨empty, h.quiet idle⟩

/-- Nothing is under way when the connection is told that the response is finished. -/
theorem Inv.quiet_of_finish {w w' : World} {a : Action} (h : w.Inv) (hstep : w.step a = some w')
    (hmade : w'.made.count .finishResponse ≠ w.made.count .finishResponse) :
    w'.stream.buf_ = [] ∧ w'.pending = [] ∧ w'.outstanding = 0 := by
  cases step_cases hstep with
  | writeBodyChunk data error settled => exact settled.quiet_of_finish (h.append data) hmade
  | finishResponse finished error settled => exact settled.quiet_of_finish h.markFinished hmade
  | onCallbackCompleted outstanding settled =>
    exact settled.quiet_of_finish (h.completed outstanding) hmade
  | callWrite write pending => exact absurd (by simp [callWrite, List.count_append]) hmade
  | _ => exact absurd rfl hmade

theorem Inv.init (conn : HTTPServerConnection StreamCallback) : Inv { conn } where
  writes_le := by simp
  headers h := by cases h
  all_eq := rfl
  sizes data h := by cases h

end World

/-- The body comes to the connection in order and in portions of the right size, one write at a
time, and the response is finished when there is nothing left to write. -/
theorem output_in_order {conn : HTTPServerConnection StreamCallback} {as : List Action} {w : World}
    (h : Run World.step { conn } as w) :
    w.issued.flatMap ConnCall.body ++ w.stream.buf_ = w.accepted ∧
      w.pending.length + w.outstanding ≤ 1 ∧
      (∀ data, .write (.writeResponseBody data) ∈ w.issued →
        1 ≤ data.length ∧ data.length ≤ kMaxWriteBufferSize) ∧
      ∀ a w', w.step a = some w' →
        w'.made.count .finishResponse ≠ w.made.count .finishResponse →
        w'.stream.buf_ = [] ∧ w'.pending = [] ∧ w'.outstanding = 0 := by
  have hinv : w.Inv := h.invariant (.init conn) fun _ _ _ hw _ hstep => hw.step hstep
  refine ⟨hinv.all_eq, hinv.writes_le.trans ?_, hinv.sizes, fun _ _ => hinv.quiet_of_finish⟩
  split <;> omega

/-- A connection that has read a request. -/
def sampleConnection : HTTPServerConnection StreamCallback :=
  (HTTPServerConnection.read (.ok (lit "GET / HTTP/1.1\r\n\r\n")) (.start {})).2

def sampleResponse : HTTPResponse :=
  { version_ := lit "HTTP/1.1", status_code_ := 200, status_ := lit "OK" }

/-- Body chunks come while the headers are being written. -/
def sampleActions : List Action :=
  [.startResponse sampleResponse, .writeBodyChunk (lit "ab"),
    .callWrite (.writeResponse sampleResponse), .writeBodyChunk (lit "c"), .onCallbackCompleted,
    .finishResponse, .callWrite (.writeResponseBody (lit "abc"))]

def sampleWorld : Option World :=
  sampleActions.foldlM (guarded World.step fun _ _ => True) { conn := sampleConnection }

theorem output_in_order_sample : ∃ w w', sampleWorld = some w ∧
    w.issued.flatMap ConnCall.body ++ w.stream.buf_ = w.accepted ∧ w.accepted = lit "abc" ∧
    w.pending.length + w.outstanding ≤ 1 ∧ w.step .onCallbackCompleted = some w' ∧
    w'.stream.buf_ = [] ∧ w'.pending = [] ∧ w'.outstanding = 0 := by
  have hsome : (sampleWorld.bind fun w => w.step .onCallbackCompleted).isSome := by decide +kernel
  obtain ⟨w', hw'⟩ := Option.isSome_iff_exists.1 hsome
  obtain ⟨w, hw, hstep⟩ := Option.bind_eq_some_iff.1 hw'
  have hmade : sampleWorld.map (fun w => (w.made.count .finishResponse, w.accepted)) =
      some (0, lit "abc") := by decide +kernel
  have hmade' : (sampleWorld.bind fun w => w.step .onCallbackCompleted).map
      (fun w => w.made.count .finishResponse) = some 1 := by decide +kernel
  rw [hw] at hmade
  rw [hw'] at hmade'
  simp only [Option.map_some, Option.some_inj, Prod.mk.injEq] at hmade hmade'
  have hrun := output_in_order (reaches_of_foldlM hw)
  exact ⟨w, w', hw, hrun.1, hmade.2, hrun.2.1, hstep,
    hrun.2.2.2 _ w' hstep (by rw [hmade.1, hmade']; decide)⟩

end Stx.Http.HTTPResponseStream
