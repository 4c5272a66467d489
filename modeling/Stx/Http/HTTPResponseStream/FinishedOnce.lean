import Stx.Http.HTTPResponseStream.OutputOrder
import Mathlib.Logic.Function.Iterate

/-! A response is finished once, unless a body chunk comes when it is finished already. -/
namespace Stx.Http.HTTPResponseStream
open Runs

/-- Everything was written, and the connection was told so: `onStateChanged` would tell it again. -/
def Ended (s : HTTPResponseStream) : Prop :=
  s.headers_written_ = true ∧ s.response_finished_ = true ∧ s.callback_running_ = false ∧
    s.buf_ = [] ∧ s.error_ = false

instance (s : HTTPResponseStream) : Decidable s.Ended :=
  inferInstanceAs (Decidable (s.headers_written_ = true ∧ s.response_finished_ = true ∧
    s.callback_running_ = false ∧ s.buf_ = [] ∧ s.error_ = false))

/-- The action is not a chunk for a response that has ended. -/
def NotLate (w : World) : Action → Prop
  | .writeBodyChunk _ => ¬w.stream.Ended
  | _ => True

instance (w : World) (a : Action) : Decidable (NotLate w a) :=
  match a with
  | .writeBodyChunk _ => inferInstanceAs (Decidable (¬w.stream.Ended))
  | .startResponse _ | .finishResponse | .callWrite _ | .onCallbackCompleted | .onCallbackError
  | .close | .elsewhere _ => inferInstanceAs (Decidable True)

/-- The connection is told once that the response is finished, and called no more. Its `close()`
does not raise, and the request is counted out once. `requests` is `current_requests` at the
start. -/
structure FinishedOnce (requests : UInt64) (w : World) : Prop where
  once : w.issued.count .finishResponse ≤ 1
  last : ∀ before after, w.issued = before ++ .finishResponse :: after → after = []
  close_ok : w.closeRaised = false
  counted : w.conn.stats_.current_requests = requests ∨
    w.conn.stats_.current_requests = requests - 1

/-- What a write of the connection leaves alone. -/
structure SameGauge (c d : HTTPServerConnection StreamCallback) : Prop where
  closed_eq : d.closed_ = c.closed_
  stats_eq : d.stats_ = c.stats_

theorem sameGauge_runWrite (write : ConnWrite) : (runWrite write).Keeps SameGauge := by
  have hrefl : ∀ c, SameGauge c c := fun _ => ⟨rfl, rfl⟩
  have htrans : ∀ c d e, SameGauge c d → SameGauge d e → SameGauge c e := fun _ _ _ h h' =>
    ⟨h'.closed_eq.trans h.closed_eq, h'.stats_eq.trans h.stats_eq⟩
  have hcheck : HTTPServerConnection.checkRequestRead.Keeps SameGauge := Sys.keeps_reads hrefl _
  have hawait : HTTPServerConnection.awaitWrite.Keeps SameGauge :=
    (Sys.keeps_reads hrefl _).bind htrans fun _ _ => ⟨rfl, rfl⟩
  cases write with
  | writeResponse resp =>
    have hbuf : (HTTPServerConnection.toWriteBuf (HTTPGenerator.writeResponse resp)).Keeps
        SameGauge := fun _ => ⟨rfl, rfl⟩
    have hset : (HTTPServerConnection.setCallbacks StreamCallback.completed .error).Keeps
        SameGauge := fun _ => ⟨rfl, rfl⟩
    exact hcheck.bind htrans fun _ => hbuf.bind htrans fun _ => hset.bind htrans fun _ => hawait
  | writeResponseBody data =>
    have hset : (HTTPServerConnection.setCallbacks StreamCallback.completed .error).Keeps
        SameGauge := fun _ => ⟨rfl, rfl⟩
    refine hcheck.bind htrans fun _ => Sys.Keeps.bind htrans ?_ fun _ => hset.bind htrans fun _ => hawait
    exact fun _ => ⟨rfl, rfl⟩

theorem close_spec (c : HTTPServerConnection StreamCallback) :
    raises (HTTPServerConnection.close c).1 = c.closed_ ∧
      (HTTPServerConnection.close c).2.closed_ = true ∧
      (HTTPServerConnection.close c).2.stats_ = c.stats_ := by
  unfold HTTPServerConnection.close
  cases hclosed : c.closed_ with
  | true =>
    rw [Sys.bind_of_raise (HTTPServerConnection.checkOpen_of_closed hclosed _)]
    exact ⟨rfl, hclosed, rfl⟩
  | false =>
    rw [Sys.bind_of_ok (HTTPServerConnection.checkOpen_of_open hclosed _)]
    exact ⟨rfl, rfl, rfl⟩

theorem finishResponse_spec (c : HTTPServerConnection StreamCallback) :
    raises (HTTPServerConnection.finishResponse c).1 = c.closed_ ∧
      (HTTPServerConnection.finishResponse c).2.closed_ = true ∧
      (HTTPServerConnection.finishResponse c).2.stats_.current_requests =
        c.stats_.current_requests - 1 := by
  obtain ⟨hraises, hclosed, hstats⟩ := close_spec
    { c with stats_ := { c.stats_ with current_requests := c.stats_.current_requests - 1 } }
  exact ⟨hraises, hclosed, congrArg HTTPServerStats.current_requests hstats⟩

namespace World

/-- `current_requests` is counted down once for each call of `conn_->finishResponse()`. -/
def Counted (requests : UInt64) (w : World) : Prop :=
  w.conn.stats_.current_requests = (fun n => n - 1)^[w.made.count .finishResponse] requests

theorem Settled.counted {requests : UInt64} {w w' : World} (hs : Settled w w')
    (h : w.Counted requests) : w'.Counted requests := by
  cases hs with
  | idle => exact h
  | handOver => exact h
  | finish =>
    have hstats := (finishResponse_spec w.conn).2.2
    simp only [Counted, goOn, List.count_append, List.count_singleton_self,
      Function.iterate_succ_apply', hstats]
    exact congrArg (· - 1) h

theorem Counted.step {requests : UInt64} {w w' : World} {a : Action} (h : w.Counted requests)
    (hstep : w.step a = some w') : w'.Counted requests := by
  cases step_cases hstep with
  | refused => exact h
  | startResponse => exact h
  | writeBodyChunk data error settled => exact settled.counted h
  | finishResponse finished error settled => exact settled.counted h
  | callWrite write pending =>
    have hstats := (sameGauge_runWrite write w.conn).stats_eq
    simpa [Counted, callWrite, hstats, List.count_append] using h
  | onCallbackCompleted outstanding settled => exact settled.counted h
  | onCallbackError => exact h
  | close =>
    have hstats := (close_spec w.conn).2.2
    simpa only [Counted, closeConn, hstats] using h
  | elsewhere conn closed requests_eq => exact requests_eq.trans h

/-- No step takes back a call, or an exception of `close()`. -/
structure Grows (w w' : World) : Prop where
  issued : ∃ calls, w'.issued = w.issued ++ calls
  raised : w'.closeRaised = false → w.closeRaised = false

theorem Settled.grows {w w' : World} (hs : Settled w w') (h : w.Inv) : Grows w w' := by
  cases hs with
  | idle => exact ⟨⟨[], by simp⟩, id⟩
  | handOver => exact ⟨⟨[.write _], by simp [World.issued]; rfl⟩, id⟩
  | finish idle =>
    refine ⟨⟨_, issued_goOn_finish (h.quiet idle).1⟩, fun hraised => ?_⟩
    exact (Bool.or_eq_false_iff.1 hraised).1

theorem Inv.grows {w w' : World} {a : Action} (h : w.Inv) (hstep : w.step a = some w') :
    Grows w w' := by
  have hsame : Grows w w := ⟨⟨[], by simp⟩, id⟩
  cases step_cases hstep with
  | refused => exact hsame
  | startResponse resp => exact ⟨⟨[.write (.writeResponse resp)], by simp [World.issued]⟩, id⟩
  | writeBodyChunk data error settled =>
    have hgrows := settled.grows (h.append data)
    exact ⟨hgrows.issued, hgrows.raised⟩
  | finishResponse finished error settled =>
    have hgrows := settled.grows h.markFinished
    exact ⟨hgrows.issued, hgrows.raised⟩
  | callWrite write pending =>
    exact ⟨⟨[], by simp [issued_callWrite (h.called pending).1]⟩, id⟩
  | onCallbackCompleted outstanding settled =>
    have hgrows := settled.grows (h.completed outstanding)
    exact ⟨hgrows.issued, hgrows.raised⟩
  | onCallbackError => exact ⟨hsame.issued, hsame.raised⟩
  | close => exact ⟨⟨[], by simp [World.issued, closeConn]⟩, fun hr => (Bool.or_eq_false_iff.1 hr).1⟩
  | elsewhere => exact ⟨hsame.issued, hsame.raised⟩

/-- The response has not ended, and its connection is open. -/
structure Unfinished (w : World) : Prop where
  writes : ∃ ws : List ConnWrite, w.issued = ws.map .write
  ok : w.stream.error_ = false
  opened : w.conn.closed_ = false
  closing : w.closing = false
  close_ok : w.closeRaised = false

/-- What runs without a late chunk keep: the calls are writes up to the end of the response, and
only the end or an error closes the connection. -/
structure Orderly (w : World) : Prop where
  calls : ∃ ws : List ConnWrite,
    w.issued = ws.map .write ++ if w.stream.Ended then [.finishResponse] else []
  idle : w.stream.error_ = true → w.stream.callback_running_ = false
  closed : w.conn.closed_ = true → w.stream.Ended ∨ w.stream.error_ = true
  closing : w.closing = true → w.stream.error_ = true ∧ w.conn.closed_ = false
  close_ok : w.closeRaised = false

theorem Orderly.unfinished {w : World} (h : w.Orderly) (hend : ¬w.stream.Ended)
    (hok : w.stream.error_ = false) : w.Unfinished where
  writes := by
    obtain ⟨ws, hws⟩ := h.calls
    exact ⟨ws, by simpa [hend] using hws⟩
  ok := hok
  opened := by
    by_contra hne
    rcases h.closed (by simpa using hne) with hend' | herror
    · exact hend hend'
    · rw [hok] at herror
      cases herror
  closing := by
    by_contra hne
    have herror := (h.closing (by simpa using hne)).1
    rw [hok] at herror
    cases herror
  close_ok := h.close_ok

theorem Orderly.ok_of_running {w : World} (h : w.Orderly)
    (hrunning : w.stream.callback_running_ = true) : w.stream.error_ = false := by
  by_contra hne
  rw [h.idle (by simpa using hne)] at hrunning
  cases hrunning

theorem Unfinished.orderly {w : World} (h : w.Unfinished) (hend : ¬w.stream.Ended) :
    w.Orderly where
  calls := by
    obtain ⟨ws, hws⟩ := h.writes
    exact ⟨ws, by simpa [hend] using hws⟩
  idle herror := by rw [h.ok] at herror; cases herror
  closed hclosed := by rw [h.opened] at hclosed; cases hclosed
  closing hclosing := by rw [h.closing] at hclosing; cases hclosing
  close_ok := h.close_ok

theorem not_ended_of_running {s : HTTPResponseStream} (h : s.callback_running_ = true) :
    ¬s.Ended := by
  intro hend
  rw [hend.2.2.1] at h
  cases h

theorem Unfinished.issue {w : World} (h : w.Unfinished) (write : ConnWrite)
    {s : HTTPResponseStream} (hok : s.error_ = false) :
    Unfinished { w with stream := s, pending := w.pending ++ [write] } where
  writes := by
    obtain ⟨ws, hws⟩ := h.writes
    exact ⟨ws ++ [write], by simpa [World.issued, ← List.append_assoc] using hws⟩
  ok := hok
  opened := h.opened
  closing := h.closing
  close_ok := h.close_ok

theorem Settled.orderly {w w' : World} (hs : Settled w w') (hinv : w.Inv) (h : w.Unfinished) :
    w'.Orderly := by
  cases hs with
  | idle hidle =>
    apply h.orderly
    rintro ⟨hheaders, hfinished, hrunning, -, -⟩
    simp [hheaders, hfinished, hrunning] at hidle
  | handOver idle headers data =>
    have hissue := h.issue (.writeResponseBody (w.stream.buf_.take kMaxWriteBufferSize))
      (s := { w.stream with
        buf_ := w.stream.buf_.drop kMaxWriteBufferSize, callback_running_ := true }) h.ok
    exact hissue.orderly (not_ended_of_running rfl)
  | finish idle headers empty finished =>
    have hend : w.stream.Ended := ⟨headers, finished, idle, empty, h.ok⟩
    obtain ⟨hraises, hclosed, -⟩ := finishResponse_spec w.conn
    obtain ⟨ws, hws⟩ := h.writes
    constructor
    · refine ⟨ws, ?_⟩
      rw [issued_goOn_finish (hinv.quiet idle).1, hws]
      exact congrArg (ws.map ConnCall.write ++ ·) (if_pos hend).symm
    · exact fun _ => idle
    · exact fun _ => .inl hend
    · intro hclosing
      have := h.closing.symm.trans hclosing
      cases this
    · simp only [goOn, h.close_ok, hraises, h.opened, Bool.or_false]

theorem not_ended_of_error {s : HTTPResponseStream} (h : s.error_ = true) : ¬s.Ended := by
  intro hend
  rw [hend.2.2.2.2] at h
  cases h

theorem Orderly.step {w w' : World} {a : Action} (h : w.Orderly) (hinv : w.Inv)
    (hlate : NotLate w a) (hstep : w.step a = some w') : w'.Orderly := by
  cases step_cases hstep with
  | refused => exact h
  | startResponse resp headers error =>
    have hend : ¬w.stream.Ended := by
      intro hend
      rw [hend.1] at headers
      cases headers
    have hissue := (h.unfinished hend error).issue (.writeResponse resp)
      (s := { w.stream with headers_written_ := true, callback_running_ := true }) error
    exact hissue.orderly (not_ended_of_running rfl)
  | writeBodyChunk data error settled =>
    have hopen := h.unfinished hlate error
    exact settled.orderly (hinv.append data)
      ⟨hopen.writes, hopen.ok, hopen.opened, hopen.closing, hopen.close_ok⟩
  | finishResponse finished error settled =>
    have hend : ¬w.stream.Ended := by
      intro hend
      rw [hend.2.1] at finished
      cases finished
    have hopen := h.unfinished hend error
    exact settled.orderly hinv.markFinished
      ⟨hopen.writes, hopen.ok, hopen.opened, hopen.closing, hopen.close_ok⟩
  | callWrite write pending =>
    have hgauge := sameGauge_runWrite write w.conn
    constructor
    · rw [issued_callWrite (hinv.called pending).1]
      exact h.calls
    · exact h.idle
    · intro hclosed
      exact h.closed (hgauge.closed_eq.symm.trans hclosed)
    · intro hclosing
      exact ⟨(h.closing hclosing).1, hgauge.closed_eq.trans (h.closing hclosing).2⟩
    · exact h.close_ok
  | onCallbackCompleted outstanding settled =>
    have hrunning := (hinv.running outstanding).1
    have hopen := h.unfinished (not_ended_of_running hrunning) (h.ok_of_running hrunning)
    have horderly := settled.orderly (hinv.completed outstanding)
      ⟨hopen.writes, hopen.ok, hopen.opened, hopen.closing, hopen.close_ok⟩
    exact ⟨horderly.calls, horderly.idle, horderly.closed, horderly.closing, horderly.close_ok⟩
  | onCallbackError outstanding =>
    have hrunning := (hinv.running outstanding).1
    have hopen := h.unfinished (not_ended_of_running hrunning) (h.ok_of_running hrunning)
    obtain ⟨ws, hws⟩ := hopen.writes
    constructor
    · refine ⟨ws, ?_⟩
      rw [if_neg (not_ended_of_error rfl), List.append_nil]
      exact hws
    · exact fun _ => rfl
    · exact fun _ => .inr rfl
    · exact fun _ => ⟨rfl, hopen.opened⟩
    · exact hopen.close_ok
  | close closing =>
    obtain ⟨herror, hopened⟩ := h.closing closing
    obtain ⟨hraises, -, -⟩ := close_spec w.conn
    constructor
    · exact h.calls
    · exact h.idle
    · exact fun _ => .inr herror
    · intro hclosing
      cases hclosing
    · simp only [closeConn, h.close_ok, hraises, hopened, Bool.or_false]
  | elsewhere conn closed =>
    constructor
    · exact h.calls
    · exact h.idle
    · intro hclosed
      exact h.closed (closed.symm.trans hclosed)
    · intro hclosing
      exact ⟨(h.closing hclosing).1, closed.trans (h.closing hclosing).2⟩
    · exact h.close_ok

theorem Orderly.init {conn : HTTPServerConnection StreamCallback} (hopen : conn.closed_ = false) :
    Orderly { conn } where
  calls := ⟨[], rfl⟩
  idle h := by cases h
  closed h := by rw [hopen] at h; cases h
  closing h := by cases h
  close_ok := rfl

theorem count_issued (w : World) :
    w.issued.count .finishResponse = w.made.count .finishResponse := by
  have hpending : (w.pending.map ConnCall.write).count .finishResponse = 0 := by
    rw [List.count_eq_zero]
    simp
  rw [issued, List.count_append, hpending, Nat.add_zero]

theorem Counted.of_once {requests : UInt64} {w : World} (h : w.Counted requests)
    (honce : w.issued.count .finishResponse ≤ 1) :
    w.conn.stats_.current_requests = requests ∨
      w.conn.stats_.current_requests = requests - 1 := by
  rw [count_issued] at honce
  rw [h]
  rcases Nat.le_one_iff_eq_zero_or_eq_one.1 honce with hzero | hone
  · rw [hzero]
    exact .inl rfl
  · rw [hone]
    exact .inr rfl

theorem Orderly.finishedOnce {requests : UInt64} {w : World} (h : w.Orderly)
    (hcounted : w.Counted requests) : FinishedOnce requests w := by
  obtain ⟨ws, hws⟩ := h.calls
  have hwrites : ConnCall.finishResponse ∉ ws.map ConnCall.write := by simp
  have honce : w.issued.count .finishResponse ≤ 1 := by
    rw [hws, List.count_append, List.count_eq_zero.2 hwrites]
    split <;> simp
  refine ⟨honce, ?_, h.close_ok, hcounted.of_once honce⟩
  intro before after heq
  rw [hws] at heq
  by_cases hend : w.stream.Ended
  · rw [if_pos hend] at heq
    rcases List.eq_nil_or_concat after with hnil | ⟨init, call, hcall⟩
    · exact hnil
    · rw [hcall, List.concat_eq_append, ← List.cons_append, ← List.append_assoc] at heq
      have hinit := (List.append_inj' heq rfl).1
      rw [hinit] at hwrites
      simp at hwrites
  · rw [if_neg hend, List.append_nil] at heq
    rw [heq] at hwrites
    simp at hwrites

/-- A chunk for a response that has ended leads to one more call of the connection. -/
theorem late_issues {w w' : World} {data : Bytes} (hinv : w.Inv) (hend : w.stream.Ended)
    (hstep : w.step (.writeBodyChunk data) = some w') :
    ∃ call, w'.issued = w.issued ++ [call] := by
  cases step_cases hstep with
  | refused _ refuses => exact absurd hend (not_ended_of_error refuses)
  | writeBodyChunk _ error settled =>
    cases settled with
    | idle hidle =>
      have hnot : ¬(w.stream.callback_running_ = true ∨ w.stream.headers_written_ = false ∨
          w.stream.buf_ ++ data = [] ∧ w.stream.response_finished_ = false) := by
        simp [hend.1, hend.2.1, hend.2.2.1]
      exact absurd hidle hnot
    | handOver => exact ⟨.write _, by simp [World.issued]; rfl⟩
    | finish => exact ⟨_, issued_goOn_finish (hinv.quiet hend.2.2.1).1⟩

theorem finishedOnce_of_grows {requests : UInt64} {w w' : World} (h : FinishedOnce requests w')
    (hgrows : Grows w w') (hcounted : w.Counted requests) : FinishedOnce requests w := by
  obtain ⟨calls, hcalls⟩ := hgrows.issued
  have honce : w.issued.count .finishResponse ≤ 1 := by
    have hle := h.once
    rw [hcalls, List.count_append] at hle
    omega
  refine ⟨honce, ?_, hgrows.raised h.close_ok, hcounted.of_once honce⟩
  intro before after heq
  rw [heq, List.append_assoc, List.cons_append] at hcalls
  exact (List.append_eq_nil_iff.1 (h.last before _ hcalls)).1

end World

section run
variable {conn : HTTPServerConnection StreamCallback} (hopen : conn.closed_ = false)
  {as : List Action} {w : World}

theorem counted_of_run (h : Run World.step { conn } as w) :
    w.Inv ∧ w.Counted conn.stats_.current_requests :=
  h.invariant (P := fun w => w.Inv ∧ w.Counted conn.stats_.current_requests) ⟨.init conn, rfl⟩
    fun _ _ _ hw _ hstep => ⟨hw.1.step hstep, hw.2.step hstep⟩

include hopen

theorem orderly_of_run (h : Reaches World.step NotLate { conn } as w) : w.Inv ∧ w.Orderly :=
  h.invariant (P := fun w => w.Inv ∧ w.Orderly) ⟨.init conn, .init hopen⟩ fun _ _ _ hw hlate hstep =>
    ⟨hw.1.step hstep, hw.2.step hw.1 hlate hstep⟩

/-- A response is finished once in the runs in which no body chunk comes behind its end, and in
no others. -/
theorem finishedOnce_iff (h : Run World.step { conn } as w) :
    FinishedOnce conn.stats_.current_requests w ↔ Reaches World.step NotLate { conn } as w := by
  constructor
  · intro hw
    apply h.of_run hw
    · intro as t a u hrun hstep hu
      obtain ⟨hinv, hcounted⟩ := counted_of_run hrun
      exact World.finishedOnce_of_grows hu (hinv.grows hstep) hcounted
    · intro as t a u hrun hstep hu
      obtain ⟨hinv, horderly⟩ := orderly_of_run hopen hrun
      cases a with
      | writeBodyChunk data =>
        intro hend
        obtain ⟨call, hcall⟩ := World.late_issues hinv hend hstep
        obtain ⟨ws, hws⟩ := horderly.calls
        rw [hws, if_pos hend, List.append_assoc] at hcall
        have hlast := hu.last _ _ hcall
        cases hlast
      | _ => trivial
  · intro hrun
    exact (orderly_of_run hopen hrun).2.finishedOnce (counted_of_run h).2

end run

/-- A response of two calls, and its end. -/
def endedActions : List Action :=
  [.startResponse sampleResponse, .callWrite (.writeResponse sampleResponse),
    .writeBodyChunk (lit "a"), .finishResponse, .onCallbackCompleted,
    .callWrite (.writeResponseBody (lit "a")), .onCallbackCompleted]

theorem ended_finishedOnce : ∃ w,
    endedActions.foldlM (guarded World.step NotLate) { conn := sampleConnection } = some w ∧
      w.stream.Ended ∧ FinishedOnce sampleConnection.stats_.current_requests w := by
  have hended : (endedActions.foldlM (guarded World.step NotLate)
      { conn := sampleConnection }).map (fun w => decide w.stream.Ended) = some true := by
    decide +kernel
  obtain ⟨w, hw, hend⟩ := Option.map_eq_some_iff.1 hended
  have hrun := reaches_of_foldlM hw
  have hopen : sampleConnection.closed_ = false := by decide +kernel
  exact ⟨w, hw, of_decide_eq_true hend, (finishedOnce_iff hopen hrun.run).2 hrun⟩

/-- An empty chunk behind the end finishes the response once more. -/
theorem late_not_finishedOnce : ∃ w,
    (endedActions ++ [Action.writeBodyChunk []]).foldlM World.step { conn := sampleConnection } =
      some w ∧
      ¬FinishedOnce sampleConnection.stats_.current_requests w := by
  have hcount : ((endedActions ++ [Action.writeBodyChunk []]).foldlM World.step
      { conn := sampleConnection }).map (fun w => w.issued.count .finishResponse) = some 2 := by
    decide +kernel
  obtain ⟨w, hw, htwo⟩ := Option.map_eq_some_iff.1 hcount
  refine ⟨w, hw, fun h => ?_⟩
  have honce := h.once
  rw [htwo] at honce
  exact absurd honce (by decide)

end Stx.Http.HTTPResponseStream
