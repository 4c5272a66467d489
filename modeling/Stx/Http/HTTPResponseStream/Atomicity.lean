import Stx.Http.HTTPResponseStream.OutputOrder

/-! Writes that the connection refuses with an exception. What the section before a write has
changed in the stream stays changed, and so does the reference count. -/
namespace Stx.Http.HTTPResponseStream
open Runs

/-- The stream without the section that asked for the write. What other threads have appended to
`buf_` since is kept. -/
def withdraw : ConnWrite → HTTPResponseStream → HTTPResponseStream
  | .writeResponse _, s => { s with headers_written_ := false, callback_running_ := false }
  | .writeResponseBody data, s => { s with buf_ := data ++ s.buf_, callback_running_ := false }

/-- `w'` is `w` as if the write that is about to be called had not been asked for: no reference is
kept for it, and the thread has given back its own. -/
structure Withdrawn (write : ConnWrite) (w w' : World) : Prop where
  headers_written_ : w'.stream.headers_written_ = (withdraw write w.stream).headers_written_
  callback_running_ : w'.stream.callback_running_ = (withdraw write w.stream).callback_running_
  buf_ : w'.stream.buf_ = (withdraw write w.stream).buf_
  refcount_ : w'.refcount_ = w.refcount_ - w.decRefs write

/-- The action does not leave a write behind that has raised. -/
def ErrorAtomic (w : World) : Action → Prop
  | .callWrite write =>
    raises (runWrite write w.conn).1 = true → Withdrawn write w (w.act (.callWrite write))
  | _ => True

/-- The generator has a text for the response. -/
def Generates : ConnWrite → Prop
  | .writeResponse resp => raises (HTTPGenerator.writeResponse resp []).1 = false
  | .writeResponseBody _ => True

/-- The connection is open and has read its request when it is called. -/
def Accepted (w : World) : Action → Prop
  | .callWrite write =>
    w.conn.parser_.state_ = .done ∧ w.conn.closed_ = false ∧ Generates write
  | _ => True

section runWrite
variable {c : HTTPServerConnection StreamCallback} {write : ConnWrite}

theorem raises_awaitWrite (c : HTTPServerConnection StreamCallback) :
    raises (HTTPServerConnection.awaitWrite c).1 = c.closed_ := by
  cases hclosed : c.closed_ with
  | true =>
    rw [HTTPServerConnection.awaitWrite_of_closed hclosed]
    rfl
  | false =>
    rw [HTTPServerConnection.awaitWrite_of_open hclosed]
    rfl

/-- The end of both writes. -/
theorem raises_setCallbacks_awaitWrite (c : HTTPServerConnection StreamCallback) :
    raises ((do HTTPServerConnection.setCallbacks .completed .error
                HTTPServerConnection.awaitWrite :
        Sys (HTTPServerConnection StreamCallback) Unit) c).1 = c.closed_ :=
  raises_awaitWrite
    { c with on_write_completed_cb_ := some .completed, on_error_cb_ := some .error }

theorem raises_runWrite_of_not_done (h : c.parser_.state_ ≠ .done) :
    raises (runWrite write c).1 = true := by
  have hcheck := HTTPServerConnection.checkRequestRead_of_not_done h
  cases write with
  | writeResponse resp =>
    rw [runWrite, HTTPServerConnection.writeResponse, Sys.bind_of_raise hcheck]
    rfl
  | writeResponseBody data =>
    rw [runWrite, HTTPServerConnection.writeResponseBody, Sys.bind_of_raise hcheck]
    rfl

theorem raises_writeResponse (resp : HTTPResponse) (h : c.parser_.state_ = .done) :
    raises (runWrite (.writeResponse resp) c).1 =
      (raises (HTTPGenerator.writeResponse resp []).1 || c.closed_) := by
  have hcheck := HTTPServerConnection.checkRequestRead_of_done h
  have hbuf := HTTPServerConnection.toWriteBuf_writeResponse resp c
  rw [runWrite, HTTPServerConnection.writeResponse, Sys.bind_of_ok hcheck]
  cases htext : (HTTPGenerator.writeResponse resp []).1 with
  | ok a =>
    rw [htext] at hbuf
    rw [Sys.bind_of_ok hbuf, raises_setCallbacks_awaitWrite]
    rfl
  | raise e =>
    rw [htext] at hbuf
    rw [Sys.bind_of_raise hbuf]
    rfl
  | diverge =>
    rw [htext] at hbuf
    rw [Sys.bind_of_diverge hbuf]
    rfl

theorem raises_writeResponseBody (data : Bytes) (h : c.parser_.state_ = .done) :
    raises (runWrite (.writeResponseBody data) c).1 = c.closed_ := by
  have hcheck := HTTPServerConnection.checkRequestRead_of_done h
  rw [runWrite, HTTPServerConnection.writeResponseBody, Sys.bind_of_ok hcheck]
  exact raises_setCallbacks_awaitWrite { c with write_buf_ := c.write_buf_.append data }

/-- The writes that do not raise. -/
theorem raises_runWrite_iff : raises (runWrite write c).1 = false ↔
    c.parser_.state_ = .done ∧ c.closed_ = false ∧ Generates write := by
  by_cases hdone : c.parser_.state_ = .done
  · cases write with
    | writeResponse resp =>
      rw [raises_writeResponse resp hdone, Bool.or_eq_false_iff]
      exact ⟨fun h => ⟨hdone, h.2, h.1⟩, fun h => ⟨h.2.2, h.2.1⟩⟩
    | writeResponseBody data =>
      rw [raises_writeResponseBody data hdone]
      exact ⟨fun h => ⟨hdone, h, trivial⟩, fun h => h.2.1⟩
  · rw [raises_runWrite_of_not_done hdone]
    simp [hdone]

end runWrite

/-- A write that raises keeps the reference that was taken for its callback. -/
theorem refcount_of_raises {w : World} {write : ConnWrite}
    (h : raises (runWrite write w.conn).1 = true) :
    (w.callWrite write).refcount_ = w.refcount_ + 1 := by
  simp [World.callWrite, h]

theorem errorAtomic_iff_accepted (w : World) (a : Action) : ErrorAtomic w a ↔ Accepted w a := by
  cases a with
  | callWrite write =>
    rw [ErrorAtomic, Accepted, ← raises_runWrite_iff]
    constructor
    · intro hatomic
      by_contra hraises
      rw [Bool.not_eq_false] at hraises
      have hkept := (hatomic hraises).refcount_
      have hleft : (w.act (.callWrite write)).refcount_ = w.refcount_ + 1 :=
        refcount_of_raises hraises
      omega
    · intro hok hraises
      rw [hok] at hraises
      cases hraises
  | _ => exact Iff.rfl

/-- No write that raises leaves something behind in the runs in which the connection accepts all
of them, and in no others. -/
theorem errorAtomic_iff (conn : HTTPServerConnection StreamCallback) (as : List Action) (w : World) :
    Reaches World.step ErrorAtomic { conn } as w ↔ Reaches World.step Accepted { conn } as w :=
  ⟨fun h => h.mono fun t a => (errorAtomic_iff_accepted t a).1,
    fun h => h.mono fun t a => (errorAtomic_iff_accepted t a).2⟩

/-- The stream waits for a callback that nobody will make. -/
structure Stuck (w : World) : Prop where
  headers : w.stream.headers_written_ = true
  running : w.stream.callback_running_ = true
  pending : w.pending = []
  outstanding : w.outstanding = 0

theorem stuck_of_raises {w : World} {write : ConnWrite} (h : w.Inv) (hmem : write ∈ w.pending)
    (hraises : raises (runWrite write w.conn).1 = true) : Stuck (w.callWrite write) := by
  obtain ⟨hpending, houtstanding, hrunning⟩ := h.called hmem
  constructor
  · exact h.headers hrunning
  · exact hrunning
  · simp [World.callWrite, hpending]
  · simp [World.callWrite, houtstanding, hraises]

/-- Nothing more is asked of the connection, and no reference is given back. -/
structure StuckSince (w u : World) : Prop extends Stuck u where
  made_eq : u.made = w.made
  refcount_eq : u.refcount_ = w.refcount_

theorem World.Settled.stuckSince {w u u' : World} (hs : World.Settled u u')
    (h : StuckSince w u) : StuckSince w u' := by
  cases hs with
  | idle => exact h
  | handOver idle =>
    rw [h.running] at idle
    cases idle
  | finish idle =>
    rw [h.running] at idle
    cases idle

theorem StuckSince.step {w u u' : World} {a : Action} (h : StuckSince w u)
    (hstep : u.step a = some u') : StuckSince w u' := by
  have hnone : ¬0 < u.outstanding := by simp [h.outstanding]
  cases World.step_cases hstep with
  | refused => exact h
  | startResponse resp headers =>
    rw [h.headers] at headers
    cases headers
  | writeBodyChunk data error settled =>
    exact settled.stuckSince
      ⟨⟨h.headers, h.running, h.pending, h.outstanding⟩, h.made_eq, h.refcount_eq⟩
  | finishResponse finished error settled =>
    exact settled.stuckSince
      ⟨⟨h.headers, h.running, h.pending, h.outstanding⟩, h.made_eq, h.refcount_eq⟩
  | callWrite write pending =>
    rw [h.pending] at pending
    cases pending
  | onCallbackCompleted outstanding => exact absurd outstanding hnone
  | onCallbackError outstanding => exact absurd outstanding hnone
  | close =>
    exact ⟨⟨h.headers, h.running, h.pending, h.outstanding⟩, h.made_eq, h.refcount_eq⟩
  | elsewhere =>
    exact ⟨⟨h.headers, h.running, h.pending, h.outstanding⟩, h.made_eq, h.refcount_eq⟩

/-- A stream whose write was refused makes no progress any more, and is never released. -/
theorem stuck_forever {conn : HTTPServerConnection StreamCallback} {as as' : List Action}
    {w u : World} {write : ConnWrite} (hrun : Run World.step { conn } as w)
    (hmem : write ∈ w.pending) (hraises : raises (runWrite write w.conn).1 = true)
    (hafter : Run World.step (w.callWrite write) as' u) :
    u.stream.callback_running_ = true ∧ u.made = w.made ++ [.write write] ∧
      u.refcount_ = w.refcount_ + 1 := by
  have hinv : w.Inv := hrun.invariant (.init conn) fun _ _ _ hw _ hstep => hw.step hstep
  have hstuck := stuck_of_raises hinv hmem hraises
  have hend : StuckSince (w.callWrite write) u :=
    hafter.invariant ⟨hstuck, rfl, rfl⟩ fun _ _ _ hv _ hstep => hv.step hstep
  exact ⟨hend.running, hend.made_eq, hend.refcount_eq.trans (refcount_of_raises hraises)⟩

/-- A response is started while the request is still being read. -/
theorem early_not_errorAtomic : ∃ w,
    [Action.startResponse sampleResponse].foldlM World.step { conn := .start {} } = some w ∧
      ¬ErrorAtomic w (.callWrite (.writeResponse sampleResponse)) := by
  have hrun : ([Action.startResponse sampleResponse].foldlM World.step
      { conn := .start {} }).map (fun w =>
        (raises (runWrite (.writeResponse sampleResponse) w.conn).1, w.stream.headers_written_)) =
      some (true, true) := by
    decide +kernel
  obtain ⟨w, hw, hsample⟩ := Option.map_eq_some_iff.1 hrun
  simp only [Prod.mk.injEq] at hsample
  refine ⟨w, hw, fun hatomic => ?_⟩
  have hheaders := (hatomic hsample.1).headers_written_
  change w.stream.headers_written_ = false at hheaders
  rw [hsample.2] at hheaders
  cases hheaders

end Stx.Http.HTTPResponseStream
