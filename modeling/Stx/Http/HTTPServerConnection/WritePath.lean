import Stx.Http.HTTPServerConnection
import Stx.Lib.Pipes
import Stx.Lib.Runs

/-! What goes through `write_buf_` to the socket. The sections of a connection run in any order,
and the socket takes any part of what `write()` offers it. -/
namespace Stx.Http.HTTPServerConnection
open Runs Pipes
variable {κ : Type}

/-- `write()` was given to the scheduler. -/
def writeScheduled (c : HTTPServerConnection κ) : Bool :=
  c.scheduler_.any fun
    | .runOnWritable => true
    | _ => false

/-- Outcomes of `conn_->write` with `offered` bytes. A write of no bytes does not block. -/
def WritePossible (offered : Nat) : Result Nat → Prop
  | .ok len => len ≤ offered
  | .raise e => e.type = .wouldBlockError → 0 < offered
  | .diverge => False

instance (offered : Nat) : DecidablePred (WritePossible offered)
  | .ok len => inferInstanceAs (Decidable (len ≤ offered))
  | .raise e => inferInstanceAs (Decidable (e.type = .wouldBlockError → 0 < offered))
  | .diverge => inferInstanceAs (Decidable False)

/-- The sockets of the source never say that a write would block, but fail instead. -/
theorem writePossible_write {offered : Nat} {call : Except Net.Errno Nat}
    (h : ∀ len, call = .ok len → len ≤ offered) :
    WritePossible offered (Net.TCPConnection.write call) := by
  cases call with
  | ok len => exact h len rfl
  | error errno =>
    intro htype
    cases htype

/-- Only the scheduler runs `write()`. -/
def Possible (c : HTTPServerConnection κ) : Section κ → Prop
  | .write res => c.writeScheduled ∧ WritePossible c.write_buf_.unsent.length res
  | _ => True

instance (c : HTTPServerConnection κ) (s : Section κ) : Decidable (c.Possible s) :=
  match s with
  | .write res =>
    inferInstanceAs (Decidable (c.writeScheduled ∧ WritePossible c.write_buf_.unsent.length res))
  | .read _ | .readRequestBody _ _ | .read_body_chunk_fn _ _ | .writeResponse _ _ _
  | .writeResponseBody _ _ _ | .finishResponse | .close => inferInstanceAs (Decidable True)

/-- What the socket takes in a section. -/
def takenBy (c : HTTPServerConnection κ) : Section κ → Bytes
  | .write (.ok len) => c.write_buf_.unsent.take len
  | _ => []

/-- What a section adds to the response: the text of the generator, or a body chunk. -/
def addedBy (c : HTTPServerConnection κ) : Section κ → Bytes
  | .writeResponse resp _ _ =>
    if c.parser_.state_ = .done then HTTPGenerator.responseText resp else []
  | .writeResponseBody data _ _ => if c.parser_.state_ = .done then data else []
  | _ => []

/-- A connection with all that its socket accepted, and all that was to be sent. -/
structure Wire (κ : Type) where
  conn : HTTPServerConnection κ
  accepted : Bytes := []
  appended : Bytes := []

namespace Wire

def step (w : Wire κ) (s : Section κ) : Option (Wire κ) :=
  if w.conn.Possible s then
    some
      { conn := (s.run w.conn).2
        accepted := w.accepted ++ w.conn.takenBy s
        appended := w.appended ++ w.conn.addedBy s }
  else none

def pipe (w : Wire κ) : Pipe UInt8 := ⟨w.accepted, w.conn.write_buf_.unsent⟩

end Wire

/-- The section leaves the output side alone, or only schedules one more `write()`. -/
structure SameOutput (c d : HTTPServerConnection κ) : Prop where
  buf_eq : d.write_buf_ = c.write_buf_
  completed_eq : d.on_write_completed_cb_ = c.on_write_completed_cb_
  scheduled : d.writeScheduled → c.writeScheduled ∨ c.on_write_completed_cb_.isSome

namespace SameOutput

theorem refl (c : HTTPServerConnection κ) : SameOutput c c := ⟨rfl, rfl, .inl⟩

theorem trans (c d e : HTTPServerConnection κ) (h : SameOutput c d) (h' : SameOutput d e) :
    SameOutput c e where
  buf_eq := h'.buf_eq.trans h.buf_eq
  completed_eq := h'.completed_eq.trans h.completed_eq
  scheduled hsched := by
    rcases h'.scheduled hsched with hd | hd
    · exact h.scheduled hd
    · exact .inr (h.completed_eq ▸ hd)

end SameOutput

theorem writeScheduled_append (c : HTTPServerConnection κ) (requests : List (Request κ)) :
    writeScheduled { c with scheduler_ := c.scheduler_ ++ requests } =
      (c.writeScheduled || requests.any fun
        | .runOnWritable => true
        | _ => false) := by
  simp [writeScheduled]

theorem same_modify {f : HTTPServerConnection κ → HTTPServerConnection κ}
    (h : ∀ c, (f c).write_buf_ = c.write_buf_ ∧
      (f c).on_write_completed_cb_ = c.on_write_completed_cb_ ∧
      (f c).writeScheduled = c.writeScheduled) : (Sys.modify f).Keeps SameOutput := by
  intro c
  have hc := h c
  exact ⟨hc.1, hc.2.1, fun hsched => .inl (hc.2.2 ▸ hsched)⟩

theorem same_bind {α β : Type} {x : Sys (HTTPServerConnection κ) α}
    {f : α → Sys (HTTPServerConnection κ) β} (hx : x.Keeps SameOutput)
    (hf : ∀ a, (f a).Keeps SameOutput) : (x >>= f).Keeps SameOutput :=
  hx.bind SameOutput.trans hf

theorem same_reads {α : Type} (f : HTTPServerConnection κ → Result α) :
    (Sys.reads f).Keeps SameOutput :=
  Sys.keeps_reads SameOutput.refl f

theorem same_pure {α : Type} (a : α) :
    (pure a : Sys (HTTPServerConnection κ) α).Keeps SameOutput :=
  Sys.keeps_pure SameOutput.refl a

theorem same_awaitRead : (awaitRead : Sys (HTTPServerConnection κ) Unit).Keeps SameOutput := by
  apply same_bind (same_reads _)
  intro _
  apply same_modify
  intro c
  simp [writeScheduled_append]

theorem same_dispatchRequest (c : HTTPServerConnection κ) : SameOutput c c.dispatchRequest :=
  ⟨rfl, rfl, .inl⟩

theorem same_read_body_chunk_fn (callback : κ) (data : Bytes) (c : HTTPServerConnection κ) :
    SameOutput c (read_body_chunk_fn callback data c) := by
  unfold read_body_chunk_fn
  dsimp only
  split
  · exact ⟨rfl, rfl, fun hsched => .inl (by simpa [writeScheduled] using hsched)⟩
  · exact ⟨rfl, rfl, .inl⟩

theorem same_onEvent (c : HTTPServerConnection κ) (event : Event) :
    SameOutput c (c.onEvent event) := by
  cases event with
  | bodyChunk data =>
    unfold onEvent
    cases c.on_body_chunk_cb_ with
    | none => exact ⟨rfl, rfl, .inl⟩
    | some callback => exact same_read_body_chunk_fn callback data c
  | headersComplete => exact same_dispatchRequest c
  | _ => exact ⟨rfl, rfl, .inl⟩

theorem same_foldl_onEvent (events : List Event) (c : HTTPServerConnection κ) :
    SameOutput c (events.foldl onEvent c) := by
  induction events generalizing c with
  | nil => exact .refl c
  | cons event events ih => exact (same_onEvent c event).trans _ _ _ (ih _)

theorem same_parse (data : Bytes) :
    (parse data : Sys (HTTPServerConnection κ) Unit).Keeps SameOutput := by
  intro c
  have hparser : SameOutput c
      { c with parser_ := (HTTPParser.parse data (clearCalls c.parser_)).2 } :=
    ⟨rfl, rfl, .inl⟩
  exact hparser.trans _ _ _ (same_foldl_onEvent _ _)

theorem same_readMore : (readMore : Sys (HTTPServerConnection κ) (Next κ)).Keeps SameOutput := by
  intro c
  rw [readMore, Sys.get_bind]
  split
  · exact .refl c
  · exact same_bind same_awaitRead (fun _ => same_pure _) c

theorem same_giveUp : (giveUp : Sys (HTTPServerConnection κ) (Next κ)).Keeps SameOutput :=
  same_reads _

theorem same_readData (data : Bytes) :
    (readData data : Sys (HTTPServerConnection κ) (Next κ)).Keeps SameOutput := by
  cases data with
  | nil =>
    have heof : (eof : Sys (HTTPServerConnection κ) Unit).Keeps SameOutput :=
      fun c => ⟨rfl, rfl, .inl⟩
    exact keeps_tryCatch SameOutput.trans heof (fun _ => same_giveUp) fun _ => same_giveUp
  | cons b data =>
    exact keeps_tryCatch SameOutput.trans (same_parse _) (fun _ => same_readMore) fun _ => same_giveUp

theorem same_read (res : Result Bytes) :
    (read res : Sys (HTTPServerConnection κ) (Next κ)).Keeps SameOutput := by
  apply keeps_tryCatch SameOutput.trans (same_reads _)
  · intro data
    exact same_bind (same_modify fun c => ⟨rfl, rfl, rfl⟩) fun _ => same_readData data
  · intro e
    split
    · exact same_bind same_awaitRead fun _ => same_pure _
    · exact same_giveUp

theorem same_readRequestBody (callback on_error : κ) :
    (readRequestBody callback on_error).Keeps SameOutput := by
  apply same_bind (same_reads _)
  intro _
  exact same_modify fun c => ⟨rfl, rfl, rfl⟩

theorem same_close : (close : Sys (HTTPServerConnection κ) Unit).Keeps SameOutput := by
  apply same_bind (same_reads _)
  intro _
  apply same_bind
  · exact same_modify fun _ => ⟨rfl, rfl, rfl⟩
  · intro _
    apply same_modify
    intro c
    simp [writeScheduled_append]

theorem same_finishResponse :
    (finishResponse : Sys (HTTPServerConnection κ) Unit).Keeps SameOutput := by
  apply same_bind
  · exact same_modify fun _ => ⟨rfl, rfl, rfl⟩
  · exact fun _ => same_close

/-- One more `write()` for a connection that has a callback to run behind it. -/
theorem same_awaitWrite {c : HTTPServerConnection κ}
    (h : c.writeScheduled ∨ c.on_write_completed_cb_.isSome) :
    SameOutput c (awaitWrite c).2 := by
  cases hclosed : c.closed_ with
  | true =>
    rw [awaitWrite_of_closed hclosed]
    exact .refl c
  | false =>
    rw [awaitWrite_of_open hclosed]
    exact ⟨rfl, rfl, fun _ => h⟩

/- The three sections that change what is to be sent. -/

/-- What a call of a response does to the output side. -/
structure Adds (text : Bytes) (c d : HTTPServerConnection κ) : Prop where
  buf_eq : d.write_buf_ = c.write_buf_.append text
  callback : (c.writeScheduled → c.on_write_completed_cb_.isSome) →
    d.writeScheduled → d.on_write_completed_cb_.isSome

theorem adds_nothing (c : HTTPServerConnection κ) : Adds [] c c where
  buf_eq := by simp [MarkedBuffer.append]
  callback h := h

/-- The end of both calls, behind text that is in `write_buf_` already. -/
theorem adds_of_append (text : Bytes) (ready_callback on_error : κ) (c : HTTPServerConnection κ) :
    Adds text c ((do setCallbacks ready_callback on_error; awaitWrite :
      Sys (HTTPServerConnection κ) Unit) { c with write_buf_ := c.write_buf_.append text }).2 := by
  have hsame := same_awaitWrite
    (c := { c with
      write_buf_ := c.write_buf_.append text, on_write_completed_cb_ := some ready_callback
      on_error_cb_ := some on_error }) (.inr rfl)
  exact ⟨hsame.buf_eq, fun _ _ => by simp [setCallbacks, hsame.completed_eq]⟩

theorem adds_writeResponse (resp : HTTPResponse) (ready_callback on_error : κ)
    (c : HTTPServerConnection κ) :
    Adds (c.addedBy (.writeResponse resp ready_callback on_error)) c
      (writeResponse resp ready_callback on_error c).2 := by
  by_cases hdone : c.parser_.state_ = .done
  · have hbuf := toWriteBuf_writeResponse resp c
    rw [writeResponse, Sys.bind_of_ok (checkRequestRead_of_done hdone)]
    simp only [addedBy, if_pos hdone]
    cases hgen : (HTTPGenerator.writeResponse resp []).1 with
    | ok a =>
      rw [hgen] at hbuf
      rw [Sys.bind_of_ok hbuf]
      exact adds_of_append _ ready_callback on_error c
    | raise e =>
      rw [hgen] at hbuf
      rw [Sys.bind_of_raise hbuf]
      exact ⟨rfl, fun h => h⟩
    | diverge =>
      rw [hgen] at hbuf
      rw [Sys.bind_of_diverge hbuf]
      exact ⟨rfl, fun h => h⟩
  · rw [writeResponse, Sys.bind_of_raise (checkRequestRead_of_not_done hdone)]
    simp only [addedBy, if_neg hdone]
    exact adds_nothing c

theorem adds_writeResponseBody (data : Bytes) (ready_callback on_error : κ)
    (c : HTTPServerConnection κ) :
    Adds (c.addedBy (.writeResponseBody data ready_callback on_error)) c
      (writeResponseBody data ready_callback on_error c).2 := by
  by_cases hdone : c.parser_.state_ = .done
  · rw [writeResponseBody, Sys.bind_of_ok (checkRequestRead_of_done hdone)]
    simp only [addedBy, if_pos hdone]
    exact adds_of_append data ready_callback on_error c
  · rw [writeResponseBody, Sys.bind_of_raise (checkRequestRead_of_not_done hdone)]
    simp only [addedBy, if_neg hdone]
    exact adds_nothing c

/-- The mark is inside the buffer, and a `write()` that is to come has a callback to run. -/
structure OutputInv (c : HTTPServerConnection κ) : Prop where
  mark_le : c.write_buf_.mark ≤ c.write_buf_.data.length
  callback : c.writeScheduled → c.on_write_completed_cb_.isSome

theorem SameOutput.inv {c d : HTTPServerConnection κ} (h : SameOutput c d) (hc : c.OutputInv) :
    d.OutputInv where
  mark_le := h.buf_eq ▸ hc.mark_le
  callback hsched := by
    rw [h.completed_eq]
    exact (h.scheduled hsched).elim hc.callback id

theorem Adds.inv {text : Bytes} {c d : HTTPServerConnection κ} (h : Adds text c d)
    (hc : c.OutputInv) : d.OutputInv where
  mark_le := by
    rw [h.buf_eq]
    simpa [MarkedBuffer.append] using Nat.le_add_right_of_le hc.mark_le
  callback := h.callback hc.callback

theorem Adds.unsent_eq {text : Bytes} {c d : HTTPServerConnection κ} (h : Adds text c d)
    (hc : c.OutputInv) : d.write_buf_.unsent = c.write_buf_.unsent ++ text := by
  rw [h.buf_eq]
  exact List.drop_append_of_le_length hc.mark_le

theorem awaits_ne_completed (c : HTTPServerConnection κ) :
    ((do awaitWrite; return .nothing : Sys (HTTPServerConnection κ) (Next κ)) c).1 ≠
      .ok .writeCompleted := by
  intro hdone
  obtain ⟨_, _, _, hnext⟩ := Sys.bind_eq_ok (Prod.ext hdone rfl)
  cases hnext

/-- `write()` when the socket took `len` bytes: they are no longer in the unsent part, and the
callback is run exactly when nothing else is. -/
theorem write_taken {c : HTTPServerConnection κ} (hc : c.OutputInv) (hsched : c.writeScheduled)
    (len : Nat) :
    (write (.ok len) c).2.OutputInv ∧
      (write (.ok len) c).2.write_buf_.unsent = c.write_buf_.unsent.drop len ∧
      (write (.ok len) c).2.on_write_completed_cb_ = c.on_write_completed_cb_ ∧
      ((write (.ok len) c).1 = .ok .writeCompleted ↔ c.write_buf_.unsent.drop len = []) := by
  have hdrop : c.write_buf_.unsent.drop len =
      c.write_buf_.data.drop (c.write_buf_.mark + len) := List.drop_drop
  have hrun : write (.ok len) c = writeMore (countSent len c) := rfl
  rw [hrun, hdrop, writeMore, Sys.get_bind]
  by_cases hmore : c.write_buf_.mark + len < c.write_buf_.data.length
  · have hif : (countSent len c).write_buf_.mark < (countSent len c).write_buf_.data.length :=
      hmore
    have hsame := same_awaitWrite (c := (countSent len c)) (.inl hsched)
    have hinv : (countSent len c).OutputInv := ⟨Nat.le_of_lt hmore, hc.callback⟩
    rw [if_pos hif, Sys.bind_pure_snd]
    refine ⟨hsame.inv hinv, ?_, hsame.completed_eq, ?_⟩
    · rw [hsame.buf_eq]
      rfl
    · rw [List.drop_eq_nil_iff]
      constructor
      · exact fun hdone => absurd hdone (awaits_ne_completed _)
      · exact fun hle => absurd hmore (Nat.not_lt.2 hle)
  · have hif : ¬(countSent len c).write_buf_.mark <
      (countSent len c).write_buf_.data.length := hmore
    rw [if_neg hif, Sys.modify_bind]
    have hnil := List.drop_of_length_le (Nat.le_of_not_lt hmore)
    exact ⟨⟨Nat.zero_le _, hc.callback⟩, hnil.symm, rfl, by simpa using hnil⟩

/-- `write()` when the socket took nothing. -/
theorem write_refused {c : HTTPServerConnection κ} (hsched : c.writeScheduled) (e : Exception) :
    SameOutput c (write (.raise e) c).2 ∧ (write (.raise e) c).1 ≠ .ok .writeCompleted ∧
      (e.type ≠ .wouldBlockError → (write (.raise e) c).1 = .ok (.close c.on_error_cb_)) := by
  have hrun : write (.raise e) c =
      (if e.type = .wouldBlockError then do
        awaitWrite
        return .nothing
      else giveUp : Sys (HTTPServerConnection κ) (Next κ)) c := rfl
  rw [hrun]
  by_cases hblock : e.type = .wouldBlockError
  · rw [if_pos hblock, Sys.bind_pure_snd]
    exact ⟨same_awaitWrite (.inl hsched), awaits_ne_completed c, fun h => absurd hblock h⟩
  · rw [if_neg hblock]
    refine ⟨.refl c, ?_, fun _ => rfl⟩
    intro hdone
    cases hdone

/-- What a section that puts nothing in and passes nothing on does to the pipe. -/
theorem SameOutput.flows {c d : HTTPServerConnection κ} (h : SameOutput c d) (accepted : Bytes) :
    Pipe.Flows ⟨accepted, c.write_buf_.unsent⟩ ⟨accepted ++ [], d.write_buf_.unsent⟩ [] := by
  rw [List.append_nil, h.buf_eq]
  exact .stays

theorem Adds.flows {text : Bytes} {c d : HTTPServerConnection κ} (h : Adds text c d)
    (hc : c.OutputInv) (accepted : Bytes) :
    Pipe.Flows ⟨accepted, c.write_buf_.unsent⟩ ⟨accepted ++ [], d.write_buf_.unsent⟩ text := by
  rw [List.append_nil, h.unsent_eq hc]
  exact .puts

/-- Every section is a move of the pipe: it puts in what the section adds, and passes on what the
socket takes. -/
theorem section_flows {c : HTTPServerConnection κ} {s : Section κ} (hc : c.OutputInv)
    (hp : c.Possible s) (accepted : Bytes) :
    (s.run c).2.OutputInv ∧
      Pipe.Flows ⟨accepted, c.write_buf_.unsent⟩
        ⟨accepted ++ c.takenBy s, (s.run c).2.write_buf_.unsent⟩ (c.addedBy s) := by
  cases s with
  | read res =>
    have hsame := same_read res c
    exact ⟨hsame.inv hc, hsame.flows accepted⟩
  | readRequestBody callback on_error =>
    have hsame : SameOutput c ((Section.readRequestBody callback on_error).run c).2 := by
      rw [Section.run, Sys.bind_pure_snd]
      exact same_readRequestBody callback on_error c
    exact ⟨hsame.inv hc, hsame.flows accepted⟩
  | read_body_chunk_fn callback data =>
    have hsame := same_read_body_chunk_fn callback data c
    exact ⟨hsame.inv hc, hsame.flows accepted⟩
  | finishResponse =>
    have hsame : SameOutput c (Section.finishResponse.run c).2 := by
      rw [Section.run, Sys.bind_pure_snd]
      exact same_finishResponse c
    exact ⟨hsame.inv hc, hsame.flows accepted⟩
  | close =>
    have hsame : SameOutput c (Section.close.run c).2 := by
      rw [Section.run, Sys.bind_pure_snd]
      exact same_close c
    exact ⟨hsame.inv hc, hsame.flows accepted⟩
  | writeResponse resp ready_callback on_error =>
    rw [Section.run, Sys.bind_pure_snd]
    have hadds := adds_writeResponse resp ready_callback on_error c
    exact ⟨hadds.inv hc, hadds.flows hc accepted⟩
  | writeResponseBody data ready_callback on_error =>
    rw [Section.run, Sys.bind_pure_snd]
    have hadds := adds_writeResponseBody data ready_callback on_error c
    exact ⟨hadds.inv hc, hadds.flows hc accepted⟩
  | write res =>
    cases res with
    | ok len =>
      obtain ⟨hinv, hunsent, -, -⟩ := write_taken hc hp.1 len
      have hpass := Pipe.Flows.passes (p := ⟨accepted, c.write_buf_.unsent⟩) len
      rw [Pipe.pass, ← hunsent] at hpass
      exact ⟨hinv, hpass⟩
    | raise e =>
      have hsame := (write_refused hp.1 e).1
      exact ⟨hsame.inv hc, hsame.flows accepted⟩
    | diverge => exact hp.2.elim

namespace Wire

/-- What every run keeps. -/
structure Inv (w : Wire κ) : Prop where
  output : w.conn.OutputInv
  all_eq : w.pipe.all = w.appended

theorem step_eq_some {w w' : Wire κ} {s : Section κ} :
    w.step s = some w' ↔ w.conn.Possible s ∧
      w' = ⟨(s.run w.conn).2, w.accepted ++ w.conn.takenBy s, w.appended ++ w.conn.addedBy s⟩ := by
  unfold step
  by_cases hp : w.conn.Possible s
  · simp only [hp, if_true, Option.some_inj, true_and, eq_comm]
  · simp [hp]

theorem Inv.start (stats : HTTPServerStats) :
    Inv (κ := κ) { conn := HTTPServerConnection.start stats } where
  output := ⟨Nat.zero_le _, fun h => by cases h⟩
  all_eq := rfl

theorem Inv.step {w w' : Wire κ} {s : Section κ} (h : w.Inv) (hstep : w.step s = some w') :
    w'.Inv := by
  obtain ⟨hp, rfl⟩ := step_eq_some.1 hstep
  obtain ⟨hinv, hflows⟩ := section_flows h.output hp w.accepted
  have hall := hflows.all_eq
  exact ⟨hinv, hall.trans (congrArg (· ++ _) h.all_eq)⟩

end Wire

/-- The section behind which `write()` calls a callback. -/
def Completes (c : HTTPServerConnection κ) (res : Result Nat) : Prop :=
  (write res c).1 = .ok .writeCompleted ∧ (write res c).2.on_write_completed_cb_.isSome

/-- The connection is not given up. -/
def staysOpen (c : HTTPServerConnection κ) (res : Result Nat) : Bool :=
  match (write res c).1 with
  | .ok (.close _) => false
  | _ => true

theorem completes_iff {c : HTTPServerConnection κ} (hc : c.OutputInv) {res : Result Nat}
    (hp : c.Possible (.write res)) (hopen : c.staysOpen res) :
    c.Completes res ↔ (write res c).2.write_buf_.unsent = [] := by
  obtain ⟨hsched, hpossible⟩ := hp
  cases res with
  | ok len =>
    obtain ⟨-, hunsent, hcallback, hdone⟩ := write_taken hc hsched len
    rw [Completes, hcallback, hdone, hunsent]
    exact and_iff_left (hc.callback hsched)
  | raise e =>
    obtain ⟨hsame, hdone, hclose⟩ := write_refused hsched e
    have hblock : e.type = .wouldBlockError := by
      by_contra hne
      rw [staysOpen, hclose hne] at hopen
      cases hopen
    have hoffered : c.write_buf_.unsent ≠ [] := List.ne_nil_of_length_pos (hpossible hblock)
    rw [Completes, hsame.buf_eq]
    exact iff_of_false (fun h => hdone h.1) hoffered
  | diverge => exact hpossible.elim

/-- The socket has accepted all that was appended but for the unsent part of `write_buf_`, in
order and once, and the callback is run exactly when there is no unsent part left. -/
theorem write_path_exact {stats : HTTPServerStats} {ss : List (Section κ)} {w : Wire κ}
    (h : Run Wire.step { conn := start stats } ss w) :
    w.accepted ++ w.conn.write_buf_.unsent = w.appended ∧
      ∀ res w', w.step (.write res) = some w' → w.conn.staysOpen res →
        (w.conn.Completes res ↔ w'.accepted = w'.appended) := by
  have hinv : w.Inv := h.invariant (.start stats) fun _ _ _ hw _ hstep => hw.step hstep
  refine ⟨hinv.all_eq, fun res w' hstep hopen => ?_⟩
  obtain ⟨hp, hw'⟩ := Wire.step_eq_some.1 hstep
  have hconn : (write res w.conn).2 = w'.conn := by rw [hw']; rfl
  rw [completes_iff hinv.output hp hopen, hconn, ← (hinv.step hstep).all_eq]
  exact Pipe.held_eq_nil_iff w'.pipe

/-- A request, its response in two parts, and a socket that takes five bytes and then blocks. -/
def sampleSections : List (Section Nat) :=
  [.read (.ok (lit "GET / HTTP/1.1\r\n\r\n")),
    .writeResponse
      { version_ := lit "HTTP/1.1", status_code_ := 200, status_ := lit "OK", body_ := lit "a" } 0 1,
    .write (.ok 5), .writeResponseBody (lit "b") 0 1, .write (.raise ⟨.wouldBlockError, []⟩)]

def sampleWire : Option (Wire Nat) :=
  sampleSections.foldlM (guarded Wire.step fun _ _ => True) { conn := start {} }

theorem write_path_sample : ∃ w w', sampleWire = some w ∧
    w.accepted ++ w.conn.write_buf_.unsent = w.appended ∧
    w.appended = lit "HTTP/1.1 200 OK\r\n\r\nab" ∧ w.step (.write (.ok 16)) = some w' ∧
    (w.conn.Completes (.ok 16) ↔ w'.accepted = w'.appended) := by
  have hsome : (sampleWire.bind fun w => w.step (.write (.ok 16))).isSome := by decide +kernel
  obtain ⟨w', hw'⟩ := Option.isSome_iff_exists.1 hsome
  obtain ⟨w, hw, hstep⟩ := Option.bind_eq_some_iff.1 hw'
  have happended : sampleWire.map Wire.appended = some (lit "HTTP/1.1 200 OK\r\n\r\nab") := by
    decide +kernel
  have hopen : sampleWire.map (fun w => w.conn.staysOpen (.ok 16)) = some true := by
    decide +kernel
  rw [hw] at happended hopen
  have hrun := write_path_exact (reaches_of_foldlM hw)
  exact ⟨w, w', hw, hrun.1, Option.some_inj.1 happended, hstep,
    hrun.2 _ w' hstep (Option.some_inj.1 hopen)⟩

end Stx.Http.HTTPServerConnection
