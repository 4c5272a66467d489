import Stx.Http.HTTPServerConnection
import Stx.Lib.Pipes

/-! The tasks that carry a request body to the callback of `readRequestBody`. The I/O thread
reads the rest of the body while a handler runs the two sections of `readRequestBody`. -/
namespace Stx.Http.HTTPServerConnection
open Pipes
variable {κ : Type}

/-- Sections one after the other. An exception ends its own section only. -/
def exec (ss : List (Section κ)) (c : HTTPServerConnection κ) : HTTPServerConnection κ :=
  ss.foldl (fun c s => (s.run c).2) c

theorem exec_append (ss ts : List (Section κ)) (c : HTTPServerConnection κ) :
    exec (ss ++ ts) c = exec ts (exec ss c) := List.foldl_append

/-- The tasks that were passed to `runAsync`, in order. -/
def tasks (c : HTTPServerConnection κ) : List (Task κ) := c.scheduler_.filterMap Request.task?

/-- All tasks are for the callback, carry the body, and only the last one tells that it ends. -/
structure Delivers (callback : κ) (body : Bytes) (ts : List (Task κ)) : Prop where
  callback_eq : ∀ t ∈ ts, t.callback = callback
  chunks_eq : ts.flatMap Task.chunk = body
  ends : ∃ n, ts.map Task.last_chunk = List.replicate n false ++ [true]

/-- The headers are read, and `got` of the body; `rest` is still to come. -/
structure InBody (p : HTTPParser) (got rest : Bytes) : Prop where
  registered : p.registered .bodyChunk = true
  read_eq : p.body_bytes_read_ = got.length
  expected_eq : p.body_bytes_expected_ = got.length + rest.length
  expected_lt : got.length + rest.length < 2^64
  state_eq : p.state_ = if rest = [] then .done else .body

/-- One more chunk of the body. -/
theorem InBody.parse_chunk {p : HTTPParser} {got data rest : Bytes}
    (h : InBody p got (data ++ rest)) (hne : data ≠ []) :
    ∃ q, HTTPParser.parse data (clearCalls p) = (.ok (), q) ∧ q.calls = [.bodyChunk data] ∧
      InBody q (got ++ data) rest := by
  have hbody : p.state_ = .body := by simpa [hne] using h.state_eq
  have hlt := h.expected_lt
  have hexp := h.expected_eq
  rw [List.length_append] at hlt hexp
  have hmod : (p.body_bytes_read_ + data.length) % 2^64 = got.length + data.length := by
    rw [h.read_eq]
    exact Nat.mod_eq_of_lt (by omega)
  refine ⟨_, HTTPParser.parse_body hne (.inl hbody), ?_, ?_⟩
  · simp [HTTPParser.takeBody, HTTPParser.called_calls, Event.callback, h.registered, clearCalls]
  · constructor
    · simpa [HTTPParser.takeBody, clearCalls] using h.registered
    · simp only [HTTPParser.takeBody, HTTPParser.called_read, clearCalls, hmod, List.length_append]
    · simp [HTTPParser.takeBody, clearCalls, hexp, Nat.add_assoc]
    · simpa [Nat.add_assoc] using hlt
    · simp only [HTTPParser.takeBody, HTTPParser.called_state, clearCalls, hmod, hexp, hbody]
      congr 1
      rw [eq_iff_iff, ← List.length_eq_zero_iff]
      omega

/-- Nothing that has to do with the body is different. -/
structure SameBody (c d : HTTPServerConnection κ) : Prop where
  parser_eq : d.parser_ = c.parser_
  callback_eq : d.on_body_chunk_cb_ = c.on_body_chunk_cb_
  buf_eq : d.body_buf_ = c.body_buf_
  tasks_eq : d.tasks = c.tasks

theorem sameBody_readMore (c : HTTPServerConnection κ) : SameBody c (readMore c).2 := by
  have hrefl : SameBody c c := ⟨rfl, rfl, rfl, rfl⟩
  rw [readMore, Sys.get_bind]
  split
  · exact hrefl
  · rw [Sys.bind_pure_snd, awaitRead]
    cases hclosed : c.closed_ with
    | true =>
      rw [Sys.bind_of_raise (checkOpen_of_closed hclosed _)]
      exact hrefl
    | false =>
      rw [Sys.bind_of_ok (checkOpen_of_open hclosed _)]
      exact ⟨rfl, rfl, rfl, by simp [tasks, schedule, Request.task?]⟩

theorem SameBody.refl (c : HTTPServerConnection κ) : SameBody c c := ⟨rfl, rfl, rfl, rfl⟩

theorem parse_eq {c : HTTPServerConnection κ} {data : Bytes} {r : Result Unit} {q : HTTPParser}
    (h : HTTPParser.parse data (clearCalls c.parser_) = (r, q)) :
    parse data c = (r, q.calls.foldl onEvent { c with parser_ := q }) := by
  simp only [parse, h]

/-- A read gives its chunk to the body callback. -/
theorem read_chunk {c : HTTPServerConnection κ} {got data rest : Bytes}
    (h : InBody c.parser_ got (data ++ rest)) (hne : data ≠ []) :
    ∃ e, InBody e.parser_ (got ++ data) rest ∧ SameBody { c with parser_ := e.parser_ } e ∧
      SameBody (onEvent e (.bodyChunk data)) (exec [.read (.ok data)] c) := by
  obtain ⟨q, hparse, hcalls, hq⟩ := h.parse_chunk hne
  refine ⟨{ countReceived data.length c with parser_ := q }, hq, ⟨rfl, rfl, rfl, rfl⟩, ?_⟩
  have hrun : exec [.read (.ok data)] c = (readData data (countReceived data.length c)).2 := rfl
  have hchunk := parse_eq (c := countReceived data.length c) hparse
  rw [hcalls] at hchunk
  have hdata : readData data = tryCatch (parse data) (fun _ => readMore (κ := κ)) fun _ => giveUp := by
    cases data with
    | nil => exact absurd rfl hne
    | cons b data => rfl
  rw [hrun, hdata, tryCatch, hchunk]
  exact sameBody_readMore _

theorem onEvent_bodyChunk_none {c : HTTPServerConnection κ} (h : c.on_body_chunk_cb_ = none)
    (data : Bytes) : onEvent c (.bodyChunk data) = { c with body_buf_ := c.body_buf_ ++ data } := by
  rw [onEvent, h]

theorem onEvent_bodyChunk_some {c : HTTPServerConnection κ} {callback : κ}
    (h : c.on_body_chunk_cb_ = some callback) (data : Bytes) :
    onEvent c (.bodyChunk data) = read_body_chunk_fn callback data c := by
  rw [onEvent, h]

theorem InBody.done_iff {p : HTTPParser} {got rest : Bytes} (h : InBody p got rest) :
    p.state_ = .done ↔ rest = [] := by
  rw [h.state_eq]
  split
  · next hnil => exact iff_of_true rfl hnil
  · next hne => exact iff_of_false (by simp) hne

/-- Before `readRequestBody`: what was read of the body is in `body_buf_`. -/
structure Buffering (c : HTTPServerConnection κ) (got rest : Bytes) : Prop where
  inBody : InBody c.parser_ got rest
  callback_eq : c.on_body_chunk_cb_ = none
  buf_eq : c.body_buf_ = got
  tasks_eq : c.tasks = []

/-- Behind its first section: what was read is in the tasks, followed by `body_buf_`. -/
structure Registered (callback : κ) (c : HTTPServerConnection κ) (got rest : Bytes) : Prop where
  inBody : InBody c.parser_ got rest
  callback_eq : c.on_body_chunk_cb_ = some callback
  all_eq : Pipe.all ⟨c.tasks.flatMap Task.chunk, c.body_buf_⟩ = got
  callbacks : ∀ t ∈ c.tasks, t.callback = callback

/-- `last_chunk` of the tasks. -/
def marks (c : HTTPServerConnection κ) : List Bool := c.tasks.map Task.last_chunk

theorem Buffering.read {c : HTTPServerConnection κ} {got data rest : Bytes}
    (h : c.Buffering got (data ++ rest)) (hne : data ≠ []) :
    (exec [.read (.ok data)] c).Buffering (got ++ data) rest := by
  obtain ⟨e, he, hsame, hevent⟩ := read_chunk h.inBody hne
  rw [onEvent_bodyChunk_none (hsame.callback_eq.trans h.callback_eq)] at hevent
  constructor
  · rw [hevent.parser_eq]
    exact he
  · exact hevent.callback_eq.trans (hsame.callback_eq.trans h.callback_eq)
  · exact hevent.buf_eq.trans (congrArg (· ++ data) (hsame.buf_eq.trans h.buf_eq))
  · exact hevent.tasks_eq.trans (hsame.tasks_eq.trans h.tasks_eq)

theorem Buffering.register {c : HTTPServerConnection κ} {got rest : Bytes}
    (h : c.Buffering got rest) (callback on_error : κ) :
    (exec [.readRequestBody callback on_error] c).Registered callback got rest ∧
      (exec [.readRequestBody callback on_error] c).marks = [] := by
  have hparsed : headersParsed c.parser_.state_ = true := by
    rw [h.inBody.state_eq]
    split <;> rfl
  have hrun : (Section.readRequestBody callback on_error).run c =
      (.ok .nothing, { c with on_body_chunk_cb_ := some callback, on_error_cb_ := some on_error }) := by
    apply Sys.bind_of_ok
    exact Sys.reads_bind (by rw [if_pos hparsed])
  have hexec : exec [.readRequestBody callback on_error] c =
      { c with on_body_chunk_cb_ := some callback, on_error_cb_ := some on_error } :=
    congrArg Prod.snd hrun
  have htasks : tasks { c with
      on_body_chunk_cb_ := some callback, on_error_cb_ := some on_error } = [] := h.tasks_eq
  rw [hexec]
  refine ⟨⟨h.inBody, rfl, ?_, ?_⟩, ?_⟩
  · rw [htasks]
    exact h.buf_eq
  · rw [htasks]
    simp
  · rw [marks, htasks]
    rfl

/-- The lambda of `readRequestBody` passes everything on, or there is nothing to pass on. -/
theorem Registered.chunk {callback : κ} {c d e : HTTPServerConnection κ}
    {got data rest ahead : Bytes} (h : c.Registered callback got ahead) (hq : InBody e.parser_ (got ++ data) rest)
    (he : SameBody { c with parser_ := e.parser_ } e)
    (hd : SameBody (read_body_chunk_fn callback data e) d) :
    d.Registered callback (got ++ data) rest ∧ d.body_buf_ = [] ∧
      d.marks = c.marks ++
        if rest = [] ∨ c.body_buf_ ++ data ≠ [] then [decide (rest = [])] else [] := by
  have htasks : e.tasks = c.tasks := he.tasks_eq
  have hbuf : e.body_buf_ = c.body_buf_ := he.buf_eq
  have hcallback : e.on_body_chunk_cb_ = some callback := he.callback_eq.trans h.callback_eq
  have hall : c.tasks.flatMap Task.chunk ++ (c.body_buf_ ++ data) = got ++ data := by
    rw [← List.append_assoc]
    exact congrArg (· ++ data) h.all_eq
  by_cases hpass : rest = [] ∨ c.body_buf_ ++ data ≠ []
  · have hif : decide (e.parser_.state_ = .done) = true ∨ 0 < (e.body_buf_ ++ data).length := by
      rw [decide_eq_true_iff, hq.done_iff, hbuf, List.length_pos_iff]
      exact hpass
    simp only [read_body_chunk_fn, if_pos hif] at hd
    have hnew : d.tasks = c.tasks ++ [⟨callback, c.body_buf_ ++ data, decide (rest = [])⟩] := by
      rw [hd.tasks_eq, ← htasks, ← hbuf]
      simp [tasks, Request.task?, hq.done_iff]
    rw [if_pos hpass]
    refine ⟨⟨hd.parser_eq ▸ hq, hd.callback_eq.trans hcallback, ?_, ?_⟩, hd.buf_eq, ?_⟩
    · rw [hd.buf_eq, hnew, ← hall]
      simp [Pipe.all]
    · rw [hnew, List.forall_mem_append]
      exact ⟨h.callbacks, by simp⟩
    · rw [marks, hnew, List.map_append]
      rfl
  · have hif : ¬(decide (e.parser_.state_ = .done) = true ∨ 0 < (e.body_buf_ ++ data).length) := by
      rw [decide_eq_true_iff, hq.done_iff, hbuf, List.length_pos_iff]
      exact hpass
    simp only [read_body_chunk_fn, if_neg hif] at hd
    rw [not_or, not_not] at hpass
    have hnew : d.tasks = c.tasks := hd.tasks_eq.trans htasks
    have hnil : d.body_buf_ = [] := by
      rw [hd.buf_eq, ← hpass.2, ← hbuf]
    rw [if_neg (by simp [hpass])]
    refine ⟨⟨hd.parser_eq ▸ hq, hd.callback_eq.trans hcallback, ?_, ?_⟩, hnil, ?_⟩
    · rw [hnil, hnew, ← hall, hpass.2]
      rfl
    · rw [hnew]
      exact h.callbacks
    · rw [marks, hnew, List.append_nil]
      rfl

/-- A read behind the registration. -/
theorem Registered.read {callback : κ} {c : HTTPServerConnection κ} {got data rest : Bytes}
    (h : c.Registered callback got (data ++ rest)) (hne : data ≠ []) :
    (exec [.read (.ok data)] c).Registered callback (got ++ data) rest ∧
      (exec [.read (.ok data)] c).body_buf_ = [] ∧
      (exec [.read (.ok data)] c).marks = c.marks ++ [decide (rest = [])] := by
  obtain ⟨e, he, hsame, hevent⟩ := read_chunk h.inBody hne
  rw [onEvent_bodyChunk_some (hsame.callback_eq.trans h.callback_eq)] at hevent
  simpa [hne] using h.chunk he hsame hevent

/-- The second section of `readRequestBody`: it tells the end of the body, or passes on what was
buffered. -/
theorem Registered.flush {callback : κ} {c : HTTPServerConnection κ} {got rest : Bytes}
    (h : c.Registered callback got rest) :
    (exec [.read_body_chunk_fn callback []] c).Registered callback got rest ∧
      (exec [.read_body_chunk_fn callback []] c).body_buf_ = [] ∧
      ∃ k, (exec [.read_body_chunk_fn callback []] c).marks =
        c.marks ++ if rest = [] then [true] else List.replicate k false := by
  have hq : InBody c.parser_ (got ++ []) rest := by
    rw [List.append_nil]
    exact h.inBody
  obtain ⟨hreg, hbuf, hmarks⟩ := h.chunk hq (SameBody.refl c) (.refl _)
  rw [List.append_nil] at hreg hmarks
  refine ⟨hreg, hbuf, if c.body_buf_ = [] then 0 else 1, hmarks.trans ?_⟩
  by_cases hrest : rest = []
  · simp [hrest]
  · by_cases hheld : c.body_buf_ = [] <;> simp [hrest, hheld]

/-- The reads of consecutive chunks. -/
def reads (cs : List Bytes) : List (Section κ) := cs.map fun data => .read (.ok data)

theorem exec_reads_cons (data : Bytes) (cs : List Bytes) (c : HTTPServerConnection κ) :
    exec (reads (data :: cs)) c = exec (reads cs) (exec [.read (.ok data)] c) := rfl

theorem Buffering.reads {cs : List Bytes} {c : HTTPServerConnection κ} {got rest : Bytes}
    (h : c.Buffering got (cs.flatten ++ rest)) (hne : ∀ data ∈ cs, data ≠ []) :
    (exec (reads cs) c).Buffering (got ++ cs.flatten) rest := by
  induction cs generalizing c got with
  | nil => simpa [HTTPServerConnection.reads, exec] using h
  | cons data cs ih =>
    rw [List.flatten_cons, List.append_assoc] at h
    have hread := h.read (hne data List.mem_cons_self)
    rw [exec_reads_cons, List.flatten_cons, ← List.append_assoc]
    exact ih hread fun data hdata => hne data (List.mem_cons_of_mem _ hdata)

/-- Every chunk is a task of its own, and the last one is marked if it ends the body. -/
theorem Registered.reads {callback : κ} {cs : List Bytes} {c : HTTPServerConnection κ}
    {got rest : Bytes} (h : c.Registered callback got (cs.flatten ++ rest))
    (hne : ∀ data ∈ cs, data ≠ []) :
    (exec (reads cs) c).Registered callback (got ++ cs.flatten) rest ∧
      (c.body_buf_ = [] → (exec (reads cs) c).body_buf_ = []) ∧
      (exec (reads cs) c).marks = c.marks ++
        if cs ≠ [] ∧ rest = [] then List.replicate (cs.length-1) false ++ [true]
        else List.replicate cs.length false := by
  induction cs generalizing c got with
  | nil => simpa [HTTPServerConnection.reads, exec] using h
  | cons data cs ih =>
    rw [List.flatten_cons, List.append_assoc] at h
    obtain ⟨hread, hbuf, hmarks⟩ := h.read (hne data List.mem_cons_self)
    obtain ⟨hreg, hbufs, hmore⟩ := ih hread fun data hdata => hne data (List.mem_cons_of_mem _ hdata)
    rw [exec_reads_cons, List.flatten_cons, ← List.append_assoc]
    refine ⟨hreg, fun _ => hbufs hbuf, ?_⟩
    · rw [hmore, hmarks, List.append_assoc]
      congr 1
      cases cs with
      | nil => by_cases hrest : rest = [] <;> simp [hrest]
      | cons data' cs =>
        have hdata : data' ≠ [] := hne data' (by simp)
        by_cases hrest : rest = [] <;> simp [hrest, hdata, List.replicate_succ]

/-- An order of the sections: the chunks that are read before, between and behind the two sections
of `readRequestBody`. Every interleaving of the two threads is one. -/
structure Order where
  before : List Bytes
  between : List Bytes
  behind : List Bytes

def Order.chunks (o : Order) : List Bytes := o.before ++ o.between ++ o.behind

def Order.sections (o : Order) (callback on_error : κ) : List (Section κ) :=
  reads o.before ++ [.readRequestBody callback on_error] ++ reads o.between ++
    [.read_body_chunk_fn callback []] ++ reads o.behind

theorem exec_order (o : Order) (callback on_error : κ) (c : HTTPServerConnection κ) :
    exec (o.sections callback on_error) c =
      exec (reads o.behind) (exec [.read_body_chunk_fn callback []] (exec (reads o.between)
        (exec [.readRequestBody callback on_error] (exec (reads o.before) c)))) := by
  simp only [Order.sections, exec_append]

/-- What the sections leave behind, and the marks of the tasks from the three stages. -/
theorem exec_sections {c : HTTPServerConnection κ} {got rest : Bytes} (h : c.Buffering got rest)
    {o : Order} (hne : ∀ data ∈ o.chunks, data ≠ []) (hrest : o.chunks.flatten = rest)
    (callback on_error : κ) :
    ∃ d k, exec (o.sections callback on_error) c = d ∧ d.Registered callback (got ++ rest) [] ∧
      d.body_buf_ = [] ∧
      d.marks =
        (if o.between ≠ [] ∧ o.behind.flatten = [] then
          List.replicate (o.between.length-1) false ++ [true]
        else List.replicate o.between.length false) ++
        (if o.behind.flatten = [] then [true] else List.replicate k false) ++
        if o.behind ≠ [] then List.replicate (o.behind.length-1) false ++ [true] else [] := by
  simp only [Order.chunks, List.mem_append, or_imp, forall_and] at hne
  obtain ⟨⟨hbefore, hbetween⟩, hbehind⟩ := hne
  rw [← hrest, Order.chunks, List.flatten_append, List.flatten_append, List.append_assoc] at h ⊢
  obtain ⟨hreg, hstart⟩ := (h.reads hbefore).register callback on_error
  obtain ⟨hmid, -, hmidmarks⟩ := hreg.reads hbetween
  obtain ⟨hflush, hbuf, k, hflushmarks⟩ := hmid.flush
  rw [← List.append_nil o.behind.flatten] at hflush
  obtain ⟨hlast, hlastbuf, hlastmarks⟩ := hflush.reads hbehind
  refine ⟨_, k, exec_order o callback on_error c, ?_, ?_, ?_⟩
  · simpa only [List.append_assoc] using hlast
  · exact hlastbuf hbuf
  · rw [hlastmarks, hflushmarks, hmidmarks, hstart, List.nil_append]
    congr 1
    by_cases hnil : o.behind = [] <;> simp [hnil]

theorem not_ends_twice (n m : Nat) :
    List.replicate n false ++ [true] ++ [true] ≠ List.replicate m false ++ [true] := by
  intro h
  have hinit := (List.append_inj' h rfl).1
  have hmem : true ∈ List.replicate m false := hinit ▸ by simp
  simp at hmem

/-- The body comes to the callback once, and so does its end unless it is read between the two
sections of `readRequestBody`. -/
theorem delivers_iff {c : HTTPServerConnection κ} {got rest : Bytes} (h : c.Buffering got rest)
    {o : Order} (hne : ∀ data ∈ o.chunks, data ≠ []) (hrest : o.chunks.flatten = rest)
    (callback on_error : κ) :
    Delivers callback (got ++ rest) (exec (o.sections callback on_error) c).tasks ↔
      o.between = [] ∨ o.behind ≠ [] := by
  obtain ⟨d, k, hexec, hreg, hbuf, hmarks⟩ := exec_sections h hne hrest callback on_error
  rw [hexec]
  have hchunks : d.tasks.flatMap Task.chunk = got ++ rest := by
    have hall := hreg.all_eq
    rwa [hbuf, Pipe.all, List.append_nil] at hall
  have hbehind : o.behind.flatten = [] ↔ o.behind = [] := by
    rw [List.flatten_eq_nil_iff]
    constructor
    · intro hnil
      apply List.eq_nil_iff_forall_not_mem.2
      intro data hdata
      exact hne data (List.mem_append_right _ hdata) (hnil data hdata)
    · rintro hnil data hdata
      rw [hnil] at hdata
      cases hdata
  have hdelivers : Delivers callback (got ++ rest) d.tasks ↔
      ∃ n, d.marks = List.replicate n false ++ [true] :=
    ⟨fun hd => hd.ends, fun hends => ⟨hreg.callbacks, hchunks, hends⟩⟩
  simp only [hdelivers, hmarks, hbehind]
  by_cases hnil : o.behind = []
  · by_cases hbetween : o.between = []
    · simp only [hnil, hbetween]
      exact iff_of_true ⟨0, rfl⟩ (.inl trivial)
    · simp only [hnil, hbetween, ne_eq, not_true, not_false_iff, if_true, if_false, and_self,
        or_self, List.append_nil, iff_false, not_exists]
      exact not_ends_twice _
  · simp only [hnil, and_false, if_false, ne_eq, not_false_iff, if_true, or_true, iff_true]
    refine ⟨o.between.length + k + (o.behind.length-1), ?_⟩
    simp only [List.replicate_add, List.append_assoc]

/-- A connection that has read the headers of a request with a body of three bytes. -/
def sampleConnection : HTTPServerConnection Nat :=
  exec [.read (.ok (lit "POST / HTTP/1.1\r\nContent-Length: 3\r\n\r\n"))] (start {})

theorem sampleConnection_buffering : sampleConnection.Buffering [] (lit "abc") where
  inBody := ⟨by decide +kernel, by decide +kernel, by decide +kernel, by decide, by decide +kernel⟩
  callback_eq := by decide +kernel
  buf_eq := by decide +kernel
  tasks_eq := by decide +kernel

theorem delivers_sample :
    Delivers 0 ([] ++ lit "abc")
      (exec (Order.sections ⟨[lit "a"], [lit "b"], [lit "c"]⟩ 0 1) sampleConnection).tasks ↔
      [lit "b"] = [] ∨ [lit "c"] ≠ [] :=
  delivers_iff sampleConnection_buffering (by decide) (by decide) 0 1

/-- The body ends between the two sections, and the callback is told twice. -/
theorem whole_between_not_delivers :
    ¬Delivers 0 ([] ++ lit "abc")
      (exec (Order.sections ⟨[], [lit "abc"], []⟩ 0 1) sampleConnection).tasks := by
  intro h
  obtain ⟨n, hn⟩ := h.ends
  have hmarks : (exec (Order.sections ⟨[], [lit "abc"], []⟩ 0 1) sampleConnection).tasks.map
      Task.last_chunk = [true, true] := by decide +kernel
  rw [hmarks] at hn
  exact not_ends_twice 0 n hn

end Stx.Http.HTTPServerConnection
