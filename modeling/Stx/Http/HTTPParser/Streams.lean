import Stx.Http.HTTPParser.Tokens

/-! A stream as a sequence of tokens: what taking a token does to the parser, and how a whole
header section is read from any chunks. -/
namespace Stx.Http.HTTPParser

def called (p : HTTPParser) (e : Event) : HTTPParser :=
  if p.registered e.callback then { p with calls := p.calls ++ [e] } else p

section called
variable (p : HTTPParser) (e : Event)

theorem call_apply : call e p = (.ok (), p.called e) := rfl

@[simp] theorem call_bind {α : Type} (f : Unit → Sys HTTPParser α) :
    (call e >>= f) p = f () (p.called e) := rfl

/-- A callback does not look at `state_` and `buf_`. -/
theorem called_moved (st : ParserState) (buf : Bytes) :
    { p with state_ := st, buf_ := buf }.called e =
      { p.called e with state_ := st, buf_ := buf } := by unfold called; split <;> rfl

@[simp] theorem called_state : (p.called e).state_ = p.state_ := by unfold called; split <;> rfl
@[simp] theorem called_buf : (p.called e).buf_ = p.buf_ := by unfold called; split <;> rfl
@[simp] theorem called_mode : (p.called e).mode_ = p.mode_ := by unfold called; split <;> rfl
@[simp] theorem called_registered : (p.called e).registered = p.registered := by
  unfold called; split <;> rfl
@[simp] theorem called_read : (p.called e).body_bytes_read_ = p.body_bytes_read_ := by
  unfold called; split <;> rfl
@[simp] theorem called_expected :
    (p.called e).body_bytes_expected_ = p.body_bytes_expected_ := by unfold called; split <;> rfl
@[simp] theorem called_expect : (p.called e).expect_body_ = p.expect_body_ := by
  unfold called; split <;> rfl

theorem called_calls :
    (p.called e).calls = p.calls ++ if p.registered e.callback then [e] else [] := by
  unfold called
  split <;> simp

theorem mem_called {e' : Event} (h : e' ∈ (p.called e).calls) : e' ∈ p.calls ∨ e' = e := by
  rw [called_calls, List.mem_append] at h
  rcases h with h | h
  · exact .inl h
  · split at h
    · exact .inr (List.mem_singleton.1 h)
    · cases h

theorem calls_called {p : HTTPParser} {e : Event} (h : p.registered e.callback = true) :
    (p.called e).calls = p.calls ++ [e] := by
  rw [called, if_pos h]

end called

/-- The value of `body_bytes_expected_` after a header; `none` when the header is refused. -/
def expectedAfter (mode : ParserMode) (expect : Bool) (n : Nat) (key val : Bytes) : Option Nat :=
  (if expect ∧ isContentLength key then Libc.stoul val else some n).map fun n =>
    if mode = .response ∧ expect ∧ isConnectionClose key val then untilEof else n

theorem untilEof_lt : untilEof < 2^64 := by decide

theorem expectedAfter_lt {mode : ParserMode} {expect : Bool} {m n : Nat} {key val : Bytes}
    (h : expectedAfter mode expect m key val = some n) (hm : m < 2^64) : n < 2^64 := by
  obtain ⟨k, hk, rfl⟩ := Option.map_eq_some_iff.1 h
  split
  · exact untilEof_lt
  · split at hk
    · exact Libc.stoul_lt hk
    · cases hk
      exact hm

theorem processHeader_apply (p : HTTPParser) (key val : Bytes) :
    processHeader key val p =
      match expectedAfter p.mode_ p.expect_body_ p.body_bytes_expected_ key val with
      | some n => (.ok (), { p with body_bytes_expected_ := n }.called (.header key val))
      | none => (.RAISEF .parseError "invalid content length: $0" [val], p) := by
  unfold processHeader expectedAfter
  rw [Sys.get_bind]
  by_cases hlen : p.expect_body_ ∧ isContentLength key
  · rw [if_pos hlen, if_pos hlen]
    cases Libc.stoul val with
    | none => rfl
    | some n =>
      by_cases hclose : p.mode_ = .response ∧ p.expect_body_ ∧ isConnectionClose key val
      · simp [hclose, call_apply]
      · simp [hclose, call_apply]
  · rw [if_neg hlen, if_neg hlen]
    by_cases hclose : p.mode_ = .response ∧ p.expect_body_ ∧ isConnectionClose key val
    · simp [hclose, call_apply]
    · simp [hclose, call_apply]

/- The texts of the errors tell an oversized token from a malformed one. -/

theorem head?_replaceAll {str pattern replacement : Bytes} {b : UInt8} (h : str.head? = some b)
    (hb : pattern.head? ≠ some b) (hne : pattern ≠ []) :
    (StringUtil.replaceAll str pattern replacement).head? = some b := by
  cases str with
  | nil => cases h
  | cons c rest =>
    cases h
    cases pattern with
    | nil => exact absurd rfl hne
    | cons x xs =>
      have hx : (x == b) = false := by simpa using hb
      simp [StringUtil.replaceAll, StringUtil.replaceLoop, List.isPrefixOf, hx]

/-- A format that does not start with a placeholder keeps its first byte in the message. -/
theorem head?_format {type : ErrorType} {fmt : String} {values : List Bytes} {b : UInt8}
    (h : (lit fmt).head? = some b) (hb : b ≠ 36 ∧ b ≠ 0) :
    (Exception.ofString type (StringUtil.format fmt values)).message.head? = some b := by
  have himpl : ∀ (values : List Bytes) (scratch : Bytes) (argn : Nat), scratch.head? = some b →
      (StringUtil.formatImpl scratch argn values).head? = some b := by
    intro values
    induction values with
    | nil => exact fun _ _ h => h
    | cons value values ih =>
      intro scratch argn hs
      apply ih
      apply head?_replaceAll hs
      · change some 36 ≠ some b
        simpa using Ne.symm hb.1
      · exact List.cons_ne_nil _ _
  have htext : (StringUtil.format fmt values).head? = some b := himpl values (lit fmt) 0 h
  cases hformat : StringUtil.format fmt values with
  | nil =>
    rw [hformat] at htext
    cases htext
  | cons c text =>
    rw [hformat] at htext
    obtain rfl := Option.some.inj htext
    simp [Exception.ofString, cStr, hb.2]

/-- The texts "HTTP ... too large, max is ...". -/
theorem Token.head?_tooLarge {st : ParserState} {t : Token} (ht : token? st = some t) :
    t.tooLarge.message.head? = some 72 := by
  cases st <;> cases ht <;> exact head?_format (by decide) (by decide)

/-- What taking a token leaves alone. -/
structure Kept (p q : HTTPParser) : Prop where
  mode_eq : q.mode_ = p.mode_
  registered_eq : q.registered = p.registered
  expect_eq : q.expect_body_ = p.expect_body_
  read_eq : q.body_bytes_read_ = p.body_bytes_read_
  body_eq : bodyOf q.calls = bodyOf p.calls
  expected_lt : p.body_bytes_expected_ < 2^64 → q.body_bytes_expected_ < 2^64

theorem Kept.refl (p : HTTPParser) : Kept p p := ⟨rfl, rfl, rfl, rfl, rfl, id⟩

theorem Kept.trans {p q r : HTTPParser} (h : Kept p q) (h' : Kept q r) : Kept p r where
  mode_eq := h'.mode_eq.trans h.mode_eq
  registered_eq := h'.registered_eq.trans h.registered_eq
  expect_eq := h'.expect_eq.trans h.expect_eq
  read_eq := h'.read_eq.trans h.read_eq
  body_eq := h'.body_eq.trans h.body_eq
  expected_lt := h'.expected_lt ∘ h.expected_lt

theorem bodyOf_append (a b : List Event) : bodyOf (a ++ b) = bodyOf a ++ bodyOf b :=
  List.flatMap_append

theorem bodyOf_called (p : HTTPParser) {e : Event} (h : bodyOf [e] = []) :
    bodyOf (p.called e).calls = bodyOf p.calls := by
  unfold called
  split
  · simp [bodyOf_append, h]
  · rfl

/-- The state behind a complete token. A line of carriage returns ends the header section. -/
def next : ParserState → Bytes → ParserState
  | .reqMethod, _ => .reqURI
  | .reqURI, _ => .reqVersion
  | .reqVersion, _ => .header
  | .resVersion, _ => .resStatusCode
  | .resStatusCode, _ => .resStatusName
  | .resStatusName, _ => .header
  | .header, line => if stripTrailingBytes line 13 = [] then .body else .header
  | .body, _ => .body
  | .done, _ => .done

/-- Name and value of a line of the header section. -/
def lineHeader (line : Bytes) : Option (Bytes × Bytes) :=
  splitHeader (stripTrailingBytes line 13)

/-- `body_bytes_expected_` behind a header line, when a body is expected. -/
def lineExpected (mode : ParserMode) (n : Nat) (line : Bytes) : Option Nat := do
  let (key, val) ← lineHeader line
  expectedAfter mode true n key val

/-- The contents of a token are in order: a known method, a status code that is a number, a
header line with a colon and, if it has the length of the body, with a number. -/
def Accepts : ParserState → Bytes → Prop
  | .reqMethod, tok => (HTTPMethod.ofText? tok).isSome
  | .resStatusCode, tok => (Libc.stoi tok).isSome
  | .header, tok =>
    stripTrailingBytes tok 13 = [] ∨ ∃ key val, lineHeader tok = some (key, val) ∧
      (isContentLength key → (Libc.stoul val).isSome)
  | _, _ => True

theorem isSome_expectedAfter {mode : ParserMode} {n : Nat} {key val : Bytes} :
    (expectedAfter mode true n key val).isSome ↔
      (isContentLength key → (Libc.stoul val).isSome) := by
  rw [expectedAfter, Option.isSome_map]
  by_cases h : isContentLength key = true <;> simp [h]

/-- What holds before the end of the header section; `st` is the state behind a token. -/
structure Early (p q : HTTPParser) (st : ParserState) : Prop where
  complete : st ≠ .body → .headersComplete ∈ q.calls → .headersComplete ∈ p.calls
  start : st ≠ .header → st ≠ .body →
    q.body_bytes_expected_ = p.body_bytes_expected_ ∨ q.body_bytes_expected_ = untilEof

theorem Early.called {p q : HTTPParser} {e : Event} {s : ParserState} (h : Early p q s)
    (he : e ≠ .headersComplete) (buf : Bytes) (st : ParserState) :
    Early p { q.called e with buf_ := buf, state_ := st } s where
  complete hst hmem := by
    rcases mem_called q e hmem with hmem | hmem
    · exact h.complete hst hmem
    · exact absurd hmem.symm he
  start hst hst' := by
    rw [called_expected]
    exact h.start hst hst'

/-- The two ways in which taking the token in `buf_` can end. -/
inductive ReadCase (p : HTTPParser) (t : Token) : Prop
  | ok (q : HTTPParser) (h : t.read p = (.ok (), q)) (hkept : Kept p q) (hbuf : q.buf_ = [])
    (hstate : q.state_ =
      if next p.state_ p.buf_ = .body ∧ q.body_bytes_expected_ = 0 then .done
      else next p.state_ p.buf_)
    (haccepts : Accepts p.state_ p.buf_) (hearly : Early p q (next p.state_ p.buf_))
  | raise (e : Exception) (q : HTTPParser) (h : t.read p = (.raise e, q)) (hkept : Kept p q)
    (hstate : q.state_ ≠ .done) (hhead : e.message.head? ≠ some 72)
    (hrefused : ¬Accepts p.state_ p.buf_)

theorem readMethod_cases {p : HTTPParser} (hs : p.state_ = .reqMethod)
    (hreg : p.registered .method = true) : ReadCase p methodToken := by
  cases hm : HTTPMethod.ofText? p.buf_ with
  | some method =>
    have happly : readMethod p =
        (.ok (), { { p with state_ := .reqURI }.called (.method method) with buf_ := [] }) := by
      rw [readMethod]
      simp only [Sys.modify_bind, Sys.get_bind, hreg, if_true, hm]
      rfl
    refine .ok _ happly ⟨by simp, by simp, by simp, by simp, ?_, by simp⟩ rfl (by simp [hs, next])
      (by simp [hs, Accepts, hm]) ?_
    · exact bodyOf_called { p with state_ := .reqURI } rfl
    · have hearly := Early.called (p := p) (q := { p with state_ := .reqURI })
        (e := .method method) (s := .reqURI) ⟨fun _ => id, fun _ _ => .inl rfl⟩ (by simp) [] .reqURI
      rw [hs]
      exact ⟨hearly.complete, hearly.start⟩
  | none =>
    have happly : readMethod p =
        (.RAISEF .parseError "Invalid HTTP method: $0" [p.buf_], { p with state_ := .reqURI }) := by
      rw [readMethod]
      simp only [Sys.modify_bind, Sys.get_bind, hreg, if_true, hm]
      rfl
    refine .raise _ _ happly ⟨rfl, rfl, rfl, rfl, rfl, id⟩ (by simp) ?_ (by simp [hs, Accepts, hm])
    rw [head?_format (b := 73) (by decide) (by decide)]
    decide

/-- A token that is reported and left behind. -/
theorem ReadCase.reported {p q : HTTPParser} {t : Token} {e : Event} {s : ParserState}
    (h : t.read p = (.ok (), { q.called e with buf_ := [], state_ := s })) (hq : Kept p q)
    (he : bodyOf [e] = []) (hst : next p.state_ p.buf_ = s) (hne : s ≠ .body)
    (hacc : Accepts p.state_ p.buf_) (hearly : Early p q s) (hnot : e ≠ .headersComplete) :
    ReadCase p t := by
  refine .ok _ h (hq.trans ⟨by simp, by simp, by simp, by simp, bodyOf_called q he, by simp⟩) rfl ?_
    hacc ?_
  · rw [hst, if_neg fun hb => hne hb.1]
  · rw [hst]
    exact hearly.called hnot [] s

theorem readLineEnd_cases {p : HTTPParser} {t : Token} {event : Bytes → Event}
    (hread : t.read = readLineEnd event) (hevent : ∀ data, bodyOf [event data] = [])
    (hnot : ∀ data, event data ≠ .headersComplete)
    (hs : next p.state_ p.buf_ = .header) (hacc : Accepts p.state_ p.buf_) : ReadCase p t := by
  refine .reported (q := { p with buf_ := stripTrailingBytes p.buf_ 13 })
    (e := event (stripTrailingBytes p.buf_ 13)) ?_ ⟨rfl, rfl, rfl, rfl, rfl, id⟩ (hevent _) hs
    (by decide) hacc ⟨fun _ => id, fun _ _ => .inl rfl⟩ (hnot _)
  rw [hread]
  rfl

theorem responseVersion_cases {p : HTTPParser} (hs : p.state_ = .resVersion) :
    ReadCase p responseVersionToken := by
  by_cases h : Libc.strncasecmp p.buf_ (lit "HTTP/1.0") p.buf_.length = 0
  · refine .reported (q := { p with body_bytes_expected_ := untilEof }) (e := .version p.buf_)
      (s := .resStatusCode) ?_ ⟨rfl, rfl, rfl, rfl, rfl, fun _ => untilEof_lt⟩ rfl
      (by rw [hs]; rfl) (by decide) (by simp [hs, Accepts]) ⟨fun _ => id, fun _ _ => .inr rfl⟩
      (by simp)
    simp only [responseVersionToken, Sys.modify_bind, Sys.get_bind, if_pos h]
    rfl
  · refine .reported (q := p) (e := .version p.buf_) (s := .resStatusCode) ?_ (.refl p) rfl
      (by rw [hs]; rfl) (by decide) (by simp [hs, Accepts]) ⟨fun _ => id, fun _ _ => .inl rfl⟩
      (by simp)
    simp only [responseVersionToken, Sys.modify_bind, Sys.get_bind, if_neg h]
    rfl

theorem statusCode_cases {p : HTTPParser} (hs : p.state_ = .resStatusCode) :
    ReadCase p statusCodeToken := by
  cases hcode : Libc.stoi p.buf_ with
  | some code =>
    refine .reported (q := p) (e := .statusCode code) (s := .resStatusName) ?_ (.refl p) rfl
      (by rw [hs]; rfl) (by decide) (by simp [hs, Accepts, hcode])
      ⟨fun _ => id, fun _ _ => .inl rfl⟩ (by simp)
    simp only [statusCodeToken, Sys.get_bind, hcode]
    rfl
  | none =>
    have h : statusCodeToken.read p =
        (.RAISEF .parseError "invalid http status code: $0" [p.buf_], p) := by
      simp only [statusCodeToken, Sys.get_bind, hcode]
      rfl
    refine .raise _ _ h (.refl p) (by simp [hs]) ?_ (by simp [hs, Accepts, hcode])
    rw [head?_format (b := 105) (by decide) (by decide)]
    decide

/-- What a line of the header section does. -/
theorem readHeader_apply (p : HTTPParser) :
    readHeader p =
      (let line := stripTrailingBytes p.buf_ 13
      let q := { p with buf_ := line }
      if line = [] then
        (.ok (), { q with state_ := if p.body_bytes_expected_ = 0 then .done else .body }.called
          .headersComplete)
      else
        match splitHeader line with
        | none => (.RAISEF .parseError "invalid HTTP header line: $0" [line], q)
        | some (key, val) =>
          match expectedAfter p.mode_ p.expect_body_ p.body_bytes_expected_ key val with
          | none => (.RAISEF .parseError "invalid content length: $0" [val], q)
          | some n =>
            (.ok (), { { q with body_bytes_expected_ := n }.called (.header key val) with
              buf_ := [], state_ := .header })) := by
  rw [readHeader]
  simp only [Sys.modify_bind, Sys.get_bind]
  by_cases hline : stripTrailingBytes p.buf_ 13 = []
  · rw [if_neg (by simp [hline]), if_pos hline]
    rfl
  · rw [if_pos (List.length_pos_of_ne_nil hline), if_neg hline]
    cases hsplit : splitHeader (stripTrailingBytes p.buf_ 13) with
    | none => rfl
    | some header =>
      obtain ⟨key, val⟩ := header
      have hproc := processHeader_apply { p with buf_ := stripTrailingBytes p.buf_ 13 } key val
      simp only
      cases hn : expectedAfter p.mode_ p.expect_body_ p.body_bytes_expected_ key val with
      | none =>
        rw [hn] at hproc
        exact Sys.bind_of_raise hproc
      | some n =>
        rw [hn] at hproc
        rw [Sys.bind_of_ok hproc]
        rfl

theorem readHeader_cases {p : HTTPParser} (hs : p.state_ = .header)
    (hexpect : p.expect_body_ = true) : ReadCase p headerToken := by
  have happly := readHeader_apply p
  simp only at happly
  have hraised : { p with buf_ := stripTrailingBytes p.buf_ 13 }.state_ ≠ .done := by simp [hs]
  by_cases hline : stripTrailingBytes p.buf_ 13 = []
  · rw [if_pos hline] at happly
    refine .ok _ happly ⟨by simp, by simp, by simp, by simp, ?_, by simp⟩ (by simp [hline]) ?_
      (by simp [hs, Accepts, hline]) ?_
    · exact bodyOf_called _ rfl
    · simp [hs, next, hline]
    · have hend : next p.state_ p.buf_ = .body := by simp [hs, next, hline]
      exact ⟨fun hne => absurd hend hne, fun _ hne => absurd hend hne⟩
  · rw [if_neg hline] at happly
    cases hsplit : splitHeader (stripTrailingBytes p.buf_ 13) with
    | none =>
      rw [hsplit] at happly
      refine .raise _ _ happly ⟨rfl, rfl, rfl, rfl, rfl, id⟩ hraised ?_
        (by simp [hs, Accepts, hline, lineHeader, hsplit])
      rw [head?_format (b := 105) (by decide) (by decide)]
      decide
    | some header =>
      obtain ⟨key, val⟩ := header
      rw [hsplit] at happly
      simp only at happly
      have haccepts : Accepts p.state_ p.buf_ ↔
          (expectedAfter p.mode_ p.expect_body_ p.body_bytes_expected_ key val).isSome := by
        rw [hexpect, isSome_expectedAfter]
        simp [hs, Accepts, hline, lineHeader, hsplit]
      cases hn : expectedAfter p.mode_ p.expect_body_ p.body_bytes_expected_ key val with
      | none =>
        rw [hn] at happly haccepts
        refine .raise _ _ happly ⟨rfl, rfl, rfl, rfl, rfl, id⟩ hraised ?_ (by simp [haccepts])
        rw [head?_format (b := 105) (by decide) (by decide)]
        decide
      | some n =>
        rw [hn] at happly haccepts
        exact .reported happly ⟨rfl, rfl, rfl, rfl, rfl, expectedAfter_lt hn⟩ rfl
          (by simp [hs, next, hline]) (by decide) (by simp [haccepts])
          ⟨fun _ => id, fun hne => absurd rfl hne⟩ (by simp)

/-- Taking a token reports nothing of the body, leaves an empty `buf_`, and goes on to the
next state or raises an error about the contents of the token. -/
theorem read_cases {p : HTTPParser} {t : Token} (ht : token? p.state_ = some t)
    (hreg : p.state_ = .reqMethod → p.registered .method = true)
    (hexpect : p.expect_body_ = true) : ReadCase p t := by
  cases hs : p.state_ with
  | reqMethod => rw [hs] at ht; cases ht; exact readMethod_cases hs (hreg hs)
  | reqURI =>
    rw [hs] at ht
    cases ht
    exact .reported (q := p) (e := .uri p.buf_) rfl (.refl p) rfl (by rw [hs]; rfl) (by decide)
      (by simp [hs, Accepts]) ⟨fun _ => id, fun _ _ => .inl rfl⟩ (by simp)
  | reqVersion =>
    rw [hs] at ht
    cases ht
    exact readLineEnd_cases rfl (fun _ => rfl) (by simp) (by rw [hs]; rfl) (by simp [hs, Accepts])
  | resVersion => rw [hs] at ht; cases ht; exact responseVersion_cases hs
  | resStatusCode => rw [hs] at ht; cases ht; exact statusCode_cases hs
  | resStatusName =>
    rw [hs] at ht
    cases ht
    exact readLineEnd_cases rfl (fun _ => rfl) (by simp) (by rw [hs]; rfl) (by simp [hs, Accepts])
  | header => rw [hs] at ht; cases ht; exact readHeader_cases hs hexpect
  | body => rw [hs] at ht; cases ht
  | done => rw [hs] at ht; cases ht

/- A stream as tokens. -/

def delimiter (st : ParserState) : UInt8 := ((token? st).map Token.search).getD 0

/-- Tokens, each followed by its delimiter. -/
def spell : ParserState → List Bytes → Bytes
  | _, [] => []
  | st, tok :: toks => tok ++ delimiter st :: spell (next st tok) toks

/-- The tokens come before the end of the header section, and none has its delimiter in it. -/
def Spelled : ParserState → List Bytes → Prop
  | _, [] => True
  | st, tok :: toks => (token? st).isSome ∧ delimiter st ∉ tok ∧ Spelled (next st tok) toks

/-- All the tokens are in order. -/
def Accepted : ParserState → List Bytes → Prop
  | _, [] => True
  | st, tok :: toks => Accepts st tok ∧ Accepted (next st tok) toks

def takeTokens : List Bytes → Sys HTTPParser Unit
  | [] => pure ()
  | tok :: toks => do
    takeToken tok
    takeTokens toks

/-- Between two tokens. The end of the header section leads to one of two states. -/
structure Ready (p : HTTPParser) (st : ParserState) : Prop where
  state_eq : p.state_ = if st = .body ∧ p.body_bytes_expected_ = 0 then .done else st
  buf_eq : p.buf_ = []
  expected_lt : p.body_bytes_expected_ < 2^64
  method : st = .reqMethod → p.registered .method = true
  expect : p.expect_body_ = true

theorem Ready.new {mode : ParserMode} {registered : Callback → Bool}
    (h : mode = .request → registered .method = true) :
    Ready (new mode registered) (initial mode) := by
  cases mode with
  | request => exact ⟨rfl, rfl, Nat.two_pow_pos 64, fun _ => h rfl, rfl⟩
  | response => exact ⟨rfl, rfl, Nat.two_pow_pos 64, fun hs => absurd hs (by decide), rfl⟩

theorem next_ne_reqMethod {st : ParserState} {t : Token} (ht : token? st = some t) (tok : Bytes) :
    next st tok ≠ .reqMethod := by
  cases st with
  | header => rw [next]; split <;> simp
  | _ => cases ht <;> simp [next]

theorem token?_ne_body {st : ParserState} {t : Token} (ht : token? st = some t) : st ≠ .body := by
  rintro rfl
  cases ht

theorem Ready.state_of_token {p : HTTPParser} {st : ParserState} {t : Token} (h : Ready p st)
    (ht : token? st = some t) : p.state_ = st := by
  rw [h.state_eq, if_neg fun hb => token?_ne_body ht hb.1]

theorem Ready.token_eq {p : HTTPParser} {st : ParserState} {t : Token} (h : Ready p st)
    (ht : token? st = some t) : token? p.state_ = some t := by
  rw [h.state_of_token ht, ht]

theorem Ready.takeToken_cases {p : HTTPParser} {st : ParserState} {t : Token} (h : Ready p st)
    (ht : token? st = some t) (tok : Bytes) :
    (Accepts st tok ∧ ∃ q, takeToken tok p = (.ok (), q) ∧ Kept p q ∧ Ready q (next st tok)) ∨
    ¬Accepts st tok ∧ ∃ e q, takeToken tok p = (.raise e, q) ∧ Kept p q ∧ q.state_ ≠ .done ∧
      e.message.head? ≠ some 72 := by
  have hst := h.state_of_token ht
  have htp := h.token_eq ht
  rw [takeToken_apply htp]
  have hkept : Kept p (p.append tok) := ⟨rfl, rfl, rfl, rfl, rfl, id⟩
  have hbuf : (p.append tok).buf_ = tok := by rw [append_buf, h.buf_eq, List.nil_append]
  have hcases := read_cases (p := p.append tok) htp (fun hs => h.method (hst.symm.trans hs)) h.expect
  cases hcases with
  | ok q hq hk hqbuf hstate hacc _ =>
    rw [append_state, hbuf, hst] at hstate hacc
    exact .inl ⟨hacc, q, hq, hkept.trans hk, hstate, hqbuf, hk.expected_lt h.expected_lt,
      fun hs => absurd hs (next_ne_reqMethod ht tok), hk.expect_eq.trans h.expect⟩
  | raise e q hq hk hdone hhead hacc =>
    rw [append_state, hbuf, hst] at hacc
    exact .inr ⟨hacc, e, q, hq, hkept.trans hk, hdone, hhead⟩

theorem Ready.takeToken_early {p q : HTTPParser} {st : ParserState} {t : Token} (h : Ready p st)
    (ht : token? st = some t) {tok : Bytes} (hq : takeToken tok p = (.ok (), q)) :
    Early p q (next st tok) := by
  have hst := h.state_of_token ht
  have htp := h.token_eq ht
  rw [takeToken_apply htp] at hq
  have hcases := read_cases (p := p.append tok) htp (fun hs => h.method (hst.symm.trans hs)) h.expect
  cases hcases with
  | ok r hr _ _ _ _ hearly =>
    cases hq.symm.trans hr
    rw [append_state, append_buf, hst, h.buf_eq, List.nil_append] at hearly
    exact ⟨hearly.complete, hearly.start⟩
  | raise e r hr => cases hq.symm.trans hr

/-- A chunk ends inside one of the tokens, with more bytes of it read than its limit allows;
the tokens before it are in order. -/
def CutBehindLimit : ParserState → List Bytes → List Bytes → Prop
  | _, [], _ => False
  | st, tok :: toks, cs =>
    (∃ t, token? st = some t ∧ ∃ n ∈ Chunks.cuts cs, t.max < n ∧ n ≤ tok.length) ∨
    Accepts st tok ∧ CutBehindLimit (next st tok) toks (Chunks.drop (tok.length+1) cs)

/-- In one chunk, no complete token is cut. -/
theorem not_cutBehindLimit_whole {toks : List Bytes} {st : ParserState} {rest : Bytes} :
    ¬CutBehindLimit st toks [spell st toks ++ rest] := by
  induction toks generalizing st with
  | nil => exact id
  | cons tok toks ih =>
    rintro (⟨t, -, n, hn, hlt, hle⟩ | ⟨-, hcut⟩)
    · have hlen : (spell st (tok :: toks) ++ rest).length =
          tok.length+1+((spell (next st tok) toks).length+rest.length) := by
        simp only [spell, List.length_append, List.length_cons]
        omega
      rcases Chunks.mem_cuts_cons.1 hn with rfl | ⟨m, -, rfl⟩
      · omega
      · omega
    · have hdrop : Chunks.drop (tok.length+1) [spell st (tok :: toks) ++ rest] =
          [spell (next st tok) toks ++ rest] := by
        simp [Chunks.drop, spell, List.drop_append]
      rw [hdrop] at hcut
      exact ih hcut

/-- The outcome of a call that met an oversized token. -/
def TooLarge (r : Result Unit) : Prop := ∃ st t, token? st = some t ∧ r = .raise t.tooLarge

/-- Complete tokens are read from any chunks alike, unless a chunk ends inside one of them
behind its limit. -/
theorem feed_tokens {toks : List Bytes} {p : HTTPParser} {st : ParserState} (h : Ready p st)
    (hs : Spelled st toks) {cs : List Bytes} {rest : Bytes}
    (hcs : cs.flatten = spell st toks ++ rest) :
    (CutBehindLimit st toks cs ∧ ∃ e q, feed cs p = (.raise e, q) ∧ TooLarge (.raise e) ∧
      Kept p q ∧ q.state_ ≠ .done) ∨
    (¬CutBehindLimit st toks cs ∧
      feed cs p = (takeTokens toks >>= fun _ => feed (Chunks.drop (spell st toks).length cs)) p) := by
  induction toks generalizing p st cs with
  | nil =>
    refine .inr ⟨id, ?_⟩
    rw [spell, List.length_nil, Chunks.drop_zero]
    rfl
  | cons tok toks ih =>
    obtain ⟨hsome, hfree, hs'⟩ := hs
    obtain ⟨t, ht⟩ := Option.isSome_iff_exists.1 hsome
    have hdelim : delimiter st = t.search := by rw [delimiter, ht]; rfl
    have htp := h.token_eq ht
    have hbuf : p.buf_.length = 0 := by rw [h.buf_eq]; rfl
    rw [spell, hdelim, List.append_assoc, List.cons_append] at hcs
    rw [hdelim] at hfree
    have hlen : (spell st (tok :: toks)).length =
        tok.length+1+(spell (next st tok) toks).length := by
      rw [spell, List.length_append, List.length_cons]
      omega
    rcases feed_token htp (by omega) hfree hcs with ⟨⟨n, hn, hlt, hle⟩, data, hraise⟩ | ⟨hall, htake⟩
    · left
      refine ⟨.inl ⟨t, ht, n, hn, by omega, hle⟩, _, _, hraise, ⟨st, t, ht, rfl⟩, ?_, ?_⟩
      · exact ⟨rfl, rfl, rfl, rfl, rfl, id⟩
      · rw [append_state, h.state_of_token ht]
        rintro rfl
        cases ht
    have hnocut : ¬∃ t, token? st = some t ∧
        ∃ n ∈ Chunks.cuts cs, t.max < n ∧ n ≤ tok.length := by
      rintro ⟨t', ht', n, hn, hlt, hle⟩
      cases ht.symm.trans ht'
      have := hall n hn hle
      omega
    rcases h.takeToken_cases ht tok with ⟨hacc, q, hq, hkept, hready⟩ | ⟨hacc, e, q, hq, -⟩
    · have hcs' : (Chunks.drop (tok.length+1) cs).flatten = spell (next st tok) toks ++ rest := by
        rw [Chunks.flatten_drop, hcs]
        simp [List.drop_append]
      rw [hlen, ← Chunks.drop_drop, htake, Sys.bind_of_ok hq]
      have htakes : ∀ f : Unit → Sys HTTPParser Unit,
          (takeTokens (tok :: toks) >>= f) p = (takeTokens toks >>= f) q := by
        intro f
        rw [takeTokens, Sys.bind_assoc, Sys.bind_of_ok hq]
      rw [htakes]
      rcases ih hready hs' hcs' with ⟨hcut, e, r, hr, hlarge, hkept', hdone⟩ | ⟨hcut, hfeed⟩
      · exact .inl ⟨.inr ⟨hacc, hcut⟩, e, r, hr, hlarge, hkept.trans hkept', hdone⟩
      · refine .inr ⟨?_, hfeed⟩
        rintro (hcut' | ⟨-, hcut'⟩)
        · exact hnocut hcut'
        · exact hcut hcut'
    · right
      constructor
      · rintro (hcut | ⟨hacc', -⟩)
        · exact hnocut hcut
        · exact hacc hacc'
      · rw [htake, Sys.bind_of_raise hq, takeTokens, Sys.bind_assoc, Sys.bind_of_raise hq]

/-- In one call complete tokens are taken, and what is behind them is parsed. -/
theorem parse_tokens {toks : List Bytes} {p : HTTPParser} {st : ParserState} (h : Ready p st)
    (hs : Spelled st toks) (rest : Bytes) :
    parse (spell st toks ++ rest) p = (takeTokens toks >>= fun _ => parse rest) p := by
  have hcs : [spell st toks ++ rest].flatten = spell st toks ++ rest := by simp
  rw [← feed_singleton, ← feed_singleton]
  rcases feed_tokens h hs hcs with ⟨hcut, -⟩ | ⟨-, hfeed⟩
  · exact absurd hcut not_cutBehindLimit_whole
  · rw [hfeed]
    simp [Chunks.drop]

/-- The state behind a sequence of tokens. -/
def nexts (st : ParserState) (toks : List Bytes) : ParserState := toks.foldl next st

theorem Ready.takeTokens_cases {toks : List Bytes} {p : HTTPParser} {st : ParserState}
    (h : Ready p st) (hs : Spelled st toks) :
    (Accepted st toks ∧ ∃ q, takeTokens toks p = (.ok (), q) ∧ Kept p q ∧ Ready q (nexts st toks)) ∨
    ¬Accepted st toks ∧ ∃ e q, takeTokens toks p = (.raise e, q) ∧ Kept p q ∧ q.state_ ≠ .done ∧
      e.message.head? ≠ some 72 := by
  induction toks generalizing p st with
  | nil => exact .inl ⟨trivial, p, rfl, .refl p, h⟩
  | cons tok toks ih =>
    obtain ⟨hsome, -, hs'⟩ := hs
    obtain ⟨t, ht⟩ := Option.isSome_iff_exists.1 hsome
    rcases h.takeToken_cases ht tok with
      ⟨hacc, q, hq, hkept, hready⟩ | ⟨hacc, e, q, hq, hkept, hraise⟩
    · rw [takeTokens, Sys.bind_of_ok hq]
      rcases ih hready hs' with ⟨hall, r, hr, hkept', hready'⟩ | ⟨hall, e, r, hr, hkept', hraise⟩
      · exact .inl ⟨⟨hacc, hall⟩, r, hr, hkept.trans hkept', hready'⟩
      · exact .inr ⟨fun hall' => hall hall'.2, e, r, hr, hkept.trans hkept', hraise⟩
    · exact .inr ⟨fun hall => hacc hall.1, e, q, Sys.bind_of_raise hq, hkept, hraise⟩

theorem nexts_ne_done {toks : List Bytes} {st : ParserState} (h : st ≠ .done) :
    nexts st toks ≠ .done := by
  induction toks generalizing st with
  | nil => exact h
  | cons tok toks ih =>
    apply ih
    cases st with
    | header => rw [next]; split <;> simp
    | done => exact absurd rfl h
    | _ => simp [next]

/-- Where no token is collected, the header section is over. -/
theorem eq_body_of_token? {st : ParserState} (hne : st ≠ .done) (ht : token? st = none) :
    st = .body := by
  cases st with
  | body => rfl
  | done => exact absurd rfl hne
  | _ => cases ht

@[simp] theorem nexts_body (toks : List Bytes) : nexts .body toks = .body := by
  induction toks with
  | nil => rfl
  | cons tok toks ih => exact ih

theorem nexts_header (toks : List Bytes) :
    nexts .header toks = .header ∨ nexts .header toks = .body := by
  induction toks with
  | nil => exact .inl rfl
  | cons tok toks ih =>
    rw [nexts, List.foldl_cons, next]
    split
    · exact .inr (nexts_body toks)
    · exact ih

theorem Ready.takeTokens_early {toks : List Bytes} {p q : HTTPParser} {st : ParserState}
    (h : Ready p st) (hs : Spelled st toks) (hq : takeTokens toks p = (.ok (), q)) :
    Early p q (nexts st toks) := by
  induction toks generalizing p st with
  | nil =>
    cases hq
    exact ⟨fun _ => id, fun _ _ => .inl rfl⟩
  | cons tok toks ih =>
    obtain ⟨hsome, -, hs'⟩ := hs
    obtain ⟨t, ht⟩ := Option.isSome_iff_exists.1 hsome
    rcases h.takeToken_cases ht tok with ⟨-, r, hr, -, hready⟩ | ⟨-, e, r, hr, -⟩
    · rw [takeTokens, Sys.bind_of_ok hr] at hq
      have hfirst := h.takeToken_early ht hr
      have hrest := ih hready hs' hq
      rw [nexts, List.foldl_cons]
      constructor
      · intro hne hmem
        apply hfirst.complete
        · intro hbody
          rw [hbody] at hne
          exact hne (nexts_body toks)
        · exact hrest.complete hne hmem
      · intro hne hne'
        rcases hrest.start hne hne' with heq | heq
        · rw [heq]
          apply hfirst.start
          · intro hheader
            rw [hheader] at hne hne'
            rcases nexts_header toks with heq | heq
            · exact hne heq
            · exact hne' heq
          · intro hbody
            rw [hbody] at hne'
            exact hne' (nexts_body toks)
        · exact .inr heq
    · rw [takeTokens, Sys.bind_of_raise hr] at hq
      cases hq

/-- Every stream is a sequence of complete tokens and what is left: the beginning of a token,
or the bytes behind the header section. -/
theorem exists_spelled (s : Bytes) (st : ParserState) : ∃ toks tail, s = spell st toks ++ tail ∧
    Spelled st toks ∧ ∀ t, token? (nexts st toks) = some t → t.search ∉ tail := by
  induction hn : s.length using Nat.strong_induction_on generalizing s st with
  | _ n ih =>
    cases ht : token? st with
    | none => exact ⟨[], s, rfl, trivial, fun t h => by cases ht.symm.trans h⟩
    | some t =>
      have hdelim : delimiter st = t.search := by rw [delimiter, ht]; rfl
      rcases split_at t.search s with hopen | ⟨tok, rest, hfree, rfl⟩
      · refine ⟨[], s, rfl, trivial, fun t' h => ?_⟩
        cases ht.symm.trans h
        exact hopen
      · have hlt : rest.length < n := by
          rw [← hn, List.length_append, List.length_cons]
          omega
        obtain ⟨toks, tail, hrest, hs, htail⟩ := ih _ hlt rest (next st tok) rfl
        refine ⟨tok :: toks, tail, ?_, ⟨by simp [ht], by rwa [hdelim], hs⟩, htail⟩
        rw [spell, hdelim, hrest, List.append_assoc, List.cons_append]

end Stx.Http.HTTPParser
