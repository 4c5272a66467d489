import Stx.Http.HTTPParser.Streams
import Mathlib.Data.List.Monad

/-! Whole messages: a header section and what follows it. -/
namespace Stx.Http.HTTPParser

/-- The three tokens of the start line (method, URI and version, or version, status code and
status name), the header lines and the empty line, as they stand before their delimiters. -/
structure HeaderSection where
  first : Bytes
  second : Bytes
  third : Bytes
  lines : List Bytes
  blank : Bytes
  first_free : 32 ∉ first
  second_free : 32 ∉ second
  third_free : 10 ∉ third
  lines_free : ∀ line ∈ lines, 10 ∉ line ∧ stripTrailingBytes line 13 ≠ []
  blank_free : stripTrailingBytes blank 13 = []

theorem stripTrailingBytes_cr : stripTrailingBytes (lit "\r") 13 = [] := by decide

/-- "POST /x HTTP/1.1" with a length of three. -/
def sampleSection : HeaderSection where
  first := lit "POST"
  second := lit "/x"
  third := lit "HTTP/1.1\r"
  lines := [lit "Content-Length: 3\r"]
  blank := lit "\r"
  first_free := by decide
  second_free := by decide
  third_free := by decide
  lines_free := by decide
  blank_free := stripTrailingBytes_cr

namespace HeaderSection

def bytes (h : HeaderSection) : Bytes :=
  h.first ++ 32 :: (h.second ++ 32 :: (h.third ++ 10 ::
    (h.lines.flatMap (· ++ [10]) ++ (h.blank ++ [10]))))

def tokens (h : HeaderSection) : List Bytes :=
  h.first :: h.second :: h.third :: (h.lines ++ [h.blank])

/-- The section up to its empty line. -/
def openBytes (h : HeaderSection) : Bytes :=
  h.first ++ 32 :: (h.second ++ 32 :: (h.third ++ 10 :: h.lines.flatMap (· ++ [10])))

def openTokens (h : HeaderSection) : List Bytes := h.first :: h.second :: h.third :: h.lines

/-- Every part is within the limit that the parser has for it; the carriage returns at the end of a line count. -/
def WithinLimits (h : HeaderSection) (mode : ParserMode) : Prop :=
  h.first.length ≤ (match mode with
    | .request => kMaxMethodSize
    | .response => kMaxVersionSize) ∧
  h.second.length ≤ kMaxURISize ∧ h.third.length ≤ kMaxVersionSize ∧
  ∀ line ∈ h.lines ++ [h.blank], line.length ≤ kMaxHeaderSize

/-- The length of the body that the start line sets. -/
def startExpected (mode : ParserMode) (h : HeaderSection) : Nat :=
  if mode = .response ∧ Libc.strncasecmp h.first (lit "HTTP/1.0") h.first.length = 0 then untilEof
  else 0

end HeaderSection

/-- `body_bytes_expected_` behind the header section; `none` when a line is refused. -/
def HeaderSection.expected (h : HeaderSection) (mode : ParserMode) : Option Nat :=
  h.lines.foldlM (lineExpected mode) (h.startExpected mode)

theorem stripTrailingBytes_eq_nil {line : Bytes} :
    stripTrailingBytes line 13 = [] ↔ ∀ b ∈ line, b = 13 := by
  simp [stripTrailingBytes, List.rdropWhile_eq_nil_iff]

theorem HeaderSection.newline_not_mem_blank (h : HeaderSection) : (10 : UInt8) ∉ h.blank := by
  intro hmem
  exact absurd (stripTrailingBytes_eq_nil.1 h.blank_free 10 hmem) (by decide)

theorem next_header {line : Bytes} (h : stripTrailingBytes line 13 ≠ []) :
    next .header line = .header := if_neg h

theorem spell_lines {lines : List Bytes} {b : Bytes}
    (hlines : ∀ line ∈ lines, 10 ∉ line ∧ stripTrailingBytes line 13 ≠ []) :
    spell .header (lines ++ [b]) = lines.flatMap (· ++ [10]) ++ (b ++ [10]) := by
  induction lines with
  | nil => rfl
  | cons line lines ih =>
    have hline := hlines line List.mem_cons_self
    rw [List.cons_append, spell, next_header hline.2,
      ih fun l hl => hlines l (List.mem_cons_of_mem line hl)]
    simp [delimiter, token?, headerToken]

theorem spelled_lines {lines : List Bytes} {blank : Bytes}
    (hlines : ∀ line ∈ lines, 10 ∉ line ∧ stripTrailingBytes line 13 ≠ []) (hblank : 10 ∉ blank) :
    Spelled .header (lines ++ [blank]) := by
  induction lines with
  | nil => exact ⟨rfl, hblank, trivial⟩
  | cons line lines ih =>
    have hline := hlines line List.mem_cons_self
    refine ⟨rfl, hline.1, ?_⟩
    rw [next_header hline.2]
    exact ih fun l hl => hlines l (List.mem_cons_of_mem line hl)

theorem nexts_lines {lines : List Bytes} {blank : Bytes}
    (hlines : ∀ line ∈ lines, 10 ∉ line ∧ stripTrailingBytes line 13 ≠ [])
    (hblank : stripTrailingBytes blank 13 = []) : nexts .header (lines ++ [blank]) = .body := by
  induction lines with
  | nil => exact if_pos hblank
  | cons line lines ih =>
    have hline := hlines line List.mem_cons_self
    rw [List.cons_append, nexts, List.foldl_cons, next_header hline.2]
    exact ih fun l hl => hlines l (List.mem_cons_of_mem line hl)

namespace HeaderSection
variable (h : HeaderSection) (mode : ParserMode)

theorem spell_tokens : spell (initial mode) h.tokens = h.bytes := by
  have hlines := spell_lines h.lines_free (b := h.blank)
  cases mode <;> simp only [initial, tokens, spell, next, hlines] <;> rfl

theorem spelled_tokens : Spelled (initial mode) h.tokens := by
  have hlines := spelled_lines h.lines_free h.newline_not_mem_blank
  cases mode
  · exact ⟨rfl, h.first_free, rfl, h.second_free, rfl, h.third_free, hlines⟩
  · exact ⟨rfl, h.first_free, rfl, h.second_free, rfl, h.third_free, hlines⟩

theorem nexts_tokens : nexts (initial mode) h.tokens = .body := by
  have hlines := nexts_lines h.lines_free h.blank_free
  cases mode <;> exact hlines

end HeaderSection
/- What each kind of token does, when it is taken between two tokens. -/

section tokens
variable {p : HTTPParser} (tok : Bytes)

theorem append_of_empty (hbuf : p.buf_ = []) :
    p.append tok = { p with buf_ := tok } := by
  rw [append, hbuf, List.nil_append]

def moveTo (p : HTTPParser) (st : ParserState) : HTTPParser := { p with state_ := st }

@[simp] theorem moveTo_state (st : ParserState) : (p.moveTo st).state_ = st := rfl
@[simp] theorem moveTo_buf (st : ParserState) : (p.moveTo st).buf_ = p.buf_ := rfl

@[simp] theorem called_moveTo (e : Event) (st : ParserState) :
    (p.moveTo st).called e = (p.called e).moveTo st := by
  by_cases h : p.registered e.callback = true
  · simp [called, moveTo, h]
  · simp [called, moveTo, h]

@[simp] theorem moveTo_moveTo (st st' : ParserState) : (p.moveTo st).moveTo st' = p.moveTo st' :=
  rfl

theorem moveTo_self {st : ParserState} (h : p.state_ = st) : p.moveTo st = p := by
  rw [← h]
  rfl

/-- A token that is reported leaves `buf_` as it was before its first byte. -/
theorem reported_eq (hbuf : p.buf_ = []) (e : Event) (st st' : ParserState) (buf : Bytes) :
    { { p with state_ := st, buf_ := buf }.called e with state_ := st', buf_ := [] } =
      (p.called e).moveTo st' := by
  rw [called_moved]
  simp [moveTo, called_buf, hbuf]

theorem takeToken_method (hs : p.state_ = .reqMethod) (hbuf : p.buf_ = [])
    (hreg : p.registered .method = true) :
    takeToken tok p =
      match HTTPMethod.ofText? tok with
      | some method => (.ok (), (p.called (.method method)).moveTo .reqURI)
      | none =>
        (.RAISEF .parseError "Invalid HTTP method: $0" [tok],
          { p with state_ := .reqURI, buf_ := tok }) := by
  have ht : token? p.state_ = some methodToken := by rw [hs]; rfl
  rw [takeToken_apply ht, append_of_empty tok hbuf]
  change readMethod { p with buf_ := tok } = _
  rw [readMethod]
  simp only [Sys.modify_bind, Sys.get_bind]
  rw [if_pos hreg]
  cases HTTPMethod.ofText? tok with
  | none => rfl
  | some method =>
    simp only [call_bind, Sys.modify_apply, called_moved]
    simp [moveTo, hbuf]

theorem takeToken_uri (hs : p.state_ = .reqURI) (hbuf : p.buf_ = []) :
    takeToken tok p = (.ok (), (p.called (.uri tok)).moveTo .reqVersion) := by
  have ht : token? p.state_ = some uriToken := by rw [hs]; rfl
  rw [takeToken_apply ht, append_of_empty tok hbuf, ← reported_eq hbuf _ p.state_ _ tok]
  rfl

theorem takeToken_lineEnd {t : Token} {event : Bytes → Event} (ht : token? p.state_ = some t)
    (hread : t.read = readLineEnd event) (hbuf : p.buf_ = []) :
    takeToken tok p =
      (.ok (), (p.called (event (stripTrailingBytes tok 13))).moveTo .header) := by
  rw [takeToken_apply ht, append_of_empty tok hbuf, hread,
    ← reported_eq hbuf _ p.state_ _ (stripTrailingBytes tok 13)]
  rfl

theorem takeToken_version (hs : p.state_ = .reqVersion) (hbuf : p.buf_ = []) :
    takeToken tok p =
      (.ok (), (p.called (.version (stripTrailingBytes tok 13))).moveTo .header) :=
  takeToken_lineEnd tok (t := requestVersionToken) (by rw [hs]; rfl) rfl hbuf

theorem takeToken_statusName (hs : p.state_ = .resStatusName) (hbuf : p.buf_ = []) :
    takeToken tok p =
      (.ok (), (p.called (.statusName (stripTrailingBytes tok 13))).moveTo .header) :=
  takeToken_lineEnd tok (t := statusNameToken) (by rw [hs]; rfl) rfl hbuf

/-- A version HTTP/1.0, or the beginning of one, sets the body to be read until the end. -/
theorem takeToken_responseVersion (hs : p.state_ = .resVersion) (hbuf : p.buf_ = []) :
    takeToken tok p =
      (.ok (),
        ({ p with
            body_bytes_expected_ :=
              if Libc.strncasecmp tok (lit "HTTP/1.0") tok.length = 0 then untilEof
              else p.body_bytes_expected_ }.called (.version tok)).moveTo .resStatusCode) := by
  have ht : token? p.state_ = some responseVersionToken := by rw [hs]; rfl
  rw [takeToken_apply ht, append_of_empty tok hbuf]
  simp only [responseVersionToken, Sys.modify_bind, Sys.get_bind]
  by_cases hold : Libc.strncasecmp tok (lit "HTTP/1.0") tok.length = 0
  · rw [if_pos hold, if_pos hold, ← reported_eq (p := { p with body_bytes_expected_ := untilEof }) hbuf
      (.version tok) p.state_ .resStatusCode tok]
    rfl
  · rw [if_neg hold, if_neg hold, ← reported_eq hbuf (.version tok) p.state_ .resStatusCode tok]
    rfl

theorem takeToken_statusCode (hs : p.state_ = .resStatusCode) (hbuf : p.buf_ = []) :
    takeToken tok p =
      match Libc.stoi tok with
      | some code => (.ok (), (p.called (.statusCode code)).moveTo .resStatusName)
      | none =>
        (.RAISEF .parseError "invalid http status code: $0" [tok], { p with buf_ := tok }) := by
  have ht : token? p.state_ = some statusCodeToken := by rw [hs]; rfl
  rw [takeToken_apply ht, append_of_empty tok hbuf]
  simp only [statusCodeToken, Sys.get_bind]
  cases Libc.stoi tok with
  | none => rfl
  | some code =>
    simp only [call_bind]
    rw [← reported_eq hbuf (.statusCode code) p.state_ .resStatusName tok]
    rfl

/-- A header line is refused, or it is reported and may set the length of the body. -/
theorem takeToken_line (hs : p.state_ = .header) (hbuf : p.buf_ = [])
    (hline : stripTrailingBytes tok 13 ≠ []) :
    (∃ key val n, lineHeader tok = some (key, val) ∧
      expectedAfter p.mode_ p.expect_body_ p.body_bytes_expected_ key val = some n ∧
      takeToken tok p = (.ok (), { p with body_bytes_expected_ := n }.called (.header key val))) ∨
    (∃ e q, takeToken tok p = (.raise e, q)) ∧
      ∀ key val, lineHeader tok = some (key, val) →
        expectedAfter p.mode_ p.expect_body_ p.body_bytes_expected_ key val = none := by
  have ht : token? p.state_ = some headerToken := by rw [hs]; rfl
  have happly := readHeader_apply { p with buf_ := tok }
  simp only at happly
  rw [if_neg hline] at happly
  rw [takeToken_apply ht, append_of_empty tok hbuf, lineHeader]
  change _ ∨ (∃ e q, readHeader _ = _) ∧ _
  cases hsplit : splitHeader (stripTrailingBytes tok 13) with
  | none =>
    rw [hsplit] at happly
    exact .inr ⟨⟨_, _, happly⟩, fun _ _ h => by cases h⟩
  | some header =>
    obtain ⟨key, val⟩ := header
    rw [hsplit] at happly
    simp only at happly
    cases hn : expectedAfter p.mode_ p.expect_body_ p.body_bytes_expected_ key val with
    | none =>
      rw [hn] at happly
      refine .inr ⟨⟨_, _, happly⟩, fun _ _ h => ?_⟩
      cases h
      exact hn
    | some n =>
      rw [hn] at happly
      refine .inl ⟨key, val, n, rfl, hn, happly.trans ?_⟩
      have hmoved := reported_eq (p := { p with body_bytes_expected_ := n }) hbuf (.header key val)
        p.state_ .header (stripTrailingBytes tok 13)
      exact Prod.ext rfl (hmoved.trans (moveTo_self (by simp [hs])))

theorem takeToken_blank (hs : p.state_ = .header) (hbuf : p.buf_ = [])
    (hline : stripTrailingBytes tok 13 = []) :
    takeToken tok p =
      (.ok (), { p with
        state_ := if p.body_bytes_expected_ = 0 then .done else .body }.called .headersComplete) := by
  have ht : token? p.state_ = some headerToken := by rw [hs]; rfl
  have happly := readHeader_apply { p with buf_ := tok }
  simp only at happly
  rw [if_pos hline, hline, ← hbuf] at happly
  rw [takeToken_apply ht, append_of_empty tok hbuf]
  exact happly

end tokens
theorem lineExpected_eq {mode : ParserMode} {n : Nat} {line key val : Bytes}
    (h : lineHeader line = some (key, val)) :
    lineExpected mode n line = expectedAfter mode true n key val := by
  rw [lineExpected, h]
  rfl

theorem lineExpected_none {mode : ParserMode} {n : Nat} {line : Bytes}
    (h : ∀ key val, lineHeader line = some (key, val) → expectedAfter mode true n key val = none) :
    lineExpected mode n line = none := by
  cases hline : lineHeader line with
  | none => rw [lineExpected, hline]; rfl
  | some header => rw [lineExpected_eq hline, h _ _ hline]

/-- Header lines are taken one by one: all are reported, or one is refused. -/
theorem takeLines_cases {lines : List Bytes} {p : HTTPParser} (h : Ready p .header)
    (hlines : ∀ line ∈ lines, stripTrailingBytes line 13 ≠ []) :
    (∃ (q : HTTPParser) (headers : List (Bytes × Bytes)), takeTokens lines p = (.ok (), q) ∧ Kept p q ∧ Ready q .header ∧
      lines.foldlM (lineExpected p.mode_) p.body_bytes_expected_ = some q.body_bytes_expected_ ∧
      lines.map lineHeader = headers.map some ∧
      (p.registered .header = true →
        q.calls = p.calls ++ headers.map fun header => .header header.1 header.2)) ∨
    (∃ e q, takeTokens lines p = (.raise e, q)) ∧
      lines.foldlM (lineExpected p.mode_) p.body_bytes_expected_ = none := by
  induction lines generalizing p with
  | nil => exact .inl ⟨p, [], rfl, .refl p, h, rfl, rfl, fun _ => by simp⟩
  | cons line lines ih =>
    have hline := hlines line List.mem_cons_self
    have hst : p.state_ = .header := h.state_of_token (t := headerToken) rfl
    rw [List.foldlM_cons]
    rcases takeToken_line line hst h.buf_eq hline with ⟨key, val, n, hkey, hn, htake⟩ | ⟨hraise, hnone⟩
    · rcases h.takeToken_cases (t := headerToken) rfl line with
        ⟨-, q, hq, hkept, hready⟩ | ⟨-, e, q, hq, -⟩
      · rw [next_header hline] at hready
        have hqn : q = { p with body_bytes_expected_ := n }.called (.header key val) := by
          rw [htake] at hq
          cases hq
          rfl
        have hqexp : q.body_bytes_expected_ = n := by rw [hqn, called_expected]
        have hcalls : p.registered .header = true → q.calls = p.calls ++ [.header key val] := by
          intro hreg
          rw [hqn]
          exact calls_called hreg
        have hstep : lineExpected p.mode_ p.body_bytes_expected_ line =
            some q.body_bytes_expected_ := by
          rw [lineExpected_eq hkey, hqexp, ← h.expect, hn]
        rw [takeTokens, Sys.bind_of_ok hq, hstep, ← hkept.mode_eq]
        rcases ih hready (fun l hl => hlines l (List.mem_cons_of_mem line hl)) with
          ⟨r, headers, hr, hkept', hready', hfold, hmap, hcalls'⟩ | ⟨hr, hfold⟩
        · refine .inl ⟨r, (key, val) :: headers, hr, hkept.trans hkept', hready', hfold, ?_, ?_⟩
          · simp [hkey, hmap]
          · intro hreg
            rw [hcalls' (by rw [hkept.registered_eq, hreg]), hcalls hreg]
            simp
        · exact .inr ⟨hr, hfold⟩
      · cases htake.symm.trans hq
    · obtain ⟨e, q, hq⟩ := hraise
      refine .inr ⟨⟨e, q, Sys.bind_of_raise hq⟩, ?_⟩
      rw [lineExpected_none fun key val hkey => by rw [← h.expect, hnone key val hkey]]
      rfl

theorem takeTokens_append (a b : List Bytes) :
    takeTokens (a ++ b) = takeTokens a >>= fun _ => takeTokens b := by
  induction a with
  | nil => rfl
  | cons tok a ih => rw [List.cons_append, takeTokens, takeTokens, ih, Sys.bind_assoc]

/-- The start line is in order: a known method, or a status code that is a number. -/
def HeaderSection.StartValid (h : HeaderSection) : ParserMode → Prop
  | .request => (HTTPMethod.ofText? h.first).isSome
  | .response => (Libc.stoi h.second).isSome

instance (h : HeaderSection) : (mode : ParserMode) → Decidable (h.StartValid mode)
  | .request => inferInstanceAs (Decidable ((HTTPMethod.ofText? h.first).isSome = true))
  | .response => inferInstanceAs (Decidable ((Libc.stoi h.second).isSome = true))

section start
variable {registered : Callback → Bool} {a b c : Bytes}

theorem takeStart_request (hm : registered .method = true) {method : HTTPMethod}
    (h : HTTPMethod.ofText? a = some method) :
    takeTokens [a, b, c] (new .request registered) =
      (.ok (), ((((new .request registered).called (.method method)).called (.uri b)).called
        (.version (stripTrailingBytes c 13))).moveTo .header) := by
  have hfirst := takeToken_method a (p := new .request registered) rfl rfl hm
  rw [h] at hfirst
  rw [takeTokens, Sys.bind_of_ok hfirst, takeTokens,
    Sys.bind_of_ok (takeToken_uri b rfl (by simp [new])), takeTokens,
    Sys.bind_of_ok (takeToken_version c rfl (by simp [new]))]
  simp [takeTokens]

theorem takeStart_response (registered : Callback → Bool) (a c : Bytes) {code : Int} (h : Libc.stoi b = some code) :
    takeTokens [a, b, c] (new .response registered) =
      (.ok (), (((({ new .response registered with
        body_bytes_expected_ :=
          if Libc.strncasecmp a (lit "HTTP/1.0") a.length = 0 then untilEof else 0 }.called
            (.version a)).called (.statusCode code)).called
              (.statusName (stripTrailingBytes c 13))).moveTo .header)) := by
  have hfirst := takeToken_responseVersion a (p := new .response registered) rfl rfl
  rw [takeTokens, Sys.bind_of_ok hfirst, takeTokens]
  have hsecond : ∀ p : HTTPParser, p.state_ = .resStatusCode → p.buf_ = [] →
      takeToken b p = (.ok (), (p.called (.statusCode code)).moveTo .resStatusName) := by
    intro p hs hbuf
    rw [takeToken_statusCode b hs hbuf, h]
  rw [Sys.bind_of_ok (hsecond _ rfl (by simp [new])), takeTokens,
    Sys.bind_of_ok (takeToken_statusName c rfl (by simp [new]))]
  simp only [called_moveTo, moveTo_moveTo, takeTokens]
  rfl

end start

namespace HeaderSection
variable (h : HeaderSection) (mode : ParserMode) (registered : Callback → Bool)
  (hm : mode = .request → registered .method = true)
include hm

theorem takeStart_cases :
    (h.StartValid mode ∧ ∃ q,
      takeTokens [h.first, h.second, h.third] (new mode registered) = (.ok (), q) ∧
      Kept (new mode registered) q ∧ Ready q .header ∧
      q.body_bytes_expected_ = h.startExpected mode) ∨
    ¬h.StartValid mode ∧ ∃ e q,
      takeTokens [h.first, h.second, h.third] (new mode registered) = (.raise e, q) := by
  have hready : Ready (new mode registered) (initial mode) := .new hm
  have hspelled : Spelled (initial mode) [h.first, h.second, h.third] := by
    cases mode
    · exact ⟨rfl, h.first_free, rfl, h.second_free, rfl, h.third_free, trivial⟩
    · exact ⟨rfl, h.first_free, rfl, h.second_free, rfl, h.third_free, trivial⟩
  have hnexts : nexts (initial mode) [h.first, h.second, h.third] = .header := by
    cases mode <;> rfl
  have hcases := hready.takeTokens_cases hspelled
  rw [hnexts] at hcases
  cases mode with
  | request =>
    cases hmethod : HTTPMethod.ofText? h.first with
    | some method =>
      have hok := takeStart_request (b := h.second) (c := h.third) (hm rfl) hmethod
      rcases hcases with ⟨-, q, hq, hkept, hr⟩ | ⟨-, e, q, hq, -⟩
      · refine .inl ⟨by simp [StartValid, hmethod], q, hq, hkept, hr, ?_⟩
        cases hok.symm.trans hq
        simp [moveTo, new, startExpected]
      · cases hok.symm.trans hq
    | none =>
      have hfirst := takeToken_method h.first (p := new .request registered) rfl rfl (hm rfl)
      rw [hmethod] at hfirst
      exact .inr ⟨by simp [StartValid, hmethod], _, _, Sys.bind_of_raise hfirst⟩
  | response =>
    cases hcode : Libc.stoi h.second with
    | some code =>
      have hok := takeStart_response registered h.first h.third hcode
      rcases hcases with ⟨-, q, hq, hkept, hr⟩ | ⟨-, e, q, hq, -⟩
      · refine .inl ⟨by simp [StartValid, hcode], q, hq, hkept, hr, ?_⟩
        cases hok.symm.trans hq
        simp [moveTo, startExpected]
      · cases hok.symm.trans hq
    | none =>
      refine .inr ⟨by simp [StartValid, hcode], ?_⟩
      obtain ⟨p, hp, hs, hbuf⟩ : ∃ p, takeToken h.first (new .response registered) = (.ok (), p) ∧
          p.state_ = .resStatusCode ∧ p.buf_ = [] :=
        ⟨_, takeToken_responseVersion h.first rfl rfl, rfl, by simp [new]⟩
      have hsecond := takeToken_statusCode h.second hs hbuf
      rw [hcode] at hsecond
      rw [takeTokens, Sys.bind_of_ok hp, takeTokens, Sys.bind_of_raise hsecond]
      exact ⟨_, _, rfl⟩

/-- The start line and the header lines are refused, or they are read. -/
theorem takeOpen_cases :
    (h.StartValid mode ∧ ∃ q, takeTokens h.openTokens (new mode registered) = (.ok (), q) ∧
      Kept (new mode registered) q ∧ Ready q .header ∧
      h.expected mode = some q.body_bytes_expected_) ∨
    (¬h.StartValid mode ∨ h.expected mode = none) ∧
      ∃ e q, takeTokens h.openTokens (new mode registered) = (.raise e, q) := by
  have htokens : h.openTokens = [h.first, h.second, h.third] ++ h.lines := rfl
  rw [htokens, takeTokens_append]
  rcases h.takeStart_cases mode registered hm with
    ⟨hvalid, p, hp, hkept, hready, hexp⟩ | ⟨hvalid, e, q, hq⟩
  · rw [Sys.bind_of_ok hp]
    have hmode : p.mode_ = mode := hkept.mode_eq
    rcases takeLines_cases hready fun l hl => (h.lines_free l hl).2 with
      ⟨q, headers, hq, hkept', hready', hfold, -, -⟩ | ⟨⟨e, q, hq⟩, hfold⟩
    · rw [hmode, hexp] at hfold
      exact .inl ⟨hvalid, q, hq, hkept.trans hkept', hready', hfold⟩
    · rw [hmode, hexp] at hfold
      exact .inr ⟨.inr hfold, e, q, hq⟩
  · exact .inr ⟨.inl hvalid, e, q, Sys.bind_of_raise hq⟩

/-- A header section is refused, or it is read to its end. -/
theorem take_cases :
    (h.StartValid mode ∧ ∃ q, takeTokens h.tokens (new mode registered) = (.ok (), q) ∧
      Kept (new mode registered) q ∧ Ready q .body ∧
      h.expected mode = some q.body_bytes_expected_ ∧
      (registered .headersComplete = true → .headersComplete ∈ q.calls)) ∨
    (¬h.StartValid mode ∨ h.expected mode = none) ∧
      ∃ e q, takeTokens h.tokens (new mode registered) = (.raise e, q) := by
  have htokens : h.tokens = h.openTokens ++ [h.blank] := rfl
  rw [htokens, takeTokens_append]
  rcases h.takeOpen_cases mode registered hm with
    ⟨hvalid, q, hq, hkept, hready, hexp⟩ | ⟨hbad, e, q, hq⟩
  · have hst : q.state_ = .header := hready.state_of_token (t := headerToken) rfl
    have hblank := takeToken_blank h.blank hst hready.buf_eq h.blank_free
    rw [Sys.bind_of_ok hq, takeTokens, Sys.bind_of_ok hblank]
    rcases hready.takeToken_cases (t := headerToken) rfl h.blank with
      ⟨-, r, hr, hkept', hready'⟩ | ⟨-, e, r, hr, -⟩
    · rw [next, if_pos h.blank_free] at hready'
      cases hblank.symm.trans hr
      refine .inl ⟨hvalid, _, rfl, hkept.trans hkept', hready', ?_, ?_⟩
      · rw [called_expected]
        exact hexp
      · intro hreg
        have hreg' : q.registered .headersComplete = true := by
          rw [hkept.registered_eq]
          exact hreg
        rw [calls_called hreg']
        simp
    · cases hblank.symm.trans hr
  · exact .inr ⟨hbad, e, q, Sys.bind_of_raise hq⟩

/-- The calls of a header section: those of the start line, its header lines, and its end. -/
theorem take_calls (hheader : registered .header = true) {q : HTTPParser}
    (hq : takeTokens h.tokens (new mode registered) = (.ok (), q)) :
    ∃ (p : HTTPParser) (fields : List (Bytes × Bytes)),
      takeTokens [h.first, h.second, h.third] (new mode registered) = (.ok (), p) ∧
      h.lines.map lineHeader = fields.map some ∧
      q.calls = p.calls ++ (fields.map fun field => .header field.1 field.2) ++
        if registered .headersComplete then [.headersComplete] else [] := by
  have htokens : h.tokens = [h.first, h.second, h.third] ++ (h.lines ++ [h.blank]) := rfl
  rw [htokens, takeTokens_append] at hq
  rcases h.takeStart_cases mode registered hm with ⟨-, p, hp, hkept, hready, -⟩ | ⟨-, e, r, hr⟩
  · rw [Sys.bind_of_ok hp, takeTokens_append] at hq
    rcases takeLines_cases hready fun l hl => (h.lines_free l hl).2 with
      ⟨r, fields, hr, hkept', hready', -, hmap, hcalls⟩ | ⟨⟨e, r, hr⟩, -⟩
    · have hst : r.state_ = .header := hready'.state_of_token (t := headerToken) rfl
      have hblank := takeToken_blank h.blank hst hready'.buf_eq h.blank_free
      have hreg : r.registered = registered := hkept'.registered_eq.trans hkept.registered_eq
      rw [Sys.bind_of_ok hr, takeTokens, Sys.bind_of_ok hblank] at hq
      cases hq
      refine ⟨p, fields, hp, hmap, ?_⟩
      rw [called_calls, hcalls (by rw [hkept.registered_eq]; exact hheader)]
      simp only [hreg]
      rfl
    · rw [Sys.bind_of_raise hr] at hq
      cases hq
  · rw [Sys.bind_of_raise hr] at hq
    cases hq

end HeaderSection
end Stx.Http.HTTPParser
