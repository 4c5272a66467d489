import Stx.Http.HTTPParser.Bodies

/-! `HTTPRequest::parse`: a request from its text, by one call of the parser and `eof()`. -/
namespace Stx.Http.HTTPRequest

/-- The callbacks that `HTTPRequest::parse` sets. -/
def callbacks : Callback → Bool
  | .method | .uri | .version | .header | .bodyChunk => true
  | _ => false

def onEvent (req : HTTPRequest) : Event → HTTPRequest
  | .method method => { req with method_ := method }
  | .uri data => { req with url_ := data }
  | .version data => { req with version_ := data }
  | .header key val => { req with toHTTPMessage := req.addHeader key val }
  | .bodyChunk data => { req with toHTTPMessage := req.appendBody data }
  | _ => req

def parse (str : Bytes) : Result HTTPRequest :=
  match (HTTPParser.parse str >>= fun _ => HTTPParser.eof) (HTTPParser.new .request callbacks) with
  | (.ok _, parser) =>
    if parser.state_ ≠ .done then .RAISE .runtimeError "incomplete HTTP request"
    else .ok (parser.calls.foldl onEvent {})
  | (.raise e, _) => .raise e
  | (.diverge, _) => .diverge

/-- The request that the callbacks put together. -/
def ofParts (method : HTTPMethod) (uri version : Bytes) (fields : List (Bytes × Bytes))
    (body : Bytes) : HTTPRequest where
  method_ := method
  url_ := uri
  version_ := version
  headers_ := HeaderList.addAll {} fields
  body_ := body

theorem foldl_headers (req : HTTPRequest) (fields : List (Bytes × Bytes)) :
    (fields.map fun field => Event.header field.1 field.2).foldl onEvent req =
      { req with headers_ := req.headers_.addAll fields } := by
  induction fields generalizing req with
  | nil => rfl
  | cons field fields ih =>
    rw [List.map_cons, List.foldl_cons, ih]
    rfl

open HTTPParser

def sectionCalls (method : HTTPMethod) (h : HeaderSection) (fields : List (Bytes × Bytes)) :
    List Event :=
  [.method method, .uri h.second, .version (stripTrailingBytes h.third 13)] ++
    fields.map fun field => .header field.1 field.2

theorem foldl_sectionCalls (method : HTTPMethod) (h : HeaderSection)
    (fields : List (Bytes × Bytes)) (body : Bytes) :
    (sectionCalls method h fields ++
      if body = [] then [] else [Event.bodyChunk body]).foldl onEvent {} =
      ofParts method h.second (stripTrailingBytes h.third 13) fields body := by
  rw [List.foldl_append, sectionCalls, List.foldl_append, foldl_headers]
  by_cases hbody : body = []
  · rw [if_pos hbody, hbody]
    rfl
  · rw [if_neg hbody]
    rfl

/-- A header section is refused, or all of it is reported. -/
theorem takeSection_cases (h : HeaderSection) :
    (∃ method fields q, HTTPMethod.ofText? h.first = some method ∧
      h.lines.map lineHeader = fields.map some ∧
      takeTokens h.tokens (new .request callbacks) = (.ok (), q) ∧
      Kept (new .request callbacks) q ∧ Ready q .body ∧
      h.expected .request = some q.body_bytes_expected_ ∧
      q.calls = sectionCalls method h fields) ∨
    (¬h.StartValid .request ∨ h.expected .request = none) ∧
      ∃ e q, takeTokens h.tokens (new .request callbacks) = (.raise e, q) := by
  rcases h.take_cases .request callbacks (fun _ => rfl) with
    ⟨hstart, q, hq, hkept, hready, hexp, -⟩ | hraise
  · obtain ⟨method, hmethod⟩ := Option.isSome_iff_exists.1 hstart
    obtain ⟨p, fields, hp, hmap, hcalls⟩ := h.take_calls .request callbacks (fun _ => rfl) rfl hq
    refine .inl ⟨method, fields, q, hmethod, hmap, hq, hkept, hready, hexp, ?_⟩
    cases (takeStart_request rfl hmethod).symm.trans hp
    rw [hcalls]
    simp [sectionCalls, callbacks, called_calls, moveTo, new, Event.callback]
  · exact .inr hraise

/-- In one call the bytes behind the header section are the body, or trailing bytes. -/
theorem parse_rest {q : HTTPParser} (hready : Ready q .body)
    (hkept : Kept (new .request callbacks) q) {body : Bytes} (hlt : body.length < 2^64) :
    (∃ p, HTTPParser.parse body q = (.ok (), p) ∧
      p.calls = q.calls ++ (if body = [] then [] else [.bodyChunk body]) ∧
      (q.body_bytes_expected_ = body.length → p.state_ = .done)) ∨
    q.body_bytes_expected_ ≠ body.length ∧ ∃ e p, HTTPParser.parse body q = (.raise e, p) := by
  have hstate := hready.state_eq
  have hread : q.body_bytes_read_ = 0 := hkept.read_eq
  have hmode : q.mode_ = .request := hkept.mode_eq
  by_cases hbody : body = []
  · left
    refine ⟨q, by rw [hbody, parse_nil], by simp [hbody], ?_⟩
    intro hexp
    rw [hstate, if_pos ⟨rfl, by rw [hexp, hbody]; rfl⟩]
  · by_cases hzero : q.body_bytes_expected_ = 0
    · rw [if_pos ⟨rfl, hzero⟩] at hstate
      refine .inr ⟨?_, _, _, parse_done hbody hstate hmode⟩
      rw [hzero]
      exact Ne.symm (mt List.length_eq_zero_iff.1 hbody)
    · left
      rw [if_neg fun h => hzero h.2] at hstate
      refine ⟨_, parse_body hbody (.inl hstate), ?_, ?_⟩
      · have hreg : q.registered .bodyChunk = true := by rw [hkept.registered_eq]; rfl
        rw [takeBody, calls_called hreg, if_neg hbody]
      · intro hexp
        rw [takeBody, called_state]
        simp only [hread, Nat.zero_add, Nat.mod_eq_of_lt hlt, hexp, if_true]

theorem eof_done {p : HTTPParser} (h : p.state_ = .done) : eof p = (.ok (), p) := by
  rw [eof, Sys.get_bind, h]
  rfl

theorem eof_calls (p : HTTPParser) : (eof p).2.calls = p.calls := by
  rw [eof, Sys.get_bind]
  cases p.state_ with
  | done => rfl
  | _ => simp only; split <;> rfl

/-- A text with a header section is parsed to the parts of it, if it is accepted; it is where
the length of the body is the announced one. -/
theorem parse_section (h : HeaderSection) {body : Bytes} (hlt : body.length < 2^64) :
    (∃ method fields, HTTPMethod.ofText? h.first = some method ∧
      h.lines.map lineHeader = fields.map some ∧
      (∀ req, parse (h.bytes ++ body) = .ok req →
        req = ofParts method h.second (stripTrailingBytes h.third 13) fields body) ∧
      (h.expected .request = some body.length → parse (h.bytes ++ body) =
        .ok (ofParts method h.second (stripTrailingBytes h.third 13) fields body))) ∨
    (¬h.StartValid .request ∨ h.expected .request = none) ∧
      ∀ req, parse (h.bytes ++ body) ≠ .ok req := by
  have hready : Ready (new .request callbacks) (initial .request) := .new fun _ => rfl
  have hwhole : HTTPParser.parse (h.bytes ++ body) (new .request callbacks) =
      (takeTokens h.tokens >>= fun _ => HTTPParser.parse body) (new .request callbacks) := by
    rw [← h.spell_tokens .request]
    exact parse_tokens hready (h.spelled_tokens .request) body
  rcases takeSection_cases h with ⟨method, fields, q, hmethod, hmap, hq, hkept, hready', hexp, hcalls⟩ |
    ⟨hbad, e, q, hq⟩
  · rw [Sys.bind_of_ok hq] at hwhole
    refine .inl ⟨method, fields, hmethod, hmap, ?_⟩
    rcases parse_rest hready' hkept hlt with ⟨p, hp, hpcalls, hdone⟩ | ⟨hne, e, p, hp⟩
    · have hrun : (HTTPParser.parse (h.bytes ++ body) >>= fun _ => eof) (new .request callbacks) =
          eof p := Sys.bind_of_ok (hwhole.trans hp)
      have hfold : (eof p).2.calls.foldl onEvent {} =
          ofParts method h.second (stripTrailingBytes h.third 13) fields body := by
        rw [eof_calls, hpcalls, hcalls, foldl_sectionCalls]
      constructor
      · intro req hreq
        rw [parse, hrun] at hreq
        generalize eof p = r at hfold hreq
        obtain ⟨result, parser⟩ := r
        cases result with
        | ok _ =>
          simp only at hreq
          split at hreq
          · cases hreq
          · cases hreq
            exact hfold
        | raise e => cases hreq
        | diverge => cases hreq
      · intro hexp'
        have hend := hdone (Option.some.inj (hexp.symm.trans hexp'))
        rw [eof_done hend] at hrun hfold
        rw [parse, hrun]
        simp only [hend, ne_eq, not_true_eq_false, if_false]
        rw [hfold]
    · have hrun : (HTTPParser.parse (h.bytes ++ body) >>= fun _ => eof) (new .request callbacks) =
          (.raise e, p) := Sys.bind_of_raise (hwhole.trans hp)
      constructor
      · intro req hreq
        rw [parse, hrun] at hreq
        cases hreq
      · intro hexp'
        exact absurd (Option.some.inj (hexp.symm.trans hexp')) hne
  · rw [Sys.bind_of_raise hq] at hwhole
    refine .inr ⟨hbad, ?_⟩
    intro req hreq
    rw [parse, Sys.bind_of_raise hwhole] at hreq
    cases hreq

end Stx.Http.HTTPRequest
