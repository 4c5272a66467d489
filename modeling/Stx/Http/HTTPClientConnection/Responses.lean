import Stx.Http.HTTPClientConnection.Requests
import Stx.Http.HTTPGenerator.RoundTrip
import Stx.Http.HTTPParser.ChunkInvariance
import Stx.Http.HTTPParser.EndOfFile

/-! The text of a response that a server of the library wrote: at the client that receives it in
pieces of any size, and at `HTTPResponse::parse`. -/
namespace Stx.Libc

theorem stoi_toStringInt {n : Int} (hlo : -2^31 ≤ n) (hhi : n < 2^31) :
    stoi (StringUtil.toStringInt n) = some n := by
  have hdigits : ∀ d ∈ StringUtil.toString n.natAbs, isdigit d = true :=
    fun _ => isdigit_of_mem_toString
  have hne : StringUtil.toString n.natAbs ≠ [] := by simp [StringUtil.toString]
  have hnumeral : Numeral.ofText (StringUtil.toStringInt n) =
      ⟨decide (n < 0), StringUtil.toString n.natAbs⟩ := by
    rw [StringUtil.toStringInt]
    by_cases hneg : n < 0
    · have hminus : lit "-" = [45] := by decide
      rw [if_pos hneg, hminus, List.singleton_append, Numeral.ofText,
        List.dropWhile_cons_of_neg (by decide)]
      simp only [if_true, List.takeWhile_eq_self_iff.2 hdigits, hneg, decide_true]
    · rw [if_neg hneg, ofText_digits hdigits, decide_eq_false hneg]
  have hval : (if decide (n < 0) = true then -(n.natAbs : Int) else n.natAbs) = n := by
    split
    · next hneg =>
      have hlt : n < 0 := of_decide_eq_true hneg
      omega
    · next hnot =>
      have hle : ¬n < 0 := fun hlt => hnot (decide_eq_true hlt)
      omega
  rw [stoi, hnumeral]
  simp only [digitsVal_toString, hval]
  exact if_neg (by simp [hne]; omega)

end Stx.Libc

namespace Stx.Http.HTTPGenerator
open StringUtil HTTPParser

/-- A response whose parts can be told apart in its text, and in the texts that `format` goes
through for it, with the length of its body in the headers that announce one. -/
structure ResponseFormed (res : HTTPResponse) : Prop where
  version : 4 ≤ res.version_.length ∧ ∀ b ∈ res.version_, b ≠ 32 ∧ b ≠ 36
  status_code : -2^31 ≤ res.status_code_ ∧ res.status_code_ < 2^31
  status : ∀ b ∈ res.status_, b ≠ 13 ∧ b ≠ 10
  field : ∀ field ∈ res.headers_.list, FieldFormed res.body_.length field
  placeholder : ∀ field ∈ res.headers_.list, ¬lit "$1" <:+: field.1 ∨ field.2 = lit "$1"
  line_fits : FormatFits (lit "$0 $1 $2\r\n") 0
    [res.version_, toStringInt res.status_code_, res.status_]
  fields_fit : ∀ field ∈ res.headers_.list, FormatFits (lit "$0: $1\r\n") 0 [field.1, field.2]

theorem toStringInt_ne {n : Int} {b : UInt8} (h : b ∈ toStringInt n) : b ≠ 32 ∧ b ≠ 36 := by
  have hdigits : ∀ m : Nat, b ∈ StringUtil.toString m → b ≠ 32 ∧ b ≠ 36 := by
    intro m hm
    have hdigit := Libc.isdigit_of_mem_toString hm
    constructor
    · rintro rfl
      exact absurd hdigit (by decide)
    · rintro rfl
      exact absurd hdigit (by decide)
  rw [toStringInt] at h
  split at h
  · obtain h | h := List.mem_append.1 h
    · obtain rfl : b = 45 := by simpa [lit] using h
      decide
    · exact hdigits _ h
  · exact hdigits _ h

/-- The header section of a response. -/
def responseSection (res : HTTPResponse) (h : ResponseFormed res) : HeaderSection where
  first := res.version_
  second := toStringInt res.status_code_
  third := res.status_ ++ [13]
  lines := res.headers_.list.map lineOf
  blank := [13]
  first_free hmem := (h.version.2 32 hmem).1 rfl
  second_free hmem := (toStringInt_ne hmem).1 rfl
  third_free hmem := by
    obtain hmem | hmem := List.mem_append.1 hmem
    · exact (h.status 10 hmem).2 rfl
    · exact absurd hmem (by decide)
  lines_free line hline := by
    obtain ⟨field, hfield, rfl⟩ := List.mem_map.1 hline
    refine ⟨newline_not_mem_lineOf (h.field field hfield), ?_⟩
    rw [strip_lineOf (h.field field hfield)]
    simp
  blank_free := stripTrailingBytes_cr

theorem generateResponse_eq {res : HTTPResponse} (h : ResponseFormed res) :
    generateResponse res = .ok ((responseSection res h).bytes ++ res.body_) := by
  have hfree : ∀ d : UInt8, ¬[36, d] <:+: toStringInt res.status_code_ := fun d =>
    not_infix_of_dollar fun hmem => (toStringInt_ne hmem).2 rfl
  have hstart := formatImplInt_eq h.line_fits
  have hsecond : replaceAll (toStringInt res.status_code_) (lit "$2") res.status_ =
      toStringInt res.status_code_ := replaceAll_of_not_infix (by decide) (hfree 50)
  rw [format_line fun hmem => (h.version.2 36 hmem).2 rfl, hsecond] at hstart
  have hend : lit "\r\n" = [13, 10] := by decide
  have hlong : ¬res.version_.length < 4 := Nat.not_lt.2 h.version.1
  rw [generateResponse, if_neg hlong, formatInt, hstart, generateHeaders_eq h.fields_fit, hend]
  have hbytes : (responseSection res h).bytes = res.version_ ++ 32 ::
      (toStringInt res.status_code_ ++ 32 :: ((res.status_ ++ [13]) ++ 10 ::
        ((res.headers_.list.map lineOf).flatMap (· ++ [10]) ++ ([13] ++ [10])))) := rfl
  rw [hbytes, List.flatMap_map]
  simp only [Result.pure_eq, Result.ok_bind, List.append_assoc, List.cons_append, List.nil_append]

theorem ResponseFormed.lineHeader {res : HTTPResponse} (h : ResponseFormed res) :
    ∀ field ∈ res.headers_.list, HTTPParser.lineHeader (lineOf field) = some field := by
  intro field hfield
  have hname : replaceAll field.1 (lit "$1") field.2 = field.1 := by
    obtain hnot | heq := h.placeholder field hfield
    · exact replaceAll_of_not_infix (by decide) hnot
    · rw [heq]
      exact replaceAll_self _ (by decide)
  rw [lineHeader_lineOf (h.field field hfield), hname]
  rw [hname]
  exact fun hmem => ((h.field field hfield).name 58 hmem).1 rfl

theorem ResponseFormed.lines {res : HTTPResponse} (h : ResponseFormed res) :
    (responseSection res h).lines.map HTTPParser.lineHeader = res.headers_.list.map some := by
  change (res.headers_.list.map lineOf).map HTTPParser.lineHeader = _
  rw [List.map_map]
  exact List.map_congr_left h.lineHeader

theorem FieldFormed.expectedAfter {size n : Nat} {field : Bytes × Bytes}
    (h : FieldFormed size field) (hn : n = 0 ∨ n = size ∨ n = untilEof) :
    ∃ m, HTTPParser.expectedAfter .response true n field.1 field.2 = some m ∧
      (m = 0 ∨ m = size ∨ m = untilEof) := by
  obtain ⟨k, hk, hkept⟩ : ∃ k, (if true = true ∧ isContentLength field.1 = true then
      Libc.stoul field.2 else some n) = some k ∧ (k = 0 ∨ k = size ∨ k = untilEof) := by
    by_cases hlength : isContentLength field.1 = true
    · exact ⟨size, by rw [if_pos ⟨rfl, hlength⟩, h.length hlength], .inr (.inl rfl)⟩
    · exact ⟨n, if_neg fun hand => hlength hand.2, hn⟩
  rw [HTTPParser.expectedAfter, hk, Option.map_some]
  refine ⟨_, rfl, ?_⟩
  split
  · exact .inr (.inr rfl)
  · exact hkept

/-- The parser expects no body, the body of the response, or whatever comes until the end. -/
theorem ResponseFormed.expected {res : HTTPResponse} (h : ResponseFormed res) :
    ∃ n, (responseSection res h).expected .response = some n ∧
      (n = 0 ∨ n = res.body_.length ∨ n = untilEof) := by
  have hfold : ∀ fields : List (Bytes × Bytes), fields ⊆ res.headers_.list → ∀ n,
      n = 0 ∨ n = res.body_.length ∨ n = untilEof →
        ∃ m, (fields.map lineOf).foldlM (lineExpected .response) n = some m ∧
          (m = 0 ∨ m = res.body_.length ∨ m = untilEof) := by
    intro fields
    induction fields with
    | nil => exact fun _ n hn => ⟨n, rfl, hn⟩
    | cons field fields ih =>
      intro hsub n hn
      rw [List.cons_subset] at hsub
      obtain ⟨k, hk, hkept⟩ := (h.field field hsub.1).expectedAfter hn
      rw [List.map_cons, List.foldlM_cons, lineExpected_eq (h.lineHeader field hsub.1), hk]
      exact ih hsub.2 k hkept
  refine hfold _ (List.Subset.refl _) _ ?_
  unfold HeaderSection.startExpected
  split
  · exact .inr (.inr rfl)
  · exact .inl rfl

end Stx.Http.HTTPGenerator

namespace Stx.Http.HTTPParser

/-- The bytes behind the header section of a response are passed on as they come. -/
theorem calls_of_behind {p q : HTTPParser} {cs : List Bytes} (h : Behind p)
    (hmode : p.mode_ = .response) (hfeed : feed cs p = (.ok (), q)) :
    q.calls = p.calls ++ chunkEvents p.registered cs := by
  induction cs generalizing p with
  | nil =>
    cases hfeed
    simp [chunkEvents]
  | cons c cs ih =>
    by_cases hne : c = []
    · rw [hne, feed_cons_nil] at hfeed
      rw [ih h hmode hfeed, hne]
      simp [chunkEvents]
    · have hparse : parse c p = (.ok (), p.takeBody c) :=
        parse_body hne (h.imp id fun hdone => ⟨hdone, hmode⟩)
      rw [feed, Sys.bind_of_ok hparse] at hfeed
      have hread := ReadOn.takeBody h c
      rw [ih hread.behind (hread.mode_eq.trans hmode) hfeed, hread.registered_eq,
        chunkEvents_cons _ hne, takeBody, called_calls, List.append_assoc]
      rfl

def responseCalls (h : HeaderSection) (code : Int) (fields : List (Bytes × Bytes))
    (chunks : List Bytes) : List Event :=
  [.version h.first, .statusCode code, .statusName (stripTrailingBytes h.third 13)] ++
    ((fields.map fun field => .header field.1 field.2) ++
      (.headersComplete :: chunks.map .bodyChunk))

section filter
variable (registered : Callback → Bool)

theorem filter_cons_registered (e : Event) (es : List Event) :
    (e :: es).filter (fun e => registered e.callback) =
      (if registered e.callback then [e] else []) ++ es.filter fun e => registered e.callback := by
  rw [List.filter_cons]
  split <;> rfl

theorem filter_chunks (chunks : List Bytes) :
    (chunks.map Event.bodyChunk).filter (fun e => registered e.callback) =
      if registered .bodyChunk then chunks.map .bodyChunk else [] := by
  rw [List.filter_map]
  cases hbody : registered .bodyChunk with
  | true => simp [Function.comp_def, Event.callback, hbody]
  | false => simp [Function.comp_def, Event.callback, hbody]

end filter

/-- The calls for a response, which are those of the callbacks that are registered. -/
theorem calls_of_feed {registered : Callback → Bool} (hheader : registered .header = true)
    {h : HeaderSection} {code : Int} (hcode : Libc.stoi h.second = some code)
    {fields : List (Bytes × Bytes)} (hlines : h.lines.map lineHeader = fields.map some)
    {cs : List Bytes} {body : Bytes} (hcs : cs.flatten = h.bytes ++ body) {p : HTTPParser}
    (hfeed : feed cs (new .response registered) = (.ok (), p)) :
    ∃ chunks, chunks.flatten = body ∧
      p.calls = (responseCalls h code fields chunks).filter fun e => registered e.callback := by
  have hmethod : ParserMode.response = .request → registered .method = true := fun hmode => by
    cases hmode
  rw [← h.spell_tokens .response] at hcs
  obtain ⟨q, ds, hq, hkept, hready, hds, hrest⟩ :=
    feed_ok hmethod hfeed (h.spelled_tokens .response) hcs
  rw [h.nexts_tokens] at hready
  obtain ⟨start, parsed, hstart, hparsed, hcalls⟩ :=
    h.take_calls .response registered hmethod hheader hq
  obtain rfl : parsed = fields :=
    List.map_injective_iff.2 (fun _ _ => Option.some.inj) (hparsed.symm.trans hlines)
  cases (takeStart_response registered h.first h.third hcode).symm.trans hstart
  have hmode : q.mode_ = .response := hkept.mode_eq
  have hregistered : q.registered = registered := hkept.registered_eq
  refine ⟨ds.filter (!·.isEmpty), (flatten_filter ds).trans hds, ?_⟩
  have hheaders : (parsed.map fun field => Event.header field.1 field.2).filter
      (fun e => registered e.callback) = parsed.map fun field => .header field.1 field.2 :=
    List.filter_eq_self.2 fun e he => by
      obtain ⟨field, -, rfl⟩ := List.mem_map.1 he
      exact hheader
  rw [calls_of_behind hready.behind hmode hrest, hregistered, hcalls, responseCalls,
    List.filter_append, List.filter_append, hheaders]
  simp only [filter_cons_registered, filter_chunks, List.filter_nil]
  simp only [chunkEvents, called_calls, called_registered, moveTo, new, Event.callback,
    List.nil_append, List.append_nil, List.append_assoc]
  rfl

end Stx.Http.HTTPParser

namespace Stx.Http.HTTPResponseFuture

theorem foldl_headers (res : HTTPResponse) (fields : List (Bytes × Bytes)) :
    (fields.map fun field => Event.header field.1 field.2).foldl onEvent res =
      { res with headers_ := res.headers_.addAll fields } := by
  induction fields generalizing res with
  | nil => rfl
  | cons field fields ih =>
    rw [List.map_cons, List.foldl_cons, ih]
    rfl

theorem foldl_chunks (res : HTTPResponse) (chunks : List Bytes) :
    (chunks.map Event.bodyChunk).foldl onEvent res =
      { res with body_ := res.body_ ++ chunks.flatten } := by
  induction chunks generalizing res with
  | nil => simp
  | cons chunk chunks ih =>
    rw [List.map_cons, List.foldl_cons, ih]
    simp [onEvent, HTTPMessage.appendBody]

theorem foldl_events (future : HTTPResponseFuture) (events : List Event) :
    (events.map HandlerCall.event).foldl call future =
      { future with res_ := events.foldl onEvent future.res_ } := by
  induction events generalizing future with
  | nil => rfl
  | cons event events ih =>
    rw [List.map_cons, List.foldl_cons, ih]
    rfl

/-- The calls that are left out do nothing to the response. -/
theorem foldl_registered {registered : Callback → Bool}
    (h : ∀ c, c = .method ∨ c = .uri ∨ c = .headersComplete ∨ registered c = true)
    (res : HTTPResponse) (events : List Event) :
    (events.filter fun e => registered e.callback).foldl onEvent res =
      events.foldl onEvent res := by
  rw [List.foldl_filter]
  congr 1
  funext res e
  split
  · rfl
  · next hnot =>
    have hcallback := h e.callback
    cases e with
    | method => rfl
    | uri => rfl
    | headersComplete => rfl
    | _ => exact absurd hcallback (by simpa [Event.callback] using hnot)

theorem addAll_list (headers : HeaderList) : HeaderList.addAll {} headers.list = headers := by
  apply HeaderList.ext
  rw [HeaderList.list_addAll, List.nil_append]
  conv_rhs => rw [← List.map_id headers.list]
  exact List.map_congr_left fun field hfield => Prod.ext (headers.lower field hfield) rfl

open HTTPGenerator HTTPParser

theorem foldl_responseCalls (res : HTTPResponse) (h : ResponseFormed res) {chunks : List Bytes}
    (hchunks : chunks.flatten = res.body_) :
    (responseCalls (responseSection res h) res.status_code_ res.headers_.list chunks).foldl onEvent
      {} = res := by
  have hname : stripTrailingBytes (responseSection res h).third 13 = res.status_ :=
    strip_return fun b hb => (h.status b hb).1
  rw [responseCalls, List.foldl_append, List.foldl_append, foldl_headers, List.foldl_cons,
    foldl_chunks, hname, hchunks]
  have hheaders := addAll_list res.headers_
  simp only [List.foldl_cons, List.foldl_nil, onEvent]
  change HTTPResponse.mk ⟨_, HeaderList.addAll {} res.headers_.list, _⟩ _ _ = res
  rw [hheaders]
  rfl

end Stx.Http.HTTPResponseFuture

namespace Stx.Http.HTTPParser

section feeding
variable {cs : List Bytes} {p q : HTTPParser}

theorem receiveAll_append (a b : List Bytes) :
    receiveAll (a ++ b) = receiveAll a >>= fun _ => receiveAll b := by
  induction a with
  | nil => rfl
  | cons c a ih => rw [List.cons_append, receiveAll, receiveAll, ih, Sys.bind_assoc]

theorem receiveAll_eq_feed (hne : [] ∉ cs) : receiveAll cs = feed cs := by
  induction cs with
  | nil => rfl
  | cons c cs ih =>
    rw [List.mem_cons, not_or] at hne
    rw [receiveAll, feed, receive, if_neg (Ne.symm hne.1), ih hne.2]

/-- The end of the file adds no calls to those for the bytes. -/
theorem feed_of_receiveAll (hall : receiveAll cs p = (.ok (), q)) (hended : [] ∉ cs.dropLast) :
    ∃ ds r, ds.flatten = cs.flatten ∧ feed ds p = (.ok (), r) ∧ q.calls = r.calls := by
  induction cs using List.reverseRecOn with
  | nil =>
    cases hall
    exact ⟨[], p, rfl, rfl, rfl⟩
  | append_singleton ds last _ =>
    rw [List.dropLast_concat] at hended
    by_cases hlast : last = []
    · subst hlast
      rw [receiveAll_append, receiveAll_eq_feed hended] at hall
      obtain ⟨_, r, hfeed, heof⟩ := Sys.bind_eq_ok hall
      refine ⟨ds, r, by simp, hfeed, ?_⟩
      have heof' : eof r = (.ok (), q) := (congrFun (Sys.bind_pure_unit eof) r).symm.trans heof
      have hcalls := HTTPRequest.eof_calls r
      rwa [heof'] at hcalls
    · have hne : [] ∉ ds ++ [last] := by simp [hended, Ne.symm hlast]
      rw [receiveAll_eq_feed hne] at hall
      exact ⟨_, q, rfl, hall, rfl⟩

end feeding

section run
variable {registered : Callback → Bool} {cs : List Bytes} {p : HTTPParser}
  (hfeed : feed cs (new .response registered) = (.ok (), p))
include hfeed

/-- A parser that is done has read a header section to its end. -/
theorem section_of_done (hdone : p.state_ = .done) :
    ∃ (h : HeaderSection) (rest : Bytes), cs.flatten = h.bytes ++ rest := by
  have hmethod : ParserMode.response = .request → registered .method = true := fun hmode => by
    cases hmode
  obtain ⟨toks, tail, hcs, hs, htail⟩ := exists_spelled cs.flatten (initial .response)
  cases ht : token? (nexts (initial .response) toks) with
  | some t =>
    obtain ⟨q, ds, hq, -, hready, hds, hrest⟩ := feed_ok hmethod hfeed hs hcs
    have hbuf : q.buf_.length ≤ t.max := by simp [hready.buf_eq]
    obtain ⟨-, data, hraise⟩ | ⟨-, hok⟩ :=
      feed_open (hready.token_eq ht) hbuf (hds.symm ▸ htail t ht)
    · cases hrest.symm.trans hraise
    · cases hrest.symm.trans hok
      rw [append_state, hready.state_of_token ht] at hdone
      rw [hdone] at ht
      cases ht
  | none =>
    have hbody := eq_body_of_token? (nexts_ne_done (by decide)) ht
    obtain ⟨h, rfl⟩ | ⟨h, rfl⟩ | ⟨-, hnot⟩ := tokens_cases hs
    · exact ⟨h, tail, hcs.trans (by rw [h.spell_tokens])⟩
    · rw [(h.openTokens_spec .response).2.2] at hbody
      cases hbody
    · exact absurd hbody hnot

/-- The length that it expects is that of the section, and it is done when so much was read. -/
theorem expected_of_section {h : HeaderSection} {rest : Bytes}
    (hcs : cs.flatten = h.bytes ++ rest) :
    h.expected .response = some p.body_bytes_expected_ ∧
      (p.state_ = .done → p.body_bytes_expected_ ≤ rest.length) := by
  obtain ⟨-, q, hkept, hready, hexpected, -, hread⟩ :=
    feed_section (fun hmode => by cases hmode) hfeed hcs
  have hzero : q.body_bytes_read_ = 0 := hkept.read_eq
  rw [hread.expected_eq]
  refine ⟨hexpected, fun hdone => ?_⟩
  obtain hdone | ⟨m, hm, heq⟩ := hread.done hdone
  · have hstate := hready.state_eq
    rw [hdone] at hstate
    by_cases hnone : q.body_bytes_expected_ = 0
    · omega
    · rw [if_neg fun hand => hnone hand.2] at hstate
      cases hstate
  · rw [hzero, Nat.zero_add] at heq
    have hle := Nat.mod_le m (2^64)
    omega

end run

/-- Before the last piece of a response that is not longer than it announces, the parser is not
done. -/
theorem not_done_before {registered : Callback → Bool} {cs ds : List Bytes} {p q : HTTPParser}
    {h : HeaderSection} {body : Bytes} {n : Nat} (hbody : registered .bodyChunk = true)
    (hcs : (cs ++ ds).flatten = h.bytes ++ body) (hexpected : h.expected .response = some n)
    (hn : body.length ≤ n) (hds : ds.flatten ≠ [])
    (hfeed : feed cs (new .response registered) = (.ok (), p))
    (hrest : feed ds p = (.ok (), q)) : p.state_ ≠ .done := by
  intro hdone
  have hall : feed (cs ++ ds) (new .response registered) = (.ok (), q) := by
    rw [feed_append, Sys.bind_of_ok hfeed, hrest]
  have hmethod : ParserMode.response = .request → registered .method = true := fun hmode => by
    cases hmode
  obtain ⟨h', rest, hh'⟩ := section_of_done hfeed hdone
  have hcs' : (cs ++ ds).flatten = h'.bytes ++ (rest ++ ds.flatten) := by
    rw [List.flatten_append, hh', List.append_assoc]
  -- the two sections are those of one text, which the parser has read as it has
  have hbodies (h : HeaderSection) (rest : Bytes) (hcs : (cs ++ ds).flatten = h.bytes ++ rest) :
      bodyOf q.calls = rest := by
    obtain ⟨-, r, hkept, -, -, -, hread⟩ := feed_section hmethod hall hcs
    rw [hread.body_eq (by rw [hkept.registered_eq]; exact hbody), hkept.body_eq]
    rfl
  have hsame : body = rest ++ ds.flatten := (hbodies h body hcs).symm.trans (hbodies h' _ hcs')
  obtain ⟨hexpected', hle⟩ := expected_of_section hfeed hh'
  have hone := (expected_of_section hall hcs).1
  have htwo := (expected_of_section hall hcs').1
  have heq : p.body_bytes_expected_ = n :=
    Option.some.inj (hexpected'.symm.trans (htwo.trans (hone.symm.trans hexpected)))
  have hpos := List.length_pos_of_ne_nil hds
  have hlength := congrArg List.length hsame
  rw [List.length_append] at hlength
  have hshort := hle hdone
  omega

/-- A response within the limits is read to the end of its body, however it is cut. -/
theorem feed_generated (registered : Callback → Bool) {cs : List Bytes} {h : HeaderSection}
    {body : Bytes} {n : Nat} (hcs : cs.flatten = h.bytes ++ body) (hvalid : h.StartValid .response)
    (hlimits : h.WithinLimits .response) (hexpected : h.expected .response = some n)
    (hn : body.length ≤ n) (hlt : body.length < 2^64) :
    ∃ p, feed cs (new .response registered) = (.ok (), p) ∧ p.body_bytes_expected_ = n ∧
      (n = body.length → p.state_ = .done) := by
  have hmethod : ParserMode.response = .request → registered .method = true := fun hmode => by
    cases hmode
  have hready : Ready (new .response registered) (initial .response) := .new hmethod
  have hspell := h.spell_tokens .response
  obtain ⟨hcut, -⟩ | ⟨-, hfeed⟩ :=
    feed_tokens hready (h.spelled_tokens .response) (hcs.trans (by rw [hspell]))
  · exact absurd hcut (hlimits.fitsLimits.not_cutBehindLimit cs)
  · obtain ⟨-, q, hq, hkept, hready', hexpected', -⟩ | ⟨hbad, -⟩ :=
      h.take_cases .response registered hmethod
    · obtain rfl := Option.some.inj (hexpected.symm.trans hexpected')
      have hzero : q.body_bytes_read_ = 0 := hkept.read_eq
      have hstate := hready'.state_eq
      have hrest : (Chunks.drop (spell (initial .response) h.tokens).length cs).flatten = body := by
        rw [Chunks.flatten_drop, hcs, hspell, List.drop_left]
      have hreads : ReadsBody q (Chunks.drop (spell (initial .response) h.tokens).length
          cs).flatten.length := by
        rw [hrest]
        by_cases hnone : q.body_bytes_expected_ = 0
        · rw [if_pos ⟨rfl, hnone⟩] at hstate
          exact .inr ⟨hstate, hkept.mode_eq⟩
        · rw [if_neg fun hand => hnone hand.2] at hstate
          exact .inl ⟨hstate, by omega, by omega⟩
      refine ⟨_, hfeed.trans ((Sys.bind_of_ok hq).trans (feed_body hreads (by rw [hrest]; omega))),
        rfl, fun hlength => ?_⟩
      rw [readAll, hrest, hzero, Nat.zero_add]
      exact if_pos hlength.symm
    · obtain hbad | hbad := hbad
      · exact absurd hvalid hbad
      · rw [hexpected] at hbad
        cases hbad

end Stx.Http.HTTPParser

namespace Stx.Http.HTTPClientConnection
open HTTPGenerator HTTPParser
variable {request : HTTPRequest} {res : HTTPResponse}

theorem startParser_eq (hhead : request.method_ ≠ .head) :
    startParser request = .new .response callbacks := by
  rw [startParser, setUp, if_neg hhead]
  rfl

/-- A response of a server of the library is read by a client in whatever pieces it comes: the
parser is not done before the last one. Behind it the parser is done where the headers announce the
length, and at the end of the file where they leave the length to that. -/
theorem response_read (hhead : request.method_ ≠ .head) (hres : ResponseFormed res)
    (hlimits : (responseSection res hres).WithinLimits .response)
    (hsize : res.body_.length < untilEof) {n : Nat}
    (hexpected : (responseSection res hres).expected .response = some n)
    (hn : n = res.body_.length ∨ n = untilEof) {cs : List Bytes} (hne : [] ∉ cs)
    (htext : generateResponse res = .ok cs.flatten) :
    (∀ ds, ds <+: cs → ds ≠ cs →
      ∃ p, receiveAll ds (startParser request) = (.ok (), p) ∧ p.state_ ≠ .done) ∧
    ∃ p, receiveAll (if n = untilEof then cs ++ [[]] else cs) (startParser request) =
      (.ok (), p) ∧ p.state_ = .done := by
  rw [startParser_eq hhead]
  rw [generateResponse_eq hres] at htext
  have hcs := (Result.ok.inj htext).symm
  have hvalid : (responseSection res hres).StartValid .response :=
    Option.isSome_iff_exists.2 ⟨_, Libc.stoi_toStringInt hres.status_code.1 hres.status_code.2⟩
  have hlt : res.body_.length < 2^64 := hsize.trans untilEof_lt
  obtain ⟨p, hfeed, hp, hdone⟩ :=
    feed_generated callbacks hcs hvalid hlimits hexpected (by omega) hlt
  constructor
  · intro ds hprefix hshort
    obtain ⟨rest, rfl⟩ := hprefix
    rw [List.mem_append, not_or] at hne
    rw [feed_append] at hfeed
    obtain ⟨_, q, hds, hrest⟩ := Sys.bind_eq_ok hfeed
    have hleft : rest.flatten ≠ [] := by
      cases rest with
      | nil => exact absurd (List.append_nil ds).symm hshort
      | cons c rest =>
        have hc : c ≠ [] := fun hc => hne.2 (hc ▸ List.mem_cons_self)
        simp [hc]
    refine ⟨q, by rw [receiveAll_eq_feed hne.1]; exact hds, ?_⟩
    exact not_done_before rfl hcs hexpected (by omega) hleft hds hrest
  · by_cases hend : n = untilEof
    · have heof : (receive [] p).1 = .ok () := (eof_ok_iff p).2 (.inr (.inl (hp.trans hend)))
      have hreceive : receive [] p = (.ok (), (receive [] p).2) := Prod.ext heof rfl
      refine ⟨(receive [] p).2, ?_, state_of_receive_nil hreceive⟩
      rw [if_pos hend, receiveAll_append, receiveAll_eq_feed hne, Sys.bind_of_ok hfeed]
      exact (congrFun (Sys.bind_pure_unit (receive [])) p).trans hreceive
    · rw [if_neg hend, receiveAll_eq_feed hne]
      exact ⟨p, hfeed, hdone (hn.resolve_right hend)⟩

/-- "HTTP/1.1 200 OK" with a body of two bytes. -/
def plainResponse : HTTPResponse where
  version_ := lit "HTTP/1.1"
  headers_ := HeaderList.addAll {} [(lit "Content-Length", lit "2")]
  body_ := lit "ok"
  status_code_ := 200
  status_ := lit "OK"

theorem plainResponse_formed : ResponseFormed plainResponse where
  version := by decide +kernel
  status_code := by decide
  status := by decide +kernel
  field := by
    have hlist : plainResponse.headers_.list = [(lit "content-length", lit "2")] := by
      decide +kernel
    rw [hlist, List.forall_mem_singleton]
    exact ⟨by decide +kernel, by decide +kernel, by decide +kernel, fun _ => by decide +kernel⟩
  placeholder := by decide +kernel
  line_fits := by decide +kernel
  fields_fit := by decide +kernel

/-- Its text, cut in a token and in the body. -/
def pieces : List Bytes :=
  [lit "HTTP/1.1 2", lit "00 OK\r\ncontent-length: 2\r\n\r\no", lit "k"]

theorem response_read_pieces :
    (∀ ds, ds <+: pieces → ds ≠ pieces →
      ∃ p, receiveAll ds (startParser {}) = (.ok (), p) ∧ p.state_ ≠ .done) ∧
    ∃ p, receiveAll (if 2 = untilEof then pieces ++ [[]] else pieces) (startParser {}) =
      (.ok (), p) ∧ p.state_ = .done :=
  response_read (by decide) plainResponse_formed
    ⟨by decide +kernel, by decide +kernel, by decide +kernel, by decide +kernel⟩ (by decide +kernel)
    (by decide +kernel) (.inl (by decide +kernel)) (by decide +kernel) (by decide +kernel)

end Stx.Http.HTTPClientConnection

namespace Stx.Http.HTTPConnectionPool
open HTTPClientConnection HTTPGenerator HTTPParser
variable {α : Type} [DecidableEq α] {pool : HTTPConnectionPool α} {as : List (Action α)} {h : Nat}
  {request : HTTPRequest} {res : HTTPResponse}

/-- A response of a server of the library, in whatever pieces it is received: the future of its
request is fulfilled once, with the response that was written. -/
theorem response_received (hrun : Runs.Run step {} as pool) (hsafe : pool.shared.misused = false)
    (hrequest : pool.requests[h]? = some request) (hhead : request.method_ ≠ .head)
    (hcall : (h, .responseComplete) ∈ pool.shared.calls) (hres : ResponseFormed res)
    (hpeer : ∀ conn ∈ pool.connections, conn.cur_handler_ = some h →
      generateResponse res = .ok conn.conn_.received.flatten) :
    HTTPResponseFuture.after (callsOf pool.shared.calls h) =
      { res_ := res, promise_ := [.ok res] } := by
  obtain ⟨conn, hmem, hhandler, request', hrequest', hexchanged, hcalls⟩ :=
    (inv_run hrun hsafe).completed hcall
  obtain rfl := Option.some.inj (hrequest.symm.trans hrequest')
  have htext := hpeer conn hmem hhandler
  rw [generateResponse_eq hres] at htext
  have hreceived := hexchanged.received
  rw [startParser_eq hhead] at hreceived
  obtain ⟨cs, p, hcs, hfeed, hsame⟩ := feed_of_receiveAll hreceived hexchanged.unended
  have hcode : Libc.stoi (responseSection res hres).second = some res.status_code_ :=
    Libc.stoi_toStringInt hres.status_code.1 hres.status_code.2
  obtain ⟨chunks, hchunks, hevents⟩ := calls_of_feed rfl hcode hres.lines
    (hcs.trans (Result.ok.inj htext).symm) hfeed
  have hregistered : ∀ c, c = .method ∨ c = .uri ∨ c = .headersComplete ∨
      HTTPClientConnection.callbacks c = true := fun c => by
    cases c <;> simp [HTTPClientConnection.callbacks]
  rw [hcalls, hsame, hevents, HTTPResponseFuture.after, List.foldl_append,
    HTTPResponseFuture.foldl_events, HTTPResponseFuture.foldl_registered hregistered,
    HTTPResponseFuture.foldl_responseCalls res hres hchunks]
  rfl

/-- A request that the peer answers with the response in pieces. -/
def download : List (Action Unit) :=
  [.executeRequest {} (), .connected 0 (.ok ()), .writable 0 (.ok 9)] ++
    pieces.map fun piece => .readable 0 (.ok piece)

/-- What was asked for, what was received, and the number of the handler that was called last; and
whether a connection was used behind its deletion. -/
def delivered (pool : HTTPConnectionPool Unit) :
    (List HTTPRequest × List Bytes) × Option (Nat × HandlerCall) × Bool :=
  ((pool.requests, pool.connections.map fun conn => conn.conn_.received.flatten),
    pool.shared.calls.getLast?, pool.shared.misused)

theorem download_delivers : (download.foldlM (Runs.guarded step fun _ _ => True) {}).map delivered =
    some (([{}], [pieces.flatten]), some (0, .responseComplete), false) := by decide +kernel

theorem response_received_pieces : ∃ pool, Runs.Run step {} download pool ∧
    HTTPResponseFuture.after (callsOf pool.shared.calls 0) =
      { res_ := plainResponse, promise_ := [.ok plainResponse] } := by
  obtain ⟨pool, hrun, hdelivered⟩ := Runs.exists_of_foldlM delivered download_delivers
  obtain ⟨hfirst, hsecond⟩ := Prod.ext_iff.1 hdelivered
  obtain ⟨hlast, hsafe⟩ := Prod.ext_iff.1 hsecond
  obtain ⟨hrequests, hreceived⟩ := Prod.ext_iff.1 hfirst
  have hrequest : pool.requests[0]? = some ({} : HTTPRequest) := congrArg (·[0]?) hrequests
  have htext : HTTPGenerator.generateResponse plainResponse = .ok pieces.flatten := by
    decide +kernel
  refine ⟨pool, hrun, response_received hrun hsafe hrequest (by decide)
    (List.mem_of_getLast? hlast) plainResponse_formed fun conn hmem _ => ?_⟩
  have hreceived' : (pool.connections.map fun conn => conn.conn_.received.flatten) =
      [pieces.flatten] := hreceived
  have hat : conn.conn_.received.flatten ∈ [pieces.flatten] := by
    rw [← hreceived']
    exact List.mem_map_of_mem hmem
  rw [List.mem_singleton.1 hat]
  exact htext

end Stx.Http.HTTPConnectionPool

namespace Stx.Http.HTTPResponse
open HTTPGenerator HTTPParser

/-- The callbacks that `HTTPResponse::parse` sets. -/
def callbacks : Callback → Bool
  | .method | .uri | .headersComplete => false
  | _ => true

/-- The callbacks do to the response what the functions of `HTTPResponseFuture` do. -/
def parse (str : Bytes) : Result HTTPResponse :=
  match (HTTPParser.parse str >>= fun _ => HTTPParser.eof) (HTTPParser.new .response callbacks) with
  | (.ok _, parser) =>
    if parser.state_ ≠ .done then .RAISE .runtimeError "incomplete HTTP response"
    else .ok (parser.calls.foldl HTTPResponseFuture.onEvent {})
  | (.raise e, _) => .raise e
  | (.diverge, _) => .diverge

section generated
variable {res : HTTPResponse} (hres : ResponseFormed res)
include hres

/-- In one call the limits are not looked at, and a length that is not announced does not matter at
the end of the file. -/
theorem parse_generated_ok (registered : Callback → Bool) :
    ∃ p, HTTPParser.parse ((responseSection res hres).bytes ++ res.body_)
        (new .response registered) = (.ok (), p) ∧ (eof p).1 = .ok () := by
  have hmethod : ParserMode.response = .request → registered .method = true := fun hmode => by
    cases hmode
  have hwhole : HTTPParser.parse ((responseSection res hres).bytes ++ res.body_)
      (new .response registered) =
        (takeTokens (responseSection res hres).tokens >>= fun _ => HTTPParser.parse res.body_)
          (new .response registered) := by
    rw [← (responseSection res hres).spell_tokens .response]
    exact parse_tokens (.new hmethod) ((responseSection res hres).spelled_tokens .response) _
  obtain ⟨n, hexpected, hn⟩ := hres.expected
  obtain ⟨-, q, hq, hkept, hready, hexpected', -⟩ | ⟨hbad, -⟩ :=
    (responseSection res hres).take_cases .response registered hmethod
  · rw [Sys.bind_of_ok hq] at hwhole
    obtain rfl := Option.some.inj (hexpected.symm.trans hexpected')
    obtain ⟨p, hp, hread⟩ | ⟨hmode, -⟩ := feed_behind hready.behind [res.body_]
    · rw [feed_singleton] at hp
      refine ⟨p, hwhole.trans hp, (eof_ok_iff p).2 (.inr ?_)⟩
      rw [hread.expected_eq]
      obtain hzero | hlength | hend := hn
      · exact .inr (by omega)
      · have hlt : q.body_bytes_expected_ < 2^64 := hkept.expected_lt (by simp [new])
        have hstart : q.body_bytes_read_ = 0 := hkept.read_eq
        have hcount := hread.read_eq
        have hbound := hread.read_lt (by omega)
        rw [hstart, List.flatten_singleton, Nat.zero_add] at hcount
        exact .inr (by omega)
      · exact .inl hend
    · cases hkept.mode_eq.symm.trans hmode
  · obtain hbad | hbad := hbad
    · have hcode := Libc.stoi_toStringInt hres.status_code.1 hres.status_code.2
      exact absurd (Option.isSome_iff_exists.2 ⟨_, hcode⟩) hbad
    · cases hexpected.symm.trans hbad

/-- A response is read back from its text. -/
theorem parse_generated : ∃ text, generateResponse res = .ok text ∧ parse text = .ok res := by
  refine ⟨_, generateResponse_eq hres, ?_⟩
  obtain ⟨p, hp, heof⟩ := parse_generated_ok hres callbacks
  have hdone : (eof p).2.state_ = .done := state_of_receive_nil (Prod.ext heof rfl)
  obtain ⟨chunks, hchunks, hcalls⟩ := calls_of_feed rfl
    (Libc.stoi_toStringInt hres.status_code.1 hres.status_code.2) hres.lines
    List.flatten_singleton ((congrFun (feed_singleton _) _).trans hp)
  have hregistered : ∀ c, c = .method ∨ c = .uri ∨ c = .headersComplete ∨
      callbacks c = true := fun c => by
    cases c <;> simp [callbacks]
  have hrun : (HTTPParser.parse ((responseSection res hres).bytes ++ res.body_) >>= fun _ => eof)
      (new .response callbacks) = (.ok (), (eof p).2) :=
    (Sys.bind_of_ok hp).trans (Prod.ext heof rfl)
  rw [parse, hrun]
  simp only [hdone, ne_eq, not_true_eq_false, if_false]
  rw [HTTPRequest.eof_calls, hcalls, HTTPResponseFuture.foldl_registered hregistered,
    HTTPResponseFuture.foldl_responseCalls res hres hchunks]

end generated

theorem parse_generated_plain : ∃ text,
    generateResponse HTTPClientConnection.plainResponse = .ok text ∧
      parse text = .ok HTTPClientConnection.plainResponse :=
  parse_generated HTTPClientConnection.plainResponse_formed

end Stx.Http.HTTPResponse
