import Stx.Http.HTTPParser.Bodies

/-! A message within the limits is parsed alike however it is cut into `parse()` calls. -/
namespace Stx.Http.HTTPParser

/-- The events with the pieces of the body joined. -/
def joinChunks : List Event → List Event
  | [] => []
  | .bodyChunk a :: es =>
    match joinChunks es with
    | .bodyChunk b :: es' => .bodyChunk (a ++ b) :: es'
    | es' => .bodyChunk a :: es'
  | e :: es => e :: joinChunks es

/-- What is seen of a sequence of calls: how it ends, the events with the body as a whole,
and the state of the parser. -/
structure Seen where
  outcome : Result Unit
  events : List Event
  parser : HTTPParser

def seen (r : Result Unit × HTTPParser) : Seen where
  outcome := r.1
  events := joinChunks r.2.calls
  parser := { r.2 with calls := [] }

/-- The body is absent, as long as announced, or read until the end of the file. In a
response with an announced length of zero the parser is done, and passes on what comes. -/
def BodyFits (mode : ParserMode) (n : Nat) (body : Bytes) : Prop :=
  body = [] ∨ body.length = n ∨ n = untilEof ∨ mode = .response ∧ n = 0

/- Joining the chunks. -/

theorem joinChunks_chunks {cs : List Bytes} (hne : cs ≠ []) :
    joinChunks (cs.map .bodyChunk) = [.bodyChunk cs.flatten] := by
  induction cs with
  | nil => exact absurd rfl hne
  | cons c cs ih =>
    by_cases hcs : cs = []
    · subst hcs
      simp [joinChunks]
    · simp [joinChunks, ih hcs]

theorem joinChunks_append {a b : List Event} (h : joinChunks a = joinChunks b) (es : List Event) :
    joinChunks (es ++ a) = joinChunks (es ++ b) := by
  induction es with
  | nil => exact h
  | cons e es ih => cases e <;> simp [joinChunks, ih]

theorem flatten_filter (cs : List Bytes) : (cs.filter (!·.isEmpty)).flatten = cs.flatten := by
  induction cs with
  | nil => rfl
  | cons c cs ih => by_cases hc : c = [] <;> simp [hc, ih]

theorem joinChunks_chunkEvents (registered : Callback → Bool) (cs : List Bytes) :
    joinChunks (chunkEvents registered cs) = joinChunks (chunkEvents registered [cs.flatten]) := by
  by_cases hreg : registered .bodyChunk = true
  · by_cases hnil : cs.flatten = []
    · rw [chunkEvents_nil _ hnil, chunkEvents_nil _ (by simp [hnil])]
    · have hfilter : cs.filter (!·.isEmpty) ≠ [] := by
        intro he
        rw [← flatten_filter, he] at hnil
        exact hnil rfl
      simp only [chunkEvents, hreg, if_true, joinChunks_chunks hfilter, flatten_filter]
      simp [hnil, joinChunks]
  · simp [chunkEvents, hreg]

/-- Cutting a body that fits does not change what is seen. -/
theorem seen_body {cs : List Bytes} {p : HTTPParser} (h : ReadsBody p cs.flatten.length)
    (hlt : p.body_bytes_read_+cs.flatten.length < 2^64) :
    seen (feed cs p) = seen (parse cs.flatten p) := by
  have hone : feed [cs.flatten] p = (.ok (), p.readAll [cs.flatten]) :=
    feed_body (by simpa using h) (by simpa using hlt)
  rw [feed_body h hlt, ← feed_singleton, hone]
  have hevents := joinChunks_append (joinChunks_chunkEvents p.registered cs) p.calls
  simp [seen, readAll, hevents]

/-- Every token is within the limit of its state. -/
def FitsLimits : ParserState → List Bytes → Prop
  | _, [] => True
  | st, tok :: toks => (∀ t, token? st = some t → tok.length ≤ t.max) ∧ FitsLimits (next st tok) toks

theorem FitsLimits.not_cutBehindLimit {toks : List Bytes} {st : ParserState}
    (hfit : FitsLimits st toks) (cs : List Bytes) : ¬CutBehindLimit st toks cs := by
  induction toks generalizing st cs with
  | nil => exact id
  | cons tok toks ih =>
    rintro (⟨t, ht, n, -, hlt, hle⟩ | ⟨-, hcut⟩)
    · have := hfit.1 t ht
      omega
    · exact ih hfit.2 _ hcut

theorem fitsLimits_lines {lines : List Bytes} {blank : Bytes}
    (hlines : ∀ line ∈ lines, stripTrailingBytes line 13 ≠ [])
    (hfit : ∀ line ∈ lines ++ [blank], line.length ≤ kMaxHeaderSize) :
    FitsLimits .header (lines ++ [blank]) := by
  induction lines with
  | nil =>
    refine ⟨fun t ht => ?_, trivial⟩
    cases ht
    exact hfit blank (by simp)
  | cons line lines ih =>
    have hline := hlines line List.mem_cons_self
    refine ⟨fun t ht => ?_, ?_⟩
    · cases ht
      exact hfit line List.mem_cons_self
    · rw [next_header hline]
      exact ih (fun l hl => hlines l (List.mem_cons_of_mem line hl))
        fun l hl => hfit l (List.mem_cons_of_mem line hl)

theorem HeaderSection.WithinLimits.fitsLimits {h : HeaderSection} {mode : ParserMode}
    (hlim : h.WithinLimits mode) : FitsLimits (initial mode) h.tokens := by
  obtain ⟨hfirst, hsecond, hthird, hlines⟩ := hlim
  have hrest := fitsLimits_lines (fun l hl => (h.lines_free l hl).2) hlines
  cases mode
  · refine ⟨?_, ?_, ?_, hrest⟩ <;> (intro t ht; cases ht; assumption)
  · refine ⟨?_, ?_, ?_, hrest⟩ <;> (intro t ht; cases ht; assumption)

/-- Behind its header section, a body that fits is read however it is cut. -/
theorem seen_rest {mode : ParserMode} {q : HTTPParser} (hready : Ready q .body)
    (hmode : q.mode_ = mode) (hread : q.body_bytes_read_ = 0) {body : Bytes} {cs : List Bytes}
    (hfits : BodyFits mode q.body_bytes_expected_ body) (hlt : body.length < 2^64)
    (hcs : cs.flatten = body) : seen (feed cs q) = seen (parse body q) := by
  by_cases hnil : body = []
  · rw [hnil] at hcs ⊢
    rw [feed_of_flatten_nil hcs, parse_nil]
  subst hcs
  apply seen_body _ (by omega)
  have hstate := hready.state_eq
  have hpos := List.length_pos_of_ne_nil hnil
  by_cases hzero : q.body_bytes_expected_ = 0
  · right
    rw [if_pos ⟨rfl, hzero⟩] at hstate
    refine ⟨hstate, ?_⟩
    rcases hfits with hfit | hfit | hfit | ⟨hfit, -⟩
    · exact absurd hfit hnil
    · omega
    · exact absurd (hzero.symm.trans hfit) (by decide)
    · rw [hmode, hfit]
  · left
    rw [if_neg fun h => hzero h.2] at hstate
    refine ⟨hstate, by omega, ?_⟩
    rcases hfits with hfit | hfit | hfit | ⟨-, hfit⟩
    · exact absurd hfit hnil
    · omega
    · rw [hfit, untilEof]
      omega
    · exact absurd hfit hzero

/-- However a message is cut into `parse()` calls, the events, the state of the parser and
the way the calls end are those of one call on the whole message. -/
theorem seen_feed_eq_seen_parse (mode : ParserMode) (h : HeaderSection) (body : Bytes)
    (hlimits : h.WithinLimits mode)
    (hbody : ∀ n, h.expected mode = some n → BodyFits mode n body)
    (hsize : (h.bytes ++ body).length < 2^64) (cs : List Bytes)
    (hcs : cs.flatten = h.bytes ++ body) :
    seen (feed cs (new mode fun _ => true)) =
      seen (parse (h.bytes ++ body) (new mode fun _ => true)) := by
  have hready : Ready (new mode fun _ => true) (initial mode) := .new fun _ => rfl
  have hspelled := h.spelled_tokens mode
  -- the header section is read to its end, from these chunks as from one
  have hread : ∀ cs : List Bytes, cs.flatten = h.bytes ++ body →
      feed cs (new mode fun _ => true) =
        (takeTokens h.tokens >>= fun _ => feed (Chunks.drop h.bytes.length cs))
          (new mode fun _ => true) := by
    intro cs hcs
    have hcs' : cs.flatten = spell (initial mode) h.tokens ++ body := by rw [h.spell_tokens, hcs]
    rcases feed_tokens hready hspelled hcs' with ⟨hcut, -⟩ | ⟨-, hfeed⟩
    · exact absurd hcut (hlimits.fitsLimits.not_cutBehindLimit cs)
    · rw [hfeed, h.spell_tokens]
  rw [← feed_singleton, hread cs hcs, hread [h.bytes ++ body] (by simp)]
  have hwhole : Chunks.drop h.bytes.length [h.bytes ++ body] = [body] := by
    simp [Chunks.drop]
  have hrest : (Chunks.drop h.bytes.length cs).flatten = body := by
    rw [Chunks.flatten_drop, hcs, List.drop_left]
  rw [hwhole]
  rcases h.take_cases mode (fun _ => true) (fun _ => rfl) with
    ⟨-, q, hq, hkept, hready', hexp, -⟩ | ⟨-, e, q, hq⟩
  · rw [Sys.bind_of_ok hq, Sys.bind_of_ok hq, feed_singleton]
    rw [List.length_append] at hsize
    exact seen_rest hready' hkept.mode_eq hkept.read_eq (hbody _ hexp) (by omega) hrest
  · rw [Sys.bind_of_raise hq, Sys.bind_of_raise hq]

theorem seen_sampleSection_cut :
    seen (feed [lit "PO", lit "ST /x HTTP/1.1\r", lit "\nContent-Length: 3\r\n\r", lit "\na",
      lit "bc"] (new .request fun _ => true)) =
    seen (parse (sampleSection.bytes ++ lit "abc") (new .request fun _ => true)) :=
  seen_feed_eq_seen_parse .request sampleSection (lit "abc")
    ⟨by decide, by decide, by decide, by decide⟩
    (fun n hn => .inr (.inl (Option.some.inj (hn.symm.trans (by decide)).symm))) (by decide) _ (by decide)

end Stx.Http.HTTPParser
