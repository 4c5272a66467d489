import Stx.Http.HTTPParser.Messages

/-! The bytes behind a header section. -/
namespace Stx.Http.HTTPParser

def takeBody (p : HTTPParser) (data : Bytes) : HTTPParser :=
  { p with
    body_bytes_read_ := (p.body_bytes_read_+data.length) % 2^64
    state_ :=
      if (p.body_bytes_read_+data.length) % 2^64 = p.body_bytes_expected_ then .done
      else p.state_ }.called (.bodyChunk data)

theorem readBody_apply (p : HTTPParser) (data : Bytes) :
    readBody data p = (.ok [], p.takeBody data) := by
  rw [readBody]
  simp only [Sys.modify_bind, call_bind, takeBody]
  split <;> rfl

theorem parse_body {p : HTTPParser} {data : Bytes} (hne : data ≠ [])
    (hs : p.state_ = .body ∨ p.state_ = .done ∧ p.mode_ = .response) :
    parse data p = (.ok (), p.takeBody data) := by
  have hturn : turn data p = (.ok [], p.takeBody data) := by
    rw [turn, Sys.get_bind, ← readBody_apply]
    rcases hs with hs | ⟨hs, hmode⟩
    · rw [hs]
    · simp only [hs, hmode]
      rfl
  rw [parse_turn hne, Sys.bind_of_ok hturn, parse_nil]

/-- The error of bytes behind the body of a request. -/
def trailingBytes : Exception := ⟨.parseError, lit "invalid trailing bytes"⟩

theorem parse_done {p : HTTPParser} {data : Bytes} (hne : data ≠ []) (hs : p.state_ = .done)
    (hmode : p.mode_ = .request) : parse data p = (.raise trailingBytes, p) := by
  have hturn : turn data p = (.raise trailingBytes, p) := by
    rw [turn, Sys.get_bind]
    simp only [hs, hmode]
    rfl
  rw [parse_turn hne, Sys.bind_of_raise hturn]

theorem feed_append (a b : List Bytes) : feed (a ++ b) = feed a >>= fun _ => feed b := by
  induction a with
  | nil => rfl
  | cons c a ih => rw [List.cons_append, feed, feed, ih, Sys.bind_assoc]

/-- A request that is done takes no further bytes. -/
theorem feed_done {p : HTTPParser} {cs : List Bytes} (hs : p.state_ = .done)
    (hmode : p.mode_ = .request) (hne : cs.flatten ≠ []) :
    feed cs p = (.raise trailingBytes, p) := by
  induction cs with
  | nil => exact absurd rfl hne
  | cons c cs ih =>
    by_cases hc : c = []
    · rw [hc, feed_cons_nil]
      exact ih (by simpa [hc] using hne)
    · exact Sys.bind_of_raise (parse_done hc hs hmode)

def Behind (p : HTTPParser) : Prop := p.state_ = .body ∨ p.state_ = .done

theorem Ready.behind {p : HTTPParser} (h : Ready p .body) : Behind p := by
  have hstate := h.state_eq
  by_cases hzero : p.body_bytes_expected_ = 0
  · exact .inr (by simpa [hzero] using hstate)
  · exact .inl (by simpa [hzero] using hstate)

/-- `q` is the parser after the bytes `data` of the body. -/
structure ReadOn (p q : HTTPParser) (data : Bytes) : Prop where
  behind : Behind q
  mode_eq : q.mode_ = p.mode_
  registered_eq : q.registered = p.registered
  expected_eq : q.body_bytes_expected_ = p.body_bytes_expected_
  read_eq : q.body_bytes_read_ % 2^64 = (p.body_bytes_read_+data.length) % 2^64
  read_lt : p.body_bytes_read_ < 2^64 → q.body_bytes_read_ < 2^64
  calls_prefix : p.calls <+: q.calls
  body_eq : p.registered .bodyChunk = true → bodyOf q.calls = bodyOf p.calls ++ data
  done : q.state_ = .done → p.state_ = .done ∨
    ∃ m ≤ data.length, (p.body_bytes_read_+m) % 2^64 = p.body_bytes_expected_

theorem ReadOn.refl {p : HTTPParser} (h : Behind p) : ReadOn p p [] where
  behind := h
  mode_eq := rfl
  registered_eq := rfl
  expected_eq := rfl
  read_eq := rfl
  read_lt := id
  calls_prefix := List.prefix_refl _
  body_eq _ := by simp
  done := .inl

theorem ReadOn.trans {p q r : HTTPParser} {a b : Bytes} (h : ReadOn p q a) (h' : ReadOn q r b) :
    ReadOn p r (a ++ b) where
  behind := h'.behind
  mode_eq := h'.mode_eq.trans h.mode_eq
  registered_eq := h'.registered_eq.trans h.registered_eq
  expected_eq := h'.expected_eq.trans h.expected_eq
  read_eq := by
    have h1 := h.read_eq
    have h2 := h'.read_eq
    rw [List.length_append]
    omega
  read_lt := h'.read_lt ∘ h.read_lt
  calls_prefix := h.calls_prefix.trans h'.calls_prefix
  body_eq hreg := by
    rw [h'.body_eq (by rw [h.registered_eq, hreg]), h.body_eq hreg, List.append_assoc]
  done hdone := by
    rw [List.length_append]
    rcases h'.done hdone with hq | ⟨m, hm, heq⟩
    · rcases h.done hq with hp | ⟨m, hm, heq⟩
      · exact .inl hp
      · exact .inr ⟨m, by omega, heq⟩
    · have hread := h.read_eq
      rw [h.expected_eq] at heq
      exact .inr ⟨a.length+m, by omega, by omega⟩

theorem ReadOn.takeBody {p : HTTPParser} (h : Behind p) (data : Bytes) :
    ReadOn p (p.takeBody data) data where
  behind := by
    unfold HTTPParser.takeBody Behind
    rw [called_state]
    split
    · exact .inr rfl
    · exact h
  mode_eq := by simp [HTTPParser.takeBody]
  registered_eq := by simp [HTTPParser.takeBody]
  expected_eq := by simp [HTTPParser.takeBody]
  read_eq := by simp [HTTPParser.takeBody]
  read_lt _ := by
    rw [HTTPParser.takeBody, called_read]
    exact Nat.mod_lt _ (by decide)
  calls_prefix := by simp [HTTPParser.takeBody, called_calls]
  body_eq hreg := by
    rw [HTTPParser.takeBody, calls_called hreg, bodyOf_append]
    simp [bodyOf]
  done hdone := by
    rw [HTTPParser.takeBody, called_state] at hdone
    by_cases heq : (p.body_bytes_read_+data.length) % 2^64 = p.body_bytes_expected_
    · exact .inr ⟨data.length, le_refl _, heq⟩
    · simp only [heq, if_false] at hdone
      exact .inl hdone

/-- Behind the header section all bytes go to the body, up to an error at the bytes behind the
body of a request. -/
theorem feed_behind {p : HTTPParser} (h : Behind p) (cs : List Bytes) :
    (∃ q, feed cs p = (.ok (), q) ∧ ReadOn p q cs.flatten) ∨
    p.mode_ = .request ∧ ∃ q data, feed cs p = (.raise trailingBytes, q) ∧ ReadOn p q data := by
  induction cs generalizing p with
  | nil => exact .inl ⟨p, rfl, .refl h⟩
  | cons c cs ih =>
    by_cases hne : c = []
    · simpa [hne, feed_cons_nil] using ih h
    by_cases hdone : p.state_ = .done ∧ p.mode_ = .request
    · have hparse := parse_done hne hdone.1 hdone.2
      exact .inr ⟨hdone.2, p, [], Sys.bind_of_raise hparse, .refl h⟩
    have hparse : parse c p = (.ok (), p.takeBody c) := by
      apply parse_body hne
      rcases h with h | h
      · exact .inl h
      · cases hmode : p.mode_ with
        | request => exact absurd ⟨h, hmode⟩ hdone
        | response => exact .inr ⟨h, rfl⟩
    have hstep := ReadOn.takeBody h c
    rw [feed, Sys.bind_of_ok hparse]
    rcases ih hstep.behind with ⟨q, hq, hread⟩ | ⟨hmode, q, data, hq, hread⟩
    · exact .inl ⟨q, hq, hstep.trans hread⟩
    · exact .inr ⟨hstep.mode_eq.symm.trans hmode, q, _, hq, hstep.trans hread⟩

theorem eof_ok_iff (p : HTTPParser) :
    (eof p).1 = .ok () ↔ p.state_ = .done ∨ p.body_bytes_expected_ = untilEof ∨
      p.body_bytes_expected_ ≤ p.body_bytes_read_ := by
  by_cases hs : p.state_ = .done
  · simp [eof, hs]
  have happly : (eof p).1 =
      if p.body_bytes_expected_ ≠ untilEof ∧ p.body_bytes_read_ < p.body_bytes_expected_ then
        .RAISE .parseError "unexpected end of file"
      else .ok () := by
    rw [eof, Sys.get_bind]
    cases h : p.state_ with
    | done => exact absurd h hs
    | _ => simp only; split <;> rfl
  rw [happly]
  by_cases hshort : p.body_bytes_expected_ ≠ untilEof ∧
      p.body_bytes_read_ < p.body_bytes_expected_
  · rw [if_pos hshort]
    simp only [hs, hshort.1, Nat.not_le_of_lt hshort.2, Result.RAISE, or_self, reduceCtorEq]
  · rw [if_neg hshort]
    simp only [hs, false_or, true_iff]
    omega

section run
variable {mode : ParserMode} {registered : Callback → Bool}
  (hmethod : mode = .request → registered .method = true) {cs : List Bytes} {p : HTTPParser}
  (hfeed : feed cs (new mode registered) = (.ok (), p))
include hmethod hfeed

/-- Chunks that are read without an error are complete tokens, all taken, and what follows. -/
theorem feed_ok {toks : List Bytes} {rest : Bytes} (hs : Spelled (initial mode) toks)
    (hcs : cs.flatten = spell (initial mode) toks ++ rest) :
    ∃ q ds, takeTokens toks (new mode registered) = (.ok (), q) ∧
      Kept (new mode registered) q ∧ Ready q (nexts (initial mode) toks) ∧ ds.flatten = rest ∧
      feed ds q = (.ok (), p) := by
  have hready : Ready (new mode registered) (initial mode) := .new hmethod
  rcases feed_tokens hready hs hcs with ⟨-, e, q, hq, -⟩ | ⟨-, htokens⟩
  · cases hfeed.symm.trans hq
  rcases hready.takeTokens_cases hs with ⟨-, q, hq, hkept, hready'⟩ | ⟨-, e, q, hq, -⟩
  · refine ⟨q, Chunks.drop (spell (initial mode) toks).length cs, hq, hkept, hready', ?_, ?_⟩
    · rw [Chunks.flatten_drop, hcs, List.drop_left]
    · rw [← hfeed, htokens, Sys.bind_of_ok hq]
  · rw [htokens, Sys.bind_of_raise hq] at hfeed
    cases hfeed

/-- A whole header section was read, and all the bytes behind it. -/
theorem feed_section {h : HeaderSection} {rest : Bytes} (hcs : cs.flatten = h.bytes ++ rest) :
    h.StartValid mode ∧ ∃ q, Kept (new mode registered) q ∧ Ready q .body ∧
      h.expected mode = some q.body_bytes_expected_ ∧
      (registered .headersComplete = true → .headersComplete ∈ q.calls) ∧ ReadOn q p rest := by
  rw [← h.spell_tokens mode] at hcs
  obtain ⟨q, ds, hq, hkept, hready, hds, hrest⟩ :=
    feed_ok hmethod hfeed (h.spelled_tokens mode) hcs
  rw [h.nexts_tokens] at hready
  rcases h.take_cases mode registered hmethod with
    ⟨hstart, q', hq', -, -, hexp, hcalls⟩ | ⟨-, e, q', hq'⟩
  · cases hq.symm.trans hq'
    rcases feed_behind hready.behind ds with ⟨r, hr, hread⟩ | ⟨-, r, data, hr, -⟩
    · cases hrest.symm.trans hr
      rw [hds] at hread
      exact ⟨hstart, q, hkept, hready, hexp, hcalls, hread⟩
    · cases hrest.symm.trans hr
  · cases hq.symm.trans hq'

end run

/- A body that fits. -/

/-- The calls of the body callback for consecutive chunks. -/
def chunkEvents (registered : Callback → Bool) (cs : List Bytes) : List Event :=
  if registered .bodyChunk then (cs.filter (!·.isEmpty)).map .bodyChunk else []

/-- The parser after chunks of a body that fits. -/
def readAll (p : HTTPParser) (cs : List Bytes) : HTTPParser :=
  { p with
    body_bytes_read_ := p.body_bytes_read_+cs.flatten.length
    state_ :=
      if p.body_bytes_read_+cs.flatten.length = p.body_bytes_expected_ then .done else p.state_
    calls := p.calls ++ chunkEvents p.registered cs }

/-- The parser reads a body of which `len` more bytes fit. -/
def ReadsBody (p : HTTPParser) (len : Nat) : Prop :=
  p.state_ = .body ∧ p.body_bytes_read_ < p.body_bytes_expected_ ∧
    p.body_bytes_read_+len ≤ p.body_bytes_expected_ ∨
  p.state_ = .done ∧ p.mode_ = .response

theorem feed_of_flatten_nil {cs : List Bytes} (h : cs.flatten = []) (p : HTTPParser) :
    feed cs p = (.ok (), p) := by
  induction cs with
  | nil => rfl
  | cons c cs ih =>
    rw [List.flatten_cons, List.append_eq_nil_iff] at h
    rw [h.1, feed_cons_nil, ih h.2]

theorem chunkEvents_nil (registered : Callback → Bool) {cs : List Bytes} (h : cs.flatten = []) :
    chunkEvents registered cs = [] := by
  have hfilter : cs.filter (!·.isEmpty) = [] := by
    rw [List.filter_eq_nil_iff]
    intro c hc
    simpa using List.flatten_eq_nil_iff.1 h c hc
  rw [chunkEvents, hfilter]
  simp

theorem chunkEvents_cons (registered : Callback → Bool) {c : Bytes} (hne : c ≠ [])
    (cs : List Bytes) :
    chunkEvents registered (c :: cs) =
      (if registered .bodyChunk then [.bodyChunk c] else []) ++ chunkEvents registered cs := by
  by_cases hreg : registered .bodyChunk = true
  · simp [chunkEvents, hreg, hne]
  · simp [chunkEvents, hreg]

theorem readAll_nil {p : HTTPParser} {cs : List Bytes} (h : cs.flatten = [])
    (hs : p.state_ = .done ∨ p.body_bytes_read_ ≠ p.body_bytes_expected_) : p.readAll cs = p := by
  ext1 <;> simp [readAll, h, chunkEvents_nil]
  rcases hs with hs | hs
  · exact fun _ => hs.symm
  · exact fun he => absurd he hs

/-- A chunk of the body and the chunks behind it. -/
theorem readAll_cons {p : HTTPParser} {c : Bytes} (hne : c ≠ []) (cs : List Bytes)
    (hlt : p.body_bytes_read_+c.length < 2^64)
    (hs : p.state_ = .done ∨ p.body_bytes_read_+c.length ≠ p.body_bytes_expected_ ∨
      cs.flatten = []) :
    (p.takeBody c).readAll cs = p.readAll (c :: cs) := by
  have hread : (p.body_bytes_read_+c.length) % 2^64 = p.body_bytes_read_+c.length :=
    Nat.mod_eq_of_lt hlt
  ext1
  · simp [readAll, takeBody]
  · simp only [readAll, takeBody, called_read, called_expected, called_state, hread,
      List.flatten_cons, List.length_append]
    rcases hs with hs | hs | hs
    · simp [hs]
    · simp [hs, Nat.add_assoc]
    · by_cases heq : p.body_bytes_read_+c.length = p.body_bytes_expected_
      · simp [hs, heq]
      · simp [hs, heq]
  · simp [readAll, takeBody]
  · simp only [readAll, takeBody, called_read, hread, List.flatten_cons, List.length_append,
      Nat.add_assoc]
  · simp [readAll, takeBody]
  · simp [readAll, takeBody]
  · simp [readAll, takeBody]
  · simp only [readAll, takeBody, called_calls, called_registered, chunkEvents_cons _ hne,
      List.append_assoc]
    rfl

/-- Chunks of a body that fits are passed on, and only the last one can end it. -/
theorem feed_body {cs : List Bytes} {p : HTTPParser} (h : ReadsBody p cs.flatten.length)
    (hlt : p.body_bytes_read_+cs.flatten.length < 2^64) : feed cs p = (.ok (), p.readAll cs) := by
  induction cs generalizing p with
  | nil =>
    rw [readAll_nil rfl, feed_nil]
    rcases h with ⟨-, hne, -⟩ | ⟨hs, -⟩
    · exact .inr (Nat.ne_of_lt hne)
    · exact .inl hs
  | cons c cs ih =>
    rw [List.flatten_cons, List.length_append] at h hlt
    by_cases hne : c = []
    · have hall : p.readAll ([] :: cs) = p.readAll cs := by
        ext1 <;> simp [readAll, chunkEvents]
      rw [hne, feed_cons_nil, hall]
      exact ih (by simpa [hne] using h) (by simpa [hne] using hlt)
    have hparse : parse c p = (.ok (), p.takeBody c) := by
      apply parse_body hne
      rcases h with ⟨hs, -⟩ | hs
      · exact .inl hs
      · exact .inr hs
    have hmod : (p.body_bytes_read_+c.length) % 2^64 = p.body_bytes_read_+c.length :=
      Nat.mod_eq_of_lt (by omega)
    have hread : (p.takeBody c).body_bytes_read_ = p.body_bytes_read_+c.length := by
      simp only [takeBody, called_read, hmod]
    have hexp : (p.takeBody c).body_bytes_expected_ = p.body_bytes_expected_ := by simp [takeBody]
    have hstate : (p.takeBody c).state_ =
        if p.body_bytes_read_+c.length = p.body_bytes_expected_ then .done else p.state_ := by
      simp only [takeBody, called_state, hmod]
    rw [feed, Sys.bind_of_ok hparse]
    rcases h with ⟨hs, hsmall, hfit⟩ | ⟨hs, hmode⟩
    · by_cases hend : p.body_bytes_read_+c.length = p.body_bytes_expected_
      · -- the rest is empty
        have hnil : cs.flatten = [] := List.eq_nil_of_length_eq_zero (by omega)
        rw [if_pos hend] at hstate
        rw [feed_of_flatten_nil hnil, ← readAll_cons hne cs (by omega) (.inr (.inr hnil)),
          readAll_nil hnil (.inl hstate)]
      · rw [if_neg hend, hs] at hstate
        rw [← readAll_cons hne cs (by omega) (.inr (.inl hend))]
        exact ih (.inl ⟨hstate, by omega, by omega⟩) (by omega)
    · rw [hs, ite_self] at hstate
      rw [← readAll_cons hne cs (by omega) (.inl hs)]
      exact ih (.inr ⟨hstate, by simpa [takeBody] using hmode⟩) (by omega)

end Stx.Http.HTTPParser
