import Stx.Http.HTTPParser.Bodies

/-! The limits of the tokens. A limit is compared with what is collected of a token at the end
of a chunk that does not have the delimiter, and only there. -/
namespace Stx.Http.HTTPParser

/-- Some token of the stream, complete or not, is longer than its limit; the tokens before it
are in order. -/
def Overlong (st : ParserState) (s : Bytes) : Prop :=
  ∃ toks tok rest t, s = spell st toks ++ (tok ++ rest) ∧ Spelled st toks ∧ Accepted st toks ∧
    token? (nexts st toks) = some t ∧ t.search ∉ tok ∧ t.max < tok.length

/-- The stream ends inside such a token. -/
def EndsOverlong (st : ParserState) (s : Bytes) : Prop :=
  ∃ toks tok t, s = spell st toks ++ tok ∧ Spelled st toks ∧ Accepted st toks ∧
    token? (nexts st toks) = some t ∧ t.search ∉ tok ∧ t.max < tok.length

/-- However the stream is cut, it is rejected as too large, or it is not; and it is rejected if
and only if a token of it is longer than its limit. -/
def LimitsKept (p : HTTPParser) (s : Bytes) : Prop :=
  (∀ cs cs' : List Bytes, cs.flatten = s → cs'.flatten = s →
    (TooLarge (feed cs p).1 ↔ TooLarge (feed cs' p).1)) ∧
  ∀ cs : List Bytes, cs.flatten = s → (TooLarge (feed cs p).1 ↔ Overlong p.state_ s)

theorem TooLarge.head? {e : Exception} (h : TooLarge (.raise e)) : e.message.head? = some 72 := by
  obtain ⟨st, t, ht, he⟩ := h
  cases he
  exact Token.head?_tooLarge ht

theorem not_tooLarge_ok : ¬TooLarge (.ok ()) := by
  rintro ⟨st, t, -, h⟩
  cases h

theorem not_tooLarge_trailingBytes : ¬TooLarge (.raise trailingBytes) := by
  intro h
  exact absurd h.head? (by decide)

/-- The first chunk that reaches the end of an accepted sequence of tokens and more bytes than
the limit of the next one is rejected. -/
theorem EndsOverlong.tooLarge {p : HTTPParser} {st : ParserState} (h : Ready p st) {s : Bytes}
    (hover : EndsOverlong st s) {cs : List Bytes} (hcs : cs.flatten = s) :
    TooLarge (feed cs p).1 := by
  obtain ⟨toks, tok, t, rfl, hs, hacc, ht, hopen, hlong⟩ := hover
  rcases feed_tokens h hs hcs with ⟨-, e, q, hq, hlarge, -⟩ | ⟨-, hfeed⟩
  · rw [hq]
    exact hlarge
  rcases h.takeTokens_cases hs with ⟨-, q, hq, -, hready⟩ | ⟨hnot, -⟩
  · have hrest : (Chunks.drop (spell st toks).length cs).flatten = tok := by
      rw [Chunks.flatten_drop, hcs, List.drop_left]
    have hbuf : q.buf_.length = 0 := by rw [hready.buf_eq]; rfl
    rw [hfeed, Sys.bind_of_ok hq]
    rcases feed_open (hready.token_eq ht) (by omega) (hrest ▸ hopen) with
      ⟨-, data, hraise⟩ | ⟨hle, -⟩
    · rw [hraise]
      exact ⟨_, t, ht, rfl⟩
    · rw [hrest] at hle
      omega
  · exact absurd hacc hnot

theorem Overlong.of_cutBehindLimit {toks : List Bytes} {st : ParserState} {cs : List Bytes}
    {rest : Bytes} (hs : Spelled st toks) (hcut : CutBehindLimit st toks cs) :
    Overlong st (spell st toks ++ rest) := by
  induction toks generalizing st cs with
  | nil => exact hcut.elim
  | cons tok toks ih =>
    obtain ⟨hsome, hfree, hs'⟩ := hs
    have hspell : spell st (tok :: toks) ++ rest =
        tok ++ delimiter st :: (spell (next st tok) toks ++ rest) := by
      rw [spell, List.append_assoc, List.cons_append]
    rcases hcut with ⟨t, ht, n, -, hlt, hle⟩ | ⟨hacc, hcut⟩
    · have hdelim : delimiter st = t.search := by rw [delimiter, ht]; rfl
      exact ⟨[], tok, _, t, hspell, trivial, trivial, ht, hdelim ▸ hfree, by omega⟩
    · obtain ⟨toks', tok', rest', t, heq, hs'', hacc', ht, hopen, hlong⟩ := ih hs' hcut
      refine ⟨tok :: toks', tok', rest', t, ?_, ⟨hsome, hfree, hs''⟩, ⟨hacc, hacc'⟩, ht, hopen,
        hlong⟩
      rw [hspell, heq, spell, List.append_assoc, List.cons_append]

/-- What a rejected stream has in it; read in one piece, it ends there. -/
theorem TooLarge.cases {p : HTTPParser} {st : ParserState} (h : Ready p st) (hne : st ≠ .done)
    {cs : List Bytes} (hlarge : TooLarge (feed cs p).1) :
    EndsOverlong st cs.flatten ∨
      ∃ toks rest, cs.flatten = spell st toks ++ rest ∧ Spelled st toks ∧
        CutBehindLimit st toks cs := by
  obtain ⟨toks, tail, hcs, hs, htail⟩ := exists_spelled cs.flatten st
  rcases feed_tokens h hs hcs with ⟨hcut, -⟩ | ⟨-, hfeed⟩
  · exact .inr ⟨toks, tail, hcs, hs, hcut⟩
  left
  have hrest : (Chunks.drop (spell st toks).length cs).flatten = tail := by
    rw [Chunks.flatten_drop, hcs, List.drop_left]
  rw [hfeed] at hlarge
  rcases h.takeTokens_cases hs with ⟨hacc, q, hq, -, hready⟩ | ⟨-, e, q, hq, -, -, hhead⟩
  · rw [Sys.bind_of_ok hq] at hlarge
    cases ht : token? (nexts st toks) with
    | some t =>
      have hopen := htail t ht
      have hbuf : q.buf_.length = 0 := by rw [hready.buf_eq]; rfl
      rcases feed_open (hready.token_eq ht) (by omega) (hrest.symm ▸ hopen) with
        ⟨hlong, -⟩ | ⟨-, hok⟩
      · rw [hrest] at hlong
        exact ⟨toks, tail, t, hcs, hs, hacc, ht, hopen, by omega⟩
      · rw [hok] at hlarge
        exact absurd hlarge not_tooLarge_ok
    | none =>
      rw [eq_body_of_token? (nexts_ne_done hne) ht] at hready
      rcases feed_behind hready.behind (Chunks.drop (spell st toks).length cs) with
        ⟨r, hr, -⟩ | ⟨-, r, data, hr, -⟩
      · rw [hr] at hlarge
        exact absurd hlarge not_tooLarge_ok
      · rw [hr] at hlarge
        exact absurd hlarge not_tooLarge_trailingBytes
  · rw [Sys.bind_of_raise hq] at hlarge
    exact absurd hlarge.head? hhead

theorem EndsOverlong.overlong {st : ParserState} {s : Bytes} (h : EndsOverlong st s) :
    Overlong st s := by
  obtain ⟨toks, tok, t, hs, hrest⟩ := h
  exact ⟨toks, tok, [], t, by rw [hs, List.append_nil], hrest⟩

theorem TooLarge.overlong {p : HTTPParser} {st : ParserState} (h : Ready p st) (hne : st ≠ .done)
    {cs : List Bytes} (hlarge : TooLarge (feed cs p).1) : Overlong st cs.flatten := by
  rcases hlarge.cases h hne with hends | ⟨toks, rest, hcs, hs, hcut⟩
  · exact hends.overlong
  · rw [hcs]
    exact .of_cutBehindLimit hs hcut

/-- One call on the whole stream compares a limit only at the end of the stream. -/
theorem TooLarge.endsOverlong {p : HTTPParser} {st : ParserState} (h : Ready p st)
    (hne : st ≠ .done) {s : Bytes} (hlarge : TooLarge (feed [s] p).1) : EndsOverlong st s := by
  rcases hlarge.cases h hne with hends | ⟨toks, rest, hcs, -, hcut⟩
  · simpa using hends
  · rw [List.flatten_cons, List.flatten_nil, List.append_nil] at hcs
    rw [hcs] at hcut
    exact absurd hcut not_cutBehindLimit_whole

/-- Every cutting of a stream is judged by the limits if and only if an overlong token is not
followed by its delimiter. -/
theorem limitsKept_iff (mode : ParserMode) (registered : Callback → Bool)
    (hmethod : mode = .request → registered .method = true) (s : Bytes) :
    LimitsKept (new mode registered) s ↔
      (Overlong (initial mode) s → EndsOverlong (initial mode) s) := by
  have hready : Ready (new mode registered) (initial mode) := .new hmethod
  have hne : initial mode ≠ .done := by cases mode <;> decide
  constructor
  · intro hkept hover
    have hwhole : TooLarge (feed [s] (new mode registered)).1 :=
      (hkept.2 [s] (by simp)).2 hover
    exact hwhole.endsOverlong hready hne
  · intro hends
    have hiff : ∀ cs : List Bytes, cs.flatten = s →
        (TooLarge (feed cs (new mode registered)).1 ↔ Overlong (initial mode) s) := by
      intro cs hcs
      constructor
      · intro hlarge
        exact hcs ▸ hlarge.overlong hready hne
      · intro hover
        exact (hends hover).tooLarge hready hcs
    refine ⟨?_, hiff⟩
    intro cs cs' hcs hcs'
    rw [hiff cs hcs, hiff cs' hcs']

/-- A version of seventeen bytes: the limit is met when the chunk ends with it. -/
theorem longVersion_not_limitsKept :
    ¬LimitsKept (new .request fun _ => true) (lit "GET / HTTP/1.1-extended\n") := by
  intro hkept
  have hiff := hkept.1 [lit "GET / HTTP/1.1-extended", lit "\n"]
    [lit "GET / HTTP/1.1-extended\n"] (by decide) (by decide)
  have hcut : (feed [lit "GET / HTTP/1.1-extended", lit "\n"] (new .request fun _ => true)).1 =
      .raise requestVersionToken.tooLarge := by decide +kernel
  have hwhole : (feed [lit "GET / HTTP/1.1-extended\n"] (new .request fun _ => true)).1 =
      .ok () := by decide +kernel
  rw [hcut, hwhole] at hiff
  exact not_tooLarge_ok (hiff.1 ⟨.reqVersion, _, rfl, rfl⟩)

/-- A method that goes on without end is rejected however it is cut. -/
theorem openMethod_limitsKept :
    LimitsKept (new .request fun _ => true) (lit "GETGETGETGETGETGET") :=
  (limitsKept_iff .request (fun _ => true) (fun _ => rfl) _).2 fun _ =>
    ⟨[], _, methodToken, rfl, trivial, trivial, rfl, by decide, by decide⟩

end Stx.Http.HTTPParser
