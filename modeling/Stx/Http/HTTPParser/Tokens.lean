import Stx.Http.HTTPParser
import Stx.Lib.Chunks

/-! What one `parse()` call and a sequence of them do, token by token: a token that is
complete in the chunks is taken as a whole, unless a chunk ends inside it behind its limit. -/
namespace Stx.Http.HTTPParser

/-- The token that a state collects; the two states of the body have none. -/
def token? : ParserState → Option Token
  | .reqMethod => some methodToken
  | .reqURI => some uriToken
  | .reqVersion => some requestVersionToken
  | .resVersion => some responseVersionToken
  | .resStatusCode => some statusCodeToken
  | .resStatusName => some statusNameToken
  | .header => some headerToken
  | .body | .done => none

def append (p : HTTPParser) (data : Bytes) : HTTPParser := { p with buf_ := p.buf_ ++ data }

@[simp] theorem append_nil (p : HTTPParser) : p.append [] = p := by simp [append]

@[simp] theorem append_append (p : HTTPParser) (a b : Bytes) :
    (p.append a).append b = p.append (a ++ b) := by simp [append]

@[simp] theorem append_state (p : HTTPParser) (data : Bytes) :
    (p.append data).state_ = p.state_ := rfl

@[simp] theorem append_buf (p : HTTPParser) (data : Bytes) :
    (p.append data).buf_ = p.buf_ ++ data := rfl

/-- The error of a token that is longer than its limit. -/
def Token.tooLarge (t : Token) : Exception :=
  .ofString .parseError (StringUtil.format t.error [StringUtil.toString t.max])

theorem turn_token {p : HTTPParser} {t : Token} (ht : token? p.state_ = some t) (data : Bytes) :
    turn data p = t.parse data p := by
  rw [turn, Sys.get_bind]
  cases hs : p.state_ <;> rw [hs] at ht <;> cases ht <;> rfl

theorem readUntil_found {search : UInt8} {tok : Bytes} (h : search ∉ tok) (rest : Bytes)
    (p : HTTPParser) :
    readUntil (tok ++ search :: rest) search p = (.ok (true, search :: rest), p.append tok) := by
  have hall : ∀ b ∈ tok, decide (b ≠ search) = true := by
    intro b hb
    exact decide_eq_true fun he => h (he ▸ hb)
  simp only [readUntil, append, List.takeWhile_append_of_pos hall,
    List.dropWhile_append_of_pos hall]
  simp

theorem readUntil_open {search : UInt8} {data : Bytes} (h : search ∉ data) (p : HTTPParser) :
    readUntil data search p = (.ok (false, []), p.append data) := by
  have hall : ∀ b ∈ data, decide (b ≠ search) = true := by
    intro b hb
    exact decide_eq_true fun he => h (he ▸ hb)
  have htake : data.takeWhile (fun b => decide (b ≠ search)) = data :=
    List.takeWhile_eq_self_iff.2 hall
  have hdrop : data.dropWhile (fun b => decide (b ≠ search)) = [] :=
    List.dropWhile_eq_nil_iff.2 hall
  simp only [readUntil, append, htake, hdrop]
  rfl

theorem Token.parse_found (t : Token) {tok : Bytes} (h : t.search ∉ tok) (rest : Bytes)
    (p : HTTPParser) :
    t.parse (tok ++ t.search :: rest) p = (t.read >>= fun _ => pure rest) (p.append tok) := by
  rw [Token.parse, Sys.bind_of_ok (readUntil_found h rest p)]
  rfl

theorem checkSize_apply (max : Nat) (error : String) (p : HTTPParser) :
    checkSize max error p =
      if max < p.buf_.length then
        (.RAISEF .parseError error [StringUtil.toString max], p)
      else (.ok (), p) := by
  rw [checkSize, Sys.reads_apply]
  split <;> rfl

theorem Token.parse_open (t : Token) {data : Bytes} (h : t.search ∉ data) (p : HTTPParser) :
    t.parse data p =
      if t.max < p.buf_.length+data.length then (.raise t.tooLarge, p.append data)
      else (.ok [], p.append data) := by
  rw [Token.parse, Sys.bind_of_ok (readUntil_open h p)]
  change (checkSize t.max t.error >>= fun _ => pure []) (p.append data) = _
  have hsize := checkSize_apply t.max t.error (p.append data)
  rw [append_buf, List.length_append] at hsize
  by_cases hbig : t.max < p.buf_.length+data.length
  · rw [if_pos hbig] at hsize ⊢
    exact Sys.bind_of_raise hsize
  · rw [if_neg hbig] at hsize ⊢
    exact Sys.bind_of_ok hsize

/- A turn takes at least one byte. -/

/-- The first delimiter of the data, if there is one. -/
theorem split_at (search : UInt8) (data : Bytes) :
    search ∉ data ∨ ∃ tok rest, search ∉ tok ∧ data = tok ++ search :: rest := by
  by_cases h : search ∈ data
  · obtain ⟨tok, rest, hdata, hfree⟩ := List.eq_append_cons_of_mem h
    exact .inr ⟨tok, rest, hfree, hdata⟩
  · exact .inl h

theorem turn_shorter {data rest : Bytes} {p q : HTTPParser} (hne : data ≠ [])
    (h : turn data p = (.ok rest, q)) : rest.length < data.length := by
  have hpos := List.length_pos_of_ne_nil hne
  cases ht : token? p.state_ with
  | some t =>
    rw [turn_token ht] at h
    rcases split_at t.search data with hopen | ⟨tok, rest', hfree, rfl⟩
    · rw [t.parse_open hopen] at h
      split at h
      · cases h
      · cases h
        exact hpos
    · rw [t.parse_found hfree] at h
      obtain ⟨_, _, -, hrest⟩ := Sys.bind_eq_ok h
      cases hrest
      rw [List.length_append, List.length_cons]
      omega
  | none =>
    rw [turn, Sys.get_bind] at h
    cases hs : p.state_ with
    | body =>
      rw [hs] at h
      cases h
      exact hpos
    | done =>
      simp only [hs] at h
      split at h
      · cases h
      · cases h
        exact hpos
    | _ =>
      rw [hs] at ht
      cases ht

theorem parseLoop_fuel (n : Nat) : ∀ (m : Nat) (data : Bytes), data.length ≤ n → data.length ≤ m →
    parseLoop m data = parseLoop n data := by
  induction n with
  | zero =>
    intro m data hn _
    rw [List.eq_nil_of_length_eq_zero (Nat.le_zero.1 hn), parseLoop, parseLoop]
  | succ n ih =>
    intro m data hn hm
    cases data with
    | nil => rw [parseLoop, parseLoop]
    | cons b data =>
      cases m with
      | zero => cases hm
      | succ m =>
        rw [parseLoop, parseLoop]
        funext p
        apply Sys.bind_congr rfl
        intro rest q hturn
        have hlt := turn_shorter (List.cons_ne_nil b data) hturn
        rw [ih m rest (by omega) (by omega)]

@[simp] theorem parse_nil (p : HTTPParser) : parse [] p = (.ok (), p) := rfl

theorem parse_turn {data : Bytes} (hne : data ≠ []) (p : HTTPParser) :
    parse data p = (turn data >>= parse) p := by
  cases data with
  | nil => exact absurd rfl hne
  | cons b data =>
    rw [parse, List.length_cons, parseLoop]
    apply Sys.bind_congr rfl
    intro rest q hturn
    have hlt := turn_shorter (List.cons_ne_nil b data) hturn
    rw [List.length_cons] at hlt
    rw [parse, parseLoop_fuel rest.length data.length rest (le_refl _) (by omega)]

/-- Taking a whole token: its bytes are in `buf_`, and its delimiter is met. -/
def takeToken (tok : Bytes) : Sys HTTPParser Unit := fun p =>
  match token? p.state_ with
  | some t => t.read (p.append tok)
  | none => (.ok (), p)

theorem takeToken_apply {p : HTTPParser} {t : Token} (ht : token? p.state_ = some t)
    (tok : Bytes) : takeToken tok p = t.read (p.append tok) := by
  rw [takeToken, ht]

section token
variable {p : HTTPParser} {t : Token} (ht : token? p.state_ = some t)
include ht

theorem parse_token {tok : Bytes} (hfree : t.search ∉ tok) (rest : Bytes) :
    parse (tok ++ t.search :: rest) p = (takeToken tok >>= fun _ => parse rest) p := by
  have hturn : turn (tok ++ t.search :: rest) p = (takeToken tok >>= fun _ => pure rest) p := by
    rw [turn_token ht, t.parse_found hfree]
    change Sys.bind _ _ _ = Sys.bind _ _ _
    rw [Sys.bind, Sys.bind, takeToken_apply ht]
  rw [parse_turn (by simp), Sys.bind_congr hturn fun _ _ _ => rfl, Sys.bind_assoc]
  rfl

theorem parse_open {data : Bytes} (hne : data ≠ []) (hopen : t.search ∉ data) :
    parse data p =
      if t.max < p.buf_.length+data.length then (.raise t.tooLarge, p.append data)
      else (.ok (), p.append data) := by
  have hturn := (turn_token ht data).trans (t.parse_open hopen p)
  rw [parse_turn hne]
  by_cases hbig : t.max < p.buf_.length+data.length
  · rw [if_pos hbig] at hturn ⊢
    exact Sys.bind_of_raise hturn
  · rw [if_neg hbig] at hturn ⊢
    exact Sys.bind_of_ok hturn

end token

@[simp] theorem feed_nil (p : HTTPParser) : feed [] p = (.ok (), p) := rfl

theorem feed_cons_nil (cs : List Bytes) : feed ([] :: cs) = feed cs := rfl

theorem feed_singleton (data : Bytes) : feed [data] = parse data := Sys.bind_pure_unit _

section token
variable {p : HTTPParser} {t : Token} (ht : token? p.state_ = some t)
include ht

theorem takeToken_append (a b : Bytes) : takeToken b (p.append a) = takeToken (a ++ b) p := by
  rw [takeToken_apply ht, takeToken_apply (p := p.append a) ht, append_append]

/- The chunks of a token are read one after the other: the bytes of earlier chunks are in
   `buf_`, so the induction is over all parsers in this state. -/

/-- A token that is complete in the chunks is taken, and what follows it is read; or a chunk
ends inside it behind the limit. -/
theorem feed_token (hbuf : p.buf_.length ≤ t.max) {tok rest : Bytes} {cs : List Bytes}
    (hfree : t.search ∉ tok) (hcs : cs.flatten = tok ++ t.search :: rest) :
    ((∃ n ∈ Chunks.cuts cs, t.max < p.buf_.length+n ∧ n ≤ tok.length) ∧
      ∃ data, feed cs p = (.raise t.tooLarge, p.append data)) ∨
    ((∀ n ∈ Chunks.cuts cs, n ≤ tok.length → p.buf_.length+n ≤ t.max) ∧
      feed cs p = (takeToken tok >>= fun _ => feed (Chunks.drop (tok.length+1) cs)) p) := by
  induction cs generalizing p tok with
  | nil => simp at hcs
  | cons c cs ih =>
    rw [List.flatten_cons] at hcs
    rcases Chunks.first_cases hfree hcs with ⟨r, rfl⟩ | ⟨hc, tok', rfl, hcs'⟩
    · -- the delimiter is in this chunk
      right
      constructor
      · intro n hn hle
        rcases Chunks.mem_cuts_cons.1 hn with rfl | ⟨m, -, rfl⟩
        · exact hbuf
        · simp only [List.length_append, List.length_cons] at hle
          omega
      · have hdrop : Chunks.drop (tok.length+1) ((tok ++ t.search :: r) :: cs) = r :: cs := by
          simp [Chunks.drop, List.drop_append]
        rw [hdrop, feed, Sys.bind_congr (parse_token ht hfree r) fun _ _ _ => rfl, Sys.bind_assoc]
        rfl
    · -- the chunk is a part of the token
      have hfree' : t.search ∉ tok' := fun h => hfree (List.mem_append_right c h)
      have hlen : (c ++ tok').length = c.length+tok'.length := List.length_append
      by_cases hbig : t.max < p.buf_.length+c.length
      · have hne : c ≠ [] := by
          rintro rfl
          exact absurd hbuf (by simpa using hbig)
        have hparse := parse_open ht hne hc
        rw [if_pos hbig] at hparse
        left
        refine ⟨⟨c.length, Chunks.mem_cuts_cons.2 (.inr ⟨0, Chunks.zero_mem_cuts cs, rfl⟩), hbig,
          by omega⟩, c, Sys.bind_of_raise hparse⟩
      · have hfeed : feed (c :: cs) p = feed cs (p.append c) := by
          by_cases hne : c = []
          · rw [hne, feed_cons_nil, append_nil]
          · have hparse := parse_open ht hne hc
            rw [if_neg hbig] at hparse
            exact Sys.bind_of_ok hparse
        have hdrop : Chunks.drop ((c ++ tok').length+1) (c :: cs) =
            Chunks.drop (tok'.length+1) cs := by
          rw [Chunks.drop, if_neg (by omega), hlen, show c.length+tok'.length+1-c.length =
            tok'.length+1 by omega]
        have hrest := ih (p := p.append c) ht (by simp; omega) hfree' hcs'
        rw [append_buf, List.length_append] at hrest
        rw [hfeed, hdrop]
        rcases hrest with ⟨⟨n, hn, hlt, hle⟩, data, hraise⟩ | ⟨hall, htake⟩
        · left
          refine ⟨⟨c.length+n, Chunks.mem_cuts_cons.2 (.inr ⟨n, hn, rfl⟩), by omega, by omega⟩,
            c ++ data, ?_⟩
          rw [hraise, append_append]
        · right
          constructor
          · intro n hn hle
            rcases Chunks.mem_cuts_cons.1 hn with rfl | ⟨m, hm, rfl⟩
            · exact hbuf
            · have := hall m hm (by omega)
              omega
          · rw [htake]
            change Sys.bind _ _ _ = Sys.bind _ _ _
            rw [Sys.bind, Sys.bind, takeToken_append ht]

/-- A token whose delimiter does not come is collected, up to its limit. -/
theorem feed_open (hbuf : p.buf_.length ≤ t.max) {cs : List Bytes} (hopen : t.search ∉ cs.flatten) :
    (t.max < p.buf_.length+cs.flatten.length ∧
      ∃ data, feed cs p = (.raise t.tooLarge, p.append data)) ∨
    (p.buf_.length+cs.flatten.length ≤ t.max ∧ feed cs p = (.ok (), p.append cs.flatten)) := by
  induction cs generalizing p with
  | nil => exact .inr ⟨by simpa using hbuf, by simp⟩
  | cons c cs ih =>
    rw [List.flatten_cons, List.mem_append, not_or] at hopen
    rw [List.flatten_cons, List.length_append]
    by_cases hne : c = []
    · have hrest := ih ht hbuf hopen.2
      simpa [hne, feed_cons_nil] using hrest
    have hparse := parse_open ht hne hopen.1
    by_cases hbig : t.max < p.buf_.length+c.length
    · rw [if_pos hbig] at hparse
      exact .inl ⟨by omega, c, Sys.bind_of_raise hparse⟩
    · rw [if_neg hbig] at hparse
      have hrest := ih (p := p.append c) ht (by simp; omega) hopen.2
      rw [append_buf, List.length_append] at hrest
      rw [feed, Sys.bind_of_ok hparse]
      rcases hrest with ⟨hlt, data, hraise⟩ | ⟨hle, hok⟩
      · exact .inl ⟨by omega, c ++ data, by rw [hraise, append_append]⟩
      · exact .inr ⟨by omega, by rw [hok, append_append]⟩

end token
end Stx.Http.HTTPParser
