import Stx.Http.HTTPParser.Bodies

/-! The values of the Content-Length lines. They are read with `std::stoul`, which takes more
than the digits of a number, and the largest number stands for a body without a length. -/
namespace Stx.Http.HTTPParser

/- Every exception of the parser is a parse error. -/

/-- A call raises errors of the parser only. -/
def Refuses {α : Type} (x : Sys HTTPParser α) : Prop :=
  ∀ p e q, x p = (.raise e, q) → e.type = .parseError

section refuses
variable {α β : Type}

theorem Refuses.bind {x : Sys HTTPParser α} {f : α → Sys HTTPParser β} (hx : Refuses x)
    (hf : ∀ a, Refuses (f a)) : Refuses (x >>= f) := by
  intro p e q h
  cases hxp : x p with
  | mk r p' =>
    cases r with
    | ok a =>
      rw [Sys.bind_of_ok hxp] at h
      exact hf a p' e q h
    | raise e' =>
      rw [Sys.bind_of_raise hxp] at h
      cases h
      exact hx p e q hxp
    | diverge =>
      rw [Sys.bind_of_diverge hxp] at h
      cases h

theorem refuses_pure (a : α) : Refuses (pure a) := fun _ _ _ h => by cases h

theorem refuses_get : Refuses Sys.get := fun _ _ _ h => by cases h

theorem refuses_modify (f : HTTPParser → HTTPParser) : Refuses (Sys.modify f) :=
  fun _ _ _ h => by cases h

theorem refuses_RAISEF (fmt : String) (values : HTTPParser → List Bytes) :
    Refuses (Sys.reads fun p => (.RAISEF .parseError fmt (values p) : Result α)) := by
  intro p e q h
  cases h
  rfl

theorem refuses_checkSize (max : Nat) (error : String) : Refuses (checkSize max error) := by
  intro p e q h
  rw [checkSize_apply] at h
  split at h
  · cases h
    rfl
  · cases h

theorem refuses_readMethod : Refuses readMethod := by
  apply (refuses_modify _).bind
  intro _
  apply refuses_get.bind
  intro p
  split
  · split
    · exact (refuses_modify _).bind fun _ => refuses_modify _
    · exact refuses_RAISEF _ _
  · exact refuses_checkSize _ _

theorem refuses_readLineEnd (event : Bytes → Event) : Refuses (readLineEnd event) := by
  apply (refuses_modify _).bind
  intro _
  apply refuses_get.bind
  intro p
  exact (refuses_modify _).bind fun _ => refuses_modify _

theorem refuses_readHeader : Refuses readHeader := by
  intro p e q h
  rw [readHeader_apply] at h
  dsimp only at h
  split at h
  · cases h
  · split at h
    · cases h
      rfl
    · split at h
      · cases h
        rfl
      · cases h

theorem refuses_read {st : ParserState} {t : Token} (ht : token? st = some t) : Refuses t.read := by
  cases st with
  | reqMethod => cases ht; exact refuses_readMethod
  | reqURI =>
    cases ht
    apply refuses_get.bind
    intro p
    exact (refuses_modify _).bind fun _ => refuses_modify _
  | reqVersion => cases ht; exact refuses_readLineEnd _
  | resVersion =>
    cases ht
    apply (refuses_modify _).bind
    intro _
    apply refuses_get.bind
    intro p
    exact (refuses_modify _).bind fun _ => refuses_modify _
  | resStatusCode =>
    cases ht
    apply refuses_get.bind
    intro p
    split
    · exact refuses_RAISEF _ _
    · exact (refuses_modify _).bind fun _ => refuses_modify _
  | resStatusName => cases ht; exact refuses_readLineEnd _
  | header => cases ht; exact refuses_readHeader
  | body => cases ht
  | done => cases ht

theorem Token.refuses_parse {t : Token} (ht : Refuses t.read) (data : Bytes) :
    Refuses (t.parse data) := by
  intro p e q h
  rcases split_at t.search data with hopen | ⟨tok, rest, hfree, rfl⟩
  · rw [t.parse_open hopen] at h
    split at h
    · cases h
      rfl
    · cases h
  · rw [t.parse_found hfree] at h
    exact ht.bind (fun _ => refuses_pure rest) _ e q h

theorem refuses_turn (data : Bytes) : Refuses (turn data) := by
  intro p e q h
  cases ht : token? p.state_ with
  | some t =>
    rw [turn_token ht] at h
    exact Token.refuses_parse (refuses_read ht) data p e q h
  | none =>
    rw [turn, Sys.get_bind] at h
    cases hs : p.state_ with
    | body =>
      rw [hs] at h
      cases h
    | done =>
      simp only [hs] at h
      split at h
      · cases h
        rfl
      · cases h
    | _ =>
      rw [hs] at ht
      cases ht

theorem refuses_parse (data : Bytes) : Refuses (parse data) := by
  have hloop : ∀ fuel data, Refuses (parseLoop fuel data) := by
    intro fuel
    induction fuel with
    | zero =>
      intro data p e q h
      cases data <;> cases h
    | succ fuel ih =>
      intro data
      cases data with
      | nil => exact refuses_pure ()
      | cons b data => exact (refuses_turn _).bind ih
  exact hloop _ data

theorem refuses_feed (cs : List Bytes) : Refuses (feed cs) := by
  induction cs with
  | nil => exact refuses_pure ()
  | cons c cs ih => exact (refuses_parse c).bind fun _ => ih

end refuses

/- What the lines say, and what they do. -/

/-- The number that a text of digits spells. -/
def decimal (val : Bytes) : Option Nat :=
  if !val.isEmpty && val.all Libc.isdigit then some (Libc.digitsVal val) else none

/-- The value of a Content-Length line. -/
def lengthValue (line : Bytes) : Option Bytes := do
  let (key, val) ← lineHeader line
  if isContentLength key then some val else none

/-- A "Connection: close" line of a response, behind which the body has no length. -/
def closes (mode : ParserMode) (line : Bytes) : Bool :=
  match lineHeader line with
  | some (key, val) => mode = .response ∧ isConnectionClose key val
  | none => false

/-- A line without a colon, or a value that `std::stoul` does not take. -/
def LineRefused (line : Bytes) : Prop :=
  lineHeader line = none ∨ ∃ val, lengthValue line = some val ∧ Libc.stoul val = none

/-- Behind a line that takes the length away there is a Content-Length line. -/
def LengthStands (mode : ParserMode) (lines : List Bytes) : Prop :=
  ∀ before line behind, lines = before ++ line :: behind → closes mode line →
    behind.filterMap lengthValue ≠ []

theorem stoul_of_decimal {val : Bytes} {n : Nat} (h : decimal val = some n) (hn : n < 2^64) :
    Libc.stoul val = some n := by
  unfold decimal at h
  split at h
  · next hval =>
    rw [Bool.and_eq_true, Bool.not_eq_true', List.isEmpty_eq_false_iff, List.all_eq_true] at hval
    cases h
    exact Libc.stoul_digits hval.1 hval.2 hn
  · cases h

theorem not_isConnectionClose {key val : Bytes} (h : isContentLength key) :
    isConnectionClose key val = false := by
  rw [isContentLength, decide_eq_true_eq] at h
  rw [isConnectionClose, decide_eq_false_iff_not]
  intro hclose
  exact absurd (h.1.symm.trans hclose.1) (by decide)

theorem lengthValue_eq {line key val : Bytes} (h : lineHeader line = some (key, val)) :
    lengthValue line = if isContentLength key then some val else none := by
  rw [lengthValue, h]
  rfl

theorem closes_eq {mode : ParserMode} {line key val : Bytes}
    (h : lineHeader line = some (key, val)) :
    closes mode line = decide (mode = .response ∧ isConnectionClose key val) := by
  rw [closes, h]

theorem lineExpected_eq_none {mode : ParserMode} {n : Nat} {line : Bytes} :
    lineExpected mode n line = none ↔ LineRefused line := by
  cases hline : lineHeader line with
  | none => simp [lineExpected, LineRefused, hline]
  | some header =>
    obtain ⟨key, val⟩ := header
    rw [lineExpected_eq hline, ← Option.not_isSome_iff_eq_none, isSome_expectedAfter]
    simp [LineRefused, lengthValue_eq hline, hline]

/-- What a line that is not refused does: it sets the length, takes it away or leaves it. -/
inductive LineCase (mode : ParserMode) (n : Nat) (line : Bytes) : Option Nat → Prop
  | refused : LineCase mode n line none
  | sets (val : Bytes) (m : Nat) (hval : lengthValue line = some val)
      (hstoul : Libc.stoul val = some m) (hopen : closes mode line = false) :
      LineCase mode n line (some m)
  | closes (hval : lengthValue line = none) (hclose : closes mode line = true) :
      LineCase mode n line (some untilEof)
  | other (hval : lengthValue line = none) (hopen : HTTPParser.closes mode line = false) :
      LineCase mode n line (some n)

theorem lineExpected_cases (mode : ParserMode) (n : Nat) (line : Bytes) :
    LineCase mode n line (lineExpected mode n line) := by
  cases hline : lineHeader line with
  | none =>
    rw [lineExpected_eq_none.2 (.inl hline)]
    exact .refused
  | some header =>
    obtain ⟨key, val⟩ := header
    have hval := lengthValue_eq hline
    have hcloses : closes mode line = decide (mode = .response ∧ isConnectionClose key val) :=
      closes_eq hline
    rw [lineExpected_eq hline, expectedAfter]
    by_cases hlen : isContentLength key = true
    · rw [if_pos hlen] at hval
      rw [not_isConnectionClose hlen] at hcloses ⊢
      cases hstoul : Libc.stoul val with
      | none => simpa [hlen, hstoul] using LineCase.refused
      | some m =>
        have hopen : closes mode line = false := by simpa using hcloses
        simpa [hlen, hstoul] using LineCase.sets val m hval hstoul hopen
    · rw [if_neg hlen] at hval
      by_cases hclose : mode = .response ∧ isConnectionClose key val = true
      · simpa [hlen, hclose] using LineCase.closes hval (by simpa [hclose] using hcloses)
      · simpa [hlen, hclose] using LineCase.other hval (by simpa [hclose] using hcloses)

section lines
variable {mode : ParserMode} {lines : List Bytes} {e m n : Nat}

theorem foldlM_refused :
    lines.foldlM (lineExpected mode) e = none ↔ ∃ line ∈ lines, LineRefused line := by
  induction lines generalizing e with
  | nil => simp
  | cons line lines ih =>
    have hline : lineExpected mode e line = none ↔ LineRefused line := lineExpected_eq_none
    rw [List.foldlM_cons, List.exists_mem_cons_iff, ← hline,
      ← ih (e := (lineExpected mode e line).getD e)]
    cases lineExpected mode e line <;> simp

/-- Behind a line that takes the length away, only a Content-Length line sets another one. -/
theorem foldlM_closed (h : lines.foldlM (lineExpected mode) untilEof = some m)
    (hnone : lines.filterMap lengthValue = []) : m = untilEof := by
  induction lines with
  | nil => cases h; rfl
  | cons line lines ih =>
    rw [List.foldlM_cons] at h
    have hcase := lineExpected_cases mode untilEof line
    generalize lineExpected mode untilEof line = r at hcase h
    cases hcase with
    | refused => cases h
    | sets val k hval => simp [hval] at hnone
    | closes hval => exact ih h (by simpa [hval] using hnone)
    | other hval => exact ih h (by simpa [hval] using hnone)

theorem LengthStands.tail {line : Bytes} (h : LengthStands mode (line :: lines)) :
    LengthStands mode lines := by
  intro before l behind hlines
  exact h (line :: before) l behind (by rw [hlines, List.cons_append])

/-- Values that all say the same are what is expected behind the lines. -/
theorem foldlM_lengths (h : lines.foldlM (lineExpected mode) e = some m)
    (hval : ∀ val ∈ lines.filterMap lengthValue, Libc.stoul val = some n)
    (hstands : LengthStands mode lines) (he : e = n ∨ lines.filterMap lengthValue ≠ []) :
    m = n := by
  induction lines generalizing e with
  | nil =>
    cases h
    simpa using he
  | cons line lines ih =>
    rw [List.foldlM_cons] at h
    have hcase := lineExpected_cases mode e line
    generalize lineExpected mode e line = r at hcase h
    cases hcase with
    | refused => cases h
    | sets val k hline hstoul =>
      rw [List.filterMap_cons_some hline, List.forall_mem_cons] at hval
      have hk : k = n := Option.some_inj.1 (hstoul.symm.trans hval.1)
      exact ih h hval.2 hstands.tail (.inl hk)
    | closes hline hclose =>
      rw [List.filterMap_cons_none hline] at hval
      exact ih h hval hstands.tail (.inr (hstands [] line lines rfl hclose))
    | other hline =>
      rw [List.filterMap_cons_none hline] at hval he
      exact ih h hval hstands.tail he

/-- A length other than that for no length stands. -/
theorem lengthStands_of_foldlM (h : lines.foldlM (lineExpected mode) e = some m)
    (hm : m ≠ untilEof) : LengthStands mode lines := by
  rintro before line behind rfl hclose hnone
  rw [List.foldlM_append] at h
  obtain ⟨k, -, h⟩ := Option.bind_eq_some_iff.1 h
  rw [List.foldlM_cons] at h
  have hcase := lineExpected_cases mode k line
  generalize lineExpected mode k line = r at hcase h
  cases hcase with
  | refused => cases h
  | sets val j hval hstoul hopen => rw [hopen] at hclose; cases hclose
  | closes hval => exact hm (foldlM_closed h hnone)
  | other hval hopen => rw [hopen] at hclose; cases hclose

/-- Only in a response can a line take the length away. -/
theorem lengthStands_request (lines : List Bytes) : LengthStands .request lines := by
  intro before line behind _ hclose
  unfold closes at hclose
  split at hclose
  · simp at hclose
  · cases hclose

end lines

namespace HeaderSection

/-- The values of the Content-Length lines, in order. -/
def contentLengths (h : HeaderSection) : List Bytes := h.lines.filterMap lengthValue

/-- The start line or a header line is refused. -/
def Malformed (h : HeaderSection) (mode : ParserMode) : Prop :=
  ¬h.StartValid mode ∨ ∃ line ∈ h.lines, LineRefused line

/-- Calls that read the section and what follows it raise a parse error, or for each of the
values the parser expects the number that it spells in digits. That is never the number that
stands for no length. -/
def StrictLength (mode : ParserMode) (registered : Callback → Bool) (h : HeaderSection) : Prop :=
  ∀ (cs : List Bytes) (rest : Bytes), cs.flatten = h.bytes ++ rest → ∀ val ∈ h.contentLengths,
    (∃ e, (feed cs (new mode registered)).1 = .raise e ∧ e.type = .parseError) ∨
    ∃ n < untilEof, decimal val = some n ∧
      (feed cs (new mode registered)).2.body_bytes_expected_ = n

variable {h : HeaderSection} {mode : ParserMode} {registered : Callback → Bool}
  (hm : mode = .request → registered .method = true)
include hm

/-- A section is refused, or the parser expects what its lines leave. -/
theorem feed_refused_or_expected {cs : List Bytes} {rest : Bytes}
    (hcs : cs.flatten = h.bytes ++ rest) :
    (∃ e, (feed cs (new mode registered)).1 = .raise e ∧ e.type = .parseError) ∨
    h.StartValid mode ∧
      h.expected mode = some (feed cs (new mode registered)).2.body_bytes_expected_ := by
  have hrefused : ∀ {e q}, feed cs (new mode registered) = (.raise e, q) →
      ∃ e, (feed cs (new mode registered)).1 = .raise e ∧ e.type = .parseError := by
    intro e q hfeed
    exact ⟨e, by rw [hfeed], refuses_feed cs _ e q hfeed⟩
  have hready : Ready (new mode registered) (initial mode) := .new hm
  rw [← h.spell_tokens mode] at hcs
  rcases feed_tokens hready (h.spelled_tokens mode) hcs with ⟨-, e, q, hfeed, -⟩ | ⟨-, hfeed⟩
  · exact .inl (hrefused hfeed)
  rcases h.take_cases mode registered hm with ⟨hstart, q, hq, -, hbody, hexp, -⟩ | ⟨-, e, q, hq⟩
  · rw [Sys.bind_of_ok hq] at hfeed
    rcases feed_behind hbody.behind _ with ⟨r, hr, hread⟩ | ⟨-, r, data, hr, -⟩
    · rw [hr] at hfeed
      exact .inr ⟨hstart, by rw [hfeed, hread.expected_eq, hexp]⟩
    · exact .inl (hrefused (hfeed.trans hr))
  · rw [Sys.bind_of_raise hq] at hfeed
    exact .inl (hrefused hfeed)

/-- A section that is in order is read to its end. -/
theorem feed_whole {m : Nat} (hstart : h.StartValid mode) (hexp : h.expected mode = some m) :
    ∃ q, feed [h.bytes] (new mode registered) = (.ok (), q) ∧ q.body_bytes_expected_ = m := by
  have hready : Ready (new mode registered) (initial mode) := .new hm
  have hparse := parse_tokens hready (h.spelled_tokens mode) []
  rw [List.append_nil, h.spell_tokens] at hparse
  rcases h.take_cases mode registered hm with ⟨-, q, hq, -, -, hexp', -⟩ | ⟨hbad, -⟩
  · refine ⟨q, ?_, Option.some_inj.1 (hexp'.symm.trans hexp)⟩
    rw [feed_singleton, hparse, Sys.bind_of_ok hq, ← feed_singleton]
    exact feed_of_flatten_nil rfl q
  · rcases hbad with hbad | hbad
    · exact absurd hstart hbad
    · cases hbad.symm.trans hexp

/-- The length of the body is read strictly if and only if the section is refused, has no
Content-Length line, or has such lines that all spell the same number in digits, and it stands. -/
theorem strictLength_iff : h.StrictLength mode registered ↔
    h.Malformed mode ∨ h.contentLengths = [] ∨
      ∃ n < untilEof, (∀ val ∈ h.contentLengths, decimal val = some n) ∧
        LengthStands mode h.lines := by
  constructor
  · intro hstrict
    by_cases hbad : h.Malformed mode
    · exact .inl hbad
    right
    have hlines : h.expected mode = none ↔ ∃ line ∈ h.lines, LineRefused line := foldlM_refused
    rw [Malformed, not_or, not_not, ← hlines] at hbad
    obtain ⟨m, hexp⟩ := Option.ne_none_iff_exists'.1 hbad.2
    obtain ⟨q, hfeed, hq⟩ := feed_whole hm hbad.1 hexp
    have hvals : ∀ val ∈ h.contentLengths, ∃ n < untilEof, decimal val = some n ∧ m = n := by
      intro val hval
      have hcase := hstrict [h.bytes] [] (by simp) val hval
      rw [hfeed, hq] at hcase
      rcases hcase with ⟨e, he, -⟩ | hcase
      · cases he
      · exact hcase
    cases hlengths : h.contentLengths with
    | nil => exact .inl rfl
    | cons val vals =>
      rw [hlengths] at hvals
      obtain ⟨n, hn, -, rfl⟩ := hvals val List.mem_cons_self
      refine .inr ⟨m, hn, ?_, lengthStands_of_foldlM hexp (Nat.ne_of_lt hn)⟩
      intro v hv
      obtain ⟨k, -, hk, rfl⟩ := hvals v hv
      exact hk
  · intro hcond cs rest hcs val hval
    rcases feed_refused_or_expected hm hcs with hraise | ⟨hstart, hexp⟩
    · exact .inl hraise
    right
    rcases hcond with hbad | hnone | ⟨n, hn, hvals, hstands⟩
    · rcases hbad with hbad | hbad
      · exact absurd hstart hbad
      · cases (foldlM_refused.2 hbad).symm.trans hexp
    · rw [hnone] at hval
      cases hval
    · refine ⟨n, hn, hvals val hval, ?_⟩
      refine foldlM_lengths hexp ?_ hstands (.inr (List.ne_nil_of_mem hval))
      exact fun v hv => stoul_of_decimal (hvals v hv) (hn.trans untilEof_lt)

end HeaderSection

/-- The section with its length of three is read strictly. -/
theorem sampleSection_strictLength : sampleSection.StrictLength .request fun _ => true := by
  refine (HeaderSection.strictLength_iff fun _ => rfl).2 (.inr (.inr ?_))
  refine ⟨3, by decide, ?_, lengthStands_request _⟩
  have hvals : sampleSection.contentLengths = [lit "3"] := by decide
  rw [hvals, List.forall_mem_singleton]
  decide +kernel

/-- "POST /x HTTP/1.1" with a length of minus one. -/
def minusSection : HeaderSection :=
  { sampleSection with lines := [lit "Content-Length: -1\r"], lines_free := by decide }

/-- Minus one is the number that stands for no length. -/
theorem minusSection_not_strictLength :
    (feed [minusSection.bytes] (new .request fun _ => true)).2.body_bytes_expected_ = untilEof ∧
    ¬minusSection.StrictLength .request fun _ => true := by
  have hok : (feed [minusSection.bytes] (new .request fun _ => true)).1 = .ok () := by
    decide +kernel
  refine ⟨by decide +kernel, fun hstrict => ?_⟩
  have hval : lit "-1" ∈ minusSection.contentLengths := by decide
  rcases hstrict [minusSection.bytes] [] (by simp) _ hval with ⟨e, he, -⟩ | ⟨n, -, hn, -⟩
  · cases hok.symm.trans he
  · have hnone : decimal (lit "-1") = none := by decide
    cases hnone.symm.trans hn

end Stx.Http.HTTPParser
