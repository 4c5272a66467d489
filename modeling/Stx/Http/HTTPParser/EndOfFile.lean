import Stx.Http.HTTPParser.Bodies

/-! The end of the file. `eof()` compares the two counters of the body in every state but the
last, also before the end of the header section, where they are usually both zero. -/
namespace Stx.Http.HTTPParser

/-- The length of the body in the last `Content-Length` line. -/
def HeaderSection.announced (h : HeaderSection) : Option Nat :=
  h.lines.foldl (fun n line =>
    match lineHeader line with
    | some (key, val) => if isContentLength key then Libc.stoul val else n
    | none => n) none

/-- The header section was read to its end and, if it announces a length, so many bytes of what
follows were delivered. -/
def Complete (s : Bytes) (p : HTTPParser) : Prop :=
  .headersComplete ∈ p.calls ∧
  ∀ (h : HeaderSection) (rest : Bytes) (n : Nat), s = h.bytes ++ rest → h.announced = some n →
    n ≤ rest.length ∧ rest.take n <+: bodyOf p.calls

/-- The stream has a whole header section and, where the body is read until the end of the file
although a length is announced, as many bytes behind it; or it ends among the header lines, when
the counters tell that a body is missing. -/
def EofSafe (mode : ParserMode) (s : Bytes) : Prop :=
  ((∃ (h : HeaderSection) (rest : Bytes), s = h.bytes ++ rest) ∧
    ∀ (h : HeaderSection) (rest : Bytes) (n : Nat), s = h.bytes ++ rest → h.announced = some n →
      h.expected mode = some untilEof → n ≤ rest.length) ∨
  ∃ (h : HeaderSection) (tail : Bytes) (n : Nat), s = h.openBytes ++ tail ∧ 10 ∉ tail ∧
    h.expected mode = some n ∧ n ≠ 0 ∧ n ≠ untilEof

/- The tokens of a stream, as parts of a header section. -/

theorem lines_cases {toks : List Bytes} (hs : Spelled .header toks) :
    (∀ line ∈ toks, 10 ∉ line ∧ stripTrailingBytes line 13 ≠ []) ∨
    ∃ lines blank, toks = lines ++ [blank] ∧
      (∀ line ∈ lines, 10 ∉ line ∧ stripTrailingBytes line 13 ≠ []) ∧
      stripTrailingBytes blank 13 = [] := by
  induction toks with
  | nil => exact .inl (by simp)
  | cons line toks ih =>
    obtain ⟨-, hfree, hs'⟩ := hs
    by_cases hblank : stripTrailingBytes line 13 = []
    · cases toks with
      | nil => exact .inr ⟨[], line, rfl, by simp, hblank⟩
      | cons tok toks =>
        rw [next, if_pos hblank] at hs'
        cases hs'.1
    · rw [next_header hblank] at hs'
      have hline : 10 ∉ line ∧ stripTrailingBytes line 13 ≠ [] := ⟨hfree, hblank⟩
      rcases ih hs' with hall | ⟨lines, blank, rfl, hall, hend⟩
      · exact .inl (List.forall_mem_cons.2 ⟨hline, hall⟩)
      · exact .inr ⟨line :: lines, blank, rfl, List.forall_mem_cons.2 ⟨hline, hall⟩, hend⟩

theorem tokens_cases {mode : ParserMode} {toks : List Bytes} (hs : Spelled (initial mode) toks) :
    (∃ h : HeaderSection, toks = h.tokens) ∨ (∃ h : HeaderSection, toks = h.openTokens) ∨
    nexts (initial mode) toks ≠ .header ∧ nexts (initial mode) toks ≠ .body := by
  match toks, hs with
  -- a part of the start line
  | [], _ => cases mode <;> exact .inr (.inr ⟨by decide, by decide⟩)
  | [_], _ => cases mode <;> exact .inr (.inr ⟨by simp [nexts, next, initial], by simp [nexts, next, initial]⟩)
  | [_, _], _ => cases mode <;> exact .inr (.inr ⟨by simp [nexts, next, initial], by simp [nexts, next, initial]⟩)
  -- a part of a header section behind it, or a whole one
  | a :: b :: c :: lines, hs =>
    have hfree : 32 ∉ a ∧ 32 ∉ b ∧ 10 ∉ c ∧ Spelled .header lines := by
      cases mode <;> exact ⟨hs.2.1, hs.2.2.2.1, hs.2.2.2.2.2.1, hs.2.2.2.2.2.2⟩
    obtain ⟨ha, hb, hc, hlines⟩ := hfree
    rcases lines_cases hlines with hall | ⟨lines, blank, rfl, hall, hend⟩
    · exact .inr (.inl ⟨⟨a, b, c, lines, [], ha, hb, hc, hall, rfl⟩, rfl⟩)
    · exact .inl ⟨⟨a, b, c, lines, blank, ha, hb, hc, hall, hend⟩, rfl⟩

theorem openLines_spec {lines : List Bytes}
    (hlines : ∀ line ∈ lines, 10 ∉ line ∧ stripTrailingBytes line 13 ≠ []) :
    spell .header lines = lines.flatMap (· ++ [10]) ∧ Spelled .header lines ∧
      nexts .header lines = .header := by
  induction lines with
  | nil => exact ⟨rfl, trivial, rfl⟩
  | cons line lines ih =>
    obtain ⟨hline, hrest⟩ := List.forall_mem_cons.1 hlines
    obtain ⟨hspell, hspelled, hnexts⟩ := ih hrest
    refine ⟨?_, ⟨rfl, hline.1, ?_⟩, ?_⟩
    · rw [spell, next_header hline.2, hspell]
      simp [delimiter, token?, headerToken]
    · rw [next_header hline.2]
      exact hspelled
    · rw [nexts, List.foldl_cons, next_header hline.2]
      exact hnexts

namespace HeaderSection
variable (h : HeaderSection) (mode : ParserMode)

theorem openTokens_spec : spell (initial mode) h.openTokens = h.openBytes ∧
    Spelled (initial mode) h.openTokens ∧ nexts (initial mode) h.openTokens = .header := by
  obtain ⟨hspell, hspelled, hnexts⟩ := openLines_spec h.lines_free
  refine ⟨?_, ?_, ?_⟩
  · cases mode <;> simp only [initial, openTokens, spell, next, hspell] <;> rfl
  · cases mode
    · exact ⟨rfl, h.first_free, rfl, h.second_free, rfl, h.third_free, hspelled⟩
    · exact ⟨rfl, h.first_free, rfl, h.second_free, rfl, h.third_free, hspelled⟩
  · cases mode <;> exact hnexts

theorem expected_of_announced {m n : Nat} (hexp : h.expected mode = some m)
    (hann : h.announced = some n) : m = n ∨ m = untilEof := by
  unfold expected at hexp
  unfold announced at hann
  -- the two folds go on together; what is announced so far is what is expected so far
  suffices hfold : ∀ (lines : List Bytes) (e : Nat) (a : Option Nat),
      (∀ k, a = some k → e = k ∨ e = untilEof) →
      lines.foldlM (lineExpected mode) e = some m →
      lines.foldl (fun n line =>
        match lineHeader line with
        | some (key, val) => if isContentLength key then Libc.stoul val else n
        | none => n) a = some n → m = n ∨ m = untilEof from
    hfold h.lines _ none (fun _ h => by cases h) hexp hann
  intro lines
  induction lines with
  | nil =>
    intro e a hinv hfold hlast
    cases hfold
    exact hinv n hlast
  | cons line lines ih =>
    intro e a hinv hfold hlast
    rw [List.foldlM_cons] at hfold
    obtain ⟨e', hline, hfold'⟩ := Option.bind_eq_some_iff.1 hfold
    rw [List.foldl_cons] at hlast
    refine ih e' _ ?_ hfold' hlast
    intro k hk
    cases hheader : lineHeader line with
    | none => rw [lineExpected, hheader] at hline; cases hline
    | some header =>
      obtain ⟨key, val⟩ := header
      rw [lineExpected_eq hheader] at hline
      obtain ⟨i, hi, rfl⟩ := Option.map_eq_some_iff.1 hline
      rw [hheader] at hk
      simp only at hk
      split
      · exact .inr rfl
      · by_cases hlen : isContentLength key = true
        · simp only [hlen, if_true, and_self] at hi hk
          cases hi.symm.trans hk
          exact .inl rfl
        · simp [hlen] at hi hk
          cases hi
          exact hinv k hk

end HeaderSection

section run
variable {mode : ParserMode} {registered : Callback → Bool}
  (hmethod : mode = .request → registered .method = true) {cs : List Bytes} {p : HTTPParser}
  (hfeed : feed cs (new mode registered) = (.ok (), p))
include hmethod hfeed

theorem eof_section {h : HeaderSection} {rest : Bytes} (hcs : cs.flatten = h.bytes ++ rest)
    (hcomplete : registered .headersComplete = true) (hbody : registered .bodyChunk = true) :
    ∃ n, h.expected mode = some n ∧ .headersComplete ∈ p.calls ∧ bodyOf p.calls = rest ∧
      ((eof p).1 = .ok () → n = untilEof ∨ n ≤ rest.length) ∧
      (n = untilEof → (eof p).1 = .ok ()) := by
  obtain ⟨-, q, hkept, hready, hexp, hcalls, hread⟩ := feed_section hmethod hfeed hcs
  have hzero : q.body_bytes_read_ = 0 := hkept.read_eq
  have hreg : q.registered .bodyChunk = true := by rw [hkept.registered_eq]; exact hbody
  refine ⟨_, hexp, hread.calls_prefix.subset (hcalls hcomplete), ?_, ?_, ?_⟩
  · rw [hread.body_eq hreg, hkept.body_eq]
    rfl
  · rw [eof_ok_iff, hread.expected_eq]
    have hcount := hread.read_eq
    rw [hzero, Nat.zero_add, Nat.mod_eq_of_lt (hread.read_lt (by rw [hzero]; decide))] at hcount
    rintro (hdone | hend | hle)
    · rcases hread.done hdone with hq | ⟨m, hm, heq⟩
      · have hstate := hready.state_eq
        by_cases hn : q.body_bytes_expected_ = 0
        · exact .inr (by omega)
        · rw [if_neg fun h => hn h.2, hq] at hstate
          cases hstate
      · rw [hzero, Nat.zero_add] at heq
        have := Nat.mod_le m (2^64)
        exact .inr (by omega)
    · exact .inl hend
    · have := Nat.mod_le rest.length (2^64)
      exact .inr (by omega)
  · intro hend
    rw [eof_ok_iff, hread.expected_eq]
    exact .inr (.inl hend)

/-- A stream that ends before the empty line: nothing of the body was counted, and the header
section was not reported as complete. -/
theorem feed_incomplete {toks : List Bytes} {tail : Bytes} {t : Token}
    (hs : Spelled (initial mode) toks) (hcs : cs.flatten = spell (initial mode) toks ++ tail)
    (ht : token? (nexts (initial mode) toks) = some t) (hopen : t.search ∉ tail) :
    ∃ q, takeTokens toks (new mode registered) = (.ok (), q) ∧ .headersComplete ∉ p.calls ∧
      ((eof p).1 = .ok () ↔ q.body_bytes_expected_ = untilEof ∨ q.body_bytes_expected_ = 0) ∧
      (nexts (initial mode) toks ≠ .header →
        q.body_bytes_expected_ = 0 ∨ q.body_bytes_expected_ = untilEof) := by
  have hready : Ready (new mode registered) (initial mode) := .new hmethod
  obtain ⟨q, ds, hq, hkept, hready', hds, hrest⟩ := feed_ok hmethod hfeed hs hcs
  have hearly := hready.takeTokens_early hs hq
  have hbody := token?_ne_body ht
  have hbuf : q.buf_.length = 0 := by rw [hready'.buf_eq]; rfl
  rcases feed_open (hready'.token_eq ht) (by omega) (hds.symm ▸ hopen) with
    ⟨-, data, hraise⟩ | ⟨-, hok⟩
  · cases hrest.symm.trans hraise
  cases hrest.symm.trans hok
  refine ⟨q, hq, ?_, ?_, ?_⟩
  · intro hmem
    have hnone : Event.headersComplete ∈ (new mode registered).calls := hearly.complete hbody hmem
    cases hnone
  · have hzero : (q.append ds.flatten).body_bytes_read_ = 0 := hkept.read_eq
    have hexp : (q.append ds.flatten).body_bytes_expected_ = q.body_bytes_expected_ := rfl
    have hstate : (q.append ds.flatten).state_ ≠ .done := by
      rw [append_state, hready'.state_of_token ht]
      intro hdone
      rw [hdone] at ht
      cases ht
    rw [eof_ok_iff, hzero, hexp, Nat.le_zero]
    simp only [hstate, false_or]
  · exact fun hne => hearly.start hne hbody

/-- After `parse()` calls without an error, `eof()` lets only complete messages pass if and only
if the header section is whole (with enough bytes behind it, where they are not counted) or the
counters tell that it is not. -/
theorem eof_complete_iff (hcomplete : registered .headersComplete = true)
    (hbody : registered .bodyChunk = true) :
    ((eof p).1 = .ok () → Complete cs.flatten p) ↔ EofSafe mode cs.flatten := by
  constructor
  · intro hsafe
    obtain ⟨toks, tail, hcs, hs, htail⟩ := exists_spelled cs.flatten (initial mode)
    rcases tokens_cases hs with ⟨h, rfl⟩ | ⟨h, rfl⟩ | ⟨hheader, hend⟩
    · -- a whole header section
      rw [h.spell_tokens] at hcs
      refine .inl ⟨⟨h, tail, hcs⟩, ?_⟩
      intro h' rest n hcs' hann hexp
      obtain ⟨m, hm, -, -, -, heof⟩ := eof_section hmethod hfeed hcs' hcomplete hbody
      cases hexp.symm.trans hm
      exact ((hsafe (heof rfl)).2 h' rest n hcs' hann).1
    · -- some header lines
      obtain ⟨hspell, -, hnexts⟩ := h.openTokens_spec mode
      have ht : token? (nexts (initial mode) h.openTokens) = some headerToken := by
        rw [hnexts]
        rfl
      have hopen := htail headerToken ht
      obtain ⟨q, hq, hnone, heof, -⟩ := feed_incomplete hmethod hfeed hs hcs ht hopen
      rcases h.takeOpen_cases mode registered hmethod with ⟨-, q', hq', -, -, hexp⟩ | ⟨-, e, q', hq'⟩
      · cases hq.symm.trans hq'
        rw [hspell] at hcs
        refine .inr ⟨h, tail, _, hcs, hopen, hexp, ?_, ?_⟩
        · exact fun hzero => hnone (hsafe (heof.2 (.inr hzero))).1
        · exact fun hend => hnone (hsafe (heof.2 (.inl hend))).1
      · cases hq.symm.trans hq'
    · -- a part of the start line
      cases ht : token? (nexts (initial mode) toks) with
      | none =>
        have hne : initial mode ≠ .done := by cases mode <;> decide
        exact absurd (eq_body_of_token? (nexts_ne_done hne) ht) hend
      | some t =>
        obtain ⟨q, -, hnone, heof, hstart⟩ :=
          feed_incomplete hmethod hfeed hs hcs ht (htail t ht)
        exact absurd (hsafe (heof.2 (hstart hheader).symm)).1 hnone
  · rintro (⟨⟨h, rest, hcs⟩, henough⟩ | ⟨h, tail, n, hcs, hopen, hexp, hzero, hend⟩) heof
    · obtain ⟨m, -, hmem, -, -, -⟩ := eof_section hmethod hfeed hcs hcomplete hbody
      refine ⟨hmem, ?_⟩
      intro h' rest' n hcs' hann
      obtain ⟨m, hm, -, hdelivered, hcount, -⟩ :=
        eof_section hmethod hfeed hcs' hcomplete hbody
      refine ⟨?_, hdelivered ▸ List.take_prefix n rest'⟩
      by_cases huntil : m = untilEof
      · exact henough h' rest' n hcs' hann (huntil ▸ hm)
      · rcases h'.expected_of_announced mode hm hann with rfl | huntil'
        · exact (hcount heof).resolve_left huntil
        · exact absurd huntil' huntil
    · obtain ⟨hspell, hs, hnexts⟩ := h.openTokens_spec mode
      have ht : token? (nexts (initial mode) h.openTokens) = some headerToken := by
        rw [hnexts]
        rfl
      rw [← hspell] at hcs
      obtain ⟨q, hq, -, heof', -⟩ := feed_incomplete hmethod hfeed hs hcs ht hopen
      rcases h.takeOpen_cases mode registered hmethod with ⟨-, q', hq', -, -, hexp'⟩ | ⟨-, e, q', hq'⟩
      · cases hq.symm.trans hq'
        cases hexp.symm.trans hexp'
        rcases heof'.1 heof with h | h
        · exact absurd h hend
        · exact absurd h hzero
      · cases hq.symm.trans hq'

end run

/-- A method without anything behind it passes `eof()`. -/
theorem method_passes_eof :
    (feed [lit "GET"] (new .request fun _ => true)).1 = .ok () ∧
    (eof (feed [lit "GET"] (new .request fun _ => true)).2).1 = .ok () ∧
    ¬Complete (lit "GET") (feed [lit "GET"] (new .request fun _ => true)).2 := by
  refine ⟨by decide +kernel, by decide +kernel, ?_⟩
  intro hcomplete
  have hnone : (feed [lit "GET"] (new .request fun _ => true)).2.calls = [] := by decide +kernel
  have hmem := hcomplete.1
  rw [hnone] at hmem
  cases hmem

theorem eofSafe_sampleSection : EofSafe .request [sampleSection.bytes].flatten := by
  have hmethod : ParserMode.request = .request → (fun _ => true : Callback → Bool) .method = true :=
    fun _ => rfl
  have hok : (feed [sampleSection.bytes] (new .request fun _ => true)).1 = .ok () := by
    decide +kernel
  have heof : (eof (feed [sampleSection.bytes] (new .request fun _ => true)).2).1 ≠ .ok () := by
    decide +kernel
  generalize hr : feed [sampleSection.bytes] (new .request fun _ => true) = r at hok heof
  cases r with
  | mk result p =>
    cases hok
    exact (eof_complete_iff hmethod hr rfl rfl).1 fun h => absurd h heof

end Stx.Http.HTTPParser
