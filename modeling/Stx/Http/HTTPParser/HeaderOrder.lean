import Stx.Http.HTTPParser.Limits

/-! The order of the header lines of a response. Each line that concerns the length of the body
overwrites what the lines before it have set. -/
namespace Stx.Http.HTTPParser

/-- What a header line of a response sets the length of the body to. -/
def lineWrites (line : Bytes) : Option Nat := do
  let (key, val) ← lineHeader line
  if isConnectionClose key val then some untilEof
  else if isContentLength key then Libc.stoul val
  else none

/-- The section with its header lines in another order. -/
def HeaderSection.Reordered (h h' : HeaderSection) : Prop :=
  h'.first = h.first ∧ h'.second = h.second ∧ h'.third = h.third ∧ h'.blank = h.blank ∧
    h'.lines.Perm h.lines

/-- The order of the header lines decides neither whether a response is accepted nor, where it
is, which length is expected and which bytes are delivered. -/
def OrderFree (registered : Callback → Bool) (h : HeaderSection) : Prop :=
  ∀ h', h.Reordered h' → ∀ rest : Bytes,
    ((parse (h.bytes ++ rest) (new .response registered)).1 = .ok () ↔
      (parse (h'.bytes ++ rest) (new .response registered)).1 = .ok ()) ∧
    ∀ (cs cs' : List Bytes) (p p' : HTTPParser), cs.flatten = h.bytes ++ rest →
      cs'.flatten = h'.bytes ++ rest → feed cs (new .response registered) = (.ok (), p) →
      feed cs' (new .response registered) = (.ok (), p') →
        p.body_bytes_expected_ = p'.body_bytes_expected_ ∧ bodyOf p.calls = bodyOf p'.calls

/-- The lines that set the length of the body all set the same. -/
def HeaderSection.SameLength (h : HeaderSection) : Prop :=
  ∀ line ∈ h.lines, ∀ line' ∈ h.lines, ∀ m n, lineWrites line = some m →
    lineWrites line' = some n → m = n

/-- The length that is set behind some lines, none of which is refused. -/
def lastWritten (e : Nat) (lines : List Bytes) : Nat :=
  lines.foldl (fun n line => (lineWrites line).getD n) e

/-- A line is refused, or it sets what it writes. -/
theorem lineExpected_response (n : Nat) (line : Bytes) :
    lineExpected .response n line =
      (lineExpected .response 0 line).map fun _ => (lineWrites line).getD n := by
  cases hline : lineHeader line with
  | none => simp [lineExpected, hline]
  | some header =>
    obtain ⟨key, val⟩ := header
    have hwrites : lineWrites line =
        if isConnectionClose key val then some untilEof
        else if isContentLength key then Libc.stoul val
        else none := by
      rw [lineWrites, hline]
      rfl
    rw [lineExpected_eq hline, lineExpected_eq hline, expectedAfter, expectedAfter, hwrites]
    by_cases hclose : isConnectionClose key val = true
    · by_cases hlen : isContentLength key = true
      · cases Libc.stoul val <;> simp [hclose, hlen]
      · simp [hclose, hlen]
    · by_cases hlen : isContentLength key = true
      · cases Libc.stoul val <;> simp [hclose, hlen]
      · simp [hclose, hlen]

theorem foldlM_response {lines : List Bytes} {e m : Nat} :
    lines.foldlM (lineExpected .response) e = some m ↔
      (∀ line ∈ lines, (lineExpected .response 0 line).isSome) ∧ lastWritten e lines = m := by
  induction lines generalizing e with
  | nil => simp [lastWritten]
  | cons line lines ih =>
    rw [List.foldlM_cons, lineExpected_response]
    cases hline : lineExpected .response 0 line with
    | none => simp [hline]
    | some k =>
      simp only [Option.map_some, Option.bind_eq_bind, Option.bind_some, ih]
      simp [hline, lastWritten]

/-- Nothing was written, or some line wrote what is set at the end. -/
theorem lastWritten_cases (e : Nat) (lines : List Bytes) :
    (∀ line ∈ lines, lineWrites line = none) ∧ lastWritten e lines = e ∨
    ∃ line ∈ lines, lineWrites line = some (lastWritten e lines) := by
  induction lines generalizing e with
  | nil => exact .inl ⟨by simp, rfl⟩
  | cons line lines ih =>
    have hstep : lastWritten e (line :: lines) = lastWritten ((lineWrites line).getD e) lines := rfl
    rw [hstep]
    rcases ih ((lineWrites line).getD e) with ⟨hnone, hlast⟩ | ⟨l, hl, hlast⟩
    · cases hline : lineWrites line with
      | none =>
        rw [hline] at hlast
        exact .inl ⟨List.forall_mem_cons.2 ⟨hline, hnone⟩, hlast⟩
      | some k =>
        rw [hline] at hlast
        exact .inr ⟨line, List.mem_cons_self, by rw [hlast, hline]; rfl⟩
    · exact .inr ⟨l, List.mem_cons_of_mem line hl, hlast⟩

theorem lastWritten_append (e : Nat) (lines : List Bytes) {line : Bytes} {n : Nat}
    (h : lineWrites line = some n) : lastWritten e (lines ++ [line]) = n := by
  simp [lastWritten, h]

/-- Lines that all set the same can be exchanged. -/
theorem lastWritten_perm {e : Nat} {lines lines' : List Bytes} (hperm : lines'.Perm lines)
    (hsame : ∀ line ∈ lines, ∀ line' ∈ lines, ∀ m n, lineWrites line = some m →
      lineWrites line' = some n → m = n) : lastWritten e lines' = lastWritten e lines := by
  rcases lastWritten_cases e lines with ⟨hnone, hlast⟩ | ⟨line, hline, hlast⟩
  · rcases lastWritten_cases e lines' with ⟨-, hlast'⟩ | ⟨line', hline', hlast'⟩
    · rw [hlast, hlast']
    · rw [hnone line' (hperm.mem_iff.1 hline')] at hlast'
      cases hlast'
  · rcases lastWritten_cases e lines' with ⟨hnone, -⟩ | ⟨line', hline', hlast'⟩
    · rw [hnone line (hperm.mem_iff.2 hline)] at hlast
      cases hlast
    · exact hsame line' (hperm.mem_iff.1 hline') line hline _ _ hlast' hlast

namespace HeaderSection
variable {h h' : HeaderSection}

/-- No line is refused. -/
def LinesValid (h : HeaderSection) : Prop :=
  ∀ line ∈ h.lines, (lineExpected .response 0 line).isSome

theorem expected_response {m : Nat} : h.expected .response = some m ↔
    h.LinesValid ∧ lastWritten (h.startExpected .response) h.lines = m := foldlM_response

theorem Reordered.startExpected_eq (hr : h.Reordered h') :
    h'.startExpected .response = h.startExpected .response := by
  unfold startExpected
  rw [hr.1]

theorem Reordered.startValid_iff (hr : h.Reordered h') :
    h'.StartValid .response ↔ h.StartValid .response := by
  unfold StartValid
  rw [hr.2.1]

theorem Reordered.linesValid_iff (hr : h.Reordered h') : h'.LinesValid ↔ h.LinesValid := by
  unfold LinesValid
  simp only [hr.2.2.2.2.mem_iff]

/-- The section with one of its lines moved to the end. -/
def moveLast (h : HeaderSection) (line : Bytes) (hline : line ∈ h.lines) : HeaderSection :=
  { h with
    lines := h.lines.erase line ++ [line]
    lines_free := fun l hl => h.lines_free l (by
      rcases List.mem_append.1 hl with hl | hl
      · exact List.mem_of_mem_erase hl
      · rw [List.mem_singleton.1 hl]
        exact hline) }

theorem reordered_moveLast {line : Bytes} (hline : line ∈ h.lines) :
    h.Reordered (h.moveLast line hline) := by
  refine ⟨rfl, rfl, rfl, rfl, ?_⟩
  exact (List.perm_append_singleton line _).trans (List.perm_cons_erase hline).symm

end HeaderSection

section order
variable {registered : Callback → Bool} {h : HeaderSection}

theorem feed_eq_of_fst {cs : List Bytes} {p : HTTPParser} (h : (feed cs p).1 = .ok ()) :
    feed cs p = (.ok (), (feed cs p).2) := Prod.ext h rfl

theorem response_no_method : ParserMode.response = .request → registered .method = true := by
  intro hmode
  cases hmode

/-- In one call a response is accepted if and only if its header section is in order. -/
theorem parse_response_ok (rest : Bytes) :
    (parse (h.bytes ++ rest) (new .response registered)).1 = .ok () ↔
      h.StartValid .response ∧ h.LinesValid := by
  have hready : Ready (new .response registered) (initial .response) := .new response_no_method
  have hvalid : (h.expected .response).isSome ↔ h.LinesValid := by
    rw [Option.isSome_iff_exists]
    simp [HeaderSection.expected_response]
  rw [← h.spell_tokens .response, parse_tokens hready (h.spelled_tokens .response)]
  rcases h.take_cases .response registered response_no_method with
    ⟨hstart, q, hq, hkept, hready', hexp, -⟩ | ⟨hbad, e, q, hq⟩
  · have hlines : h.LinesValid := hvalid.1 (by rw [hexp]; rfl)
    rw [Sys.bind_of_ok hq, ← feed_singleton]
    rcases feed_behind hready'.behind [rest] with ⟨r, hr, -⟩ | ⟨hmode, -⟩
    · rw [hr]
      exact iff_of_true rfl ⟨hstart, hlines⟩
    · cases hkept.mode_eq.symm.trans hmode
  · rw [Sys.bind_of_raise hq]
    refine iff_of_false (fun hok => by cases hok) ?_
    rintro ⟨hstart, hlines⟩
    rcases hbad with hbad | hbad
    · exact hbad hstart
    · rw [← hvalid, hbad] at hlines
      cases hlines

/-- Where a response was read without an error, the expected length is the last one set. -/
theorem feed_response {cs : List Bytes} {p : HTTPParser} {rest : Bytes}
    (hbody : registered .bodyChunk = true)
    (hfeed : feed cs (new .response registered) = (.ok (), p))
    (hcs : cs.flatten = h.bytes ++ rest) :
    h.StartValid .response ∧ h.LinesValid ∧
      p.body_bytes_expected_ = lastWritten (h.startExpected .response) h.lines ∧
      bodyOf p.calls = rest := by
  obtain ⟨hstart, q, hkept, -, hexp, -, hread⟩ := feed_section response_no_method hfeed hcs
  obtain ⟨hlines, hlast⟩ := HeaderSection.expected_response.1 hexp
  have hreg : q.registered .bodyChunk = true := by rw [hkept.registered_eq]; exact hbody
  refine ⟨hstart, hlines, by rw [hread.expected_eq, hlast], ?_⟩
  rw [hread.body_eq hreg, hkept.body_eq]
  rfl

/-- The order of the header lines of a response does not matter if and only if the section is
refused in any order, or its lines all set the same length. -/
theorem orderFree_iff (hbody : registered .bodyChunk = true) :
    OrderFree registered h ↔
      ¬h.StartValid .response ∨ ¬h.LinesValid ∨ h.SameLength := by
  constructor
  · intro hfree
    by_cases hstart : h.StartValid .response
    · by_cases hlines : h.LinesValid
      · right
        right
        intro line hline line' hline' m n hm hn
        -- each of the two lines can be the last one
        have hlast : ∀ (l : Bytes) (hl : l ∈ h.lines) (k : Nat), lineWrites l = some k →
            lastWritten (h.startExpected .response) h.lines = k := by
          intro l hl k hk
          have hr := HeaderSection.reordered_moveLast hl
          obtain ⟨hiff, hruns⟩ := hfree _ hr []
          have hok : (parse (h.bytes ++ []) (new .response registered)).1 = .ok () :=
            (parse_response_ok []).2 ⟨hstart, hlines⟩
          have hok' := hiff.1 hok
          rw [← feed_singleton] at hok hok'
          have hcs : [h.bytes ++ []].flatten = h.bytes ++ [] := by simp
          have hcs' : [(h.moveLast l hl).bytes ++ []].flatten = (h.moveLast l hl).bytes ++ [] := by
            simp
          have hfeed := feed_eq_of_fst hok
          have hfeed' := feed_eq_of_fst hok'
          obtain ⟨hexp, -⟩ := hruns _ _ _ _ hcs hcs' hfeed hfeed'
          rw [(feed_response hbody hfeed hcs).2.2.1,
            (feed_response hbody hfeed' hcs').2.2.1] at hexp
          rw [hexp]
          exact lastWritten_append _ _ hk
        rw [← hlast line hline m hm, hlast line' hline' n hn]
      · exact .inr (.inl hlines)
    · exact .inl hstart
  · intro hcond h' hr rest
    constructor
    · rw [parse_response_ok, parse_response_ok, hr.startValid_iff, hr.linesValid_iff]
    · intro cs cs' p p' hcs hcs' hfeed hfeed'
      obtain ⟨hstart, hlines, hexp, hdelivered⟩ := feed_response hbody hfeed hcs
      obtain ⟨-, -, hexp', hdelivered'⟩ := feed_response hbody hfeed' hcs'
      rcases hcond with hbad | hbad | hsame
      · exact absurd hstart hbad
      · exact absurd hlines hbad
      · rw [hexp, hexp', hdelivered, hdelivered', hr.startExpected_eq,
          lastWritten_perm hr.2.2.2.2 hsame]
        exact ⟨rfl, rfl⟩

end order

/-- "HTTP/1.1 200 OK" with a length of five and a connection that is closed. -/
def closingSection : HeaderSection where
  first := lit "HTTP/1.1"
  second := lit "200"
  third := lit "OK\r"
  lines := [lit "Content-Length: 5\r", lit "Connection: close\r"]
  blank := lit "\r"
  first_free := by decide
  second_free := by decide
  third_free := by decide
  lines_free := by decide
  blank_free := stripTrailingBytes_cr

def closingReversed : HeaderSection :=
  { closingSection with lines := closingSection.lines.reverse, lines_free := by decide }

/-- All bytes until the end are expected of the one, and five bytes of the other. -/
theorem closingSection_not_orderFree :
    (closingSection.lines.map fun line => (lineHeader line).map (lowercase ·.1)).Nodup ∧
    ¬OrderFree (fun _ => true) closingSection := by
  refine ⟨by decide, ?_⟩
  intro hfree
  have hr : closingSection.Reordered closingReversed :=
    ⟨rfl, rfl, rfl, rfl, List.reverse_perm _⟩
  have hok : (feed [closingSection.bytes] (new .response fun _ => true)).1 = .ok () := by
    decide +kernel
  have hok' : (feed [closingReversed.bytes] (new .response fun _ => true)).1 = .ok () := by
    decide +kernel
  have hexp : (feed [closingSection.bytes] (new .response fun _ => true)).2.body_bytes_expected_ =
      untilEof := by decide +kernel
  have hexp' : (feed [closingReversed.bytes]
      (new .response fun _ => true)).2.body_bytes_expected_ = 5 := by decide +kernel
  have heq := ((hfree closingReversed hr []).2 _ _ _ _ (by simp) (by simp)
    (feed_eq_of_fst hok) (feed_eq_of_fst hok')).1
  rw [hexp, hexp'] at heq
  exact absurd heq (by decide)

/-- Without the second line the order does not matter. -/
theorem sampleResponse_orderFree :
    OrderFree (fun _ => true) { closingSection with
      lines := [lit "Server: x\r", lit "Content-Length: 5\r"], lines_free := by decide } := by
  refine (orderFree_iff rfl).2 (.inr (.inr ?_))
  intro line hline line' hline' m n hm hn
  have hall : ∀ l ∈ [lit "Server: x\r", lit "Content-Length: 5\r"], lineWrites l = none ∨
      lineWrites l = some 5 := by decide
  rcases hall line hline with h | h
  · rw [h] at hm
    cases hm
  · rcases hall line' hline' with h' | h'
    · rw [h'] at hn
      cases hn
    · cases h.symm.trans hm
      cases h'.symm.trans hn
      rfl

end Stx.Http.HTTPParser
