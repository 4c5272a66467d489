import Stx.Http.HTTPParser.Bodies

/-! The body of a request and the length that its header section announces. The bytes are counted
a chunk at a time, and the count is compared with the length behind each chunk. -/
namespace Stx.Http.HTTPParser

/-- What a request with an announced length of `n` is to look like after `parse()` calls: where it
is done or may end, the body has `n` bytes, and bytes behind the body are an error and not a part
of it. -/
def BodyFramed (n : Nat) (rest : Bytes) (r : Result Unit × HTTPParser) : Prop :=
  (r.2.state_ = .done ∨ r.1 = .ok () ∧ (eof r.2).1 = .ok () → (bodyOf r.2.calls).length = n) ∧
  (n < rest.length → ∃ e, r.1 = .raise e) ∧
  bodyOf r.2.calls <+: rest.take n

/-- A request parser behind its header section. -/
structure AtBody (q : HTTPParser) (n : Nat) : Prop where
  state_eq : q.state_ = if n = 0 then .done else .body
  mode_eq : q.mode_ = .request
  expected_eq : q.body_bytes_expected_ = n
  read_eq : q.body_bytes_read_ = 0
  body_eq : bodyOf q.calls = []
  registered : q.registered .bodyChunk = true
  lt : n < 2^64

variable {q : HTTPParser} {n : Nat} {cs : List Bytes}

theorem AtBody.behind (h : AtBody q n) : Behind q := by
  have hs := h.state_eq
  split at hs
  · exact .inr hs
  · exact .inl hs

/-- Up to `n` bytes are all delivered. -/
theorem AtBody.feed_within (h : AtBody q n) (hn : n ≠ 0) (hle : cs.flatten.length ≤ n) :
    feed cs q = (.ok (), q.readAll cs) ∧ bodyOf (q.readAll cs).calls = cs.flatten ∧
      (q.readAll cs).state_ = if cs.flatten.length = n then .done else .body := by
  have hstate := h.state_eq
  rw [if_neg hn] at hstate
  have hfeed : feed cs q = (.ok (), q.readAll cs) := by
    apply feed_body
    · exact .inl ⟨hstate, by rw [h.read_eq, h.expected_eq]; omega,
        by rw [h.read_eq, h.expected_eq]; omega⟩
    · rw [h.read_eq]
      exact Nat.lt_of_le_of_lt (by omega) h.lt
  refine ⟨hfeed, ?_, by simp [readAll, h.read_eq, h.expected_eq, hstate]⟩
  rcases feed_behind h.behind cs with ⟨r, hr, hread⟩ | ⟨-, r, data, hr, -⟩
  · cases hfeed.symm.trans hr
    rw [hread.body_eq h.registered, h.body_eq, List.nil_append]
  · cases hfeed.symm.trans hr

theorem AtBody.framed_zero (h : AtBody q 0) : BodyFramed 0 cs.flatten (feed cs q) := by
  have hstate := h.state_eq
  rw [if_pos rfl] at hstate
  by_cases hnil : cs.flatten = []
  · rw [feed_of_flatten_nil hnil, hnil]
    exact ⟨fun _ => by rw [h.body_eq]; rfl, fun hlt => absurd hlt (by simp), by simp [h.body_eq]⟩
  · rw [feed_done hstate h.mode_eq hnil]
    exact ⟨fun _ => by rw [h.body_eq]; rfl, fun _ => ⟨_, rfl⟩, by simp [h.body_eq]⟩

theorem AtBody.framed_short (h : AtBody q n) (hn : n ≠ 0) (hlt : cs.flatten.length < n) :
    BodyFramed n cs.flatten (feed cs q) ↔ n ≠ untilEof := by
  obtain ⟨hfeed, hbody, hstate⟩ := h.feed_within hn (Nat.le_of_lt hlt)
  rw [if_neg (Nat.ne_of_lt hlt)] at hstate
  have heof := eof_ok_iff (q.readAll cs)
  have hexp : (q.readAll cs).body_bytes_expected_ = n := h.expected_eq
  have hread : (q.readAll cs).body_bytes_read_ = cs.flatten.length := by
    simp [readAll, h.read_eq]
  rw [hstate, hexp, hread] at heof
  rw [hfeed]
  constructor
  · intro hframed hend
    have hlen := hframed.1 (.inr ⟨rfl, heof.2 (.inr (.inl hend))⟩)
    rw [hbody] at hlen
    omega
  · intro hne
    refine ⟨?_, fun hgt => by omega, ?_⟩
    · rintro (hdone | ⟨-, hok⟩)
      · rw [hstate] at hdone
        cases hdone
      · rcases heof.1 hok with hdone | hend | hge
        · cases hdone
        · exact absurd hend hne
        · omega
    · have htake : cs.flatten.take n = cs.flatten := List.take_of_length_le (Nat.le_of_lt hlt)
      simp only [hbody, htake, List.prefix_refl]

/-- A chunk ends where the body does. -/
theorem AtBody.framed_cut (h : AtBody q n) (hn : n ≠ 0) (hcut : n ∈ Chunks.cuts cs) :
    BodyFramed n cs.flatten (feed cs q) := by
  obtain ⟨a, b, rfl, ha⟩ := Chunks.exists_split hcut
  obtain ⟨hfeed, hbody, hstate⟩ := h.feed_within hn (Nat.le_of_eq ha)
  rw [if_pos ha] at hstate
  have hlen : (bodyOf (q.readAll a).calls).length = n := by rw [hbody, ha]
  have hprefix : bodyOf (q.readAll a).calls <+: (a ++ b).flatten.take n := by
    have htake : (a ++ b).flatten.take n = a.flatten := by
      rw [List.flatten_append, ← ha, List.take_left]
    simp only [hbody, htake, List.prefix_refl]
  rw [feed_append, Sys.bind_of_ok hfeed]
  by_cases hnil : b.flatten = []
  · rw [feed_of_flatten_nil hnil]
    refine ⟨fun _ => hlen, fun hlt => ?_, hprefix⟩
    simp only [List.flatten_append, hnil, List.append_nil] at hlt
    omega
  · rw [feed_done hstate h.mode_eq hnil]
    exact ⟨fun _ => hlen, fun _ => ⟨_, rfl⟩, hprefix⟩

/-- A chunk that goes on behind the body is delivered as a whole. -/
theorem AtBody.not_framed_across (h : AtBody q n) (hn : n ≠ 0) (hcut : n ∉ Chunks.cuts cs)
    (hle : n ≤ cs.flatten.length) : ¬BodyFramed n cs.flatten (feed cs q) := by
  obtain ⟨a, c, b, rfl, hlt, hgt⟩ := Chunks.exists_across hcut hle
  obtain ⟨hfeed, hbody, hstate⟩ := h.feed_within hn (Nat.le_of_lt hlt)
  rw [if_neg (Nat.ne_of_lt hlt)] at hstate
  have hne : c ≠ [] := by
    intro hc
    rw [hc, List.length_nil] at hgt
    omega
  have hparse := parse_body hne (.inl hstate)
  have hstep := ReadOn.takeBody (.inl hstate) c
  have hreg : (q.readAll a).registered .bodyChunk = true := h.registered
  have hdelivered : ∃ r data, (feed (a ++ c :: b) q).2 = r ∧
      bodyOf r.calls = a.flatten ++ c ++ data := by
    rw [feed_append, Sys.bind_of_ok hfeed, feed, Sys.bind_of_ok hparse]
    rcases feed_behind hstep.behind b with ⟨r, hr, hread⟩ | ⟨-, r, data, hr, hread⟩
    · refine ⟨r, b.flatten, by rw [hr], ?_⟩
      rw [(hstep.trans hread).body_eq hreg, hbody, List.append_assoc]
    · refine ⟨r, data, by rw [hr], ?_⟩
      rw [(hstep.trans hread).body_eq hreg, hbody, List.append_assoc]
  obtain ⟨r, data, hr, hcalls⟩ := hdelivered
  intro hframed
  have hlen := hframed.2.2.length_le
  rw [hr, hcalls, List.length_append, List.length_append, List.length_take] at hlen
  omega

theorem AtBody.framed_iff (h : AtBody q n) :
    BodyFramed n cs.flatten (feed cs q) ↔
      n = 0 ∨ cs.flatten.length < n ∧ n ≠ untilEof ∨ n ∈ Chunks.cuts cs := by
  by_cases hn : n = 0
  · subst hn
    simp [h.framed_zero]
  by_cases hcut : n ∈ Chunks.cuts cs
  · simp [h.framed_cut hn hcut, hcut]
  by_cases hlt : cs.flatten.length < n
  · simp only [h.framed_short hn hlt, hn, hcut, hlt, true_and, false_or, or_false]
  · simp only [h.not_framed_across hn hcut (Nat.le_of_not_lt hlt), hn, hcut, hlt, false_and,
      or_false]

/-- A request is framed by its announced length if and only if its bytes end before the body
does, or a chunk ends where the body does (or the header section is rejected before that). -/
theorem bodyFramed_iff (registered : Callback → Bool) (hmethod : registered .method = true)
    (hbody : registered .bodyChunk = true) (h : HeaderSection) (n : Nat)
    (hstart : h.StartValid .request) (hn : h.expected .request = some n) (rest : Bytes)
    (cs : List Bytes) (hcs : cs.flatten = h.bytes ++ rest) :
    BodyFramed n rest (feed cs (new .request registered)) ↔
      CutBehindLimit .reqMethod h.tokens cs ∨ n = 0 ∨ rest.length < n ∧ n ≠ untilEof ∨
        h.bytes.length+n ∈ Chunks.cuts cs := by
  have hready : Ready (new .request registered) (initial .request) := .new fun _ => hmethod
  have hcs' : cs.flatten = spell (initial .request) h.tokens ++ rest := by
    rw [h.spell_tokens, hcs]
  rcases feed_tokens hready (h.spelled_tokens .request) hcs' with
    ⟨hcut, e, q, hq, -, hkept, hdone⟩ | ⟨hcut, hfeed⟩
  · have hframed : BodyFramed n rest (feed cs (new .request registered)) := by
      rw [hq]
      refine ⟨?_, fun _ => ⟨e, rfl⟩, ?_⟩
      · rintro (hs | ⟨hok, -⟩)
        · exact absurd hs hdone
        · cases hok
      · rw [hkept.body_eq]
        exact List.nil_prefix
    exact iff_of_true hframed (.inl hcut)
  · rw [h.spell_tokens] at hfeed
    have hrest : (Chunks.drop h.bytes.length cs).flatten = rest := by
      rw [Chunks.flatten_drop, hcs, List.drop_left]
    rcases h.take_cases .request registered (fun _ => hmethod) with
      ⟨-, q, hq, hkept, hready', hexp, -⟩ | ⟨hbad | hbad, -⟩
    · cases hn.symm.trans hexp
      have hstate := hready'.state_eq
      have hat : AtBody q q.body_bytes_expected_ := by
        refine ⟨?_, hkept.mode_eq, rfl, hkept.read_eq, hkept.body_eq, ?_, hready'.expected_lt⟩
        · simpa using hstate
        · rw [hkept.registered_eq]
          exact hbody
      rw [hfeed, Sys.bind_of_ok hq, ← hrest, hat.framed_iff]
      by_cases hzero : q.body_bytes_expected_ = 0
      · simp [hzero]
      · have hmem : q.body_bytes_expected_ ∈ Chunks.cuts (Chunks.drop h.bytes.length cs) ↔
            h.bytes.length+q.body_bytes_expected_ ∈ Chunks.cuts cs :=
          Chunks.mem_cuts_drop (Nat.pos_of_ne_zero hzero)
        have hcut' : ¬CutBehindLimit .reqMethod h.tokens cs := hcut
        simp [hzero, hmem, hcut']
    · exact absurd hstart hbad
    · rw [hn] at hbad
      cases hbad

/-- Four bytes behind a header section that announces three, in one call: all four are
delivered. -/
theorem surplus_not_bodyFramed :
    sampleSection.StartValid .request ∧ sampleSection.expected .request = some 3 ∧
    ¬BodyFramed 3 (lit "abcd")
      (feed [sampleSection.bytes ++ lit "abcd"] (new .request fun _ => true)) := by
  refine ⟨by decide, by decide, ?_⟩
  intro hframed
  have hbody : bodyOf (feed [sampleSection.bytes ++ lit "abcd"]
      (new .request fun _ => true)).2.calls = lit "abcd" := by decide +kernel
  have hprefix := hframed.2.2
  rw [hbody] at hprefix
  exact absurd hprefix (by decide)

theorem cut_bodyFramed :
    BodyFramed 3 (lit "abcd")
      (feed [sampleSection.bytes ++ lit "abc", lit "d"] (new .request fun _ => true)) :=
  (bodyFramed_iff (fun _ => true) rfl rfl sampleSection 3 (by decide) (by decide) (lit "abcd") _
    (by decide)).2 (.inr (.inr (.inr (by decide))))

end Stx.Http.HTTPParser
