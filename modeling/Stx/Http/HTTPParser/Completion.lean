import Stx.Http.HTTPParser.Bodies

/-! A message has one end of its header section: one `parse()` call reports it once at most. -/
namespace Stx.Http.HTTPParser

/-- How often the end of a header section was reported. -/
def completions (p : HTTPParser) : Nat := p.calls.count .headersComplete

def SameCompletions (p q : HTTPParser) : Prop := q.completions = p.completions

theorem same_trans (p q r : HTTPParser) (h : SameCompletions p q) (h' : SameCompletions q r) :
    SameCompletions p r := Eq.trans h' h

theorem same_bind {α β : Type} {x : Sys HTTPParser α} {f : α → Sys HTTPParser β}
    (hx : x.Keeps SameCompletions) (hf : ∀ a, (f a).Keeps SameCompletions) :
    (x >>= f).Keeps SameCompletions := hx.bind same_trans hf

theorem same_reads {α : Type} (f : HTTPParser → Result α) : (Sys.reads f).Keeps SameCompletions :=
  fun _ => rfl

theorem same_get : (Sys.get : Sys HTTPParser HTTPParser).Keeps SameCompletions := fun _ => rfl

theorem same_modify {f : HTTPParser → HTTPParser} (h : ∀ p, (f p).calls = p.calls) :
    (Sys.modify f).Keeps SameCompletions := fun p => congrArg (List.count _) (h p)

theorem completions_called_of_ne (p : HTTPParser) {e : Event} (he : e ≠ .headersComplete) :
    (p.called e).completions = p.completions := by
  rw [completions, called_calls, List.count_append]
  split
  · rw [List.count_singleton, if_neg (by simpa using he)]
    rfl
  · rfl

theorem completions_called_le (p : HTTPParser) (e : Event) :
    (p.called e).completions ≤ p.completions + 1 := by
  rw [completions, called_calls, List.count_append]
  refine Nat.add_le_add_left ?_ _
  split
  · exact List.count_le_length
  · exact Nat.zero_le 1

theorem same_call {e : Event} (he : e ≠ .headersComplete) : (call e).Keeps SameCompletions :=
  fun p => completions_called_of_ne p he

theorem same_checkSize (max : Nat) (error : String) : (checkSize max error).Keeps SameCompletions :=
  same_reads _

theorem same_advance (st : ParserState) : (advance st).Keeps SameCompletions :=
  same_modify fun _ => rfl

theorem same_readLineEnd {event : Bytes → Event} (h : ∀ data, event data ≠ .headersComplete) :
    (readLineEnd event).Keeps SameCompletions := by
  apply same_bind
  · exact same_modify fun _ => rfl
  · intro _
    apply same_bind same_get
    intro p
    exact same_bind (same_call (h _)) fun _ => same_advance _

theorem same_readMethod : readMethod.Keeps SameCompletions := by
  apply same_bind
  · exact same_modify fun _ => rfl
  · intro _
    apply same_bind same_get
    intro p
    split
    · split
      · exact same_bind (same_call (by simp)) fun _ => same_modify fun _ => rfl
      · exact same_reads _
    · exact same_checkSize _ _

/-- The tokens in front of the header lines. -/
theorem same_read {st : ParserState} {t : Token} (ht : token? st = some t) (hst : st ≠ .header) :
    t.read.Keeps SameCompletions := by
  cases st with
  | reqMethod => cases ht; exact same_readMethod
  | reqURI =>
    cases ht
    apply same_bind same_get
    intro p
    exact same_bind (same_call (by simp)) fun _ => same_advance _
  | reqVersion => cases ht; exact same_readLineEnd (by simp)
  | resVersion =>
    cases ht
    apply same_bind
    · apply same_modify
      intro p
      split <;> rfl
    · intro _
      apply same_bind same_get
      intro p
      exact same_bind (same_call (by simp)) fun _ => same_advance _
  | resStatusCode =>
    cases ht
    apply same_bind same_get
    intro p
    split
    · exact same_reads _
    · exact same_bind (same_call (by simp)) fun _ => same_advance _
  | resStatusName => cases ht; exact same_readLineEnd (by simp)
  | header => exact absurd rfl hst
  | body => cases ht
  | done => cases ht

/-- The end of the header section is reported, and only the body can follow. -/
def Completes (p q : HTTPParser) : Prop := q.completions ≤ p.completions + 1 ∧ Behind q

theorem readHeader_completions (p : HTTPParser) :
    SameCompletions p (readHeader p).2 ∨ Completes p (readHeader p).2 := by
  rw [readHeader_apply]
  dsimp only
  split
  · refine .inr ⟨completions_called_le _ _, ?_⟩
    rw [Behind, called_state]
    dsimp only
    split
    · exact .inr rfl
    · exact .inl rfl
  · left
    split
    · rfl
    · split
      · rfl
      · exact completions_called_of_ne _ (by simp)

theorem turn_completions {p : HTTPParser} {t : Token} (ht : token? p.state_ = some t) (data : Bytes) :
    SameCompletions p (turn data p).2 ∨ Completes p (turn data p).2 := by
  rw [turn_token ht]
  cases split_at t.search data with
  | inl hopen =>
    rw [t.parse_open hopen]
    split
    · exact .inl rfl
    · exact .inl rfl
  | inr hfound =>
    obtain ⟨tok, rest, hfree, rfl⟩ := hfound
    rw [t.parse_found hfree]
    have hsnd : ((t.read >>= fun _ => pure rest) (p.append tok)).2 = (t.read (p.append tok)).2 :=
      Sys.bind_pure_snd t.read (fun _ => rest) _
    rw [hsnd]
    by_cases hst : p.state_ = .header
    · rw [hst] at ht
      cases ht
      exact readHeader_completions (p.append tok)
    · exact .inl (same_read ht hst (p.append tok))

theorem completions_takeBody (p : HTTPParser) (data : Bytes) :
    (p.takeBody data).completions = p.completions := completions_called_of_ne _ (by simp)

/-- Nothing is reported behind the header section but the body. -/
theorem parse_behind {p : HTTPParser} (h : Behind p) (data : Bytes) :
    SameCompletions p (parse data p).2 := by
  by_cases hne : data = []
  · rw [hne]
    rfl
  · cases h with
    | inl hbody =>
      rw [parse_body hne (.inl hbody)]
      exact completions_takeBody p data
    | inr hdone =>
      cases hmode : p.mode_ with
      | request =>
        rw [parse_done hne hdone hmode]
        rfl
      | response =>
        rw [parse_body hne (.inr ⟨hdone, hmode⟩)]
        exact completions_takeBody p data

theorem parse_completions_le (data : Bytes) (p : HTTPParser) :
    (parse data p).2.completions ≤ p.completions + 1 := by
  by_cases hne : data = []
  · rw [hne]
    exact Nat.le_succ _
  · cases ht : token? p.state_ with
    | none =>
      have hbehind : Behind p := by
        cases hs : p.state_ <;> rw [hs] at ht <;> first | exact .inl hs | exact .inr hs | cases ht
      exact (parse_behind hbehind data).le.trans (Nat.le_succ _)
    | some t =>
      have hturn := turn_completions ht data
      rw [parse_turn hne]
      cases hrun : turn data p with
      | mk r q =>
        rw [hrun] at hturn
        have hle : q.completions ≤ p.completions + 1 := by
          cases hturn with
          | inl hsame => exact hsame.le.trans (Nat.le_succ _)
          | inr hcomplete => exact hcomplete.1
        cases r with
        | ok rest =>
          have hshorter := turn_shorter hne hrun
          rw [Sys.bind_of_ok hrun]
          cases hturn with
          | inl hsame =>
            have hrest := parse_completions_le rest q
            exact hrest.trans (Nat.succ_le_succ hsame.le)
          | inr hcomplete => exact (parse_behind hcomplete.2 rest).le.trans hle
        | raise e =>
          rw [Sys.bind_of_raise hrun]
          exact hle
        | diverge =>
          rw [Sys.bind_of_diverge hrun]
          exact hle
termination_by data.length

end Stx.Http.HTTPParser
