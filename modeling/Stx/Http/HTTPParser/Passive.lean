import Stx.Http.HTTPParser.Streams
import Mathlib.Data.List.Infix

/-! What the callbacks have to do with the parsing. Two parsers with different callbacks read the
same stream in step, but for a method: without `on_method_cb_` it stays in front of the URI. -/

/- Two runs of one call with a state. `R` is what relates their states, and `E` is what is known of
the exceptions that they raise. -/
namespace Stx.Sys
variable {σ α β : Type}

/-- Runs from related states have the same outcome, and leave related states. -/
def Respects (R : σ → σ → Prop) (E : Exception → Prop) (x : Sys σ α) : Prop :=
  ∀ s t, R s t → (x s).1 = (x t).1 ∧ (∀ e, (x s).1 = .raise e → E e) ∧ R (x s).2 (x t).2

variable {R : σ → σ → Prop} {E : Exception → Prop} {x : Sys σ α}

theorem respects_pure (a : α) : (pure a : Sys σ α).Respects R E :=
  fun _ _ h => ⟨rfl, fun _ he => (by cases he), h⟩

theorem respects_reads {f : σ → Result α} (hf : ∀ s t, R s t → f s = f t)
    (hraise : ∀ s e, f s = .raise e → E e) : (reads f).Respects R E :=
  fun s t h => ⟨hf s t h, hraise s, h⟩

theorem respects_modify {f : σ → σ} (hf : ∀ s t, R s t → R (f s) (f t)) :
    (modify f).Respects R E := fun s t h => ⟨rfl, fun _ he => (by cases he), hf s t h⟩

theorem Respects.bind {f : α → Sys σ β} (hx : x.Respects R E) (hf : ∀ a, (f a).Respects R E) :
    (x >>= f).Respects R E := by
  intro s t h
  obtain ⟨hout, hraise, hstate⟩ := hx s t h
  cases hs : x s with
  | mk r s' =>
    cases ht : x t with
    | mk r' t' =>
      rw [hs, ht] at hout hstate
      rw [hs] at hraise
      obtain rfl : r = r' := hout
      cases r with
      | ok a =>
        rw [bind_of_ok hs, bind_of_ok ht]
        exact hf a s' t' hstate
      | raise e =>
        rw [bind_of_raise hs, bind_of_raise ht]
        exact ⟨rfl, fun e' he => hraise e' (by simpa using he), hstate⟩
      | diverge =>
        rw [bind_of_diverge hs, bind_of_diverge ht]
        exact ⟨rfl, fun _ he => (by cases he), hstate⟩

/-- What follows may look at the state where related states show it the same. -/
theorem respects_get_bind {f : σ → Sys σ β} (hf : ∀ s, (f s).Respects R E)
    (hsame : ∀ s t, R s t → f s = f t) : (get >>= f).Respects R E := by
  intro s t h
  rw [get_bind, get_bind, hsame s t h]
  exact hf t s t h

end Stx.Sys

namespace Stx.Http.HTTPParser

/-- The events that are told in both sets of callbacks. -/
def shared (r r' : Callback → Bool) (calls : List Event) : List Event :=
  calls.filter fun e => r e.callback && r' e.callback

/-- The parsers have the callbacks `r` and `r'`, and differ in nothing else that they go by. What
both were told is the same behind `before` and `before'`. -/
inductive Alike (r r' : Callback → Bool) (before before' : List Event) :
    HTTPParser → HTTPParser → Prop
  | mk {p : HTTPParser} (calls es : List Event) (registered_eq : p.registered = r)
      (shared_eq : shared r r' p.calls = before ++ es)
      (shared_eq' : shared r r' calls = before' ++ es)
      (method_eq : p.state_ = .reqMethod → r .method = r' .method) :
      Alike r r' before before' p { p with registered := r', calls }

/-- A method is only refused where both runs have its callback. -/
def NoRefusal (r r' : Callback → Bool) (e : Exception) : Prop :=
  r .method ≠ r' .method → e.message.head? ≠ some 73

theorem noRefusal_of_head? {r r' : Callback → Bool} {type : ErrorType} {fmt : String}
    {values : List Bytes} {b : UInt8} (h : (lit fmt).head? = some b) (hb : b ≠ 36 ∧ b ≠ 0) (hb' : b ≠ 73) :
    NoRefusal r r' (.ofString type (StringUtil.format fmt values)) := by
  intro _
  rw [head?_format h hb]
  simpa using hb'

theorem called_eq (p : HTTPParser) (e : Event) : p.called e =
    { p with calls := p.calls ++ if p.registered e.callback then [e] else [] } := by
  unfold called
  split <;> simp

section respects
variable {r r' : Callback → Bool} {before before' : List Event}

/-- In step, and without a refusal. -/
abbrev InStep (r r' : Callback → Bool) (before before' : List Event) {α : Type}
    (x : Sys HTTPParser α) : Prop :=
  x.Respects (Alike r r' before before') (NoRefusal r r')

/-- A change of members that takes no notice of the callbacks. -/
theorem inStep_update {f : HTTPParser → HTTPParser}
    (hf : ∀ (p : HTTPParser) calls,
      f { p with registered := r', calls } = { f p with registered := r', calls })
    (hkept : ∀ p, (f p).registered = p.registered ∧ (f p).calls = p.calls)
    (hstate : ∀ p, (f p).state_ = .reqMethod → p.state_ = .reqMethod) :
    InStep r r' before before' (Sys.modify f) := by
  apply Sys.respects_modify
  intro p q h
  cases h with
  | mk calls es registered_eq shared_eq shared_eq' method_eq =>
    rw [hf]
    refine .mk calls es ((hkept p).1.trans registered_eq) ?_ shared_eq' fun h =>
      method_eq (hstate p h)
    rw [(hkept p).2, shared_eq]

theorem inStep_call (e : Event) : InStep r r' before before' (call e) := by
  change InStep r r' before before' (Sys.modify fun p => p.called e)
  apply Sys.respects_modify
  intro p q h
  cases h with
  | mk calls es registered_eq shared_eq shared_eq' method_eq =>
    rw [called_eq, called_eq]
    refine .mk _ (es ++ shared r r' [e]) registered_eq ?_ ?_ method_eq
    · rw [registered_eq, shared, List.filter_append, ← shared, shared_eq, List.append_assoc]
      congr 2
      by_cases hr : r e.callback = true <;> simp [shared, hr]
    · rw [shared, List.filter_append, ← shared, shared_eq', List.append_assoc]
      congr 2
      by_cases hr' : r' e.callback = true <;> simp [shared, hr']

theorem inStep_advance {next : ParserState} (h : next ≠ .reqMethod) :
    InStep r r' before before' (advance next) :=
  inStep_update (fun _ _ => rfl) (fun _ => ⟨rfl, rfl⟩) fun _ hs => absurd hs h

theorem inStep_readUntil (data : Bytes) (search : UInt8) :
    InStep r r' before before' (readUntil data search) := by
  intro p q h
  cases h with
  | mk calls es registered_eq shared_eq shared_eq' method_eq =>
    exact ⟨rfl, fun _ he => (by cases he),
      .mk calls es registered_eq shared_eq shared_eq' method_eq⟩

/-- An exception that names what was collected. -/
theorem inStep_raise {α : Type} {fmt : String} {b : UInt8} (h : (lit fmt).head? = some b)
    (hb : b ≠ 36 ∧ b ≠ 0) (hb' : b ≠ 73) :
    InStep r r' before before'
      (Sys.reads fun p => .RAISEF .parseError fmt [p.buf_] : Sys HTTPParser α) := by
  apply Sys.respects_reads
  · rintro p q ⟨calls⟩
    rfl
  · intro p e he
    cases he
    exact noRefusal_of_head? h hb hb'

theorem inStep_checkSize (max : Nat) {error : String} (h : (lit error).head? = some 72) :
    InStep r r' before before' (checkSize max error) := by
  apply Sys.respects_reads
  · rintro p q ⟨calls⟩
    rfl
  · intro p e he
    split at he
    · cases he
      exact noRefusal_of_head? h (by decide) (by decide)
    · cases he

theorem inStep_tokenParse {t : Token} (ht : InStep r r' before before' t.read)
    (herror : (lit t.error).head? = some 72) (data : Bytes) :
    InStep r r' before before' (t.parse data) := by
  refine (inStep_readUntil data t.search).bind fun answer => ?_
  obtain ⟨found, cur⟩ := answer
  cases found with
  | true => exact ht.bind fun _ => Sys.respects_pure _
  | false => exact (inStep_checkSize _ herror).bind fun _ => Sys.respects_pure _

/-- A method is read in step where both runs have its callback, or neither has. -/
theorem inStep_readMethod (hmethod : r .method = r' .method) :
    InStep r r' before before' readMethod := by
  have hstate : InStep r r' before before'
      (Sys.modify fun p : HTTPParser => { p with state_ := .reqURI }) :=
    inStep_update (fun _ _ => rfl) (fun _ => ⟨rfl, rfl⟩) fun _ hs => by cases hs
  refine hstate.bind fun _ => Sys.respects_get_bind (fun p => ?_) ?_
  · split
    · cases HTTPMethod.ofText? p.buf_ with
      | some method =>
        exact (inStep_call _).bind fun _ =>
          inStep_update (fun _ _ => rfl) (fun _ => ⟨rfl, rfl⟩) fun _ hs => hs
      | none =>
        apply Sys.respects_reads
        · rintro p q ⟨calls⟩
          rfl
        · exact fun _ _ _ hne => absurd hmethod hne
    · exact inStep_checkSize _ (by decide)
  · rintro p q ⟨calls, es, registered_eq⟩
    rw [registered_eq, hmethod]

theorem inStep_uri : InStep r r' before before' uriToken.read := by
  refine Sys.respects_get_bind (fun p => ?_) ?_
  · exact (inStep_call _).bind fun _ => inStep_advance (by decide)
  · rintro p q ⟨calls⟩
    rfl

theorem inStep_strip : InStep r r' before before'
    (Sys.modify fun p : HTTPParser => { p with buf_ := stripTrailingBytes p.buf_ 13 }) :=
  inStep_update (fun _ _ => rfl) (fun _ => ⟨rfl, rfl⟩) fun _ hs => hs

theorem inStep_readLineEnd (event : Bytes → Event) :
    InStep r r' before before' (readLineEnd event) := by
  refine inStep_strip.bind fun _ => Sys.respects_get_bind (fun p => ?_) ?_
  · exact (inStep_call _).bind fun _ => inStep_advance (by decide)
  · rintro p q ⟨calls⟩
    rfl

theorem inStep_responseVersion : InStep r r' before before' responseVersionToken.read := by
  have hexpect : InStep r r' before before' (Sys.modify fun p : HTTPParser =>
      if Libc.strncasecmp p.buf_ (lit "HTTP/1.0") p.buf_.length = 0 then
        { p with body_bytes_expected_ := untilEof }
      else p) := by
    apply inStep_update
    · intro p calls
      simp only
      split <;> rfl
    · intro p
      split <;> exact ⟨rfl, rfl⟩
    · intro p hs
      split at hs <;> exact hs
  refine hexpect.bind fun _ => Sys.respects_get_bind (fun p => ?_) ?_
  · exact (inStep_call _).bind fun _ => inStep_advance (by decide)
  · rintro p q ⟨calls⟩
    rfl

theorem inStep_statusCode : InStep r r' before before' statusCodeToken.read := by
  refine Sys.respects_get_bind (fun p => ?_) ?_
  · cases Libc.stoi p.buf_ with
    | some status_code => exact (inStep_call _).bind fun _ => inStep_advance (by decide)
    | none => exact inStep_raise (b := 105) (by decide) (by decide) (by decide)
  · rintro p q ⟨calls⟩
    rfl

theorem inStep_processHeader (key val : Bytes) :
    InStep r r' before before' (processHeader key val) := by
  intro p q h
  cases h with
  | mk calls es registered_eq shared_eq shared_eq' method_eq =>
    have halike := Alike.mk calls es registered_eq shared_eq shared_eq' method_eq
    rw [processHeader_apply, processHeader_apply]
    cases expectedAfter p.mode_ p.expect_body_ p.body_bytes_expected_ key val with
    | none =>
      refine ⟨rfl, fun e he => ?_, halike⟩
      cases he
      exact noRefusal_of_head? (b := 105) (by decide) (by decide) (by decide)
    | some n =>
      exact inStep_call _ { p with body_bytes_expected_ := n } _
        (.mk calls es registered_eq shared_eq shared_eq' method_eq)

theorem inStep_headersEnd : InStep r r' before before' headersEnd := by
  refine Sys.Respects.bind ?_ fun _ => inStep_call _
  refine inStep_update (fun _ _ => rfl) (fun _ => ⟨rfl, rfl⟩) fun p hs => ?_
  simp only at hs
  split at hs <;> cases hs

theorem inStep_readHeader : InStep r r' before before' readHeader := by
  refine inStep_strip.bind fun _ => Sys.respects_get_bind (fun p => ?_) ?_
  · split
    · cases splitHeader p.buf_ with
      | none => exact inStep_raise (b := 105) (by decide) (by decide) (by decide)
      | some header =>
        exact (inStep_processHeader _ _).bind fun _ => inStep_advance (by decide)
    · exact inStep_headersEnd
  · rintro p q ⟨calls⟩
    rfl

theorem inStep_readBody (data : Bytes) : InStep r r' before before' (readBody data) := by
  have hcount : InStep r r' before before' (Sys.modify fun p : HTTPParser =>
      { p with body_bytes_read_ := (p.body_bytes_read_+data.length) % 2^64 }) :=
    inStep_update (fun _ _ => rfl) (fun _ => ⟨rfl, rfl⟩) fun _ hs => hs
  have hdone : InStep r r' before before' (Sys.modify fun p : HTTPParser =>
      if p.body_bytes_read_ = p.body_bytes_expected_ then { p with state_ := .done } else p) := by
    apply inStep_update
    · intro p calls
      simp only
      split <;> rfl
    · intro p
      split <;> exact ⟨rfl, rfl⟩
    · intro p hs
      split at hs
      · cases hs
      · exact hs
  exact hcount.bind fun _ => hdone.bind fun _ => (inStep_call _).bind fun _ => Sys.respects_pure _

theorem inStep_turn (data : Bytes) : InStep r r' before before' (turn data) := by
  intro p q h
  have hq : q.state_ = p.state_ ∧ q.mode_ = p.mode_ := by
    cases h
    exact ⟨rfl, rfl⟩
  rw [turn, Sys.get_bind, Sys.get_bind, hq.1, hq.2]
  cases hs : p.state_ with
  | reqMethod =>
    have hmethod : r .method = r' .method := by
      cases h with
      | mk calls es registered_eq shared_eq shared_eq' method_eq => exact method_eq hs
    exact inStep_tokenParse (t := methodToken) (inStep_readMethod hmethod) (by decide) data p q h
  | reqURI => exact inStep_tokenParse (t := uriToken) inStep_uri (by decide) data p q h
  | reqVersion =>
    exact inStep_tokenParse (t := requestVersionToken) (inStep_readLineEnd _) (by decide) data p q h
  | resVersion =>
    exact inStep_tokenParse (t := responseVersionToken) inStep_responseVersion (by decide) data p q h
  | resStatusCode =>
    exact inStep_tokenParse (t := statusCodeToken) inStep_statusCode (by decide) data p q h
  | resStatusName =>
    exact inStep_tokenParse (t := statusNameToken) (inStep_readLineEnd _) (by decide) data p q h
  | header => exact inStep_tokenParse (t := headerToken) inStep_readHeader (by decide) data p q h
  | body => exact inStep_readBody data p q h
  | done =>
    simp only
    split
    · refine Sys.respects_reads (fun _ _ _ => rfl) (fun _ e he => ?_) p q h
      cases he
      intro _
      decide
    · exact inStep_readBody data p q h

theorem inStep_parseLoop (fuel : Nat) (data : Bytes) :
    InStep r r' before before' (parseLoop fuel data) := by
  induction fuel generalizing data with
  | zero =>
    cases data with
    | nil => exact Sys.respects_pure _
    | cons b data => exact fun p q h => ⟨rfl, fun _ he => (by cases he), h⟩
  | succ fuel ih =>
    cases data with
    | nil => exact Sys.respects_pure _
    | cons b data => exact (inStep_turn _).bind fun rest => ih rest

theorem inStep_feed (cs : List Bytes) : InStep r r' before before' (feed cs) := by
  induction cs with
  | nil => exact Sys.respects_pure _
  | cons c cs ih => exact (inStep_parseLoop _ _).bind fun _ => ih

end respects

/-- The callbacks that both runs have are told the same, and there is an exception in both runs or
in none. -/
def SeenAlike (r r' : Callback → Bool) (x y : Result Unit × HTTPParser) : Prop :=
  shared r r' x.2.calls = shared r r' y.2.calls ∧
    ((∃ e, x.1 = .raise e) ↔ ∃ e, y.1 = .raise e)

def RefusesMethod (res : Result Unit) : Prop :=
  ∃ method, res = .RAISEF .parseError "Invalid HTTP method: $0" [method]

/-- After every `parse()` call the two runs have shown the same, unless one has refused the method
of the request. -/
def Passive (mode : ParserMode) (r r' : Callback → Bool) (chunks : List Bytes) : Prop :=
  ∀ cs, cs <+: chunks →
    RefusesMethod (feed cs (new mode r)).1 ∨ RefusesMethod (feed cs (new mode r')).1 ∨
      SeenAlike r r' (feed cs (new mode r)) (feed cs (new mode r'))

/-- A method that is left in `buf_` is not noticed: no call ends in a part of the URI that is over
the limit with the method only, and a URI that both runs are to be told does not come to its end,
or a call has ended over the limit before. -/
structure MethodHarmless (r r' : Callback → Bool) (chunks : List Bytes) : Prop where
  limit : ∀ (m : HTTPMethod) cs w, cs <+: chunks → cs.flatten = m.toString ++ 32 :: w → 32 ∉ w →
    kMaxURISize < m.toString.length+w.length → kMaxURISize < w.length
  uri : r .uri = true → r' .uri = true → ∀ (m : HTTPMethod) cs w rest, cs <+: chunks →
    cs.flatten = m.toString ++ 32 :: (w ++ 32 :: rest) → 32 ∉ w →
      ∃ n a, a <+: cs ∧ a.flatten = m.toString ++ 32 :: w.take n ∧ kMaxURISize < n ∧ n ≤ w.length

theorem RefusesMethod.head? {e : Exception} (h : RefusesMethod (.raise e)) :
    e.message.head? = some 73 := by
  obtain ⟨method, h⟩ := h
  cases h
  exact head?_format (by decide) (by decide)

theorem not_refusesMethod_ok : ¬RefusesMethod (.ok ()) := by
  rintro ⟨method, h⟩
  cases h

theorem not_refusesMethod_tooLarge {st : ParserState} {t : Token} (ht : token? st = some t) :
    ¬RefusesMethod (.raise t.tooLarge) := by
  intro h
  have hhead := h.head?
  rw [Token.head?_tooLarge ht] at hhead
  exact absurd hhead (by decide)

theorem shared_comm (r r' : Callback → Bool) (calls : List Event) :
    shared r r' calls = shared r' r calls := by
  simp only [shared, Bool.and_comm]

theorem SeenAlike.symm {r r' : Callback → Bool} {x y : Result Unit × HTTPParser}
    (h : SeenAlike r r' x y) : SeenAlike r' r y x := by
  refine ⟨?_, h.2.symm⟩
  rw [shared_comm, ← h.1, shared_comm]

theorem Passive.symm {mode : ParserMode} {r r' : Callback → Bool} {chunks : List Bytes}
    (h : Passive mode r r' chunks) : Passive mode r' r chunks := by
  intro cs hcs
  rcases h cs hcs with hrefuses | hrefuses | hseen
  · exact .inr (.inl hrefuses)
  · exact .inl hrefuses
  · exact .inr (.inr hseen.symm)

theorem MethodHarmless.symm {r r' : Callback → Bool} {chunks : List Bytes}
    (h : MethodHarmless r r' chunks) : MethodHarmless r' r chunks :=
  ⟨h.limit, fun hr' hr => h.uri hr hr'⟩

section inStep
variable {r r' : Callback → Bool} {before before' : List Event} {p q : HTTPParser}

/-- Runs that are in step go on to show the same, whatever comes. -/
theorem Alike.seenAlike_iff (h : Alike r r' before before' p q) (cs : List Bytes) :
    SeenAlike r r' (feed cs p) (feed cs q) ↔ before = before' := by
  obtain ⟨hout, -, hstate⟩ := inStep_feed cs p q h
  generalize hx : feed cs p = x at hout hstate ⊢
  generalize hy : feed cs q = y at hout hstate ⊢
  obtain ⟨res, p'⟩ := x
  obtain ⟨res', q'⟩ := y
  obtain rfl : res = res' := hout
  rw [SeenAlike, and_iff_left Iff.rfl]
  cases hstate with
  | mk calls es registered_eq shared_eq shared_eq' =>
    rw [shared_eq, shared_eq']
    exact ⟨List.append_cancel_right, congrArg (· ++ es)⟩

theorem Alike.not_refuses (h : Alike r r' before before' p q) (hmethod : r .method ≠ r' .method)
    (cs : List Bytes) : ¬RefusesMethod (feed cs p).1 ∧ ¬RefusesMethod (feed cs q).1 := by
  obtain ⟨hout, hraise, -⟩ := inStep_feed cs p q h
  have hnot : ¬RefusesMethod (feed cs p).1 := by
    rintro ⟨method, hrefuses⟩
    have hhead : RefusesMethod (.raise _) := ⟨method, rfl⟩
    exact hraise _ hrefuses hmethod hhead.head?
  exact ⟨hnot, hout ▸ hnot⟩

theorem alike_new {mode : ParserMode} (h : mode = .response ∨ r .method = r' .method) :
    Alike r r' [] [] (new mode r) (new mode r') := by
  refine .mk [] [] rfl rfl rfl fun hs => ?_
  rcases h with rfl | h
  · cases hs
  · exact h

end inStep

/- One run has the method callback, the other does not. -/

section method
variable {r r' : Callback → Bool} {cs : List Bytes} {m : HTTPMethod}

/-- The first parser behind a method. -/
def told (r : Callback → Bool) (m : HTTPMethod) : HTTPParser :=
  { new .request r with state_ := .reqURI, calls := [.method m] }

/-- The second parser behind a method. -/
def untold (r' : Callback → Bool) (m : HTTPMethod) : HTTPParser :=
  { new .request r' with state_ := .reqURI, buf_ := m.toString }

theorem toString_of_ofText? {text : Bytes} (h : HTTPMethod.ofText? text = some m) :
    text = m.toString := by
  have hfound := List.find?_some h
  simpa [eq_comm] using hfound

theorem length_toString (m : HTTPMethod) : m.toString.length ≤ 7 ∧ 32 ∉ m.toString := by
  cases m <;> decide

theorem takeToken_told (hr : r .method = true) (m : HTTPMethod) :
    takeToken m.toString (new .request r) = (.ok (), told r m) := by
  rw [takeToken_apply (t := methodToken) rfl]
  change readMethod ((new .request r).append m.toString) = _
  have hreg : ((new .request r).append m.toString).registered .method = true := hr
  have hm : HTTPMethod.ofText? ((new .request r).append m.toString).buf_ = some m :=
    HTTPMethod.ofText?_toString m
  rw [readMethod]
  simp only [Sys.modify_bind, Sys.get_bind, hreg, if_true, hm, call_bind, called_eq]
  simp [told, append, new, Event.callback, hr]

theorem takeToken_untold (hr' : r' .method = false) (m : HTTPMethod) :
    takeToken m.toString (new .request r') = (.ok (), untold r' m) := by
  rw [takeToken_apply (t := methodToken) rfl]
  change readMethod ((new .request r').append m.toString) = _
  have hreg : ((new .request r').append m.toString).registered .method = false := hr'
  have hlen : ¬kMaxMethodSize < m.toString.length := by
    have := (length_toString m).1
    unfold kMaxMethodSize
    omega
  rw [readMethod]
  simp only [Sys.modify_bind, Sys.get_bind, hreg, Bool.false_eq_true, if_false, checkSize_apply]
  exact if_neg hlen

theorem takeToken_refused (hr : r .method = true) {method : Bytes}
    (h : HTTPMethod.ofText? method = none) :
    RefusesMethod (takeToken method (new .request r)).1 := by
  rw [takeToken_apply (t := methodToken) rfl]
  change RefusesMethod (readMethod ((new .request r).append method)).1
  have hreg : ((new .request r).append method).registered .method = true := hr
  have hm : HTTPMethod.ofText? ((new .request r).append method).buf_ = none := h
  rw [readMethod]
  simp only [Sys.modify_bind, Sys.get_bind, hreg, if_true, hm]
  exact ⟨method, rfl⟩

/-- Behind a known method the runs read what is left from different parsers. -/
theorem feed_known (hr : r .method = true) (hr' : r' .method = false) {w : Bytes}
    (hcs : cs.flatten = m.toString ++ 32 :: w) :
    feed cs (new .request r) = feed (Chunks.drop (m.toString.length+1) cs) (told r m) ∧
      feed cs (new .request r') = feed (Chunks.drop (m.toString.length+1) cs) (untold r' m) := by
  obtain ⟨hlen, hfree⟩ := length_toString m
  have hkept : ∀ registered : Callback → Bool, feed cs (new .request registered) =
      (takeToken m.toString >>= fun _ => feed (Chunks.drop (m.toString.length+1) cs))
        (new .request registered) := by
    intro registered
    rcases feed_token (p := new .request registered) (t := methodToken) rfl (Nat.zero_le _) hfree
      hcs with ⟨⟨n, -, hlt, hle⟩, -⟩ | ⟨-, hfeed⟩
    · exact absurd hlt (by simp [new, methodToken, kMaxMethodSize]; omega)
    · exact hfeed
  rw [hkept r, hkept r', Sys.bind_of_ok (takeToken_told hr m),
    Sys.bind_of_ok (takeToken_untold hr' m)]
  exact ⟨rfl, rfl⟩

theorem seenAlike_tooLarge {p q : HTTPParser} (h : shared r r' p.calls = shared r r' q.calls)
    (e : Exception) (data data' : Bytes) :
    SeenAlike r r' (.raise e, p.append data) (.raise e, q.append data') :=
  ⟨h, ⟨fun _ => ⟨e, rfl⟩, fun _ => ⟨e, rfl⟩⟩⟩

/-- Without a known method in front, one run refuses the method, or the runs are alike. -/
theorem feed_unknown (hr : r .method = true) (hcs : ∀ (m : HTTPMethod) w,
    cs.flatten ≠ m.toString ++ 32 :: w) :
    RefusesMethod (feed cs (new .request r)).1 ∨
      SeenAlike r r' (feed cs (new .request r)) (feed cs (new .request r')) := by
  rcases split_at 32 cs.flatten with hopen | ⟨method, w, hfree, hmethod⟩
  · -- there is no whole method
    right
    rcases feed_open (p := new .request r) (t := methodToken) rfl (Nat.zero_le _) hopen with
      ⟨hlt, data, hfeed⟩ | ⟨hle, hfeed⟩
    · rcases feed_open (p := new .request r') (t := methodToken) rfl (Nat.zero_le _) hopen with
        ⟨-, data', hfeed'⟩ | ⟨hle', -⟩
      · rw [hfeed, hfeed']
        exact seenAlike_tooLarge rfl _ data data'
      · exact absurd hlt (Nat.not_lt.2 hle')
    · rcases feed_open (p := new .request r') (t := methodToken) rfl (Nat.zero_le _) hopen with
        ⟨hlt', -⟩ | ⟨-, hfeed'⟩
      · exact absurd hlt' (Nat.not_lt.2 hle)
      · rw [hfeed, hfeed']
        exact ⟨rfl, by simp⟩
  · have hnone : HTTPMethod.ofText? method = none := by
      cases hm : HTTPMethod.ofText? method with
      | none => rfl
      | some m => exact absurd (toString_of_ofText? hm ▸ hmethod) (hcs m w)
    rcases feed_token (p := new .request r) (t := methodToken) rfl (Nat.zero_le _) hfree hmethod with
      ⟨⟨n, hn, hlt, hle⟩, data, hfeed⟩ | ⟨-, hfeed⟩
    · right
      rcases feed_token (p := new .request r') (t := methodToken) rfl (Nat.zero_le _) hfree
        hmethod with ⟨-, data', hfeed'⟩ | ⟨hall, -⟩
      · rw [hfeed, hfeed']
        exact seenAlike_tooLarge rfl _ data data'
      · exact absurd hlt (Nat.not_lt.2 (hall n hn hle))
    · left
      have hrefused := takeToken_refused hr hnone
      obtain ⟨text, hraise⟩ := hrefused
      rw [hfeed, Sys.bind_of_raise (Prod.ext hraise rfl)]
      exact ⟨text, rfl⟩

/-- What both runs are told before the URI. -/
theorem shared_told (hr' : r' .method = false) :
    shared r r' (told r m).calls = shared r r' (untold r' m).calls := by
  simp [shared, told, untold, new, Event.callback, hr']

/-- A URI without an end is over the limit in both runs, in none, or with the method only. -/
theorem seenAlike_openURI (hr' : r' .method = false) (hopen : 32 ∉ cs.flatten) :
    ¬RefusesMethod (feed cs (told r m)).1 ∧ ¬RefusesMethod (feed cs (untold r' m)).1 ∧
      (SeenAlike r r' (feed cs (told r m)) (feed cs (untold r' m)) ↔
        (kMaxURISize < m.toString.length+cs.flatten.length → kMaxURISize < cs.flatten.length)) := by
  have hlen : (untold r' m).buf_.length ≤ uriToken.max := (length_toString m).1.trans (by decide)
  have hlarge : ¬RefusesMethod (.raise uriToken.tooLarge) :=
    not_refusesMethod_tooLarge (show token? .reqURI = some uriToken from rfl)
  have htold : (told r m).buf_.length + cs.flatten.length = cs.flatten.length := Nat.zero_add _
  have huntold : (untold r' m).buf_.length = m.toString.length := rfl
  have hmax : uriToken.max = kMaxURISize := rfl
  rcases feed_open (p := told r m) (t := uriToken) rfl (Nat.zero_le _) hopen with
    ⟨hlt, data, hfeed⟩ | ⟨hle, hfeed⟩
  · rcases feed_open (p := untold r' m) (t := uriToken) rfl hlen hopen with
      ⟨hlt', data', hfeed'⟩ | ⟨hle', -⟩
    · rw [hfeed, hfeed']
      refine ⟨hlarge, hlarge, fun _ _ => by omega, fun _ => ?_⟩
      exact seenAlike_tooLarge (shared_told hr') _ data data'
    · omega
  · rcases feed_open (p := untold r' m) (t := uriToken) rfl hlen hopen with
      ⟨hlt', data', hfeed'⟩ | ⟨hle', hfeed'⟩
    · rw [hfeed, hfeed']
      refine ⟨not_refusesMethod_ok, hlarge, fun hseen => ?_, fun himp => ?_⟩
      · have hraise := hseen.2.2 ⟨_, rfl⟩
        simp at hraise
      · have := himp (by omega)
        omega
    · rw [hfeed, hfeed']
      refine ⟨not_refusesMethod_ok, not_refusesMethod_ok, fun _ _ => by omega, fun _ => ?_⟩
      exact ⟨shared_told hr', by simp⟩

/-- Behind the URI the runs are in step, whatever they were told of it. -/
theorem alike_behindURI (hr' : r' .method = false) (w : Bytes) :
    ∃ p q, takeToken w (told r m) = (.ok (), p) ∧ takeToken w (untold r' m) = (.ok (), q) ∧
      Alike r r' (shared r r' [.uri w]) (shared r r' [.uri (m.toString ++ w)]) p q := by
  have htold : takeToken w (told r m) = (.ok (),
      { ((told r m).append w).called (.uri w) with buf_ := [], state_ := .reqVersion }) := rfl
  have huntold : takeToken w (untold r' m) = (.ok (),
      { ((untold r' m).append w).called (.uri (m.toString ++ w)) with
        buf_ := [], state_ := .reqVersion }) := rfl
  refine ⟨_, _, htold, huntold, ?_⟩
  rw [called_eq, called_eq]
  refine Alike.mk _ [] rfl ?_ ?_ fun hs => by cases hs
  · by_cases hr : r .uri = true <;> simp [told, append, new, shared, Event.callback, hr, hr']
  · by_cases hr : r' .uri = true <;> simp [untold, append, new, shared, Event.callback, hr]

theorem shared_uri_eq_iff (w : Bytes) :
    shared r r' [.uri w] = shared r r' [.uri (m.toString ++ w)] ↔
      ¬(r .uri = true ∧ r' .uri = true) := by
  have hne : w ≠ m.toString ++ w := by
    intro h
    have hlen := congrArg List.length h
    rw [List.length_append] at hlen
    have hpos : 0 < m.toString.length := by cases m <;> decide
    omega
  by_cases h : r .uri = true ∧ r' .uri = true
  · simp [shared, Event.callback, h.1, h.2, hne]
  · have hfalse : (r .uri && r' .uri) = false := by simpa using h
    simp only [shared, List.filter_cons, Event.callback, hfalse, h]
    simp

/-- A URI that comes to its end, where the method does not bring it over the limit. -/
theorem seenAlike_wholeURI (hr : r .method = true) (hr' : r' .method = false) {w rest : Bytes}
    (hfree : 32 ∉ w) (hcs : cs.flatten = w ++ 32 :: rest)
    (hlimit : ∀ n ∈ Chunks.cuts cs, n ≤ w.length → kMaxURISize < m.toString.length+n →
      kMaxURISize < n) :
    ¬RefusesMethod (feed cs (told r m)).1 ∧ ¬RefusesMethod (feed cs (untold r' m)).1 ∧
      (SeenAlike r r' (feed cs (told r m)) (feed cs (untold r' m)) ↔
        (r .uri = true ∧ r' .uri = true → ∃ n ∈ Chunks.cuts cs, kMaxURISize < n ∧ n ≤ w.length)) := by
  have hlen : (untold r' m).buf_.length ≤ uriToken.max := (length_toString m).1.trans (by decide)
  have hlarge : ¬RefusesMethod (.raise uriToken.tooLarge) :=
    not_refusesMethod_tooLarge (show token? .reqURI = some uriToken from rfl)
  have htold : ∀ n, (told r m).buf_.length + n = n := Nat.zero_add
  have huntold : (untold r' m).buf_.length = m.toString.length := rfl
  have hmax : uriToken.max = kMaxURISize := rfl
  rcases feed_token (p := told r m) (t := uriToken) rfl (Nat.zero_le _) hfree hcs with
    ⟨⟨n, hn, hlt, hle⟩, data, hfeed⟩ | ⟨hall, hfeed⟩
  · rcases feed_token (p := untold r' m) (t := uriToken) rfl hlen hfree hcs with
      ⟨-, data', hfeed'⟩ | ⟨hall', -⟩
    · rw [hfeed, hfeed']
      rw [htold, hmax] at hlt
      exact ⟨hlarge, hlarge, fun _ _ => ⟨n, hn, hlt, hle⟩, fun _ =>
        seenAlike_tooLarge (shared_told hr') _ data data'⟩
    · have := hall' n hn hle
      have := htold n
      omega
  · rcases feed_token (p := untold r' m) (t := uriToken) rfl hlen hfree hcs with
      ⟨⟨n, hn, hlt, hle⟩, -⟩ | ⟨-, hfeed'⟩
    · have := hall n hn hle
      have := htold n
      have := hlimit n hn hle (by omega)
      omega
    · obtain ⟨p, q, hp, hq, halike⟩ := @alike_behindURI r r' m hr' w
      have hmethod : r .method ≠ r' .method := by simp [hr, hr']
      have hrefuses := halike.not_refuses hmethod (Chunks.drop (w.length+1) cs)
      rw [hfeed, hfeed', Sys.bind_of_ok hp, Sys.bind_of_ok hq, halike.seenAlike_iff,
        shared_uri_eq_iff]
      refine ⟨hrefuses.1, hrefuses.2, fun hnot hboth => absurd hboth hnot, fun himp hboth => ?_⟩
      obtain ⟨n, hn, hlt, hle⟩ := himp hboth
      have := hall n hn hle
      have := htold n
      omega

/-- Where a call ends inside the URI. -/
theorem mem_cuts_uri {w rest : Bytes} (hcs : cs.flatten = m.toString ++ 32 :: (w ++ rest)) {n : Nat}
    (hpos : 0 < n) (hle : n ≤ w.length) :
    n ∈ Chunks.cuts (Chunks.drop (m.toString.length+1) cs) ↔
      ∃ a, a <+: cs ∧ a.flatten = m.toString ++ 32 :: w.take n := by
  rw [Chunks.mem_cuts_drop hpos, Chunks.mem_cuts_iff]
  have htake : cs.flatten.take (m.toString.length+1+n) = m.toString ++ 32 :: w.take n := by
    rw [hcs, Nat.add_assoc, List.take_length_add_append, Nat.add_comm 1 n, List.take_succ_cons,
      List.take_append_of_le_length hle]
  constructor
  · rintro ⟨a, ha, hlen⟩
    have hprefix : a.flatten <+: cs.flatten := List.IsPrefix.flatten ha
    exact ⟨a, ha, by rw [List.prefix_iff_eq_take.1 hprefix, hlen, htake]⟩
  · rintro ⟨a, ha, hflatten⟩
    refine ⟨a, ha, ?_⟩
    rw [hflatten, List.length_append, List.length_cons, List.length_take, Nat.min_eq_left hle]
    omega

/-- What `MethodHarmless.limit` says of the cuts inside a URI that comes to its end. -/
theorem short_of_limit {chunks : List Bytes}
    (hlimit : ∀ (m : HTTPMethod) cs w, cs <+: chunks → cs.flatten = m.toString ++ 32 :: w →
      32 ∉ w → kMaxURISize < m.toString.length+w.length → kMaxURISize < w.length)
    (hcs : cs <+: chunks) {w rest : Bytes} (hflatten : cs.flatten = m.toString ++ 32 :: (w ++ rest))
    (hfree : 32 ∉ w) : ∀ n ∈ Chunks.cuts (Chunks.drop (m.toString.length+1) cs), n ≤ w.length →
      kMaxURISize < m.toString.length+n → kMaxURISize < n := by
  intro n hn hle hlong
  have hpos : 0 < n := by
    have := (length_toString m).1
    unfold kMaxURISize at hlong
    omega
  obtain ⟨a, ha, haflatten⟩ := (mem_cuts_uri hflatten hpos hle).1 hn
  have hshort := hlimit m a (w.take n) (ha.trans hcs) haflatten
    fun hmem => hfree (List.mem_of_mem_take hmem)
  rw [List.length_take_of_le hle] at hshort
  exact hshort hlong

theorem MethodHarmless.of_passive {chunks : List Bytes} (hr : r .method = true)
    (hr' : r' .method = false) (h : Passive .request r r' chunks) :
    MethodHarmless r r' chunks := by
  -- No run is refused behind a known method.
  have hseen : ∀ {cs : List Bytes} {m : HTTPMethod} {w : Bytes}, cs <+: chunks →
      cs.flatten = m.toString ++ 32 :: w →
      (Chunks.drop (m.toString.length+1) cs).flatten = w ∧
      (¬RefusesMethod (feed (Chunks.drop (m.toString.length+1) cs) (told r m)).1 →
        ¬RefusesMethod (feed (Chunks.drop (m.toString.length+1) cs) (untold r' m)).1 →
        SeenAlike r r' (feed (Chunks.drop (m.toString.length+1) cs) (told r m))
          (feed (Chunks.drop (m.toString.length+1) cs) (untold r' m))) := by
    intro cs m w hcs hflatten
    obtain ⟨hfeed, hfeed'⟩ := feed_known hr hr' hflatten
    have hshown := h cs hcs
    rw [hfeed, hfeed'] at hshown
    refine ⟨by rw [Chunks.flatten_drop, hflatten]; simp, fun hnot hnot' => ?_⟩
    exact (hshown.resolve_left hnot).resolve_left hnot'
  have hlimit : ∀ (m : HTTPMethod) cs w, cs <+: chunks → cs.flatten = m.toString ++ 32 :: w →
      32 ∉ w → kMaxURISize < m.toString.length+w.length → kMaxURISize < w.length := by
    intro m cs w hcs hflatten hfree
    obtain ⟨hdrop, hseen⟩ := hseen hcs hflatten
    have hopen : 32 ∉ (Chunks.drop (m.toString.length+1) cs).flatten := hdrop ▸ hfree
    obtain ⟨hnot, hnot', hiff⟩ := seenAlike_openURI (r := r) (m := m) hr' hopen
    rw [hdrop] at hiff
    exact hiff.1 (hseen hnot hnot')
  refine ⟨hlimit, fun huri huri' m cs w rest hcs hflatten hfree => ?_⟩
  obtain ⟨hdrop, hseen⟩ := hseen hcs hflatten
  have hinside := short_of_limit hlimit hcs hflatten hfree
  obtain ⟨hnot, hnot', hiff⟩ := seenAlike_wholeURI hr hr' hfree hdrop hinside
  obtain ⟨n, hn, hlt, hle⟩ := hiff.1 (hseen hnot hnot') ⟨huri, huri'⟩
  obtain ⟨a, ha, haflatten⟩ := (mem_cuts_uri hflatten (Nat.zero_lt_of_lt hlt) hle).1 hn
  exact ⟨n, a, ha, haflatten, hlt, hle⟩

theorem MethodHarmless.passive {chunks : List Bytes} (hr : r .method = true)
    (hr' : r' .method = false) (h : MethodHarmless r r' chunks) :
    Passive .request r r' chunks := by
  intro cs hcs
  by_cases hknown : ∃ (m : HTTPMethod) (w : Bytes), cs.flatten = m.toString ++ 32 :: w
  · obtain ⟨m, w, hflatten⟩ := hknown
    obtain ⟨hfeed, hfeed'⟩ := feed_known hr hr' hflatten
    have hdrop : (Chunks.drop (m.toString.length+1) cs).flatten = w := by
      rw [Chunks.flatten_drop, hflatten]
      simp
    rw [hfeed, hfeed']
    right
    right
    rcases split_at 32 w with hopen | ⟨uri, rest, hfree, rfl⟩
    · have hiff := (seenAlike_openURI (r := r) (m := m) hr' (hdrop ▸ hopen)).2.2
      rw [hdrop] at hiff
      exact hiff.2 (h.limit m cs w hcs hflatten hopen)
    · have hinside := short_of_limit h.limit hcs hflatten hfree
      refine (seenAlike_wholeURI hr hr' hfree hdrop hinside).2.2.2 fun hboth => ?_
      obtain ⟨n, a, ha, haflatten, hlt, hle⟩ :=
        h.uri hboth.1 hboth.2 m cs uri rest hcs hflatten hfree
      exact ⟨n, (mem_cuts_uri hflatten (Nat.zero_lt_of_lt hlt) hle).2 ⟨a, ha, haflatten⟩, hlt, hle⟩
  · rcases @feed_unknown r r' cs hr fun m w hflatten => hknown ⟨m, w, hflatten⟩ with
      hrefuses | hseen
    · exact .inl hrefuses
    · exact .inr (.inr hseen)

end method

/-- Callbacks only listen, unless one run of a request has the method callback and the other has
not, and the method is noticed there. -/
theorem passive_iff (mode : ParserMode) (r r' : Callback → Bool) (chunks : List Bytes) :
    Passive mode r r' chunks ↔
      mode = .response ∨ r .method = r' .method ∨ MethodHarmless r r' chunks := by
  by_cases hsame : mode = .response ∨ r .method = r' .method
  · have hseen : Passive mode r r' chunks := fun cs _ =>
      .inr (.inr (((alike_new hsame).seenAlike_iff cs).2 rfl))
    rw [← or_assoc]
    exact iff_of_true hseen (.inl hsame)
  · rw [← or_assoc, or_iff_right hsame]
    rw [not_or] at hsame
    obtain ⟨hresponse, hne⟩ := hsame
    obtain rfl : mode = .request := by
      cases mode with
      | request => rfl
      | response => exact absurd rfl hresponse
    cases hr : r .method with
    | true =>
      have hr' : r' .method = false := by
        rw [hr] at hne
        simpa using Ne.symm hne
      exact ⟨MethodHarmless.of_passive hr hr', MethodHarmless.passive hr hr'⟩
    | false =>
      have hr' : r' .method = true := by
        rw [hr] at hne
        simpa using Ne.symm hne
      exact ⟨fun h => (MethodHarmless.of_passive hr' hr h.symm).symm,
        fun h => (MethodHarmless.passive hr' hr h.symm).symm⟩

/-- Without a method callback the URI of a request is told with the method in front. -/
theorem get_not_passive :
    ¬Passive .request (fun _ => true) (fun c => c ≠ .method) [lit "GET / HTTP/1.1\r\n\r\n"] := by
  intro h
  have hok : (feed [lit "GET / HTTP/1.1\r\n\r\n"] (new .request fun _ => true)).1 = .ok () := by
    decide +kernel
  have hok' : (feed [lit "GET / HTTP/1.1\r\n\r\n"] (new .request fun c => c ≠ .method)).1 =
      .ok () := by
    decide +kernel
  have hshown := h _ (List.prefix_refl _)
  rw [hok, hok'] at hshown
  have hseen := ((hshown.resolve_left not_refusesMethod_ok).resolve_left not_refusesMethod_ok).1
  revert hseen
  decide +kernel

end Stx.Http.HTTPParser
