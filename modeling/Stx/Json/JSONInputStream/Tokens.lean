import Stx.Json.JSONInputStream

/-! All tokens of a stream. Every call of `readNextToken` comes to an end and leaves a shorter
stream. -/
namespace Stx.Json.JSONInputStream

theorem length_readNumber_le (json : JSONInputStream) :
    (readNumber json).2.length ≤ json.length := by
  induction json with
  | nil => exact Nat.le_refl _
  | cons c rest ih =>
    rw [readNumber]
    split
    · exact Nat.le_succ_of_le ih
    · split
      · exact Nat.le_succ_of_le ih
      · exact Nat.le_refl _

theorem inNumber_of_startsNumber {c : UInt8} (h : startsNumber c = true) : inNumber c = true := by
  have hmem : c ∈ lit "-0123456789" := by simpa [startsNumber] using h
  have hsub : ∀ d ∈ lit "-0123456789", inNumber d = true := by decide +kernel
  exact hsub c hmem

/-- What can come of reading a string. -/
inductive StringCase (json : JSONInputStream) (r : Result (Bytes × JSONInputStream)) : Prop
  | ok (dst : Bytes) (left : JSONInputStream) (h : r = .ok (dst, left))
    (hlt : left.length < json.length)
  | raise (e : Exception) (h : r = .raise e)

theorem StringCase.prepend {json rest : JSONInputStream} {r : Result (Bytes × JSONInputStream)}
    (h : StringCase rest r) (b : UInt8) (hle : rest.length ≤ json.length) :
    StringCase json (r >>= fun p => pure (b :: p.1, p.2)) := by
  cases h with
  | ok dst left h hlt => exact .ok (b :: dst) left (by rw [h]; rfl) (Nat.lt_of_lt_of_le hlt hle)
  | raise e h => exact .raise e (by rw [h]; rfl)

theorem StringCase.mono {json rest : JSONInputStream} {r : Result (Bytes × JSONInputStream)}
    (h : StringCase rest r) (hle : rest.length ≤ json.length) : StringCase json r := by
  cases h with
  | ok dst left h hlt => exact .ok dst left h (Nat.lt_of_lt_of_le hlt hle)
  | raise e h => exact .raise e h

theorem readStringLoop_cases (skip : Nat) (json : JSONInputStream) :
    StringCase json (readStringLoop skip json) := by
  fun_induction readStringLoop skip json with
  | case1 skip => exact .raise _ rfl
  | case2 skip c rest ih => exact ih.mono (Nat.le_succ _)
  | case3 => exact .raise _ rfl
  | case4 e rest b hb ih => exact ih.prepend b (by simp only [List.length_cons]; omega)
  | case5 rest he ih => exact ih.mono (by simp only [List.length_cons]; omega)
  | case6 => exact .raise _ rfl
  | case7 rest => exact .ok [] rest rfl (Nat.lt_succ_self _)
  | case8 => exact .raise _ rfl
  | case9 c rest _ _ _ ih => exact ih.prepend c (Nat.le_succ _)

theorem readStringLoop_plain {c : UInt8} (h92 : c ≠ 92) (h34 : c ≠ 34) (h0 : c ≠ 0)
    (json : JSONInputStream) : readStringLoop 0 (c :: json) =
      readStringLoop 0 json >>= fun p => pure (c :: p.1, p.2) := by
  cases json <;> simp only [readStringLoop, h92, h34, h0, if_false]

theorem readStringLoop_escape {e b : UInt8} (h : unescape e = some b) (json : JSONInputStream) :
    readStringLoop 0 (92 :: e :: json) =
      readStringLoop 0 json >>= fun p => pure (b :: p.1, p.2) := by
  rw [readStringLoop, if_pos rfl, h]

theorem readStringLoop_unicode (d₁ d₂ d₃ d₄ : UInt8) (json : JSONInputStream) :
    readStringLoop 0 (92 :: 117 :: d₁ :: d₂ :: d₃ :: d₄ :: json) = readStringLoop 0 json := rfl

theorem readStringLoop_quote (json : JSONInputStream) :
    readStringLoop 0 (34 :: json) = .ok ([], json) := by
  cases json <;> rfl

theorem readNextToken_quote (rest : JSONInputStream) : readNextToken (34 :: rest) =
    readStringLoop 0 rest >>= fun p => pure (some ((.string, p.1), p.2)) := rfl

/-- What a call of `readNextToken` can do. -/
inductive TokenCase (json : JSONInputStream) : Prop
  | token (t : Token) (left : JSONInputStream) (h : readNextToken json = .ok (some (t, left)))
    (hlt : left.length < json.length)
  | finished (h : readNextToken json = .ok none)
  | raise (e : Exception) (h : readNextToken json = .raise e)

theorem readNextToken_cases (json : JSONInputStream) : TokenCase json := by
  induction json with
  | nil => exact .finished rfl
  | cons c rest ih =>
    cases hb : bracket c with
    | some type => exact .token (type, []) rest (by simp only [readNextToken, hb]) (Nat.lt_succ_self _)
    | none =>
      by_cases hi : ignored c = true
      · have hrest : readNextToken (c :: rest) = readNextToken rest := by
          simp only [readNextToken, hb, hi, if_true]
        cases ih with
        | token t left h hlt => exact .token t left (hrest.trans h) (Nat.lt_succ_of_lt hlt)
        | finished h => exact .finished (hrest.trans h)
        | raise e h => exact .raise e (hrest.trans h)
      by_cases hn : startsNumber c = true
      · have hread : readNumber (c :: rest) = (c :: (readNumber rest).1, (readNumber rest).2) := by
          rw [readNumber, if_pos (inNumber_of_startsNumber hn)]
        refine .token (.number, c :: (readNumber rest).1) (readNumber rest).2 ?_
          (Nat.lt_succ_of_le (length_readNumber_le rest))
        simp only [readNextToken, hb, hi, hn, hread, if_true, Bool.false_eq_true, if_false]
      by_cases hq : c = 34
      · have hread : readNextToken (c :: rest) =
            readStringLoop 0 rest >>= fun p => pure (some ((.string, p.1), p.2)) := by
          rw [hq, readNextToken_quote]
        cases readStringLoop_cases 0 rest with
        | ok dst left h hlt =>
          exact .token (.string, dst) left (by rw [hread, h]; rfl) (Nat.lt_succ_of_lt hlt)
        | raise e h => exact .raise e (by rw [hread, h]; rfl)
      cases hw : word c with
      | none =>
        by_cases hz : c = 0
        · exact .finished (by rw [hz]; rfl)
        · exact .raise (unexpectedChar c) (by simp only [readNextToken, hb, hi, hn, hq, hw, hz,
            Bool.false_eq_true, if_false])
      | some w =>
        have hread : readNextToken (c :: rest) =
            expectString w.2 (c :: rest) >>= fun json => pure (some ((w.1, []), json)) := by
          simp only [readNextToken, hb, hi, hn, hq, hw, Bool.false_eq_true, if_false]
        have hlen : w.2.length ≠ 0 := by
          unfold word at hw
          split at hw
          · cases hw; decide
          · split at hw
            · cases hw; decide
            · split at hw
              · cases hw; decide
              · cases hw
        by_cases htake : (c :: rest).take w.2.length = w.2
        · refine .token (w.1, []) ((c :: rest).drop w.2.length) ?_ ?_
          · rw [hread, expectString, htake, if_pos rfl]
            rfl
          · rw [List.length_drop, List.length_cons]
            omega
        · refine .raise (.ofString .runtimeError (StringUtil.format
            "invalid json. expected '$0', got '$1'" [w.2, (c :: rest).take w.2.length])) ?_
          rw [hread, expectString, if_neg htake]
          rfl

/-- The tokens up to the end of the stream or to an exception. -/
def scanLoop : Nat → JSONInputStream → List Token × Result Unit
  | 0, _ => ([], .diverge)
  | fuel+1, json =>
    match readNextToken json with
    | .ok none => ([], .ok ())
    | .ok (some (t, json)) => (t :: (scanLoop fuel json).1, (scanLoop fuel json).2)
    | .raise e => ([], .raise e)
    | .diverge => ([], .diverge)

def scan (json : JSONInputStream) : List Token × Result Unit := scanLoop (json.length+1) json

theorem scanLoop_eq {m n : Nat} {json : JSONInputStream} (hm : json.length < m)
    (hn : json.length < n) : scanLoop m json = scanLoop n json := by
  induction m generalizing n json with
  | zero => exact absurd hm (Nat.not_lt_zero _)
  | succ m ih =>
    cases n with
    | zero => exact absurd hn (Nat.not_lt_zero _)
    | succ n =>
      rw [scanLoop, scanLoop]
      cases readNextToken_cases json with
      | token t left h hlt =>
        have hstep : scanLoop m left = scanLoop n left := ih (by omega) (by omega)
        simp only [h, hstep]
      | finished h => simp only [h]
      | raise e h => simp only [h]

theorem scan_token {json left : JSONInputStream} {t : Token}
    (h : readNextToken json = .ok (some (t, left))) :
    scan json = (t :: (scan left).1, (scan left).2) := by
  have hlt : left.length < json.length := by
    cases readNextToken_cases json with
    | token t' left' h' hlt =>
      rw [h] at h'
      cases h'
      exact hlt
    | finished h' => rw [h] at h'; cases h'
    | raise e h' => rw [h] at h'; cases h'
  have hstep : scanLoop json.length left = scan left := scanLoop_eq hlt (Nat.lt_succ_self _)
  rw [scan, scanLoop, h]
  simp only [hstep]

theorem scan_finished {json : JSONInputStream} (h : readNextToken json = .ok none) :
    scan json = ([], .ok ()) := by
  rw [scan, scanLoop, h]

theorem scan_raise {json : JSONInputStream} {e : Exception} (h : readNextToken json = .raise e) :
    scan json = ([], .raise e) := by
  rw [scan, scanLoop, h]

/-- The tokens of a stream depend on the next call only. -/
theorem scan_congr {json json' : JSONInputStream} (h : readNextToken json = readNextToken json') :
    scan json = scan json' := by
  cases readNextToken_cases json' with
  | token t left h' _ => rw [scan_token h', scan_token (h.trans h')]
  | finished h' => rw [scan_finished h', scan_finished (h.trans h')]
  | raise e h' => rw [scan_raise h', scan_raise (h.trans h')]

theorem readNextToken_of_scan {json : JSONInputStream} {t : Token} {ts : List Token}
    {r : Result Unit} (h : scan json = (t :: ts, r)) :
    ∃ left, readNextToken json = .ok (some (t, left)) ∧ scan left = (ts, r) ∧
      left.length < json.length := by
  cases readNextToken_cases json with
  | token t' left h' hlt =>
    rw [scan_token h'] at h
    cases h
    exact ⟨left, h', rfl, hlt⟩
  | finished h' => rw [scan_finished h'] at h; cases h
  | raise e h' => rw [scan_raise h'] at h; cases h

/- The tokens of a stream that begins with a given character. -/

theorem readNextToken_ignored {c : UInt8} (h : ignored c = true) (json : JSONInputStream) :
    readNextToken (c :: json) = readNextToken json := by
  have hmem : c ∈ lit ":, \n\r" := by simpa [ignored] using h
  have hnone : ∀ d ∈ lit ":, \n\r", bracket d = none := by decide +kernel
  simp only [readNextToken, hnone c hmem, h, if_true]

theorem scan_ignored {c : UInt8} (h : ignored c = true) (json : JSONInputStream) :
    scan (c :: json) = scan json :=
  scan_congr (readNextToken_ignored h json)

theorem scan_bracket {c : UInt8} {type : TokenType} (h : bracket c = some type)
    (json : JSONInputStream) : scan (c :: json) = ((type, []) :: (scan json).1, (scan json).2) := by
  apply scan_token
  simp only [readNextToken, h]

theorem scan_string {json left : JSONInputStream} {data : Bytes}
    (h : readStringLoop 0 json = .ok (data, left)) :
    scan (34 :: json) = ((.string, data) :: (scan left).1, (scan left).2) := by
  apply scan_token
  rw [readNextToken_quote, h]
  rfl

theorem scan_true (json : JSONInputStream) :
    scan (lit "true" ++ json) = ((.true, []) :: (scan json).1, (scan json).2) :=
  scan_token rfl

theorem scan_false (json : JSONInputStream) :
    scan (lit "false" ++ json) = ((.false, []) :: (scan json).1, (scan json).2) :=
  scan_token rfl

theorem scan_null (json : JSONInputStream) :
    scan (lit "null" ++ json) = ((.null, []) :: (scan json).1, (scan json).2) :=
  scan_token rfl

end Stx.Json.JSONInputStream
