import Stx.Json.JSONOutputStream.Strings

/-! Parsing what `JSONOutputStream` has written. Whatever separators the counts on the stack give,
the reader does not look at them; a number is written in quotes and comes back as a string. -/
namespace Stx.Json
open Brackets JSONInputStream

namespace JSONOutputStream

/-- What is written for a token behind its separator. -/
def lexeme : Token → Bytes
  | (.objectBegin, _) => lit "\x7b"
  | (.objectEnd, _) => lit "\x7d"
  | (.arrayBegin, _) => lit "["
  | (.arrayEnd, _) => lit "]"
  | (.string, data) => 34 :: (escapeString data ++ [34])
  | (.number, data) => 34 :: (escapeString data ++ [34])
  | (.true, _) => lit "true"
  | (.false, _) => lit "false"
  | (.null, _) => lit "null"

@[simp] theorem output_put (bytes : Bytes) (json : JSONOutputStream) :
    (json.put bytes).output_ = json.output_ ++ bytes := rfl

@[simp] theorem stack_put (bytes : Bytes) (json : JSONOutputStream) :
    (json.put bytes).stack_ = json.stack_ := rfl

@[simp] theorem output_pop (json : JSONOutputStream) : json.pop.output_ = json.output_ := rfl

@[simp] theorem output_push (type : TokenType) (json : JSONOutputStream) :
    (json.push type).output_ = json.output_ := rfl

@[simp] theorem output_increment (json : JSONOutputStream) :
    json.increment.output_ = json.output_ := by
  unfold increment
  cases json.stack_ <;> rfl

/-- At most one separator is added. -/
theorem addSeparator_cases (json : JSONOutputStream) :
    json.addSeparator = json ∨ json.addSeparator = json.addComma ∨
      json.addSeparator = json.addColon := by
  unfold addSeparator
  split
  · split
    · exact .inr (.inl rfl)
    · exact .inl rfl
  · split
    · split
      · exact .inr (.inl rfl)
      · exact .inr (.inr rfl)
    · exact .inl rfl
  · exact .inl rfl

theorem output_addSeparator (json : JSONOutputStream) :
    ∃ sep, json.addSeparator.output_ = json.output_ ++ sep ∧ ∀ c ∈ sep, ignored c = true := by
  cases addSeparator_cases json with
  | inl h => exact ⟨[], by rw [h, List.append_nil], List.forall_mem_nil _⟩
  | inr h =>
    cases h with
    | inl h => exact ⟨lit ",", by rw [h]; rfl, by decide +kernel⟩
    | inr h => exact ⟨lit ":", by rw [h]; rfl, by decide +kernel⟩

theorem output_emplaceBack (t : Token) (json : JSONOutputStream) :
    ∃ sep, (json.emplaceBack t.1 t.2).output_ = json.output_ ++ (sep ++ lexeme t) ∧
      ∀ c ∈ sep, ignored c = true := by
  obtain ⟨sep, hsep, hignored⟩ := output_addSeparator json
  have hend : ∀ c ∈ ([] : Bytes), ignored c = true := List.forall_mem_nil _
  cases t with
  | mk type data =>
    cases type with
    | arrayEnd => exact ⟨[], by simp [emplaceBack, endArray, lexeme], hend⟩
    | objectEnd => exact ⟨[], by simp [emplaceBack, endObject, lexeme], hend⟩
    | arrayBegin => exact ⟨sep, by simp [emplaceBack, beginArray, lexeme, hsep], hignored⟩
    | objectBegin => exact ⟨sep, by simp [emplaceBack, beginObject, lexeme, hsep], hignored⟩
    | string => exact ⟨sep, by simp [emplaceBack, addString, lexeme, hsep], hignored⟩
    | number => exact ⟨sep, by simp [emplaceBack, addString, lexeme, hsep], hignored⟩
    | true => exact ⟨sep, by simp [emplaceBack, addTrue, lexeme, hsep], hignored⟩
    | false => exact ⟨sep, by simp [emplaceBack, addFalse, lexeme, hsep], hignored⟩
    | null => exact ⟨sep, by simp [emplaceBack, addNull, lexeme, hsep], hignored⟩

end JSONOutputStream

open JSONOutputStream

/-- The token that is read for a token that was written. -/
def readBack : Token → Token
  | (.string, data) => (.string, (data.take (2^31)).filter fun c => !unicodeEscaped c)
  | (.number, data) => (.string, (data.take (2^31)).filter fun c => !unicodeEscaped c)
  | (type, _) => (type, [])

theorem scan_skip {sep : Bytes} (h : ∀ c ∈ sep, ignored c = true) (json : JSONInputStream) :
    scan (sep ++ json) = scan json := by
  induction sep with
  | nil => rfl
  | cons c sep ih =>
    rw [List.cons_append, scan_ignored (h c List.mem_cons_self),
      ih fun d hd => h d (List.mem_cons_of_mem c hd)]

theorem scan_lexeme (t : Token) (json : JSONInputStream) :
    scan (lexeme t ++ json) = (readBack t :: (scan json).1, (scan json).2) := by
  have hstring : ∀ data, scan (34 :: (escapeString data ++ [34]) ++ json) =
      ((.string, (data.take (2^31)).filter fun c => !unicodeEscaped c) :: (scan json).1,
        (scan json).2) := by
    intro data
    rw [List.cons_append, List.append_assoc]
    exact scan_string (readStringLoop_escaped _ json)
  cases t with
  | mk type data =>
    cases type with
    | objectBegin => exact scan_bracket rfl json
    | objectEnd => exact scan_bracket rfl json
    | arrayBegin => exact scan_bracket rfl json
    | arrayEnd => exact scan_bracket rfl json
    | string => exact hstring data
    | number => exact hstring data
    | true => exact scan_true json
    | false => exact scan_false json
    | null => exact scan_null json

/-- The tokens that were written, in their order, are what is read. -/
theorem scan_write (doc : JSONObject) (json : JSONOutputStream) (rest : JSONInputStream) :
    ∃ text, (json.write doc).output_ = json.output_ ++ text ∧
      scan (text ++ rest) =
        (doc.map (fun t => readBack (t.type, t.data)) ++ (scan rest).1, (scan rest).2) := by
  induction doc generalizing json with
  | nil => exact ⟨[], (List.append_nil _).symm, rfl⟩
  | cons t doc ih =>
    obtain ⟨sep, hout, hsep⟩ := output_emplaceBack (t.type, t.data) json
    obtain ⟨text, htext, hscan⟩ := ih (json.emplaceBack t.type t.data)
    refine ⟨sep ++ lexeme (t.type, t.data) ++ text, ?_, ?_⟩
    · change ((json.emplaceBack t.type t.data).write doc).output_ = _
      rw [htext, hout]
      simp only [List.append_assoc]
    · rw [List.append_assoc, List.append_assoc, scan_skip hsep, scan_lexeme, hscan]
      rfl

theorem scan_written (doc : JSONObject) :
    scan (.ofString (JSONOutputStream.write doc {}).output_) =
      (doc.map fun t => readBack (t.type, t.data), .ok ()) := by
  obtain ⟨text, htext, hscan⟩ := scan_write doc {} []
  rw [List.append_nil] at hscan
  rw [htext]
  refine (scan_ignored (by decide) text).trans (hscan.trans ?_)
  rw [scan_finished rfl, List.append_nil]

theorem tokenOf_symbolOf_readBack (t : Token) : tokenOf (symbolOf (readBack t)) = readBack t := by
  cases t with
  | mk type data => cases type <;> rfl

theorem readBack_eq_iff {t : Token} (ht : tokenOf (symbolOf t) = t) :
    readBack t = t ↔ t.1 ≠ .number ∧ (t.1 = .string → ReadBack t.2) := by
  cases t with
  | mk type data =>
    cases type with
    | string =>
      rw [readBack, ← take_filter_eq_iff]
      simp
    | number => simp [readBack]
    | objectBegin | objectEnd | arrayBegin | arrayEnd | true | false | null =>
      exact iff_of_true ht ⟨nofun, nofun⟩

/-- A written document is parsed back exactly when each of its tokens is read back. -/
theorem parseJSON_written_iff (f : TokenForest) :
    parseJSON (JSONOutputStream.write (document f) {}).output_ = .ok (document f) ↔
      ∀ t ∈ document f, readBack (t.type, t.data) = (t.type, t.data) := by
  rw [parseJSON_ok_iff, scan_written]
  constructor
  · rintro ⟨-, g, hg, hdoc⟩
    have hread : (document f).map (fun t => readBack (t.type, t.data)) = g.symbols.map tokenOf := by
      rw [← hg, List.map_map, List.map_map]
      exact List.map_congr_left fun t _ => (tokenOf_symbolOf_readBack (t.type, t.data)).symm
    rw [← map_document g, ← hdoc] at hread
    exact List.map_inj_left.1 hread
  · intro h
    refine ⟨rfl, f, ?_, rfl⟩
    rw [List.map_congr_left h, map_document, List.map_map]
    simp [Function.comp_def]

theorem tokenOf_symbolOf_document {f : TokenForest} {t : JSONToken} (h : t ∈ document f) :
    tokenOf (symbolOf (t.type, t.data)) = (t.type, t.data) := by
  have hmem : (t.type, t.data) ∈ f.symbols.map tokenOf := by
    rw [← map_document]
    exact List.mem_map_of_mem h
  obtain ⟨s, -, hs⟩ := List.mem_map.1 hmem
  rw [← hs, symbolOf_tokenOf]

/-- A document whose strings have no character that is written as a `\u` escape comes back exactly
when it has no number, and no string on which the counter of `escapeString` wraps. -/
theorem parseJSON_write_iff {text : Bytes} {doc : JSONObject} (h : parseJSON text = .ok doc)
    (hplain : ∀ t ∈ doc, t.type = .string → ∀ c ∈ t.data, unicodeEscaped c = false) :
    parseJSON (JSONOutputStream.write doc {}).output_ = .ok doc ↔
      ∀ t ∈ doc, t.type ≠ .number ∧ (t.type = .string → t.data.length ≤ 2^31) := by
  obtain ⟨-, f, -, rfl⟩ := parseJSON_ok_iff.1 h
  rw [parseJSON_written_iff]
  refine forall_congr' fun t => forall_congr' fun ht => ?_
  rw [readBack_eq_iff (tokenOf_symbolOf_document ht)]
  refine and_congr_right fun _ => forall_congr' fun hstring => ?_
  exact and_iff_left (hplain t ht hstring)

/-- `{"a": [true, null]}`. -/
theorem parseJSON_write_sample :
    parseJSON (JSONOutputStream.write (document (.node .object .object (.atom (.string (lit "a"))
        (.node .array .array (.atom .true (.atom .null .nil)) .nil)) .nil)) {}).output_ =
      .ok (document (.node .object .object (.atom (.string (lit "a"))
        (.node .array .array (.atom .true (.atom .null .nil)) .nil)) .nil)) :=
  (@parseJSON_write_iff (lit "\x7b\"a\": [true, null]\x7d") _ (by decide +kernel)
    (by decide +kernel)).2 (by decide +kernel)

/-- The number 1 comes back as the string "1". -/
theorem number_not_written_back :
    ¬∀ text doc, parseJSON text = .ok doc →
      (∀ t ∈ doc, t.type = .string → ∀ c ∈ t.data, unicodeEscaped c = false) →
      parseJSON (JSONOutputStream.write doc {}).output_ = .ok doc := by
  intro h
  have hone : parseJSON (lit "1") = .ok [⟨.number, lit "1", 1⟩] := by decide +kernel
  have hread : parseJSON (lit "\"1\"") = .ok [⟨.string, lit "1", 1⟩] := by decide +kernel
  have hwritten := h _ _ hone (by decide)
  have hout : (JSONOutputStream.write [⟨.number, lit "1", 1⟩] {}).output_ = lit "\"1\"" := by
    decide +kernel
  rw [hout, hread] at hwritten
  revert hwritten
  decide

end Stx.Json
