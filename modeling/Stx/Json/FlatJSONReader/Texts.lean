import Stx.Json.FlatJSONReader.Pointers

/-! Reading the texts of RFC 8259. A call that returns has looked at no more tokens than it took, so
a text that breaks off at a tab cannot be read to its end. -/
namespace Stx.Json.FlatJSONReader
open Rfc8259 Rfc6901 JSONInputStream

/-- What a call that returns does depends on the tokens that it takes and on nothing behind them. -/
def Local {α : Type} (x : Sys FlatJSONReader α) : Prop :=
  ∀ s s' a, x s = (.ok a, s') → ∃ ts, scan s.json_ = (ts ++ (scan s'.json_).1, (scan s'.json_).2) ∧
    ∀ json ts' r, scan json = (ts ++ ts', r) →
      ∃ json', x { s with json_ := json } = (.ok a, { s' with json_ := json' }) ∧
        scan json' = (ts', r)

section locals
variable {α β : Type}

theorem Local.bind {x : Sys FlatJSONReader α} {f : α → Sys FlatJSONReader β} (hx : Local x)
    (hf : ∀ a, Local (f a)) : Local (x >>= f) := by
  intro s u b h
  obtain ⟨a, s', hrun, hrest⟩ := Sys.bind_eq_ok h
  obtain ⟨ts, htaken, hsame⟩ := hx s s' a hrun
  obtain ⟨ts', htaken', hsame'⟩ := hf a s' u b hrest
  refine ⟨ts ++ ts', ?_, fun json us r hjson => ?_⟩
  · rw [htaken, htaken', List.append_assoc]
  · rw [List.append_assoc] at hjson
    obtain ⟨json', hrun', hscan'⟩ := hsame json _ r hjson
    obtain ⟨json'', hrun'', hscan''⟩ := hsame' json' us r hscan'
    exact ⟨json'', (Sys.bind_of_ok hrun').trans hrun'', hscan''⟩

/-- A call that does not touch the stream. -/
theorem Local.of_steady {x : Sys FlatJSONReader α}
    (h : ∀ s json, x { s with json_ := json } = ((x s).1, { (x s).2 with json_ := json })) :
    Local x := by
  intro s s' a hrun
  have hjson : s'.json_ = s.json_ := by
    have hsame := h s s.json_
    rw [hrun] at hsame
    exact (congrArg (fun p => p.2.json_) hsame)
  refine ⟨[], by rw [hjson]; rfl, fun json ts r hscan => ⟨json, ?_, hscan⟩⟩
  rw [h, hrun]

theorem local_pure (a : α) : Local (pure a) := .of_steady fun _ _ => rfl

theorem local_reads (r : Result α) : Local (.reads fun _ => r) := .of_steady fun _ _ => rfl

theorem local_pop : Local pop := .of_steady fun _ _ => rfl

theorem local_func (value : Bytes) : Local (func value) := .of_steady fun _ _ => rfl

theorem local_push (str : Bytes) : Local (push str) := by
  apply Local.of_steady
  intro s json
  unfold push
  cases JSONPointer.push s.path str <;> rfl

theorem local_nextToken : Local nextToken := by
  intro s s' t h
  cases hread : readNextToken s.json_ with
  | raise e => rw [nextToken, hread] at h; cases h
  | diverge => rw [nextToken, hread] at h; cases h
  | ok next =>
    cases next with
    | none => rw [nextToken, hread] at h; cases h
    | some p =>
      rw [nextToken, hread] at h
      cases h
      refine ⟨[p.1], scan_token hread, fun json ts r hscan => ?_⟩
      obtain ⟨left, hleft, hscan', -⟩ := readNextToken_of_scan hscan
      exact ⟨left, by rw [nextToken, hleft], hscan'⟩

theorem local_pushKey (key : Token) : Local (pushKey key) := by
  unfold pushKey
  cases key.1 with
  | string | number => exact local_push key.2
  | true => exact local_push (lit "true")
  | false => exact local_push (lit "false")
  | null => exact local_push (lit "null")
  | objectBegin | objectEnd | arrayBegin | arrayEnd => exact local_reads _

theorem local_readValue {object array : Sys FlatJSONReader Unit} (hobject : Local object)
    (harray : Local array) (value : Bytes) (message : String) (type : TokenType) :
    Local (readValue object array value message type) := by
  cases type with
  | objectBegin => exact hobject
  | arrayBegin => exact harray
  | string | number | true | false | null => exact local_func value
  | objectEnd | arrayEnd => exact local_reads _

theorem local_loops (fuel : Nat) : Local (readObject fuel) ∧ ∀ i, Local (readArray fuel i) := by
  induction fuel with
  | zero => exact ⟨local_reads _, fun i => local_reads _⟩
  | succ fuel ih =>
    constructor
    · rw [readObject]
      refine local_nextToken.bind fun key => ?_
      split
      · exact local_pure ()
      · refine (local_pushKey key).bind fun _ => local_nextToken.bind fun value => ?_
        refine (local_readValue ih.1 (ih.2 0) _ _ _).bind fun _ => ?_
        exact local_pop.bind fun _ => ih.1
    · intro i
      rw [readArray]
      refine local_nextToken.bind fun elem => (local_push _).bind fun _ => ?_
      split
      · exact local_pure ()
      · refine (local_readValue ih.1 (ih.2 0) _ _ _).bind fun _ => ?_
        exact local_pop.bind fun _ => ih.2 _

end locals

def IsContainer : Value → Prop
  | .array _ => True
  | .object _ => True
  | _ => False

/-- The reading loop of a container, behind its first token. -/
def readRoot (fuel : Nat) (type : TokenType) : Sys FlatJSONReader Unit :=
  match type with
  | .objectBegin => readObject fuel
  | .arrayBegin => readArray fuel 0
  | _ => raise "invalid JSON. root node must be OBJECT or ARRAY"

theorem read_eq (json : JSONInputStream) :
    read { json_ := json } =
      (nextToken >>= fun root => readRoot (json.length+1) root.1) { json_ := json } := by
  rfl

theorem local_root (fuel : Nat) : Local (nextToken >>= fun root => readRoot fuel root.1) := by
  refine local_nextToken.bind fun root => ?_
  unfold readRoot
  cases root.1 with
  | objectBegin => exact (local_loops fuel).1
  | arrayBegin => exact (local_loops fuel).2 0
  | objectEnd | arrayEnd | string | number | true | false | null => exact local_reads _

/-- All tokens of a value are there: the reader walks over it. -/
theorem reads_root {v : Value} (hroot : IsContainer v) (hkeys : ShortKeys v)
    {json : JSONInputStream} {ts : List Token} {r : Result Unit}
    (h : scan json = (tokens (raw v) ++ ts, r)) {fuel : Nat}
    (hfuel : (tokens (raw v)).length ≤ fuel) :
    Reads (nextToken >>= fun root => readRoot fuel root.1) { json_ := json } (walk [] v) ts r := by
  obtain ⟨t, rest, htokens, -, -⟩ := tokens_cons (raw v)
  rw [htokens] at h hfuel
  obtain ⟨left, hread, hscan⟩ := @nextToken_bind { json_ := json } _ _ _ _ h
    fun root => readRoot fuel root.1
  have hvalue := reads_value v hkeys fuel [] "" { json_ := left } [] ts r t rest htokens hscan rfl
    (Nat.le_of_succ_le hfuel)
  rw [Reads, hread]
  cases v with
  | array elems =>
    rw [raw, Json.map, tokens, forest, tokensOf_node] at htokens
    cases htokens
    exact hvalue
  | object members =>
    rw [raw, Json.map, tokens, forest, tokensOf_node] at htokens
    cases htokens
    exact hvalue
  | null | true | false | string _ | number _ => exact hroot.elim

/-- A text has a character for every token. -/
theorem length_terminalTokens_le (f : Str → Bytes) (spaced : Spaced) :
    (terminalTokens f (spaced.map Prod.snd)).length ≤ (spell spaced).length := by
  induction spaced with
  | nil => exact Nat.le_refl _
  | cons p spaced ih =>
    cases p with
    | mk w t =>
      have htext : 0 < t.text.length := by
        cases t with
        | number n =>
          obtain ⟨c, x, hc, -⟩ := n.text_cons
          rw [Terminal.text, hc]
          exact Nat.succ_pos _
        | beginArray | endArray | beginObject | endObject | nameSeparator | valueSeparator | true
        | false | null | string _ => exact Nat.succ_pos _
      rw [spell, List.length_append, List.length_append, List.map_cons, terminalTokens,
        List.filterMap_cons]
      cases terminalToken f t with
      | none => exact Nat.le_add_left_of_le ih
      | some token =>
        have hlen : (List.filterMap (terminalToken f) (spaced.map Prod.snd)).length ≤ _ := ih
        simp only [List.length_cons]
        omega

/-- The last terminal of a container has a token. -/
theorem terminalTokens_suffix {v : Value} (hroot : IsContainer v) {a b : List Terminal}
    (h : terminals v = a ++ b) (hb : b ≠ []) : terminalTokens kept b ≠ [] := by
  have hend : ∃ init e, terminals v = init ++ [e] ∧ (terminalToken kept e).isSome := by
    cases v with
    | array elems =>
      cases elems with
      | nil => exact ⟨[.beginArray], .endArray, rfl, rfl⟩
      | cons v elems => exact ⟨_, .endArray, by rw [terminals, ← List.cons_append], rfl⟩
    | object members =>
      cases members with
      | nil => exact ⟨[.beginObject], .endObject, rfl, rfl⟩
      | cons m members =>
        refine ⟨_, .endObject, by rw [terminals, ← List.cons_append, ← List.cons_append,
          ← List.cons_append], rfl⟩
    | null | true | false | string _ | number _ => exact hroot.elim
  obtain ⟨init, e, hlast, htoken⟩ := hend
  have hmem : e ∈ b := by
    have hget := congrArg List.getLast? (hlast.symm.trans h)
    rw [List.getLast?_concat, List.getLast?_append_of_ne_nil _ hb] at hget
    exact List.mem_of_getLast? hget.symm
  obtain ⟨token, ht⟩ := Option.isSome_iff_exists.1 htoken
  exact List.ne_nil_of_mem (List.mem_filterMap.2 ⟨e, hmem, ht⟩)

/-- The text is read, and the pointers that are reported are those of its scalars in their order. -/
def ReadsPointers (t : Text) : Prop :=
  ∃ s, read { json_ := .ofString t.bytes } = (.ok (), s) ∧
    s.calls.map Prod.fst = (leaves Str.decode [] t.value).map pointer

theorem tokens_raw_le (t : Text) :
    (tokens (raw t.value)).length ≤ (JSONInputStream.ofString t.bytes).length+1 := by
  have hlen := length_terminalTokens_le kept t.spaced
  rw [t.spaced_eq] at hlen
  rw [raw, tokens_map, ofString, List.length_cons, Text.bytes, List.length_append]
  omega

section text
variable {t : Text} (hroot : IsContainer t.value) (hkeys : ShortKeys t.value)
include hroot hkeys

theorem readsPointers_of_not_tabbed (htab : ¬Tabbed t.spaced) :
    ReadsPointers t ↔ Reached t.value := by
  have hnumber : NumberEnds (blanks t.trailing) := by
    have hblanks := @numberEnds_blanks t.trailing [] (.inr rfl)
    rwa [List.append_nil] at hblanks
  have hscan : scan (.ofString t.bytes) =
      (tokens (raw t.value) ++ (scan (blanks t.trailing)).1, (scan (blanks t.trailing)).2) := by
    refine (scan_ignored (by decide) _).trans ?_
    rw [Text.bytes, scan_spell (isChain_spaced t) htab hnumber, t.spaced_eq, raw, tokens_map]
  obtain ⟨s, hrun, -, hcalls, -⟩ := reads_root hroot hkeys hscan (tokens_raw_le t)
  rw [← calls_eq_leaves_iff, ReadsPointers, read_eq, hrun]
  constructor
  · rintro ⟨s', hs', hpointers⟩
    cases hs'
    rw [hcalls] at hpointers
    exact List.map_injective_iff.2 pointer_injective hpointers
  · intro h
    exact ⟨s, rfl, by rw [hcalls, h]; rfl⟩

/-- At a tab the reader has not seen the end of the root. -/
theorem not_readsPointers_of_tabbed (htab : Tabbed t.spaced) : ¬ReadsPointers t := by
  rintro ⟨s, hrun, -⟩
  obtain ⟨a, b, hsplit, hb, hscan⟩ :=
    scan_spell_tab (isChain_spaced t) htab (blanks t.trailing)
  rw [t.spaced_eq] at hsplit
  have htruncated : scan (.ofString t.bytes) = (terminalTokens kept a, .raise (unexpectedChar 9)) :=
    (scan_ignored (by decide) _).trans hscan
  have hfull : tokens (raw t.value) = terminalTokens kept a ++ terminalTokens kept b := by
    rw [raw, tokens_map, hsplit, terminalTokens_append]
  rw [read_eq] at hrun
  obtain ⟨taken, htaken, hsame⟩ := local_root _ _ _ _ hrun
  rw [htruncated] at htaken
  -- the same value without blanks has the tokens that are missing
  have hplain : ¬HasTab (Text.plain t.value) := by simp [HasTab, Tabbed, Text.plain]
  have hwhole : scan (.ofString (Text.plain t.value).bytes) =
      (taken ++ ((scan s.json_).1 ++ terminalTokens kept b), .ok ()) := by
    rw [scan_text hplain, ← List.append_assoc, ← (Prod.mk.inj htaken).1, ← hfull, raw, tokens_map]
    rfl
  obtain ⟨json, hrun', hleft⟩ := hsame _ _ _ hwhole
  have hread := hwhole
  rw [← List.append_assoc, ← (Prod.mk.inj htaken).1, ← hfull, ← List.append_nil (tokens _)] at hread
  obtain ⟨s', hrun'', -, -, hend⟩ := reads_root hroot hkeys hread (tokens_raw_le t)
  have hsame' := hrun'.symm.trans hrun''
  rw [← (Prod.mk.inj hsame').2, hleft] at hend
  exact terminalTokens_suffix hroot hsplit hb (List.append_eq_nil_iff.1 (Prod.mk.inj hend).1).2

end text

/-- The pointers of a text that is an object or an array are reported exactly when no tab stands in
front of its last token, and no scalar behind the end of a nested array, below an index that wraps
or below a key with a `\u` escape. -/
theorem readsPointers_iff {t : Text} (hroot : IsContainer t.value) (hkeys : ShortKeys t.value) :
    ReadsPointers t ↔ ¬Tabbed t.spaced ∧ Reached t.value := by
  by_cases htab : Tabbed t.spaced
  · exact iff_of_false (not_readsPointers_of_tabbed hroot hkeys htab) fun h => h.1 htab
  · rw [readsPointers_of_not_tabbed hroot hkeys htab]
    exact (and_iff_right htab).symm

/-- `{"a~": 1, "b": [null]}` without blanks. -/
def keyedText : Text := .plain (.object
  [([.plain 97 (by decide), .plain 126 (by decide)],
      .number { minus := false, int := .digits 0 [], frac := none, exp := none }),
    ([.plain 98 (by decide)], .array [.null])])

theorem keyedText_readsPointers : ReadsPointers keyedText :=
  (@readsPointers_iff keyedText trivial
    (by simp [keyedText, Text.plain, ShortKeys, ShortKeysMembers, ShortKeysElems, kept, keptChar,
      Rfc6901.escape, Rfc6901.escapeChar])).2
    (by simp [keyedText, Text.plain, Tabbed, Reached, ReachedMembers, ReachedElems, hasLeafElems,
      hasLeafMembers, hasArray, Str.hasUnicode, Item.isUnicode])

/-- `[[1],2]`. -/
def nestedText : Text := .plain (.array
  [.array [.number { minus := false, int := .digits 0 [], frac := none, exp := none }],
    .number { minus := false, int := .digits 1 [], frac := none, exp := none }])

theorem nestedText_not_readsPointers : ¬ReadsPointers nestedText := by
  rintro ⟨s, hrun, hpointers⟩
  have hcalls : pathsOf nestedText.bytes = some [lit "/0/0", lit "/0/1"] := by decide +kernel
  rw [pathsOf, hrun, Option.some.injEq, hpointers] at hcalls
  revert hcalls
  decide

end Stx.Json.FlatJSONReader
