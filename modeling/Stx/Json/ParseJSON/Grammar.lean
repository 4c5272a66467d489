import Stx.Json.ParseJSON.Spans
import Stx.Json.Values

/-! The tokens of the texts of RFC 8259. The reader takes every text apart as the grammar does,
except that a tab between two tokens is an unexpected character and a `\u` escape adds nothing to
its string. -/
namespace Stx.Json
open Brackets Rfc8259 JSONInputStream

/-- What `readString` keeps of an item. -/
def keptChar : Item → Option UInt8
  | .plain b _ => some b
  | .escape e => some e.char
  | .unicode .. => none

def kept (s : Str) : Bytes := s.filterMap keptChar

theorem unescape_letter (e : Escape) : unescape e.letter = some e.char := by
  cases e <;> rfl

theorem readStringLoop_body (s : Str) (json : JSONInputStream) :
    readStringLoop 0 (s.body ++ 34 :: json) = .ok (kept s, json) := by
  induction s with
  | nil => exact readStringLoop_quote json
  | cons i s ih =>
    have hbody : Str.body (i :: s) = i.text ++ Str.body s := rfl
    rw [hbody, List.append_assoc]
    cases i with
    | plain b hb =>
      have hzero : b ≠ 0 := by
        rintro rfl
        exact absurd hb.1 (by decide)
      rw [Item.text, List.singleton_append, readStringLoop_plain hb.2.2 hb.2.1 hzero, ih]
      rfl
    | escape e =>
      rw [Item.text, List.cons_append, List.singleton_append,
        readStringLoop_escape (unescape_letter e), ih]
      rfl
    | unicode d₁ d₂ d₃ d₄ => exact (readStringLoop_unicode _ _ _ _ _).trans ih

theorem utf8_length_pos (c : Nat) : 0 < (utf8 c).length := by
  unfold utf8
  split
  · exact Nat.one_pos
  · split
    · exact Nat.two_pos
    · split <;> exact Nat.succ_pos _

theorem kept_unicode (d₁ d₂ d₃ d₄ : HexDigit) (s : Str) :
    kept (.unicode d₁ d₂ d₃ d₄ :: s) = kept s := rfl

theorem hasUnicode_unicode (d₁ d₂ d₃ d₄ : HexDigit) (s : Str) :
    Str.hasUnicode (.unicode d₁ d₂ d₃ d₄ :: s) = true := rfl

theorem length_kept_le (s : Str) : (kept s).length ≤ s.decode.length := by
  fun_induction Str.decode s with
  | case1 => exact Nat.le_refl _
  | case2 b h rest ih => exact Nat.succ_le_succ ih
  | case3 e rest ih => exact Nat.succ_le_succ ih
  | case4 d₁ d₂ d₃ d₄ => exact Nat.zero_le _
  | case5 d₁ d₂ d₃ d₄ e₁ e₂ e₃ e₄ rest h ih =>
    rw [List.length_append]
    exact Nat.le_add_left_of_le ih
  | case6 d₁ d₂ d₃ d₄ e₁ e₂ e₃ e₄ rest h ih =>
    rw [List.length_append]
    exact Nat.le_add_left_of_le ih
  | case7 d₁ d₂ d₃ d₄ item rest h ih =>
    rw [List.length_append]
    exact Nat.le_add_left_of_le ih

/-- With a `\u` escape the string loses a character. -/
theorem length_kept_lt {s : Str} (h : s.hasUnicode = true) :
    (kept s).length < s.decode.length := by
  fun_induction Str.decode s with
  | case1 => cases h
  | case2 b hb rest ih => exact Nat.succ_lt_succ (ih h)
  | case3 e rest ih => exact Nat.succ_lt_succ (ih h)
  | case4 d₁ d₂ d₃ d₄ => exact utf8_length_pos _
  | case5 d₁ d₂ d₃ d₄ e₁ e₂ e₃ e₄ rest hcode =>
    rw [List.length_append, kept_unicode, kept_unicode]
    exact Nat.lt_of_le_of_lt (length_kept_le rest) (Nat.lt_add_of_pos_left (utf8_length_pos _))
  | case6 d₁ d₂ d₃ d₄ e₁ e₂ e₃ e₄ rest hcode =>
    rw [List.length_append, kept_unicode]
    exact Nat.lt_of_le_of_lt (length_kept_le _) (Nat.lt_add_of_pos_left (utf8_length_pos _))
  | case7 d₁ d₂ d₃ d₄ item rest hitem =>
    rw [List.length_append, kept_unicode]
    exact Nat.lt_of_le_of_lt (length_kept_le _) (Nat.lt_add_of_pos_left (utf8_length_pos _))

theorem kept_eq_decode_iff (s : Str) : kept s = s.decode ↔ s.hasUnicode = false := by
  constructor
  · intro h
    by_contra hunicode
    have hlt := length_kept_lt (Bool.eq_true_of_not_eq_false hunicode)
    rw [h] at hlt
    exact Nat.lt_irrefl _ hlt
  · intro h
    induction s with
    | nil => rfl
    | cons i s ih =>
      cases i with
      | plain b hb => exact congrArg (b :: ·) (ih h)
      | escape e => exact congrArg (e.char :: ·) (ih h)
      | unicode d₁ d₂ d₃ d₄ => exact absurd h (by simp [hasUnicode_unicode])

/- Numbers. -/

theorem inNumber_of_mem {c : UInt8} (h : c ∈ numberChars) : inNumber c = true := by
  have hall : ∀ d ∈ numberChars, inNumber d = true := by decide +kernel
  exact hall c h

/-- The stream does not go on with a number, behind blanks. -/
def NumberEnds (json : JSONInputStream) : Prop := (readNumber json).1 = []

theorem readNumber_append {text : Bytes} (h : ∀ c ∈ text, inNumber c = true)
    (json : JSONInputStream) :
    readNumber (text ++ json) = (text ++ (readNumber json).1, (readNumber json).2) := by
  induction text with
  | nil => rfl
  | cons c text ih =>
    rw [List.cons_append, readNumber, if_pos (h c List.mem_cons_self),
      ih fun d hd => h d (List.mem_cons_of_mem c hd)]
    rfl

/-- Only blanks are dropped behind a number. -/
theorem scan_readNumber {json : JSONInputStream} (h : NumberEnds json) :
    scan (readNumber json).2 = scan json := by
  induction json with
  | nil => rfl
  | cons c json ih =>
    rw [NumberEnds, readNumber] at h
    rw [readNumber]
    by_cases hc : inNumber c = true
    · rw [if_pos hc] at h
      cases h
    · rw [if_neg hc] at h ⊢
      by_cases hspace : c = 32
      · rw [if_pos hspace] at h ⊢
        rw [ih h, hspace, scan_ignored (by decide)]
      · rw [if_neg hspace]

/-- Characters of a number, the first of which begins one, are scanned together. -/
theorem scan_numeral {c : UInt8} {x : Bytes} (hc : startsNumber c = true)
    (hx : ∀ d ∈ x, inNumber d = true) {json : JSONInputStream} (h : NumberEnds json) :
    scan (c :: x ++ json) = ((.number, c :: x) :: (scan json).1, (scan json).2) := by
  have hall : ∀ d ∈ c :: x, inNumber d = true :=
    List.forall_mem_cons.2 ⟨inNumber_of_startsNumber hc, hx⟩
  have hread := readNumber_append hall json
  rw [h, List.append_nil] at hread
  have hstart : bracket c = none ∧ ignored c = false := by
    have hmem : c ∈ lit "-0123456789" := by simpa [startsNumber] using hc
    have hsub : ∀ d ∈ lit "-0123456789", bracket d = none ∧ ignored d = false := by
      decide +kernel
    exact hsub c hmem
  rw [← scan_readNumber h]
  apply scan_token
  rw [List.cons_append] at hread ⊢
  simp only [readNextToken, hstart, hc, hread, if_true, Bool.false_eq_true, if_false]

theorem scan_number (n : Number) {json : JSONInputStream} (h : NumberEnds json) :
    scan (n.text ++ json) = ((.number, n.text) :: (scan json).1, (scan json).2) := by
  obtain ⟨c, x, htext, hc⟩ := n.text_cons
  have hstart : startsNumber c = true := by
    have hall : ∀ d ∈ 45 :: digitChars, startsNumber d = true := by decide +kernel
    exact hall c (List.mem_cons.2 hc)
  have hx : ∀ d ∈ x, inNumber d = true := by
    intro d hd
    exact inNumber_of_mem (n.mem_text (htext ▸ List.mem_cons_of_mem c hd))
  rw [htext]
  exact scan_numeral hstart hx h

theorem numberEnds_cons {c : UInt8} (hc : inNumber c = false) (hspace : c ≠ 32)
    (json : JSONInputStream) : NumberEnds (c :: json) := by
  rw [NumberEnds, readNumber, if_neg (by simp [hc]), if_neg hspace]

/-- A blank other than a space ends a number, whatever comes next. -/
theorem numberEnds_blanks {w : List Blank} {json : JSONInputStream}
    (h : .tab ∈ w ∨ NumberEnds json) : NumberEnds (blanks w ++ json) := by
  induction w with
  | nil => simpa [blanks] using h
  | cons b w ih =>
    cases b with
    | space =>
      have hrest : NumberEnds (blanks w ++ json) := ih (by simpa using h)
      exact hrest
    | tab => exact numberEnds_cons (by decide) (by decide) _
    | lineFeed => exact numberEnds_cons (by decide) (by decide) _
    | carriageReturn => exact numberEnds_cons (by decide) (by decide) _

theorem numberEnds_structural {t : Terminal} (h : t.isStructural) (json : JSONInputStream) :
    NumberEnds (t.text ++ json) := by
  cases t with
  | beginArray | endArray | beginObject | endObject | nameSeparator | valueSeparator =>
    exact numberEnds_cons (by decide) (by decide) json
  | true | false | null | string _ | number _ => cases h

/- Blanks. -/

theorem scan_blanks {w : List Blank} (h : .tab ∉ w) (json : JSONInputStream) :
    scan (blanks w ++ json) = scan json := by
  induction w with
  | nil => rfl
  | cons b w ih =>
    rw [List.mem_cons, not_or] at h
    refine (scan_ignored ?_ _).trans (ih h.2)
    cases b with
    | tab => exact absurd rfl h.1
    | space | lineFeed | carriageReturn => decide

theorem scan_tab {w : List Blank} (h : .tab ∈ w) (json : JSONInputStream) :
    scan (blanks w ++ json) = ([], .raise (unexpectedChar 9)) := by
  induction w with
  | nil => cases h
  | cons b w ih =>
    cases b with
    | tab => exact scan_raise rfl
    | space => exact (scan_ignored (by decide) _).trans (ih (by simpa using h))
    | lineFeed => exact (scan_ignored (by decide) _).trans (ih (by simpa using h))
    | carriageReturn => exact (scan_ignored (by decide) _).trans (ih (by simpa using h))

/- Terminals. -/

/-- The token of a terminal, with the strings as `f` reads them. Separators have none. -/
def terminalToken (f : Str → Bytes) : Terminal → Option Token
  | .beginArray => some (.arrayBegin, [])
  | .endArray => some (.arrayEnd, [])
  | .beginObject => some (.objectBegin, [])
  | .endObject => some (.objectEnd, [])
  | .nameSeparator => none
  | .valueSeparator => none
  | .true => some (.true, [])
  | .false => some (.false, [])
  | .null => some (.null, [])
  | .string s => some (.string, f s)
  | .number n => some (.number, n.text)

def terminalTokens (f : Str → Bytes) (ts : List Terminal) : List Token :=
  ts.filterMap (terminalToken f)

theorem scan_terminal (t : Terminal) {json : JSONInputStream} (h : t.isNumber → NumberEnds json) :
    scan (t.text ++ json) = (terminalTokens kept [t] ++ (scan json).1, (scan json).2) := by
  cases t with
  | beginArray | endArray | beginObject | endObject => exact scan_bracket rfl json
  | nameSeparator | valueSeparator => exact scan_ignored (by decide) json
  | true => exact scan_true json
  | false => exact scan_false json
  | null => exact scan_null json
  | string s =>
    rw [Terminal.text, List.cons_append, List.append_assoc]
    exact scan_string (readStringLoop_body s json)
  | number n => exact scan_number n (h rfl)

abbrev Spaced := List (List Blank × Terminal)

def Tabbed (spaced : Spaced) : Prop := ∃ p ∈ spaced, .tab ∈ p.1

section spaced
variable {spaced : Spaced}

theorem tabbed_cons {w : List Blank} {t : Terminal} :
    Tabbed ((w, t) :: spaced) ↔ .tab ∈ w ∨ Tabbed spaced := by
  simp [Tabbed]

/-- What stands behind a number ends it. -/
theorem numberEnds_spell {t : Terminal} (hchain : (t :: spaced.map Prod.snd).IsChain Apart)
    (ht : t.isNumber) {rest : JSONInputStream} (hrest : NumberEnds rest ∨ Tabbed spaced) :
    NumberEnds (spell spaced ++ rest) := by
  cases spaced with
  | nil =>
    cases hrest with
    | inl h => exact h
    | inr h =>
      obtain ⟨p, hp, -⟩ := h
      cases hp
  | cons p spaced =>
    cases p with
    | mk w t' =>
      have hapart := (List.isChain_cons.1 hchain).1 t' rfl ht
      rw [spell, List.append_assoc, List.append_assoc]
      exact numberEnds_blanks (.inr (numberEnds_structural hapart _))

/-- The tokens of a spelling without tabs are those of its terminals. -/
theorem scan_spell (hchain : (spaced.map Prod.snd).IsChain Apart) (htab : ¬Tabbed spaced)
    {rest : JSONInputStream} (hrest : NumberEnds rest) :
    scan (spell spaced ++ rest) =
      (terminalTokens kept (spaced.map Prod.snd) ++ (scan rest).1, (scan rest).2) := by
  induction spaced with
  | nil => rfl
  | cons p spaced ih =>
    cases p with
    | mk w t =>
      rw [tabbed_cons, not_or] at htab
      rw [List.map_cons] at hchain
      have hnext := ih (List.isChain_cons.1 hchain).2 htab.2
      rw [spell, List.append_assoc, List.append_assoc, scan_blanks htab.1,
        scan_terminal t fun ht => numberEnds_spell hchain ht (.inl hrest), hnext]
      simp only [terminalTokens, List.map_cons, List.filterMap_cons, ← List.append_assoc,
        List.filterMap_nil]
      cases terminalToken kept t <;> rfl

/-- A tab in front of a terminal raises behind the tokens of the terminals before it. -/
theorem scan_spell_tab (hchain : (spaced.map Prod.snd).IsChain Apart) (htab : Tabbed spaced)
    (rest : JSONInputStream) :
    ∃ a b, spaced.map Prod.snd = a ++ b ∧ b ≠ [] ∧
      scan (spell spaced ++ rest) = (terminalTokens kept a, .raise (unexpectedChar 9)) := by
  induction spaced with
  | nil =>
    obtain ⟨p, hp, -⟩ := htab
    cases hp
  | cons p spaced ih =>
    cases p with
    | mk w t =>
      rw [tabbed_cons] at htab
      rw [List.map_cons] at hchain ⊢
      rw [spell, List.append_assoc, List.append_assoc]
      by_cases hw : .tab ∈ w
      · exact ⟨[], _, rfl, List.cons_ne_nil _ _, scan_tab hw _⟩
      · have hlater := htab.resolve_left hw
        obtain ⟨a, b, hsplit, hb, hscan⟩ := ih (List.isChain_cons.1 hchain).2 hlater
        refine ⟨t :: a, b, by rw [hsplit]; rfl, hb, ?_⟩
        rw [scan_blanks hw, scan_terminal t fun ht => numberEnds_spell hchain ht (.inr hlater), hscan]
        simp only [terminalTokens, List.filterMap_cons, List.filterMap_nil]
        cases terminalToken kept t <;> rfl

end spaced

/- Texts. -/

def HasTab (t : Text) : Prop := Tabbed t.spaced ∨ .tab ∈ t.trailing

theorem isChain_spaced (t : Text) : (t.spaced.map Prod.snd).IsChain Apart := by
  rw [t.spaced_eq]
  exact isChain_terminals t.value

theorem scan_text {t : Text} (h : ¬HasTab t) :
    scan (.ofString t.bytes) = (terminalTokens kept (terminals t.value), .ok ()) := by
  rw [HasTab, not_or] at h
  have hend : scan (blanks t.trailing) = ([], .ok ()) := by
    have hblanks := scan_blanks h.2 []
    rw [List.append_nil] at hblanks
    rw [hblanks, scan_finished rfl]
  have hnumber : NumberEnds (blanks t.trailing) := by
    have hblanks := @numberEnds_blanks t.trailing [] (.inr rfl)
    rwa [List.append_nil] at hblanks
  refine (scan_ignored (by decide) _).trans ?_
  rw [Text.bytes, scan_spell (isChain_spaced t) h.1 hnumber, hend, t.spaced_eq, List.append_nil]

theorem scan_text_tab {t : Text} (h : HasTab t) :
    (scan (.ofString t.bytes)).2 = .raise (unexpectedChar 9) := by
  have hskip : scan (.ofString t.bytes) = scan t.bytes := scan_ignored (by decide) _
  rw [hskip, Text.bytes]
  by_cases htab : Tabbed t.spaced
  · obtain ⟨a, b, -, -, hscan⟩ := scan_spell_tab (isChain_spaced t) htab (blanks t.trailing)
    rw [hscan]
  · have htrailing := h.resolve_left htab
    have hscan := scan_tab htrailing []
    have hnumber := @numberEnds_blanks t.trailing [] (.inl htrailing)
    rw [List.append_nil] at hscan hnumber
    rw [scan_spell (isChain_spaced t) htab hnumber, hscan]

/- Values. -/

section values
variable (f : Str → Bytes)

@[simp] theorem terminalTokens_append (ts us : List Terminal) :
    terminalTokens f (ts ++ us) = terminalTokens f ts ++ terminalTokens f us :=
  List.filterMap_append

theorem tokensOf_elems {elems : List Value}
    (ih : ∀ v ∈ elems, tokens (v.map f Number.text) = terminalTokens f (terminals v)) :
    tokensOf (forestElems (Json.mapElems f Number.text elems)) =
      terminalTokens f (terminalsElems elems) := by
  induction elems with
  | nil => rfl
  | cons v elems ihe =>
    have hrest := ihe fun w hw => ih w (List.mem_cons_of_mem v hw)
    rw [Json.mapElems, forestElems, tokensOf_forest, ih v List.mem_cons_self, hrest,
      ← terminalTokens_append]
    rfl

theorem tokensOf_members {members : List (Str × Value)}
    (ih : ∀ m ∈ members, tokens (m.2.map f Number.text) = terminalTokens f (terminals m.2)) :
    tokensOf (forestMembers (Json.mapMembers f Number.text members)) =
      terminalTokens f (terminalsMembers members) := by
  induction members with
  | nil => rfl
  | cons m members ihm =>
    have hrest := ihm fun w hw => ih w (List.mem_cons_of_mem m hw)
    cases m with
    | mk k v =>
      have hv : tokens (v.map f Number.text) = _ := ih (k, v) List.mem_cons_self
      rw [Json.mapMembers, forestMembers, tokensOf_atom, tokensOf_forest, hv, hrest,
        ← terminalTokens_append]
      rfl

/-- The tokens of a value are those of its terminals. -/
theorem tokens_map (v : Value) :
    tokens (v.map f Number.text) = terminalTokens f (terminals v) := by
  induction v using Json.induction with
  | null | true | false => rfl
  | string s => rfl
  | number n => rfl
  | array elems ih =>
    rw [tokens, Json.map, forest, tokensOf_node, tokensOf_elems f ih]
    cases elems with
    | nil => rfl
    | cons v elems =>
      simp [terminals, terminalsElems, terminalTokens, List.filterMap_cons, terminalToken, tokenOf]
  | object members ih =>
    rw [tokens, Json.map, forest, tokensOf_node, tokensOf_members f ih]
    cases members with
    | nil => rfl
    | cons m members =>
      simp [terminals, terminalsMembers, terminalTokens, List.filterMap_cons, terminalToken, tokenOf]

end values

/-- The string terminals are read as the grammar means them when none has a `\u` escape. -/
theorem terminalTokens_eq_iff (ts : List Terminal) :
    terminalTokens kept ts = terminalTokens Str.decode ts ↔
      ∀ s, .string s ∈ ts → s.hasUnicode = false := by
  induction ts with
  | nil => simp [terminalTokens]
  | cons t ts ih =>
    cases t with
    | string s =>
      simp only [terminalTokens, List.filterMap_cons, terminalToken, List.cons.injEq,
        Prod.mk.injEq, true_and, kept_eq_decode_iff, List.mem_cons, Terminal.string.injEq]
      simp only [terminalTokens] at ih
      rw [ih]
      constructor
      · rintro ⟨hs, hts⟩ s' (rfl | hmem)
        · exact hs
        · exact hts s' hmem
      · exact fun h => ⟨h s (.inl rfl), fun s' hmem => h s' (.inr hmem)⟩
    | beginArray | endArray | beginObject | endObject | nameSeparator | valueSeparator | true
    | false | null | number _ =>
      simpa [terminalTokens, List.filterMap_cons, terminalToken] using ih

/-- The value that a text has by the grammar. -/
def valueOf (t : Text) : JSONValue := t.value.map Str.decode Number.text

/-- The text is parsed to the tokens of the value in pre-order, each with its data and with the
number of tokens that belong to it. -/
def ParsesTo (text : Bytes) (v : JSONValue) : Prop :=
  ∃ doc, parseJSON text = .ok doc ∧
    doc.map (fun t => ((t.type, t.data), t.size.toNat)) =
      (forest v .nil).spans.map fun x => (tokenOf x.1, x.2)

theorem map_size_document {f : TokenForest} (hlen : f.spans.length < 2^32) :
    (document f).map (fun t => ((t.type, t.data), t.size.toNat)) =
      f.spans.map fun x => (tokenOf x.1, x.2) := by
  rw [document, List.map_map]
  refine List.map_congr_left fun x hx => ?_
  obtain ⟨i, hi⟩ := List.mem_iff_getElem?.1 hx
  have hsize := (document_of_span hlen hi).2
  change ((cell x).size.toNat = x.2) at hsize
  change ((tokenOf x.1), (cell x).size.toNat) = _
  rw [hsize]

/-- The size of the root would not fit. -/
theorem length_lt_of_sizes {v : JSONValue} {doc : JSONObject}
    (h : doc.map (fun t => ((t.type, t.data), t.size.toNat)) =
      (forest v .nil).spans.map fun x => (tokenOf x.1, x.2)) : (tokens v).length < 2^32 := by
  have hroot : ∀ b e (inner : TokenForest), doc.map (fun t => ((t.type, t.data), t.size.toNat)) =
      (Forest.node b e inner .nil).spans.map (fun x => (tokenOf x.1, x.2)) →
      (tokensOf (.node b e inner .nil)).length < 2^32 := by
    intro b e inner hdoc
    cases doc with
    | nil => cases hdoc
    | cons t doc =>
      have hhead := (List.cons_eq_cons.1 hdoc).1
      have hsize : t.size.toNat = inner.spans.length+2 := (Prod.mk.inj hhead).2
      have hlt := t.size.toNat_lt
      rw [tokensOf, List.length_map, Forest.length_symbols, Forest.length_node]
      change inner.spans.length+2+0 < 2^32
      omega
  cases v with
  | null | true | false | string _ | number _ => exact Nat.one_lt_two_pow (by decide)
  | array elems => exact hroot _ _ _ h
  | object members => exact hroot _ _ _ h

theorem tokenOf_symbolOf_terminal {f : Str → Bytes} {ts : List Terminal} {t : Token}
    (h : t ∈ terminalTokens f ts) : tokenOf (symbolOf t) = t := by
  obtain ⟨u, -, hu⟩ := List.mem_filterMap.1 h
  cases u <;> cases hu <;> rfl

/-- A text is parsed to its value exactly when it has no tab between its tokens and no `\u` escape
in its strings, and its number of tokens fits the size of a token. -/
theorem parsesTo_iff (t : Text) :
    ParsesTo t.bytes (valueOf t) ↔
      ¬HasTab t ∧ (∀ s, .string s ∈ terminals t.value → s.hasUnicode = false) ∧
        (tokens (valueOf t)).length < 2^32 := by
  have hvalue : tokens (valueOf t) = terminalTokens Str.decode (terminals t.value) :=
    tokens_map Str.decode t.value
  constructor
  · rintro ⟨doc, hparse, hsizes⟩
    obtain ⟨hend, g, hg, rfl⟩ := parseJSON_ok_iff.1 hparse
    have htab : ¬HasTab t := by
      intro htab
      rw [scan_text_tab htab] at hend
      cases hend
    refine ⟨htab, ?_, length_lt_of_sizes hsizes⟩
    rw [scan_text htab] at hg
    have hread : (document g).map (fun t => (t.type, t.data)) =
        terminalTokens kept (terminals t.value) := by
      rw [map_document, ← hg, List.map_map]
      exact (List.map_congr_left fun _ h => tokenOf_symbolOf_terminal h).trans (List.map_id' _)
    have hmeant : (document g).map (fun t => (t.type, t.data)) = tokens (valueOf t) := by
      have hfst := congrArg (List.map Prod.fst) hsizes
      rw [List.map_map, List.map_map] at hfst
      refine hfst.trans ?_
      rw [tokens, tokensOf, ← Forest.map_fst_spans, List.map_map]
      rfl
    rw [← terminalTokens_eq_iff, ← hread, ← hvalue, hmeant]
  · rintro ⟨htab, hunicode, hlen⟩
    have hread := (terminalTokens_eq_iff _).2 hunicode
    refine ⟨document (forest (valueOf t) .nil), ?_, ?_⟩
    · rw [parseJSON_ok_iff, scan_text htab, hread, ← hvalue]
      refine ⟨rfl, _, ?_, rfl⟩
      simp [tokens, tokensOf, Function.comp_def]
    · refine map_size_document ?_
      rwa [tokens, tokensOf, List.length_map, Forest.length_symbols] at hlen

/-- `null` with a tab behind it. -/
def nullThenTab : Text := ⟨.null, [([], .null)], [.tab], rfl⟩

theorem tab_not_parsed : ¬ParsesTo nullThenTab.bytes (valueOf nullThenTab) := by
  rintro ⟨doc, hparse, -⟩
  have hraise : parseJSON nullThenTab.bytes = .raise (unexpectedChar 9) := by decide +kernel
  rw [hraise] at hparse
  cases hparse

end Stx.Json
