import Stx.Json.JSONOutputStream.Strings
import Stx.Json.Values

/-! The text that is written for the tokens of a value. Each entry of the stack counts the tokens
behind its bracket, and the counts give the separators as long as they do not wrap. -/
namespace Stx.Json
open Brackets Rfc8259
open StringUtil (toInt toInt_succ)

namespace JSONOutputStream

def emplaceAll (ts : List Token) (json : JSONOutputStream) : JSONOutputStream :=
  ts.foldl (fun json t => json.emplaceBack t.1 t.2) json

/-- What is written in front of a token below the top of the stack. -/
def separator : TokenType × Int → Bytes
  | (.arrayBegin, n) => if n > 0 then lit "," else []
  | (.objectBegin, n) => if n > 0 then if n % 2 = 0 then lit "," else lit ":" else []
  | _ => []

def quote (s : Bytes) : Bytes := 34 :: (escapeString s ++ [34])

mutual
/-- The text of a value. A number is written as a string. -/
def render : JSONValue → Bytes
  | .null => lit "null"
  | .true => lit "true"
  | .false => lit "false"
  | .string s => quote s
  | .number n => quote n
  | .array elems => 91 :: (renderElems 0 elems ++ [93])
  | .object members => 123 :: (renderMembers 0 members ++ [125])

/-- The elements from the `k`-th on. -/
def renderElems (k : Nat) : List JSONValue → Bytes
  | [] => []
  | v :: elems => separator (.arrayBegin, toInt k) ++ render v ++ renderElems (k+1) elems

/-- The members behind `k` keys and values. -/
def renderMembers (k : Nat) : List (Bytes × JSONValue) → Bytes
  | [] => []
  | (key, v) :: members =>
    separator (.objectBegin, toInt k) ++ quote key ++
      separator (.objectBegin, toInt (k+1)) ++ render v ++ renderMembers (k+2) members
end

/-- A value has been written, and counted where it stands. -/
def addValue (v : JSONValue) (json : JSONOutputStream) : JSONOutputStream :=
  (json.addSeparator.put (render v)).increment

theorem emplaceAll_append (xs ys : List Token) (json : JSONOutputStream) :
    emplaceAll (xs ++ ys) json = emplaceAll ys (emplaceAll xs json) :=
  List.foldl_append

theorem addSeparator_top (top : TokenType × Int) (stack : List (TokenType × Int)) (out : Bytes) :
    addSeparator ⟨top :: stack, out⟩ = ⟨top :: stack, out ++ separator top⟩ := by
  cases top with
  | mk type n =>
    cases type with
    | arrayBegin =>
      simp only [addSeparator, separator]
      split <;> simp [addComma, put]
    | objectBegin =>
      simp only [addSeparator, separator]
      split
      · split <;> simp [addComma, addColon, put]
      · simp
    | objectEnd | arrayEnd | string | number | true | false | null =>
      simp [addSeparator, separator]

theorem addValue_top (v : JSONValue) (type : TokenType) (k : Nat)
    (stack : List (TokenType × Int)) (out : Bytes) :
    addValue v ⟨(type, toInt k) :: stack, out⟩ =
      ⟨(type, toInt (k+1 : Nat)) :: stack, out ++ separator (type, toInt k) ++ render v⟩ := by
  rw [addValue, addSeparator_top]
  simp only [put, increment, toInt_succ, Nat.cast_succ]

section value
variable {elems : List JSONValue} {members : List (Bytes × JSONValue)}

/-- The elements are written at the counts of the entry that their bracket has pushed. -/
theorem emplaceAll_elems (ih : ∀ v ∈ elems, ∀ json, emplaceAll (tokens v) json = json.addValue v)
    (k : Nat) (stack : List (TokenType × Int)) (out : Bytes) :
    emplaceAll (tokensOf (forestElems elems)) ⟨(.arrayBegin, toInt k) :: stack, out⟩ =
      ⟨(.arrayBegin, toInt (k+elems.length : Nat)) :: stack, out ++ renderElems k elems⟩ := by
  induction elems generalizing k out with
  | nil => simp [forestElems, emplaceAll, renderElems]
  | cons v elems ihe =>
    have hv := ih v List.mem_cons_self
    have hrest := ihe fun w hw => ih w (List.mem_cons_of_mem v hw)
    rw [forestElems, tokensOf_forest, emplaceAll_append, hv, addValue_top, hrest, renderElems]
    simp only [List.append_assoc, List.length_cons]
    congr 5
    omega

theorem emplaceAll_members
    (ih : ∀ m ∈ members, ∀ json, emplaceAll (tokens m.2) json = json.addValue m.2)
    (k : Nat) (stack : List (TokenType × Int)) (out : Bytes) :
    emplaceAll (tokensOf (forestMembers members)) ⟨(.objectBegin, toInt k) :: stack, out⟩ =
      ⟨(.objectBegin, toInt (k+2*members.length : Nat)) :: stack,
        out ++ renderMembers k members⟩ := by
  induction members generalizing k out with
  | nil => simp [forestMembers, emplaceAll, renderMembers]
  | cons m members ihm =>
    have hkey : ∀ json : JSONOutputStream,
        json.emplaceBack .string m.1 = json.addValue (.string m.1) := fun json => rfl
    have hv := ih m List.mem_cons_self
    have hrest := ihm fun w hw => ih w (List.mem_cons_of_mem m hw)
    cases m with
    | mk key v =>
      rw [forestMembers, tokensOf_atom, tokensOf_forest, emplaceAll, List.foldl_cons]
      change emplaceAll (_ ++ _) (emplaceBack .string key _) = _
      rw [hkey, addValue_top, emplaceAll_append, hv, addValue_top, hrest, renderMembers]
      simp only [List.append_assoc, List.length_cons, render, Nat.cast_succ]
      congr 5
      omega

/-- Whatever the stack, the tokens of a value write its text and count it once. -/
theorem emplaceAll_tokens (v : JSONValue) (json : JSONOutputStream) :
    emplaceAll (tokens v) json = json.addValue v := by
  induction v using Json.induction generalizing json with
  | null | true | false | string _ | number _ => rfl
  | array elems ih =>
    have hbegin : json.emplaceBack .arrayBegin [] =
        ⟨(.arrayBegin, toInt (0 : Nat)) :: json.addSeparator.stack_,
          json.addSeparator.output_ ++ lit "["⟩ := rfl
    rw [tokens, forest, tokensOf_node, emplaceAll, List.foldl_cons]
    change emplaceAll (_ ++ _) (emplaceBack .arrayBegin [] json) = _
    rw [hbegin, emplaceAll_append, emplaceAll_elems ih]
    simp [emplaceAll, tokenOf, emplaceBack, endArray, pop, put, addValue, render, lit]
  | object members ih =>
    have hbegin : json.emplaceBack .objectBegin [] =
        ⟨(.objectBegin, toInt (0 : Nat)) :: json.addSeparator.stack_,
          json.addSeparator.output_ ++ lit "\x7b"⟩ := rfl
    rw [tokens, forest, tokensOf_node, emplaceAll, List.foldl_cons]
    change emplaceAll (_ ++ _) (emplaceBack .objectBegin [] json) = _
    rw [hbegin, emplaceAll_append, emplaceAll_members ih]
    simp [emplaceAll, tokenOf, emplaceBack, endObject, pop, put, addValue, render, lit]

end value

/-- Into an empty stream the text alone is written, and the stack is empty again. -/
theorem emplaceAll_empty (v : JSONValue) : emplaceAll (tokens v) {} = { output_ := render v } :=
  emplaceAll_tokens v {}

/- Strings. -/

theorem exists_hexDigit {n : UInt8} (h : n < 16) :
    ∃ d : HexDigit, d.1 = hexDigit n ∧ d.value = n.toNat := by
  have hdigits : ∀ i : Fin 16, IsHexDigit (hexDigit (UInt8.ofNat i)) ∧
      ∀ hd : IsHexDigit (hexDigit (UInt8.ofNat i)),
        HexDigit.value ⟨hexDigit (UInt8.ofNat i), hd⟩ = i := by
    decide
  have hlt : n.toNat < 16 := UInt8.lt_iff_toNat_lt.1 h
  have hn : UInt8.ofNat n.toNat = n := UInt8.ofNat_toNat
  obtain ⟨hd, hvalue⟩ := hdigits ⟨n.toNat, hlt⟩
  simp only [hn] at hd hvalue
  exact ⟨⟨hexDigit n, hd⟩, rfl, hvalue hd⟩

/-- What `escapeString` writes for a character is one item. -/
theorem exists_item (c : UInt8) :
    ∃ i : Item, i.text = escapeChar c ∧ ∀ s, Str.decode (i :: s) = c :: Str.decode s := by
  by_cases h8 : c = 8
  · exact ⟨.escape .backspace, by rw [h8]; rfl, fun s => by rw [h8]; rfl⟩
  by_cases h9 : c = 9
  · exact ⟨.escape .tab, by rw [h9]; rfl, fun s => by rw [h9]; rfl⟩
  by_cases h10 : c = 10
  · exact ⟨.escape .lineFeed, by rw [h10]; rfl, fun s => by rw [h10]; rfl⟩
  by_cases h12 : c = 12
  · exact ⟨.escape .formFeed, by rw [h12]; rfl, fun s => by rw [h12]; rfl⟩
  by_cases h13 : c = 13
  · exact ⟨.escape .carriageReturn, by rw [h13]; rfl, fun s => by rw [h13]; rfl⟩
  by_cases hlow : c < 32
  · have hlt : c.toNat < 32 := UInt8.lt_iff_toNat_lt.1 hlow
    have hdiv : (c/16).toNat = c.toNat/16 := UInt8.toNat_div c 16
    have hmod : (c%16).toNat = c.toNat%16 := UInt8.toNat_mod c 16
    have hsixteen : (16 : UInt8).toNat = 16 := rfl
    obtain ⟨high, hhigh, hhighval⟩ := @exists_hexDigit (c/16) (by rw [UInt8.lt_iff_toNat_lt]; omega)
    obtain ⟨low, hl, hlowval⟩ := @exists_hexDigit (c%16) (by rw [UInt8.lt_iff_toNat_lt]; omega)
    have hzero : IsHexDigit 48 := by decide
    have hcode : codeUnit ⟨48, hzero⟩ ⟨48, hzero⟩ high low = c.toNat := by
      have hval : HexDigit.value ⟨48, hzero⟩ = 0 := rfl
      rw [codeUnit, hval, hhighval, hlowval]
      omega
    refine ⟨.unicode ⟨48, hzero⟩ ⟨48, hzero⟩ high low, ?_, fun s => ?_⟩
    · simp only [escapeChar, h8, h9, h10, h12, h13, hlow, if_true, if_false, Item.text, hhigh, hl]
      rfl
    · rw [Str.decode_unicode (by omega), hcode, utf8, if_pos (by omega), UInt8.ofNat_toNat]
      rfl
  by_cases h34 : c = 34
  · exact ⟨.escape .quote, by rw [h34]; rfl, fun s => by rw [h34]; rfl⟩
  by_cases h92 : c = 92
  · exact ⟨.escape .backslash, by rw [h92]; rfl, fun s => by rw [h92]; rfl⟩
  · refine ⟨.plain c ⟨UInt8.not_lt.1 hlow, h34, h92⟩, ?_, fun s => by rw [Str.decode]⟩
    simp only [escapeChar, h8, h9, h10, h12, h13, hlow, h34, h92, if_false, Item.text]

theorem exists_str (s : Bytes) : ∃ t : Str, t.body = s.flatMap escapeChar ∧ t.decode = s := by
  induction s with
  | nil => exact ⟨[], rfl, rfl⟩
  | cons c s ih =>
    obtain ⟨i, htext, hdecode⟩ := exists_item c
    obtain ⟨t, hbody, hs⟩ := ih
    refine ⟨i :: t, ?_, by rw [hdecode, hs]⟩
    rw [List.flatMap_cons, ← hbody, ← htext]
    rfl

/- Separators. -/

theorem separator_array {k : Nat} (h : 0 < toInt k) : separator (.arrayBegin, toInt k) = [44] := by
  rw [separator, if_pos h]
  rfl

theorem separator_comma {k : Nat} (h : 0 < toInt k) (heven : k % 2 = 0) :
    separator (.objectBegin, toInt k) = [44] := by
  have hmod : toInt k % 2 = 0 := by
    unfold toInt
    omega
  rw [separator, if_pos h, if_pos hmod]
  rfl

theorem separator_colon {k : Nat} (h : 0 < toInt k) (hodd : k % 2 = 1) :
    separator (.objectBegin, toInt k) = [58] := by
  have hmod : ¬toInt k % 2 = 0 := by
    unfold toInt
    omega
  rw [separator, if_pos h, if_neg hmod]
  rfl

theorem separator_of_not_pos {type : TokenType} {k : Nat} (h : ¬0 < toInt k) :
    separator (type, toInt k) = [] := by
  cases type with
  | arrayBegin => rw [separator, if_neg h]
  | objectBegin => rw [separator, if_neg h]
  | objectEnd | arrayEnd | string | number | true | false | null => rfl

theorem separator_zero (type : TokenType) : separator (type, toInt (0 : Nat)) = [] :=
  separator_of_not_pos (by decide)

/-- The counts are positive up to the first one that wraps. -/
theorem toInt_pos {k : Nat} (hpos : 0 < k) (hlt : k < 2^31) : 0 < toInt k := by
  unfold toInt
  omega

theorem le_of_toInt_pos {n : Nat} (h : ∀ k, 0 < k → k < n → 0 < toInt k) : n ≤ 2^31 := by
  by_contra hn
  have hwrapped := h (2^31) (by decide) (by omega)
  revert hwrapped
  decide

mutual
/-- The value that is written: numbers become strings. -/
def quoteNumbers : JSONValue → JSONValue
  | .null => .null
  | .true => .true
  | .false => .false
  | .string s => .string s
  | .number n => .string n
  | .array elems => .array (quoteElems elems)
  | .object members => .object (quoteMembers members)

def quoteElems : List JSONValue → List JSONValue
  | [] => []
  | v :: elems => quoteNumbers v :: quoteElems elems

def quoteMembers : List (Bytes × JSONValue) → List (Bytes × JSONValue)
  | [] => []
  | (k, v) :: members => (k, quoteNumbers v) :: quoteMembers members
end

mutual
/-- No counter wraps: there are at most 2^31 tokens between two brackets, keys and values counted,
and at most 2^31 characters in a string. -/
def Fits : JSONValue → Prop
  | .null => True
  | .true => True
  | .false => True
  | .string s => s.length ≤ 2^31
  | .number n => n.length ≤ 2^31
  | .array elems => elems.length ≤ 2^31 ∧ FitsElems elems
  | .object members => 2*members.length ≤ 2^31 ∧ FitsMembers members

def FitsElems : List JSONValue → Prop
  | [] => True
  | v :: elems => Fits v ∧ FitsElems elems

def FitsMembers : List (Bytes × JSONValue) → Prop
  | [] => True
  | (k, v) :: members => k.length ≤ 2^31 ∧ Fits v ∧ FitsMembers members
end

/-- The strings and the numbers of a derivation. -/
def decoded (u : Value) : JSONValue := u.map Str.decode Number.text

/-- The grammar derives the text that is written, with the value that was to be written, and the
stack is empty at the end. -/
def EmitsJSON (v : JSONValue) : Prop :=
  (∃ t : Text, t.bytes = (emplaceAll (tokens v) {}).output_ ∧ decoded t.value = quoteNumbers v) ∧
    (emplaceAll (tokens v) {}).stack_ = []

theorem exists_quote {s : Bytes} (h : s.length ≤ 2^31) :
    ∃ t : Str, t.decode = s ∧ (Terminal.string t).text = quote s := by
  obtain ⟨t, hbody, hdecode⟩ := exists_str s
  exact ⟨t, hdecode, by rw [Terminal.text, quote, escapeString, List.take_of_length_le h, hbody]⟩

def textOf (ts : List Terminal) : Bytes := ts.flatMap Terminal.text

@[simp] theorem textOf_nil : textOf [] = [] := rfl

@[simp] theorem textOf_cons (t : Terminal) (ts : List Terminal) :
    textOf (t :: ts) = t.text ++ textOf ts := rfl

@[simp] theorem textOf_append (ts us : List Terminal) :
    textOf (ts ++ us) = textOf ts ++ textOf us :=
  List.flatMap_append

section derive
variable {elems : List JSONValue} {members : List (Bytes × JSONValue)}

/-- The elements behind the first one. -/
theorem exists_elems
    (ih : ∀ v ∈ elems, Fits v → ∃ u, decoded u = quoteNumbers v ∧ textOf (terminals u) = render v)
    (hfits : FitsElems elems) {k : Nat} (hk : 0 < k) (hlen : k+elems.length ≤ 2^31) :
    ∃ us, Json.mapElems Str.decode Number.text us = quoteElems elems ∧
      textOf (terminalsElems us) = renderElems k elems := by
  induction elems generalizing k with
  | nil => exact ⟨[], rfl, rfl⟩
  | cons v elems ihe =>
    rw [List.length_cons] at hlen
    obtain ⟨u, hu, htext⟩ := ih v List.mem_cons_self hfits.1
    obtain ⟨us, hus, htexts⟩ := ihe (fun w hw => ih w (List.mem_cons_of_mem v hw)) hfits.2
      (Nat.succ_pos k) (by omega)
    refine ⟨u :: us, ?_, ?_⟩
    · rw [Json.mapElems, quoteElems, hus, ← hu]
      rfl
    · rw [terminalsElems, textOf_cons, textOf_append, htext, htexts, renderElems,
        separator_array (toInt_pos hk (by omega))]
      rfl

theorem exists_members
    (ih : ∀ m ∈ members, Fits m.2 →
      ∃ u, decoded u = quoteNumbers m.2 ∧ textOf (terminals u) = render m.2)
    (hfits : FitsMembers members) {k : Nat} (hk : 0 < k) (heven : k % 2 = 0)
    (hlen : k+2*members.length ≤ 2^31) :
    ∃ us, Json.mapMembers Str.decode Number.text us = quoteMembers members ∧
      textOf (terminalsMembers us) = renderMembers k members := by
  induction members generalizing k with
  | nil => exact ⟨[], rfl, rfl⟩
  | cons m members ihm =>
    cases m with
    | mk key v =>
      rw [List.length_cons] at hlen
      obtain ⟨u, hu, htext⟩ := ih (key, v) List.mem_cons_self hfits.2.1
      obtain ⟨t, hdecode, hquote⟩ := exists_quote hfits.1
      obtain ⟨us, hus, htexts⟩ := ihm (fun w hw => ih w (List.mem_cons_of_mem _ hw)) hfits.2.2
        (by omega : 0 < k+2) (by omega) (by omega)
      refine ⟨(t, u) :: us, ?_, ?_⟩
      · rw [Json.mapMembers, quoteMembers, hus, ← hu, hdecode]
        rfl
      · have hcolon := @separator_colon (k+1) (toInt_pos (by omega) (by omega)) (by omega)
        rw [Nat.cast_succ] at hcolon
        rw [terminalsMembers, textOf_cons, textOf_cons, textOf_cons, textOf_append, htext, htexts,
          hquote, renderMembers, separator_comma (toInt_pos hk (by omega)) heven, hcolon]
        simp [Terminal.text]

/-- Where no counter wraps, the grammar derives the text without blanks. -/
theorem exists_derivation (v : JSONValue) (h : Fits v) :
    ∃ u, decoded u = quoteNumbers v ∧ textOf (terminals u) = render v := by
  induction v using Json.induction with
  | null => exact ⟨.null, rfl, rfl⟩
  | true => exact ⟨.true, rfl, rfl⟩
  | false => exact ⟨.false, rfl, rfl⟩
  | string s =>
    obtain ⟨t, hdecode, hquote⟩ := exists_quote h
    exact ⟨.string t, congrArg Json.string hdecode, by simpa [terminals, render] using hquote⟩
  | number n =>
    obtain ⟨t, hdecode, hquote⟩ := exists_quote h
    exact ⟨.string t, congrArg Json.string hdecode, by simpa [terminals, render] using hquote⟩
  | array elems ih =>
    cases elems with
    | nil => exact ⟨.array [], rfl, rfl⟩
    | cons v elems =>
      obtain ⟨hlen, hv, hfits⟩ := h
      rw [List.length_cons] at hlen
      obtain ⟨u, hu, htext⟩ := ih v List.mem_cons_self hv
      obtain ⟨us, hus, htexts⟩ := exists_elems (fun w hw => ih w (List.mem_cons_of_mem v hw)) hfits
        Nat.one_pos (by omega)
      refine ⟨.array (u :: us), ?_, ?_⟩
      · rw [decoded, Json.map, Json.mapElems, hus, quoteNumbers, quoteElems, ← hu]
        rfl
      · rw [terminals, textOf_cons, textOf_append, textOf_append, htext, htexts, render,
          renderElems, separator_zero]
        simp [Terminal.text]
  | object members ih =>
    cases members with
    | nil => exact ⟨.object [], rfl, rfl⟩
    | cons m members =>
      cases m with
      | mk key v =>
        obtain ⟨hlen, hkey, hv, hfits⟩ := h
        rw [List.length_cons] at hlen
        obtain ⟨u, hu, htext⟩ := ih (key, v) List.mem_cons_self hv
        obtain ⟨t, hdecode, hquote⟩ := exists_quote hkey
        obtain ⟨us, hus, htexts⟩ := exists_members (fun w hw => ih w (List.mem_cons_of_mem _ hw))
          hfits Nat.two_pos rfl (by omega)
        refine ⟨.object ((t, u) :: us), ?_, ?_⟩
        · rw [decoded, Json.map, Json.mapMembers, hus, quoteNumbers, quoteMembers, ← hu, hdecode]
          rfl
        · have hcolon : separator (.objectBegin, toInt ((0 : Nat)+1)) = [58] :=
            @separator_colon 1 (by decide) rfl
          rw [terminals, textOf_cons, textOf_cons, textOf_cons, textOf_append, textOf_append, htext,
            htexts, hquote, render, renderMembers, separator_zero, hcolon]
          simp [Terminal.text]

end derive

theorem emitsJSON_of_fits {v : JSONValue} (h : Fits v) : EmitsJSON v := by
  obtain ⟨u, hu, htext⟩ := exists_derivation v h
  have hspells := spells_flatMap (terminals u) (blanks [])
  obtain ⟨t, rfl, hbytes⟩ := exists_text hspells
  rw [EmitsJSON, emplaceAll_empty]
  exact ⟨⟨t, by rw [hbytes, ← htext]; exact List.append_nil _, hu⟩, rfl⟩

end JSONOutputStream
end Stx.Json
