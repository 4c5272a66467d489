import Stx.Json.JSONOutputStream.Grammar
import Mathlib.Data.List.TakeDrop

/-! When a counter of the writer wraps, its text is not what the grammar derives for the value. -/
namespace Stx.Json.JSONOutputStream
open Rfc8259
open StringUtil (toInt)

theorem char_ne {c : UInt8} (h : c ∉ [32, 9, 10, 13]) (b : Blank) : b.char ≠ c := by
  rintro rfl
  cases b <;> exact h (by decide)

/-- The text of a value begins with no blank, separator or closing bracket. -/
theorem render_cons (v : JSONValue) :
    ∃ c x, render v = c :: x ∧ (∀ b : Blank, b.char ≠ c) ∧ c ∉ [44, 58, 93, 125] := by
  cases v with
  | null => exact ⟨110, _, rfl, char_ne (by decide), by decide⟩
  | true => exact ⟨116, _, rfl, char_ne (by decide), by decide⟩
  | false => exact ⟨102, _, rfl, char_ne (by decide), by decide⟩
  | string s => exact ⟨34, _, by rw [render, quote], char_ne (by decide), by decide⟩
  | number n => exact ⟨34, _, by rw [render, quote], char_ne (by decide), by decide⟩
  | array elems => exact ⟨91, _, by rw [render], char_ne (by decide), by decide⟩
  | object members => exact ⟨123, _, by rw [render], char_ne (by decide), by decide⟩

section spells
variable {ts : List Terminal} {x y : Bytes}

/-- A string in the text is the one that was written, up to where the counter wraps. -/
theorem spells_quote {t : Str} {s : Bytes} (h : Spells (.string t :: ts) (quote s ++ x) y) :
    t.decode = s.take (2^31) ∧ Spells ts x y := by
  rw [quote, List.cons_append, List.append_assoc] at h
  obtain ⟨z, hz, hrest⟩ := spells_cons_of_ne (char_ne (by decide)) h
  obtain ⟨t', hbody, hdecode⟩ := exists_str (s.take (2^31))
  rw [Terminal.text, escapeString, ← hbody] at hz
  simp only [List.append_assoc, List.cons_append, List.cons.injEq, true_and, List.nil_append] at hz
  obtain ⟨rfl, rfl⟩ := Str.body_unique hz
  exact ⟨hdecode, hrest⟩

theorem separator_of_pos {type : TokenType} {k : Nat}
    (htype : type = .arrayBegin ∨ type = .objectBegin) (h : 0 < toInt k) :
    separator (type, toInt k) = [44] ∨ separator (type, toInt k) = [58] := by
  cases htype with
  | inl htype => exact .inl (by rw [htype, separator_array h])
  | inr htype =>
    rw [htype]
    cases Nat.mod_two_eq_zero_or_one k with
    | inl hk => exact .inl (separator_comma h hk)
    | inr hk => exact .inr (separator_colon h hk)

/-- A separator or a closing bracket in front of a value: it is a separator, which was written at
a positive count. -/
theorem spells_separator {t : Terminal} {c : UInt8} {type : TokenType} {k : Nat} {v : JSONValue}
    (ht : t.text = [c]) (hc : c ∈ [44, 58, 93, 125])
    (htype : type = .arrayBegin ∨ type = .objectBegin)
    (h : Spells (t :: ts) (separator (type, toInt k) ++ (render v ++ x)) y) :
    c ∈ [44, 58] ∧ 0 < toInt k ∧ Spells ts (render v ++ x) y := by
  by_cases hpos : 0 < toInt k
  · have hsep : ∃ d, separator (type, toInt k) = [d] ∧ d ∈ [44, 58] := by
      cases separator_of_pos htype hpos with
      | inl h => exact ⟨44, h, by decide⟩
      | inr h => exact ⟨58, h, by decide⟩
    obtain ⟨d, hd, hmem⟩ := hsep
    have hblanks : ∀ e ∈ [44, 58], e ∉ ([32, 9, 10, 13] : Bytes) := by decide +kernel
    rw [hd, List.singleton_append] at h
    obtain ⟨z, hz, hrest⟩ := spells_cons_of_ne (char_ne (hblanks d hmem)) h
    rw [ht] at hz
    simp only [List.cons_append, List.nil_append, List.cons.injEq] at hz
    rw [hz.2]
    exact ⟨hz.1 ▸ hmem, hpos, hrest⟩
  · obtain ⟨d, x', hrender, hblank, hd⟩ := render_cons v
    rw [separator_of_not_pos hpos, List.nil_append, hrender, List.cons_append] at h
    obtain ⟨z, hz, -⟩ := spells_cons_of_ne hblank h
    rw [ht] at hz
    simp only [List.cons_append, List.nil_append, List.cons.injEq] at hz
    exact absurd (hz.1 ▸ hc) hd

/-- The same for a terminal that is one character. -/
theorem spells_char {t : Terminal} {c : UInt8} (ht : t.text = [c]) (hc : c ∉ [32, 9, 10, 13])
    (h : Spells (t :: ts) (c :: x) y) : Spells ts x y := by
  obtain ⟨z, hz, hrest⟩ := spells_cons_of_ne (char_ne hc) h
  rw [ht] at hz
  simp only [List.cons_append, List.nil_append, List.cons.injEq, true_and] at hz
  rwa [hz]

theorem spells_word {t : Terminal} {c : UInt8} {text : Bytes} (ht : t.text = c :: text)
    (hc : c ∉ [32, 9, 10, 13]) (h : Spells (t :: ts) (c :: text ++ x) y) : Spells ts x y := by
  rw [List.cons_append] at h
  obtain ⟨z, hz, hrest⟩ := spells_cons_of_ne (char_ne hc) h
  rw [ht, List.cons_append, List.cons.injEq] at hz
  rwa [List.append_cancel_left hz.2]

end spells

mutual
/-- There are at most 2^31 tokens between two brackets. -/
def Counted : JSONValue → Prop
  | .null => True
  | .true => True
  | .false => True
  | .string _ => True
  | .number _ => True
  | .array elems => elems.length ≤ 2^31 ∧ CountedElems elems
  | .object members => 2*members.length ≤ 2^31 ∧ CountedMembers members

def CountedElems : List JSONValue → Prop
  | [] => True
  | v :: elems => Counted v ∧ CountedElems elems

def CountedMembers : List (Bytes × JSONValue) → Prop
  | [] => True
  | (_, v) :: members => Counted v ∧ CountedMembers members
end

/-- What a derivation of the text of a value shows: the counts did not wrap, nor did the counters
of the strings where it has the value as it was written. -/
def Kept (v : JSONValue) (u : Value) (ts : List Terminal) (x y : Bytes) : Prop :=
  Counted v ∧ (decoded u = quoteNumbers v → Fits v) ∧ Spells ts x y

section values
variable {elems : List JSONValue} {members : List (Bytes × JSONValue)} {ts : List Terminal}
  {x y : Bytes}

/-- Of the elements behind the first one, each was written at a positive count. -/
theorem kept_elems
    (ih : ∀ v ∈ elems, ∀ u ts x y, Spells (terminals u ++ ts) (render v ++ x) y → Kept v u ts x y)
    {us : List Value} {k : Nat}
    (h : Spells (terminalsElems us ++ .endArray :: ts) (renderElems k elems ++ 93 :: x) y) :
    CountedElems elems ∧
      (Json.mapElems Str.decode Number.text us = quoteElems elems → FitsElems elems) ∧
      (∀ j, k ≤ j → j < k+elems.length → 0 < toInt j) ∧ Spells ts x y := by
  induction elems generalizing us k with
  | nil =>
    cases us with
    | nil =>
      exact ⟨trivial, fun _ => trivial, fun j hk hj => absurd hj (Nat.not_lt.2 hk),
        spells_char rfl (by decide) h⟩
    | cons u us =>
      obtain ⟨z, hz, -⟩ := spells_cons_of_ne (char_ne (by decide)) h
      cases hz
  | cons v elems ihe =>
    rw [renderElems, List.append_assoc, List.append_assoc] at h
    cases us with
    | nil =>
      have hsep := (spells_separator rfl (by decide) (.inl rfl) h).1
      exact absurd hsep (by decide)
    | cons u us =>
      rw [terminalsElems, List.cons_append, List.append_assoc] at h
      obtain ⟨-, hpos, hvalue⟩ := spells_separator rfl (by decide) (.inl rfl) h
      obtain ⟨hcounted, hfits, hrest⟩ := ih v List.mem_cons_self u _ _ y hvalue
      obtain ⟨hcountedElems, hfitsElems, hall, hend⟩ :=
        ihe (fun w hw => ih w (List.mem_cons_of_mem v hw)) hrest
      refine ⟨⟨hcounted, hcountedElems⟩, fun hus => ?_, fun j hk hj => ?_, hend⟩
      · rw [Json.mapElems, quoteElems, List.cons.injEq] at hus
        exact ⟨hfits hus.1, hfitsElems hus.2⟩
      · rw [List.length_cons] at hj
        by_cases hkj : k = j
        · rwa [← hkj]
        · exact hall j (by omega) (by omega)

theorem kept_members
    (ih : ∀ m ∈ members, ∀ u ts x y,
      Spells (terminals u ++ ts) (render m.2 ++ x) y → Kept m.2 u ts x y)
    {us : List (Str × Value)} {k : Nat}
    (h : Spells (terminalsMembers us ++ .endObject :: ts)
      (renderMembers k members ++ 125 :: x) y) :
    CountedMembers members ∧
      (Json.mapMembers Str.decode Number.text us = quoteMembers members → FitsMembers members) ∧
      (∀ j, k ≤ j → j < k+2*members.length → 0 < toInt j) ∧ Spells ts x y := by
  induction members generalizing us k with
  | nil =>
    cases us with
    | nil =>
      exact ⟨trivial, fun _ => trivial, fun j hk hj => absurd hj (Nat.not_lt.2 hk),
        spells_char rfl (by decide) h⟩
    | cons u us =>
      obtain ⟨z, hz, -⟩ := spells_cons_of_ne (char_ne (by decide)) h
      cases hz
  | cons m members ihm =>
    cases m with
    | mk key v =>
      simp only [renderMembers, List.append_assoc] at h
      cases us with
      | nil =>
        have hsep := (@spells_separator _ _ _ .endObject 125 .objectBegin k (.string key)
          rfl (by decide) (.inr rfl) h).1
        exact absurd hsep (by decide)
      | cons u us =>
        cases u with
        | mk t u =>
          simp only [terminalsMembers, List.cons_append, List.append_assoc] at h
          have hkey := @spells_separator _ _ _ .valueSeparator 44 .objectBegin k (.string key)
            rfl (by decide) (.inr rfl) h
          obtain ⟨hdecode, hcolon⟩ := spells_quote hkey.2.2
          have hvalue := @spells_separator _ _ _ .nameSeparator 58 .objectBegin (k+1) v
            rfl (by decide) (.inr rfl) hcolon
          obtain ⟨hcounted, hfits, hrest⟩ := ih (key, v) List.mem_cons_self u _ _ y hvalue.2.2
          obtain ⟨hcountedMembers, hfitsMembers, hall, hend⟩ :=
            ihm (fun w hw => ih w (List.mem_cons_of_mem _ hw)) hrest
          refine ⟨⟨hcounted, hcountedMembers⟩, fun hus => ?_, fun j hk hj => ?_, hend⟩
          · simp only [Json.mapMembers, quoteMembers, List.cons.injEq, Prod.mk.injEq] at hus
            exact ⟨(List.take_eq_self_iff key).1 (hdecode.symm.trans hus.1.1), hfits hus.1.2,
              hfitsMembers hus.2⟩
          · rw [List.length_cons] at hj
            by_cases hkj : k = j
            · rw [← hkj]
              exact hkey.2.1
            by_cases hkj' : k+1 = j
            · rw [← hkj']
              exact hvalue.2.1
            · exact hall j (by omega) (by omega)

theorem kept_string {s : Bytes} {u : Value} (h : Spells (terminals u ++ ts) (quote s ++ x) y) :
    (decoded u = .string s → s.length ≤ 2^31) ∧ Spells ts x y := by
  have hstart := h
  rw [quote, List.cons_append] at hstart
  obtain ⟨t, rfl⟩ := (starts_of_spells (char_ne (by decide)) hstart).string
  obtain ⟨hdecode, hrest⟩ := spells_quote h
  refine ⟨fun hs => ?_, hrest⟩
  have ht : t.decode = s := Json.string.inj hs
  exact (List.take_eq_self_iff s).1 (hdecode.symm.trans ht)

theorem kept_array
    (ih : ∀ v ∈ elems, ∀ u ts x y, Spells (terminals u ++ ts) (render v ++ x) y → Kept v u ts x y)
    {u : Value} (h : Spells (terminals u ++ ts) (render (.array elems) ++ x) y) :
    Kept (.array elems) u ts x y := by
  rw [render, List.cons_append, List.append_assoc] at h
  obtain ⟨us, rfl⟩ := (starts_of_spells (char_ne (by decide)) h).array
  cases us with
  | nil =>
    have hopened := spells_char rfl (by decide) h
    cases elems with
    | nil => exact ⟨⟨Nat.zero_le _, trivial⟩, fun _ => ⟨Nat.zero_le _, trivial⟩,
        spells_char rfl (by decide) hopened⟩
    | cons v elems =>
      rw [renderElems, List.append_assoc, List.append_assoc] at hopened
      have hsep := (spells_separator rfl (by decide) (.inl rfl) hopened).1
      exact absurd hsep (by decide)
  | cons u us =>
    rw [terminals, List.cons_append, List.append_assoc, List.append_assoc] at h
    have hopened := spells_char rfl (by decide) h
    cases elems with
    | nil => exact absurd rfl (starts_of_spells (char_ne (by decide)) hopened).ne_end.1
    | cons v elems =>
      rw [renderElems, separator_zero, List.append_assoc, List.append_assoc] at hopened
      obtain ⟨hcounted, hfits, hrest⟩ := ih v List.mem_cons_self u _ _ y hopened
      obtain ⟨hcountedElems, hfitsElems, hall, hend⟩ :=
        kept_elems (fun w hw => ih w (List.mem_cons_of_mem v hw)) hrest
      have hlen : (v :: elems).length ≤ 2^31 := by
        refine le_of_toInt_pos fun k hpos hk => hall k hpos ?_
        rw [List.length_cons] at hk
        omega
      refine ⟨⟨hlen, hcounted, hcountedElems⟩, fun hu => ?_, hend⟩
      have hus := Json.array.inj hu
      rw [Json.mapElems, quoteElems, List.cons.injEq] at hus
      exact ⟨hlen, hfits hus.1, hfitsElems hus.2⟩

theorem kept_object
    (ih : ∀ m ∈ members, ∀ u ts x y,
      Spells (terminals u ++ ts) (render m.2 ++ x) y → Kept m.2 u ts x y)
    {u : Value} (h : Spells (terminals u ++ ts) (render (.object members) ++ x) y) :
    Kept (.object members) u ts x y := by
  rw [render, List.cons_append, List.append_assoc] at h
  obtain ⟨us, rfl⟩ := (starts_of_spells (char_ne (by decide)) h).object
  cases us with
  | nil =>
    have hopened := spells_char rfl (by decide) h
    cases members with
    | nil => exact ⟨⟨Nat.zero_le _, trivial⟩, fun _ => ⟨Nat.zero_le _, trivial⟩,
        spells_char rfl (by decide) hopened⟩
    | cons m members =>
      cases m with
      | mk key v =>
        simp only [renderMembers, List.append_assoc] at hopened
        have hsep := (@spells_separator _ _ _ .endObject 125 .objectBegin 0 (.string key)
          rfl (by decide) (.inr rfl) hopened).1
        exact absurd hsep (by decide)
  | cons u us =>
    cases u with
    | mk t u =>
      simp only [terminals, List.cons_append, List.append_assoc] at h
      have hopened := spells_char rfl (by decide) h
      cases members with
      | nil =>
        obtain ⟨z, hz, -⟩ := spells_cons_of_ne (char_ne (by decide)) hopened
        cases hz
      | cons m members =>
        cases m with
        | mk key v =>
          simp only [renderMembers, separator_zero, List.append_assoc, List.nil_append] at hopened
          obtain ⟨hdecode, hcolon⟩ := spells_quote hopened
          have hvalue := @spells_separator _ _ _ .nameSeparator 58 .objectBegin 1 v
            rfl (by decide) (.inr rfl) hcolon
          obtain ⟨hcounted, hfits, hrest⟩ := ih (key, v) List.mem_cons_self u _ _ y hvalue.2.2
          obtain ⟨hcountedMembers, hfitsMembers, hall, hend⟩ :=
            kept_members (fun w hw => ih w (List.mem_cons_of_mem _ hw)) hrest
          have hlen : 2*((key, v) :: members).length ≤ 2^31 := by
            refine le_of_toInt_pos fun k hpos hk => ?_
            rw [List.length_cons] at hk
            by_cases hone : k = 1
            · rw [hone]
              exact hvalue.2.1
            · exact hall k (by omega) (by omega)
          refine ⟨⟨hlen, hcounted, hcountedMembers⟩, fun hu => ?_, hend⟩
          have hus := Json.object.inj hu
          simp only [Json.mapMembers, quoteMembers, List.cons.injEq, Prod.mk.injEq] at hus
          exact ⟨hlen, (List.take_eq_self_iff key).1 (hdecode.symm.trans hus.1.1), hfits hus.1.2,
            hfitsMembers hus.2⟩

/-- A derivation has the brackets of the value that was written. -/
theorem kept_of_spells (v : JSONValue) (u : Value) (ts : List Terminal) (x y : Bytes)
    (h : Spells (terminals u ++ ts) (render v ++ x) y) : Kept v u ts x y := by
  induction v using Json.induction generalizing u ts x y with
  | null =>
    obtain rfl := (starts_of_spells (char_ne (by decide)) h).null
    exact ⟨trivial, fun _ => trivial, spells_word rfl (by decide) h⟩
  | true =>
    obtain rfl := (starts_of_spells (char_ne (by decide)) h).true
    exact ⟨trivial, fun _ => trivial, spells_word rfl (by decide) h⟩
  | false =>
    obtain rfl := (starts_of_spells (char_ne (by decide)) h).false
    exact ⟨trivial, fun _ => trivial, spells_word rfl (by decide) h⟩
  | string s => exact ⟨trivial, kept_string h⟩
  | number n => exact ⟨trivial, kept_string h⟩
  | array elems ih => exact kept_array ih h
  | object members ih => exact kept_object ih h

end values

theorem kept_of_text {v : JSONValue} {t : Text}
    (h : t.bytes = (emplaceAll (tokens v) {}).output_) :
    Counted v ∧ (decoded t.value = quoteNumbers v → Fits v) := by
  have hspells := t.spells
  rw [h, emplaceAll_empty, ← List.append_nil (render v),
    ← List.append_nil (terminals t.value)] at hspells
  obtain ⟨hcounted, hfits, -⟩ := kept_of_spells v t.value [] [] (blanks t.trailing) hspells
  exact ⟨hcounted, hfits⟩

/-- The tokens of a value are written as a text of the value exactly when no counter wraps. -/
theorem emitsJSON_iff (v : JSONValue) : EmitsJSON v ↔ Fits v := by
  refine ⟨fun h => ?_, emitsJSON_of_fits⟩
  obtain ⟨⟨t, hbytes, hvalue⟩, -⟩ := h
  exact (kept_of_text hbytes).2 hvalue

/-- There is no comma in front of the last of 2^31+1 elements, and the text is not JSON at all. -/
theorem longArray_not_JSON :
    ¬∃ t : Text, t.bytes = (emplaceAll (tokens (.array (List.replicate (2^31+1) .null))) {}).output_ := by
  rintro ⟨t, ht⟩
  have hlen := (kept_of_text ht).1.1
  rw [List.length_replicate] at hlen
  omega

end Stx.Json.JSONOutputStream
