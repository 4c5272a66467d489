import Stx.Json.JSONOutputStream.Documents
import Stx.Json.ParseJSON.Grammar

/-! The text of a value as its writers lay it out: a comma alone between two elements or members,
a colon and a blank behind a key. The text is parsed to the tokens of the value. -/
namespace Stx.Json
open Brackets JSONInputStream

/-- Texts behind `n` others, with a comma in front of each but the first of all. -/
def commas : Nat → List Bytes → Bytes
  | _, [] => []
  | n, x :: xs => (if n > 0 then [44] else []) ++ (x ++ commas (n+1) xs)

theorem commas_first (x : Bytes) (xs : List Bytes) : commas 0 (x :: xs) = x ++ commas 1 xs := rfl

theorem commas_behind (n : Nat) (x : Bytes) (xs : List Bytes) :
    commas (n+1) (x :: xs) = 44 :: (x ++ commas (n+2) xs) := rfl

def quoted (s : Bytes) : Bytes := 34 :: (escapeString s ++ [34])

/-- The text of `addObjectEntry`. -/
def entry (key : Bytes) : Bytes := 34 :: (escapeString key ++ lit "\": ")

mutual
def layout : JSONValue → Bytes
  | .null => lit "null"
  | .true => lit "true"
  | .false => lit "false"
  | .string s => quoted s
  | .number n => n
  | .array elems => 91 :: (commas 0 (layoutElems elems) ++ [93])
  | .object members => 123 :: (commas 0 (layoutMembers members) ++ [125])

def layoutElems : List JSONValue → List Bytes
  | [] => []
  | v :: elems => layout v :: layoutElems elems

def layoutMembers : List (Bytes × JSONValue) → List Bytes
  | [] => []
  | (k, v) :: members => (entry k ++ layout v) :: layoutMembers members
end

namespace JSONOutputStream

@[simp] theorem put_put (a b : Bytes) (json : JSONOutputStream) :
    (json.put a).put b = json.put (a ++ b) := by
  simp [put]

@[simp] theorem put_nil (json : JSONOutputStream) : json.put [] = json := by
  simp [put]

theorem addObjectEntry_eq {key : Bytes} (h : (escapeString key).length+4 < 8192)
    (json : JSONOutputStream) : json.addObjectEntry key = .ok (json.put (entry key)) := by
  have hlen : (entry key).length = (escapeString key).length+4 := by
    rw [entry, List.length_cons, List.length_append]
    rfl
  rw [addObjectEntry, printf]
  change (if 2^31 ≤ (entry key).length then _ else if (entry key).length < 8192 then _ else _) = _
  rw [if_neg (by omega), if_pos (by omega)]
  rfl

end JSONOutputStream

/-- The text is read as a number to its end. -/
def IsNumeral (text : Bytes) : Prop :=
  ∃ c x, text = c :: x ∧ startsNumber c = true ∧ ∀ d ∈ x, inNumber d = true

/-- The strings and the keys are read back, and the numbers are numerals. -/
inductive Printable : JSONValue → Prop
  | null : Printable .null
  | true : Printable .true
  | false : Printable .false
  | string {s : Bytes} (h : ReadBack s) : Printable (.string s)
  | number {n : Bytes} (h : IsNumeral n) : Printable (.number n)
  | array {elems : List JSONValue} (h : ∀ v ∈ elems, Printable v) : Printable (.array elems)
  | object {members : List (Bytes × JSONValue)} (keys : ∀ m ∈ members, ReadBack m.1)
    (values : ∀ m ∈ members, Printable m.2) : Printable (.object members)

/-- In front of any stream that does not go on with a number, the text is scanned to the tokens. -/
def ScansTo (text : Bytes) (ts : List Token) : Prop :=
  ∀ rest, NumberEnds rest → scan (text ++ rest) = (ts ++ (scan rest).1, (scan rest).2)

theorem scan_quoted {s : Bytes} (h : ReadBack s) (rest : JSONInputStream) :
    scan (quoted s ++ rest) = ((.string, s) :: (scan rest).1, (scan rest).2) := by
  have hread := readStringLoop_escaped (s.take (2^31)) rest
  rw [(take_filter_eq_iff s).2 h] at hread
  rw [quoted, List.cons_append, List.append_assoc]
  exact scan_string hread

theorem scan_entry {k : Bytes} (h : ReadBack k) (rest : JSONInputStream) :
    scan (entry k ++ rest) = ((.string, k) :: (scan rest).1, (scan rest).2) := by
  have hskip : ∀ c ∈ lit ": ", ignored c = true := by decide +kernel
  have hentry : entry k = quoted k ++ lit ": " := by
    rw [entry, quoted, List.cons_append, List.append_assoc]
    rfl
  rw [hentry, List.append_assoc, scan_quoted h, scan_skip hskip]

theorem scansTo_numeral {text : Bytes} (h : IsNumeral text) : ScansTo text [(.number, text)] := by
  obtain ⟨c, x, rfl, hc, hx⟩ := h
  intro rest hrest
  exact scan_numeral hc hx hrest

theorem numberEnds_commas {n : Nat} (xs : List Bytes) {rest : JSONInputStream}
    (h : NumberEnds rest) : NumberEnds (commas (n+1) xs ++ rest) := by
  cases xs with
  | nil => exact h
  | cons x xs =>
    rw [commas_behind]
    exact numberEnds_cons (by decide) (by decide) _

/-- Scanning a text behind its comma, if it has one. -/
theorem scansTo_commas_cons {n : Nat} {x : Bytes} {xs : List Bytes} {ts us : List Token}
    (hx : ScansTo x ts) (hxs : ScansTo (commas (n+1) xs) us) :
    ScansTo (commas n (x :: xs)) (ts ++ us) := by
  intro rest hrest
  have hskip : ∀ c ∈ (if n > 0 then [44] else [] : Bytes), ignored c = true := by
    split
    · exact List.forall_mem_singleton.2 rfl
    · exact List.forall_mem_nil _
  rw [commas, List.append_assoc, List.append_assoc, scan_skip hskip,
    hx _ (numberEnds_commas xs hrest), hxs rest hrest, List.append_assoc]

theorem scansTo_layoutElems {elems : List JSONValue}
    (h : ∀ v ∈ elems, ScansTo (layout v) (tokens v)) (n : Nat) :
    ScansTo (commas n (layoutElems elems)) (tokensOf (forestElems elems)) := by
  induction elems generalizing n with
  | nil => exact fun rest _ => rfl
  | cons v elems ih =>
    rw [forestElems, tokensOf_forest]
    exact scansTo_commas_cons (h v List.mem_cons_self)
      (ih (fun w hw => h w (List.mem_cons_of_mem v hw)) (n+1))

theorem scansTo_layoutMembers {members : List (Bytes × JSONValue)}
    (hkeys : ∀ m ∈ members, ReadBack m.1) (h : ∀ m ∈ members, ScansTo (layout m.2) (tokens m.2))
    (n : Nat) : ScansTo (commas n (layoutMembers members)) (tokensOf (forestMembers members)) := by
  induction members generalizing n with
  | nil => exact fun rest _ => rfl
  | cons m members ih =>
    have htail := ih (fun w hw => hkeys w (List.mem_cons_of_mem m hw))
      (fun w hw => h w (List.mem_cons_of_mem m hw)) (n+1)
    have hkey := hkeys m List.mem_cons_self
    have hvalue := h m List.mem_cons_self
    cases m with
    | mk k v =>
      have hmember : ScansTo (entry k ++ layout v) ((.string, k) :: tokens v) := by
        intro rest hrest
        rw [List.append_assoc, scan_entry hkey, hvalue rest hrest]
        rfl
      rw [forestMembers, tokensOf_atom, tokensOf_forest]
      exact scansTo_commas_cons hmember htail

theorem scansTo_layout {v : JSONValue} (h : Printable v) : ScansTo (layout v) (tokens v) := by
  induction h with
  | null => exact fun rest _ => scan_null rest
  | true => exact fun rest _ => scan_true rest
  | false => exact fun rest _ => scan_false rest
  | string hs => exact fun rest _ => scan_quoted hs rest
  | number hn => exact scansTo_numeral hn
  | array _ ih =>
    intro rest hrest
    have hend : NumberEnds (93 :: rest) := numberEnds_cons (by decide) (by decide) rest
    rw [layout, List.cons_append, List.append_assoc, scan_bracket rfl,
      scansTo_layoutElems ih 0 ([93] ++ rest) hend, List.singleton_append, scan_bracket rfl, tokens,
      forest, tokensOf_node]
    simp [tokenOf]
  | object hkeys _ ih =>
    intro rest hrest
    have hend : NumberEnds (125 :: rest) := numberEnds_cons (by decide) (by decide) rest
    rw [layout, List.cons_append, List.append_assoc, scan_bracket rfl,
      scansTo_layoutMembers hkeys ih 0 ([125] ++ rest) hend, List.singleton_append,
      scan_bracket rfl, tokens, forest, tokensOf_node]
    simp [tokenOf]

/-- A printable value is parsed to its own tokens. -/
theorem parseJSON_layout {v : JSONValue} (h : Printable v) :
    parseJSON (layout v) = .ok (document (forest v .nil)) := by
  have hscan : scan (.ofString (layout v)) = (tokens v, .ok ()) := by
    have hend : scan [] = ([], .ok ()) := scan_finished rfl
    have htext := scansTo_layout h [] rfl
    rw [List.append_nil, hend, List.append_nil] at htext
    exact (scan_ignored (by decide) _).trans htext
  rw [parseJSON_ok_iff, hscan]
  refine ⟨rfl, forest v .nil, ?_, rfl⟩
  simp [tokens, tokensOf, Function.comp_def]

end Stx.Json
