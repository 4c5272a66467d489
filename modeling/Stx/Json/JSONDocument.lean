import Stx.Json.FlatJSONReader.Pointers
import Stx.Json.FlatJSONReader.Scalars
import Mathlib.Data.List.DropRight

/-! `json/jsondocument.{h,cc}`: the scalars of a text with their pointers, looked up by pointer and
listed child by child. -/
namespace Stx.Json
open Rfc8259 Rfc6901 FlatJSONReader

structure JSONDocument where
  data_ : List (Bytes × Bytes)
  deriving DecidableEq, Repr

namespace JSONDocument

/-- The constructor. -/
def ofString (json : Bytes) : Result JSONDocument :=
  match FlatJSONReader.read { json_ := .ofString json } with
  | (.ok (), s) => .ok ⟨s.calls⟩
  | (.raise e, _) => .raise e
  | (.diverge, _) => .diverge

def getMaybe (doc : JSONDocument) (path : Bytes) : Option Bytes :=
  (doc.data_.find? fun pair => pair.1 = path).map Prod.snd

def get (doc : JSONDocument) (path : Bytes) : Result Bytes :=
  match doc.getMaybe path with
  | some value => .ok value
  | none => .RAISEF .indexError "no such element: $0" [path]

/-- `while (str->back() == '/') str->pop_back()`. What `back` reads of the empty string is undefined
and is taken to be no slash. -/
def stripTrailingSlashes (str : Bytes) : Bytes := str.rdropWhile (· = 47)

/-- `std::set::insert`. -/
def insert (child : Bytes) : List Bytes → List Bytes
  | [] => [child]
  | c :: children =>
    if child < c then child :: c :: children
    else if c = child then c :: children
    else c :: insert child children

/-- An element below the path, cut off at the next slash. -/
def childOf (above elem_path : Bytes) : Bytes :=
  above ++ (elem_path.drop above.length).takeWhile (· ≠ 47)

/-- The arguments of the calls of `callback`, in their order. -/
def forEach (doc : JSONDocument) (path : Bytes) : List Bytes :=
  let above := stripTrailingSlashes path ++ [47]
  (((doc.data_.map Prod.fst).filter above.isPrefixOf).map (childOf above)).foldl
    (fun children child => insert child children) []

example : (⟨[(lit "/a/0", []), (lit "/a/1/x", []), (lit "/a/1", []), (lit "/b", [])]⟩ :
    JSONDocument).forEach (lit "/a/") = [lit "/a/0", lit "/a/1"] := by decide

/- A set in its order. -/

theorem mem_insert {child c : Bytes} {children : List Bytes} :
    c ∈ insert child children ↔ c = child ∨ c ∈ children := by
  induction children with
  | nil => simp [insert]
  | cons d children ih =>
    rw [insert]
    split_ifs with hlt heq
    · exact List.mem_cons
    · rw [List.mem_cons, heq, or_self_left]
    · rw [List.mem_cons, ih, List.mem_cons, or_left_comm]

theorem pairwise_insert {child : Bytes} {children : List Bytes}
    (h : children.Pairwise (· < ·)) : (insert child children).Pairwise (· < ·) := by
  induction children with
  | nil => exact List.pairwise_singleton _ _
  | cons d children ih =>
    obtain ⟨hfirst, hrest⟩ := List.pairwise_cons.1 h
    rw [insert]
    split_ifs with hlt heq
    · refine List.pairwise_cons.2 ⟨List.forall_mem_cons.2 ⟨hlt, fun c hc => ?_⟩, h⟩
      exact List.lt_trans hlt (hfirst c hc)
    · exact h
    · refine List.pairwise_cons.2 ⟨fun c hc => ?_, ih hrest⟩
      rcases mem_insert.1 hc with rfl | hc
      · exact Std.lt_of_le_of_ne (Std.not_lt.1 hlt) heq
      · exact hfirst c hc

theorem foldl_insert (news children : List Bytes) (h : children.Pairwise (· < ·)) :
    (news.foldl (fun children child => insert child children) children).Pairwise (· < ·) ∧
      ∀ c, c ∈ news.foldl (fun children child => insert child children) children ↔
        c ∈ news ∨ c ∈ children := by
  induction news generalizing children with
  | nil => exact ⟨h, fun c => by simp⟩
  | cons new news ih =>
    obtain ⟨hsorted, hmem⟩ := ih (insert new children) (pairwise_insert h)
    refine ⟨hsorted, fun c => ?_⟩
    rw [List.foldl_cons, hmem, mem_insert, List.mem_cons, or_assoc, or_left_comm]

/- Pointers below a pointer. -/

theorem escape_ne_nil {token : Bytes} (h : token ≠ []) : Rfc6901.escape token ≠ [] := by
  obtain ⟨c, rest, rfl⟩ := List.exists_cons_of_ne_nil h
  rw [Rfc6901.escape, List.flatMap_cons, escapeChar]
  split_ifs <;> simp

/-- Trailing slashes are what trailing empty tokens are written as. -/
theorem stripTrailingSlashes_pointer (p : Path) :
    stripTrailingSlashes (pointer p) = pointer (p.rdropWhile (· = [])) := by
  induction p using List.reverseRecOn with
  | nil => rfl
  | append_singleton p token ih =>
    rw [pointer_append_singleton]
    by_cases htoken : token = []
    · subst htoken
      rw [List.rdropWhile_concat_pos _ _ _ (by simp), ← ih]
      exact List.rdropWhile_concat_pos _ _ _ (by simp)
    · rw [List.rdropWhile_concat_neg _ _ _ (by simpa using htoken), pointer_append_singleton]
      have hescape := escape_ne_nil htoken
      refine List.rdropWhile_eq_self_iff.2 fun hne hslash => ?_
      have hlast : (pointer p ++ 47 :: Rfc6901.escape token).getLast hne =
          (Rfc6901.escape token).getLast hescape := by
        rw [List.getLast_append_of_ne_nil _ (List.cons_ne_nil _ _), List.getLast_cons hescape]
      rw [hlast, decide_eq_true_eq] at hslash
      exact slash_not_mem_escape token (hslash ▸ List.getLast_mem hescape)

/-- Where the text of a token ends. -/
theorem takeWhile_escape (token rest : Bytes) (h : ∀ c ∈ rest.head?, c = 47) :
    (Rfc6901.escape token ++ rest).takeWhile (· ≠ 47) = Rfc6901.escape token := by
  rw [List.takeWhile_append_of_pos]
  · cases rest with
    | nil => simp
    | cons c rest => simp [h c rfl]
  · intro c hc
    have hne : c ≠ 47 := by
      rintro rfl
      exact slash_not_mem_escape token hc
    simpa using hne

theorem below_iff (q r : Path) :
    pointer q ++ [47] <+: pointer r ↔ ∃ token rest, r = q ++ token :: rest := by
  induction q generalizing r with
  | nil =>
    cases r with
    | nil => simp
    | cons token rest => simp [pointer_cons]
  | cons a q ih =>
    cases r with
    | nil => simp [pointer_cons]
    | cons b r =>
      rw [pointer_cons, pointer_cons, List.cons_append, List.cons_prefix_cons, List.append_assoc]
      constructor
      · rintro ⟨-, z, hz⟩
        rw [List.append_assoc] at hz
        have htoken := congrArg (List.takeWhile (· ≠ 47)) hz
        rw [takeWhile_pointer, takeWhile_escape a _ (by cases q <;> simp [pointer_cons])] at htoken
        obtain rfl := escape_injective htoken
        obtain ⟨token, rest, rfl⟩ := (ih r).1 ⟨z, List.append_cancel_left hz⟩
        exact ⟨token, rest, rfl⟩
      · rintro ⟨token, rest, h⟩
        obtain ⟨rfl, hrest⟩ := List.cons.inj h
        exact ⟨rfl, (List.prefix_append_right_inj _).2 ((ih r).2 ⟨token, rest, hrest⟩)⟩

theorem childOf_pointer (q rest : Path) (token : Bytes) :
    childOf (pointer q ++ [47]) (pointer (q ++ token :: rest)) = pointer (q ++ [token]) := by
  have hsplit : pointer (q ++ token :: rest) =
      (pointer q ++ [47]) ++ (Rfc6901.escape token ++ pointer rest) := by
    simp [pointer]
  rw [childOf, hsplit, List.drop_left, takeWhile_pointer, pointer_append_singleton,
    List.append_assoc, List.singleton_append]

/-- The children are visited once, in the order of their texts. -/
theorem forEach_pointer {doc : JSONDocument} {paths : List Path}
    (h : doc.data_.map Prod.fst = paths.map pointer) (p : Path) :
    (doc.forEach (pointer p)).Pairwise (· < ·) ∧ ∀ c, c ∈ doc.forEach (pointer p) ↔
      ∃ token rest, c = pointer (p.rdropWhile (· = []) ++ [token]) ∧
        p.rdropWhile (· = []) ++ token :: rest ∈ paths := by
  rw [forEach, stripTrailingSlashes_pointer]
  obtain ⟨hsorted, hmem⟩ := foldl_insert (((doc.data_.map Prod.fst).filter
    (pointer (p.rdropWhile (· = [])) ++ [47]).isPrefixOf).map
      (childOf (pointer (p.rdropWhile (· = [])) ++ [47]))) [] List.Pairwise.nil
  refine ⟨hsorted, fun c => (hmem c).trans ?_⟩
  rw [or_iff_left List.not_mem_nil, h]
  simp only [List.mem_map, List.mem_filter, List.isPrefixOf_iff_prefix]
  constructor
  · rintro ⟨elem, ⟨⟨r, hr, rfl⟩, hbelow⟩, rfl⟩
    obtain ⟨token, rest, rfl⟩ := (below_iff _ r).1 hbelow
    exact ⟨token, rest, childOf_pointer _ rest token, hr⟩
  · rintro ⟨token, rest, rfl, hr⟩
    exact ⟨_, ⟨⟨_, hr, rfl⟩, (below_iff _ _).2 ⟨token, rest, rfl⟩⟩, childOf_pointer _ rest token⟩

theorem getMaybe_pointer (es : List (Path × Bytes)) (p : Path) :
    getMaybe ⟨es.map fun e => (pointer e.1, e.2)⟩ (pointer p) =
      (es.find? fun e => e.1 = p).map Prod.snd := by
  have hsame : ((fun pair : Bytes × Bytes => decide (pair.1 = pointer p)) ∘
      fun e : Path × Bytes => (pointer e.1, e.2)) = fun e => decide (e.1 = p) := by
    funext e
    simp [pointer_injective.eq_iff]
  rw [getMaybe, List.find?_map, hsame, Option.map_map]
  rfl

/-- The scalars of a value with the paths that the reader reports them at. -/
def entries (v : Value) : List (Path × Bytes) :=
  (walk [] v).1.zip ((scalars false v).map reported)

theorem keyedText_shortKeys : ShortKeys keyedText.value := by
  simp [keyedText, Text.plain, ShortKeys, ShortKeysMembers, ShortKeysElems, kept, keptChar,
    Rfc6901.escape, Rfc6901.escapeChar]

theorem keyedText_not_tabbed : ¬Tabbed keyedText.spaced := by
  simp [keyedText, Text.plain, Tabbed]

theorem noSuchElement_eq (path : Bytes) :
    (.RAISEF .indexError "no such element: $0" [path] : Result Bytes) =
      .raise (.ofString .indexError (lit "no such element: " ++ path)) := by
  have hformat : StringUtil.format "no such element: $0" [path] =
      lit "no such element: " ++ (path ++ []) := rfl
  rw [Result.RAISEF, hformat, List.append_nil]

section text
variable {t : Text} (hroot : IsContainer t.value) (hkeys : ShortKeys t.value)
  (htab : ¬Tabbed t.spaced)
include hroot hkeys htab

theorem read_text : ∃ s, FlatJSONReader.read { json_ := .ofString t.bytes } = (.ok (), s) ∧
    s.calls.map Prod.fst = (walk [] t.value).1.map pointer := by
  have hnumber : NumberEnds (blanks t.trailing) := by
    have hblanks := @numberEnds_blanks t.trailing [] (.inr rfl)
    rwa [List.append_nil] at hblanks
  have hscan : JSONInputStream.scan (.ofString t.bytes) =
      (tokens (raw t.value) ++ (JSONInputStream.scan (blanks t.trailing)).1,
        (JSONInputStream.scan (blanks t.trailing)).2) := by
    refine (JSONInputStream.scan_ignored (by decide) _).trans ?_
    rw [Text.bytes, scan_spell (isChain_spaced t) htab hnumber, t.spaced_eq, raw, tokens_map]
  obtain ⟨s, hrun, -, hcalls, -⟩ := reads_root hroot hkeys hscan (tokens_raw_le t)
  exact ⟨s, by rw [read_eq, hrun], hcalls⟩

theorem ofString_text : ofString t.bytes =
    .ok ⟨(entries t.value).map fun e => (pointer e.1, e.2)⟩ := by
  obtain ⟨s, hrun, hpaths⟩ := read_text hroot hkeys htab
  obtain ⟨calls, hcalls, -, hall⟩ := reports_root t
  rw [hrun] at hcalls hall
  have hsame : s.calls = calls := hcalls
  have hvalues := (hall () rfl).1
  rw [← hsame] at hvalues
  have hdata : s.calls = (entries t.value).map fun e => (pointer e.1, e.2) := by
    rw [List.zip_of_prod hpaths hvalues, List.zip_map_left]
    rfl
  rw [ofString, hrun, ← hdata]

theorem fst_entries : (entries t.value).map Prod.fst = (walk [] t.value).1 := by
  obtain ⟨s, hrun, hpaths⟩ := read_text hroot hkeys htab
  obtain ⟨calls, hcalls, -, hall⟩ := reports_root t
  rw [hrun] at hcalls hall
  have hsame : s.calls = calls := hcalls
  have hlen := congrArg List.length (hall () rfl).1
  have hlen' := congrArg List.length hpaths
  rw [← hsame, List.length_map] at hlen
  rw [List.length_map, List.length_map] at hlen'
  exact List.map_fst_zip (Nat.le_of_eq (hlen'.symm.trans hlen))

/-- What is looked up is the first scalar that is reported at the path. The error for a path that is
not found has it in its message. -/
theorem scalars_found : ∃ doc, ofString t.bytes = .ok doc ∧
    (∀ a p x b, entries t.value = a ++ (p, x) :: b → p ∉ a.map Prod.fst →
      doc.get (pointer p) = .ok x) ∧
    (∀ p, p ∉ (walk [] t.value).1 → (lit "no such element: " ++ pointer p).length < 2^31 →
      doc.get (pointer p) =
        .raise (.ofString .indexError (lit "no such element: " ++ pointer p))) ∧
    (Reached t.value → (entries t.value).map Prod.fst = leaves Str.decode [] t.value) := by
  have hfst := fst_entries hroot hkeys htab
  refine ⟨_, ofString_text hroot hkeys htab, ?_, ?_, ?_⟩
  · intro a p x b hsplit hfirst
    have hnone : a.find? (fun e => e.1 = p) = none := by
      refine List.find?_eq_none.2 fun e he => ?_
      have hne : e.1 ≠ p := by
        rintro rfl
        exact hfirst (List.mem_map_of_mem he)
      simpa using hne
    rw [get, getMaybe_pointer, hsplit, List.find?_append, hnone, Option.none_or,
      List.find?_cons_of_pos (by simp)]
    rfl
  · intro p hp _
    have hnone : (entries t.value).find? (fun e => e.1 = p) = none := by
      refine List.find?_eq_none.2 fun e he => ?_
      have hne : e.1 ≠ p := by
        rintro rfl
        exact hp (hfst ▸ List.mem_map_of_mem he)
      simpa using hne
    rw [get, getMaybe_pointer, hnone]
    exact noSuchElement_eq (pointer p)
  · intro hreached
    rw [hfst]
    exact (calls_eq_leaves_iff t.value).2 hreached

theorem children_visited : ∃ doc, ofString t.bytes = .ok doc ∧
    (∀ p, (doc.forEach (pointer p)).Pairwise (· < ·) ∧
      ∀ c, c ∈ doc.forEach (pointer p) ↔
        ∃ token rest, c = pointer (p.rdropWhile (· = []) ++ [token]) ∧
          p.rdropWhile (· = []) ++ token :: rest ∈ (walk [] t.value).1) ∧
    (Reached t.value → (walk [] t.value).1 = leaves Str.decode [] t.value) := by
  refine ⟨_, ofString_text hroot hkeys htab, fun p => forEach_pointer ?_ p,
    (calls_eq_leaves_iff t.value).2⟩
  rw [List.map_map, ← fst_entries hroot hkeys htab, List.map_map]
  rfl

end text

theorem scalars_found_keyed : ∃ doc, ofString keyedText.bytes = .ok doc ∧
    (∀ a p x b, entries keyedText.value = a ++ (p, x) :: b → p ∉ a.map Prod.fst →
      doc.get (pointer p) = .ok x) ∧
    (∀ p, p ∉ (walk [] keyedText.value).1 → (lit "no such element: " ++ pointer p).length < 2^31 →
      doc.get (pointer p) =
        .raise (.ofString .indexError (lit "no such element: " ++ pointer p))) ∧
    (Reached keyedText.value →
      (entries keyedText.value).map Prod.fst = leaves Str.decode [] keyedText.value) :=
  scalars_found trivial keyedText_shortKeys keyedText_not_tabbed

theorem children_visited_keyed : ∃ doc, ofString keyedText.bytes = .ok doc ∧
    (∀ p, (doc.forEach (pointer p)).Pairwise (· < ·) ∧
      ∀ c, c ∈ doc.forEach (pointer p) ↔
        ∃ token rest, c = pointer (p.rdropWhile (· = []) ++ [token]) ∧
          p.rdropWhile (· = []) ++ token :: rest ∈ (walk [] keyedText.value).1) ∧
    (Reached keyedText.value →
      (walk [] keyedText.value).1 = leaves Str.decode [] keyedText.value) :=
  children_visited trivial keyedText_shortKeys keyedText_not_tabbed

end JSONDocument
end Stx.Json
