import Stx.Json.ParseJSON

/-! The sizes of the tokens that `parseJSON` returns: spans that nest, so that stepping by size
visits the children of an array or an object. -/
namespace Stx.Json
open Brackets JSONInputStream

def TokenType.isBegin (type : TokenType) : Bool := type = .objectBegin ∨ type = .arrayBegin

def TokenType.isEnd (type : TokenType) : Bool := type = .objectEnd ∨ type = .arrayEnd

def sizeAt (doc : JSONObject) (p : Nat) : Option Nat := (doc[p]?).map fun t => t.size.toNat

/-- Position `j` is in the span at `i`, behind its first token and in front of its last, and in no
smaller span. -/
def ChildAt (doc : JSONObject) (i n j : Nat) : Prop :=
  i < j ∧ j < i+n-1 ∧
    ∀ (k : Nat) (u : JSONToken), i < k → k < j → doc[k]? = some u →
      u.type.isBegin → k+u.size.toNat ≤ j

structure SpanInvariant (doc : JSONObject) : Prop where
  room : ∀ (i : Nat) (t : JSONToken), doc[i]? = some t →
    1 ≤ t.size.toNat ∧ i+t.size.toNat ≤ doc.length
  ended : ∀ (i : Nat) (t : JSONToken), doc[i]? = some t → t.type.isBegin →
    ∃ u : JSONToken, doc[i+t.size.toNat-1]? = some u ∧ u.type.isEnd
  single : ∀ (i : Nat) (t : JSONToken), doc[i]? = some t → ¬t.type.isBegin → t.size = 1
  laminar : ∀ (i j : Nat) (t u : JSONToken), doc[i]? = some t → doc[j]? = some u →
    t.type.isBegin → u.type.isBegin → i < j → i+t.size.toNat ≤ j ∨ j+u.size.toNat < i+t.size.toNat
  children : ∀ (i : Nat) (t : JSONToken), doc[i]? = some t → t.type.isBegin →
    ∃ ps, Steps (sizeAt doc) (i+1) ps (i+t.size.toNat-1) ∧
      ∀ j, j ∈ ps ↔ ChildAt doc i t.size.toNat j

theorem isBegin_tokenOf {s : Symbol} : (tokenOf s).1.isBegin ↔ ∃ b, s = .opens b := by
  cases s with
  | opens b => cases b <;> simp [tokenOf, TokenType.isBegin]
  | closes e => cases e <;> simp [tokenOf, TokenType.isBegin]
  | atom a => cases a <;> simp [tokenOf, TokenType.isBegin]

theorem isEnd_closes (e : Bracket) : (tokenOf (.closes e)).1.isEnd := by
  cases e <;> rfl

section spans
variable {f : TokenForest} (hlen : f.spans.length < 2^32)
include hlen

/-- A span of a short document is a token of it, with its size. -/
theorem document_of_span {i n : Nat} {s : Symbol} (h : f.spans[i]? = some (s, n)) :
    (document f)[i]? = some (cell (s, n)) ∧ (cell (s, n)).size.toNat = n := by
  have hroom := (Forest.span_spec h).2.1
  exact ⟨by rw [document, List.getElem?_map, h]; rfl, size_cell (by omega)⟩

theorem span_of_document {i : Nat} {t : JSONToken} (h : (document f)[i]? = some t) :
    ∃ s, f.spans[i]? = some (s, t.size.toNat) ∧ t = cell (s, t.size.toNat) := by
  rw [document, List.getElem?_map, Option.map_eq_some_iff] at h
  obtain ⟨⟨s, n⟩, hx, rfl⟩ := h
  have hsize := (document_of_span hlen hx).2
  exact ⟨s, by rw [hsize, hx], by rw [hsize]⟩

theorem sizeAt_document : sizeAt (document f) = fun p => (f.spans[p]?).map Prod.snd := by
  funext p
  cases hp : f.spans[p]? with
  | none => simp [sizeAt, document, hp]
  | some x =>
    obtain ⟨hdoc, hsize⟩ := document_of_span hlen (s := x.1) (n := x.2) hp
    rw [sizeAt, hdoc, Option.map_some, hsize]
    rfl

theorem spanInvariant_document : SpanInvariant (document f) where
  room := by
    intro i t ht
    obtain ⟨s, hs, -⟩ := span_of_document hlen ht
    rw [length_document]
    exact ⟨(Forest.span_spec hs).1, (Forest.span_spec hs).2.1⟩
  ended := by
    intro i t ht hbegin
    obtain ⟨s, hs, hcell⟩ := span_of_document hlen ht
    rw [hcell] at hbegin
    obtain ⟨b, rfl⟩ := isBegin_tokenOf.1 hbegin
    obtain ⟨-, e, he⟩ := (Forest.span_spec hs).2.2.1 b rfl
    exact ⟨_, (document_of_span hlen he).1, isEnd_closes e⟩
  single := by
    intro i t ht hbegin
    obtain ⟨s, hs, hcell⟩ := span_of_document hlen ht
    rw [hcell] at hbegin
    have hone := (Forest.span_spec hs).2.2.2 fun b hb => hbegin (isBegin_tokenOf.2 ⟨b, hb⟩)
    rw [hcell, hone]
    rfl
  laminar := by
    intro i j t u ht hu htb hub hij
    obtain ⟨s, hs, hcell⟩ := span_of_document hlen ht
    obtain ⟨s', hs', hcell'⟩ := span_of_document hlen hu
    rw [hcell] at htb
    rw [hcell'] at hub
    obtain ⟨b, rfl⟩ := isBegin_tokenOf.1 htb
    obtain ⟨c, rfl⟩ := isBegin_tokenOf.1 hub
    by_cases hin : j < i+t.size.toNat
    · exact .inr (Forest.laminar hs hs' hij hin)
    · exact .inl (Nat.not_lt.1 hin)
  children := by
    intro i t ht hbegin
    obtain ⟨s, hs, hcell⟩ := span_of_document hlen ht
    rw [hcell] at hbegin
    obtain ⟨b, rfl⟩ := isBegin_tokenOf.1 hbegin
    obtain ⟨ps, hsteps, hmem⟩ := Forest.children_spec hs
    rw [sizeAt_document hlen]
    refine ⟨ps, hsteps, fun j => (hmem j).trans ?_⟩
    refine and_congr_right fun _ => and_congr_right fun _ => ?_
    constructor
    · intro hout k u hik hkj hu hub
      obtain ⟨s', hs', hcell'⟩ := span_of_document hlen hu
      rw [hcell'] at hub
      obtain ⟨c, rfl⟩ := isBegin_tokenOf.1 hub
      exact hout k c _ hik hkj hs'
    · intro hout k c m hik hkj hc
      obtain ⟨hdoc, hsize⟩ := document_of_span hlen hc
      have hle := hout k _ hik hkj hdoc (isBegin_tokenOf.2 ⟨c, rfl⟩)
      rwa [hsize] at hle

end spans

theorem parseJSON_spanInvariant {text : Bytes} {doc : JSONObject} (h : parseJSON text = .ok doc)
    (hlen : doc.length < 2^32) : SpanInvariant doc := by
  obtain ⟨-, f, -, rfl⟩ := parseJSON_ok_iff.1 h
  rw [length_document] at hlen
  exact spanInvariant_document hlen

/-- `[{"a" 1}, 2]`, in which the colon is missing. -/
theorem spanInvariant_sample : SpanInvariant
    [⟨.arrayBegin, [], 7⟩, ⟨.objectBegin, [], 4⟩, ⟨.string, lit "a", 1⟩, ⟨.number, lit "1", 1⟩,
      ⟨.objectEnd, [], 1⟩, ⟨.number, lit "2", 1⟩, ⟨.arrayEnd, [], 1⟩] :=
  @parseJSON_spanInvariant (lit "[\x7b\"a\" 1\x7d, 2]") _ (by decide +kernel) (by decide)

end Stx.Json

/- Which brackets `parseJSON` pairs. Its stack keeps positions and no kinds, so an object may be
closed as an array. -/
namespace Stx.Json
open Brackets JSONInputStream

/-- Every bracket is closed in order and by one of its own kind. -/
def ProperlyNested (doc : JSONObject) : Prop :=
  Nested (doc.map fun t => symbolOf (t.type, t.data))

def symbolsOf (text : Bytes) : List Symbol := (scan (.ofString text)).1.map symbolOf

/-- All of the text are tokens, and the brackets balance when their kinds are not looked at. -/
def BalancedByCount (text : Bytes) : Prop :=
  (scan (.ofString text)).2 = .ok () ∧ Balanced (symbolsOf text)

/-- Counting pairs two brackets of different kinds. -/
def Crossed (text : Bytes) : Prop := ∃ b e, Paired (symbolsOf text) b e ∧ b ≠ e

def RejectsMismatched (text : Bytes) : Prop :=
  ∀ doc, parseJSON text = .ok doc → ProperlyNested doc

theorem map_symbolOf_document (f : TokenForest) :
    (document f).map (fun t => symbolOf (t.type, t.data)) = f.symbols := by
  rw [document, List.map_map, ← f.map_fst_spans]
  exact List.map_congr_left fun x _ => symbolOf_tokenOf x.1

theorem rejectsMismatched_iff (text : Bytes) :
    RejectsMismatched text ↔ ¬(BalancedByCount text ∧ Crossed text) := by
  have hnested : ∀ f : TokenForest, symbolsOf text = f.symbols →
      (ProperlyNested (document f) ↔ ¬Crossed text) := by
    intro f hf
    rw [ProperlyNested, map_symbolOf_document, nested_symbols_iff, ← hf, Crossed]
    simp only [not_exists, not_and, not_not]
  constructor
  · rintro h ⟨⟨hend, hbalanced⟩, hcrossed⟩
    obtain ⟨f, hf⟩ := exists_forest hbalanced
    have hdoc := parseJSON_ok_iff.2 ⟨hend, f, hf.symm, rfl⟩
    exact (hnested f hf.symm).1 (h _ hdoc) hcrossed
  · intro h doc hdoc
    obtain ⟨hend, f, hf, rfl⟩ := parseJSON_ok_iff.1 hdoc
    refine (hnested f hf).2 fun hcrossed => h ⟨⟨hend, ?_⟩, hcrossed⟩
    rw [symbolsOf, hf]
    exact balanced_symbols f

/-- An array that is closed as an object. -/
theorem crossedPair_not_rejected : ¬RejectsMismatched (lit "[\x7d") := by
  intro h
  have hparse : parseJSON (lit "[\x7d") = .ok (document (.node .array .object .nil .nil)) := by decide
  have hnested := h _ hparse
  rw [ProperlyNested, map_symbolOf_document, nested_symbols_iff] at hnested
  have hkinds := hnested .array .object ⟨[], [], [], rfl, rfl⟩
  cases hkinds

end Stx.Json
