import Stx.Json.JSONInputStream.Tokens
import Stx.Lib.Brackets

/-! `json/json.cc`: `parseJSON` collects tokens in a vector, with a stack of the positions of the
brackets that are open. What it returns is a forest of bracket pairs with their spans. -/
namespace Stx.Json
open Brackets JSONInputStream

/-- `size` is a `uint32_t`. -/
structure JSONToken where
  type : TokenType
  data : Bytes := []
  size : UInt32 := 1
  deriving DecidableEq, Repr

abbrev JSONObject := List JSONToken

/-- The `switch` of `parseJSON`. -/
def accept (token : TokenType) (token_str : Bytes) (obj : JSONObject) (stack : List Nat) :
    Result (JSONObject × List Nat) :=
  match token with
  | .arrayBegin | .objectBegin => .ok (obj ++ [{ type := token }], obj.length :: stack)
  | .arrayEnd | .objectEnd =>
    let obj := obj ++ [{ type := token }]
    match stack with
    | [] => Result.RAISE .parseError "unbalanced braces"
    | top :: stack =>
      .ok (obj.modify top fun t => { t with size := UInt32.ofNat (obj.length-top) }, stack)
  | .string | .number => .ok (obj ++ [{ type := token, data := token_str }], stack)
  | .true | .false | .null => .ok (obj ++ [{ type := token }], stack)

/-- The loop over the tokens and the test behind it. -/
def parseLoop : Nat → JSONInputStream → JSONObject → List Nat → Result JSONObject
  | 0, _, _, _ => .diverge
  | fuel+1, json, obj, stack => do
    match ← readNextToken json with
    | none =>
      if stack.isEmpty then pure obj
      else Result.RAISE .runtimeError "invalid JSON. unexpected end of stream"
    | some ((token, token_str), json) =>
      let (obj, stack) ← accept token token_str obj stack
      parseLoop fuel json obj stack

def parseStream (json : JSONInputStream) : Result JSONObject := parseLoop (json.length+1) json [] []

def parseJSON (json_str : Bytes) : Result JSONObject := parseStream (.ofString json_str)

/- Tokens as symbols. -/

inductive Bracket where
  | object | array
  deriving DecidableEq, Repr

inductive Scalar where
  | string (data : Bytes)
  | number (data : Bytes)
  | true | false | null
  deriving DecidableEq, Repr

abbrev Symbol := Sym Bracket Scalar

abbrev TokenForest := Forest Bracket Scalar

def symbolOf : Token → Symbol
  | (.objectBegin, _) => .opens .object
  | (.objectEnd, _) => .closes .object
  | (.arrayBegin, _) => .opens .array
  | (.arrayEnd, _) => .closes .array
  | (.string, data) => .atom (.string data)
  | (.number, data) => .atom (.number data)
  | (.true, _) => .atom .true
  | (.false, _) => .atom .false
  | (.null, _) => .atom .null

def tokenOf : Symbol → Token
  | .opens .object => (.objectBegin, [])
  | .closes .object => (.objectEnd, [])
  | .opens .array => (.arrayBegin, [])
  | .closes .array => (.arrayEnd, [])
  | .atom (.string data) => (.string, data)
  | .atom (.number data) => (.number, data)
  | .atom .true => (.true, [])
  | .atom .false => (.false, [])
  | .atom .null => (.null, [])

@[simp] theorem symbolOf_tokenOf (s : Symbol) : symbolOf (tokenOf s) = s := by
  cases s with
  | opens b => cases b <;> rfl
  | closes e => cases e <;> rfl
  | atom a => cases a <;> rfl

/-- The element of the vector for a symbol with its span. -/
def cell (x : Symbol × Nat) : JSONToken where
  type := (tokenOf x.1).1
  data := (tokenOf x.1).2
  size := UInt32.ofNat x.2

theorem size_cell {s : Symbol} {n : Nat} (h : n < 2^32) : (cell (s, n)).size.toNat = n := by
  change (UInt32.ofNat n).toNat = n
  rw [UInt32.toNat_ofNat']
  exact Nat.mod_eq_of_lt h

/-- The vector for a forest. -/
def document (f : TokenForest) : JSONObject := f.spans.map cell

@[simp] theorem length_document (f : TokenForest) : (document f).length = f.spans.length :=
  List.length_map _

theorem map_document (f : TokenForest) :
    (document f).map (fun t => (t.type, t.data)) = f.symbols.map tokenOf := by
  rw [document, List.map_map, ← f.map_fst_spans, List.map_map]
  rfl

/-- The token of a symbol, before its size is known. -/
def newToken (s : Symbol) : JSONToken := cell (s, 1)

theorem accept_opens {t : Token} {b : Bracket} (h : symbolOf t = .opens b) (obj : JSONObject)
    (stack : List Nat) :
    accept t.1 t.2 obj stack = .ok (obj ++ [newToken (.opens b)], obj.length :: stack) := by
  rcases t with ⟨type, data⟩
  cases type <;> cases h <;> rfl

theorem accept_atom {t : Token} {a : Scalar} (h : symbolOf t = .atom a) (obj : JSONObject)
    (stack : List Nat) : accept t.1 t.2 obj stack = .ok (obj ++ [newToken (.atom a)], stack) := by
  rcases t with ⟨type, data⟩
  cases type <;> cases h <;> rfl

theorem accept_closes {t : Token} {e : Bracket} (h : symbolOf t = .closes e) (obj : JSONObject)
    (stack : List Nat) : accept t.1 t.2 obj stack =
      match stack with
      | [] => Result.RAISE .parseError "unbalanced braces"
      | top :: stack => .ok ((obj ++ [newToken (.closes e)]).modify top fun t =>
          { t with size := UInt32.ofNat (obj.length+1-top) }, stack) := by
  rcases t with ⟨type, data⟩
  cases type <;> cases h <;> cases stack <;> simp [accept] <;> rfl

/-- The vector and the stack of a sequence that was read in part. -/
def vectorOf (z : Builder Bracket Scalar) : JSONObject × List Nat :=
  (z.spans.map cell, Builder.positions z.frames)

def pushToken (s : JSONObject × List Nat) (t : Token) : Result (JSONObject × List Nat) :=
  accept t.1 t.2 s.1 s.2

/-- The vector with its stack of positions does what a builder of forests does. -/
theorem pushToken_eq (z : Builder Bracket Scalar) (t : Token) :
    pushToken (vectorOf z) t =
      match z.push (symbolOf t) with
      | some z' => .ok (vectorOf z')
      | none => Result.RAISE .parseError "unbalanced braces" := by
  cases hs : symbolOf t with
  | opens b =>
    rw [pushToken, accept_opens hs]
    simp [Builder.push, vectorOf, Builder.spans, Builder.outside, Builder.positions, Forest.spans,
      newToken]
  | atom a =>
    rw [pushToken, accept_atom hs]
    simp [Builder.push, vectorOf, Builder.spans, Forest.spans, newToken]
  | closes e =>
    rw [pushToken, accept_closes hs]
    cases hz : z.frames with
    | nil => simp [Builder.push, vectorOf, hz, Builder.positions]
    | cons frame frames =>
      simp only [Builder.push, vectorOf, hz, Builder.positions]
      congr 2
      have hsplit : z.spans.map cell ++ [newToken (.closes e)] =
          (Builder.outside frames ++ frame.2.spans).map cell ++
            newToken (.opens frame.1) :: (z.done.spans.map cell ++ [newToken (.closes e)]) := by
        simp [Builder.spans, hz, Builder.outside, newToken]
      have hlen : (z.spans.map cell).length+1-
          ((Builder.outside frames).length+frame.2.spans.length) = z.done.spans.length+2 := by
        simp only [Builder.spans, hz, Builder.outside, List.length_map, List.length_append,
          List.length_singleton]
        omega
      have hpos : (Builder.outside frames).length+frame.2.spans.length =
          ((Builder.outside frames ++ frame.2.spans).map cell).length+0 := by
        simp
      rw [hlen, hsplit, hpos]
      refine (List.modifyTailIdx_add _ _ _ _).trans ?_
      simp [Builder.spans, Forest.spans, newToken, cell]

def pushTokens (s : JSONObject × List Nat) (ts : List Token) : Result (JSONObject × List Nat) :=
  ts.foldlM pushToken s

theorem pushTokens_eq (z : Builder Bracket Scalar) (ts : List Token) :
    pushTokens (vectorOf z) ts =
      match z.pushAll (ts.map symbolOf) with
      | some z' => .ok (vectorOf z')
      | none => Result.RAISE .parseError "unbalanced braces" := by
  induction ts generalizing z with
  | nil => rfl
  | cons t ts ih =>
    rw [pushTokens, List.foldlM_cons, pushToken_eq, List.map_cons, Builder.pushAll, List.foldlM_cons]
    cases z.push (symbolOf t) with
    | none => rfl
    | some z' => exact ih z'

/-- The loop takes the tokens of the stream one by one. -/
theorem parseLoop_eq {fuel : Nat} {json : JSONInputStream} (hfuel : json.length < fuel)
    (obj : JSONObject) (stack : List Nat) :
    parseLoop fuel json obj stack = (do
      let s ← pushTokens (obj, stack) (scan json).1
      (scan json).2
      if s.2.isEmpty then pure s.1
      else Result.RAISE .runtimeError "invalid JSON. unexpected end of stream") := by
  induction fuel generalizing json obj stack with
  | zero => exact absurd hfuel (Nat.not_lt_zero _)
  | succ fuel ih =>
    rw [parseLoop]
    cases readNextToken_cases json with
    | token t left h hlt =>
      rw [scan_token h, h]
      simp only [Result.ok_bind, pushTokens, List.foldlM_cons, pushToken]
      cases accept t.1 t.2 obj stack with
      | ok s => exact ih (by omega) s.1 s.2
      | raise e => rfl
      | diverge => rfl
    | finished h =>
      rw [scan_finished h, h]
      rfl
    | raise e h =>
      rw [scan_raise h, h]
      rfl

/-- A text is accepted exactly when all of it are tokens whose brackets balance by count. -/
theorem parseStream_ok_iff {json : JSONInputStream} {doc : JSONObject} :
    parseStream json = .ok doc ↔
      (scan json).2 = .ok () ∧
        ∃ f : TokenForest, (scan json).1.map symbolOf = f.symbols ∧ doc = document f := by
  have hloop := parseLoop_eq (Nat.lt_succ_self json.length) [] []
  have htokens := pushTokens_eq {} (scan json).1
  change pushTokens ([], []) _ = _ at htokens
  rw [parseStream, hloop, htokens]
  constructor
  · intro h
    cases hz : Builder.pushAll {} ((scan json).1.map symbolOf) with
    | none => rw [hz] at h; cases h
    | some z =>
      rw [hz] at h
      obtain ⟨u, hu, hrest⟩ := Result.bind_eq_ok (x := (scan json).2) h
      refine ⟨hu, ?_⟩
      cases hframes : z.frames with
      | cons frame frames => simp [vectorOf, hframes, Builder.positions, Result.RAISE] at hrest
      | nil =>
        have hbalanced : Balanced ((scan json).1.map symbolOf) := by
          have hlen := Builder.map_length_pushAll {} ((scan json).1.map symbolOf)
          rw [hz, Option.map_some, hframes] at hlen
          exact hlen.symm
        obtain ⟨f, hf⟩ := exists_forest hbalanced
        rw [← hf, Builder.pushAll_symbols] at hz
        cases hz
        refine ⟨f, hf.symm, ?_⟩
        simpa [vectorOf, Builder.spans, Builder.outside, Builder.positions, document, eq_comm]
          using hrest
  · rintro ⟨hend, f, hf, rfl⟩
    rw [hf, Builder.pushAll_symbols, hend]
    simp [vectorOf, Builder.spans, Builder.outside, Builder.positions, document]

theorem parseJSON_ok_iff {text : Bytes} {doc : JSONObject} :
    parseJSON text = .ok doc ↔
      (scan (.ofString text)).2 = .ok () ∧
        ∃ f : TokenForest, (scan (.ofString text)).1.map symbolOf = f.symbols ∧ doc = document f :=
  parseStream_ok_iff

/-- Whatever the text, `parseJSON` returns or raises. -/
theorem parseJSON_terminates (text : Bytes) : (parseJSON text).Terminates := by
  suffices hloop : ∀ fuel json obj stack, json.length < fuel →
      (parseLoop fuel json obj stack).Terminates from hloop _ _ _ _ (Nat.lt_succ_self _)
  intro fuel
  induction fuel with
  | zero => exact fun json obj stack h => absurd h (Nat.not_lt_zero _)
  | succ fuel ih =>
    intro json obj stack hlt
    rw [parseLoop]
    cases readNextToken_cases json with
    | token t left h hleft =>
      simp only [h, Result.ok_bind]
      cases haccept : accept t.1 t.2 obj stack with
      | ok s =>
        change (parseLoop fuel left s.1 s.2).Terminates
        exact ih left s.1 s.2 (by omega)
      | raise e =>
        intro hd
        cases hd
      | diverge =>
        rcases t with ⟨type, data⟩
        cases type <;> cases stack <;> simp [accept, Result.RAISE] at haccept
    | finished h =>
      simp only [h, Result.ok_bind]
      cases stack with
      | nil =>
        intro hd
        cases hd
      | cons top stack =>
        intro hd
        cases hd
    | raise e h =>
      rw [h]
      intro hd
      cases hd

end Stx.Json
