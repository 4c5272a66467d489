import Stx.Json.ParseJSON
import Stx.Lib.Rfc8259

/-! JSON values and their tokens in pre-order. -/
namespace Stx.Json
open Brackets Rfc8259

/-- Strings are byte strings, and a number is its text. -/
abbrev JSONValue := Rfc8259.Json Bytes Bytes

mutual
/-- The tokens of a value, in front of `rest`. -/
def forest : JSONValue → TokenForest → TokenForest
  | .null, rest => .atom .null rest
  | .true, rest => .atom .true rest
  | .false, rest => .atom .false rest
  | .string s, rest => .atom (.string s) rest
  | .number n, rest => .atom (.number n) rest
  | .array elems, rest => .node .array .array (forestElems elems) rest
  | .object members, rest => .node .object .object (forestMembers members) rest

def forestElems : List JSONValue → TokenForest
  | [] => .nil
  | v :: elems => forest v (forestElems elems)

/-- A key is a token of its own. -/
def forestMembers : List (Bytes × JSONValue) → TokenForest
  | [] => .nil
  | (k, v) :: members => .atom (.string k) (forest v (forestMembers members))
end

def tokensOf (f : TokenForest) : List Token := f.symbols.map tokenOf

def tokens (v : JSONValue) : List Token := tokensOf (forest v .nil)

@[simp] theorem tokensOf_nil : tokensOf .nil = [] := rfl

@[simp] theorem tokensOf_atom (a : Scalar) (rest : TokenForest) :
    tokensOf (.atom a rest) = tokenOf (.atom a) :: tokensOf rest := rfl

@[simp] theorem tokensOf_node (b e : Bracket) (inner rest : TokenForest) :
    tokensOf (.node b e inner rest) =
      tokenOf (.opens b) :: (tokensOf inner ++ tokenOf (.closes e) :: tokensOf rest) := by
  simp [tokensOf, Forest.symbols]

/-- In front of what follows there are the tokens of the value. -/
theorem tokensOf_forest (v : JSONValue) (rest : TokenForest) :
    tokensOf (forest v rest) = tokens v ++ tokensOf rest := by
  cases v <;> simp [tokens, forest]

end Stx.Json
