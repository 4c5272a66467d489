import Stx.Json.JSONInputStream.Tokens
import Stx.Json.JSONPointer

/-! `json/flatjsonreader.{h,cc}`. The path that the functions hand on by pointer is part of the
state, and so are the arguments of the calls of `func`. -/
namespace Stx.Json
open JSONInputStream
open StringUtil (toInt toStringInt)

structure FlatJSONReader where
  json_ : JSONInputStream
  path : Bytes := []
  calls : List (Bytes × Bytes) := []

namespace FlatJSONReader

def raise {α : Type} (message : String) : Sys FlatJSONReader α :=
  .reads fun _ => Result.RAISE .runtimeError message

def nextToken : Sys FlatJSONReader Token := fun s =>
  match readNextToken s.json_ with
  | .ok (some (t, json)) => (.ok t, { s with json_ := json })
  | .ok none => (Result.RAISE .runtimeError "invalid JSON. unexpected end of stream", s)
  | .raise e => (.raise e, s)
  | .diverge => (.diverge, s)

def push (str : Bytes) : Sys FlatJSONReader Unit := fun s =>
  match JSONPointer.push s.path str with
  | .ok path => (.ok (), { s with path := path })
  | .raise e => (.raise e, s)
  | .diverge => (.diverge, s)

def pop : Sys FlatJSONReader Unit := .modify fun s => { s with path := JSONPointer.pop s.path }

/-- `func(*path, value)`. What it returns is not looked at. -/
def func (value : Bytes) : Sys FlatJSONReader Unit :=
  .modify fun s => { s with calls := s.calls ++ [(s.path, value)] }

/-- The first `switch` of `readObject`, behind its case for the end. -/
def pushKey (key : Token) : Sys FlatJSONReader Unit :=
  match key.1 with
  | .string | .number => push key.2
  | .true => push (lit "true")
  | .false => push (lit "false")
  | .null => push (lit "null")
  | .objectBegin | .objectEnd | .arrayBegin | .arrayEnd =>
    raise "invalid JSON. object key must be of type string, number, boolean or null"

/-- The `switch` over the token of a value, with the calls that read a nested object or array. -/
def readValue (readObject readArray : Sys FlatJSONReader Unit) (value : Bytes) (message : String)
    (type : TokenType) : Sys FlatJSONReader Unit :=
  match type with
  | .objectBegin => readObject
  | .arrayBegin => readArray
  | .string | .number | .true | .false | .null => func value
  | .objectEnd | .arrayEnd => raise message

/-- An element that is a word is handed on as its text, a value of an object is not. -/
def elemText (elem : Token) : Bytes :=
  match elem.1 with
  | .true => lit "true"
  | .false => lit "false"
  | .null => lit "null"
  | _ => elem.2

/- Every turn of a loop reads a token. -/
mutual
def readObject : Nat → Sys FlatJSONReader Unit
  | 0 => .reads fun _ => .diverge
  | fuel+1 => do
    let key ← nextToken
    if key.1 = .objectEnd then pure ()
    else do
      pushKey key
      let value ← nextToken
      readValue (readObject fuel) (readArray fuel 0) value.2
        "invalid JSON. object key must be of type string, number, boolean or null" value.1
      pop
      readObject fuel

/-- At the end of the array the index that was pushed for it stays on the path. -/
def readArray : Nat → Int → Sys FlatJSONReader Unit
  | 0, _ => .reads fun _ => .diverge
  | fuel+1, i => do
    let elem ← nextToken
    push (toStringInt i)
    if elem.1 = .arrayEnd then pure ()
    else do
      readValue (readObject fuel) (readArray fuel 0) (elemText elem)
        "invalid JSON. unexpected token" elem.1
      pop
      readArray fuel (toInt (i+1))
end

def read : Sys FlatJSONReader Unit := do
  let s ← .get
  .modify fun s => { s with path := [] }
  let root ← nextToken
  match root.1 with
  | .objectBegin => readObject (s.json_.length+1)
  | .arrayBegin => readArray (s.json_.length+1) 0
  | _ => raise "invalid JSON. root node must be OBJECT or ARRAY"

/-- The paths that `func` is called with, unless the text is not read to its end. -/
def pathsOf (text : Bytes) : Option (List Bytes) :=
  match read { json_ := .ofString text } with
  | (.ok (), s) => some (s.calls.map Prod.fst)
  | _ => none

example : pathsOf (lit "[[1], 2]") = some [lit "/0/0", lit "/0/1"] := by decide +kernel

end FlatJSONReader
end Stx.Json
