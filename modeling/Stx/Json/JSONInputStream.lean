import Stx.StringUtil

/-! `json/jsontypes.h` and `json/jsoninputstream.{h,cc}` over a string or a buffer. The member
`cur_` and the bytes of `input_` that are not read yet are one list; behind the last byte
`advanceCursor` sets `cur_` to 0. -/
namespace Stx.Json

/-- `kTokenType`. -/
inductive TokenType where
  | objectBegin | objectEnd | arrayBegin | arrayEnd | string | number | true | false | null
  deriving DecidableEq, Repr

/-- The type and the data of a token. -/
abbrev Token := TokenType × Bytes

abbrev JSONInputStream := Bytes

namespace JSONInputStream

/-- A new stream has a blank in `cur_`. -/
def ofString (string : Bytes) : JSONInputStream := 32 :: string

/-- The characters that `readNumber` takes; a number begins with any of them but `+.eE`. -/
def inNumber (c : UInt8) : Bool := c ∈ lit "-+.0123456789eE"

def startsNumber (c : UInt8) : Bool := c ∈ lit "-0123456789"

/-- Blanks inside and behind a number are dropped. -/
def readNumber : JSONInputStream → Bytes × JSONInputStream
  | [] => ([], [])
  | c :: rest =>
    if inNumber c then (c :: (readNumber rest).1, (readNumber rest).2)
    else if c = 32 then readNumber rest
    else ([], c :: rest)

/-- The escapes of one character. -/
def unescape (c : UInt8) : Option UInt8 :=
  if c = 34 then some 34
  else if c = 92 then some 92
  else if c = 47 then some 47
  else if c = 98 then some 8
  else if c = 102 then some 12
  else if c = 110 then some 10
  else if c = 114 then some 13
  else if c = 116 then some 9
  else none

/-- The loop of `readString` behind its `advanceCursor`; `skip` counts the characters of a `\u`
escape that are still to be passed over. -/
def readStringLoop : Nat → JSONInputStream → Result (Bytes × JSONInputStream)
  | _, [] => Result.RAISE .runtimeError "invalid json. unterminated string"
  | skip+1, _ :: rest => readStringLoop skip rest
  | 0, c :: rest =>
    if c = 92 then
      match rest with
      | [] => Result.RAISE .runtimeError "invalid escape sequence"
      | e :: rest =>
        match unescape e with
        | some b => do
          let (dst, json) ← readStringLoop 0 rest
          pure (b :: dst, json)
        | none =>
          if e = 117 then readStringLoop 4 rest
          else Result.RAISE .runtimeError "invalid escape sequence"
    else if c = 34 then .ok ([], rest)
    else if c = 0 then Result.RAISE .runtimeError "invalid json. unterminated string"
    else do
      let (dst, json) ← readStringLoop 0 rest
      pure (c :: dst, json)

/-- `cur_` is the opening quote. -/
def readString (json : JSONInputStream) : Result (Bytes × JSONInputStream) :=
  readStringLoop 0 json.tail

def expectString (expect : Bytes) (json : JSONInputStream) : Result JSONInputStream :=
  let str := json.take expect.length
  if str = expect then .ok (json.drop expect.length)
  else Result.RAISEF .runtimeError "invalid json. expected '$0', got '$1'" [expect, str]

def bracket (c : UInt8) : Option TokenType :=
  if c = 123 then some .objectBegin
  else if c = 125 then some .objectEnd
  else if c = 91 then some .arrayBegin
  else if c = 93 then some .arrayEnd
  else none

/-- `:`, `,`, blanks and line ends. A tab is not among them. -/
def ignored (c : UInt8) : Bool := c ∈ lit ":, \n\r"

def word (c : UInt8) : Option (TokenType × Bytes) :=
  if c = 116 then some (.true, lit "true")
  else if c = 102 then some (.false, lit "false")
  else if c = 110 then some (.null, lit "null")
  else none

/-- `char` is signed. -/
def unexpectedChar (c : UInt8) : Exception :=
  ⟨.runtimeError, lit "invalid json, unexpected char: " ++ StringUtil.toStringInt c.toInt8.toInt⟩

/-- The next token and the stream behind it, or `none` at the end. -/
def readNextToken : JSONInputStream → Result (Option (Token × JSONInputStream))
  | [] => .ok none
  | c :: rest =>
    match bracket c with
    | some type => .ok (some ((type, []), rest))
    | none =>
      if ignored c then readNextToken rest
      else if startsNumber c then
        .ok (some ((.number, (readNumber (c :: rest)).1), (readNumber (c :: rest)).2))
      else if c = 34 then do
        let (data, json) ← readString (c :: rest)
        pure (some ((.string, data), json))
      else
        match word c with
        | some (type, text) => do
          let json ← expectString text (c :: rest)
          pure (some ((type, []), json))
        | none => if c = 0 then .ok none else .raise (unexpectedChar c)

example : readNextToken (lit " [1 2 ,") = .ok (some ((.arrayBegin, []), lit "1 2 ,")) := by decide
example : readNextToken (lit "1 2 ,") = .ok (some ((.number, lit "12"), lit ",")) := by decide

end JSONInputStream
end Stx.Json
