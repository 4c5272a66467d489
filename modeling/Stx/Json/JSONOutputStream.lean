import Stx.Json.ParseJSON
import Stx.StringUtil.Decimals

/-! `json/jsonoutputstream.{h,cc}`. What was written to `output_` is a byte string. -/
namespace Stx.Json
open StringUtil (toInt toStringInt)

/-- The digits of the `\u` escapes are lower case. -/
def hexDigit (n : UInt8) : UInt8 := if n < 10 then 48+n else 87+n

/-- The `switch` of `escapeString`. -/
def escapeChar (c : UInt8) : Bytes :=
  if c = 8 then lit "\\b"
  else if c = 9 then lit "\\t"
  else if c = 10 then lit "\\n"
  else if c = 12 then lit "\\f"
  else if c = 13 then lit "\\r"
  else if c < 32 then lit "\\u00" ++ [hexDigit (c/16), hexDigit (c%16)]
  else if c = 34 then lit "\\\""
  else if c = 92 then lit "\\\\"
  else [c]

/-- `i` is an `int`. Behind 2^31 characters it is negative, as a size larger than any string. -/
def escapeString (string : Bytes) : Bytes := (string.take (2^31)).flatMap escapeChar

/-- An entry of `stack_` has the bracket and the number of tokens behind it, counted in an `int`. -/
structure JSONOutputStream where
  stack_ : List (TokenType × Int) := []
  output_ : Bytes := []
  deriving DecidableEq

namespace JSONOutputStream

def put (bytes : Bytes) (json : JSONOutputStream) : JSONOutputStream :=
  { json with output_ := json.output_ ++ bytes }

def beginObject : JSONOutputStream → JSONOutputStream := put (lit "\x7b")

def endObject : JSONOutputStream → JSONOutputStream := put (lit "\x7d")

def beginArray : JSONOutputStream → JSONOutputStream := put (lit "[")

def endArray : JSONOutputStream → JSONOutputStream := put (lit "]")

def addComma : JSONOutputStream → JSONOutputStream := put (lit ",")

def addColon : JSONOutputStream → JSONOutputStream := put (lit ":")

def addNull : JSONOutputStream → JSONOutputStream := put (lit "null")

def addTrue : JSONOutputStream → JSONOutputStream := put (lit "true")

def addFalse : JSONOutputStream → JSONOutputStream := put (lit "false")

def addBool (val : Bool) : JSONOutputStream → JSONOutputStream := if val then addTrue else addFalse

def addString (string : Bytes) : JSONOutputStream → JSONOutputStream :=
  put (34 :: (escapeString string ++ [34]))

def addInteger (value : Int) : JSONOutputStream → JSONOutputStream := put (toStringInt value)

def addFloat (value : UInt64) (json : JSONOutputStream) : Result JSONOutputStream :=
  if Libc.isnormal value then do
    let text ← StringUtil.toStringDouble value
    pure (json.put text)
  else .ok json.addNull

/-- `OutputStream::printf` of a text that has been formatted, through a buffer of 8192 bytes. The
text of an errno is left out of the messages. -/
def printf (text : Bytes) (json : JSONOutputStream) : Result JSONOutputStream :=
  if 2^31 ≤ text.length then Result.RAISE .ioError "vsnprintf() failed"
  else if text.length < 8192 then .ok (json.put text)
  else Result.RAISE .bufferOverflowError "vsnprintf() failed: value too large"

/-- No escaped text has a NUL in it, so `%s` takes all of it. -/
def addObjectEntry (key : Bytes) : JSONOutputStream → Result JSONOutputStream :=
  printf (34 :: (escapeString key ++ lit "\": "))

/-- `stack_.top().second++`, unless the stack is empty. -/
def increment (json : JSONOutputStream) : JSONOutputStream :=
  match json.stack_ with
  | [] => json
  | (type, n) :: stack => { json with stack_ := (type, toInt (n+1)) :: stack }

def pop (json : JSONOutputStream) : JSONOutputStream := { json with stack_ := json.stack_.tail }

def push (type : TokenType) (json : JSONOutputStream) : JSONOutputStream :=
  { json with stack_ := (type, 0) :: json.stack_ }

/-- The comma or the colon in front of a token. -/
def addSeparator (json : JSONOutputStream) : JSONOutputStream :=
  match json.stack_ with
  | (.arrayBegin, n) :: _ => if n > 0 then json.addComma else json
  | (.objectBegin, n) :: _ =>
    if n > 0 then if n % 2 = 0 then json.addComma else json.addColon else json
  | _ => json

def emplaceBack (token : TokenType) (data : Bytes) (json : JSONOutputStream) : JSONOutputStream :=
  match token with
  | .arrayEnd => json.endArray.pop.increment
  | .objectEnd => json.endObject.pop.increment
  | .arrayBegin => json.addSeparator.beginArray.push .arrayBegin
  | .objectBegin => json.addSeparator.beginObject.push .objectBegin
  | .string => (json.addSeparator.addString data).increment
  | .number => (json.addSeparator.addString data).increment
  | .true => json.addSeparator.addTrue.increment
  | .false => json.addSeparator.addFalse.increment
  | .null => json.addSeparator.addNull.increment

def write (obj : JSONObject) (json : JSONOutputStream) : JSONOutputStream :=
  obj.foldl (fun json t => json.emplaceBack t.type t.data) json

end JSONOutputStream
end Stx.Json
