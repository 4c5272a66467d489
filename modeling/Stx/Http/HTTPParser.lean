import Stx.Http.HTTPMessage
import Mathlib.Data.List.DropRight

/-! `http/httpparser.{h,cc}`: an incremental parser of requests and responses. The bytes of
a message come in consecutive `parse()` calls; what is read of a token is kept in `buf_`
until its delimiter arrives. -/
namespace Stx.Http

/-- `kParserMode`. -/
inductive ParserMode where
  | request | response
  deriving DecidableEq, Repr

/-- `kParserState`. -/
inductive ParserState where
  | reqMethod | reqURI | reqVersion | resVersion | resStatusCode | resStatusName
  | header | body | done
  deriving DecidableEq, Repr

/-- The `on_..._cb_` members. -/
inductive Callback where
  | method | uri | version | statusCode | statusName | header | headersComplete | bodyChunk
  deriving DecidableEq, Repr

/-- A call of a callback, with its arguments. -/
inductive Event where
  | method (method : HTTPMethod)
  | uri (data : Bytes)
  | version (data : Bytes)
  | statusCode (code : Int)
  | statusName (data : Bytes)
  | header (key val : Bytes)
  | headersComplete
  | bodyChunk (data : Bytes)
  deriving DecidableEq, Repr

def Event.callback : Event → Callback
  | .method _ => .method
  | .uri _ => .uri
  | .version _ => .version
  | .statusCode _ => .statusCode
  | .statusName _ => .statusName
  | .header _ _ => .header
  | .headersComplete => .headersComplete
  | .bodyChunk _ => .bodyChunk

/-- `registered` says which callbacks are set, `calls` which calls were made to them. The
two counters are of type `size_t`. -/
@[ext] structure HTTPParser where
  mode_ : ParserMode
  state_ : ParserState
  buf_ : Bytes := []
  body_bytes_read_ : Nat := 0
  body_bytes_expected_ : Nat := 0
  expect_body_ : Bool := true
  registered : Callback → Bool
  calls : List Event := []

namespace HTTPParser

def kMaxMethodSize : Nat := 16
def kMaxURISize : Nat := 8192
def kMaxVersionSize : Nat := 16
def kMaxHeaderSize : Nat := 65535

def kContentLengthHeader : Bytes := lit "Content-Length"
def kConnectionHeader : Bytes := lit "Connection"

/-- `size_t(-1)`: the body is read until the end of the file. -/
def untilEof : Nat := 2^64-1

def initial : ParserMode → ParserState
  | .request => .reqMethod
  | .response => .resVersion

/-- A parser as the constructor leaves it, with callbacks set. -/
def new (mode : ParserMode) (registered : Callback → Bool) : HTTPParser :=
  { mode_ := mode, state_ := initial mode, registered }

def reset : Sys HTTPParser Unit := Sys.modify fun p =>
  { p with
    state_ := initial p.mode_, buf_ := [], body_bytes_read_ := 0, body_bytes_expected_ := 0,
    expect_body_ := true }

def ignoreBody : Sys HTTPParser Unit := Sys.modify fun p => { p with expect_body_ := false }

/-- `if (on_..._cb_) on_..._cb_(...)`. -/
def call (e : Event) : Sys HTTPParser Unit := Sys.modify fun p =>
  if p.registered e.callback then { p with calls := p.calls ++ [e] } else p

/-- `buf_.clear()` and the next state. -/
def advance (next : ParserState) : Sys HTTPParser Unit := Sys.modify fun p =>
  { p with buf_ := [], state_ := next }

/-- `BufferUtil::stripTrailingBytes`. -/
def stripTrailingBytes (data : Bytes) (byte : UInt8) : Bytes := data.rdropWhile (· = byte)

/-- Moves bytes to `buf_` up to `search`. The answer says whether `search` was found, and
which bytes are left. -/
def readUntil (data : Bytes) (search : UInt8) : Sys HTTPParser (Bool × Bytes) := fun p =>
  let cur := data.dropWhile (· ≠ search)
  (.ok (!cur.isEmpty, cur), { p with buf_ := p.buf_ ++ data.takeWhile (· ≠ search) })

/-- `if (buf_.size() > max) RAISEF(kParseError, error, max)`. -/
def checkSize (max : Nat) (error : String) : Sys HTTPParser Unit := Sys.reads fun p =>
  if p.buf_.length > max then .RAISEF .parseError error [StringUtil.toString max] else pure ()

/-- What the seven functions from `parseMethod` to `parseHeader` have in common: bytes up to a
delimiter are collected, the whole token is taken at the delimiter, and a token without one
is checked against a limit. -/
structure Token where
  search : UInt8
  read : Sys HTTPParser Unit
  max : Nat
  error : String

def Token.parse (t : Token) (data : Bytes) : Sys HTTPParser Bytes := do
  let (found, cur) ← readUntil data t.search
  if found then
    t.read
    return cur.tail
  else
    checkSize t.max t.error
    return cur

/- Without a method callback the branch does not return: `buf_` is kept, and the check
   behind the branch is made. -/
def readMethod : Sys HTTPParser Unit := do
  Sys.modify fun p => { p with state_ := .reqURI }
  let p ← Sys.get
  if p.registered .method then
    match HTTPMethod.ofText? p.buf_ with
    | some method =>
      call (.method method)
      Sys.modify fun p => { p with buf_ := [] }
    | none => Sys.reads fun p => .RAISEF .parseError "Invalid HTTP method: $0" [p.buf_]
  else checkSize kMaxMethodSize "HTTP method too large, max is $0"

def methodToken : Token where
  search := 32
  read := readMethod
  max := kMaxMethodSize
  error := "HTTP method too large, max is $0"

def parseMethod : Bytes → Sys HTTPParser Bytes := methodToken.parse

def uriToken : Token where
  search := 32
  read := do
    let p ← Sys.get
    call (.uri p.buf_)
    advance .reqVersion
  max := kMaxURISize
  error := "HTTP URI too large, max is $0"

def parseURI : Bytes → Sys HTTPParser Bytes := uriToken.parse

/-- A token up to the end of a line, without the carriage returns at its end. -/
def readLineEnd (event : Bytes → Event) : Sys HTTPParser Unit := do
  Sys.modify fun p => { p with buf_ := stripTrailingBytes p.buf_ 13 }
  let p ← Sys.get
  call (event p.buf_)
  advance .header

def requestVersionToken : Token where
  search := 10
  read := readLineEnd .version
  max := kMaxVersionSize
  error := "HTTP version too large, max is $0"

def parseRequestVersion : Bytes → Sys HTTPParser Bytes := requestVersionToken.parse

def responseVersionToken : Token where
  search := 32
  read := do
    Sys.modify fun p =>
      if Libc.strncasecmp p.buf_ (lit "HTTP/1.0") p.buf_.length = 0 then
        { p with body_bytes_expected_ := untilEof }
      else p
    let p ← Sys.get
    call (.version p.buf_)
    advance .resStatusCode
  max := kMaxVersionSize
  error := "HTTP version too large, max is $0"

def parseResponseVersion : Bytes → Sys HTTPParser Bytes := responseVersionToken.parse

/-- Limit and text are those of a URI. -/
def statusCodeToken : Token where
  search := 32
  read := do
    let p ← Sys.get
    match Libc.stoi p.buf_ with
    | none => Sys.reads fun p => .RAISEF .parseError "invalid http status code: $0" [p.buf_]
    | some status_code =>
      call (.statusCode status_code)
      advance .resStatusName
  max := kMaxURISize
  error := "HTTP URI too large, max is $0"

def parseResponseStatusCode : Bytes → Sys HTTPParser Bytes := statusCodeToken.parse

/-- Limit and text are those of a version. -/
def statusNameToken : Token where
  search := 10
  read := readLineEnd .statusName
  max := kMaxVersionSize
  error := "HTTP version too large, max is $0"

def parseResponseStatusName : Bytes → Sys HTTPParser Bytes := statusNameToken.parse

def isContentLength (key : Bytes) : Bool :=
  key.length = kContentLengthHeader.length ∧
    Libc.strncasecmp key kContentLengthHeader key.length = 0

def isConnectionClose (key val : Bytes) : Bool :=
  key.length = kConnectionHeader.length ∧
    Libc.strncasecmp key kConnectionHeader key.length = 0 ∧
    val.length = (lit "Close").length ∧ Libc.strncasecmp val (lit "Close") val.length = 0

def processHeader (key val : Bytes) : Sys HTTPParser Unit := do
  let p ← Sys.get
  if p.expect_body_ ∧ isContentLength key then
    match Libc.stoul val with
    | some n => Sys.modify fun p => { p with body_bytes_expected_ := n }
    | none => Sys.reads fun _ => .RAISEF .parseError "invalid content length: $0" [val]
  if p.mode_ = .response ∧ p.expect_body_ ∧ isConnectionClose key val then
    Sys.modify fun p => { p with body_bytes_expected_ := untilEof }
  call (.header key val)

/-- Name and value of a header line, split at the first colon. -/
def splitHeader (line : Bytes) : Option (Bytes × Bytes) :=
  match line.dropWhile (· ≠ 58) with
  | [] => none
  | _ :: val => some (line.takeWhile (· ≠ 58), val.dropWhile (· = 32))

/-- The empty line leaves `buf_` empty as it is. -/
def headersEnd : Sys HTTPParser Unit := do
  Sys.modify fun p =>
    { p with state_ := if p.body_bytes_expected_ = 0 then .done else .body }
  call .headersComplete

def readHeader : Sys HTTPParser Unit := do
  Sys.modify fun p => { p with buf_ := stripTrailingBytes p.buf_ 13 }
  let p ← Sys.get
  if p.buf_.length > 0 then
    match splitHeader p.buf_ with
    | none => Sys.reads fun p => .RAISEF .parseError "invalid HTTP header line: $0" [p.buf_]
    | some (key, val) =>
      processHeader key val
      advance .header
  else headersEnd

def headerToken : Token where
  search := 10
  read := readHeader
  max := kMaxHeaderSize
  error := "HTTP header too large, max is $0"

def parseHeader : Bytes → Sys HTTPParser Bytes := headerToken.parse

/-- All the bytes that are left go to the body. -/
def readBody (data : Bytes) : Sys HTTPParser Bytes := do
  Sys.modify fun p =>
    { p with body_bytes_read_ := (p.body_bytes_read_+data.length) % 2^64 }
  Sys.modify fun p =>
    if p.body_bytes_read_ = p.body_bytes_expected_ then { p with state_ := .done } else p
  call (.bodyChunk data)
  return []

/-- The `switch` of `parse`; the answer is what is left of the data. -/
def turn (data : Bytes) : Sys HTTPParser Bytes := do
  let p ← Sys.get
  match p.state_ with
  | .reqMethod => parseMethod data
  | .reqURI => parseURI data
  | .reqVersion => parseRequestVersion data
  | .resVersion => parseResponseVersion data
  | .resStatusCode => parseResponseStatusCode data
  | .resStatusName => parseResponseStatusName data
  | .header => parseHeader data
  | .done =>
    if p.mode_ = .request then
      Sys.reads fun _ => .RAISE .parseError "invalid trailing bytes"
    else readBody data
  | .body => readBody data

/-- `while (begin < end)`. -/
def parseLoop : Nat → Bytes → Sys HTTPParser Unit
  | _, [] => pure ()
  | 0, _ :: _ => fun p => (.diverge, p)
  | fuel+1, b :: data => do
    let rest ← turn (b :: data)
    parseLoop fuel rest

/-- Every turn takes a byte, so that there are at most `data.length` of them. -/
def parse (data : Bytes) : Sys HTTPParser Unit := parseLoop data.length data

def eof : Sys HTTPParser Unit := do
  let p ← Sys.get
  match p.state_ with
  | .done => pure ()
  | _ =>
    if p.body_bytes_expected_ ≠ untilEof ∧ p.body_bytes_read_ < p.body_bytes_expected_ then
      Sys.reads fun _ => .RAISE .parseError "unexpected end of file"
    else Sys.modify fun p => { p with state_ := .done }

/-- Consecutive `parse()` calls. An exception ends them. -/
def feed : List Bytes → Sys HTTPParser Unit
  | [] => pure ()
  | chunk :: chunks => do
    parse chunk
    feed chunks

/-- What the body callback was given, in order. -/
def bodyOf (calls : List Event) : Bytes :=
  calls.flatMap fun
    | .bodyChunk data => data
    | _ => []

example :
    ((feed [lit "POST /x HT", lit "TP/1.1\r\nContent-Length: 3\r", lit "\n\r\nab", lit "c"]
      (new .request fun _ => true)).2.calls) =
    [.method .post, .uri (lit "/x"), .version (lit "HTTP/1.1"),
      .header (lit "Content-Length") (lit "3"), .headersComplete, .bodyChunk (lit "ab"),
      .bodyChunk (lit "c")] := by decide +kernel

end HTTPParser
end Stx.Http
