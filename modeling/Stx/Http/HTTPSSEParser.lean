import Stx.StringUtil

/-! `http/HTTPSSEParser.{h,cc}`. The loops keep their positions; `begin` is an `int` in both. -/
namespace Stx.Http

structure HTTPSSEEvent where
  data : Bytes := []
  name : Option Bytes := none
  deriving DecidableEq, Repr

/-- `on_event_` is a function or empty. -/
structure HTTPSSEParser where
  buf_ : Bytes := []
  on_event_ : Bool := false
  deriving DecidableEq

namespace HTTPSSEParser
open StringUtil

def onEvent (p : HTTPSSEParser) : HTTPSSEParser := { p with on_event_ := true }

def charAt (data : Bytes) (cur : Nat) : UInt8 := data.getD cur 0

def kDataFieldPrefix : Bytes := lit "data: "
def kNameFieldPrefix : Bytes := lit "event: "

def addLine (event : HTTPSSEEvent) (line : Bytes) : HTTPSSEEvent :=
  if kDataFieldPrefix.isPrefixOf line then { event with data := line.drop kDataFieldPrefix.length }
  else if kNameFieldPrefix.isPrefixOf line then
    { event with name := some (line.drop kNameFieldPrefix.length) }
  else event

/-- The bytes from `begin` up to `cur`. -/
def slice (data : Bytes) (begin : Int) (cur : Nat) : Bytes :=
  (data.drop begin.toNat).take (cur-begin.toNat)

/- A comparison with a `size_t` takes a negative `begin` for a huge one. -/
def parseEventLoop (data : Bytes) : Nat → Int → Nat → HTTPSSEEvent → HTTPSSEEvent
  | 0, _, _, event => event
  | fuel+1, begin, cur, event =>
    if cur < data.length then
      if charAt data cur = 13 ∨ charAt data cur = 10 then
        let event := if begin % 2^64 < cur then addLine event (slice data begin cur) else event
        let cur :=
          if cur+1 < data.length ∧ charAt data cur = 13 ∧ charAt data (cur+1) = 10 then cur+1 else cur
        parseEventLoop data fuel (toInt (cur+1 : Nat)) (cur+1) event
      else parseEventLoop data fuel begin (cur+1) event
    else event

/-- The event that `on_event_` is called with, if it is called. -/
def parseEvent (on_event_ : Bool) (data : Bytes) : List HTTPSSEEvent :=
  let event := parseEventLoop data data.length 0 0 {}
  if event.data ≠ [] ∧ on_event_ then [event] else []

/-- The `for` loop of `parse`: it counts line ends in a row, up to two. -/
def scanLoop (buf : Bytes) : Nat → Nat → Nat → Nat × Nat
  | 0, state, cur => (state, cur)
  | fuel+1, state, cur =>
    if state < 2 ∧ cur < buf.length then
      if charAt buf cur = 10 then scanLoop buf fuel (state+1) (cur+1)
      else if charAt buf cur = 13 then
        let cur := if cur+1 < buf.length ∧ charAt buf (cur+1) = 10 then cur+1 else cur
        scanLoop buf fuel (state+1) (cur+1)
      else scanLoop buf fuel 0 (cur+1)
    else (state, cur)

def parseLoop (on_event_ : Bool) (buf : Bytes) : Nat → Int → Nat → List HTTPSSEEvent →
    Int × List HTTPSSEEvent
  | 0, begin, _, events => (begin, events)
  | fuel+1, begin, cur, events =>
    if begin % 2^64 < buf.length then
      match scanLoop buf buf.length 0 cur with
      | (2, cur) =>
        parseLoop on_event_ buf fuel (toInt cur) cur
          (events ++ parseEvent on_event_ (slice buf begin cur))
      | _ => (begin, events)
    else (begin, events)

/-- The events that are emitted, and the parser behind the call. -/
def parse (data : Bytes) (p : HTTPSSEParser) : List HTTPSSEEvent × HTTPSSEParser :=
  let buf := p.buf_ ++ data
  let (begin, events) := parseLoop p.on_event_ buf (buf.length+1) 0 0 []
  (events, { p with buf_ := if 0 < begin then buf.drop begin.toNat else buf })

/-- Calls of `parse`, one for each chunk. -/
def parseChunks : List Bytes → HTTPSSEParser → List HTTPSSEEvent × HTTPSSEParser
  | [], p => ([], p)
  | data :: chunks, p =>
    let (events, p) := parse data p
    let (later, p) := parseChunks chunks p
    (events ++ later, p)

example : parseChunks [lit "event: a\r\ndata: b\r\n\r", lit "\ndata: c\n\nda"] (onEvent {}) =
    ([{ name := some (lit "a"), data := lit "b" }, { data := lit "c" }],
      { buf_ := lit "da", on_event_ := true }) := by decide +kernel

end HTTPSSEParser
end Stx.Http
