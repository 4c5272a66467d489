import Stx.Http.HTTPMessage
import Stx.StringUtil

/-! `http/httpgenerator.cc`: the text of a request and of a response. Every line is built by
`StringUtil::format`. -/
namespace Stx.Http.HTTPGenerator

def generateHeaders : List (Bytes × Bytes) → Result Bytes
  | [] => .ok []
  | header :: headers => do
    let line ← StringUtil.formatInt "$0: $1\r\n" [header.1, header.2]
    let rest ← generateHeaders headers
    return line ++ rest

/-- The generator announces the length of a body that has no header for it. -/
def addsLength (req : HTTPRequest) : Bool :=
  0 < req.body_.length && !req.hasHeader (lit "Content-Length")

def generateLength (req : HTTPRequest) : Result Bytes :=
  if addsLength req then
    StringUtil.formatInt "Content-Length: $0\r\n" [StringUtil.toString req.body_.length]
  else .ok []

def generate (req : HTTPRequest) : Result Bytes := do
  let line ← StringUtil.formatInt "$0 $1 $2\r\n" [req.method_.toString, req.url_, req.version_]
  let headers ← generateHeaders req.headers_.list
  let length ← generateLength req
  return line ++ headers ++ length ++ lit "\r\n" ++ req.body_

def generateResponse (res : HTTPResponse) : Result Bytes := do
  if res.version_.length < 4 then
    .RAISEF .runtimeError "invalid http version: $0" [res.version_]
  let line ← StringUtil.formatInt "$0 $1 $2\r\n"
    [res.version_, StringUtil.toStringInt res.status_code_, res.status_]
  let headers ← generateHeaders res.headers_.list
  return line ++ headers ++ lit "\r\n" ++ res.body_

/- The same with the output stream, which keeps what was written before an exception. -/

def write (text : Bytes) : Sys Bytes Unit := Sys.modify fun os => os ++ text

def writeLine (text : Result Bytes) : Sys Bytes Unit := do
  let line ← Sys.reads fun _ => text
  write line

def writeHeaders : List (Bytes × Bytes) → Sys Bytes Unit
  | [] => pure ()
  | header :: headers => do
    writeLine (StringUtil.formatInt "$0: $1\r\n" [header.1, header.2])
    writeHeaders headers

def writeResponse (res : HTTPResponse) : Sys Bytes Unit := do
  Sys.reads fun _ =>
    if res.version_.length < 4 then
      .RAISEF .runtimeError "invalid http version: $0" [res.version_]
    else .ok ()
  writeLine (StringUtil.formatInt "$0 $1 $2\r\n"
    [res.version_, StringUtil.toStringInt res.status_code_, res.status_])
  writeHeaders res.headers_.list
  write (lit "\r\n")
  write res.body_

/-- What is written of a response: all of it, or what comes before an exception. -/
def responseText (res : HTTPResponse) : Bytes := (writeResponse res []).2

/-- The call only appends, and what it appends does not depend on the stream. -/
def Appends {α : Type} (x : Sys Bytes α) : Prop := ∀ os, x os = ((x []).1, os ++ (x []).2)

section appends
variable {α β : Type} {x : Sys Bytes α} {f : α → Sys Bytes β}

theorem Appends.bind (hx : Appends x) (hf : ∀ a, Appends (f a)) : Appends (x >>= f) := by
  intro os
  have hos := hx os
  cases hnil : x [] with
  | mk r text =>
    rw [hnil] at hos
    cases r with
    | ok a =>
      rw [Sys.bind_of_ok hos, Sys.bind_of_ok hnil, hf a (os ++ text), hf a text,
        List.append_assoc]
    | raise e => rw [Sys.bind_of_raise hos, Sys.bind_of_raise hnil]
    | diverge => rw [Sys.bind_of_diverge hos, Sys.bind_of_diverge hnil]

theorem appends_reads (text : Result α) : Appends (Sys.reads fun _ : Bytes => text) := by
  intro os
  simp

theorem appends_write (text : Bytes) : Appends (write text) := by
  intro os
  simp [write]

theorem appends_writeLine (text : Result Bytes) : Appends (writeLine text) :=
  (appends_reads text).bind appends_write

theorem appends_writeHeaders (headers : List (Bytes × Bytes)) : Appends (writeHeaders headers) := by
  induction headers with
  | nil =>
    intro os
    simp [writeHeaders]
  | cons header headers ih => exact (appends_writeLine _).bind fun _ => ih

theorem appends_writeResponse (res : HTTPResponse) : Appends (writeResponse res) :=
  (appends_reads _).bind fun _ => (appends_writeLine _).bind fun _ =>
    (appends_writeHeaders _).bind fun _ => (appends_write _).bind fun _ => appends_write _

end appends

theorem writeLine_ok {text : Result Bytes} {line : Bytes} (h : text = .ok line) (os : Bytes) :
    writeLine text os = (.ok (), os ++ line) := by
  rw [writeLine, h]
  rfl

theorem writeHeaders_ok {headers : List (Bytes × Bytes)} {text : Bytes}
    (h : generateHeaders headers = .ok text) (os : Bytes) :
    writeHeaders headers os = (.ok (), os ++ text) := by
  induction headers generalizing text os with
  | nil =>
    cases h
    simp [writeHeaders]
  | cons header headers ih =>
    rw [generateHeaders] at h
    obtain ⟨line, hline, h⟩ := Result.bind_eq_ok h
    obtain ⟨rest, hrest, h⟩ := Result.bind_eq_ok h
    cases h
    rw [writeHeaders, Sys.bind_of_ok (writeLine_ok hline os), ih hrest, List.append_assoc]

/-- A response that can be generated is appended to the stream as a whole. -/
theorem writeResponse_ok {res : HTTPResponse} {text : Bytes}
    (h : generateResponse res = .ok text) (os : Bytes) :
    writeResponse res os = (.ok (), os ++ text) := by
  unfold generateResponse at h
  by_cases hver : res.version_.length < 4
  · simp only [hver, if_true] at h
    cases h
  simp only [hver, if_false] at h
  obtain ⟨-, -, h⟩ := Result.bind_eq_ok h
  obtain ⟨line, hline, h⟩ := Result.bind_eq_ok h
  obtain ⟨headers, hheaders, h⟩ := Result.bind_eq_ok h
  cases h
  rw [writeResponse, Sys.reads_bind (a := ()) (by rw [if_neg hver]),
    Sys.bind_of_ok (writeLine_ok hline os), Sys.bind_of_ok (writeHeaders_ok hheaders _)]
  simp [write]

theorem responseText_eq {res : HTTPResponse} {text : Bytes} (h : generateResponse res = .ok text) :
    responseText res = text := by
  rw [responseText, writeResponse_ok h]
  rfl

end Stx.Http.HTTPGenerator
