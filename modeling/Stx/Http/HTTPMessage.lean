import Stx.Libc

/-! `http/httpmessage.{h,cc}`, and the data of `HTTPRequest` and `HTTPResponse`. -/
namespace Stx.Http

/-- `HTTPMessage::kHTTPMethod`. -/
inductive HTTPMethod where
  | connect | delete | get | head | options | post | put | trace
  deriving DecidableEq, Repr

namespace HTTPMethod

/-- `StringUtil::toString(kHTTPMethod)`. -/
def toString : HTTPMethod → Bytes
  | connect => lit "CONNECT"
  | delete => lit "DELETE"
  | get => lit "GET"
  | head => lit "HEAD"
  | options => lit "OPTIONS"
  | post => lit "POST"
  | put => lit "PUT"
  | trace => lit "TRACE"

/-- The methods in the order in which the parser compares their names. -/
def all : List HTTPMethod := [connect, delete, get, head, options, post, put, trace]

def ofText? (text : Bytes) : Option HTTPMethod := all.find? (·.toString = text)

theorem ofText?_toString (m : HTTPMethod) : ofText? m.toString = some m := by
  cases m <;> decide

end HTTPMethod

theorem lower_nil : ∀ header ∈ ([] : List (Bytes × Bytes)), header.1.map Libc.tolower = header.1 :=
  List.forall_mem_nil _

/-- `HeaderList`. Names come into it through `addHeader` and `setHeader` only, in lower case. -/
@[ext] structure HeaderList where
  list : List (Bytes × Bytes) := []
  lower : ∀ header ∈ list, header.1.map Libc.tolower = header.1 := by exact lower_nil
  deriving DecidableEq

def lowercase (key : Bytes) : Bytes := key.map Libc.tolower

theorem tolower_tolower (c : UInt8) : Libc.tolower (Libc.tolower c) = Libc.tolower c := by
  unfold Libc.tolower
  by_cases h : 65 ≤ c ∧ c ≤ 90
  · have hnot : ¬(65 ≤ c+32 ∧ c+32 ≤ 90) := by
      simp only [UInt8.le_iff_toNat_le, UInt8.toNat_add] at h ⊢
      change ¬(65 ≤ (c.toNat+32) % 256 ∧ (c.toNat+32) % 256 ≤ 90)
      have hlo : 65 ≤ c.toNat := h.1
      have hhi : c.toNat ≤ 90 := h.2
      omega
    rw [if_pos h, if_neg hnot]
  · rw [if_neg h, if_neg h]

theorem lowercase_lowercase (key : Bytes) : lowercase (lowercase key) = lowercase key := by
  simp [lowercase, tolower_tolower]

structure HTTPMessage where
  version_ : Bytes := []
  headers_ : HeaderList := {}
  body_ : Bytes := []
  deriving DecidableEq

namespace HTTPMessage

def hasHeader (msg : HTTPMessage) (key : Bytes) : Bool :=
  msg.headers_.list.any (·.1 = lowercase key)

end HTTPMessage

def HeaderList.add (headers : HeaderList) (key value : Bytes) : HeaderList where
  list := headers.list ++ [(lowercase key, value)]
  lower header h := by
    rcases List.mem_append.1 h with h | h
    · exact headers.lower header h
    · rw [List.mem_singleton.1 h]
      exact lowercase_lowercase key

def HeaderList.addAll (headers : HeaderList) (fields : List (Bytes × Bytes)) : HeaderList :=
  fields.foldl (fun headers field => headers.add field.1 field.2) headers

theorem HeaderList.list_addAll (headers : HeaderList) (fields : List (Bytes × Bytes)) :
    (headers.addAll fields).list =
      headers.list ++ fields.map fun field => (lowercase field.1, field.2) := by
  induction fields generalizing headers with
  | nil => simp [addAll]
  | cons field fields ih =>
    have hstep := ih (headers.add field.1 field.2)
    simpa [addAll, add] using hstep

def HTTPMessage.addHeader (msg : HTTPMessage) (key value : Bytes) : HTTPMessage :=
  { msg with headers_ := msg.headers_.add key value }

def HTTPMessage.appendBody (msg : HTTPMessage) (data : Bytes) : HTTPMessage :=
  { msg with body_ := msg.body_ ++ data }

structure HTTPRequest extends HTTPMessage where
  method_ : HTTPMethod := .get
  url_ : Bytes := []
  deriving DecidableEq

structure HTTPResponse extends HTTPMessage where
  status_code_ : Int := 404
  status_ : Bytes := lit "Not found"
  deriving DecidableEq

end Stx.Http
