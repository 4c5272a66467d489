import Stx.Base

/-! `protobuf/MessageObject.{h,cc}`, built with its type checks. -/
namespace Stx.Msg

inductive FieldType where
  | object | boolean | uint32 | string | uint64 | double | datetime
  deriving DecidableEq, Repr

/-- The tag, the id and the union of a message object in one value: the constructor
fixes the `type` field, so no object carries a value of another type. A double is its
64-bit pattern, a time its number of microseconds. -/
inductive MessageObject where
  | object (id : UInt32) (children : List MessageObject)
  | boolean (id : UInt32) (value : Bool)
  | uint32 (id : UInt32) (value : UInt32)
  | string (id : UInt32) (value : Bytes)
  | uint64 (id : UInt32) (value : UInt64)
  | double (id : UInt32) (value : UInt64)
  | datetime (id : UInt32) (value : UInt64)

namespace MessageObject

def id : MessageObject → UInt32
  | object id _ | boolean id _ | uint32 id _ | string id _ | uint64 id _ | double id _
  | datetime id _ => id

def type : MessageObject → FieldType
  | object .. => .object
  | boolean .. => .boolean
  | uint32 .. => .uint32
  | string .. => .string
  | uint64 .. => .uint64
  | double .. => .double
  | datetime .. => .datetime

def asObject : MessageObject → Result (List MessageObject)
  | object _ children => .ok children
  | _ => Result.RAISE .typeError

def asString : MessageObject → Result Bytes
  | string _ value => .ok value
  | _ => Result.RAISE .typeError

/-- A UINT64 is silently truncated. -/
def asUInt32 : MessageObject → Result UInt32
  | uint64 _ value => .ok value.toUInt32
  | uint32 _ value => .ok value
  | _ => Result.RAISE .typeError

def asUInt64 : MessageObject → Result UInt64
  | uint32 _ value => .ok value.toUInt64
  | uint64 _ value | datetime _ value => .ok value
  | _ => Result.RAISE .typeError "can't convert MessageObject to UINT64"

def asDouble : MessageObject → Result UInt64
  | double _ value => .ok value
  | _ => Result.RAISE .typeError

def asBool : MessageObject → Result Bool
  | uint32 _ value => .ok (value > 0)
  | boolean _ value => .ok value
  | _ => Result.RAISE .typeError

/-- `addChild`: only an OBJECT has a vector of children. -/
def addChild (msg child : MessageObject) : Result MessageObject :=
  match msg with
  | object id children => .ok (object id (children ++ [child]))
  | _ => Result.RAISE .typeError

def children : MessageObject → List MessageObject
  | object _ children => children
  | _ => []

/- `sizeof(MessageObject)`: an id, a tag and the union of a string, a vector and
   eight bytes. -/
def sizeofMessageObject : Nat := 40

/- Memory that a tree occupies: its nodes and the bytes of its strings. -/
mutual
def footprint : MessageObject → Nat
  | object _ children => sizeofMessageObject + footprints children
  | string _ value => sizeofMessageObject + value.length
  | boolean .. | uint32 .. | uint64 .. | double .. | datetime .. => sizeofMessageObject

def footprints : List MessageObject → Nat
  | [] => 0
  | c :: cs => footprint c + footprints cs
end

/- Number of nodes, the measure of a decoding run. -/
mutual
def nodes : MessageObject → Nat
  | object _ children => 1 + nodesList children
  | _ => 1

def nodesList : List MessageObject → Nat
  | [] => 0
  | c :: cs => nodes c + nodesList cs
end

/-- Induction on a tree, with the hypothesis for every child. -/
theorem induction {P : MessageObject → Prop}
    (object : ∀ id cs, (∀ c ∈ cs, P c) → P (object id cs))
    (scalar : ∀ m : MessageObject, m.type ≠ .object → P m) (m : MessageObject) : P m := by
  refine @MessageObject.rec P (fun cs => ∀ c ∈ cs, P c) object ?_ ?_ ?_ ?_ ?_ ?_ ?_ ?_ m
  case refine_7 => simp
  case refine_8 =>
    intro c cs hc hcs x hx
    rcases List.mem_cons.1 hx with rfl | hx
    · exact hc
    · exact hcs x hx
  all_goals
    intro id value
    exact scalar _ (by simp [type])

theorem children_of_type_ne {m : MessageObject} (h : m.type ≠ .object) : m.children = [] := by
  cases m with
  | object id cs => exact absurd rfl h
  | boolean | uint32 | string | uint64 | double | datetime => rfl

/-- Induction on a list of siblings, with the hypothesis for the children of each. -/
theorem list_induction {P : List MessageObject → Prop}
    (step : ∀ cs, (∀ c ∈ cs, P c.children) → P cs) (cs : List MessageObject) : P cs := by
  have hall : ∀ c : MessageObject, P c.children := by
    intro c
    induction c using MessageObject.induction with
    | object id ds ih => exact step ds ih
    | scalar m hm =>
      rw [children_of_type_ne hm]
      exact step [] (List.forall_mem_nil _)
  exact step cs fun c _ => hall c

end MessageObject
end Stx.Msg
