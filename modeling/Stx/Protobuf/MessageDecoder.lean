import Stx.Protobuf.MessageSchema
import Stx.Util.BinaryMessageReader

/-! `protobuf/MessageDecoder.cc`. One turn of the field loop is `readTurn`; the loop
itself runs on fuel, one unit for each turn and each nested call, because on some
inputs the source never leaves it. -/
namespace Stx.Msg
open Util (BinaryMessageReader)

inductive WireType where
  | varint | fixed64 | lenenc | fixed32
  deriving DecidableEq, Repr

/-- `(WireType) uint8_t(fkey & 0x7)`; the other values reach the `default` branch. -/
def wireType (fkey : UInt64) : Option WireType :=
  match (fkey &&& 7).toNat with
  | 0 => some .varint
  | 1 => some .fixed64
  | 2 => some .lenenc
  | 5 => some .fixed32
  | _ => none

namespace MessageDecoder

/-- `std::string::max_size()`. -/
def stringMaxSize : Nat := 2^63-1

/-- `String(val, len)`. -/
def mkString (val : Bytes) (len : Nat) : Result Bytes :=
  if len > stringMaxSize then Result.RAISE .lengthError else .ok val

theorem mkString_ok {len : Nat} (h : len < 2^63) (val : Bytes) : mkString val len = .ok val := by
  rw [mkString, if_neg (by unfold stringMaxSize; omega)]

theorem mkString_raise {len : Nat} (h : ¬len < 2^63) (val : Bytes) :
    mkString val len = Result.RAISE .lengthError := by
  rw [mkString, if_pos (by unfold stringMaxSize; omega)]

/- The `skip unknown fields` branch, after the key. -/
def skipUnknown (fkey : UInt64) (r : BinaryMessageReader) : Result BinaryMessageReader :=
  match wireType fkey with
  | some .varint => do
    let (_, r) ← r.readVarUInt
    pure r
  | some .lenenc => do
    let (len, r) ← r.readVarUInt
    let (_, r) ← r.read len.toNat
    pure r
  | some .fixed32 => do
    let (_, r) ← r.readUInt32
    pure r
  | some .fixed64 => do
    let (_, r) ← r.readUInt64
    pure r
  | none => Result.RAISE .runtimeError "invalid wire type"

/-- What one turn of the field loop has read: nothing to keep, a child that is
complete, or the bytes of an object still to be decoded. -/
inductive Turn where
  | skipped (r : BinaryMessageReader)
  | scalar (r : BinaryMessageReader) (child : MessageObject)
  | nested (r : BinaryMessageReader) (id : UInt32) (data : Bytes) (schema : MessageSchema)

def Turn.reader : Turn → BinaryMessageReader
  | skipped r | scalar r _ | nested r _ _ _ => r

/- The `parse known fields` branch, after the key. For an OBJECT the child is added
   to `msg` before the length is checked, which raises when `msg` is no object. -/
def parseKnown (fid : UInt32) (r : BinaryMessageReader) (schema : MessageSchema)
    (msg : MessageObject) : Result Turn := do
  match ← schema.fieldType fid with
  | .object =>
    let (len, r) ← r.readVarUInt
    let _ ← msg.asObject
    if len.toNat > r.remaining then Result.RAISE .bufferOverflowError
    else
      let obj_schema ← schema.fieldSchema fid
      let (data, r) ← r.read len.toNat
      let obj_schema ← MessageSchema.deref obj_schema
      pure (.nested r fid data obj_schema)
  | .uint32 =>
    let (val, r) ← r.readVarUInt
    pure (.scalar r (.uint32 fid val.toUInt32))
  | .uint64 =>
    let (val, r) ← r.readVarUInt
    pure (.scalar r (.uint64 fid val))
  | .datetime =>
    let (val, r) ← r.readVarUInt
    pure (.scalar r (.datetime fid val))
  | .double =>
    let (val, r) ← r.readDouble
    pure (.scalar r (.double fid val))
  | .boolean =>
    let (val, r) ← r.readVarUInt
    pure (.scalar r (.boolean fid (val == 1)))
  | .string =>
    let (len, r) ← r.readVarUInt
    let (val, r) ← r.read len.toNat
    let str ← mkString val len.toNat
    pure (.scalar r (.string fid str))

/- The 61 bits of `fkey >> 3` become a `uint32_t` at every call that takes an id. -/
def readPayload (fkey : UInt64) (r : BinaryMessageReader) (schema : MessageSchema)
    (msg : MessageObject) : Result Turn :=
  let fid := (fkey >>> 3).toUInt32
  if !schema.hasField fid then do
    let r ← skipUnknown fkey r
    pure (.skipped r)
  else parseKnown fid r schema msg

def readTurn (r : BinaryMessageReader) (schema : MessageSchema) (msg : MessageObject) :
    Result Turn := do
  let (fkey, r) ← r.readVarUInt
  readPayload fkey r schema msg

/-- `while (reader.remaining() > 0)`. -/
def decodeLoop : Nat → BinaryMessageReader → MessageSchema → MessageObject → Result MessageObject
  | 0, _, _, _ => .diverge
  | fuel+1, r, schema, msg =>
    if r.remaining > 0 then do
      match ← readTurn r schema msg with
      | .skipped r => decodeLoop fuel r schema msg
      | .scalar r child =>
        let msg ← msg.addChild child
        decodeLoop fuel r schema msg
      | .nested r id data obj_schema =>
        let nxt ← decodeLoop fuel (.new data) obj_schema (.object id [])
        let msg ← msg.addChild nxt
        decodeLoop fuel r schema msg
    else .ok msg

/-- Decodes `buf` into `msg`, with `fuel` turns and calls to spend. -/
def decode (fuel : Nat) (buf : Bytes) (schema : MessageSchema) (msg : MessageObject) :
    Result MessageObject :=
  decodeLoop fuel (.new buf) schema msg

section turns
variable {fuel : Nat} {r r' : BinaryMessageReader} {schema : MessageSchema} {msg : MessageObject}

theorem decodeLoop_end (h : r.remaining = 0) : decodeLoop (fuel+1) r schema msg = .ok msg := by
  simp [decodeLoop, h]

theorem decodeLoop_raise {e : Exception} (h : 0 < r.remaining)
    (ht : readTurn r schema msg = .raise e) : decodeLoop (fuel+1) r schema msg = .raise e := by
  simp [decodeLoop, h, ht]

theorem decodeLoop_skipped (h : 0 < r.remaining)
    (ht : readTurn r schema msg = .ok (.skipped r')) :
    decodeLoop (fuel+1) r schema msg = decodeLoop fuel r' schema msg := by
  simp [decodeLoop, h, ht]

theorem decodeLoop_scalar {child : MessageObject} (h : 0 < r.remaining)
    (ht : readTurn r schema msg = .ok (.scalar r' child)) :
    decodeLoop (fuel+1) r schema msg =
      (msg.addChild child >>= fun msg => decodeLoop fuel r' schema msg) := by
  simp [decodeLoop, h, ht]

theorem decodeLoop_nested {id : UInt32} {data : Bytes} {obj_schema : MessageSchema}
    (h : 0 < r.remaining) (ht : readTurn r schema msg = .ok (.nested r' id data obj_schema)) :
    decodeLoop (fuel+1) r schema msg =
      (decodeLoop fuel (.new data) obj_schema (.object id []) >>= fun nxt =>
        msg.addChild nxt >>= fun msg => decodeLoop fuel r' schema msg) := by
  simp [decodeLoop, h, ht]

end turns
end MessageDecoder
end Stx.Msg
