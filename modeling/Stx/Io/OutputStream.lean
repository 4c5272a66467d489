import Stx.Util.BinaryMessageWriter

/-! `io/outputstream.{h,cc}`, for a `StringOutputStream`: every byte that is written stands in the
string. -/
namespace Stx.Io

/-- `OutputStream::appendVarUInt`, with what the stream's own `write` makes of the bytes. The loop
over `unsigned char buf[10]` is the one of `BinaryMessageWriter`. -/
def OutputStream.appendVarUInt {α : Type} (write : Bytes → α) (value : UInt64) : α :=
  write (Util.BinaryMessageWriter.varUIntLoop 10 value)

/-- The string that is written to. -/
structure StringOutputStream where
  str_ : Bytes
  deriving DecidableEq, Repr

namespace StringOutputStream

def fromString (string : Bytes) : StringOutputStream := ⟨string⟩

def write (out : StringOutputStream) (data : Bytes) : StringOutputStream := ⟨out.str_ ++ data⟩

def appendVarUInt (out : StringOutputStream) (value : UInt64) : StringOutputStream :=
  out.write (Util.BinaryMessageWriter.varUIntLoop 10 value)

def appendLenencString (out : StringOutputStream) (string : Bytes) : StringOutputStream :=
  (out.appendVarUInt (UInt64.ofNat string.length)).write string

theorem appendVarUInt_eq (out : StringOutputStream) (value : UInt64) :
    out.appendVarUInt value = OutputStream.appendVarUInt out.write value := rfl

@[simp] theorem str_write (out : StringOutputStream) (data : Bytes) :
    (out.write data).str_ = out.str_ ++ data := rfl

@[simp] theorem str_appendVarUInt (out : StringOutputStream) (value : UInt64) :
    (out.appendVarUInt value).str_ = out.str_ ++ Util.BinaryMessageWriter.varUIntBytes value := rfl

@[simp] theorem str_appendLenencString (out : StringOutputStream) (string : Bytes) :
    (out.appendLenencString string).str_ =
      out.str_ ++ Util.BinaryMessageWriter.lenencBytes string := by
  simp [appendLenencString, Util.BinaryMessageWriter.lenencBytes]

end StringOutputStream
end Stx.Io
