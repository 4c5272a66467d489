import Stx.Base
import Mathlib.Data.List.TakeDrop

/-! `SHA1.{h,cc}` as far as record ids need it, and `fnv.{h,cc}`. -/
namespace Stx

/-- `stx::SHA1Hash`: twenty bytes. -/
@[ext]
structure SHA1Hash where
  hash : Bytes
  size_eq : hash.length = 20
  deriving DecidableEq

namespace SHA1Hash

def kSize : Nat := 20

@[simp] theorem length_hash (id : SHA1Hash) : id.hash.length = 20 := id.size_eq

/-- The default constructor. -/
def zero : SHA1Hash := ⟨List.replicate 20 0, rfl⟩

/-- The twenty bytes of a buffer from a position on. -/
def ofMemory (buf : Bytes) (pos : Nat) : SHA1Hash :=
  ⟨(buf.drop pos).takeD kSize 0, List.takeD_length _ _ _⟩

theorem ofMemory_eq {buf : Bytes} {pos : Nat} {id : SHA1Hash}
    (h : (buf.drop pos).take kSize = id.hash) : ofMemory buf pos = id := by
  have hlen : kSize ≤ (buf.drop pos).length := by
    have hmin := congrArg List.length h
    rw [List.length_take, id.size_eq] at hmin
    change 20 ≤ _
    change min 20 _ = 20 at hmin
    omega
  apply SHA1Hash.ext
  change (buf.drop pos).takeD kSize 0 = id.hash
  rw [List.takeD_eq_take _ hlen, h]

end SHA1Hash

/-- `FNV<T>` for an unsigned type of `bits` bits: FNV-1a with its running value. -/
structure FNV (bits : Nat) where
  basis_ : BitVec bits
  prime_ : BitVec bits
  memory_ : BitVec bits := basis_

namespace FNV

def new64 : FNV 64 := { basis_ := 14695981039346656037, prime_ := 1099511628211 }

def hash {bits : Nat} (fnv : FNV bits) (data : Bytes) : FNV bits :=
  data.foldl
    (fun f b => { f with memory_ := (f.memory_ ^^^ BitVec.ofNat bits b.toNat) * f.prime_ }) fnv

def get {bits : Nat} (fnv : FNV bits) : BitVec bits := fnv.memory_

end FNV
end Stx
