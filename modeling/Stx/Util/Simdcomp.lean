import Stx.Base
import Stx.Lib.Blocks
import Stx.Lib.LittleEndian
import Mathlib.Data.List.GetD
import Mathlib.Data.Nat.Size

/-! What the bit packing uses of the vendored simdcomp, `bits`, `simdpackwithoutmask` and
`simdunpack`. A register has four lanes of 32 bits, and the values go round the lanes. -/
namespace Stx.Util

/-- The three functions, with what they are relied on for. -/
structure Simdcomp where
  bits : UInt32 → Nat
  simdpackwithoutmask : List UInt32 → Nat → Bytes
  simdunpack : Bytes → Nat → List UInt32
  bits_eq : ∀ v, bits v = Nat.size v.toNat
  length_pack : ∀ (block : List UInt32) (bit : Nat), block.length = 128 →
    (simdpackwithoutmask block bit).length = 16*bit
  unpack_pack : ∀ (block : List UInt32) (bit : Nat), 0 < bit → bit ≤ 32 → block.length = 128 →
    (∀ v ∈ block, v.toNat < 2^bit) → simdunpack (simdpackwithoutmask block bit) bit = block

namespace Simdcomp

/-- The values of one lane. -/
def lane (block : List UInt32) (k : Nat) : List Nat :=
  (List.range 32).map fun i => (block.getD (4*i+k) 0).toNat

/-- A lane as one number. The values are its digits, the first one the lowest. -/
def laneNumber (block : List UInt32) (bit k : Nat) : Nat := Nat.ofDigits (2^bit) (lane block k)

/-- The registers that are stored, word by word, for values that have no more than `bit` bits. -/
def packLanes (block : List UInt32) (bit : Nat) : Bytes :=
  (List.range (4*bit)).flatMap fun j =>
    LittleEndian.encode 4 (laneNumber block bit (j % 4) / (2^32)^(j/4) % 2^32)

def loadWord (data : Bytes) (j : Nat) : Nat := LittleEndian.decode ((data.drop (4*j)).take 4)

def loadLane (data : Bytes) (bit k : Nat) : Nat :=
  Nat.ofDigits (2^32) ((List.range bit).map fun w => loadWord data (4*w+k))

def unpackLanes (data : Bytes) (bit : Nat) : List UInt32 :=
  (List.range 128).map fun j =>
    UInt32.ofNat (loadLane data bit (j % 4) / (2^bit)^(j/4) % 2^bit)

theorem length_packLanes (block : List UInt32) (bit : Nat) :
    (packLanes block bit).length = 16*bit := by
  rw [packLanes, Blocks.length_flatMap fun _ _ => LittleEndian.length_encode 4 _, List.length_range]
  ring

theorem loadWord_packLanes (block : List UInt32) {bit j : Nat} (hj : j < 4*bit) :
    loadWord (packLanes block bit) j =
      laneNumber block bit (j % 4) / (2^32)^(j/4) % 2^32 := by
  have hindex : (List.range (4*bit))[j]? = some j := by
    rw [List.getElem?_range hj]
  rw [loadWord, packLanes,
    Blocks.take_drop_flatMap (fun _ _ => LittleEndian.length_encode 4 _) hindex]
  exact LittleEndian.decode_encode_of_lt (Nat.mod_lt _ (by decide))

section
variable {block : List UInt32} {bit : Nat}

theorem lane_lt (hlt : ∀ v ∈ block, v.toNat < 2^bit) (k : Nat) : ∀ d ∈ lane block k, d < 2^bit := by
  intro d hd
  obtain ⟨i, -, rfl⟩ := List.mem_map.1 hd
  by_cases hi : 4*i+k < block.length
  · rw [List.getD_eq_getElem _ _ hi]
    exact hlt _ (List.getElem_mem hi)
  · rw [List.getD_eq_default _ _ (Nat.not_lt.1 hi)]
    exact Nat.two_pow_pos bit

theorem loadLane_packLanes (hpos : 0 < bit) (hlt : ∀ v ∈ block, v.toNat < 2^bit) {k : Nat}
    (hk : k < 4) : loadLane (packLanes block bit) bit k = laneNumber block bit k := by
  have hwords : (List.range bit).map (fun w => loadWord (packLanes block bit) (4*w+k)) =
      (List.range bit).map fun w => laneNumber block bit k / (2^32)^w % 2^32 := by
    refine List.map_congr_left fun w hw => ?_
    have hw := List.mem_range.1 hw
    rw [loadWord_packLanes block (by omega), Nat.mul_add_mod, Nat.mod_eq_of_lt hk,
      Nat.mul_add_div (by decide), Nat.div_eq_of_lt hk, Nat.add_zero]
  have hsize : laneNumber block bit k < (2^32)^bit := by
    have hbound := Nat.ofDigits_lt_base_pow_length (Nat.one_lt_two_pow (Nat.ne_of_gt hpos))
      (lane_lt hlt k)
    rwa [lane, List.length_map, List.length_range, ← Nat.pow_mul, Nat.mul_comm, Nat.pow_mul]
      at hbound
  rw [loadLane, hwords, Blocks.ofDigits_range, Nat.mod_eq_of_lt hsize]

theorem unpackLanes_packLanes (hpos : 0 < bit) (hlen : block.length = 128)
    (hlt : ∀ v ∈ block, v.toNat < 2^bit) : unpackLanes (packLanes block bit) bit = block := by
  refine List.ext_getElem (by rw [unpackLanes, List.length_map, List.length_range, hlen]) ?_
  intro j hj hj'
  simp only [unpackLanes, List.getElem_map, List.getElem_range]
  rw [loadLane_packLanes hpos hlt (Nat.mod_lt j (by decide))]
  have hplace : (lane block (j % 4))[j/4]? = some block[j].toNat := by
    rw [lane, List.getElem?_map, List.getElem?_range (by omega), Option.map_some,
      Nat.div_add_mod, List.getD_eq_getElem _ _ hj']
  rw [laneNumber, Blocks.digit_ofDigits (lane_lt hlt _) hplace, UInt32.ofNat_toNat]

end

/-- The vendored functions. -/
def vendored : Simdcomp where
  bits v := Nat.size v.toNat
  simdpackwithoutmask := packLanes
  simdunpack := unpackLanes
  bits_eq _ := rfl
  length_pack block bit _ := length_packLanes block bit
  unpack_pack _ _ hpos _ hlen hlt := unpackLanes_packLanes hpos hlen hlt

end Simdcomp
end Stx.Util
