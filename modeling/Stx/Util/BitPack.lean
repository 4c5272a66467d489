import Stx.Util.Simdcomp

/-! `util/BitPackEncoder.{h,cc}` and `util/BitPackDecoder.{h,cc}`. Values go in and come out in
blocks of 128. -/
namespace Stx.Util

/-- No bits are kept when every value is zero. -/
def maxbits (simd : Simdcomp) (max_val : UInt32) : Nat := if 0 < max_val then simd.bits max_val else 0

/-- `inbuf_` holds the `inbuf_size_` values that are filled in. -/
structure BitPackEncoder where
  inbuf_ : List UInt32
  maxbits_ : Nat
  buf_ : Bytes

/-- The values behind `outbuf_pos_` are still to be returned. -/
structure BitPackDecoder where
  data_ : Bytes
  maxbits_ : Nat
  pos_ : Nat
  outbuf_ : List UInt32
  outbuf_pos_ : Nat

section
variable (simd : Simdcomp)

namespace BitPackEncoder

def new (max_val : UInt32) : BitPackEncoder := ⟨[], maxbits simd max_val, []⟩

/-- The block is filled up with zeros. -/
def flush (e : BitPackEncoder) : BitPackEncoder :=
  if e.inbuf_.length = 0 then e
  else
    let inbuf := e.inbuf_ ++ List.replicate (128-e.inbuf_.length) 0
    { e with inbuf_ := [], buf_ := e.buf_ ++ simd.simdpackwithoutmask inbuf e.maxbits_ }

def encode (e : BitPackEncoder) (value : UInt32) : BitPackEncoder :=
  if e.maxbits_ = 0 then e
  else
    let e := { e with inbuf_ := e.inbuf_ ++ [value] }
    if e.inbuf_.length = 128 then e.flush simd else e

end BitPackEncoder

namespace BitPackDecoder

def new (data : Bytes) (max_val : UInt32) : BitPackDecoder := ⟨data, maxbits simd max_val, 0, [], 128⟩

/-- `none` where bytes behind the data would be read. -/
def fetch (d : BitPackDecoder) : Option BitPackDecoder :=
  if d.data_.length < d.pos_+16*d.maxbits_ then none
  else
    some { d with
      pos_ := d.pos_+16*d.maxbits_
      outbuf_ := simd.simdunpack ((d.data_.drop d.pos_).take (16*d.maxbits_)) d.maxbits_
      outbuf_pos_ := 0 }

def refill (d : BitPackDecoder) : Option BitPackDecoder :=
  if d.outbuf_pos_ = 128 then d.fetch simd else some d

def peek (d : BitPackDecoder) : Option (UInt32 × BitPackDecoder) :=
  if d.maxbits_ = 0 then some (0, d)
  else do
    let d ← d.refill simd
    let value ← d.outbuf_[d.outbuf_pos_]?
    pure (value, d)

def next (d : BitPackDecoder) : Option (UInt32 × BitPackDecoder) :=
  if d.maxbits_ = 0 then some (0, d)
  else do
    let d ← d.refill simd
    let value ← d.outbuf_[d.outbuf_pos_]?
    pure (value, { d with outbuf_pos_ := d.outbuf_pos_+1 })

def nexts : Nat → BitPackDecoder → Option (List UInt32 × BitPackDecoder)
  | 0, d => some ([], d)
  | n+1, d => do
    let (value, d) ← d.next simd
    let (values, d) ← nexts n d
    pure (value :: values, d)

end BitPackDecoder

/-- All values encoded, and one flush. -/
def encoded (max_val : UInt32) (values : List UInt32) : Bytes :=
  ((values.foldl (BitPackEncoder.encode simd) (BitPackEncoder.new simd max_val)).flush simd).buf_

variable {bit : Nat}

/-- The blocks are full, and their values have no more than `bit` bits. -/
def Full (bit : Nat) (blocks : List (List UInt32)) : Prop :=
  ∀ block ∈ blocks, block.length = 128 ∧ ∀ v ∈ block, v.toNat < 2^bit

def packed (bit : Nat) (blocks : List (List UInt32)) : Bytes :=
  blocks.flatMap fun block => simd.simdpackwithoutmask block bit

theorem packed_append (bit : Nat) (blocks blocks' : List (List UInt32)) :
    packed simd bit (blocks ++ blocks') = packed simd bit blocks ++ packed simd bit blocks' :=
  List.flatMap_append

theorem Full.append {blocks blocks' : List (List UInt32)} (h : Full bit blocks)
    (h' : Full bit blocks') : Full bit (blocks ++ blocks') :=
  List.forall_mem_append.2 ⟨h, h'⟩

theorem Full.singleton {block : List UInt32} (hlen : block.length = 128)
    (hlt : ∀ v ∈ block, v.toNat < 2^bit) : Full bit [block] :=
  List.forall_mem_singleton.2 ⟨hlen, hlt⟩

/-- The values taken so far are in full blocks and in `inbuf_`. -/
structure Taken (bit : Nat) (values : List UInt32) (e : BitPackEncoder) : Prop where
  maxbits : e.maxbits_ = bit
  short : e.inbuf_.length < 128
  blocks : ∃ blocks, Full bit blocks ∧ values = blocks.flatten ++ e.inbuf_ ∧
    e.buf_ = packed simd bit blocks

theorem flush_full {e : BitPackEncoder} (h : e.inbuf_.length = 128) :
    e.flush simd = { e with
      inbuf_ := []
      buf_ := e.buf_ ++ simd.simdpackwithoutmask e.inbuf_ e.maxbits_ } := by
  rw [BitPackEncoder.flush, if_neg (by omega), h]
  simp

theorem Taken.encode {values : List UInt32} {e : BitPackEncoder} (h : Taken simd bit values e)
    (hpos : 0 < bit) (hlt : ∀ v ∈ values, v.toNat < 2^bit) {value : UInt32}
    (hvalue : value.toNat < 2^bit) : Taken simd bit (values ++ [value]) (e.encode simd value) := by
  obtain ⟨hbits, hshort, blocks, hfull, rfl, hbuf⟩ := h
  unfold BitPackEncoder.encode
  rw [if_neg (by omega)]
  by_cases hlast : (e.inbuf_ ++ [value]).length = 128
  · have hblock : Full bit [e.inbuf_ ++ [value]] := Full.singleton hlast (by
      intro v hv
      obtain hv | hv := List.mem_append.1 hv
      · exact hlt v (List.mem_append_right _ hv)
      · exact List.mem_singleton.1 hv ▸ hvalue)
    simp only
    rw [if_pos hlast, flush_full simd hlast]
    refine ⟨hbits, Nat.zero_lt_succ 127, blocks ++ [e.inbuf_ ++ [value]], hfull.append hblock,
      by simp, ?_⟩
    simp only
    rw [packed_append, hbuf, hbits]
    simp [packed]
  · simp only [if_neg hlast]
    refine ⟨hbits, ?_, blocks, hfull, by simp, hbuf⟩
    simp only [List.length_append, List.length_singleton] at hlast ⊢
    omega

theorem taken_foldl (hpos : 0 < bit) {e : BitPackEncoder} (he : Taken simd bit [] e)
    {values : List UInt32} (hlt : ∀ v ∈ values, v.toNat < 2^bit) :
    Taken simd bit values (values.foldl (BitPackEncoder.encode simd) e) := by
  induction values using List.reverseRecOn with
  | nil => exact he
  | append_singleton values value ih =>
    rw [List.foldl_append]
    obtain ⟨hvalues, hvalue⟩ := List.forall_mem_append.1 hlt
    exact (ih hvalues).encode simd hpos hvalues (hvalue value List.mem_cons_self)

/-- Behind the flush, everything is in full blocks. The last one may end in zeros. -/
theorem Taken.flush {values : List UInt32} {e : BitPackEncoder} (h : Taken simd bit values e)
    (hlt : ∀ v ∈ values, v.toNat < 2^bit) :
    ∃ blocks zeros, Full bit blocks ∧ blocks.flatten = values ++ zeros ∧
      (e.flush simd).buf_ = packed simd bit blocks := by
  obtain ⟨hbits, hshort, blocks, hfull, rfl, hbuf⟩ := h
  unfold BitPackEncoder.flush
  by_cases hempty : e.inbuf_.length = 0
  · rw [if_pos hempty, List.eq_nil_of_length_eq_zero hempty]
    exact ⟨blocks, [], hfull, by simp, hbuf⟩
  · rw [if_neg hempty]
    have hblock : Full bit [e.inbuf_ ++ List.replicate (128-e.inbuf_.length) 0] :=
      Full.singleton (by rw [List.length_append, List.length_replicate]; omega) (by
        intro v hv
        obtain hv | hv := List.mem_append.1 hv
        · exact hlt v (List.mem_append_right _ hv)
        · rw [(List.mem_replicate.1 hv).2]
          exact Nat.two_pow_pos bit)
    refine ⟨blocks ++ [_], List.replicate (128-e.inbuf_.length) 0, hfull.append hblock, by simp, ?_⟩
    simp only
    rw [packed_append, hbuf, hbits]
    simp [packed]

/-- These values are still to be returned: what is left in `outbuf_`, and the blocks that are not
fetched. -/
structure Pending (bit : Nat) (values : List UInt32) (d : BitPackDecoder) : Prop where
  maxbits : d.maxbits_ = bit
  places : d.outbuf_pos_+(d.outbuf_.drop d.outbuf_pos_).length = 128
  blocks : ∃ blocks, Full bit blocks ∧ d.data_.drop d.pos_ = packed simd bit blocks ∧
    d.pos_ ≤ d.data_.length ∧ values = d.outbuf_.drop d.outbuf_pos_ ++ blocks.flatten

theorem Pending.refill {value : UInt32} {values : List UInt32} {d : BitPackDecoder}
    (h : Pending simd bit (value :: values) d) (hpos : 0 < bit) (hle : bit ≤ 32) :
    ∃ d', d.refill simd = some d' ∧ d'.outbuf_pos_ < 128 ∧
      Pending simd bit (value :: values) d' := by
  unfold BitPackDecoder.refill
  by_cases hend : d.outbuf_pos_ = 128
  · obtain ⟨hbits, hplaces, blocks, hfull, hdata, hin, hvalues⟩ := h
    have hnone : d.outbuf_.drop d.outbuf_pos_ = [] :=
      List.eq_nil_of_length_eq_zero (by omega)
    rw [hnone, List.nil_append] at hvalues
    cases blocks with
    | nil => cases hvalues
    | cons block blocks =>
      obtain ⟨⟨hlen, hlt⟩, hrest⟩ := List.forall_mem_cons.1 hfull
      have hsize := simd.length_pack block bit hlen
      have hcons : d.data_.drop d.pos_ = simd.simdpackwithoutmask block bit ++
          packed simd bit blocks := hdata
      have hroom : d.pos_+16*bit ≤ d.data_.length := by
        have hlength := congrArg List.length hcons
        rw [List.length_drop, List.length_append, hsize] at hlength
        omega
      rw [if_pos hend, BitPackDecoder.fetch, hbits, if_neg (Nat.not_lt.2 hroom), hcons,
        List.take_left' hsize, simd.unpack_pack block bit hpos hle hlen hlt]
      refine ⟨_, rfl, Nat.zero_lt_succ 127, rfl, by simpa using hlen, blocks, hrest, ?_, hroom,
        hvalues⟩
      rw [← List.drop_drop, hcons, List.drop_left' hsize]
  · rw [if_neg hend]
    exact ⟨d, rfl, by have := h.places; omega, h⟩

theorem Pending.next {value : UInt32} {values : List UInt32} {d : BitPackDecoder}
    (h : Pending simd bit (value :: values) d) (hpos : 0 < bit) (hle : bit ≤ 32) :
    ∃ d', d.next simd = some (value, d') ∧ Pending simd bit values d' := by
  obtain ⟨d', hrefill, hlt, hbits, hplaces, blocks, hfull, hdata, hin, hvalues⟩ :=
    h.refill simd hpos hle
  have hmaxbits : d.maxbits_ ≠ 0 := by rw [h.maxbits]; omega
  cases hrest : d'.outbuf_.drop d'.outbuf_pos_ with
  | nil => simp [hrest] at hplaces; omega
  | cons v rest =>
    rw [hrest] at hvalues hplaces
    cases hvalues
    have hvalue : d'.outbuf_[d'.outbuf_pos_]? = some value := by
      have hhead := congrArg List.head? hrest
      rwa [List.head?_drop] at hhead
    have htail : d'.outbuf_.drop (d'.outbuf_pos_+1) = rest := by
      rw [← List.drop_drop, hrest]
      rfl
    refine ⟨{ d' with outbuf_pos_ := d'.outbuf_pos_+1 }, ?_, hbits, ?_, blocks, hfull, hdata, hin, ?_⟩
    · rw [BitPackDecoder.next, if_neg hmaxbits, hrefill]
      simp [hvalue]
    · simp only [htail]
      rw [List.length_cons] at hplaces
      omega
    · simp only [htail]
      rfl

theorem Pending.nexts {values rest : List UInt32} {d : BitPackDecoder}
    (h : Pending simd bit (values ++ rest) d) (hpos : 0 < bit) (hle : bit ≤ 32) :
    ∃ d', d.nexts simd values.length = some (values, d') := by
  induction values generalizing d with
  | nil => exact ⟨d, rfl⟩
  | cons value values ih =>
    obtain ⟨d₁, hnext, hpending⟩ := h.next simd hpos hle
    obtain ⟨d₂, hnexts⟩ := ih hpending
    exact ⟨d₂, by simp [BitPackDecoder.nexts, hnext, hnexts]⟩

theorem refill_refill {d d' : BitPackDecoder} (h : d.refill simd = some d') :
    d'.refill simd = some d' ∧ d'.maxbits_ = d.maxbits_ := by
  unfold BitPackDecoder.refill at h ⊢
  by_cases hend : d.outbuf_pos_ = 128
  · rw [if_pos hend] at h
    unfold BitPackDecoder.fetch at h
    split at h
    · cases h
    · cases h
      exact ⟨rfl, rfl⟩
  · rw [if_neg hend] at h
    cases h
    exact ⟨if_neg hend, rfl⟩

/-- A look ahead sees what is returned next, and does not change it. -/
theorem next_of_peek {d d' : BitPackDecoder} {value : UInt32}
    (h : d.peek simd = some (value, d')) :
    d'.next simd = d.next simd ∧ (d.next simd).map Prod.fst = some value := by
  unfold BitPackDecoder.peek at h
  by_cases hzero : d.maxbits_ = 0
  · rw [if_pos hzero] at h
    cases h
    exact ⟨rfl, by rw [BitPackDecoder.next, if_pos hzero]; rfl⟩
  · rw [if_neg hzero] at h
    obtain ⟨d₁, hrefill, h⟩ := Option.bind_eq_some_iff.1 h
    obtain ⟨v, hvalue, h⟩ := Option.bind_eq_some_iff.1 h
    cases h
    obtain ⟨hagain, hmaxbits⟩ := refill_refill simd hrefill
    rw [BitPackDecoder.next, BitPackDecoder.next, if_neg hzero, if_neg (hmaxbits ▸ hzero), hagain,
      hrefill]
    exact ⟨rfl, by simp [hvalue]⟩

theorem nexts_zero {d : BitPackDecoder} (h : d.maxbits_ = 0) (n : Nat) :
    d.nexts simd n = some (List.replicate n 0, d) := by
  induction n with
  | zero => rfl
  | succ n ih => simp [BitPackDecoder.nexts, BitPackDecoder.next, h, ih, List.replicate_succ]

/-- The numbers of bits that are kept for a largest value that is not zero. -/
theorem maxbits_spec {max_val : UInt32} (h : 0 < max_val) :
    (0 < maxbits simd max_val ∧ maxbits simd max_val ≤ 32) ∧
      ∀ v ≤ max_val, v.toNat < 2^maxbits simd max_val := by
  rw [maxbits, if_pos h, simd.bits_eq]
  have hpos : 0 < max_val.toNat := UInt32.lt_iff_toNat_lt.1 h
  refine ⟨⟨Nat.size_pos.2 hpos, Nat.size_le.2 max_val.toNat_lt⟩, fun v hv => ?_⟩
  exact Nat.lt_of_le_of_lt (UInt32.le_iff_toNat_le.1 hv) (Nat.lt_size_self _)

/-- What was encoded is decoded, and nothing behind it is read. -/
theorem nexts_encoded {max_val : UInt32} {values : List UInt32} (h : ∀ v ∈ values, v ≤ max_val) :
    ∃ d, (BitPackDecoder.new simd (encoded simd max_val values) max_val).nexts simd values.length =
      some (values, d) := by
  by_cases hpos : 0 < max_val
  · obtain ⟨⟨hbit, hle⟩, hfits⟩ := maxbits_spec simd hpos
    have hlt : ∀ v ∈ values, v.toNat < 2^maxbits simd max_val := fun v hv => hfits v (h v hv)
    have hnew : Taken simd (maxbits simd max_val) [] (BitPackEncoder.new simd max_val) :=
      ⟨rfl, Nat.zero_lt_succ 127, [], by simp [Full], rfl, rfl⟩
    obtain ⟨blocks, zeros, hfull, hvalues, hbuf⟩ :=
      (taken_foldl simd hbit hnew hlt).flush simd hlt
    have hpending : Pending simd (maxbits simd max_val) (values ++ zeros)
        (BitPackDecoder.new simd (encoded simd max_val values) max_val) :=
      ⟨rfl, rfl, blocks, hfull, hbuf, Nat.zero_le _, hvalues.symm⟩
    exact hpending.nexts simd hbit hle
  · have hzero : max_val = 0 := by
      rw [UInt32.lt_iff_toNat_lt] at hpos
      exact UInt32.toNat_inj.1 (Nat.eq_zero_of_not_pos hpos)
    subst hzero
    have hvalues : values = List.replicate values.length 0 :=
      List.eq_replicate_of_mem fun v hv =>
        UInt32.toNat_inj.1 (Nat.eq_zero_of_le_zero (UInt32.le_iff_toNat_le.1 (h v hv)))
    exact ⟨_, (nexts_zero simd rfl values.length).trans (by rw [← hvalues])⟩

end

/-- In the vendored layout, with a value on the bound. -/
theorem nexts_encoded_at_three_values :
    ∃ d, (BitPackDecoder.new .vendored (encoded .vendored 7 [5, 0, 7]) 7).nexts .vendored 3 =
      some ([5, 0, 7], d) :=
  @nexts_encoded .vendored 7 [5, 0, 7] (by simp)

end Stx.Util
