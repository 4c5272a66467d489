import Stx.Io.InputStream
import Stx.Util.BinaryMessageReader
import Stx.Lib.Traces
import Mathlib.Data.List.Basic

/-! The shifts that the readers of variable-length numbers do: their loop once more, with a note of
every shift. -/
namespace Stx.Io.VarUInt

open Util

/-- The bits of a group and what they are shifted by. -/
structure Shift where
  bits : Nat
  count : Nat

/-- The count is below the width of the word, and no bit is shifted out of it. -/
def Shift.Fits (e : Shift) : Prop := e.count < 64 ∧ e.bits * 2^e.count < 2^64

def shiftLeft (bits : UInt64) (count : Nat) : Traced Shift UInt64 :=
  ⟨bits <<< UInt64.ofNat count, [⟨bits.toNat, count⟩]⟩

/-- What the three readers differ in: how the next byte is got, or what is returned without one,
and what the number is returned as. -/
structure Source (σ ρ : Type) where
  next : σ → ρ ⊕ (UInt8 × σ)
  done : UInt64 → σ → ρ
  diverge : σ → ρ
  bytesLeft : σ → Nat
  Failed : ρ → Prop

section
variable {σ ρ : Type} (S : Source σ ρ)

def notedLoop : Nat → Nat → UInt64 → σ → Traced Shift ρ
  | 0, _, _, s => pure (S.diverge s)
  | fuel+1, i, value, s =>
    match S.next s with
    | .inl x => pure x
    | .inr (b, s') => do
      let group ← shiftLeft (b.toUInt64 &&& 0x7f) (7*i)
      if b &&& 0x80 = 0 then pure (S.done (value ||| group) s')
      else notedLoop fuel (i+1) (value ||| group) s'

def noted (s : σ) : Traced Shift ρ := notedLoop S (S.bytesLeft s+1) 0 0 s

variable {S}

theorem notedLoop_inl {fuel i : Nat} {value : UInt64} {s : σ} {x : ρ} (h : S.next s = .inl x) :
    notedLoop S (fuel+1) i value s = pure x := by
  rw [notedLoop, h]

theorem notedLoop_inr {fuel i : Nat} {value : UInt64} {s s' : σ} {b : UInt8}
    (h : S.next s = .inr (b, s')) :
    notedLoop S (fuel+1) i value s = (do
      let group ← shiftLeft (b.toUInt64 &&& 0x7f) (7*i)
      if b &&& 0x80 = 0 then pure (S.done (value ||| group) s')
      else notedLoop S fuel (i+1) (value ||| group) s') := by
  rw [notedLoop, h]

theorem notedLoop_value {fuel i : Nat} {value : UInt64} {s s' : σ} {b : UInt8}
    (h : S.next s = .inr (b, s')) :
    (notedLoop S (fuel+1) i value s).value =
      if b &&& 0x80 = 0 then
        S.done (value ||| ((b.toUInt64 &&& 0x7f) <<< UInt64.ofNat (7*i))) s'
      else (notedLoop S fuel (i+1)
        (value ||| ((b.toUInt64 &&& 0x7f) <<< UInt64.ofNat (7*i))) s').value := by
  rw [notedLoop_inr h, Traced.value_bind, Traced.value_ite]
  rfl

theorem notedLoop_trace {fuel i : Nat} {value : UInt64} {s s' : σ} {b : UInt8}
    (h : S.next s = .inr (b, s')) :
    (notedLoop S (fuel+1) i value s).trace =
      ⟨(b.toUInt64 &&& 0x7f).toNat, 7*i⟩ :: if b &&& 0x80 = 0 then [] else
        (notedLoop S fuel (i+1)
          (value ||| ((b.toUInt64 &&& 0x7f) <<< UInt64.ofNat (7*i))) s').trace := by
  rw [notedLoop_inr h]
  by_cases hb : b &&& 0x80 = 0
  · simp only [if_pos hb]
    rfl
  · simp only [if_neg hb]
    rfl

variable (S)

/-- No shift is too wide or drops a bit, and where a number is returned, the bytes in front of what
is left denote it. -/
structure Rejects (rest : σ → Bytes) (s : σ) : Prop where
  shifts : (noted S s).All Shift.Fits
  outcome : S.Failed (noted S s).value ∨ ∃ bs v s', rest s = bs ++ rest s' ∧
    Base128.Numeral bs ∧ Base128.value bs = v.toNat ∧ (noted S s).value = S.done v s'

end

def messageReader : Source BinaryMessageReader (Result (UInt64 × BinaryMessageReader)) where
  next r :=
    match r.read 1 with
    | .ok (bytes, r') => .inr (bytes.headD 0, r')
    | .raise e => .inl (.raise e)
    | .diverge => .inl .diverge
  done v r := .ok (v, r)
  diverge _ := .diverge
  bytesLeft r := r.remaining
  Failed x := ∃ e, x = .raise e

def maybeReader : Source BinaryMessageReader (Result (Option UInt64 × BinaryMessageReader)) where
  next r :=
    if r.pos ≥ r.size then .inl (.ok (none, r))
    else
      match r.read 1 with
      | .ok (bytes, r') => .inr (bytes.headD 0, r')
      | .raise e => .inl (.raise e)
      | .diverge => .inl .diverge
  done v r := .ok (some v, r)
  diverge _ := .diverge
  bytesLeft r := r.remaining
  Failed x := ∃ r', x = .ok (none, r')

def inputStream (σ : Type) [RewindableInputStream σ] : Source σ (Result UInt64 × σ) where
  next s :=
    match RewindableInputStream.readNextByte s with
    | (.ok (some b), s') => .inr (b, s')
    | (.ok none, s') => .inl (Result.RAISE .eofError "unexpected end of stream", s')
    | (.raise e, s') => .inl (.raise e, s')
    | (.diverge, s') => .inl (.diverge, s')
  done v s := (.ok v, s)
  diverge s := (.diverge, s)
  bytesLeft s := RewindableInputStream.bytesLeft s
  Failed x := ∃ e s', x = (.raise e, s')

/- With the notes left out these are the readers. -/

theorem messageReader_loop (fuel i : Nat) (value : UInt64) (r : BinaryMessageReader) :
    (notedLoop messageReader fuel i value r).value
      = BinaryMessageReader.readVarUIntLoop fuel i value r := by
  induction fuel generalizing i value r with
  | zero => rfl
  | succ fuel ih =>
    rw [BinaryMessageReader.readVarUIntLoop]
    cases h : r.read 1 with
    | ok p =>
      have hnext : messageReader.next r = .inr (p.1.headD 0, p.2) := by simp [messageReader, h]
      rw [notedLoop_value hnext, ih]
      rfl
    | raise e =>
      have hnext : messageReader.next r = .inl (.raise e) := by simp [messageReader, h]
      rw [notedLoop_inl hnext]
      rfl
    | diverge =>
      have hnext : messageReader.next r = .inl .diverge := by simp [messageReader, h]
      rw [notedLoop_inl hnext]
      rfl

theorem messageReader_value (r : BinaryMessageReader) :
    (noted messageReader r).value = r.readVarUInt := messageReader_loop _ 0 0 r

theorem maybeReader_loop (fuel i : Nat) (value : UInt64) (r : BinaryMessageReader) :
    (notedLoop maybeReader fuel i value r).value
      = BinaryMessageReader.maybeReadVarUIntLoop fuel i value r := by
  induction fuel generalizing i value r with
  | zero => rfl
  | succ fuel ih =>
    rw [BinaryMessageReader.maybeReadVarUIntLoop]
    by_cases hend : r.pos ≥ r.size
    · have hnext : maybeReader.next r = .inl (.ok (none, r)) := if_pos hend
      rw [notedLoop_inl hnext, if_pos hend]
      rfl
    · rw [if_neg hend]
      cases h : r.read 1 with
      | ok p =>
        have hnext : maybeReader.next r = .inr (p.1.headD 0, p.2) := by
          simp [maybeReader, hend, h]
        rw [notedLoop_value hnext, ih]
        rfl
      | raise e =>
        have hnext : maybeReader.next r = .inl (.raise e) := by simp [maybeReader, hend, h]
        rw [notedLoop_inl hnext]
        rfl
      | diverge =>
        have hnext : maybeReader.next r = .inl .diverge := by simp [maybeReader, hend, h]
        rw [notedLoop_inl hnext]
        rfl

theorem maybeReader_value (r : BinaryMessageReader) :
    (noted maybeReader r).value = r.maybeReadVarUInt := maybeReader_loop _ 0 0 r

theorem inputStream_loop {σ : Type} [RewindableInputStream σ] (fuel i : Nat) (value : UInt64)
    (s : σ) :
    (notedLoop (inputStream σ) fuel i value s).value
      = InputStream.readVarUIntLoop fuel i value s := by
  induction fuel generalizing i value s with
  | zero => rfl
  | succ fuel ih =>
    rw [InputStream.readVarUIntLoop]
    cases h : RewindableInputStream.readNextByte s with
    | mk x s' =>
      cases x with
      | ok next =>
        cases next with
        | some b =>
          have hnext : (inputStream σ).next s = .inr (b, s') := by simp [inputStream, h]
          rw [notedLoop_value hnext, ih, Sys.bind_of_ok h]
          by_cases hb : b &&& 0x80 = 0
          · simp only [if_pos hb]
            rfl
          · simp only [if_neg hb]
        | none =>
          have hnext : (inputStream σ).next s
              = .inl (Result.RAISE .eofError "unexpected end of stream", s') := by
            simp [inputStream, h]
          rw [notedLoop_inl hnext, Sys.bind_of_ok h]
          rfl
      | raise e =>
        have hnext : (inputStream σ).next s = .inl (.raise e, s') := by simp [inputStream, h]
        rw [notedLoop_inl hnext, Sys.bind_of_raise h]
        rfl
      | diverge =>
        have hnext : (inputStream σ).next s = .inl (.diverge, s') := by simp [inputStream, h]
        rw [notedLoop_inl hnext, Sys.bind_of_diverge h]
        rfl

theorem inputStream_value {σ : Type} [RewindableInputStream σ] (s : σ) :
    (noted (inputStream σ) s).value = (InputStream.readVarUInt : Sys σ UInt64) s :=
  inputStream_loop _ 0 0 s

section
variable {σ ρ : Type} {S : Source σ ρ} {Inv : σ → Prop} {rest : σ → Bytes}

/-- The reader gets the bytes of `rest`, one by one, and fails behind the last one. -/
structure Yields (S : Source σ ρ) (Inv : σ → Prop) (rest : σ → Bytes) : Prop where
  byte : ∀ {s b tail}, Inv s → rest s = b :: tail →
    ∃ s', S.next s = .inr (b, s') ∧ Inv s' ∧ rest s' = tail
  stop : ∀ {s}, Inv s → rest s = [] → ∃ x, S.next s = .inl x ∧ S.Failed x
  length_le : ∀ {s}, Inv s → (rest s).length ≤ S.bytesLeft s

/-- The shifts for the bytes that are looked at, from the group `i` on. -/
def shifts (i : Nat) (bs : Bytes) : List Shift :=
  (bs.zipIdx i).map fun p => ⟨Base128.digit p.1, 7*p.2⟩

theorem group_toNat (b : UInt8) : (b.toUInt64 &&& 0x7f).toNat = Base128.digit b := by
  rw [UInt64.toNat_and, UInt8.toNat_toUInt64]
  exact Base128.and_127 b.toNat

theorem Yields.trace_eq (hy : Yields S Inv rest) {fuel i : Nat} {value : UInt64} {s : σ}
    (hs : Inv s) (hfuel : (rest s).length < fuel) :
    (notedLoop S fuel i value s).trace = shifts i (Base128.scanned (rest s)) := by
  induction fuel generalizing i value s with
  | zero => exact absurd hfuel (Nat.not_lt_zero _)
  | succ fuel ih =>
    cases hrest : rest s with
    | nil =>
      obtain ⟨x, hx, -⟩ := hy.stop hs hrest
      rw [notedLoop_inl hx]
      rfl
    | cons b tail =>
      obtain ⟨s', hnext, hs', htail⟩ := hy.byte hs hrest
      rw [hrest, List.length_cons] at hfuel
      rw [notedLoop_trace hnext, group_toNat, Base128.scanned]
      by_cases hb : Base128.more b
      · have hand : b &&& 0x80 ≠ 0 := fun hz => (Base128.and_128_eq_zero_iff b).1 hz hb
        rw [if_neg hand, if_pos hb, ih hs' (by rw [htail]; omega), htail]
        rfl
      · rw [if_pos ((Base128.and_128_eq_zero_iff b).2 hb), if_neg hb]
        rfl

theorem shifts_fit_iff (bs : Bytes) :
    (∀ e ∈ shifts 0 bs, e.Fits) ↔ Base128.FitsWord bs := by
  have hmem : (∀ e ∈ shifts 0 bs, e.Fits) ↔
      ∀ j b, bs[j]? = some b → 7*j < 64 ∧ Base128.digit b * 2^(7*j) < 2^64 := by
    simp only [shifts, List.forall_mem_map, Prod.forall, List.mem_zipIdx_iff_getElem?, Shift.Fits]
    exact forall_comm
  rw [hmem]
  constructor
  · intro h
    refine ⟨?_, fun b hb => ?_⟩
    · by_contra hlen
      have hten := (h 10 _ (List.getElem?_eq_getElem (by omega))).1
      omega
    · have hnine := (h 9 b hb).2
      omega
  · rintro ⟨hlen, hnine⟩ j b hb
    obtain ⟨hj, -⟩ := List.getElem?_eq_some_iff.1 hb
    refine ⟨by omega, ?_⟩
    by_cases hj9 : j = 9
    · subst hj9
      have := hnine b hb
      omega
    · have hd := Base128.digit_lt b
      calc Base128.digit b * 2^(7*j)
        _ < 2^7 * 2^(7*j) := Nat.mul_lt_mul_of_pos_right hd (Nat.two_pow_pos _)
        _ ≤ 2^7 * 2^(7*8) := Nat.mul_le_mul_left _ (Nat.pow_le_pow_right (by decide) (by omega))
        _ < 2^64 := by decide

/-- A numeral is returned as what it adds above what is accumulated. -/
theorem Yields.loop_numeral (hy : Yields S Inv rest) {bs : Bytes} (hnum : Base128.Numeral bs)
    {fuel i : Nat} {value v : UInt64} {s : σ} {tail : Bytes} (hfuel : bs.length ≤ fuel)
    (hi : i+bs.length ≤ 10) (hvalue : value.toNat < 2^(7*i))
    (hv : v.toNat = value.toNat+Base128.value bs * 2^(7*i)) (hs : Inv s)
    (hrest : rest s = bs ++ tail) :
    ∃ s', (notedLoop S fuel i value s).value = S.done v s' ∧ rest s' = tail := by
  induction bs generalizing fuel i value s with
  | nil => exact absurd hnum id
  | cons b bs ih =>
    rw [List.length_cons] at hfuel hi
    obtain ⟨fuel, rfl⟩ : ∃ k, fuel = k+1 := Nat.exists_eq_add_one.2 (by omega)
    obtain ⟨hlt, hadd⟩ := BinaryMessageReader.accumulate_group (by omega) hvalue hv
    obtain ⟨s', hnext, hs', htail⟩ := hy.byte hs hrest
    rw [notedLoop_value hnext]
    by_cases hmore : Base128.more b
    · have hand : b &&& 0x80 ≠ 0 := fun hz => (Base128.and_128_eq_zero_iff b).1 hz hmore
      have hnum' : Base128.Numeral bs := by simpa [Base128.Numeral, hmore] using hnum
      rw [if_neg hand]
      exact ih hnum' (by omega) (by omega) hlt hadd hs' htail
    · have hbs : bs = [] := by simpa [Base128.Numeral, hmore] using hnum
      subst hbs
      have hv' : value ||| ((b.toUInt64 &&& 0x7f) <<< UInt64.ofNat (7*i)) = v := by
        rw [← UInt64.toNat_inj, hadd]
        simp [Base128.value]
      rw [if_pos ((Base128.and_128_eq_zero_iff b).2 hmore), hv']
      exact ⟨s', rfl, htail⟩

theorem Yields.loop_truncated (hy : Yields S Inv rest) {fuel i : Nat} {value : UInt64} {s : σ}
    (hs : Inv s) (hfuel : (rest s).length < fuel) (hmore : ∀ b ∈ rest s, Base128.more b) :
    S.Failed (notedLoop S fuel i value s).value := by
  induction fuel generalizing i value s with
  | zero => exact absurd hfuel (Nat.not_lt_zero _)
  | succ fuel ih =>
    cases hrest : rest s with
    | nil =>
      obtain ⟨x, hx, hfailed⟩ := hy.stop hs hrest
      rw [notedLoop_inl hx]
      exact hfailed
    | cons b tail =>
      obtain ⟨s', hnext, hs', htail⟩ := hy.byte hs hrest
      rw [hrest] at hfuel hmore
      rw [List.length_cons] at hfuel
      rw [List.forall_mem_cons] at hmore
      have hand : b &&& 0x80 ≠ 0 := fun hz => (Base128.and_128_eq_zero_iff b).1 hz hmore.1
      rw [notedLoop_value hnext, if_neg hand]
      exact ih hs' (by rw [htail]; omega) (by rw [htail]; exact hmore.2)

/-- The shifts decide: where they fit, the number that is returned is the one of the bytes. -/
theorem Yields.rejects_iff (hy : Yields S Inv rest) {s : σ} (hs : Inv s) :
    Rejects S rest s ↔ Base128.FitsWord (Base128.scanned (rest s)) := by
  have hfuel : (rest s).length < S.bytesLeft s+1 := Nat.lt_succ_of_le (hy.length_le hs)
  have hshifts : (noted S s).All Shift.Fits ↔ Base128.FitsWord (Base128.scanned (rest s)) := by
    rw [← shifts_fit_iff, ← hy.trace_eq hs hfuel]
    rfl
  refine ⟨fun h => hshifts.1 h.shifts, fun h => ⟨hshifts.2 h, ?_⟩⟩
  obtain ⟨hnum, tail, htail⟩ | ⟨hall, hmore⟩ := Base128.scanned_cases (rest s)
  · have hlen := congrArg List.length htail
    rw [List.length_append] at hlen
    have hv : (UInt64.ofNat (Base128.value (Base128.scanned (rest s)))).toNat
        = Base128.value (Base128.scanned (rest s)) := by
      rw [UInt64.toNat_ofNat']
      exact Nat.mod_eq_of_lt ((Base128.fitsWord_iff h.1).1 h)
    have hdone : ∃ s', (noted S s).value
        = S.done (UInt64.ofNat (Base128.value (Base128.scanned (rest s)))) s' ∧ rest s' = tail :=
      hy.loop_numeral hnum (by omega) (by rw [Nat.zero_add]; exact h.1) (by decide)
        (by rw [hv]; simp) hs htail
    obtain ⟨s', hdone, hs'⟩ := hdone
    exact .inr ⟨_, _, s', by rw [hs']; exact htail, hnum, hv.symm, hdone⟩
  · exact .inl (hy.loop_truncated hs hfuel hmore)

end

theorem read_nil {r : BinaryMessageReader} (hr : r.InBounds) (h : r.unread = []) :
    ∃ e, r.read 1 = .raise e := by
  have hlen := hr.length_unread
  have hlt := hr.size_lt
  rw [h, List.length_nil] at hlen
  rw [BinaryMessageReader.read_eq (by omega), if_pos (by omega)]
  exact ⟨_, rfl⟩

theorem messageReader_yields :
    Yields messageReader BinaryMessageReader.InBounds BinaryMessageReader.unread where
  byte {r b tail} hr h := by
    have hread := BinaryMessageReader.read_one hr h
    refine ⟨r.skip 1, by simp [messageReader, hread], ?_, ?_⟩
    · exact @BinaryMessageReader.InBounds.skip_unread r [b] tail hr h
    · exact @BinaryMessageReader.unread_skip r [b] tail h
  stop {r} hr h := by
    obtain ⟨e, he⟩ := read_nil hr h
    exact ⟨.raise e, by simp [messageReader, he], e, rfl⟩
  length_le hr := hr.remaining_eq.ge

theorem maybeReader_yields :
    Yields maybeReader BinaryMessageReader.InBounds BinaryMessageReader.unread where
  byte {r b tail} hr h := by
    have hread := BinaryMessageReader.read_one hr h
    have hlen := hr.length_unread
    rw [h, List.length_cons] at hlen
    have hend : ¬ r.pos ≥ r.size := by omega
    refine ⟨r.skip 1, by simp [maybeReader, hread, hend], ?_, ?_⟩
    · exact @BinaryMessageReader.InBounds.skip_unread r [b] tail hr h
    · exact @BinaryMessageReader.unread_skip r [b] tail h
  stop {r} hr h := by
    have hlen := hr.length_unread
    rw [h, List.length_nil] at hlen
    exact ⟨.ok (none, r), if_pos (by omega), r, rfl⟩
  length_le hr := hr.remaining_eq.ge

theorem inputStream_yields {σ : Type} [RewindableInputStream σ] {rest : σ → Bytes}
    (hd : Delivers rest) : Yields (inputStream σ) (fun _ => True) rest where
  byte {s b tail} _ h := by
    obtain ⟨s', hbyte, hs'⟩ := hd.readNextByte s
    rw [h] at hbyte hs'
    exact ⟨s', by simp [inputStream, hbyte], trivial, hs'⟩
  stop {s} _ h := by
    obtain ⟨s', hbyte, -⟩ := hd.readNextByte s
    rw [h] at hbyte
    exact ⟨_, by simp [inputStream, hbyte]; rfl, _, s', rfl⟩
  length_le {s} _ := hd.length_le s

/-- The three readers, each with its notes. -/
theorem varUInt_rejects_iff (r : BinaryMessageReader) {σ : Type} [RewindableInputStream σ]
    (rest : σ → Bytes) (s : σ) :
    (r.InBounds →
      (noted messageReader r).value = r.readVarUInt ∧
      (Rejects messageReader BinaryMessageReader.unread r
        ↔ Base128.FitsWord (Base128.scanned r.unread))) ∧
    (r.InBounds →
      (noted maybeReader r).value = r.maybeReadVarUInt ∧
      (Rejects maybeReader BinaryMessageReader.unread r
        ↔ Base128.FitsWord (Base128.scanned r.unread))) ∧
    (Delivers rest →
      (noted (inputStream σ) s).value = (InputStream.readVarUInt : Sys σ UInt64) s ∧
      (Rejects (inputStream σ) rest s ↔ Base128.FitsWord (Base128.scanned (rest s)))) :=
  ⟨fun hr => ⟨messageReader_value r, messageReader_yields.rejects_iff hr⟩,
    fun hr => ⟨maybeReader_value r, maybeReader_yields.rejects_iff hr⟩,
    fun hd => ⟨inputStream_value s, (inputStream_yields hd).rejects_iff trivial⟩⟩

/-- The shortest numeral of 128. -/
theorem varUInt_rejects_two_bytes :
    Rejects messageReader BinaryMessageReader.unread (BinaryMessageReader.new [0x80, 1]) ∧
    Rejects maybeReader BinaryMessageReader.unread (BinaryMessageReader.new [0x80, 1]) ∧
    Rejects (inputStream StringInputStream) StringInputStream.unread
      (StringInputStream.fromString [0x80, 1]) := by
  have hr : (BinaryMessageReader.new [0x80, 1]).InBounds :=
    BinaryMessageReader.InBounds.new (by decide)
  have hfits : Base128.FitsWord (Base128.scanned [0x80, 1]) := by
    have hscanned : Base128.scanned [0x80, 1] = [0x80, 1] := by decide
    rw [hscanned]
    exact ⟨by decide, fun b hb => by cases hb⟩
  obtain ⟨hmessage, hmaybe, hstream⟩ := varUInt_rejects_iff (BinaryMessageReader.new [0x80, 1])
    StringInputStream.unread (StringInputStream.fromString [0x80, 1])
  exact ⟨(hmessage hr).2.2 hfits, (hmaybe hr).2.2 hfits,
    (hstream StringInputStream.delivers).2.2 hfits⟩

/-- Ten bytes that continue and one more. -/
def elevenBytes : Bytes := List.replicate 10 0x80 ++ [1]

theorem not_fitsWord_elevenBytes : ¬ Base128.FitsWord (Base128.scanned elevenBytes) := by
  intro h
  exact absurd h.1 (by decide)

/-- The eleventh byte is shifted by 70. -/
theorem eleven_bytes_not_rejected :
    ¬ Rejects messageReader BinaryMessageReader.unread (BinaryMessageReader.new elevenBytes) ∧
    ¬ Rejects maybeReader BinaryMessageReader.unread (BinaryMessageReader.new elevenBytes) ∧
    ¬ Rejects (inputStream StringInputStream) StringInputStream.unread
      (StringInputStream.fromString elevenBytes) := by
  have hr : (BinaryMessageReader.new elevenBytes).InBounds :=
    BinaryMessageReader.InBounds.new (by decide)
  refine ⟨?_, ?_, ?_⟩
  · rw [messageReader_yields.rejects_iff hr]
    exact not_fitsWord_elevenBytes
  · rw [maybeReader_yields.rejects_iff hr]
    exact not_fitsWord_elevenBytes
  · rw [(inputStream_yields StringInputStream.delivers).rejects_iff trivial]
    exact not_fitsWord_elevenBytes

end Stx.Io.VarUInt
