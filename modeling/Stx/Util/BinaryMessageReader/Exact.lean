import Stx.Io.VarUInt.Shifts

/-! What the `maybeRead` family returns, and where it leaves the reader, against the encodings that
the unread bytes begin with. -/
namespace Stx.Util.BinaryMessageReader

section
variable {α : Type}

/-- The value is returned where the unread bytes begin with an encoding of it, which is all that is
read; where they begin with none, false is, and the reader is left as it was. -/
def Exact (Encoding : Bytes → α → Prop)
    (call : BinaryMessageReader → Result (Option α × BinaryMessageReader))
    (r : BinaryMessageReader) : Prop :=
  (∀ bs a rest, r.unread = bs ++ rest → Encoding bs a →
    call r = .ok (some a, r.skip bs.length)) ∧
  ((∀ bs a rest, r.unread = bs ++ rest → ¬ Encoding bs a) → call r = .ok (none, r))

/-- The numbers of a fixed size. -/
def FixedEncoding (size : Nat) (decode : Bytes → α) (bs : Bytes) (a : α) : Prop :=
  bs.length = size ∧ decode bs = a

end

def VarUIntEncoding (bs : Bytes) (v : UInt64) : Prop :=
  Base128.Numeral bs ∧ Base128.FitsWord bs ∧ Base128.value bs = v.toNat

def LenencEncoding (bs string : Bytes) : Prop :=
  ∃ len v, bs = len ++ string ∧ VarUIntEncoding len v ∧ v.toNat = string.length

/-- The groups, each shifted by seven more than the one before, modulo the width of the word, and
laid over each other. -/
def overlaid : Nat → Bytes → UInt64
  | _, [] => 0
  | i, b :: bs => ((b.toUInt64 &&& 0x7f) <<< UInt64.ofNat (7*i)) ||| overlaid (i+1) bs

/-- Where each function of the family is exact. -/
structure MaybeReadExact (r : BinaryMessageReader) : Prop where
  uint8 : Exact (FixedEncoding 1 (·.headD 0)) maybeReadUInt8 r ↔ r.unread.length ≠ 1
  uint16 : Exact (FixedEncoding 2 fun bs => UInt16.ofNat (LittleEndian.decode bs))
    maybeReadUInt16 r ↔ r.unread.length ≠ 2
  uint32 : Exact (FixedEncoding 4 fun bs => UInt32.ofNat (LittleEndian.decode bs))
    maybeReadUInt32 r ↔ r.unread.length ≠ 4
  uint64 : Exact (FixedEncoding 8 fun bs => UInt64.ofNat (LittleEndian.decode bs))
    maybeReadUInt64 r ↔ r.unread.length ≠ 8
  double : Exact (FixedEncoding 8 fun bs => UInt64.ofNat (LittleEndian.decode bs))
    maybeReadDouble r ↔ r.unread.length ≠ 8
  varUInt : Exact VarUIntEncoding maybeReadVarUInt r ↔
    r.unread = [] ∨ ∃ bs rest, r.unread = bs ++ rest ∧ Base128.Numeral bs ∧ Base128.FitsWord bs
  lenencString : Exact LenencEncoding maybeReadLenencString r ↔
    r.unread = [] ∨ ∃ len rest, r.unread = len ++ rest ∧ Base128.Numeral len ∧
      (Base128.FitsWord len ∨ rest.length < (overlaid 0 len).toNat)

/- The numbers of a fixed size. -/

section
variable {α : Type} {size : Nat} {read : BinaryMessageReader → Result (α × BinaryMessageReader)}
  {decode : Bytes → α}

/-- The test is strict, so that a number that ends with the buffer is not taken. -/
theorem maybeRead_exact_iff (hread : ∀ {r bs rest}, r.InBounds → r.unread = bs ++ rest →
      bs.length = size → read r = .ok (decode bs, r.skip size))
    {r : BinaryMessageReader} (hr : r.InBounds) :
    Exact (FixedEncoding size decode) (maybeRead size read) r ↔ r.unread.length ≠ size := by
  have hrem := hr.remaining_eq
  constructor
  · intro h heq
    have htaken := h.1 r.unread _ [] (List.append_nil _).symm ⟨heq, rfl⟩
    rw [maybeRead, if_neg (by omega)] at htaken
    cases htaken
  · intro hne
    constructor
    · rintro bs a rest hbs ⟨hlen, rfl⟩
      have hsum := congrArg List.length hbs
      rw [List.length_append] at hsum
      rw [maybeRead, if_pos (by omega), hread hr hbs hlen, hlen]
      rfl
    · intro hnone
      rw [maybeRead, if_neg]
      · rfl
      · intro hlt
        refine hnone (r.unread.take size) _ (r.unread.drop size)
          (List.take_append_drop size _).symm ⟨?_, rfl⟩
        rw [List.length_take]
        omega

end

theorem read_length {r : BinaryMessageReader} {bs rest : Bytes} (hr : r.InBounds)
    (h : r.unread = bs ++ rest) {n : Nat} (hn : bs.length = n) : r.read n = .ok (bs, r.skip n) := by
  subst hn
  exact read_unread hr h

/- The numbers of variable length. -/

theorem maybeReadVarUIntLoop_step {fuel i : Nat} {value : UInt64} {r : BinaryMessageReader}
    {b : UInt8} {rest : Bytes} (hr : r.InBounds) (h : r.unread = b :: rest) :
    maybeReadVarUIntLoop (fuel+1) i value r =
      if b &&& 0x80 = 0 then
        .ok (some (value ||| ((b.toUInt64 &&& 0x7f) <<< UInt64.ofNat (7*i))), r.skip 1)
      else maybeReadVarUIntLoop fuel (i+1)
        (value ||| ((b.toUInt64 &&& 0x7f) <<< UInt64.ofNat (7*i))) (r.skip 1) := by
  have hlen := hr.length_unread
  rw [h, List.length_cons] at hlen
  rw [maybeReadVarUIntLoop, if_neg (by omega), read_one hr h]
  rfl

theorem maybeReadVarUIntLoop_numeral {bs : Bytes} (hnum : Base128.Numeral bs) {fuel i : Nat}
    {value : UInt64} {r : BinaryMessageReader} {rest : Bytes} (hfuel : bs.length ≤ fuel)
    (hr : r.InBounds) (h : r.unread = bs ++ rest) :
    maybeReadVarUIntLoop fuel i value r
      = .ok (some (value ||| overlaid i bs), r.skip bs.length) := by
  induction bs generalizing fuel i value r with
  | nil => exact absurd hnum id
  | cons b bs ih =>
    rw [List.length_cons] at hfuel
    obtain ⟨fuel, rfl⟩ : ∃ k, fuel = k+1 := Nat.exists_eq_add_one.2 (by omega)
    rw [maybeReadVarUIntLoop_step hr h, overlaid]
    by_cases hmore : Base128.more b
    · have hand : b &&& 0x80 ≠ 0 := fun hz => (Base128.and_128_eq_zero_iff b).1 hz hmore
      have hnum' : Base128.Numeral bs := by simpa [Base128.Numeral, hmore] using hnum
      have hr' : (r.skip 1).InBounds := @InBounds.skip_unread r [b] (bs ++ rest) hr h
      have h' : (r.skip 1).unread = bs ++ rest := @unread_skip r [b] (bs ++ rest) h
      rw [if_neg hand, ih hnum' (by omega) hr' h', skip_skip, UInt64.or_assoc, List.length_cons,
        Nat.add_comm 1]
    · have hbs : bs = [] := by simpa [Base128.Numeral, hmore] using hnum
      subst hbs
      rw [if_pos ((Base128.and_128_eq_zero_iff b).2 hmore), overlaid, UInt64.or_zero]
      rfl

theorem maybeReadVarUInt_numeral {r : BinaryMessageReader} {bs rest : Bytes} (hr : r.InBounds)
    (hnum : Base128.Numeral bs) (h : r.unread = bs ++ rest) :
    r.maybeReadVarUInt = .ok (some (overlaid 0 bs), r.skip bs.length) := by
  have hlen := hr.remaining_eq
  rw [h, List.length_append] at hlen
  rw [maybeReadVarUInt, maybeReadVarUIntLoop_numeral hnum (by omega) hr h, UInt64.zero_or]

/-- The end of the buffer is where the reader is left. -/
theorem maybeReadVarUIntLoop_truncated {s : Bytes} (hmore : ∀ b ∈ s, Base128.more b)
    {fuel i : Nat} {value : UInt64} {r : BinaryMessageReader} (hfuel : s.length < fuel)
    (hr : r.InBounds) (h : r.unread = s) :
    maybeReadVarUIntLoop fuel i value r = .ok (none, r.skip s.length) := by
  induction s generalizing fuel i value r with
  | nil =>
    obtain ⟨fuel, rfl⟩ : ∃ k, fuel = k+1 := Nat.exists_eq_add_one.2 hfuel
    have hlen := hr.length_unread
    rw [h, List.length_nil] at hlen
    rw [maybeReadVarUIntLoop, if_pos (by omega)]
    rfl
  | cons b s ih =>
    rw [List.length_cons] at hfuel
    obtain ⟨fuel, rfl⟩ : ∃ k, fuel = k+1 := Nat.exists_eq_add_one.2 (by omega)
    rw [List.forall_mem_cons] at hmore
    have hand : b &&& 0x80 ≠ 0 := fun hz => (Base128.and_128_eq_zero_iff b).1 hz hmore.1
    have hr' : (r.skip 1).InBounds := @InBounds.skip_unread r [b] s hr h
    have h' : (r.skip 1).unread = s := @unread_skip r [b] s h
    rw [maybeReadVarUIntLoop_step hr h, if_neg hand, ih hmore.2 (by omega) hr' h', skip_skip,
      List.length_cons, Nat.add_comm 1]

theorem maybeReadVarUInt_truncated {r : BinaryMessageReader} (hr : r.InBounds)
    (hmore : ∀ b ∈ r.unread, Base128.more b) :
    r.maybeReadVarUInt = .ok (none, r.skip r.unread.length) :=
  maybeReadVarUIntLoop_truncated hmore (by rw [hr.remaining_eq]; omega) hr rfl

/-- The groups of a number that fits are what it is made of. -/
theorem overlaid_toNat {bs : Bytes} (hnum : Base128.Numeral bs) (h : Base128.FitsWord bs) :
    (overlaid 0 bs).toNat = Base128.value bs := by
  have hlen := h.1
  have hr : (new bs).InBounds := InBounds.new (by omega)
  have hunread : (new bs).unread = bs ++ [] := (List.append_nil bs).symm
  have hv : (UInt64.ofNat (Base128.value bs)).toNat = Base128.value bs := by
    rw [UInt64.toNat_ofNat']
    exact Nat.mod_eq_of_lt ((Base128.fitsWord_iff hlen).1 h)
  have hread : ∃ r', (new bs).maybeReadVarUInt
      = .ok (some (UInt64.ofNat (Base128.value bs)), r') ∧ r'.unread = [] := by
    rw [← Io.VarUInt.maybeReader_value]
    refine Io.VarUInt.maybeReader_yields.loop_numeral hnum ?_ ?_ ?_ ?_ hr hunread
    · exact Nat.le_succ_of_le hr.remaining_eq.ge
    · omega
    · decide
    · rw [hv]
      simp
  obtain ⟨r', hr', -⟩ := hread
  rw [maybeReadVarUInt_numeral hr hnum hunread] at hr'
  injection hr' with hr'
  rw [Option.some.inj (congrArg Prod.fst hr'), hv]

/-- What a numeral in front is, and what stands behind it. -/
theorem numeral_unique {bs bs' rest rest' : Bytes} (hnum : Base128.Numeral bs)
    (hnum' : Base128.Numeral bs') (h : bs ++ rest = bs' ++ rest') : bs = bs' ∧ rest = rest' := by
  have hbs : bs = bs' := by
    rw [← hnum.scanned_append rest, h, hnum'.scanned_append]
  subst hbs
  exact ⟨rfl, List.append_cancel_left h⟩

/-- A byte that was read stays read. -/
theorem not_exact_of_truncated {α : Type} {Encoding : Bytes → α → Prop}
    {call : BinaryMessageReader → Result (Option α × BinaryMessageReader)}
    {r : BinaryMessageReader} (hne : r.unread ≠ [])
    (hnone : ∀ bs a rest, r.unread = bs ++ rest → ¬ Encoding bs a)
    (hcall : call r = .ok (none, r.skip r.unread.length)) : ¬ Exact Encoding call r := by
  intro h
  have heq := h.2 hnone
  rw [hcall] at heq
  injection heq with heq
  have hpos := congrArg BinaryMessageReader.pos (congrArg Prod.snd heq)
  have hlen := List.length_pos_iff.2 hne
  simp only [pos_skip] at hpos
  omega

/-- Nothing, a numeral, or bytes that all continue. -/
theorem unread_cases (s : Bytes) :
    s = [] ∨ (∃ bs rest, s = bs ++ rest ∧ Base128.Numeral bs) ∨
      (s ≠ [] ∧ ∀ b ∈ s, Base128.more b) := by
  by_cases hs : s = []
  · exact .inl hs
  · obtain ⟨hnum, tail, htail⟩ | ⟨-, hmore⟩ := Base128.scanned_cases s
    · exact .inr (.inl ⟨_, tail, htail, hnum⟩)
    · exact .inr (.inr ⟨hs, hmore⟩)

theorem not_numeral_of_more {s bs rest : Bytes} (hmore : ∀ b ∈ s, Base128.more b)
    (h : s = bs ++ rest) : ¬ Base128.Numeral bs := by
  intro hnum
  obtain ⟨b, hb, hlast⟩ := hnum.exists_not_more
  exact hlast (hmore b (h ▸ List.mem_append_left rest hb))

theorem maybeReadVarUInt_exact_iff {r : BinaryMessageReader} (hr : r.InBounds) :
    Exact VarUIntEncoding maybeReadVarUInt r ↔
      r.unread = [] ∨
        ∃ bs rest, r.unread = bs ++ rest ∧ Base128.Numeral bs ∧ Base128.FitsWord bs := by
  obtain hnil | ⟨bs, rest, hunread, hnum⟩ | ⟨hne, hmore⟩ := unread_cases r.unread
  · refine iff_of_true ⟨fun bs a rest h ha => ?_, fun _ => ?_⟩ (.inl hnil)
    · rw [hnil] at h
      exact absurd (List.append_eq_nil_iff.1 h.symm).1 ha.1.ne_nil
    · rw [maybeReadVarUInt_truncated hr (by rw [hnil]; exact fun _ h => absurd h List.not_mem_nil),
        hnil]
      rfl
  · have hcall := maybeReadVarUInt_numeral hr hnum hunread
    constructor
    · intro h
      by_cases hfits : Base128.FitsWord bs
      · exact .inr ⟨bs, rest, hunread, hnum, hfits⟩
      · have hnone := h.2 fun bs' a rest' h' ha =>
          hfits ((numeral_unique hnum ha.1 (hunread.symm.trans h')).1 ▸ ha.2.1)
        rw [hcall] at hnone
        cases hnone
    · rintro (hnil | ⟨bs', rest', h', hnum', hfits⟩)
      · rw [hnil] at hunread
        exact absurd (List.append_eq_nil_iff.1 hunread.symm).1 hnum.ne_nil
      · obtain ⟨rfl, rfl⟩ := numeral_unique hnum hnum' (hunread.symm.trans h')
        have hvalue := overlaid_toNat hnum hfits
        constructor
        · intro bs' a rest' h' ha
          obtain ⟨rfl, -⟩ := numeral_unique hnum ha.1 (hunread.symm.trans h')
          rw [hcall, UInt64.toNat_inj.1 (hvalue.trans ha.2.2)]
        · intro hnone
          exact absurd ⟨hnum, hfits, hvalue.symm⟩ (hnone bs (overlaid 0 bs) rest hunread)
  · refine iff_of_false ?_ ?_
    · exact not_exact_of_truncated hne (fun bs a rest h ha => not_numeral_of_more hmore h ha.1)
        (maybeReadVarUInt_truncated hr hmore)
    · rintro (hnil | ⟨bs, rest, h, hnum, -⟩)
      · exact hne hnil
      · exact not_numeral_of_more hmore h hnum

/- The strings behind their length. -/

theorem maybeReadLenencString_numeral {r : BinaryMessageReader} {len rest : Bytes}
    (hr : r.InBounds) (hnum : Base128.Numeral len) (h : r.unread = len ++ rest) :
    r.maybeReadLenencString =
      if (overlaid 0 len).toNat ≤ rest.length then
        .ok (some (rest.take (overlaid 0 len).toNat), r.skip (len.length+(overlaid 0 len).toNat))
      else .ok (none, r) := by
  have hr' := hr.skip_unread h
  have h' := unread_skip h
  rw [maybeReadLenencString, maybeReadVarUInt_numeral hr hnum h, Result.ok_bind]
  change (if (overlaid 0 len).toNat ≤ (r.skip len.length).remaining then _ else _) = _
  rw [hr'.remaining_eq, h']
  by_cases hle : (overlaid 0 len).toNat ≤ rest.length
  · have hread := @read_length (r.skip len.length) (rest.take (overlaid 0 len).toNat)
      (rest.drop (overlaid 0 len).toNat) hr' (by rw [h', List.take_append_drop])
      (overlaid 0 len).toNat (List.length_take_of_le hle)
    rw [if_pos hle, if_pos hle, hread, skip_skip]
    rfl
  · rw [if_neg hle, if_neg hle]
    rfl

theorem maybeReadLenencString_truncated {r : BinaryMessageReader} (hr : r.InBounds)
    (hmore : ∀ b ∈ r.unread, Base128.more b) :
    r.maybeReadLenencString = .ok (none, r.skip r.unread.length) := by
  rw [maybeReadLenencString, maybeReadVarUInt_truncated hr hmore]
  rfl

theorem lenencEncoding_iff {len rest bs string rest' : Bytes} (hnum : Base128.Numeral len)
    (h : len ++ rest = bs ++ rest') : LenencEncoding bs string ↔
      Base128.FitsWord len ∧ bs = len ++ string ∧ rest = string ++ rest' ∧
        (overlaid 0 len).toNat = string.length := by
  constructor
  · rintro ⟨len', v, rfl, ⟨hnum', hfits, hvalue⟩, hlen⟩
    rw [List.append_assoc] at h
    obtain ⟨rfl, rfl⟩ := numeral_unique hnum hnum' h
    exact ⟨hfits, rfl, rfl, by rw [overlaid_toNat hnum hfits, hvalue, hlen]⟩
  · rintro ⟨hfits, rfl, rfl, hlen⟩
    exact ⟨len, overlaid 0 len, rfl, ⟨hnum, hfits, (overlaid_toNat hnum hfits).symm⟩, hlen⟩

/-- Where the length does not fit, it is right to return false as long as what it wraps around to
is not there either. -/
theorem maybeReadLenencString_exact_iff {r : BinaryMessageReader} (hr : r.InBounds) :
    Exact LenencEncoding maybeReadLenencString r ↔
      r.unread = [] ∨ ∃ len rest, r.unread = len ++ rest ∧ Base128.Numeral len ∧
        (Base128.FitsWord len ∨ rest.length < (overlaid 0 len).toNat) := by
  obtain hnil | ⟨len, rest, hunread, hnum⟩ | ⟨hne, hmore⟩ := unread_cases r.unread
  · refine iff_of_true ⟨fun bs a rest h => ?_, fun _ => ?_⟩ (.inl hnil)
    · rintro ⟨len, v, rfl, hv, -⟩
      rw [hnil, List.append_assoc] at h
      exact absurd (List.append_eq_nil_iff.1 h.symm).1 hv.1.ne_nil
    · rw [maybeReadLenencString_truncated hr
        (by rw [hnil]; exact fun _ h => absurd h List.not_mem_nil), hnil]
      rfl
  · have hcall := maybeReadLenencString_numeral hr hnum hunread
    constructor
    · intro h
      by_cases hfits : Base128.FitsWord len
      · exact .inr ⟨len, rest, hunread, hnum, .inl hfits⟩
      · refine .inr ⟨len, rest, hunread, hnum, .inr (Nat.lt_of_not_le fun hle => ?_)⟩
        have hnone := h.2 fun bs string rest' h' ha =>
          hfits ((lenencEncoding_iff hnum (hunread.symm.trans h')).1 ha).1
        rw [hcall, if_pos hle] at hnone
        cases hnone
    · rintro (hnil | ⟨len', rest', h', hnum', hcond⟩)
      · rw [hnil] at hunread
        exact absurd (List.append_eq_nil_iff.1 hunread.symm).1 hnum.ne_nil
      · obtain ⟨rfl, rfl⟩ := numeral_unique hnum hnum' (hunread.symm.trans h')
        constructor
        · intro bs string tail htail ha
          obtain ⟨-, rfl, rfl, hlen⟩ := (lenencEncoding_iff hnum (hunread.symm.trans htail)).1 ha
          have hle : (overlaid 0 len).toNat ≤ (string ++ tail).length := by
            rw [hlen, List.length_append]
            omega
          rw [hcall, if_pos hle, hlen, List.take_left, List.length_append]
        · intro hnone
          rw [hcall, if_neg]
          intro hle
          have hfits : Base128.FitsWord len := hcond.resolve_right (Nat.not_lt.2 hle)
          have hsplit : r.unread = len ++ rest.take (overlaid 0 len).toNat
              ++ rest.drop (overlaid 0 len).toNat := by
            rw [List.append_assoc, List.take_append_drop, hunread]
          refine hnone _ (rest.take (overlaid 0 len).toNat) _ hsplit
            ((lenencEncoding_iff hnum (hunread.symm.trans hsplit)).2 ?_)
          exact ⟨hfits, rfl, (List.take_append_drop _ _).symm, (List.length_take_of_le hle).symm⟩
  · refine iff_of_false ?_ ?_
    · refine not_exact_of_truncated hne ?_ (maybeReadLenencString_truncated hr hmore)
      rintro bs string rest h ⟨len, v, rfl, hv, -⟩
      rw [List.append_assoc] at h
      exact not_numeral_of_more hmore h hv.1
    · rintro (hnil | ⟨len, rest, h, hnum, -⟩)
      · exact hne hnil
      · exact not_numeral_of_more hmore h hnum

theorem readUInt8_length {r : BinaryMessageReader} {bs rest : Bytes} (hr : r.InBounds)
    (h : r.unread = bs ++ rest) (hn : bs.length = 1) :
    r.readUInt8 = .ok (bs.headD 0, r.skip 1) := by
  rw [readUInt8, read_length hr h hn]
  rfl

theorem readUInt64_length {r : BinaryMessageReader} {bs rest : Bytes} (hr : r.InBounds)
    (h : r.unread = bs ++ rest) (hn : bs.length = 8) :
    r.readUInt64 = .ok (UInt64.ofNat (LittleEndian.decode bs), r.skip 8) := by
  rw [readUInt64, read_length hr h hn]
  rfl

theorem maybeRead_family_exact (r : BinaryMessageReader) (hr : r.InBounds) : MaybeReadExact r where
  uint8 := maybeRead_exact_iff readUInt8_length hr
  uint16 := maybeRead_exact_iff
    (fun hr h hn => by rw [readUInt16, read_length hr h hn]; rfl) hr
  uint32 := maybeRead_exact_iff
    (fun hr h hn => by rw [readUInt32, read_length hr h hn]; rfl) hr
  uint64 := maybeRead_exact_iff readUInt64_length hr
  double := maybeRead_exact_iff readUInt64_length hr
  varUInt := maybeReadVarUInt_exact_iff hr
  lenencString := maybeReadLenencString_exact_iff hr

theorem maybeRead_family_exact_five : MaybeReadExact (new [5]) :=
  maybeRead_family_exact (new [5]) (InBounds.new (by decide))

/-- The last byte of the buffer is a whole number of eight bits, and one that continues begins a
number or a length that is still to come. -/
theorem maybeRead_family_not_exact :
    ¬ Exact (FixedEncoding 1 (·.headD 0)) maybeReadUInt8 (new [5]) ∧
    ¬ Exact VarUIntEncoding maybeReadVarUInt (new [0x80]) ∧
    ¬ Exact LenencEncoding maybeReadLenencString (new [0x80]) := by
  have hmore : ∀ b ∈ (new [0x80]).unread, Base128.more b :=
    List.forall_mem_cons.2 ⟨by decide, fun _ h => absurd h List.not_mem_nil⟩
  have hr : (new [0x80]).InBounds := InBounds.new (by decide)
  refine ⟨?_, ?_, ?_⟩
  · rw [show maybeReadUInt8 = maybeRead 1 readUInt8 from rfl,
      maybeRead_exact_iff readUInt8_length (InBounds.new (by decide))]
    exact not_not.2 rfl
  · exact not_exact_of_truncated (List.cons_ne_nil _ _)
      (fun bs a rest h ha => not_numeral_of_more hmore h ha.1) (maybeReadVarUInt_truncated hr hmore)
  · refine not_exact_of_truncated (List.cons_ne_nil _ _) ?_
      (maybeReadLenencString_truncated hr hmore)
    rintro bs string rest h ⟨len, v, rfl, hv, -⟩
    rw [List.append_assoc] at h
    exact not_numeral_of_more hmore h hv.1

end Stx.Util.BinaryMessageReader
