import Stx.Protobuf.DynamicMessage

/-! The texts that `addField` takes for integers, and the integers that they are. -/
namespace Stx

namespace Libc

/-- The integer of a numeral, without the range of a type. -/
def Numeral.value (m : Numeral) : Int :=
  if m.negative then -digitsVal m.digits else digitsVal m.digits

/-- What stands behind the numeral. -/
def trailing (text : Bytes) : Bytes :=
  match text.dropWhile isspace with
  | [] => []
  | c :: rest => (if c = 45 ∨ c = 43 then rest else c :: rest).dropWhile isdigit

/-- The text is a decimal numeral of the integer, behind white space. -/
def Denotes (text : Bytes) (n : Int) : Prop :=
  ∃ blanks digits, (∀ c ∈ blanks, isspace c = true) ∧ digits ≠ [] ∧
    (∀ c ∈ digits, isdigit c = true) ∧
      ((text = blanks ++ digits ∨ text = blanks ++ 43 :: digits) ∧ n = digitsVal digits ∨
        text = blanks ++ 45 :: digits ∧ n = -digitsVal digits)

/-- A text that is a numeral has its digits, and nothing behind them. -/
theorem ofText_of_denotes {text : Bytes} {n : Int} (h : Denotes text n) :
    (Numeral.ofText text).digits ≠ [] ∧ trailing text = [] ∧ (Numeral.ofText text).value = n := by
  obtain ⟨blanks, digits, hblanks, hne, hdigits, htext⟩ := h
  have htake : digits.takeWhile isdigit = digits := List.takeWhile_eq_self_iff.2 hdigits
  have hdrop : digits.dropWhile isdigit = [] := List.dropWhile_eq_nil_iff.2 hdigits
  obtain ⟨rfl | rfl, rfl⟩ | ⟨rfl, rfl⟩ := htext
  · have hrest := dropWhile_blanks hblanks (head_isspace hdigits)
    rw [Numeral.ofText, trailing, hrest]
    cases digits with
    | nil => exact absurd rfl hne
    | cons d digits =>
      have hd := hdigits d List.mem_cons_self
      have hminus : d ≠ 45 := by rintro rfl; exact absurd hd (by decide)
      have hplus : d ≠ 43 := by rintro rfl; exact absurd hd (by decide)
      simp only [hminus, hplus, or_self, if_false, htake, hdrop]
      exact ⟨hne, trivial, rfl⟩
  · have hrest := @dropWhile_blanks blanks (43 :: digits) hblanks (by rintro c ⟨⟩; rfl)
    rw [Numeral.ofText, trailing, hrest]
    simp only [htake]
    exact ⟨hne, hdrop, rfl⟩
  · have hrest := @dropWhile_blanks blanks (45 :: digits) hblanks (by rintro c ⟨⟩; rfl)
    rw [Numeral.ofText, trailing, hrest]
    simp only [htake]
    exact ⟨hne, hdrop, rfl⟩

theorem takeWhile_of_trailing {rest : Bytes} (h : rest.dropWhile isdigit = []) :
    rest.takeWhile isdigit = rest := by
  have happend := @List.takeWhile_append_dropWhile _ isdigit rest
  rwa [h, List.append_nil] at happend

theorem denotes_of_trailing {text : Bytes} (hne : (Numeral.ofText text).digits ≠ [])
    (htrailing : trailing text = []) : Denotes text (Numeral.ofText text).value := by
  have happend := @List.takeWhile_append_dropWhile _ isspace text
  refine ⟨text.takeWhile isspace, (Numeral.ofText text).digits,
    fun c hc => List.mem_takeWhile_imp hc, hne, ?_⟩
  rw [Numeral.ofText] at hne ⊢
  rw [trailing] at htrailing
  cases hrest : text.dropWhile isspace with
  | nil => rw [hrest] at hne; exact absurd rfl hne
  | cons c rest =>
    rw [hrest] at hne htrailing happend
    simp only at hne htrailing ⊢
    by_cases hminus : c = 45
    · rw [if_pos (.inl hminus)] at htrailing
      rw [if_pos hminus, takeWhile_of_trailing htrailing]
      refine ⟨List.dropWhile_eq_nil_iff.1 htrailing, .inr ⟨?_, rfl⟩⟩
      rw [← hminus, happend]
    · by_cases hplus : c = 43
      · rw [if_pos (.inr hplus)] at htrailing
        rw [if_neg hminus, if_pos hplus, takeWhile_of_trailing htrailing]
        refine ⟨List.dropWhile_eq_nil_iff.1 htrailing, .inl ⟨.inr ?_, rfl⟩⟩
        rw [← hplus, happend]
      · rw [if_neg (not_or.2 ⟨hminus, hplus⟩)] at htrailing
        rw [if_neg hminus, if_neg hplus, takeWhile_of_trailing htrailing]
        exact ⟨List.dropWhile_eq_nil_iff.1 htrailing, .inl ⟨.inl happend.symm, rfl⟩⟩

end Libc

namespace Msg.DynamicMessage
open Libc (Numeral Denotes digitsVal trailing)

/-- The bits of the numbers that a field has. -/
def bits : FieldType → Nat
  | .uint32 => 32
  | _ => 64

/-- The number as the child of a field. -/
def integerChild (type : FieldType) (id : UInt32) (n : Nat) : MessageObject :=
  if type = .uint32 then .uint32 id (UInt32.ofNat n) else .uint64 id (UInt64.ofNat n)

/-- `addField` stores the integer that the text is, or it leaves the message as it is. -/
def StoresExactly (conv : Conversions) (msg : DynamicMessage) (id : UInt32) (type : FieldType)
    (text : Bytes) : Prop :=
  ∃ added msg', addFieldId conv msg id text = .ok (added, msg') ∧ (added = false → msg' = msg) ∧
    (added = true → ∃ n : Nat, Denotes text n ∧ n < 2^bits type ∧
      msg.addChild (integerChild type id n) = .ok msg')

section
variable {conv : Conversions} {msg : DynamicMessage} {s : MessageSchema} {id : UInt32}
  {type : FieldType}

theorem addFieldId_integer (hschema : msg.schema_ = some s) (hfield : s.hasField id = true)
    (htype : s.fieldType id = .ok type) (hint : type = .uint32 ∨ type = .uint64) (text : Bytes) :
    addFieldId conv msg id text =
      msg.addConverted ((Libc.stoul text).map (integerChild type id)) := by
  have hnarrow : ∀ n, (UInt64.ofNat n).toUInt32 = UInt32.ofNat n := by
    intro n
    rw [← UInt32.toNat_inj, UInt64.toNat_toUInt32, UInt64.toNat_ofNat', UInt32.toNat_ofNat']
    omega
  rw [addFieldId, hschema, MessageSchema.deref, Result.ok_bind, hfield, htype]
  cases hint with
  | inl h =>
    subst h
    simp only [Bool.not_true, Bool.false_eq_true, if_false, Result.ok_bind, stoull,
      Option.map_map]
    refine congrArg (fun g => msg.addConverted ((Libc.stoul text).map g)) (funext fun n => ?_)
    rw [Function.comp_apply, hnarrow]
    rfl
  | inr h =>
    subst h
    simp only [Bool.not_true, Bool.false_eq_true, if_false, Result.ok_bind, stoull,
      Option.map_map]
    rfl

/-- The number that is stored is that of the numeral, modulo the size of the type. -/
theorem stoul_eq_some {text : Bytes} {n : Nat} (h : Libc.stoul text = some n)
    (hvalue : 0 ≤ (Numeral.ofText text).value) : (n : Int) = (Numeral.ofText text).value := by
  rw [Libc.stoul] at h
  rw [Numeral.value] at hvalue ⊢
  split at h
  · cases h
  · split at h
    · next hnegative =>
      rw [if_pos hnegative] at hvalue ⊢
      have hzero : digitsVal (Numeral.ofText text).digits = 0 := by omega
      rw [hzero] at h ⊢
      cases h
      rfl
    · next hpositive =>
      rw [if_neg hpositive]
      cases h
      rfl

theorem addChild_raises (h : msg.data_.type ≠ .object) (c : MessageObject) :
    ∃ e, msg.addChild c = .raise e := by
  obtain ⟨schema, data⟩ := msg
  cases data with
  | object id cs => exact absurd rfl h
  | boolean | string | uint32 | uint64 | double | datetime => exact ⟨_, rfl⟩

/-- A text that is taken has to be a numeral and nothing else, for a number that the type has. -/
theorem storesExactly_iff (hschema : msg.schema_ = some s) (hfield : s.hasField id = true)
    (htype : s.fieldType id = .ok type) (hint : type = .uint32 ∨ type = .uint64) (text : Bytes) :
    StoresExactly conv msg id type text ↔
      msg.data_.type ≠ .object ∨ (Numeral.ofText text).digits = [] ∨
        2^64 ≤ digitsVal (Numeral.ofText text).digits ∨
          trailing text = [] ∧ 0 ≤ (Numeral.ofText text).value ∧
            (Numeral.ofText text).value < 2^bits type := by
  rw [StoresExactly, addFieldId_integer hschema hfield htype hint]
  by_cases hdata : msg.data_.type ≠ .object
  · refine iff_of_true ⟨false, msg, ?_, fun _ => rfl, Bool.noConfusion⟩ (.inl hdata)
    cases Libc.stoul text with
    | none => rfl
    | some n =>
      obtain ⟨e, he⟩ := addChild_raises hdata (integerChild type id n)
      rw [Option.map_some, addConverted, he]
  · rw [not_not] at hdata
    obtain ⟨schema, data⟩ := msg
    cases data with
    | boolean | string | uint32 | uint64 | double | datetime => cases hdata
    | object i cs =>
      by_cases hnone : (Numeral.ofText text).digits = [] ∨
          2^64 ≤ digitsVal (Numeral.ofText text).digits
      · have hstoul : Libc.stoul text = none := if_pos hnone
        rw [hstoul]
        refine iff_of_true ⟨false, _, rfl, fun _ => rfl, Bool.noConfusion⟩ (.inr ?_)
        rw [← or_assoc]
        exact .inl hnone
      · have hne : (Numeral.ofText text).digits ≠ [] := fun h => hnone (.inl h)
        obtain ⟨n, hn⟩ : ∃ n, Libc.stoul text = some n := by
          rw [Libc.stoul]
          simp only [if_neg hnone]
          split <;> exact ⟨_, rfl⟩
        rw [hn, Option.map_some, addConverted]
        constructor
        · rintro ⟨added, msg', hadd, -, hstored⟩
          cases hadd
          obtain ⟨k, hdenotes, hk, -⟩ := hstored rfl
          obtain ⟨-, htrailing, hvalue⟩ := Libc.ofText_of_denotes hdenotes
          refine .inr (.inr (.inr ⟨htrailing, ?_, ?_⟩))
          · rw [hvalue]
            exact Int.natCast_nonneg k
          · rw [hvalue]
            exact_mod_cast hk
        · rintro (hobject | hempty | hlarge | ⟨htrailing, hvalue, hlt⟩)
          · exact absurd rfl hobject
          · exact absurd hempty hne
          · exact absurd (.inr hlarge) hnone
          · have hint := stoul_eq_some hn hvalue
            refine ⟨true, _, rfl, Bool.noConfusion, fun _ => ⟨n, ?_, ?_, rfl⟩⟩
            · rw [hint]
              exact Libc.denotes_of_trailing hne htrailing
            · rw [← hint] at hlt
              exact_mod_cast hlt

end

/- One field of 32 bits. -/

def countSchema : MessageSchema :=
  .new (lit "count") [⟨1, lit "n", .uint32, 0, false, false, .none, none⟩]

theorem plus_storesExactly :
    StoresExactly ⟨fun _ => none, fun _ => none⟩ (.new (some countSchema)) 1 .uint32
      (lit " +4294967295") := by
  refine (storesExactly_iff rfl (by decide) (by rfl) (.inl rfl) _).2 (.inr (.inr (.inr ?_)))
  decide

/-- 2^32 is stored as 0. -/
theorem large_not_storesExactly :
    ¬∀ conv msg s id type, msg.schema_ = some s → s.hasField id = true →
      s.fieldType id = .ok type → type = .uint32 ∨ type = .uint64 → ∀ text,
        StoresExactly conv msg id type text := by
  intro h
  obtain ⟨added, msg', hadd, -, hstored⟩ := h ⟨fun _ => none, fun _ => none⟩
    (.new (some countSchema)) countSchema 1 .uint32 rfl (by decide) (by rfl) (.inl rfl)
    (lit "4294967296")
  have hzero : addFieldId ⟨fun _ => none, fun _ => none⟩ (.new (some countSchema)) 1
      (lit "4294967296") = .ok (true, ⟨some countSchema, .object 0 [.uint32 1 0]⟩) := by
    rfl
  cases hzero.symm.trans hadd
  obtain ⟨n, hdenotes, hn, -⟩ := hstored rfl
  obtain ⟨-, -, hvalue⟩ := Libc.ofText_of_denotes hdenotes
  have hlarge : (Numeral.ofText (lit "4294967296")).value = 4294967296 := by decide
  rw [hlarge] at hvalue
  have hn' : n < 2^32 := hn
  omega

end Msg.DynamicMessage
end Stx
