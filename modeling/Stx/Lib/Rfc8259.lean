import Mathlib.Data.List.Chain
import Mathlib.Tactic.Ring

/-! The grammar of RFC 8259 over bytes, those above 0x7f being ordinary characters. A text is a
value and the blanks in front of each of its terminals and behind the last one: between two
terminals of a value there is always a structural character, around which blanks are allowed. -/
namespace Rfc8259

/-- Values, over the strings `σ` and the numbers `ν`. -/
inductive Json (σ ν : Type) where
  | null | true | false
  | string (s : σ)
  | number (n : ν)
  | array (elems : List (Json σ ν))
  | object (members : List (σ × Json σ ν))

namespace Json
variable {σ ν σ' ν' : Type}

/-- Induction on a value, with the hypothesis for every element and every value of a member. -/
theorem induction {P : Json σ ν → Prop} (null : P .null) (true : P .true) (false : P .false)
    (string : ∀ s, P (.string s)) (number : ∀ n, P (.number n))
    (array : ∀ elems, (∀ v ∈ elems, P v) → P (.array elems))
    (object : ∀ members : List (σ × Json σ ν), (∀ m ∈ members, P m.2) → P (.object members))
    (v : Json σ ν) : P v := by
  refine @Json.rec σ ν P (fun elems => ∀ v ∈ elems, P v) (fun members => ∀ m ∈ members, P m.2)
    (fun m => P m.2) null true false string number array object ?_ ?_ ?_ ?_ ?_ v
  · exact List.forall_mem_nil _
  · intro v elems hv helems
    exact List.forall_mem_cons.2 ⟨hv, helems⟩
  · exact List.forall_mem_nil _
  · intro m members hm hmembers
    exact List.forall_mem_cons.2 ⟨hm, hmembers⟩
  · exact fun _ _ h => h

mutual
def map (f : σ → σ') (g : ν → ν') : Json σ ν → Json σ' ν'
  | null => null
  | true => true
  | false => false
  | string s => string (f s)
  | number n => number (g n)
  | array elems => array (mapElems f g elems)
  | object members => object (mapMembers f g members)

def mapElems (f : σ → σ') (g : ν → ν') : List (Json σ ν) → List (Json σ' ν')
  | [] => []
  | v :: elems => v.map f g :: mapElems f g elems

def mapMembers (f : σ → σ') (g : ν → ν') : List (σ × Json σ ν) → List (σ' × Json σ' ν')
  | [] => []
  | (k, v) :: members => (f k, v.map f g) :: mapMembers f g members
end

end Json

/- Strings. -/

/-- The escapes of two characters. -/
inductive Escape where
  | quote | backslash | slash | backspace | formFeed | lineFeed | carriageReturn | tab
  deriving DecidableEq

namespace Escape

def letter : Escape → UInt8
  | quote => 34
  | backslash => 92
  | slash => 47
  | backspace => 98
  | formFeed => 102
  | lineFeed => 110
  | carriageReturn => 114
  | tab => 116

def char : Escape → UInt8
  | quote => 34
  | backslash => 92
  | slash => 47
  | backspace => 8
  | formFeed => 12
  | lineFeed => 10
  | carriageReturn => 13
  | tab => 9

theorem letter_injective : Function.Injective letter := by
  intro a b
  cases a <;> cases b <;> decide

theorem letter_ne_u (e : Escape) : e.letter ≠ 117 := by
  cases e <;> decide

end Escape

def IsHexDigit (b : UInt8) : Prop := 48 ≤ b ∧ b ≤ 57 ∨ 65 ≤ b ∧ b ≤ 70 ∨ 97 ≤ b ∧ b ≤ 102

instance (b : UInt8) : Decidable (IsHexDigit b) := inferInstanceAs (Decidable (_ ∨ _))

abbrev HexDigit := { b : UInt8 // IsHexDigit b }

def HexDigit.value (d : HexDigit) : Nat :=
  if d.1 ≤ 57 then d.1.toNat-48 else if d.1 ≤ 70 then d.1.toNat-55 else d.1.toNat-87

inductive Item where
  | plain (b : UInt8) (h : 32 ≤ b ∧ b ≠ 34 ∧ b ≠ 92)
  | escape (e : Escape)
  | unicode (d₁ d₂ d₃ d₄ : HexDigit)
  deriving DecidableEq

def Item.text : Item → List UInt8
  | plain b _ => [b]
  | escape e => [92, e.letter]
  | unicode d₁ d₂ d₃ d₄ => [92, 117, d₁.1, d₂.1, d₃.1, d₄.1]

def Item.isUnicode : Item → Bool
  | unicode .. => true
  | _ => false

abbrev Str := List Item

def utf8 (c : Nat) : List UInt8 :=
  if c < 0x80 then [UInt8.ofNat c]
  else if c < 0x800 then [UInt8.ofNat (0xc0+c/64), UInt8.ofNat (0x80+c%64)]
  else if c < 0x10000 then
    [UInt8.ofNat (0xe0+c/4096), UInt8.ofNat (0x80+c/64%64), UInt8.ofNat (0x80+c%64)]
  else
    [UInt8.ofNat (0xf0+c/262144), UInt8.ofNat (0x80+c/4096%64), UInt8.ofNat (0x80+c/64%64),
      UInt8.ofNat (0x80+c%64)]

def codeUnit (d₁ d₂ d₃ d₄ : HexDigit) : Nat :=
  ((d₁.value*16+d₂.value)*16+d₃.value)*16+d₄.value

namespace Str

/-- The characters between the quotes. -/
def body (s : Str) : List UInt8 := s.flatMap Item.text

/-- The string in UTF-8. Two code units that are a surrogate pair are one character; the RFC leaves
a surrogate without a partner open, and it is encoded as it stands. -/
def decode : Str → List UInt8
  | [] => []
  | .plain b _ :: rest => b :: decode rest
  | .escape e :: rest => e.char :: decode rest
  | [.unicode d₁ d₂ d₃ d₄] => utf8 (codeUnit d₁ d₂ d₃ d₄)
  | .unicode d₁ d₂ d₃ d₄ :: .unicode e₁ e₂ e₃ e₄ :: rest =>
    if 0xd800 ≤ codeUnit d₁ d₂ d₃ d₄ ∧ codeUnit d₁ d₂ d₃ d₄ < 0xdc00 ∧
        0xdc00 ≤ codeUnit e₁ e₂ e₃ e₄ ∧ codeUnit e₁ e₂ e₃ e₄ < 0xe000 then
      utf8 (0x10000+(codeUnit d₁ d₂ d₃ d₄-0xd800)*1024+(codeUnit e₁ e₂ e₃ e₄-0xdc00)) ++ decode rest
    else utf8 (codeUnit d₁ d₂ d₃ d₄) ++ decode (.unicode e₁ e₂ e₃ e₄ :: rest)
  | .unicode d₁ d₂ d₃ d₄ :: item :: rest => utf8 (codeUnit d₁ d₂ d₃ d₄) ++ decode (item :: rest)

def hasUnicode (s : Str) : Bool := s.any Item.isUnicode

/-- A code unit that is no surrogate is a character of its own. -/
theorem decode_unicode {d₁ d₂ d₃ d₄ : HexDigit} (h : codeUnit d₁ d₂ d₃ d₄ < 0xd800) (s : Str) :
    decode (.unicode d₁ d₂ d₃ d₄ :: s) = utf8 (codeUnit d₁ d₂ d₃ d₄) ++ decode s := by
  cases s with
  | nil => simp [decode]
  | cons item s =>
    cases item with
    | plain b h => simp only [decode]
    | escape e => simp only [decode]
    | unicode e₁ e₂ e₃ e₄ =>
      rw [decode, if_neg]
      omega

end Str

/-- The text of an item does not begin as a closing quote does, and no other item begins alike. -/
theorem Item.text_append_inj {i j : Item} {x y : List UInt8} (h : i.text ++ x = j.text ++ y) :
    i = j ∧ x = y := by
  cases i with
  | plain b hb =>
    cases j with
    | plain c hc => simpa [text] using h
    | escape e => simp [text, hb] at h
    | unicode => simp [text, hb] at h
  | escape e =>
    cases j with
    | plain c hc => simp [text, hc.2.2.symm] at h
    | escape e' => simpa [text, Escape.letter_injective.eq_iff] using h
    | unicode => simp [text, e.letter_ne_u] at h
  | unicode d₁ d₂ d₃ d₄ =>
    cases j with
    | plain c hc => simp [text, hc.2.2.symm] at h
    | escape e => simp [text, e.letter_ne_u.symm] at h
    | unicode e₁ e₂ e₃ e₄ => simpa [text, Subtype.ext_iff, and_assoc] using h

theorem Item.text_append_ne_quote (i : Item) (x y : List UInt8) : i.text ++ x ≠ 34 :: y := by
  cases i with
  | plain b hb => simp [text, hb.2.1]
  | escape e => simp [text]
  | unicode => simp [text]

/-- A string in quotes is spelled in one way. -/
theorem Str.body_unique {s t : Str} {x y : List UInt8}
    (h : s.body ++ 34 :: x = t.body ++ 34 :: y) : s = t ∧ x = y := by
  induction s generalizing t with
  | nil =>
    cases t with
    | nil => simpa [body] using h
    | cons i t =>
      rw [body, body, List.flatMap_cons, List.append_assoc] at h
      exact absurd h.symm (i.text_append_ne_quote _ _)
  | cons i s ih =>
    cases t with
    | nil =>
      rw [body, body, List.flatMap_cons, List.append_assoc] at h
      exact absurd h (i.text_append_ne_quote _ _)
    | cons j t =>
      rw [body, body, List.flatMap_cons, List.flatMap_cons, List.append_assoc,
        List.append_assoc] at h
      obtain ⟨rfl, hrest⟩ := Item.text_append_inj h
      obtain ⟨rfl, hxy⟩ := ih hrest
      exact ⟨rfl, hxy⟩

/- Numbers. -/

abbrev Digit := Fin 10

def Digit.char (d : Digit) : UInt8 := 48+UInt8.ofNat d.1

/-- `0`, or digits of which the first is not zero. -/
inductive IntPart where
  | zero
  | digits (first : Fin 9) (rest : List Digit)
  deriving DecidableEq

structure ExpPart where
  upper : Bool
  minus : Option Bool
  first : Digit
  rest : List Digit
  deriving DecidableEq

structure Number where
  minus : Bool
  int : IntPart
  frac : Option (Digit × List Digit)
  exp : Option ExpPart
  deriving DecidableEq

def IntPart.text : IntPart → List UInt8
  | zero => [48]
  | digits first rest => (49+UInt8.ofNat first.1) :: rest.map Digit.char

def ExpPart.text (e : ExpPart) : List UInt8 :=
  (if e.upper then 69 else 101) ::
    ((match e.minus with
      | none => []
      | some minus => [if minus then 45 else 43]) ++ e.first.char :: e.rest.map Digit.char)

def Number.text (n : Number) : List UInt8 :=
  (if n.minus then [45] else []) ++ n.int.text ++
    (match n.frac with
      | none => []
      | some (first, rest) => 46 :: first.char :: rest.map Digit.char) ++
    (match n.exp with
      | none => []
      | some e => e.text)

def digitChars : List UInt8 := [48, 49, 50, 51, 52, 53, 54, 55, 56, 57]

/-- `+`, `-`, `.`, `E`, `e` and the digits. -/
def numberChars : List UInt8 := 43 :: 45 :: 46 :: 69 :: 101 :: digitChars

theorem Digit.char_mem (d : Digit) : d.char ∈ digitChars := by
  revert d
  decide

theorem IntPart.text_cons (n : IntPart) :
    ∃ c x, n.text = c :: x ∧ c ∈ digitChars ∧ ∀ d ∈ x, d ∈ digitChars := by
  cases n with
  | zero => exact ⟨48, [], rfl, by decide, List.forall_mem_nil _⟩
  | digits first rest =>
    have hfirst : ∀ d : Fin 9, 49+UInt8.ofNat d.1 ∈ digitChars := by decide
    refine ⟨49+UInt8.ofNat first.1, rest.map Digit.char, rfl, hfirst first, ?_⟩
    simp only [List.mem_map, forall_exists_index, and_imp, forall_apply_eq_imp_iff₂]
    exact fun d _ => d.char_mem

theorem Number.text_cons (n : Number) :
    ∃ c x, n.text = c :: x ∧ (c = 45 ∨ c ∈ digitChars) := by
  obtain ⟨c, x, hint, hc, -⟩ := n.int.text_cons
  unfold Number.text
  rw [hint]
  cases n.minus with
  | false => exact ⟨c, _, rfl, .inr hc⟩
  | true => exact ⟨45, _, rfl, .inl rfl⟩

theorem mem_numberChars {c : UInt8} (h : c ∈ digitChars) : c ∈ numberChars := by
  simp [numberChars, h]

theorem digits_subset {first : Digit} {rest : List Digit} {c : UInt8}
    (h : c ∈ first.char :: rest.map Digit.char) : c ∈ numberChars := by
  cases List.mem_cons.1 h with
  | inl h => exact mem_numberChars (h ▸ first.char_mem)
  | inr h =>
    obtain ⟨d, -, rfl⟩ := List.mem_map.1 h
    exact mem_numberChars d.char_mem

theorem ExpPart.mem_text {e : ExpPart} {c : UInt8} (h : c ∈ e.text) : c ∈ numberChars := by
  rw [text, List.mem_cons, List.mem_append] at h
  rcases h with h | h | h
  · cases hu : e.upper <;> simp only [hu] at h <;> rw [h] <;> decide
  · cases hm : e.minus with
    | none => simp [hm] at h
    | some minus => cases minus <;> simp only [hm, List.mem_singleton] at h <;> rw [h] <;> decide
  · exact digits_subset h

theorem Number.mem_text {n : Number} {c : UInt8} (h : c ∈ n.text) : c ∈ numberChars := by
  simp only [text, List.mem_append] at h
  rcases h with ((h | h) | h) | h
  · cases hm : n.minus <;> simp [hm] at h
    rw [h]
    decide
  · obtain ⟨d, x, hint, hd, hx⟩ := n.int.text_cons
    rw [hint, List.mem_cons] at h
    cases h with
    | inl h => exact mem_numberChars (h ▸ hd)
    | inr h => exact mem_numberChars (hx c h)
  · cases hf : n.frac with
    | none => simp [hf] at h
    | some digits =>
      simp only [hf, List.mem_cons] at h
      cases h with
      | inl h => rw [h]; decide
      | inr h => exact digits_subset (List.mem_cons.2 h)
  · cases he : n.exp with
    | none => simp [he] at h
    | some e =>
      simp only [he] at h
      exact ExpPart.mem_text h

/- Texts. -/

inductive Blank where
  | space | tab | lineFeed | carriageReturn
  deriving DecidableEq

def Blank.char : Blank → UInt8
  | space => 32
  | tab => 9
  | lineFeed => 10
  | carriageReturn => 13

inductive Terminal where
  | beginArray | endArray | beginObject | endObject | nameSeparator | valueSeparator
  | true | false | null
  | string (s : Str)
  | number (n : Number)

def Terminal.text : Terminal → List UInt8
  | beginArray => [91]
  | endArray => [93]
  | beginObject => [123]
  | endObject => [125]
  | nameSeparator => [58]
  | valueSeparator => [44]
  | true => [116, 114, 117, 101]
  | false => [102, 97, 108, 115, 101]
  | null => [110, 117, 108, 108]
  | string s => 34 :: (s.body ++ [34])
  | number n => n.text

abbrev Value := Json Str Number

mutual
def terminals : Value → List Terminal
  | .null => [.null]
  | .true => [.true]
  | .false => [.false]
  | .string s => [.string s]
  | .number n => [.number n]
  | .array [] => [.beginArray, .endArray]
  | .array (v :: elems) => .beginArray :: (terminals v ++ terminalsElems elems ++ [.endArray])
  | .object [] => [.beginObject, .endObject]
  | .object ((k, v) :: members) =>
    .beginObject :: .string k :: .nameSeparator ::
      (terminals v ++ terminalsMembers members ++ [.endObject])

/-- The elements behind the first one. -/
def terminalsElems : List Value → List Terminal
  | [] => []
  | v :: elems => .valueSeparator :: (terminals v ++ terminalsElems elems)

def terminalsMembers : List (Str × Value) → List Terminal
  | [] => []
  | (k, v) :: members =>
    .valueSeparator :: .string k :: .nameSeparator :: (terminals v ++ terminalsMembers members)
end

def Terminal.isNumber : Terminal → Bool
  | number _ => Bool.true
  | _ => Bool.false

def Terminal.isStructural : Terminal → Bool
  | beginArray | endArray | beginObject | endObject | nameSeparator | valueSeparator => Bool.true
  | _ => Bool.false

/-- A number has a structural character behind it, or nothing. -/
def Apart (a b : Terminal) : Prop := a.isNumber → b.isStructural

section chain
variable {ts : List Terminal}

theorem isChain_cons_of_not {t : Terminal} (ht : t.isNumber = Bool.false)
    (h : ts.IsChain Apart) : (t :: ts).IsChain Apart :=
  List.isChain_cons.2 ⟨fun _ _ hnumber => absurd (ht.symm.trans hnumber) Bool.false_ne_true, h⟩

theorem isChain_elems {elems : List Value}
    (ih : ∀ v ∈ elems, ∀ ts : List Terminal, (∀ t ∈ ts.head?, t.isStructural) →
      ts.IsChain Apart → (terminals v ++ ts).IsChain Apart)
    (hhead : ∀ t ∈ ts.head?, t.isStructural) (h : ts.IsChain Apart) :
    (∀ t ∈ (terminalsElems elems ++ ts).head?, t.isStructural) ∧
      (terminalsElems elems ++ ts).IsChain Apart := by
  induction elems with
  | nil => exact ⟨hhead, h⟩
  | cons v elems ihe =>
    obtain ⟨hhead', hrest⟩ := ihe fun w hw => ih w (List.mem_cons_of_mem v hw)
    rw [terminalsElems, List.cons_append, List.append_assoc]
    refine ⟨by simp [Terminal.isStructural], isChain_cons_of_not rfl ?_⟩
    exact ih v List.mem_cons_self _ hhead' hrest

theorem isChain_members {members : List (Str × Value)}
    (ih : ∀ m ∈ members, ∀ ts : List Terminal, (∀ t ∈ ts.head?, t.isStructural) →
      ts.IsChain Apart → (terminals m.2 ++ ts).IsChain Apart)
    (hhead : ∀ t ∈ ts.head?, t.isStructural) (h : ts.IsChain Apart) :
    (∀ t ∈ (terminalsMembers members ++ ts).head?, t.isStructural) ∧
      (terminalsMembers members ++ ts).IsChain Apart := by
  induction members with
  | nil => exact ⟨hhead, h⟩
  | cons m members ihm =>
    obtain ⟨hhead', hrest⟩ := ihm fun w hw => ih w (List.mem_cons_of_mem m hw)
    cases m with
    | mk k v =>
      rw [terminalsMembers, List.cons_append, List.cons_append, List.cons_append, List.append_assoc]
      refine ⟨by simp [Terminal.isStructural], isChain_cons_of_not rfl
        (isChain_cons_of_not rfl (isChain_cons_of_not rfl ?_))⟩
      exact ih (k, v) List.mem_cons_self _ hhead' hrest

theorem isChain_terminals_append (v : Value) (ts : List Terminal)
    (hhead : ∀ t ∈ ts.head?, t.isStructural) (h : ts.IsChain Apart) :
    (terminals v ++ ts).IsChain Apart := by
  induction v using Json.induction generalizing ts with
  | null | true | false | string _ => exact isChain_cons_of_not rfl h
  | number n => exact List.isChain_cons.2 ⟨fun t ht _ => hhead t ht, h⟩
  | array elems ih =>
    cases elems with
    | nil => exact isChain_cons_of_not rfl (isChain_cons_of_not rfl h)
    | cons v elems =>
      obtain ⟨hhead', hrest⟩ := @isChain_elems (.endArray :: ts) _
        (fun w hw => ih w (List.mem_cons_of_mem v hw)) (by simp [Terminal.isStructural])
        (isChain_cons_of_not rfl h)
      simp only [terminals, List.cons_append, List.append_assoc, List.nil_append]
      exact isChain_cons_of_not rfl (ih v List.mem_cons_self _ hhead' hrest)
  | object members ih =>
    cases members with
    | nil => exact isChain_cons_of_not rfl (isChain_cons_of_not rfl h)
    | cons m members =>
      obtain ⟨hhead', hrest⟩ := @isChain_members (.endObject :: ts) _
        (fun w hw => ih w (List.mem_cons_of_mem m hw)) (by simp [Terminal.isStructural])
        (isChain_cons_of_not rfl h)
      cases m with
      | mk k v =>
        simp only [terminals, List.cons_append, List.append_assoc, List.nil_append]
        exact isChain_cons_of_not rfl (isChain_cons_of_not rfl (isChain_cons_of_not rfl
          (ih (k, v) List.mem_cons_self _ hhead' hrest)))

theorem isChain_terminals (v : Value) : (terminals v).IsChain Apart := by
  have h := isChain_terminals_append v [] (by simp) .nil
  rwa [List.append_nil] at h

end chain

def Starts (c : UInt8) : Value → Prop
  | .null => c = 110
  | .true => c = 116
  | .false => c = 102
  | .string _ => c = 34
  | .number _ => c = 45 ∨ c ∈ digitChars
  | .array _ => c = 91
  | .object _ => c = 123

namespace Starts
variable {v : Value}

attribute [local simp] Starts digitChars

theorem null (h : Starts 110 v) : v = .null := by
  cases v <;> simp at h ⊢

theorem true (h : Starts 116 v) : v = .true := by
  cases v <;> simp at h ⊢

theorem false (h : Starts 102 v) : v = .false := by
  cases v <;> simp at h ⊢

theorem string (h : Starts 34 v) : ∃ s, v = .string s := by
  cases v <;> simp at h ⊢

theorem array (h : Starts 91 v) : ∃ elems, v = .array elems := by
  cases v <;> simp at h ⊢

theorem object (h : Starts 123 v) : ∃ members, v = .object members := by
  cases v <;> simp at h ⊢

theorem number {c : UInt8} (h : Starts c v) (hc : c = 45 ∨ c ∈ digitChars) :
    ∃ n, v = .number n := by
  rcases hc with rfl | hc
  · cases v <;> simp at h ⊢
  · simp only [digitChars, List.mem_cons, List.not_mem_nil, or_false] at hc
    rcases hc with rfl | rfl | rfl | rfl | rfl | rfl | rfl | rfl | rfl | rfl <;>
      cases v <;> simp at h ⊢

/-- A value does not begin with a blank. -/
theorem ne_blank {c : UInt8} (h : Starts c v) (b : Blank) : b.char ≠ c := by
  rintro rfl
  cases b <;> cases v <;> simp [Blank.char] at h

/-- A value does not begin with a closing bracket. -/
theorem ne_end {c : UInt8} (h : Starts c v) : c ≠ 93 ∧ c ≠ 125 := by
  constructor <;> rintro rfl <;> cases v <;> simp at h

end Starts

theorem terminals_cons (v : Value) :
    ∃ t ts c x, terminals v = t :: ts ∧ t.text = c :: x ∧ Starts c v := by
  cases v with
  | null => exact ⟨.null, [], _, _, rfl, rfl, rfl⟩
  | true => exact ⟨.true, [], _, _, rfl, rfl, rfl⟩
  | false => exact ⟨.false, [], _, _, rfl, rfl, rfl⟩
  | string s => exact ⟨.string s, [], _, _, by rw [terminals], rfl, rfl⟩
  | number n =>
    obtain ⟨c, x, htext, hc⟩ := n.text_cons
    exact ⟨.number n, [], c, x, by rw [terminals], htext, hc⟩
  | array elems =>
    cases elems with
    | nil => exact ⟨.beginArray, _, _, _, rfl, rfl, rfl⟩
    | cons v elems => exact ⟨.beginArray, _, _, _, by rw [terminals], rfl, rfl⟩
  | object members =>
    cases members with
    | nil => exact ⟨.beginObject, _, _, _, rfl, rfl, rfl⟩
    | cons m members => exact ⟨.beginObject, _, _, _, by rw [terminals], rfl, rfl⟩

def blanks (w : List Blank) : List UInt8 := w.map Blank.char

/-- Terminals, each with the blanks in front of it. -/
def spell : List (List Blank × Terminal) → List UInt8
  | [] => []
  | (w, t) :: rest => blanks w ++ t.text ++ spell rest

/-- A text that the grammar derives, with its parse tree. -/
structure Text where
  value : Value
  spaced : List (List Blank × Terminal)
  trailing : List Blank
  spaced_eq : spaced.map Prod.snd = terminals value

def Text.bytes (t : Text) : List UInt8 := spell t.spaced ++ blanks t.trailing

/-- The text of a value without blanks. -/
def Text.plain (v : Value) : Text where
  value := v
  spaced := (terminals v).map fun t => ([], t)
  trailing := []
  spaced_eq := by simp

/-- `x` begins with a spelling of the terminals, and `y` is the rest of it. -/
def Spells (ts : List Terminal) (x y : List UInt8) : Prop :=
  ∃ spaced : List (List Blank × Terminal), spaced.map Prod.snd = ts ∧ x = spell spaced ++ y

@[simp] theorem spells_nil {x y : List UInt8} : Spells [] x y ↔ x = y := by
  simp [Spells, spell]

theorem spells_cons {t : Terminal} {ts : List Terminal} {x y : List UInt8} :
    Spells (t :: ts) x y ↔ ∃ w z, x = blanks w ++ (t.text ++ z) ∧ Spells ts z y := by
  constructor
  · rintro ⟨spaced, hspaced, rfl⟩
    obtain ⟨⟨w, _⟩, spaced, rfl, rfl, hts⟩ := List.map_eq_cons_iff.1 hspaced
    exact ⟨w, spell spaced ++ y, by simp [spell], spaced, hts, rfl⟩
  · rintro ⟨w, z, rfl, spaced, rfl, rfl⟩
    exact ⟨(w, t) :: spaced, rfl, by simp [spell]⟩

/-- In front of what is no blank there are no blanks. -/
theorem blanks_append_eq_cons {w : List Blank} {x z : List UInt8} {c : UInt8}
    (h : c :: x = blanks w ++ z) (hc : ∀ b : Blank, b.char ≠ c) : c :: x = z := by
  cases w with
  | nil => exact h
  | cons b w => exact absurd (List.cons_eq_cons.1 h).1.symm (hc b)

theorem spells_cons_of_ne {t : Terminal} {ts : List Terminal} {c : UInt8} {x y : List UInt8}
    (hc : ∀ b : Blank, b.char ≠ c) (h : Spells (t :: ts) (c :: x) y) :
    ∃ z, c :: x = t.text ++ z ∧ Spells ts z y := by
  obtain ⟨w, z, hx, hz⟩ := spells_cons.1 h
  exact ⟨z, blanks_append_eq_cons hx hc, hz⟩

theorem starts_of_spells {v : Value} {ts : List Terminal} {c : UInt8} {x y : List UInt8}
    (hc : ∀ b : Blank, b.char ≠ c) (h : Spells (terminals v ++ ts) (c :: x) y) : Starts c v := by
  obtain ⟨t, us, d, r, hts, htext, hd⟩ := terminals_cons v
  rw [hts, List.cons_append] at h
  obtain ⟨z, hz, -⟩ := spells_cons_of_ne hc h
  rw [htext, List.cons_append, List.cons.injEq] at hz
  rwa [hz.1]

theorem spell_append (a b : List (List Blank × Terminal)) : spell (a ++ b) = spell a ++ spell b := by
  induction a with
  | nil => rfl
  | cons p a ih => simp [spell, ih]

/-- More terminals, the text of which begins with the rest. -/
theorem spells_extend {ts us : List Terminal} {x r y z : List UInt8} (hx : Spells ts x r)
    (hy : Spells us (r ++ y) z) : Spells (ts ++ us) (x ++ y) z := by
  obtain ⟨a, rfl, rfl⟩ := hx
  obtain ⟨b, rfl, hb⟩ := hy
  exact ⟨a ++ b, List.map_append, by rw [spell_append, List.append_assoc, hb, List.append_assoc]⟩

theorem spells_append {ts us : List Terminal} {x y z : List UInt8} (hx : Spells ts x [])
    (hy : Spells us y z) : Spells (ts ++ us) (x ++ y) z :=
  spells_extend hx hy

theorem spells_cons_blank {t : Terminal} {ts : List Terminal} {x y : List UInt8} (b : Blank)
    (h : Spells (t :: ts) x y) : Spells (t :: ts) (b.char :: x) y := by
  obtain ⟨w, z, rfl, hz⟩ := spells_cons.1 h
  exact spells_cons.2 ⟨b :: w, z, rfl, hz⟩

/-- A blank in front of a value is skipped. -/
theorem spells_of_blank {v : Value} {ts : List Terminal} {x y : List UInt8} {b : Blank}
    (h : Spells (terminals v ++ ts) (b.char :: x) y) : Spells (terminals v ++ ts) x y := by
  obtain ⟨t, us, c, r, hts, htext, hc⟩ := terminals_cons v
  rw [hts, List.cons_append] at h ⊢
  obtain ⟨w, z, hx, hz⟩ := spells_cons.1 h
  cases w with
  | nil =>
    rw [htext] at hx
    exact absurd (List.cons_eq_cons.1 hx).1 (hc.ne_blank b)
  | cons b' w => exact spells_cons.2 ⟨w, z, (List.cons_eq_cons.1 hx).2, hz⟩

/-- Blanks and the structural characters. -/
def boundaryChars : List UInt8 := [32, 9, 10, 13, 44, 58, 91, 93, 123, 125]

theorem not_mem_numberChars {c : UInt8} (h : c ∈ boundaryChars) : c ∉ numberChars := by
  have hall : ∀ d ∈ boundaryChars, d ∉ numberChars := by decide +kernel
  exact hall c h

theorem boundary_of_spells {t : Terminal} {ts : List Terminal} {x y : List UInt8}
    (ht : t.isStructural = true) (h : Spells (t :: ts) x y) :
    ∃ c z, x = c :: z ∧ c ∈ boundaryChars := by
  obtain ⟨w, z, rfl, -⟩ := spells_cons.1 h
  cases w with
  | nil => cases t <;> first | exact ⟨_, _, rfl, by decide⟩ | cases ht
  | cons b w => exact ⟨b.char, _, rfl, by cases b <;> decide⟩

/-- A number ends in front of the first character that no number has. -/
theorem spells_number {n : Number} {t : Terminal} {ts : List Terminal} {c : UInt8}
    {a x y : List UInt8} (ht : t.isStructural = true) (ha : ∀ d ∈ c :: a, d ∈ numberChars)
    (hx : ∀ d ∈ x.head?, d ∉ numberChars) (h : Spells (.number n :: t :: ts) (c :: a ++ x) y) :
    Spells (t :: ts) x y := by
  have hc : ∀ b : Blank, b.char ≠ c := by
    rintro b rfl
    exact not_mem_numberChars (by cases b <;> decide) (ha _ List.mem_cons_self)
  obtain ⟨z, hz, hrest⟩ := spells_cons_of_ne hc h
  obtain ⟨d, z', rfl, hd⟩ := boundary_of_spells ht hrest
  -- Both texts go on behind the characters that a number can have.
  have hn : ∀ d ∈ n.text, d ∈ numberChars := fun _ => Number.mem_text
  have hsides : (c :: a) ++ x = n.text ++ d :: z' := hz
  have hdrop := congrArg (List.dropWhile fun e => decide (e ∈ numberChars)) hsides
  rw [List.dropWhile_append_of_pos (by simpa using ha),
    List.dropWhile_append_of_pos (by simpa using hn),
    List.dropWhile_cons_of_neg (by simpa using not_mem_numberChars hd)] at hdrop
  have hsame : x = d :: z' := by
    cases x with
    | nil => exact hdrop
    | cons e x =>
      have he : e ∉ numberChars := hx e (by simp)
      rwa [List.dropWhile_cons_of_neg (by simpa using he)] at hdrop
  rwa [hsame]

/-- Terminals without blanks are a spelling. -/
theorem spells_flatMap (ts : List Terminal) (y : List UInt8) :
    Spells ts (ts.flatMap Terminal.text ++ y) y := by
  induction ts with
  | nil => simp
  | cons t ts ih => exact spells_cons.2 ⟨[], ts.flatMap Terminal.text ++ y, by simp [blanks], ih⟩

theorem Text.spells (t : Text) : Spells (terminals t.value) t.bytes (blanks t.trailing) :=
  ⟨t.spaced, t.spaced_eq, rfl⟩

theorem exists_text {v : Value} {x : List UInt8} {w : List Blank}
    (h : Spells (terminals v) x (blanks w)) : ∃ t : Text, t.value = v ∧ t.bytes = x := by
  obtain ⟨spaced, hspaced, rfl⟩ := h
  exact ⟨⟨v, spaced, w, hspaced⟩, rfl, rfl⟩

end Rfc8259
