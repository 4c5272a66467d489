import Stx.Json.JSONOutputStream.Counters
import Stx.Json.JSONOutputStream.Layout

/-! Texts between commas and brackets, as the grammar derives them: what a derivation of the whole
says of the parts, and how the parts make a whole. -/
namespace Stx.Json
open Rfc8259
open JSONOutputStream (char_ne spells_char spells_word spells_quote exists_str)

/-- A separator or a bracket is next. -/
def Closed (ts : List Terminal) : Prop := ∃ t us, ts = t :: us ∧ t.isStructural = true

/-- The text goes on with a comma or a closing bracket. -/
def Stops (x : Bytes) : Prop := ∃ c y, x = c :: y ∧ c ∈ [44, 93, 125]

/-- Where a value is derived from a text that begins with `w`, in front of a separator, the value
ends where `w` does and has the property `P`. -/
structure Derives (w : Bytes) (P : Value → Prop) : Prop where
  starts : ∃ c x, w = c :: x ∧ c ∉ [32, 9, 10, 13] ∧ c ≠ 93
  derived : ∀ u ts x y, Closed ts → Stops x → Spells (terminals u ++ ts) (w ++ x) y →
    P u ∧ Spells ts x y

/-- The same for a member, in front of others. -/
structure DerivesMember (w : Bytes) (P : Str → Prop) : Prop where
  starts : ∃ x, w = 34 :: x
  derived : ∀ k v us ts x y, Stops x →
    Spells (.string k :: .nameSeparator :: (terminals v ++ (terminalsMembers us ++ .endObject :: ts)))
      (w ++ x) y → P k ∧ Spells (terminalsMembers us ++ .endObject :: ts) x y

theorem closed_elems (us : List Value) (ts : List Terminal) :
    Closed (terminalsElems us ++ .endArray :: ts) := by
  cases us with
  | nil => exact ⟨_, _, rfl, rfl⟩
  | cons u us => exact ⟨.valueSeparator, _, by rw [terminalsElems]; rfl, rfl⟩

theorem closed_members (us : List (Str × Value)) (ts : List Terminal) :
    Closed (terminalsMembers us ++ .endObject :: ts) := by
  cases us with
  | nil => exact ⟨_, _, rfl, rfl⟩
  | cons m us =>
    cases m with
    | mk k v => exact ⟨.valueSeparator, _, by rw [terminalsMembers]; rfl, rfl⟩

theorem stops_commas {x : Bytes} (hx : Stops x) (n : Nat) (ws : List Bytes) :
    Stops (commas (n+1) ws ++ x) := by
  cases ws with
  | nil => exact hx
  | cons w ws => exact ⟨44, _, by rw [commas_behind]; rfl, by decide⟩

theorem Stops.not_number {x : Bytes} (h : Stops x) : ∀ d ∈ x.head?, d ∉ numberChars := by
  obtain ⟨c, y, rfl, hc⟩ := h
  have hall : ∀ d ∈ ([44, 93, 125] : Bytes), d ∈ boundaryChars := by decide +kernel
  rintro d hd
  cases hd
  exact not_mem_numberChars (hall c hc)

/-- A structural character in the text is the terminal that is next. -/
theorem text_eq_of_spells {t : Terminal} {ts : List Terminal} {c d : UInt8} {x y : Bytes}
    (ht : t.text = [d]) (hc : c ∉ [32, 9, 10, 13]) (h : Spells (t :: ts) (c :: x) y) : c = d := by
  obtain ⟨z, hz, -⟩ := spells_cons_of_ne (char_ne hc) h
  rw [ht] at hz
  exact (List.cons_eq_cons.1 hz).1

section scalars

theorem derives_true : Derives (lit "true") fun _ => True := by
  refine ⟨⟨116, _, rfl, by decide, by decide⟩, fun u ts x y _ _ h => ?_⟩
  obtain rfl := (starts_of_spells (char_ne (by decide)) h).true
  exact ⟨trivial, spells_word rfl (by decide) h⟩

theorem derives_false : Derives (lit "false") fun _ => True := by
  refine ⟨⟨102, _, rfl, by decide, by decide⟩, fun u ts x y _ _ h => ?_⟩
  obtain rfl := (starts_of_spells (char_ne (by decide)) h).false
  exact ⟨trivial, spells_word rfl (by decide) h⟩

theorem derives_null : Derives (lit "null") fun _ => True := by
  refine ⟨⟨110, _, rfl, by decide, by decide⟩, fun u ts x y _ _ h => ?_⟩
  obtain rfl := (starts_of_spells (char_ne (by decide)) h).null
  exact ⟨trivial, spells_word rfl (by decide) h⟩

theorem derives_quoted (s : Bytes) : Derives (quoted s) fun _ => True := by
  refine ⟨⟨34, _, rfl, by decide, by decide⟩, fun u ts x y _ _ h => ?_⟩
  obtain ⟨t, rfl⟩ := (starts_of_spells (char_ne (by decide)) h).string
  exact ⟨trivial, (spells_quote h).2⟩

theorem starts_number {c : UInt8} {x : Bytes} (h : c = 45 ∨ c ∈ digitChars) :
    ∃ d y, c :: x = d :: y ∧ d ∉ [32, 9, 10, 13] ∧ d ≠ 93 := by
  have hall : ∀ d ∈ 45 :: digitChars, d ∉ ([32, 9, 10, 13] : Bytes) ∧ d ≠ 93 := by decide +kernel
  exact ⟨c, x, rfl, hall c (List.mem_cons.2 h)⟩

/-- A number ends where its characters do. -/
theorem spells_numberChars {c : UInt8} {a x y : Bytes} {u : Value} {ts : List Terminal}
    (hc : c = 45 ∨ c ∈ digitChars) (ha : ∀ d ∈ c :: a, d ∈ numberChars) (hts : Closed ts)
    (hx : ∀ d ∈ x.head?, d ∉ numberChars) (h : Spells (terminals u ++ ts) (c :: a ++ x) y) :
    Spells ts x y := by
  have hblank : ∀ b : Blank, b.char ≠ c := by
    rintro b rfl
    exact not_mem_numberChars (by cases b <;> decide) (ha _ List.mem_cons_self)
  obtain ⟨n, rfl⟩ := (starts_of_spells hblank h).number hc
  obtain ⟨t, us, rfl, ht⟩ := hts
  exact spells_number ht ha hx h

theorem derives_number (n : Number) : Derives n.text fun _ => True := by
  obtain ⟨c, a, htext, hc⟩ := n.text_cons
  have hchars : ∀ d ∈ c :: a, d ∈ numberChars := by
    rw [← htext]
    exact fun _ => Number.mem_text
  rw [htext]
  exact ⟨starts_number hc, fun u ts x y hts hx h =>
    ⟨trivial, spells_numberChars hc hchars hts hx.not_number h⟩⟩

/-- No value has a NUL behind the characters of a number. -/
theorem derives_cutNumber {c : UInt8} {a : Bytes} (hc : c = 45 ∨ c ∈ digitChars)
    (ha : ∀ d ∈ c :: a, d ∈ numberChars) : Derives (c :: (a ++ [0])) fun _ => False := by
  refine ⟨starts_number hc, fun u ts x y hts hx h => ?_⟩
  have hnul : ∀ d ∈ (0 :: x).head?, d ∉ numberChars := by
    intro d hd
    cases hd
    decide
  have hcut : c :: (a ++ [0]) ++ x = c :: a ++ 0 :: x := by simp
  rw [hcut] at h
  have hrest := spells_numberChars hc ha hts hnul h
  obtain ⟨t, us, rfl, ht⟩ := hts
  obtain ⟨d, z, hz, hd⟩ := boundary_of_spells ht hrest
  cases hz
  exact absurd hd (by decide)

end scalars

theorem Derives.imp {w : Bytes} {P Q : Value → Prop} (h : Derives w P) (hPQ : ∀ u, P u → Q u) :
    Derives w Q :=
  ⟨h.starts, fun u ts x y hts hx hu =>
    ⟨hPQ u (h.derived u ts x y hts hx hu).1, (h.derived u ts x y hts hx hu).2⟩⟩

theorem DerivesMember.imp {w : Bytes} {P Q : Str → Prop} (h : DerivesMember w P)
    (hPQ : ∀ k, P k → Q k) : DerivesMember w Q :=
  ⟨h.starts, fun k v us ts x y hx hs =>
    ⟨hPQ k (h.derived k v us ts x y hx hs).1, (h.derived k v us ts x y hx hs).2⟩⟩

section lists
variable {α : Type} {as : List α} {ws : List Bytes} {ts : List Terminal} {x y : Bytes}

/-- The elements behind the first one. -/
theorem derived_elems {P : α → Prop} (h : List.Forall₂ (fun a w => Derives w fun _ => P a) as ws)
    {us : List Value} {n : Nat}
    (hs : Spells (terminalsElems us ++ .endArray :: ts) (commas (n+1) ws ++ 93 :: x) y) :
    (∀ a ∈ as, P a) ∧ Spells ts x y := by
  induction h generalizing us n with
  | nil =>
    cases us with
    | nil => exact ⟨List.forall_mem_nil _, spells_char rfl (by decide) hs⟩
    | cons u us =>
      rw [terminalsElems] at hs
      exact absurd (text_eq_of_spells rfl (by decide) hs) (by decide)
  | @cons a w as ws hw hws ih =>
    rw [commas_behind, List.cons_append, List.append_assoc] at hs
    cases us with
    | nil => exact absurd (text_eq_of_spells rfl (by decide) hs) (by decide)
    | cons u us =>
      rw [terminalsElems, List.cons_append, List.append_assoc] at hs
      have hvalue := spells_char rfl (by decide) hs
      obtain ⟨ha, hrest⟩ := hw.derived u _ _ y (closed_elems us ts)
        (stops_commas ⟨93, x, rfl, by decide⟩ (n+1) ws) hvalue
      obtain ⟨has, hend⟩ := ih hrest
      exact ⟨List.forall_mem_cons.2 ⟨ha, has⟩, hend⟩

theorem derives_array {P : α → Prop} (hne : as ≠ [])
    (h : List.Forall₂ (fun a w => Derives w fun _ => P a) as ws) :
    Derives (91 :: (commas 0 ws ++ [93])) fun _ => ∀ a ∈ as, P a := by
  refine ⟨⟨91, _, rfl, by decide, by decide⟩, fun u ts x y _ _ hs => ?_⟩
  cases h with
  | nil => exact absurd rfl hne
  | @cons a w as ws hw hws =>
    obtain ⟨us, rfl⟩ := (starts_of_spells (char_ne (by decide)) hs).array
    rw [List.cons_append, commas_first, List.append_assoc, List.append_assoc] at hs
    cases us with
    | nil =>
      have hopened := spells_char rfl (by decide) hs
      obtain ⟨c, v, rfl, hblank, hc⟩ := hw.starts
      exact absurd (text_eq_of_spells rfl hblank hopened) hc
    | cons u us =>
      rw [terminals, List.cons_append, List.append_assoc, List.append_assoc] at hs
      have hopened := spells_char rfl (by decide) hs
      obtain ⟨ha, hrest⟩ := hw.derived u _ _ y (closed_elems us ts)
        (stops_commas ⟨93, x, rfl, by decide⟩ 0 ws) hopened
      obtain ⟨has, hend⟩ := derived_elems hws hrest
      exact ⟨List.forall_mem_cons.2 ⟨ha, has⟩, hend⟩

/-- The members behind the first one. -/
theorem derived_members {P : α → Str → Prop}
    (h : List.Forall₂ (fun a w => DerivesMember w (P a)) as ws) {us : List (Str × Value)} {n : Nat}
    (hs : Spells (terminalsMembers us ++ .endObject :: ts) (commas (n+1) ws ++ 125 :: x) y) :
    List.Forall₂ (fun a m => P a m.1) as us ∧ Spells ts x y := by
  induction h generalizing us n with
  | nil =>
    cases us with
    | nil => exact ⟨.nil, spells_char rfl (by decide) hs⟩
    | cons m us =>
      cases m with
      | mk k v =>
        rw [terminalsMembers] at hs
        exact absurd (text_eq_of_spells rfl (by decide) hs) (by decide)
  | @cons a w as ws hw hws ih =>
    rw [commas_behind, List.cons_append, List.append_assoc] at hs
    cases us with
    | nil => exact absurd (text_eq_of_spells rfl (by decide) hs) (by decide)
    | cons m us =>
      cases m with
      | mk k v =>
        simp only [terminalsMembers, List.cons_append, List.append_assoc] at hs
        have hmember := spells_char rfl (by decide) hs
        obtain ⟨ha, hrest⟩ := hw.derived k v us ts _ y
          (stops_commas ⟨125, x, rfl, by decide⟩ (n+1) ws) hmember
        obtain ⟨has, hend⟩ := ih hrest
        exact ⟨.cons ha has, hend⟩

theorem derives_object {P : α → Str → Prop}
    (h : List.Forall₂ (fun a w => DerivesMember w (P a)) as ws) :
    Derives (123 :: (commas 0 ws ++ [125])) fun u =>
      ∃ members, u = .object members ∧ List.Forall₂ (fun a m => P a m.1) as members := by
  refine ⟨⟨123, _, rfl, by decide, by decide⟩, fun u ts x y _ _ hs => ?_⟩
  obtain ⟨us, rfl⟩ := (starts_of_spells (char_ne (by decide)) hs).object
  rw [List.cons_append, List.append_assoc] at hs
  cases us with
  | nil =>
    have hopened := spells_char rfl (by decide) hs
    cases h with
    | nil => exact ⟨⟨[], rfl, .nil⟩, spells_char rfl (by decide) hopened⟩
    | @cons a w as ws hw hws =>
      obtain ⟨v, rfl⟩ := hw.starts
      rw [commas_first] at hopened
      exact absurd (text_eq_of_spells rfl (by decide) hopened) (by decide)
  | cons m us =>
    cases m with
    | mk k v =>
      simp only [terminals, List.cons_append, List.append_assoc] at hs
      have hopened := spells_char rfl (by decide) hs
      cases h with
      | nil =>
        obtain ⟨z, hz, -⟩ := spells_cons_of_ne (char_ne (by decide)) hopened
        cases hz
      | @cons a w as ws hw hws =>
        rw [commas_first, List.append_assoc] at hopened
        obtain ⟨ha, hrest⟩ := hw.derived k v us ts _ y
          (stops_commas ⟨125, x, rfl, by decide⟩ 0 ws) hopened
        obtain ⟨has, hend⟩ := derived_members hws hrest
        exact ⟨⟨_, rfl, .cons ha has⟩, hend⟩

theorem entry_append (key x : Bytes) : entry key ++ x = quoted key ++ 58 :: 32 :: x := by
  have hcolon : lit "\": " = [34, 58, 32] := rfl
  simp [entry, quoted, hcolon]

/-- A key is next, and no value is there in its place: behind the value there would be a colon. -/
theorem not_key {P : Value → Prop} {w : Bytes} (h : Derives w P) {k : Str} (hx : Stops x)
    (hs : Spells (.string k :: .nameSeparator :: ts) (w ++ x) y) : False := by
  have hvalue : Spells (terminals (.string k) ++ .nameSeparator :: ts) (w ++ x) y := by
    rw [terminals]
    exact hs
  have hcolon := (h.derived _ _ x y ⟨_, _, rfl, rfl⟩ hx hvalue).2
  obtain ⟨c, z, rfl, hc⟩ := hx
  have hall : ∀ d ∈ ([44, 93, 125] : Bytes), d ∉ ([32, 9, 10, 13] : Bytes) ∧ d ≠ 58 := by
    decide +kernel
  exact (hall c hc).2 (text_eq_of_spells rfl (hall c hc).1 hcolon)

/-- A member has one value, so of several with commas between them there is no derivation. -/
theorem derivesMember_entry {key : Bytes} {P : α → Prop} (hkey : key.length ≤ 2^31) (hne : as ≠ [])
    (h : List.Forall₂ (fun a w => Derives w fun _ => P a) as ws) :
    DerivesMember (entry key ++ commas 0 ws) fun k =>
      k.decode = key ∧ as.length ≤ 1 ∧ ∀ a ∈ as, P a := by
  refine ⟨⟨_, rfl⟩, fun k v us ts x y hx hs => ?_⟩
  cases h with
  | nil => exact absurd rfl hne
  | @cons a w as ws hw hws =>
    rw [List.append_assoc, entry_append] at hs
    obtain ⟨hdecode, hcolon⟩ := spells_quote hs
    have hvalue := @spells_of_blank _ _ _ _ .space (spells_char rfl (by decide) hcolon)
    rw [commas_first, List.append_assoc] at hvalue
    obtain ⟨ha, hrest⟩ := hw.derived v _ _ y (closed_members us ts) (stops_commas hx 0 ws) hvalue
    cases hws with
    | nil =>
      refine ⟨⟨?_, Nat.le_refl 1, List.forall_mem_singleton.2 ha⟩, hrest⟩
      rw [hdecode, List.take_of_length_le hkey]
    | @cons b w' as ws hw' hws =>
      rw [commas_behind, List.cons_append, List.append_assoc] at hrest
      cases us with
      | nil => exact absurd (text_eq_of_spells rfl (by decide) hrest) (by decide)
      | cons m us =>
        cases m with
        | mk k' v' =>
          rw [terminalsMembers] at hrest
          have hnext := spells_char rfl (by decide) hrest
          exact (not_key hw' (stops_commas hx 1 ws) hnext).elim

end lists

section texts
variable {ws : List Bytes}

theorem spells_text (t : Terminal) : Spells [t] t.text [] := by
  have h := spells_flatMap [t] []
  simpa using h

theorem exists_quoted (s : Bytes) :
    ∃ t : Str, Spells [.string t] (quoted s) [] ∧ t.decode = s.take (2^31) := by
  obtain ⟨t, hbody, hdecode⟩ := exists_str (s.take (2^31))
  refine ⟨t, ?_, hdecode⟩
  have htext : (Terminal.string t).text = quoted s := by
    rw [Terminal.text, hbody]
    rfl
  rw [← htext]
  exact spells_text _

theorem spells_commas_elems {us : List Value}
    (h : List.Forall₂ (fun u w => Spells (terminals u) w []) us ws) (n : Nat) :
    Spells (terminalsElems us) (commas (n+1) ws) [] := by
  induction h generalizing n with
  | nil => exact spells_nil.2 rfl
  | cons hu hus ih =>
    rw [terminalsElems, commas, if_pos (Nat.succ_pos n)]
    exact spells_append (spells_text .valueSeparator) (spells_append hu (ih (n+1)))

theorem spells_array {us : List Value}
    (h : List.Forall₂ (fun u w => Spells (terminals u) w []) us ws) :
    Spells (terminals (.array us)) (91 :: (commas 0 ws ++ [93])) [] := by
  cases h with
  | nil => exact spells_append (spells_text .beginArray) (spells_text .endArray)
  | cons hu hus =>
    rw [terminals, commas, if_neg (by decide), List.nil_append]
    exact spells_append (spells_text .beginArray)
      (spells_append (spells_append hu (spells_commas_elems hus 0)) (spells_text .endArray))

theorem spells_commas_members {ms : List (Str × Value)}
    (h : List.Forall₂ (fun m w => Spells (.string m.1 :: .nameSeparator :: terminals m.2) w [])
      ms ws) (n : Nat) : Spells (terminalsMembers ms) (commas (n+1) ws) [] := by
  induction h generalizing n with
  | nil => exact spells_nil.2 rfl
  | @cons m w ms ws hm hms ih =>
    cases m with
    | mk k v =>
      rw [terminalsMembers, commas, if_pos (Nat.succ_pos n)]
      exact spells_append (spells_text .valueSeparator) (spells_append hm (ih (n+1)))

theorem spells_object {ms : List (Str × Value)}
    (h : List.Forall₂ (fun m w => Spells (.string m.1 :: .nameSeparator :: terminals m.2) w [])
      ms ws) : Spells (terminals (.object ms)) (123 :: (commas 0 ws ++ [125])) [] := by
  cases h with
  | nil => exact spells_append (spells_text .beginObject) (spells_text .endObject)
  | @cons m w ms ws hm hms =>
    cases m with
    | mk k v =>
      rw [terminals, commas, if_neg (by decide), List.nil_append]
      exact spells_append (spells_text .beginObject)
        (spells_append (spells_append hm (spells_commas_members hms 0)) (spells_text .endObject))

theorem exists_entry {key : Bytes} (hkey : key.length ≤ 2^31) {u : Value} {w : Bytes}
    (h : Spells (terminals u) w []) :
    ∃ k : Str, k.decode = key ∧
      Spells (.string k :: .nameSeparator :: terminals u) (entry key ++ w) [] := by
  obtain ⟨k, hquoted, hdecode⟩ := exists_quoted key
  refine ⟨k, hdecode.trans (List.take_of_length_le hkey), ?_⟩
  have hblank : Spells (terminals u) (32 :: w) [] := by
    obtain ⟨t, us, c, r, hts, -, -⟩ := terminals_cons u
    rw [hts] at h ⊢
    exact spells_cons_blank .space h
  rw [entry_append]
  exact spells_append hquoted (spells_append (spells_text .nameSeparator) hblank)

end texts

end Stx.Json
