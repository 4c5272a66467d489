import Stx.Libc
import Stx.StringUtil

/-! `StringUtil::format` and `formatv` against the substitution of all placeholders at once. -/
namespace Stx.StringUtil

/- The loop of `formatv`. Behind 2^31 values `i` is negative, as a size larger than their number. -/
def formatv (fmt : Bytes) (values : List Bytes) : Result Bytes :=
  (List.range (min values.length (2^31))).foldlM
    (fun str i => replaceAllInt str (lit "$" ++ toString i) (values.getD i [])) fmt

/-- The text of a placeholder. -/
def placeholder (i : Nat) : Bytes := 36 :: toString i

/-- A byte of the format, or one of its placeholders. -/
inductive Piece where
  | byte (b : UInt8)
  | value (i : Nat)
  deriving DecidableEq

/-- The placeholder that the text begins with, for `n` values. Of `$1` and `$10` it is `$10`, if
there is such a value. -/
def maximal (n : Nat) (text : Bytes) : Option Nat :=
  (List.range n).reverse.find? fun i => (placeholder i).isPrefixOf text

/-- The pieces of a format. `skip` counts the bytes of the last placeholder that are still to be
dropped. -/
def piecesLoop (n : Nat) : Nat → Bytes → List Piece
  | _, [] => []
  | skip+1, _ :: rest => piecesLoop n skip rest
  | 0, b :: rest =>
    match maximal n (b :: rest) with
    | some i => .value i :: piecesLoop n (toString i).length rest
    | none => .byte b :: piecesLoop n 0 rest

def pieces (n : Nat) (fmt : Bytes) : List Piece := piecesLoop n 0 fmt

section render
variable (values : List Bytes) (i : Nat)

/-- The text of a piece when the values in front of `i` have been inserted. -/
def Piece.text : Piece → Bytes
  | .byte b => [b]
  | .value k => if k < i then values.getD k [] else placeholder k

def render (ps : List Piece) : Bytes := ps.flatMap (Piece.text values i)

/-- Where the placeholder `i` stands in the text. -/
def places : List Piece → List Nat
  | [] => []
  | piece :: ps =>
    let rest := (places ps).map fun p => (piece.text values i).length+p
    if piece = .value i then 0 :: rest else rest

/-- The text has the placeholder `i` where the format has it, and nowhere else. -/
def OnlyPlaces (ps : List Piece) : Prop :=
  ∀ p < (render values i ps).length,
    (placeholder i).isPrefixOf ((render values i ps).drop p) = true → p ∈ places values i ps

instance (ps : List Piece) : Decidable (OnlyPlaces values i ps) :=
  inferInstanceAs (Decidable (∀ p < (render values i ps).length, _ → _))

end render

/-- Every placeholder of the format is replaced by its value, and nothing else. -/
def substitute (fmt : Bytes) (values : List Bytes) : Bytes :=
  (pieces values.length fmt).flatMap fun
    | .byte b => [b]
    | .value i => values.getD i []

/-- The format of these values is the simultaneous substitution. -/
def Substitutes (fmt : Bytes) (values : List Bytes) : Prop :=
  formatImplInt fmt 0 values = .ok (substitute fmt values) ∧
    formatv fmt values = .ok (substitute fmt values)

theorem placeholder_ne (i : Nat) : placeholder i ≠ [] := List.cons_ne_nil _ _

theorem maximal_eq_some {n i : Nat} {text : Bytes} (h : maximal n text = some i) :
    i < n ∧ placeholder i <+: text := by
  have hmem := List.mem_of_find?_eq_some h
  rw [List.mem_reverse, List.mem_range] at hmem
  have hprefix : (placeholder i).isPrefixOf text = true :=
    List.find?_some (p := fun i => (placeholder i).isPrefixOf text) h
  exact ⟨hmem, List.isPrefixOf_iff_prefix.1 hprefix⟩

theorem mem_piecesLoop_lt {n skip i : Nat} {text : Bytes}
    (h : .value i ∈ piecesLoop n skip text) : i < n := by
  induction text generalizing skip with
  | nil => cases skip <;> cases h
  | cons b text ih =>
    cases skip with
    | succ skip => exact ih h
    | zero =>
      rw [piecesLoop] at h
      cases hmax : maximal n (b :: text) with
      | none =>
        rw [hmax] at h
        exact ih ((List.mem_cons.1 h).resolve_left nofun)
      | some k =>
        rw [hmax] at h
        cases List.mem_cons.1 h with
        | inl h => cases h; exact (maximal_eq_some hmax).1
        | inr h => exact ih h

/- Some of the occurrences of a pattern against all of them. -/

theorem replaceAll_append_of_not {pattern replacement w rest : Bytes}
    (h : ∀ p < w.length, pattern.isPrefixOf ((w ++ rest).drop p) = false) :
    replaceAll (w ++ rest) pattern replacement = w ++ replaceAll rest pattern replacement := by
  induction w with
  | nil => rfl
  | cons b w ih =>
    have hfirst : pattern.isPrefixOf (b :: (w ++ rest)) = false := h 0 (Nat.succ_pos w.length)
    rw [List.cons_append, replaceAll_cons_of_not hfirst, ih fun p hp => ?_, List.cons_append]
    exact h (p+1) (Nat.succ_lt_succ hp)

theorem replaceAll_append_self {pattern replacement rest : Bytes} (hne : pattern ≠ []) :
    replaceAll (pattern ++ rest) pattern replacement =
      replacement ++ replaceAll rest pattern replacement := by
  obtain ⟨b, p, rfl⟩ := List.exists_cons_of_ne_nil hne
  have hmatch : (b :: p).isPrefixOf (b :: (p ++ rest)) = true :=
    List.isPrefixOf_iff_prefix.2 (List.prefix_append ..)
  rw [List.cons_append, replaceAll_cons_match hmatch hne, ← List.cons_append, List.drop_left]

section replaces
variable {c : UInt8} {tail replacement : Bytes}

/-- A text, places of the pattern in it, and the text in which it is replaced at these places. -/
inductive Replaces (pattern replacement : Bytes) : Bytes → List Nat → Bytes → Prop where
  | nil : Replaces pattern replacement [] [] []
  | keep {str str' : Bytes} {ps : List Nat} (b : UInt8)
      (h : Replaces pattern replacement str ps str') :
      Replaces pattern replacement (b :: str) (ps.map (1+·)) (b :: str')
  | put {str str' : Bytes} {ps : List Nat} (h : Replaces pattern replacement str ps str') :
      Replaces pattern replacement (pattern ++ str) (0 :: ps.map (pattern.length+·))
        (replacement ++ str')

variable {str str' : Bytes} {ps : List Nat}

theorem Replaces.keep_append {pattern : Bytes} (h : Replaces pattern replacement str ps str')
    (w : Bytes) :
    Replaces pattern replacement (w ++ str) (ps.map (w.length+·)) (w ++ str') := by
  induction w with
  | nil => simpa using h
  | cons b w ih =>
    have hplaces : ps.map ((b :: w).length+·) = (ps.map (w.length+·)).map (1+·) := by
      rw [List.map_map]
      refine List.map_congr_left fun p _ => ?_
      rw [List.length_cons, Function.comp_apply]
      omega
    rw [hplaces]
    exact ih.keep b

/-- What does not have the first byte of the pattern is kept. -/
theorem Replaces.of_append {w : Bytes} (hw : c ∉ w)
    (h : Replaces (c :: tail) replacement (w ++ str) ps str') :
    ∃ ps' rest, str' = w ++ rest ∧ Replaces (c :: tail) replacement str ps' rest := by
  induction w generalizing ps str' with
  | nil => exact ⟨ps, str', rfl, h⟩
  | cons b w ih =>
    generalize hs : b :: w ++ str = s at h
    cases h with
    | nil => cases hs
    | keep b' h =>
      cases hs
      obtain ⟨ps', rest, rfl, hrest⟩ := ih (fun hc => hw (List.mem_cons_of_mem b hc)) h
      exact ⟨ps', rest, rfl, hrest⟩
    | put h =>
      injection hs with hb
      exact absurd hb (fun hb => hw (hb ▸ List.mem_cons_self))

/-- Where the pattern has its first byte only once, replacing all of its occurrences changes the
length in the same direction, and by as much or more. -/
theorem Replaces.length_eq (hc : c ∉ tail) (h : Replaces (c :: tail) replacement str ps str') :
    ∃ k, (replaceAll str (c :: tail) replacement).length+k*(c :: tail).length =
      str'.length+k*replacement.length := by
  induction hn : str.length using Nat.strong_induction_on generalizing str ps str' with
  | _ n ih =>
    cases h with
    | nil => exact ⟨0, by rw [Nat.zero_mul, Nat.zero_mul]; rfl⟩
    | @keep str str' ps b h =>
      cases hmatch : (c :: tail).isPrefixOf (b :: str) with
      | false =>
        obtain ⟨k, hk⟩ := ih str.length (by rw [← hn]; exact Nat.lt_succ_self _) h rfl
        refine ⟨k, ?_⟩
        rw [replaceAll_cons_of_not hmatch]
        change (replaceAll str (c :: tail) replacement).length+1+_ = str'.length+1+_
        omega
      | true =>
        obtain ⟨rest, hrest⟩ := List.isPrefixOf_iff_prefix.1 hmatch
        rw [List.cons_append, List.cons.injEq] at hrest
        obtain ⟨rfl, rfl⟩ := hrest
        obtain ⟨ps', rest', rfl, hrest⟩ := h.of_append hc
        obtain ⟨k, hk⟩ := ih rest.length (by rw [← hn, List.length_cons, List.length_append]; omega) hrest
          rfl
        have hall : replaceAll (c :: (tail ++ rest)) (c :: tail) replacement =
          replacement ++ replaceAll rest (c :: tail) replacement :=
            replaceAll_append_self (List.cons_ne_nil c tail)
        have hkept : (c :: (tail ++ rest')).length = (c :: tail).length+rest'.length := by
          rw [← List.cons_append, List.length_append]
        refine ⟨k+1, ?_⟩
        rw [hall, hkept, List.length_append, Nat.succ_mul, Nat.succ_mul]
        omega
    | @put str str' ps h =>
      obtain ⟨k, hk⟩ := ih str.length (by rw [← hn, List.length_append, List.length_cons]; omega) h rfl
      refine ⟨k, ?_⟩
      rw [replaceAll_append_self (List.cons_ne_nil c tail), List.length_append, List.length_append]
      omega

/-- A pattern that is replaced by something else is replaced everywhere by no other text than the
one in which all of its occurrences are. -/
theorem Replaces.mem_of_eq (hc : c ∉ tail) (h : Replaces (c :: tail) replacement str ps str')
    (heq : replaceAll str (c :: tail) replacement = str') (hne : replacement ≠ c :: tail) :
    ∀ p < str.length, (c :: tail).isPrefixOf (str.drop p) = true → p ∈ ps := by
  induction h with
  | nil => exact fun p hp => absurd hp (Nat.not_lt_zero p)
  | @keep str str' ps b h ih =>
    cases hmatch : (c :: tail).isPrefixOf (b :: str) with
    | false =>
      rw [replaceAll_cons_of_not hmatch, List.cons.injEq] at heq
      intro p hp hp'
      cases p with
      | zero =>
        rw [List.drop_zero, hmatch] at hp'
        cases hp'
      | succ p =>
        have hmem := ih heq.2 p (Nat.lt_of_succ_lt_succ hp) hp'
        exact List.mem_map.2 ⟨p, hmem, Nat.add_comm 1 p⟩
    | true =>
      -- the lengths do not fit, or else the replacement is the pattern
      exfalso
      obtain ⟨rest, hrest⟩ := List.isPrefixOf_iff_prefix.1 hmatch
      rw [List.cons_append, List.cons.injEq] at hrest
      obtain ⟨rfl, rfl⟩ := hrest
      obtain ⟨ps', rest', rfl, hrest⟩ := h.of_append hc
      obtain ⟨k, hk⟩ := hrest.length_eq hc
      have hall : replacement ++ replaceAll rest (c :: tail) replacement =
          (c :: tail) ++ rest' :=
        (replaceAll_append_self (List.cons_ne_nil c tail)).symm.trans heq
      have hlen := congrArg List.length hall
      rw [List.length_append, List.length_append] at hlen
      have hmul : (k+1)*replacement.length = (k+1)*(c :: tail).length := by
        rw [Nat.succ_mul, Nat.succ_mul]
        omega
      exact hne (List.append_inj_left hall (Nat.eq_of_mul_eq_mul_left (Nat.succ_pos k) hmul))
  | @put str str' ps h ih =>
    rw [replaceAll_append_self (List.cons_ne_nil c tail)] at heq
    intro p hp hp'
    cases p with
    | zero => exact List.mem_cons_self
    | succ p =>
      by_cases hlt : p < tail.length
      · have hdrop : ((c :: tail) ++ str).drop (p+1) = tail.drop p ++ str :=
          List.drop_append_of_le_length (Nat.succ_le_succ (Nat.le_of_lt hlt))
        rw [hdrop, List.drop_eq_getElem_cons hlt, List.cons_append, List.isPrefixOf_cons_cons,
          Bool.and_eq_true, beq_iff_eq] at hp'
        exact absurd (hp'.1 ▸ List.getElem_mem hlt) hc
      · have hdrop : ((c :: tail) ++ str).drop (p+1) = str.drop (p-tail.length) := by
          change (tail ++ str).drop p = _
          rw [List.drop_append, List.drop_eq_nil_of_le (Nat.not_lt.1 hlt), List.nil_append]
        rw [hdrop] at hp'
        rw [List.length_append, List.length_cons] at hp
        have hmem := ih (List.append_cancel_left heq) (p-tail.length) (by omega) hp'
        refine List.mem_cons_of_mem 0 (List.mem_map.2 ⟨_, hmem, ?_⟩)
        rw [List.length_cons]
        omega

end replaces

section render
variable {values : List Bytes} {i : Nat}

/-- Before any value has been inserted the pieces are the format. -/
theorem render_piecesLoop (n skip : Nat) (text : Bytes) :
    render values 0 (piecesLoop n skip text) = text.drop skip := by
  induction text generalizing skip with
  | nil => cases skip <;> rfl
  | cons b text ih =>
    cases skip with
    | succ skip => exact ih skip
    | zero =>
      rw [piecesLoop]
      cases hmax : maximal n (b :: text) with
      | none =>
        change b :: render values 0 (piecesLoop n 0 text) = _
        rw [ih]
        rfl
      | some k =>
        obtain ⟨rest, hrest⟩ := (maximal_eq_some hmax).2
        rw [placeholder, List.cons_append, List.cons.injEq] at hrest
        obtain ⟨rfl, rfl⟩ := hrest
        change placeholder k ++ render values 0 (piecesLoop n (toString k).length _) = _
        rw [ih, List.drop_left]
        rfl

/-- When all that have a placeholder have been inserted they are the substitution. -/
theorem render_of_lt {fmt : Bytes} (h : ∀ k, .value k ∈ pieces values.length fmt → k < i) :
    render values i (pieces values.length fmt) = substitute fmt values := by
  refine List.flatMap_congr fun piece hpiece => ?_
  cases piece with
  | byte b => rfl
  | value k => exact if_pos (h k hpiece)

theorem render_cons (piece : Piece) (ps : List Piece) :
    render values i (piece :: ps) = piece.text values i ++ render values i ps := rfl

theorem text_self : (Piece.value i).text values i = placeholder i := if_neg (Nat.lt_irrefl i)

theorem text_succ_self : (Piece.value i).text values (i+1) = values.getD i [] :=
  if_pos (Nat.lt_succ_self i)

/-- The next value is only for its own placeholder. -/
theorem text_succ {piece : Piece} (h : piece ≠ .value i) :
    piece.text values (i+1) = piece.text values i := by
  cases piece with
  | byte b => rfl
  | value k =>
    have hne : k ≠ i := fun hk => h (hk ▸ rfl)
    rw [Piece.text, Piece.text]
    by_cases hk : k < i
    · rw [if_pos hk, if_pos (by omega)]
    · rw [if_neg hk, if_neg (by omega)]

theorem OnlyPlaces.tail {piece : Piece} {ps : List Piece} (h : OnlyPlaces values i (piece :: ps)) :
    OnlyPlaces values i ps := by
  intro p hp hmatch
  have hplace := h ((piece.text values i).length+p)
    (by rw [render_cons, List.length_append]; omega)
    (by rwa [render_cons, ← List.drop_drop, List.drop_left])
  rw [places] at hplace
  have hmem : (piece.text values i).length+p ∈
      (places values i ps).map fun p => (piece.text values i).length+p := by
    by_cases hpiece : piece = .value i
    · rw [if_pos hpiece, List.mem_cons] at hplace
      refine hplace.resolve_left fun hzero => ?_
      rw [hpiece, text_self, placeholder, List.length_cons] at hzero
      omega
    · rwa [if_neg hpiece] at hplace
  obtain ⟨q, hq, heq⟩ := List.mem_map.1 hmem
  obtain rfl : q = p := by omega
  exact hq

/-- No match begins in a piece of another kind. -/
theorem OnlyPlaces.not_match {piece : Piece} {ps : List Piece}
    (h : OnlyPlaces values i (piece :: ps)) (hpiece : piece ≠ .value i) {p : Nat}
    (hp : p < (piece.text values i).length) :
    (placeholder i).isPrefixOf ((piece.text values i ++ render values i ps).drop p) = false := by
  rw [← Bool.not_eq_true]
  intro hmatch
  have hplace := h p (by rw [render_cons, List.length_append]; omega) hmatch
  rw [places, if_neg hpiece] at hplace
  obtain ⟨q, -, heq⟩ := List.mem_map.1 hplace
  omega

/-- One step inserts one value. -/
theorem replaceAll_render {ps : List Piece} (h : OnlyPlaces values i ps) :
    replaceAll (render values i ps) (placeholder i) (values.getD i []) =
      render values (i+1) ps := by
  induction ps with
  | nil => rfl
  | cons piece ps ih =>
    rw [render_cons, render_cons, ← ih h.tail]
    by_cases hpiece : piece = .value i
    · rw [hpiece, text_self, text_succ_self]
      exact replaceAll_append_self (placeholder_ne i)
    · rw [text_succ hpiece]
      exact replaceAll_append_of_not fun p hp => h.not_match hpiece hp

/-- A value that is its own placeholder is inserted everywhere. -/
theorem replaceAll_render_self {ps : List Piece} (h : values.getD i [] = placeholder i) :
    replaceAll (render values i ps) (placeholder i) (values.getD i []) =
      render values (i+1) ps := by
  rw [h, replaceAll_self _ (placeholder_ne i)]
  refine List.flatMap_congr fun piece _ => ?_
  by_cases hpiece : piece = .value i
  · rw [hpiece, text_self, text_succ_self, h]
  · exact (text_succ hpiece).symm

theorem dollar_not_mem (i : Nat) : 36 ∉ toString i := by
  intro h
  have hdigit := Libc.isdigit_of_mem_toString h
  cases hdigit

/-- The pieces with the next value, as replacements of its placeholder. -/
theorem replaces_render (ps : List Piece) :
    Replaces (placeholder i) (values.getD i []) (render values i ps) (places values i ps)
      (render values (i+1) ps) := by
  induction ps with
  | nil => exact .nil
  | cons piece ps ih =>
    rw [render_cons, render_cons, places]
    by_cases hpiece : piece = .value i
    · rw [if_pos hpiece, hpiece, text_self, text_succ_self]
      exact ih.put
    · rw [if_neg hpiece, text_succ hpiece]
      exact ih.keep_append _

/-- One step inserts one value exactly when it is not inserted elsewhere, or is the placeholder. -/
theorem replaceAll_render_iff {ps : List Piece} :
    replaceAll (render values i ps) (placeholder i) (values.getD i []) = render values (i+1) ps ↔
      OnlyPlaces values i ps ∨ values.getD i [] = placeholder i := by
  constructor
  · intro h
    by_cases hself : values.getD i [] = placeholder i
    · exact .inr hself
    · exact .inl ((replaces_render ps).mem_of_eq (dollar_not_mem i) h hself)
  · rintro (hplaces | hself)
    · exact replaceAll_render hplaces
    · exact replaceAll_render_self hself

/-- What every step needs: the placeholder is only where the format has it, or the value is the
placeholder; and its number is an `int`, and the values end where an `int` gets. -/
structure StepFits (values : List Bytes) (i : Nat) (ps : List Piece) : Prop where
  only : OnlyPlaces values i ps ∨ values.getD i [] = placeholder i
  index : .value i ∈ ps → i < 2^31
  ends : ∀ e ∈ insertedEnds (placeholder i) (values.getD i []) 0 0 (render values i ps), e < 2^31

/-- The last value is inserted last. -/
theorem formatImplInt_concat (str : Bytes) (i : Nat) (rest : List Bytes) (value : Bytes) :
    formatImplInt str i (rest ++ [value]) =
      (formatImplInt str i rest >>= fun str =>
        replaceAllInt str (placeholder (i+rest.length)) value) := by
  induction rest generalizing str i with
  | nil =>
    change (replaceAllInt str (placeholder i) value >>= Result.ok) =
      replaceAllInt str (placeholder i) value
    cases replaceAllInt str (placeholder i) value <;> rfl
  | cons first rest ih =>
    rw [List.cons_append, formatImplInt, formatImplInt]
    cases replaceAllInt str (lit "$" ++ toString i) first with
    | ok str => rw [Result.ok_bind, Result.ok_bind, ih, List.length_cons, Nat.succ_add_eq_add_succ]
    | raise e => rfl
    | diverge => rfl

/-- Where the values end in front of what an `int` has, the text after each of them is the format
with the values so far exactly when no step inserts one elsewhere. -/
theorem formatImplInt_take_iff {fmt : Bytes}
    (hends : ∀ i < values.length, ∀ e ∈ insertedEnds (placeholder i) (values.getD i []) 0 0
      (render values i (pieces values.length fmt)), e < 2^31) :
    (∀ i ≤ values.length, formatImplInt fmt 0 (values.take i) =
      .ok (render values i (pieces values.length fmt))) ↔
      ∀ i < values.length, OnlyPlaces values i (pieces values.length fmt) ∨
        values.getD i [] = placeholder i := by
  have hnext : ∀ i < values.length, formatImplInt fmt 0 (values.take i) =
      .ok (render values i (pieces values.length fmt)) →
        formatImplInt fmt 0 (values.take (i+1)) =
          .ok (replaceAll (render values i (pieces values.length fmt)) (placeholder i)
            (values.getD i [])) := by
    intro i hi hdone
    have hvalue : values[i] = values.getD i [] := by
      simp [List.getD, hi]
    rw [← List.take_append_getElem hi, formatImplInt_concat, hdone, Result.ok_bind,
      List.length_take_of_le (Nat.le_of_lt hi), Nat.zero_add, hvalue,
      replaceAllInt_of_ends (placeholder_ne i) (hends i hi)]
  constructor
  · intro h i hi
    refine replaceAll_render_iff.1 (Result.ok.inj ?_)
    rw [← hnext i hi (h i (Nat.le_of_lt hi))]
    exact h (i+1) hi
  · intro h i hi
    induction i with
    | zero =>
      rw [pieces, render_piecesLoop]
      rfl
    | succ i ih => rw [hnext i hi (ih (Nat.le_of_lt hi)), replaceAll_render_iff.2 (h i hi)]

/-- Both loops make the same replacements, as far as they go. -/
theorem formatv_eq (fmt : Bytes) (values : List Bytes) :
    formatv fmt values = formatImplInt fmt 0 (values.take (2^31)) := by
  suffices h : ∀ (done rest : List Bytes) (str : Bytes), done ++ rest <+: values →
      (List.range' done.length rest.length).foldlM
        (fun str i => replaceAllInt str (lit "$" ++ toString i) (values.getD i [])) str =
          formatImplInt str done.length rest by
    have hall := h [] (values.take (2^31)) fmt (List.take_prefix _ _)
    rwa [List.length_nil, ← List.range_eq_range', List.length_take, Nat.min_comm] at hall
  intro done rest
  induction rest generalizing done with
  | nil => exact fun _ _ => rfl
  | cons value rest ih =>
    intro str hvalues
    have hvalue : values.getD done.length [] = value := by
      obtain ⟨more, rfl⟩ := hvalues
      simp
    rw [List.length_cons, List.range'_succ, List.foldlM_cons, hvalue, formatImplInt]
    refine congrArg _ (funext fun str => ?_)
    have hnext := ih (done ++ [value]) str (by simpa using hvalues)
    rwa [List.length_append, List.length_singleton] at hnext

end render

/-- Where every step inserts its value for the placeholders of the format alone, the format is the
simultaneous substitution. -/
theorem substitutes_of_stepFits (fmt : Bytes) (values : List Bytes)
    (h : ∀ i < values.length, StepFits values i (pieces values.length fmt)) :
    Substitutes fmt values := by
  have hsteps := (formatImplInt_take_iff fun i hi => (h i hi).ends).2 fun i hi => (h i hi).only
  have hvalue : ∀ k, .value k ∈ pieces values.length fmt → k < values.length := fun k hk =>
    mem_piecesLoop_lt hk
  constructor
  · have hformat := hsteps values.length (Nat.le_refl _)
    rwa [List.take_length, render_of_lt hvalue] at hformat
  · have hformat := hsteps (min (2^31) values.length) (Nat.min_le_right _ _)
    have hlt : ∀ k, .value k ∈ pieces values.length fmt → k < min (2^31) values.length :=
      fun k hk => lt_min ((h k (hvalue k hk)).index hk) (hvalue k hk)
    have htake : values.take (min (2^31) values.length) = values.take (2^31) :=
      List.take_eq_take_iff.2 (by rw [Nat.min_assoc, Nat.min_self])
    rwa [htake, render_of_lt hlt, ← formatv_eq] at hformat

/-- The example of the header. -/
theorem teapot_substitutes :
    Substitutes (lit "The $0 is $1 $2") [lit "teapot", lit "23.5", lit "pounds"] := by
  have hsteps : ∀ i < 3, OnlyPlaces [lit "teapot", lit "23.5", lit "pounds"] i
      (pieces 3 (lit "The $0 is $1 $2")) ∧ ∀ e ∈ insertedEnds (placeholder i)
        ([lit "teapot", lit "23.5", lit "pounds"].getD i []) 0 0
          (render [lit "teapot", lit "23.5", lit "pounds"] i (pieces 3 (lit "The $0 is $1 $2"))),
            e < 2^31 := by decide +kernel
  have hthree : ∀ i < 3, i < 2^31 := by decide
  exact substitutes_of_stepFits _ _ fun i hi =>
    ⟨.inl (hsteps i hi).1, fun _ => hthree i hi, (hsteps i hi).2⟩

/-- A value that looks like a placeholder is replaced by another value. -/
theorem dollar_not_substitutes : ¬∀ fmt values, Substitutes fmt values := by
  intro h
  have hvalue : formatImplInt (lit "$0") 0 [lit "$1", lit "x"] = .ok (lit "x") := by decide
  have hsubstitute : substitute (lit "$0") [lit "$1", lit "x"] = lit "$1" := by decide
  have hformat := (h (lit "$0") [lit "$1", lit "x"]).1
  rw [hvalue, hsubstitute] at hformat
  cases hformat

end Stx.StringUtil
