import Stx.Csv.CSVRoundTrip
import Mathlib.Algebra.Ring.Parity

/-! The rows of a text, and the row behind the last separator, for which false is returned. -/
namespace Stx.Csv
open Io RewindableInputStream

namespace DefaultCSVInputStream
variable (csv : DefaultCSVInputStream)

/-- Outside of quotes the separators end a column. -/
def Ends (quoted : Bool) (b : UInt8) : Prop :=
  quoted = false ∧ (b = csv.column_separator_ ∨ b = csv.row_separator_)

instance (quoted : Bool) (b : UInt8) : Decidable (csv.Ends quoted b) :=
  inferInstanceAs (Decidable (_ ∧ _))

/-- Whether the reader is inside of quotes behind a text. -/
def quotedAfter : Bool → Bytes → Bool
  | quoted, [] => quoted
  | quoted, b :: text =>
    if csv.Ends quoted b then quotedAfter false text
    else if b = csv.quote_char_ then quotedAfter (!quoted) text
    else quotedAfter quoted text

/-- The quotes of a text are all closed. -/
def Balanced (text : Bytes) : Prop := csv.quotedAfter false text = false

/-- A row separator stands outside of quotes. -/
def HasRowEnd (text : Bytes) : Prop :=
  ∃ a b, text = a ++ csv.row_separator_ :: b ∧ csv.quotedAfter false a = false

/- What is read of a text, by recursion on it. -/

/-- The byte that ends the column, the column, and what is left. -/
def columnOf : Bool → Bytes → Bytes → Option UInt8 × Bytes × Bytes
  | _, column, [] => (none, column, [])
  | quoted, column, b :: text =>
    if csv.Ends quoted b then (some b, column, text)
    else if b = csv.quote_char_ then columnOf (!quoted) column text
    else columnOf quoted (column ++ [b]) text

/-- Whether a separator ends the row, the row, and what is left. -/
def rowOf : Bool → Bytes → List Bytes → Bytes → Bool × List Bytes × Bytes
  | _, column, row, [] => (false, row ++ [column], [])
  | quoted, column, row, b :: text =>
    if csv.Ends quoted b then
      if b = csv.row_separator_ then (true, row ++ [column], text)
      else rowOf false [] (row ++ [column]) text
    else if b = csv.quote_char_ then rowOf (!quoted) column row text
    else rowOf quoted (column ++ [b]) row text

/-- The rows that end in a separator. -/
def rowsOf : Bool → Bytes → List Bytes → Bytes → List (List Bytes)
  | _, _, _, [] => []
  | quoted, column, row, b :: text =>
    if csv.Ends quoted b then
      if b = csv.row_separator_ then (row ++ [column]) :: rowsOf false [] [] text
      else rowsOf false [] (row ++ [column]) text
    else if b = csv.quote_char_ then rowsOf (!quoted) column row text
    else rowsOf quoted (column ++ [b]) row text

variable {csv} {quoted : Bool} {column : Bytes} {row : List Bytes} {text : Bytes}

theorem rowOf_eq_columnOf : csv.rowOf quoted column row text =
    match csv.columnOf quoted column text with
    | (none, column, rest) => (false, row ++ [column], rest)
    | (some b, column, rest) =>
      if b = csv.row_separator_ then (true, row ++ [column], rest)
      else csv.rowOf false [] (row ++ [column]) rest := by
  induction text generalizing quoted column with
  | nil => rfl
  | cons b text ih =>
    rw [rowOf, columnOf]
    split
    · rfl
    · split
      · exact ih
      · exact ih

theorem length_columnOf : (csv.columnOf quoted column text).2.2.length+
    (csv.columnOf quoted column text).1.toList.length ≤ text.length := by
  induction text generalizing quoted column with
  | nil => exact Nat.le_refl 0
  | cons b text ih =>
    rw [columnOf]
    split
    · exact Nat.le_refl _
    · split
      · exact Nat.le_succ_of_le ih
      · exact Nat.le_succ_of_le ih

theorem rowsOf_eq_rowOf : csv.rowsOf quoted column row text =
    match csv.rowOf quoted column row text with
    | (false, _, _) => []
    | (true, row, rest) => row :: csv.rowsOf false [] [] rest := by
  induction text generalizing quoted column row with
  | nil => rfl
  | cons b text ih =>
    rw [rowsOf, rowOf]
    split
    · split
      · rfl
      · exact ih
    · split
      · exact ih
      · exact ih

theorem length_rowOf (h : (csv.rowOf quoted column row text).1 = true) :
    (csv.rowOf quoted column row text).2.2.length < text.length := by
  induction text generalizing quoted column row with
  | nil => cases h
  | cons b text ih =>
    rw [rowOf] at h ⊢
    split at h
    · split at h
      · next hends hrow =>
        rw [if_pos hends, if_pos hrow]
        exact Nat.lt_succ_self _
      · next hends hrow =>
        rw [if_pos hends, if_neg hrow]
        exact Nat.lt_succ_of_lt (ih h)
    · split at h
      · next hends hquote =>
        rw [if_neg hends, if_pos hquote]
        exact Nat.lt_succ_of_lt (ih h)
      · next hends hquote =>
        rw [if_neg hends, if_neg hquote]
        exact Nat.lt_succ_of_lt (ih h)

/-- A separator behind a text with closed quotes gives one row more. -/
theorem rowsOf_append (h : csv.quotedAfter quoted text = false) :
    ∃ last, csv.rowsOf quoted column row (text ++ [csv.row_separator_]) =
      csv.rowsOf quoted column row text ++ [last] := by
  induction text generalizing quoted column row with
  | nil =>
    have hends : csv.Ends quoted csv.row_separator_ := ⟨h, .inr rfl⟩
    refine ⟨row ++ [column], ?_⟩
    simp only [List.nil_append, rowsOf, if_pos hends, if_true]
  | cons b text ih =>
    rw [quotedAfter] at h
    rw [List.cons_append, rowsOf, rowsOf]
    split at h
    · next hends =>
      rw [if_pos hends, if_pos hends]
      split
      · obtain ⟨last, hlast⟩ := @ih false [] [] h
        exact ⟨last, by rw [hlast, List.cons_append]⟩
      · exact ih h
    · next hends =>
      rw [if_neg hends, if_neg hends]
      split at h
      · next hquote =>
        rw [if_pos hquote, if_pos hquote]
        exact ih h
      · next hquote =>
        rw [if_neg hquote, if_neg hquote]
        exact ih h

/-- The text in front of a row separator begins with what stands in front of the rest. -/
theorem exists_split_cons {b : UInt8} {quoted' : Bool} (hsep : ¬(quoted = false ∧ b = csv.row_separator_))
    (h : ∀ a, csv.quotedAfter quoted (b :: a) = csv.quotedAfter quoted' a) :
    (∃ a c, b :: text = a ++ csv.row_separator_ :: c ∧ csv.quotedAfter quoted a = false) ↔
      ∃ a c, text = a ++ csv.row_separator_ :: c ∧ csv.quotedAfter quoted' a = false := by
  constructor
  · rintro ⟨a, c, htext, hclosed⟩
    cases a with
    | nil =>
      cases htext
      exact absurd ⟨hclosed, rfl⟩ hsep
    | cons d a =>
      cases htext
      exact ⟨a, c, rfl, by rwa [← h]⟩
  · rintro ⟨a, c, rfl, hclosed⟩
    exact ⟨b :: a, c, rfl, by rwa [h]⟩

/-- A row is there if and only if its separator is. -/
theorem rowOf_iff : (csv.rowOf quoted column row text).1 = true ↔
    ∃ a b, text = a ++ csv.row_separator_ :: b ∧ csv.quotedAfter quoted a = false := by
  induction text generalizing quoted column row with
  | nil => simp [rowOf]
  | cons b text ih =>
    rw [rowOf]
    by_cases hends : csv.Ends quoted b
    · rw [if_pos hends]
      by_cases hrow : b = csv.row_separator_
      · rw [if_pos hrow]
        exact iff_of_true rfl ⟨[], text, by rw [hrow]; rfl, hends.1⟩
      · rw [if_neg hrow, ih]
        refine (exists_split_cons (fun h => hrow h.2) fun a => ?_).symm
        rw [quotedAfter, if_pos hends]
    · have hsep : ¬(quoted = false ∧ b = csv.row_separator_) := fun h => hends ⟨h.1, .inr h.2⟩
      rw [if_neg hends]
      by_cases hquote : b = csv.quote_char_
      · rw [if_pos hquote, ih]
        refine (exists_split_cons hsep fun a => ?_).symm
        rw [quotedAfter, if_neg hends, if_pos hquote]
      · rw [if_neg hquote, ih]
        refine (exists_split_cons hsep fun a => ?_).symm
        rw [quotedAfter, if_neg hends, if_neg hquote]

/- A stream reads the rows of what it has left. -/

section stream
variable {σ : Type} [RewindableInputStream σ] {rest : σ → Bytes} (hd : Delivers rest)
include hd

theorem readColumnLoop_eq {fuel : Nat} {s : σ} (hfuel : (rest s).length < fuel) :
    ∃ s', csv.readColumnLoop fuel quoted column s =
        (.ok ((csv.columnOf quoted column (rest s)).1, (csv.columnOf quoted column (rest s)).2.1), s') ∧
      rest s' = (csv.columnOf quoted column (rest s)).2.2 := by
  induction fuel generalizing quoted column s with
  | zero => exact absurd hfuel (Nat.not_lt_zero _)
  | succ fuel ih =>
    obtain ⟨t, hbyte, hrest⟩ := hd.readNextByte s
    rw [readColumnLoop, Sys.bind_of_ok hbyte]
    cases htext : rest s with
    | nil =>
      rw [htext] at hrest
      exact ⟨t, rfl, hrest⟩
    | cons b text =>
      rw [htext, List.tail_cons] at hrest
      rw [htext, List.length_cons] at hfuel
      have hlt : (rest t).length < fuel := by
        rw [hrest]
        omega
      simp only [List.head?_cons, columnOf]
      by_cases hends : csv.Ends quoted b
      · rw [if_pos hends]
        refine ⟨t, ?_, hrest⟩
        by_cases hcol : b = csv.column_separator_
        · exact congrFun (if_pos ⟨hends.1, hcol⟩) t
        · have hrow := hends.2.resolve_left hcol
          exact congrFun ((if_neg fun h => hcol h.2).trans (if_pos ⟨hends.1, hrow⟩)) t
      · have hcol : ¬(quoted = false ∧ b = csv.column_separator_) := fun h => hends ⟨h.1, .inl h.2⟩
        have hrow : ¬(quoted = false ∧ b = csv.row_separator_) := fun h => hends ⟨h.1, .inr h.2⟩
        rw [if_neg hends, if_neg hcol, if_neg hrow, ← hrest]
        by_cases hquote : b = csv.quote_char_
        · rw [if_pos hquote, if_pos hquote]
          exact ih hlt
        · rw [if_neg hquote, if_neg hquote]
          exact ih hlt

theorem readColumn_eq (s : σ) : ∃ s', csv.readColumn s =
      (.ok ((csv.columnOf false [] (rest s)).1, (csv.columnOf false [] (rest s)).2.1), s') ∧
    rest s' = (csv.columnOf false [] (rest s)).2.2 :=
  readColumnLoop_eq hd (Nat.lt_succ_of_le (hd.length_le s))

theorem readNextRowLoop_eq {fuel : Nat} {s : σ} (hfuel : (rest s).length < fuel) :
    ∃ s', csv.readNextRowLoop fuel row s =
        (.ok ((csv.rowOf false [] row (rest s)).1, (csv.rowOf false [] row (rest s)).2.1), s') ∧
      rest s' = (csv.rowOf false [] row (rest s)).2.2 := by
  induction fuel generalizing row s with
  | zero => exact absurd hfuel (Nat.not_lt_zero _)
  | succ fuel ih =>
    obtain ⟨t, hcolumn, hrest⟩ := @readColumn_eq csv σ _ rest hd s
    have hlen := @length_columnOf csv false [] (rest s)
    rw [rowOf_eq_columnOf, readNextRowLoop, Sys.bind_of_ok hcolumn]
    rw [← hrest] at hlen
    generalize csv.columnOf false [] (rest s) = cut at *
    obtain ⟨byte, column, text⟩ := cut
    simp only at hrest hlen ⊢
    cases byte with
    | none => exact ⟨t, rfl, hrest⟩
    | some b =>
      by_cases hrow : b = csv.row_separator_
      · rw [if_pos (.inr (congrArg some hrow))]
        simp only [if_pos hrow]
        exact ⟨t, rfl, hrest⟩
      · have hgo : ¬(some b = none ∨ some b = some csv.row_separator_) := by simp [hrow]
        rw [if_neg hgo]
        simp only [if_neg hrow, ← hrest]
        rw [Option.toList_some, List.length_singleton] at hlen
        exact ih (by omega)

/-- The next row, and what is left behind it. -/
theorem readNextRow_eq (s : σ) : ∃ s', csv.readNextRow s =
      (.ok ((csv.rowOf false [] [] (rest s)).1, (csv.rowOf false [] [] (rest s)).2.1), s') ∧
    rest s' = (csv.rowOf false [] [] (rest s)).2.2 :=
  readNextRowLoop_eq hd (Nat.lt_succ_of_le (hd.length_le s))

theorem readRowsLoop_rowsOf {fuel : Nat} {s : σ} (hfuel : (rest s).length < fuel) :
    (readRowsLoop (csv.readNextRow : Sys σ _) fuel s).1 =
      .ok (csv.rowsOf false [] [] (rest s)) := by
  induction fuel generalizing s with
  | zero => exact absurd hfuel (Nat.not_lt_zero _)
  | succ fuel ih =>
    obtain ⟨t, hrow, hrest⟩ := @readNextRow_eq csv σ _ rest hd s
    have hlen := @length_rowOf csv false [] [] (rest s)
    rw [rowsOf_eq_rowOf, readRowsLoop, Sys.bind_of_ok hrow]
    rw [← hrest] at hlen
    generalize csv.rowOf false [] [] (rest s) = cut at *
    obtain ⟨more, row, text⟩ := cut
    simp only at hrest hlen ⊢
    cases more with
    | false => rfl
    | true =>
      have hloop := @ih t (Nat.lt_of_lt_of_le (hlen rfl) (Nat.le_of_lt_succ hfuel))
      rw [← hrest]
      simp only [if_true]
      rw [Sys.bind_of_ok (Prod.ext hloop rfl)]
      rfl

theorem readRows_rowsOf (s : σ) : (readRows (csv.readNextRow : Sys σ _) s).1 =
    .ok (csv.rowsOf false [] [] (rest s)) :=
  readRowsLoop_rowsOf hd (Nat.lt_succ_of_le (hd.length_le s))

end stream

/-- Where the quote character is no separator, every second one closes the quotes. -/
theorem quotedAfter_eq (hcol : csv.quote_char_ ≠ csv.column_separator_)
    (hrow : csv.quote_char_ ≠ csv.row_separator_) : csv.quotedAfter quoted text =
      (quoted ^^ decide (Odd (text.count csv.quote_char_))) := by
  induction text generalizing quoted with
  | nil => simp [quotedAfter]
  | cons b text ih =>
    rw [quotedAfter]
    split
    · next hends =>
      have hne : b ≠ csv.quote_char_ := by
        rintro rfl
        exact hends.2.elim hcol hrow
      rw [ih, List.count_cons_of_ne hne, hends.1]
    · split
      · next hquote =>
        rw [ih, hquote, List.count_cons_self]
        simp only [Nat.odd_add_one, decide_not, Bool.not_xor, Bool.xor_not]
      · next hquote => rw [ih, List.count_cons_of_ne hquote]

theorem quotedAfter_of_separator (h : csv.quote_char_ = csv.column_separator_ ∨
    csv.quote_char_ = csv.row_separator_) : csv.quotedAfter false text = false := by
  induction text with
  | nil => rfl
  | cons b text ih =>
    rw [quotedAfter]
    split
    · exact ih
    · next hends =>
      rw [if_neg fun hquote => hends ⟨rfl, by rwa [hquote]⟩]
      exact ih

/-- A text with an even number of quote characters has its quotes closed. -/
theorem balanced_of_even (h : Even (text.count csv.quote_char_)) : csv.Balanced text := by
  by_cases hsep : csv.quote_char_ = csv.column_separator_ ∨ csv.quote_char_ = csv.row_separator_
  · exact quotedAfter_of_separator hsep
  · rw [not_or] at hsep
    rw [Balanced, quotedAfter_eq hsep.1 hsep.2, decide_eq_false (Nat.not_odd_iff_even.2 h)]
    rfl

end DefaultCSVInputStream

open DefaultCSVInputStream

/-- The row behind the last separator is lost in every text, and true is returned for a row exactly if
a separator ends it. -/
theorem last_row_lost {σ : Type} [RewindableInputStream σ] {rest : σ → Bytes} (hd : Delivers rest)
    (csv : DefaultCSVInputStream) :
    (∀ s s' : σ, rest s' = rest s ++ [csv.row_separator_] → csv.Balanced (rest s) →
      ∃ rows last, (readRows csv.readNextRow s).1 = .ok rows ∧
        (readRows csv.readNextRow s').1 = .ok (rows ++ [last])) ∧
    ∀ s : σ, (∃ row s', csv.readNextRow s = (.ok (true, row), s')) ↔ csv.HasRowEnd (rest s) := by
  refine ⟨fun s s' hs hbalanced => ?_, fun s => ?_⟩
  · obtain ⟨last, hlast⟩ := @rowsOf_append csv false [] [] (rest s) hbalanced
    refine ⟨_, last, readRows_rowsOf hd s, ?_⟩
    rw [readRows_rowsOf hd s', hs, hlast]
  · rw [HasRowEnd, ← rowOf_iff]
    obtain ⟨t, hrow, -⟩ := @readNextRow_eq csv σ _ rest hd s
    constructor
    · rintro ⟨row, s', h⟩
      rw [hrow] at h
      cases hmore : (csv.rowOf false [] [] (rest s)).1 with
      | false => rw [hmore] at h; cases h
      | true => rfl
    · intro hmore
      rw [hmore] at hrow
      exact ⟨_, t, hrow⟩

/-- Two rows with the usual separators, the last of them open. -/
theorem last_row_lost_string :
    (∃ rows last,
      (readRows (DefaultCSVInputStream.readNextRow ⟨59, 10, 34⟩)
        (StringInputStream.fromString (lit "a;b\nc"))).1 = .ok rows ∧
      rows = [[lit "a", lit "b"]] ∧
      (readRows (DefaultCSVInputStream.readNextRow ⟨59, 10, 34⟩)
        (StringInputStream.fromString (lit "a;b\nc\n"))).1 = .ok (rows ++ [last])) ∧
    ∀ s : StringInputStream,
      (∃ row s', DefaultCSVInputStream.readNextRow ⟨59, 10, 34⟩ s = (.ok (true, row), s')) ↔
        HasRowEnd ⟨59, 10, 34⟩ (StringInputStream.unread s) := by
  obtain ⟨hlost, hread⟩ := last_row_lost StringInputStream.delivers ⟨59, 10, 34⟩
  obtain ⟨rows, last, hrows, hmore⟩ := hlost (StringInputStream.fromString (lit "a;b\nc"))
    (StringInputStream.fromString (lit "a;b\nc\n")) (by decide) (balanced_of_even (by decide))
  have hfirst : (readRows (DefaultCSVInputStream.readNextRow ⟨59, 10, 34⟩)
      (StringInputStream.fromString (lit "a;b\nc"))).1 = .ok [[lit "a", lit "b"]] := by decide
  exact ⟨⟨rows, last, hrows, Result.ok.inj (hrows.symm.trans hfirst), hmore⟩, hread⟩

theorem open_row_lost : ¬∀ (csv : DefaultCSVInputStream) (text : Bytes),
    Even (text.count csv.quote_char_) → text.getLast? ≠ some csv.row_separator_ →
      (readRows csv.readNextRow (StringInputStream.fromString text)).1 =
        (readRows csv.readNextRow (StringInputStream.fromString (text ++ [csv.row_separator_]))).1 := by
  intro h
  have hsame := h ⟨59, 10, 34⟩ (lit "a") (by decide) (by decide)
  exact absurd hsame (by decide)

end Stx.Csv
