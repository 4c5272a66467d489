import Stx.Csv.CSVInputStream
import Stx.Csv.CSVOutputStream

/-! Rows that are written as text. Nothing is quoted, so that they come back as long as no cell
needs to be. -/
namespace Stx.Csv
open Io InputStream RewindableInputStream StringUtil

/-- The text that a row of these cells is written as. -/
def textRow (col row : UInt8) : List Bytes → Bytes
  | [] => [row]
  | cell :: cells => cell ++ cells.flatMap (col :: ·) ++ [row]

/-- A writer with separators of one character. -/
def CSVOutputStream.withSeparators (col row : UInt8) : CSVOutputStream where
  output_ := .fromString []
  col_sep_ := [col]
  row_sep_ := [row]

/-- The text that is written for the rows, one after the other. -/
def CSVOutputStream.written (col row : UInt8) (rows : List (List Bytes)) : Bytes :=
  (rows.foldl CSVOutputStream.appendRow (.withSeparators col row)).output_.str_

theorem foldl_cells (sep : Bytes) (cells : List Bytes) (k : Nat) (buf : Bytes) :
    (cells.zipIdx (k+1)).foldl
        (fun (buf : Bytes) c => (if 0 < (c.2 : Int) then buf ++ sep else buf) ++ c.1) buf =
      buf ++ cells.flatMap (sep ++ ·) := by
  induction cells generalizing k buf with
  | nil => simp
  | cons cell cells ih =>
    rw [List.zipIdx_cons, List.foldl_cons, ih, List.flatMap_cons]
    simp only
    rw [if_pos (by omega)]
    simp

theorem appendRow_eq {csv : CSVOutputStream} {col rowSep : UInt8} (hcol : csv.col_sep_ = [col])
    (hrow : csv.row_sep_ = [rowSep]) {row : List Bytes} (h : row.length < 2^63) :
    (csv.appendRow row).output_.str_ =
      csv.output_.str_ ++ textRow col rowSep (row.take (2^31)) := by
  have hcells : eachCell (fun i cell buf => (if 0 < i then buf ++ csv.col_sep_ else buf) ++ cell)
      row.length 0 row [] ++ csv.row_sep_ = textRow col rowSep (row.take (2^31)) := by
    rw [eachCell_row _ _ h, hcol, hrow]
    cases row.take (2^31) with
    | nil => rfl
    | cons cell cells =>
      rw [List.zipIdx_cons, List.foldl_cons, foldl_cells]
      rfl
  rw [CSVOutputStream.appendRow, ← hcells]
  rfl

theorem csv_written_eq (col rowSep : UInt8) {rows : List (List Bytes)} (h : InMemory rows) :
    CSVOutputStream.written col rowSep rows =
      rows.flatMap fun row => textRow col rowSep (row.take (2^31)) := by
  have hrows : ∀ (rows : List (List Bytes)) (csv : CSVOutputStream), InMemory rows →
      csv.col_sep_ = [col] → csv.row_sep_ = [rowSep] →
      (rows.foldl CSVOutputStream.appendRow csv).output_.str_ =
        csv.output_.str_ ++ rows.flatMap fun row => textRow col rowSep (row.take (2^31)) := by
    intro rows
    induction rows with
    | nil => simp
    | cons row rows ih =>
      intro csv h hcol hrow
      obtain ⟨hlen, hrest⟩ := List.forall_mem_cons.1 h
      rw [List.foldl_cons, ih (csv.appendRow row) hrest hcol hrow, appendRow_eq hcol hrow hlen.1, List.flatMap_cons,
        List.append_assoc]
  exact hrows rows _ h rfl rfl

/-- Every cell stands in the text with one separator behind it. -/
def cellsSize (row : List Bytes) : Nat := (row.map fun cell => cell.length+1).sum

theorem length_textRow (col rowSep : UInt8) {row : List Bytes} (h : row ≠ []) :
    (textRow col rowSep row).length = cellsSize row := by
  obtain ⟨cell, cells, rfl⟩ := List.exists_cons_of_ne_nil h
  have hcells : (cells.map fun cell => (col :: cell).length).sum = cellsSize cells := rfl
  rw [textRow, List.length_append, List.length_append, List.length_flatMap, hcells, cellsSize,
    cellsSize, List.map_cons, List.sum_cons, List.length_singleton]
  omega

theorem length_le_cellsSize (row : List Bytes) : row.length ≤ cellsSize row := by
  have hone : ∀ n ∈ row.map fun cell => cell.length+1, 1 ≤ n :=
    List.forall_mem_map.2 fun cell _ => Nat.le_add_left 1 cell.length
  have hle := List.length_le_sum_of_one_le _ hone
  rwa [List.length_map] at hle

theorem cellsSize_take_add_drop (k : Nat) (row : List Bytes) :
    cellsSize (row.take k)+cellsSize (row.drop k) = cellsSize row := by
  rw [cellsSize, cellsSize, cellsSize, ← List.sum_append, ← List.map_append, List.take_append_drop]

namespace DefaultCSVInputStream
variable {σ : Type} [RewindableInputStream σ] {rest : σ → Bytes} (hd : Delivers rest)
  (csv : DefaultCSVInputStream)

/-- None of the characters that the reader looks for stands in the cell. -/
def Free (cell : Bytes) : Prop :=
  csv.column_separator_ ∉ cell ∧ csv.row_separator_ ∉ cell ∧ csv.quote_char_ ∉ cell

include hd in
/-- One turn of the inner loop: it ends, or it is inside of a cell. -/
theorem readColumnLoop_cases {fuel : Nat} {quoted : Bool} {column column' : Bytes}
    {byte : Option UInt8} {s s' : σ}
    (h : csv.readColumnLoop (fuel+1) quoted column s = (.ok (byte, column'), s')) :
    (rest s = [] ∧ byte = none ∧ column' = column ∧ rest s' = []) ∨
    ∃ b t, rest s = b :: rest t ∧
      ((quoted = false ∧ (b = csv.column_separator_ ∨ b = csv.row_separator_) ∧ byte = some b ∧
          column' = column ∧ s' = t) ∨
        ¬(quoted = false ∧ (b = csv.column_separator_ ∨ b = csv.row_separator_)) ∧
          ((b = csv.quote_char_ ∧
              csv.readColumnLoop fuel (!quoted) column t = (.ok (byte, column'), s')) ∨
            (b ≠ csv.quote_char_ ∧
              csv.readColumnLoop fuel quoted (column ++ [b]) t = (.ok (byte, column'), s')))) := by
  obtain ⟨t, hbyte, hrest⟩ := hd.readNextByte s
  rw [readColumnLoop, Sys.bind_of_ok hbyte] at h
  cases htext : rest s with
  | nil =>
    rw [htext] at h hrest
    cases h
    exact .inl ⟨rfl, rfl, rfl, hrest⟩
  | cons b tail =>
    rw [htext, List.tail_cons] at hrest
    rw [htext] at h
    refine .inr ⟨b, t, by rw [hrest], ?_⟩
    simp only [List.head?_cons] at h
    split at h
    · next hcol =>
      cases h
      exact .inl ⟨hcol.1, .inl hcol.2, rfl, rfl, rfl⟩
    · next hcol =>
      split at h
      · next hrow =>
        cases h
        exact .inl ⟨hrow.1, .inr hrow.2, rfl, rfl, rfl⟩
      · next hrow =>
        have hsep : ¬(quoted = false ∧ (b = csv.column_separator_ ∨ b = csv.row_separator_)) := by
          rintro ⟨hq, hb | hb⟩
          · exact hcol ⟨hq, hb⟩
          · exact hrow ⟨hq, hb⟩
        refine .inr ⟨hsep, ?_⟩
        split at h
        · next hquote => exact .inl ⟨hquote, h⟩
        · next hquote => exact .inr ⟨hquote, h⟩

/-- Quotes can only be opened by a quote character that is no separator. -/
def NoQuotes (text : Bytes) : Prop :=
  csv.quote_char_ ∈ text → csv.quote_char_ = csv.column_separator_ ∨
    csv.quote_char_ = csv.row_separator_

/-- What is true of a column that was read from `text` to `text'`, behind what had been read of it:
it has no quote character, it ends at a separator, it has taken its bytes, and where there are no
quotes it has no separators. -/
structure ColumnRead (quoted : Bool) (column column' : Bytes) (byte : Option UInt8)
    (text text' : Bytes) : Prop where
  no_quote : csv.quote_char_ ∉ column → csv.quote_char_ ∉ column'
  ends : ∀ b, byte = some b → b = csv.column_separator_ ∨ b = csv.row_separator_
  takes : text'.length+column'.length+byte.toList.length ≤ text.length+column.length
  no_separator : quoted = false → csv.NoQuotes text →
    csv.column_separator_ ∉ column ∧ csv.row_separator_ ∉ column →
    csv.NoQuotes text' ∧ csv.column_separator_ ∉ column' ∧ csv.row_separator_ ∉ column'

variable {csv} in
theorem NoQuotes.tail {b : UInt8} {text : Bytes} (h : csv.NoQuotes (b :: text)) :
    csv.NoQuotes text := fun hmem => h (List.mem_cons_of_mem b hmem)

section turns
variable {csv} {quoted : Bool} {column column' text text' : Bytes} {byte : Option UInt8} {b : UInt8}

theorem ColumnRead.ended : csv.ColumnRead quoted column column none [] [] where
  no_quote := id
  ends := nofun
  takes := le_rfl
  no_separator _ hno hsep := ⟨hno, hsep⟩

theorem ColumnRead.separator (hb : b = csv.column_separator_ ∨ b = csv.row_separator_) :
    csv.ColumnRead quoted column column (some b) (b :: text) text where
  no_quote := id
  ends b' h := by
    cases h
    exact hb
  takes := by
    rw [List.length_cons, Option.toList_some, List.length_singleton]
    omega
  no_separator _ hno hsep := ⟨hno.tail, hsep⟩

theorem ColumnRead.quote (hquote : b = csv.quote_char_)
    (hsep : ¬(quoted = false ∧ (b = csv.column_separator_ ∨ b = csv.row_separator_)))
    (h : csv.ColumnRead (!quoted) column column' byte text text') :
    csv.ColumnRead quoted column column' byte (b :: text) text' where
  no_quote := h.no_quote
  ends := h.ends
  takes := by
    have htakes := h.takes
    rw [List.length_cons]
    omega
  no_separator hquoted hno _ := by
    have hopen := hno (hquote ▸ List.mem_cons_self)
    rw [← hquote] at hopen
    exact absurd ⟨hquoted, hopen⟩ hsep

theorem ColumnRead.char (hquote : b ≠ csv.quote_char_)
    (hsep : ¬(quoted = false ∧ (b = csv.column_separator_ ∨ b = csv.row_separator_)))
    (h : csv.ColumnRead quoted (column ++ [b]) column' byte text text') :
    csv.ColumnRead quoted column column' byte (b :: text) text' where
  no_quote hcolumn := h.no_quote (by simp [hcolumn, Ne.symm hquote])
  ends := h.ends
  takes := by
    have htakes := h.takes
    rw [List.length_append, List.length_singleton] at htakes
    rw [List.length_cons]
    omega
  no_separator hquoted hno hcolumn := by
    rw [not_and, not_or] at hsep
    obtain ⟨hcol, hrow⟩ := hsep hquoted
    exact h.no_separator hquoted hno.tail
      ⟨by simp [hcolumn.1, Ne.symm hcol], by simp [hcolumn.2, Ne.symm hrow]⟩

end turns

include hd in
theorem readColumnLoop_spec {fuel : Nat} {quoted : Bool} {column column' : Bytes}
    {byte : Option UInt8} {s s' : σ}
    (h : csv.readColumnLoop fuel quoted column s = (.ok (byte, column'), s')) :
    csv.ColumnRead quoted column column' byte (rest s) (rest s') := by
  induction fuel generalizing quoted column s with
  | zero => cases h
  | succ fuel ih =>
    rcases readColumnLoop_cases hd csv h with ⟨hnil, rfl, rfl, hnil'⟩ | ⟨b, t, htext, hturn⟩
    · rw [hnil, hnil']
      exact .ended
    · rw [htext]
      rcases hturn with ⟨-, hb, rfl, rfl, rfl⟩ | ⟨hsep, ⟨hquote, hnext⟩ | ⟨hquote, hnext⟩⟩
      · exact .separator hb
      · exact .quote hquote hsep (ih hnext)
      · exact .char hquote hsep (ih hnext)

/-- The same of the columns of a row. -/
structure RowRead (cells : List Bytes) (text text' : Bytes) : Prop where
  no_quote : ∀ cell ∈ cells, csv.quote_char_ ∉ cell
  takes : text'.length+cellsSize cells ≤ text.length
  no_separator : csv.NoQuotes text → csv.NoQuotes text' ∧
    ∀ cell ∈ cells, csv.column_separator_ ∉ cell ∧ csv.row_separator_ ∉ cell
  single : csv.column_separator_ = csv.row_separator_ → cells.length = 1

section columns
variable {csv} {column : Bytes} {cells : List Bytes} {text text' text'' : Bytes} {b : UInt8}

theorem RowRead.last (h : csv.ColumnRead false [] column (some b) text text') :
    csv.RowRead [column] text text' where
  no_quote := List.forall_mem_singleton.2 (h.no_quote List.not_mem_nil)
  takes := by
    have htakes := h.takes
    simp only [Option.toList_some, List.length_singleton, List.length_nil] at htakes
    simp only [cellsSize, List.map_cons, List.map_nil, List.sum_cons, List.sum_nil]
    omega
  no_separator hno := by
    obtain ⟨hno', hsep⟩ := h.no_separator rfl hno ⟨List.not_mem_nil, List.not_mem_nil⟩
    exact ⟨hno', List.forall_mem_singleton.2 hsep⟩
  single _ := rfl

theorem RowRead.cons (hb : b ≠ csv.row_separator_)
    (h : csv.ColumnRead false [] column (some b) text text') (hcells : csv.RowRead cells text' text'') :
    csv.RowRead (column :: cells) text text'' where
  no_quote := List.forall_mem_cons.2 ⟨h.no_quote List.not_mem_nil, hcells.no_quote⟩
  takes := by
    have htakes := h.takes
    have htakes' := hcells.takes
    simp only [Option.toList_some, List.length_singleton, List.length_nil] at htakes
    simp only [cellsSize, List.map_cons, List.sum_cons] at htakes' ⊢
    omega
  no_separator hno := by
    obtain ⟨hno', hsep⟩ := h.no_separator rfl hno ⟨List.not_mem_nil, List.not_mem_nil⟩
    obtain ⟨hno'', hall⟩ := hcells.no_separator hno'
    exact ⟨hno'', List.forall_mem_cons.2 ⟨hsep, hall⟩⟩
  single hsame := by
    rcases h.ends b rfl with hcol | hrow
    · exact absurd (hcol.trans hsame) hb
    · exact absurd hrow hb

end columns

include hd in
theorem readNextRowLoop_spec {fuel : Nat} {target row : List Bytes} {s s' : σ}
    (h : csv.readNextRowLoop fuel target s = (.ok (true, row), s')) :
    ∃ cells, row = target ++ cells ∧ csv.RowRead cells (rest s) (rest s') := by
  induction fuel generalizing target s with
  | zero => cases h
  | succ fuel ih =>
    rw [readNextRowLoop] at h
    obtain ⟨⟨byte, column⟩, t, hcolumn, hnext⟩ := Sys.bind_eq_ok h
    have hread := readColumnLoop_spec hd csv hcolumn
    simp only at hnext
    by_cases hend : byte = none ∨ byte = some csv.row_separator_
    · rw [if_pos hend, Sys.pure_apply, Prod.mk.injEq, Result.ok.injEq, Prod.mk.injEq] at hnext
      obtain ⟨⟨hsome, rfl⟩, rfl⟩ := hnext
      obtain ⟨b, rfl⟩ := Option.isSome_iff_exists.1 hsome
      exact ⟨[column], rfl, .last hread⟩
    · rw [if_neg hend] at hnext
      obtain ⟨cells, rfl, hcells⟩ := ih hnext
      obtain ⟨b, rfl⟩ := Option.ne_none_iff_exists'.1 fun hnone => hend (.inl hnone)
      refine ⟨column :: cells, by simp, .cons (fun hb => hend (.inr (hb ▸ rfl))) hread hcells⟩

section written
variable {csv}
include hd

theorem reads_column {cell : Bytes} (hcell : csv.Free cell) {b : UInt8}
    (hb : b = csv.column_separator_ ∨ b = csv.row_separator_) {fuel : Nat} (column : Bytes)
    (hfuel : cell.length < fuel) :
    Reads rest (csv.readColumnLoop fuel false column : Sys σ _) (cell ++ [b])
      (some b, column ++ cell) := by
  induction cell generalizing fuel column with
  | nil =>
    obtain ⟨fuel, rfl⟩ := Nat.exists_eq_add_one.2 hfuel
    intro s tail hs
    obtain ⟨s', hbyte, hs'⟩ := hd.reads_byte b s tail hs
    refine ⟨s', ?_, hs'⟩
    rw [readColumnLoop, Sys.bind_of_ok hbyte, List.append_nil]
    by_cases hcol : b = csv.column_separator_
    · exact congrFun (if_pos ⟨rfl, hcol⟩) s'
    · have hrow := hb.resolve_left hcol
      exact congrFun ((if_neg fun h => hcol h.2).trans (if_pos ⟨rfl, hrow⟩)) s'
  | cons d cell ih =>
    obtain ⟨fuel, rfl⟩ : ∃ k, fuel = k+1 := Nat.exists_eq_add_one.2 (by omega)
    obtain ⟨hcol, hrow, hquote⟩ := hcell
    simp only [List.mem_cons, not_or] at hcol hrow hquote
    intro s tail hs
    obtain ⟨t, hbyte, ht⟩ := hd.reads_byte d s _ hs
    obtain ⟨s', hrest, hs'⟩ := ih ⟨hcol.2, hrow.2, hquote.2⟩ (column ++ [d])
      (Nat.lt_of_succ_lt_succ hfuel) t tail ht
    refine ⟨s', ?_, hs'⟩
    rw [List.append_assoc, List.singleton_append] at hrest
    rw [readColumnLoop, Sys.bind_of_ok hbyte, ← hrest]
    exact congrFun ((if_neg fun h => hcol.1 h.2.symm).trans ((if_neg fun h => hrow.1 h.2.symm).trans
      (if_neg fun h => hquote.1 h.symm))) t

theorem reads_cell {cell : Bytes} (hcell : csv.Free cell) {b : UInt8}
    (hb : b = csv.column_separator_ ∨ b = csv.row_separator_) :
    Reads rest (csv.readColumn : Sys σ _) (cell ++ [b]) (some b, cell) := by
  intro s tail hs
  have hle := hd.length_le s
  rw [hs] at hle
  simp only [List.length_append] at hle
  exact reads_column hd hcell hb [] (by omega) s tail hs

/-- A row of free cells is read to its end, if only that is a row separator. -/
theorem reads_cells {cell : Bytes} {cells : List Bytes} (hfree : ∀ c ∈ cell :: cells, csv.Free c)
    (hsep : csv.column_separator_ = csv.row_separator_ → cells = []) {fuel : Nat}
    (target : List Bytes) (hfuel : cells.length < fuel) :
    Reads rest (csv.readNextRowLoop fuel target : Sys σ _)
      (textRow csv.column_separator_ csv.row_separator_ (cell :: cells))
      (true, target ++ cell :: cells) := by
  induction cells generalizing cell target fuel with
  | nil =>
    obtain ⟨fuel, rfl⟩ := Nat.exists_eq_add_one.2 hfuel
    intro s tail hs
    rw [textRow, List.flatMap_nil, List.append_nil] at hs
    obtain ⟨s', hcell, hs'⟩ := reads_cell hd (hfree cell List.mem_cons_self) (.inr rfl) s tail hs
    refine ⟨s', ?_, hs'⟩
    rw [readNextRowLoop, Sys.bind_of_ok hcell]
    exact congrFun (if_pos (.inr rfl)) s'
  | cons next cells ih =>
    obtain ⟨fuel, rfl⟩ : ∃ k, fuel = k+1 := Nat.exists_eq_add_one.2 (by omega)
    have hne : csv.column_separator_ ≠ csv.row_separator_ := fun h => absurd (hsep h) (by simp)
    obtain ⟨hcell, hcells⟩ := List.forall_mem_cons.1 hfree
    intro s tail hs
    have hsplit : textRow csv.column_separator_ csv.row_separator_ (cell :: next :: cells) =
        (cell ++ [csv.column_separator_]) ++
          textRow csv.column_separator_ csv.row_separator_ (next :: cells) := by
      simp [textRow]
    rw [hsplit, List.append_assoc] at hs
    obtain ⟨t, hread, ht⟩ := reads_cell hd hcell (.inl rfl) s _ hs
    obtain ⟨s', hrest, hs'⟩ := ih hcells (fun h => absurd h hne) (target ++ [cell])
      (Nat.lt_of_succ_lt_succ hfuel) t tail ht
    refine ⟨s', ?_, hs'⟩
    rw [List.append_assoc, List.singleton_append] at hrest
    rw [readNextRowLoop, Sys.bind_of_ok hread, ← hrest]
    exact congrFun (if_neg (by simp [hne])) t

theorem reads_row {row : List Bytes} (hne : row ≠ []) (hfree : ∀ c ∈ row, csv.Free c)
    (hsep : csv.column_separator_ = csv.row_separator_ → row.length = 1) :
    Reads rest (csv.readNextRow : Sys σ _)
      (textRow csv.column_separator_ csv.row_separator_ row) (true, row) := by
  obtain ⟨cell, cells, rfl⟩ := List.exists_cons_of_ne_nil hne
  intro s tail hs
  have hle := hd.length_le s
  have hsize := length_le_cellsSize (cell :: cells)
  rw [hs, List.length_append, length_textRow _ _ hne] at hle
  rw [List.length_cons] at hsize
  refine reads_cells hd hfree (fun h => ?_) [] (by omega) s tail hs
  exact List.length_eq_zero_iff.1 (Nat.succ_injective (hsep h))

theorem end_of_rows {s : σ} (hs : rest s = []) :
    ∃ row s', (csv.readNextRow : Sys σ _) s = (.ok (false, row), s') := by
  obtain ⟨s', hbyte, -⟩ := hd.readNextByte s
  rw [hs] at hbyte
  have hcolumn : csv.readColumn s = (.ok (none, []), s') := by
    rw [readColumn, readColumnLoop, Sys.bind_of_ok hbyte]
    rfl
  refine ⟨[[]], s', ?_⟩
  rw [readNextRow, readNextRowLoop, Sys.bind_of_ok hcolumn]
  exact congrFun (if_pos (.inl rfl)) s'

end written

end DefaultCSVInputStream

open DefaultCSVInputStream

/-- The rows that are read back, with the separators that were written. -/
def textRowsRead (col rowSep quote : UInt8) (rows : List (List Bytes)) :
    Result (List (List Bytes)) :=
  (readRows (DefaultCSVInputStream.readNextRow ⟨col, rowSep, quote⟩)
    (StringInputStream.fromString (CSVOutputStream.written col rowSep rows))).1

theorem mem_textRow {col rowSep c : UInt8} {row : List Bytes} (h : c ∈ textRow col rowSep row) :
    c = col ∨ c = rowSep ∨ ∃ cell ∈ row, c ∈ cell := by
  cases row with
  | nil => exact .inr (.inl (List.mem_singleton.1 h))
  | cons cell cells =>
    rw [textRow, List.mem_append, List.mem_append, List.mem_singleton, List.mem_flatMap] at h
    rcases h with (h | ⟨next, hnext, h⟩) | h
    · exact .inr (.inr ⟨cell, List.mem_cons_self, h⟩)
    · rcases List.mem_cons.1 h with h | h
      · exact .inl h
      · exact .inr (.inr ⟨next, List.mem_cons_of_mem _ hnext, h⟩)
    · exact .inr (.inl h)

theorem readNextRow_spec {σ : Type} [RewindableInputStream σ] {rest : σ → Bytes}
    (hd : Delivers rest) (csv : DefaultCSVInputStream) {row : List Bytes} {s s' : σ}
    (h : csv.readNextRow s = (.ok (true, row), s')) : csv.RowRead row (rest s) (rest s') := by
  obtain ⟨cells, rfl, hread⟩ := readNextRowLoop_spec hd csv h
  exact hread

section
variable {col rowSep quote : UInt8} {rows : List (List Bytes)}

/-- What comes back has no quotes, then no separators, and has been written as far as it was read. -/
theorem free_of_read_back (h : InMemory rows) (hne : ∀ row ∈ rows, row ≠ [])
    (hread : textRowsRead col rowSep quote rows = .ok rows) : ∀ row ∈ rows,
    row.length ≤ 2^31 ∧ (col = rowSep → row.length = 1) ∧
      ∀ cell ∈ row, col ∉ cell ∧ rowSep ∉ cell ∧ quote ∉ cell := by
  have hd := StringInputStream.delivers
  have hrest := (StringInputStream.unread_fromString _).trans (csv_written_eq col rowSep h)
  have hnext : ∀ s row s', DefaultCSVInputStream.readNextRow ⟨col, rowSep, quote⟩ s =
      (.ok (true, row), s') →
      RowRead ⟨col, rowSep, quote⟩ row (StringInputStream.unread s) (StringInputStream.unread s') :=
    fun _ _ _ hrow => readNextRow_spec hd _ hrow
  obtain ⟨hquote, -⟩ := of_readRowsLoop (fun _ => True)
    (fun row => (∀ cell ∈ row, quote ∉ cell) ∧ (col = rowSep → row.length = 1))
    (fun s row s' _ hrow => ⟨trivial, ⟨(hnext s row s' hrow).no_quote,
      (hnext s row s' hrow).single⟩, (hnext s row s' hrow).takes⟩) trivial (Prod.ext hread rfl)
  -- a quote in the text would have come from a cell
  have hno : NoQuotes ⟨col, rowSep, quote⟩ (StringInputStream.unread
      (.fromString (CSVOutputStream.written col rowSep rows))) := by
    intro hmem
    rw [hrest, List.mem_flatMap] at hmem
    obtain ⟨row, hrow, hmem⟩ := hmem
    rcases mem_textRow hmem with hcol | hsep | ⟨cell, hcell, hmem⟩
    · exact .inl hcol
    · exact .inr hsep
    · exact absurd hmem ((hquote row hrow).1 cell (List.mem_of_mem_take hcell))
  obtain ⟨hsep, -⟩ := of_readRowsLoop
    (fun s => NoQuotes ⟨col, rowSep, quote⟩ (StringInputStream.unread s))
    (fun row => ∀ cell ∈ row, col ∉ cell ∧ rowSep ∉ cell)
    (fun s row s' hinv hrow => ⟨((hnext s row s' hrow).no_separator hinv).1,
      ((hnext s row s' hrow).no_separator hinv).2, (hnext s row s' hrow).takes⟩) hno
    (Prod.ext hread rfl)
  intro row hrow
  refine ⟨?_, (hquote row hrow).2, fun cell hcell => ⟨(hsep row hrow cell hcell).1,
    (hsep row hrow cell hcell).2, (hquote row hrow).1 cell hcell⟩⟩
  have htext : ∀ row ∈ rows, (textRow col rowSep (row.take (2^31))).length =
      cellsSize (row.take (2^31)) := fun row hrow =>
    length_textRow _ _ (by simp [hne row hrow])
  have hcost := cost_le_of_written (fun s row s' hrow => (hnext s row s' hrow).takes) hrest
    (fun row hrow => by rw [htext row hrow, ← cellsSize_take_add_drop (2^31) row]; omega)
    (Prod.ext hread rfl) row hrow
  have hdropped := length_le_cellsSize (row.drop (2^31))
  rw [htext row hrow, ← cellsSize_take_add_drop (2^31) row] at hcost
  rw [List.length_drop] at hdropped
  omega

/-- Rows are read back exactly as far as the index of their cells is an `int`, if no cell has a
character that the reader looks for, and if rows end otherwise than columns. -/
theorem text_rows_read_back_iff (h : InMemory rows) (hne : ∀ row ∈ rows, row ≠ []) :
    textRowsRead col rowSep quote rows = .ok rows ↔ ∀ row ∈ rows,
      row.length ≤ 2^31 ∧ (col = rowSep → row.length = 1) ∧
        ∀ cell ∈ row, col ∉ cell ∧ rowSep ∉ cell ∧ quote ∉ cell := by
  constructor
  · exact free_of_read_back h hne
  · intro hall
    have hrest := (StringInputStream.unread_fromString _).trans (csv_written_eq col rowSep h)
    have htake : ∀ row ∈ rows, textRow col rowSep (row.take (2^31)) = textRow col rowSep row :=
      fun row hrow => by rw [List.take_of_length_le (hall row hrow).1]
    rw [List.flatMap_congr htake] at hrest
    refine readRows_eq StringInputStream.delivers (fun row hrow => ?_) (fun row hrow => ?_)
      (fun s => end_of_rows StringInputStream.delivers) hrest
    · rw [length_textRow _ _ (hne row hrow)]
      exact (List.length_pos_of_ne_nil (hne row hrow)).trans_le (length_le_cellsSize row)
    · exact reads_row StringInputStream.delivers (hne row hrow) (hall row hrow).2.2 (hall row hrow).2.1

end

theorem text_rows_read_back_plain :
    InMemory [[lit "a", []], [lit "b"]] ∧ (∀ row ∈ [[lit "a", []], [lit "b"]], row ≠ []) ∧
    textRowsRead 59 10 34 [[lit "a", []], [lit "b"]] = .ok [[lit "a", []], [lit "b"]] := by
  have h : InMemory [[lit "a", []], [lit "b"]] := by
    unfold InMemory
    decide
  exact ⟨h, by decide, (text_rows_read_back_iff h (by decide)).2 (by decide)⟩

/-- A cell with a column separator comes back as two cells. -/
theorem text_rows_split : ¬∀ (col rowSep quote : UInt8) (rows : List (List Bytes)),
    InMemory rows → (∀ row ∈ rows, row ≠ []) → textRowsRead col rowSep quote rows = .ok rows := by
  intro hall
  have h : InMemory [[lit "a;b"]] := by
    unfold InMemory
    decide
  have hfree := free_of_read_back h (by decide) (hall 59 10 34 [[lit "a;b"]] h (by decide))
  exact absurd hfree (by decide)

end Stx.Csv
