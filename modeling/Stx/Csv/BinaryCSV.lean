import Stx.Csv.CSVInputStream
import Stx.Csv.CSVOutputStream

/-! `csv/BinaryCSVOutputStream.{h,cc}` and `csv/BinaryCSVInputStream.{h,cc}`. -/
namespace Stx.Csv
open Io InputStream RewindableInputStream StringUtil Util.BinaryMessageWriter

def BinaryCSVOutputStream.appendRow (output : StringOutputStream) (row : List Bytes) :
    StringOutputStream :=
  eachCell (fun _ cell out => out.appendLenencString cell) row.length 0 row
    (output.appendVarUInt (UInt64.ofNat row.length))

namespace BinaryCSVInputStream
variable {σ : Type} [RewindableInputStream σ]

/-- `for (size_t i = 0; i < row_size; ++i)`. -/
def readCells : Nat → Sys σ (List Bytes)
  | 0 => pure []
  | n+1 => do
    let cell ← readLenencString
    return cell :: (← readCells n)

def readNextRow : Sys σ (Bool × List Bytes) := do
  if ← eof then return (false, [])
  else
    let row_size ← readVarUInt
    return (true, ← readCells row_size.toNat)

end BinaryCSVInputStream

/-- A row of these cells, which says that it has `size` of them. -/
def binaryRow (size : Nat) (cells : List Bytes) : Bytes :=
  varUIntBytes (UInt64.ofNat size) ++ cells.flatMap lenencBytes

/-- What is written of a row: all of it, unless it has more than 2^31 cells. -/
theorem str_appendRow {row : List Bytes} (h : row.length < 2^63) (output : StringOutputStream) :
    (BinaryCSVOutputStream.appendRow output row).str_ =
      output.str_ ++ binaryRow row.length (row.take (2^31)) := by
  have hcells : ∀ (cells : List (Bytes × Nat)) (out : StringOutputStream),
      (cells.foldl (fun out c => out.appendLenencString c.1) out).str_ =
        out.str_ ++ (cells.map Prod.fst).flatMap lenencBytes := by
    intro cells
    induction cells with
    | nil => simp
    | cons c cells ih => intro out; simp [ih]
  rw [BinaryCSVOutputStream.appendRow, eachCell_row _ _ h, hcells, List.zipIdx_map_fst,
    StringOutputStream.str_appendVarUInt, binaryRow, List.append_assoc]

theorem length_varUIntBytes_pos (v : UInt64) : 0 < (varUIntBytes v).length :=
  List.length_pos_of_ne_nil (varUIntBytes_numeral v).ne_nil

/-- The bytes of a whole row are those of its first cells and of the others. -/
theorem length_binaryRow (size k : Nat) (row : List Bytes) : (binaryRow size row).length =
    (binaryRow size (row.take k)).length+((row.drop k).flatMap lenencBytes).length := by
  have hsplit := congrArg (List.flatMap lenencBytes) (List.take_append_drop k row)
  rw [List.flatMap_append] at hsplit
  rw [binaryRow, binaryRow, ← hsplit]
  simp only [List.length_append]
  omega

theorem length_le_flatMap_lenencBytes (cells : List Bytes) :
    cells.length ≤ (cells.flatMap lenencBytes).length := by
  induction cells with
  | nil => exact le_rfl
  | cons cell cells ih =>
    have hpos := length_varUIntBytes_pos (UInt64.ofNat cell.length)
    rw [List.flatMap_cons, List.length_append, List.length_cons, lenencBytes, List.length_append]
    omega

namespace BinaryCSVInputStream
variable {σ : Type} [RewindableInputStream σ] {rest : σ → Bytes} (hd : Delivers rest)
include hd

theorem reads_cells {cells : List Bytes} (h : ∀ cell ∈ cells, cell.length < 2^63) :
    Reads rest (readCells cells.length : Sys σ (List Bytes)) (cells.flatMap lenencBytes) cells := by
  induction cells with
  | nil => exact Reads.pure []
  | cons cell cells ih =>
    obtain ⟨hcell, hcells⟩ := List.forall_mem_cons.1 h
    exact Reads.bind (hd.reads_lenencString hcell) ((ih hcells).bind_pure (cell :: ·))

theorem takes_cells (n : Nat) : ∀ s cells s', readCells n s = (.ok cells, s') →
    cells.length = n ∧ (rest s').length+(cells.flatMap lenencBytes).length ≤ (rest s).length := by
  induction n with
  | zero =>
    intro s cells s' h
    cases h
    exact ⟨rfl, by simp⟩
  | succ n ih =>
    intro s cells s' h
    obtain ⟨cell, t, hcell, hnext⟩ := Sys.bind_eq_ok h
    obtain ⟨cells', t', hcells, hend⟩ := Sys.bind_eq_ok hnext
    cases hend
    obtain ⟨hlen, htake⟩ := ih t cells' _ hcells
    have htake' := hd.takes_lenencString s cell t hcell
    simp only at htake'
    refine ⟨by rw [List.length_cons, hlen], ?_⟩
    rw [List.flatMap_cons, List.length_append]
    omega

theorem reads_row {row : List Bytes} (hrow : row.length < 2^63)
    (hcells : ∀ cell ∈ row, cell.length < 2^63) :
    Reads rest (readNextRow : Sys σ _) (binaryRow row.length row) (true, row) := by
  intro s tail hs
  have hsize : (UInt64.ofNat row.length).toNat = row.length := by
    rw [UInt64.toNat_ofNat']
    omega
  have hpos := length_varUIntBytes_pos (UInt64.ofNat row.length)
  have hmore : (rest s).isEmpty = false := by
    rw [hs, binaryRow, List.isEmpty_eq_false_iff]
    intro hnil
    simp only [List.append_eq_nil_iff] at hnil
    rw [hnil.1.1] at hpos
    exact absurd hpos (lt_irrefl 0)
  obtain ⟨s', heof, hs'⟩ := hd.eof s
  rw [hmore] at heof
  have hread : Reads rest (readVarUInt >>= fun row_size => readCells row_size.toNat >>= fun cells =>
      pure (true, cells) : Sys σ (Bool × List Bytes)) (binaryRow row.length row) (true, row) := by
    refine Reads.bind (hd.reads_varUInt _) ?_
    rw [hsize]
    exact (reads_cells hd hcells).bind_pure (true, ·)
  obtain ⟨u, hok, hu⟩ := hread s' tail (hs'.trans hs)
  exact ⟨u, (Sys.bind_of_ok heof).trans hok, hu⟩

/-- A row that is read has taken the bytes that would be written for the whole of it. -/
theorem takes_row {s s' : σ} {row : List Bytes}
    (h : (readNextRow : Sys σ _) s = (.ok (true, row), s')) :
    (rest s').length+(binaryRow row.length row).length ≤ (rest s).length := by
  obtain ⟨ended, t, heof, hnext⟩ := Sys.bind_eq_ok h
  obtain ⟨t', heof', hrest⟩ := hd.eof s
  rw [heof'] at heof
  cases heof
  split at hnext
  · cases hnext
  · obtain ⟨size, u, hsize, hmore⟩ := Sys.bind_eq_ok hnext
    obtain ⟨cells, u', hcells, hend⟩ := Sys.bind_eq_ok hmore
    cases hend
    obtain ⟨hlen, htake⟩ := takes_cells hd _ _ _ _ hcells
    have htake' := hd.takes_varUInt _ _ _ hsize
    simp only [hrest] at htake'
    rw [binaryRow, hlen, UInt64.ofNat_toNat, List.length_append]
    omega

theorem end_of_rows {s : σ} (hs : rest s = []) :
    ∃ row s', (readNextRow : Sys σ _) s = (.ok (false, row), s') := by
  obtain ⟨s', heof, -⟩ := hd.eof s
  rw [hs] at heof
  exact ⟨[], s', Sys.bind_of_ok heof⟩

end BinaryCSVInputStream

/-- The bytes that are written for the rows, one after the other. -/
def BinaryCSVOutputStream.written (rows : List (List Bytes)) : Bytes :=
  (rows.foldl BinaryCSVOutputStream.appendRow (.fromString [])).str_

theorem written_eq {rows : List (List Bytes)} (h : InMemory rows) :
    BinaryCSVOutputStream.written rows =
      rows.flatMap fun row => binaryRow row.length (row.take (2^31)) := by
  have hrows : ∀ (rows : List (List Bytes)) (out : StringOutputStream), InMemory rows →
      (rows.foldl BinaryCSVOutputStream.appendRow out).str_ =
        out.str_ ++ rows.flatMap fun row => binaryRow row.length (row.take (2^31)) := by
    intro rows
    induction rows with
    | nil => simp
    | cons row rows ih =>
      intro out h
      obtain ⟨hrow, hrows⟩ := List.forall_mem_cons.1 h
      rw [List.foldl_cons, ih _ hrows, str_appendRow hrow.1, List.flatMap_cons, List.append_assoc]
  exact hrows rows _ h

open BinaryCSVInputStream

/-- What comes back has been written as far as it was read. -/
theorem length_le_of_read_back {rows : List (List Bytes)} (h : InMemory rows)
    (hread : (readRows readNextRow
      (StringInputStream.fromString (BinaryCSVOutputStream.written rows))).1 = .ok rows) :
    ∀ row ∈ rows, row.length ≤ 2^31 := by
  intro row hrow
  have hrest := (StringInputStream.unread_fromString _).trans (written_eq h)
  have hsplit := fun row : List Bytes => length_binaryRow row.length (2^31) row
  have hcost := cost_le_of_written (fun s row s' h => takes_row StringInputStream.delivers h) hrest
    (fun row _ => Nat.le.intro (hsplit row).symm) (Prod.ext hread rfl) row hrow
  have hdropped := length_le_flatMap_lenencBytes (row.drop (2^31))
  have hrow := hsplit row
  rw [List.length_drop] at hdropped
  omega

/-- Rows are read back exactly as far as the index of their cells is an `int`: of more than 2^31
cells the others are not written. -/
theorem binary_rows_read_back_iff {rows : List (List Bytes)} (h : InMemory rows) :
    (readRows readNextRow
      (StringInputStream.fromString (BinaryCSVOutputStream.written rows))).1 = .ok rows ↔
      ∀ row ∈ rows, row.length ≤ 2^31 := by
  constructor
  · exact length_le_of_read_back h
  · intro hall
    have hrest := (StringInputStream.unread_fromString _).trans (written_eq h)
    have htake : ∀ row ∈ rows, binaryRow row.length (row.take (2^31)) = binaryRow row.length row :=
      fun row hrow => by rw [List.take_of_length_le (hall row hrow)]
    rw [List.flatMap_congr htake] at hrest
    refine readRows_eq StringInputStream.delivers (fun row _ => ?_)
      (fun row hrow => reads_row StringInputStream.delivers (h row hrow).1 (h row hrow).2)
      (fun s => end_of_rows StringInputStream.delivers) hrest
    have hpos := length_varUIntBytes_pos (UInt64.ofNat row.length)
    rw [binaryRow, List.length_append]
    omega

/-- An empty row, one of two empty cells, and one of a single byte. -/
theorem binary_rows_read_back_three : InMemory [[], [[], []], [[255]]] ∧
    (readRows readNextRow (StringInputStream.fromString
      (BinaryCSVOutputStream.written [[], [[], []], [[255]]]))).1 =
        .ok [[], [[], []], [[255]]] := by
  have h : InMemory [[], [[], []], [[255]]] := by
    unfold InMemory
    decide
  exact ⟨h, (binary_rows_read_back_iff h).2 (by decide)⟩

/-- Of one cell too many the last one is not written. -/
theorem binary_rows_cut_off : ¬∀ rows : List (List Bytes), InMemory rows →
    (readRows readNextRow
      (StringInputStream.fromString (BinaryCSVOutputStream.written rows))).1 = .ok rows := by
  intro hall
  have hmemory : InMemory [List.replicate (2^31+1) []] := by
    intro row hrow
    rw [List.mem_singleton] at hrow
    subst hrow
    refine ⟨by rw [List.length_replicate]; decide, fun cell hcell => ?_⟩
    rw [List.eq_of_mem_replicate hcell]
    decide
  have hle := length_le_of_read_back hmemory (hall _ hmemory) _ (List.mem_singleton_self _)
  rw [List.length_replicate] at hle
  exact absurd hle (by decide)

end Stx.Csv
