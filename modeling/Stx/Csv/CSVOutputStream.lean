import Stx.Io.OutputStream
import Stx.StringUtil

/-! `csv/CSVOutputStream.{h,cc}`, and the loop over the cells of a row. -/
namespace Stx.Csv
open Io StringUtil

/-- `for (int i = 0; i < row.size(); ++i)`, on the cells from `i` on. The index is compared as a
`size_t`, so that the loop ends when it becomes negative. -/
def eachCell {β : Type} (f : Int → Bytes → β → β) (size : Nat) : Int → List Bytes → β → β
  | _, [], b => b
  | i, cell :: cells, b =>
    if (i % 2^64).toNat < size then eachCell f size (toInt (i+1)) cells (f i cell b) else b

/-- `CSVOutputStream`, with its separators. -/
structure CSVOutputStream where
  output_ : StringOutputStream
  col_sep_ : Bytes
  row_sep_ : Bytes

def CSVOutputStream.appendRow (csv : CSVOutputStream) (row : List Bytes) : CSVOutputStream :=
  let buf := eachCell (fun i cell buf => (if 0 < i then buf ++ csv.col_sep_ else buf) ++ cell)
    row.length 0 row []
  { csv with output_ := csv.output_.write (buf ++ csv.row_sep_) }

/-- Vectors and strings are blocks of memory. -/
def InMemory (rows : List (List Bytes)) : Prop :=
  ∀ row ∈ rows, row.length < 2^63 ∧ ∀ cell ∈ row, cell.length < 2^63

/-- Of the first 2^31 cells the index is what it counts. -/
theorem eachCell_eq {β : Type} (f : Int → Bytes → β → β) {i size : Nat} {cells : List Bytes} (b : β)
    (hi : i ≤ 2^31) (hsize : i+cells.length = size) (hlt : size < 2^63) :
    eachCell f size (toInt i) cells b =
      ((cells.take (2^31-i)).zipIdx i).foldl (fun b c => f c.2 c.1 b) b := by
  induction cells generalizing i b with
  | nil => simp [eachCell]
  | cons cell cells ih =>
    rw [List.length_cons] at hsize
    rw [eachCell]
    by_cases hend : i = 2^31
    · have hneg : ¬(toInt i % 2^64).toNat < size := by
        rw [hend, toInt]
        omega
      rw [if_neg hneg, hend, Nat.sub_self, List.take_zero]
      rfl
    · have hint : toInt i = i := toInt_of_lt (by omega)
      have htake : 2^31-i = 2^31-(i+1)+1 := by omega
      have hnext : toInt ((i : Int)+1) = toInt ((i+1 : Nat) : Int) := by push_cast; rfl
      rw [hint, if_pos (by omega), hnext, ih _ (by omega) (by omega), htake, List.take_succ_cons,
        List.zipIdx_cons, List.foldl_cons]

theorem eachCell_row {β : Type} (f : Int → Bytes → β → β) {row : List Bytes} (b : β)
    (h : row.length < 2^63) : eachCell f row.length 0 row b =
      ((row.take (2^31)).zipIdx).foldl (fun b c => f c.2 c.1 b) b :=
  eachCell_eq f (i := 0) b (Nat.zero_le _) (Nat.zero_add _) h

end Stx.Csv
