import Stx.Io.InputStream
import Mathlib.Algebra.Order.BigOperators.Group.List

/-! `csv/CSVInputStream.{h,cc}`. -/
namespace Stx.Csv
open Io RewindableInputStream
variable {σ : Type} [RewindableInputStream σ]

/- What a caller does: `while (readNextRow(&row))`. -/
def readRowsLoop (readNextRow : Sys σ (Bool × List Bytes)) : Nat → Sys σ (List (List Bytes))
  | 0 => Sys.reads fun _ => .diverge
  | fuel+1 => do
    let (more, row) ← readNextRow
    if more then return row :: (← readRowsLoop readNextRow fuel) else return []

/-- The rows up to the first call that returns false. -/
def readRows (readNextRow : Sys σ (Bool × List Bytes)) : Sys σ (List (List Bytes)) := fun s =>
  readRowsLoop readNextRow (bytesLeft s+1) s

/-- The characters of a `DefaultCSVInputStream`; the stream is the state of its calls. -/
structure DefaultCSVInputStream where
  column_separator_ : UInt8
  row_separator_ : UInt8
  quote_char_ : UInt8

namespace DefaultCSVInputStream
variable (csv : DefaultCSVInputStream)

/- The inner loop, to the byte that ends the column; there is none at the end of the stream. -/
def readColumnLoop : Nat → Bool → Bytes → Sys σ (Option UInt8 × Bytes)
  | 0, _, _ => Sys.reads fun _ => .diverge
  | fuel+1, quoted, column => do
    match ← readNextByte with
    | none => return (none, column)
    | some byte =>
      if quoted = false ∧ byte = csv.column_separator_ then return (some byte, column)
      else if quoted = false ∧ byte = csv.row_separator_ then return (some byte, column)
      else if byte = csv.quote_char_ then readColumnLoop fuel (!quoted) column
      else readColumnLoop fuel quoted (column ++ [byte])

def readColumn : Sys σ (Option UInt8 × Bytes) := fun s =>
  csv.readColumnLoop (bytesLeft s+1) false [] s

def readNextRowLoop : Nat → List Bytes → Sys σ (Bool × List Bytes)
  | 0, _ => Sys.reads fun _ => .diverge
  | fuel+1, target => do
    let (byte, column) ← csv.readColumn
    if byte = none ∨ byte = some csv.row_separator_ then
      return (byte.isSome, target ++ [column])
    else readNextRowLoop fuel (target ++ [column])

/-- The row is there also where false is returned, with what stood behind the last row. -/
def readNextRow : Sys σ (Bool × List Bytes) := fun s => csv.readNextRowLoop (bytesLeft s+1) [] s

end DefaultCSVInputStream

section rows
variable {τ : Type} {rest : τ → Bytes} {next : Sys τ (Bool × List Bytes)}

/-- The writer's rows come back one by one. -/
theorem readRowsLoop_eq (text : List Bytes → Bytes) {rows : List (List Bytes)}
    (hnext : ∀ row ∈ rows, Reads rest next (text row) (true, row))
    (hend : ∀ s, rest s = [] → ∃ row s', next s = (.ok (false, row), s'))
    {fuel : Nat} {s : τ} (hfuel : rows.length < fuel) (hs : rest s = rows.flatMap text) :
    ∃ t, readRowsLoop next fuel s = (.ok rows, t) := by
  induction rows generalizing fuel s with
  | nil =>
    obtain ⟨fuel, rfl⟩ := Nat.exists_eq_add_one.2 hfuel
    obtain ⟨row, s', hfalse⟩ := hend s hs
    exact ⟨s', Sys.bind_of_ok hfalse⟩
  | cons row rows ih =>
    rw [List.length_cons] at hfuel
    obtain ⟨fuel, rfl⟩ : ∃ k, fuel = k+1 := Nat.exists_eq_add_one.2 (by omega)
    rw [List.flatMap_cons] at hs
    obtain ⟨s', htrue, hs'⟩ := hnext row List.mem_cons_self s _ hs
    obtain ⟨t, hrows⟩ := ih (fun r hr => hnext r (List.mem_cons_of_mem _ hr))
      (Nat.lt_of_succ_lt_succ hfuel) hs'
    exact ⟨t, (Sys.bind_of_ok htrue).trans (Sys.bind_of_ok hrows)⟩

/-- What holds of every row that is read holds of the rows that are returned, and together they
have taken no more than there was. -/
theorem of_readRowsLoop (inv : τ → Prop) (P : List Bytes → Prop) {cost : List Bytes → Nat}
    (hnext : ∀ s row s', inv s → next s = (.ok (true, row), s') →
      inv s' ∧ P row ∧ (rest s').length+cost row ≤ (rest s).length)
    {fuel : Nat} {rows : List (List Bytes)} {s t : τ} (hs : inv s)
    (h : readRowsLoop next fuel s = (.ok rows, t)) :
    (∀ row ∈ rows, P row) ∧ (rows.map cost).sum ≤ (rest s).length := by
  induction fuel generalizing rows s t with
  | zero => cases h
  | succ fuel ih =>
    rw [readRowsLoop] at h
    obtain ⟨⟨more, row⟩, s', hrow, hmore⟩ := Sys.bind_eq_ok h
    cases more with
    | false =>
      cases hmore
      exact ⟨List.forall_mem_nil _, Nat.zero_le _⟩
    | true =>
      obtain ⟨hs', hP, hcost⟩ := hnext s row s' hs hrow
      obtain ⟨rows', t', hloop, hend⟩ := Sys.bind_eq_ok hmore
      obtain ⟨hall, hsum⟩ := ih hs' hloop
      cases hend
      refine ⟨List.forall_mem_cons.2 ⟨hP, hall⟩, ?_⟩
      rw [List.map_cons, List.sum_cons]
      omega

/-- Rows that come back from what was written of them have been written as far as they were read. -/
theorem cost_le_of_written {cost : List Bytes → Nat} {text : List Bytes → Bytes}
    (hnext : ∀ s row s', next s = (.ok (true, row), s') →
      (rest s').length+cost row ≤ (rest s).length)
    {fuel : Nat} {rows : List (List Bytes)} {s t : τ}
    (hrest : rest s = rows.flatMap text) (hle : ∀ row ∈ rows, (text row).length ≤ cost row)
    (h : readRowsLoop next fuel s = (.ok rows, t)) :
    ∀ row ∈ rows, cost row ≤ (text row).length := by
  have hsum := (of_readRowsLoop (fun _ => True) (fun _ => True)
    (fun s row s' _ hrow => ⟨trivial, trivial, hnext s row s' hrow⟩) trivial h).2
  rw [hrest, List.length_flatMap] at hsum
  by_contra hall
  push Not at hall
  exact absurd (List.sum_lt_sum _ _ hle hall) (not_lt.2 hsum)

theorem readRows_eq {rest : σ → Bytes} (hd : Delivers rest) {next : Sys σ (Bool × List Bytes)}
    {text : List Bytes → Bytes} {rows : List (List Bytes)}
    (hpos : ∀ row ∈ rows, 1 ≤ (text row).length)
    (hnext : ∀ row ∈ rows, Reads rest next (text row) (true, row))
    (hend : ∀ s, rest s = [] → ∃ row s', next s = (.ok (false, row), s'))
    {s : σ} (hs : rest s = rows.flatMap text) : (readRows next s).1 = .ok rows := by
  have hfuel : rows.length < bytesLeft s+1 := by
    have hsum := List.length_le_sum_of_one_le (rows.map fun row => (text row).length)
      (List.forall_mem_map.2 hpos)
    rw [List.length_map, ← List.length_flatMap, ← hs] at hsum
    exact Nat.lt_succ_of_le (hsum.trans (hd.length_le s))
  obtain ⟨t, hrows⟩ := readRowsLoop_eq text hnext hend hfuel hs
  rw [readRows, hrows]

end rows
end Stx.Csv
