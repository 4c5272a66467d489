import Stx.Lib.Rfc8259

/-! JSON pointers (RFC 6901) and the pointers to the scalars of a value. -/
namespace Rfc6901
open Rfc8259 (Json)

def escapeChar (c : UInt8) : List UInt8 :=
  if c = 126 then [126, 48] else if c = 47 then [126, 49] else [c]

def escape (token : List UInt8) : List UInt8 := token.flatMap escapeChar

/-- A pointer is given by its reference tokens. -/
abbrev Path := List (List UInt8)

def pointer (path : Path) : List UInt8 := path.flatMap fun token => 47 :: escape token

/-- The reference token of an element. -/
def index (i : Nat) : List UInt8 := (Nat.toDigits 10 i).map fun c => c.toNat.toUInt8

theorem slash_not_mem_escape (token : List UInt8) : 47 ∉ escape token := by
  intro h
  obtain ⟨c, -, hc⟩ := List.mem_flatMap.1 h
  unfold escapeChar at hc
  split at hc
  · revert hc
    decide
  · split at hc
    · revert hc
      decide
    · next hslash => exact hslash (List.mem_singleton.1 hc).symm

theorem escapeChar_append_inj {c d : UInt8} {x y : List UInt8}
    (h : escapeChar c ++ x = escapeChar d ++ y) : c = d ∧ x = y := by
  unfold escapeChar at h
  grind

theorem escape_injective : Function.Injective escape := by
  intro s t h
  induction s generalizing t with
  | nil =>
    cases t with
    | nil => rfl
    | cons d t =>
      rw [escape, escape, List.flatMap_cons, List.flatMap_nil] at h
      unfold escapeChar at h
      grind
  | cons c s ih =>
    cases t with
    | nil =>
      rw [escape, escape, List.flatMap_cons, List.flatMap_nil] at h
      unfold escapeChar at h
      grind
    | cons d t =>
      rw [escape, escape, List.flatMap_cons, List.flatMap_cons] at h
      obtain ⟨rfl, hrest⟩ := escapeChar_append_inj h
      rw [ih hrest]

@[simp] theorem pointer_nil : pointer [] = [] := rfl

theorem pointer_cons (token : List UInt8) (path : Path) :
    pointer (token :: path) = 47 :: (escape token ++ pointer path) := rfl

theorem pointer_append_singleton (path : Path) (token : List UInt8) :
    pointer (path ++ [token]) = pointer path ++ 47 :: escape token := by
  simp [pointer]

/-- Up to the next slash there is one token. -/
theorem takeWhile_pointer (token : List UInt8) (path : Path) :
    (escape token ++ pointer path).takeWhile (· ≠ 47) = escape token := by
  rw [List.takeWhile_append_of_pos]
  · cases path <;> simp [pointer]
  · intro c hc
    have hne : c ≠ 47 := by
      rintro rfl
      exact slash_not_mem_escape token hc
    simpa using hne

/-- Different paths have different pointers. -/
theorem pointer_injective : Function.Injective pointer := by
  intro p q h
  induction p generalizing q with
  | nil =>
    cases q with
    | nil => rfl
    | cons t q => cases h
  | cons s p ih =>
    cases q with
    | nil => cases h
    | cons t q =>
      rw [pointer_cons, pointer_cons, List.cons.injEq] at h
      have htoken := congrArg (List.takeWhile (· ≠ 47)) h.2
      rw [takeWhile_pointer, takeWhile_pointer] at htoken
      obtain rfl := escape_injective htoken
      rw [ih (List.append_cancel_left h.2)]

section leaves
variable {σ ν : Type} (f : σ → List UInt8)

mutual
/-- The paths of the scalars in document order, with the keys as `f` reads them. -/
def leaves (path : Path) : Json σ ν → List Path
  | .null => [path]
  | .true => [path]
  | .false => [path]
  | .string _ => [path]
  | .number _ => [path]
  | .array elems => leavesElems path 0 elems
  | .object members => leavesMembers path members

def leavesElems (path : Path) (i : Nat) : List (Json σ ν) → List Path
  | [] => []
  | v :: elems => leaves (path ++ [index i]) v ++ leavesElems path (i+1) elems

def leavesMembers (path : Path) : List (σ × Json σ ν) → List Path
  | [] => []
  | (k, v) :: members => leaves (path ++ [f k]) v ++ leavesMembers path members
end

end leaves
end Rfc6901
