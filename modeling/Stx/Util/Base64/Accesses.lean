import Stx.Util.Base64
import Stx.Lib.Traces

/-! The bytes that `Base64::encode` looks at: the function once more, over a memory without an end,
with a note of every index that is read, in the order of the source. -/
namespace Stx.Base64

/-- A sum of type `size_t`. -/
def add (a b : Nat) : Nat := (a+b) % 2^64

section
variable (s : Nat → UInt8)

def look (i : Nat) : Traced Nat UInt8 := ⟨s i, [i]⟩

/-- The body of the loop. -/
def lookTurn (i : Nat) : Traced Nat Bytes := do
  let w ← sextet₀ <$> look s i
  let a ← look s i
  let x ← sextet₁ a <$> look s (add i 1)
  let b ← look s (add i 1)
  let y ← sextet₂ b <$> look s (add i 2)
  let z ← sextet₃ <$> look s (add i 2)
  pure [digit w, digit x, digit y, digit z]

def lookTail (len i : Nat) : Traced Nat Bytes :=
  if i < len then do
    let w ← sextet₀ <$> look s i
    if i = sub len 1 then
      let a ← look s i
      pure [digit w, digit ((a &&& 0x3) <<< 4), 61, 61]
    else
      let a ← look s i
      let x ← sextet₁ a <$> look s (add i 1)
      let b ← look s (add i 1)
      pure [digit w, digit x, digit ((b &&& 0xf) <<< 2), 61]
  else pure []

/-- The loop from `i` on, and what is behind it. Nothing is written when the loop is not over after
so many turns. -/
def lookLoop (len : Nat) : Nat → Nat → Traced Nat (Option Bytes)
  | turns, i =>
    if i < sub len 2 then
      match turns with
      | 0 => pure none
      | turns+1 => do
        let group ← lookTurn s i
        (Option.map (group ++ ·)) <$> lookLoop len turns (add i 3)
    else some <$> lookTail s len i

/-- The loop is over after no more turns than there are groups of three, and one, and no index is
behind the bytes. -/
def InBounds (size : Nat) : Prop :=
  (lookLoop s size (size/3+1) 0).value.isSome ∧ (lookLoop s size (size/3+1) 0).All (· < size)

/-- The bytes from `i` on. -/
def bytes (i size : Nat) : Bytes := (List.range' i size).map s

variable {s}

theorem bytes_succ (i size : Nat) : bytes s i (size+1) = s i :: bytes s (i+1) size := by
  rw [bytes, List.range'_succ, List.map_cons, ← bytes]

theorem length_bytes (i size : Nat) : (bytes s i size).length = size := by
  rw [bytes, List.length_map, List.length_range']

theorem add_of_lt {a b : Nat} (h : a+b < 2^64) : add a b = a+b := Nat.mod_eq_of_lt h

theorem sub_of_le {a b : Nat} (h : b ≤ a) (ha : a < 2^64) : sub a b = a-b := by
  unfold sub
  omega

theorem lookTurn_value {i : Nat} (h : i+2 < 2^64) :
    (lookTurn s i).value = [digit (sextet₀ (s i)), digit (sextet₁ (s i) (s (i+1))),
      digit (sextet₂ (s (i+1)) (s (i+2))), digit (sextet₃ (s (i+2)))] := by
  have hone : add i 1 = i+1 := add_of_lt (by omega)
  have htwo : add i 2 = i+2 := add_of_lt h
  simp [lookTurn, look, hone, htwo]

theorem lookTurn_all {i len : Nat} (h : i+2 < 2^64) : (lookTurn s i).All (· < len) ↔ i+2 < len := by
  have hone : add i 1 = i+1 := add_of_lt (by omega)
  have htwo : add i 2 = i+2 := add_of_lt h
  have hreads : (lookTurn s i).All (· < len) ↔ i < len ∧ i+1 < len ∧ i+2 < len := by
    simp [lookTurn, look, hone, htwo]
  rw [hreads]
  omega

/-- Behind the last group the bytes that are left are written, and nothing behind them is read. -/
theorem lookTail_spec {len i : Nat} (hlt : len < 2^64) :
    encodeTail len i (bytes s i (len-i)) = some (lookTail s len i).value ∧
      (lookTail s len i).All (· < len) := by
  unfold encodeTail lookTail
  by_cases hi : i < len
  · rw [if_pos hi, if_pos hi, sub_of_le (by omega) hlt]
    obtain ⟨n, hn⟩ : ∃ n, len-i = n+1 := ⟨len-i-1, by omega⟩
    rw [hn, bytes_succ]
    by_cases hlast : i = len-1
    · simp only [if_pos hlast]
      exact ⟨rfl, by simp [look, hi]⟩
    · have hone : add i 1 = i+1 := add_of_lt (by omega)
      have hnext : i+1 < len := by omega
      obtain ⟨m, rfl⟩ : ∃ m, n = m+1 := ⟨n-1, by omega⟩
      simp only [if_neg hlast, bytes_succ, hone]
      exact ⟨rfl, by simp [look, hi, hnext]⟩
  · rw [if_neg hi, if_neg hi]
    exact ⟨rfl, Traced.all_pure _⟩

theorem lookLoop_end {len i : Nat} (h : ¬i < sub len 2) (turns : Nat) :
    lookLoop s len turns i = some <$> lookTail s len i := by
  unfold lookLoop
  rw [if_neg h]

theorem lookLoop_turn {len i : Nat} (h : i < sub len 2) (turns : Nat) :
    lookLoop s len (turns+1) i =
      lookTurn s i >>= fun group =>
        (Option.map (group ++ ·)) <$> lookLoop s len turns (add i 3) := by
  rw [lookLoop, if_pos h]

/-- One turn for every group of three is enough, and the loop is the one over the bytes. -/
theorem lookLoop_spec {len turns i : Nat} (h2 : 2 ≤ len) (hlt : len < 2^64)
    (hturns : len ≤ i+3*turns+2) :
    (lookLoop s len turns i).value = encodeLoop len i (bytes s i (len-i)) ∧
      (lookLoop s len turns i).All (· < len) := by
  have hsub : sub len 2 = len-2 := sub_of_le h2 hlt
  induction turns generalizing i with
  | zero =>
    have hend : ¬i < sub len 2 := by omega
    obtain ⟨hvalue, hall⟩ := @lookTail_spec s len i hlt
    unfold encodeLoop
    rw [lookLoop_end hend, if_neg hend, hvalue]
    exact ⟨rfl, Traced.all_map.2 hall⟩
  | succ turns ih =>
    by_cases hi : i < sub len 2
    · have hgroup : bytes s i (len-i) = s i :: s (i+1) :: s (i+2) :: bytes s (i+3) (len-(i+3)) := by
        obtain ⟨n, hn⟩ : ∃ n, len-i = n+3 := ⟨len-i-3, by omega⟩
        have hrest : len-(i+3) = n := by omega
        rw [hn, hrest, bytes_succ, bytes_succ, bytes_succ]
      have hnext : add i 3 = i+3 := add_of_lt (by omega)
      obtain ⟨hvalue, hall⟩ := ih (i := i+3) (by omega)
      have hturn := @lookTurn_value s i (by omega)
      unfold encodeLoop
      rw [lookLoop_turn hi, if_pos hi, hgroup, hnext, Traced.value_bind, Traced.value_map, hvalue,
        hturn, Traced.all_bind, Traced.all_map]
      exact ⟨rfl, (lookTurn_all (by omega)).2 (by omega), hall⟩
    · obtain ⟨hvalue, hall⟩ := @lookTail_spec s len i hlt
      unfold encodeLoop
      rw [lookLoop_end hi, if_neg hi, hvalue]
      exact ⟨rfl, Traced.all_map.2 hall⟩

/-- Of less than two bytes, the loop reads a whole group. -/
theorem two_le_of_inBounds {size : Nat} (h : InBounds s size) : 2 ≤ size := by
  obtain ⟨-, hall⟩ := h
  by_contra hless
  have hsub : 0 < sub size 2 := by
    unfold sub
    omega
  rw [lookLoop_turn hsub, Traced.all_bind, lookTurn_all (by decide)] at hall
  omega

theorem inBounds_of_two_le {size : Nat} (h2 : 2 ≤ size) (hlt : size < 2^64) : InBounds s size := by
  obtain ⟨hvalue, hall⟩ := @lookLoop_spec s size (size/3+1) 0 h2 hlt (by omega)
  refine ⟨?_, hall⟩
  rw [hvalue, encodeLoop_eq (by rw [length_bytes]; omega) h2 hlt]
  rfl

variable (s) in
/-- The function over the bytes alone gives up where the one over the memory leaves them. -/
theorem encode_isSome_iff {size : Nat} (hlt : size < 2^64) :
    (encode (bytes s 0 size)).isSome ↔ InBounds s size := by
  by_cases h2 : 2 ≤ size
  · rw [encode_eq (by rwa [length_bytes]) (by rwa [length_bytes])]
    simp [inBounds_of_two_le h2 hlt]
  · have hsub : 0 < sub size 2 := by
      unfold sub
      omega
    have hnone : encode (bytes s 0 size) = none := by
      unfold encode encodeLoop
      rw [length_bytes, if_pos hsub]
      obtain rfl | rfl : size = 0 ∨ size = 1 := by omega
      · rfl
      · rfl
    simp only [hnone, Option.isSome_none, Bool.false_eq_true, false_iff]
    exact fun hin => h2 (two_le_of_inBounds hin)

variable (s) in
theorem inBounds_iff {size : Nat} (hlt : size < 2^64) : InBounds s size ↔ 2 ≤ size :=
  ⟨two_le_of_inBounds, fun h2 => inBounds_of_two_le h2 hlt⟩

theorem inBounds_iff_at_three_bytes : InBounds (fun _ => 0) 3 :=
  (inBounds_iff _ (by decide)).2 (by decide)

/-- There is no first byte, and it is read. -/
theorem no_bytes_not_inBounds : ¬InBounds (fun _ => 0) 0 :=
  fun h => absurd (two_le_of_inBounds h) (by decide)

end
end Stx.Base64
