import Mathlib.Data.List.Basic
import Mathlib.Tactic.Common

/-! A stream that arrives in chunks: where it is cut, and how what is left of it behind some
position is cut. -/
namespace Stx.Chunks
variable {α : Type*}

/-- The positions between chunks, with both ends of the stream. -/
def cuts : List (List α) → List Nat
  | [] => [0]
  | c :: cs => 0 :: (cuts cs).map (c.length+·)

/-- The chunks of what is left behind the first `n` elements. A chunk that ends there leaves
an empty one. -/
def drop : Nat → List (List α) → List (List α)
  | _, [] => []
  | n, c :: cs => if n ≤ c.length then c.drop n :: cs else drop (n-c.length) cs

attribute [local simp] cuts drop

theorem zero_mem_cuts (cs : List (List α)) : 0 ∈ cuts cs := by
  cases cs <;> simp

theorem mem_cuts_cons {c : List α} {cs : List (List α)} {n : Nat} :
    n ∈ cuts (c :: cs) ↔ n = 0 ∨ ∃ m ∈ cuts cs, n = c.length+m := by
  simp only [cuts, List.mem_cons, List.mem_map, eq_comm]

theorem exists_split {cs : List (List α)} {n : Nat} (h : n ∈ cuts cs) :
    ∃ a b, cs = a ++ b ∧ a.flatten.length = n := by
  induction cs generalizing n with
  | nil => exact ⟨[], [], rfl, by simpa [eq_comm] using h⟩
  | cons c cs ih =>
    rcases mem_cuts_cons.1 h with rfl | ⟨m, hm, rfl⟩
    · exact ⟨[], c :: cs, rfl, rfl⟩
    · obtain ⟨a, b, rfl, ha⟩ := ih hm
      exact ⟨c :: a, b, rfl, by simp [ha]⟩

/-- The chunks in front of a cut. -/
theorem mem_cuts_iff {cs : List (List α)} {n : Nat} :
    n ∈ cuts cs ↔ ∃ a, a <+: cs ∧ a.flatten.length = n := by
  constructor
  · intro h
    obtain ⟨a, b, rfl, ha⟩ := exists_split h
    exact ⟨a, List.prefix_append a b, ha⟩
  · rintro ⟨a, ⟨b, rfl⟩, rfl⟩
    induction a with
    | nil => exact zero_mem_cuts b
    | cons c a ih =>
      rw [List.flatten_cons, List.length_append]
      exact mem_cuts_cons.2 (.inr ⟨_, ih, rfl⟩)

/-- A position that is no cut lies inside a chunk. -/
theorem exists_across {cs : List (List α)} {n : Nat} (h : n ∉ cuts cs)
    (hle : n ≤ cs.flatten.length) :
    ∃ a c b, cs = a ++ c :: b ∧ a.flatten.length < n ∧ n < a.flatten.length+c.length := by
  induction cs generalizing n with
  | nil => exact absurd hle (by simpa [Nat.pos_iff_ne_zero] using h)
  | cons c cs ih =>
    rw [mem_cuts_cons, not_or] at h
    by_cases hn : n < c.length
    · exact ⟨[], c, cs, rfl, Nat.pos_of_ne_zero h.1, by simpa using hn⟩
    · have hmem : n-c.length ∉ cuts cs := fun hm => h.2 ⟨_, hm, by omega⟩
      have hle' : n-c.length ≤ cs.flatten.length := by
        rw [List.flatten_cons, List.length_append] at hle
        omega
      obtain ⟨a, c', b, rfl, hlt, hgt⟩ := ih hmem hle'
      refine ⟨c :: a, c', b, rfl, ?_, ?_⟩
      · rw [List.flatten_cons, List.length_append]
        omega
      · rw [List.flatten_cons, List.length_append]
        omega

@[simp] theorem drop_zero (cs : List (List α)) : drop 0 cs = cs := by
  cases cs <;> simp

theorem flatten_drop (n : Nat) (cs : List (List α)) :
    (drop n cs).flatten = cs.flatten.drop n := by
  induction cs generalizing n with
  | nil => simp
  | cons c cs ih =>
    unfold drop
    split
    · next h => rw [List.flatten_cons, List.flatten_cons, List.drop_append_of_le_length h]
    · next h =>
      rw [ih, List.flatten_cons, List.drop_append]
      simp [List.drop_eq_nil_of_le (Nat.le_of_not_le h)]

theorem drop_drop (m n : Nat) (cs : List (List α)) : drop n (drop m cs) = drop (m+n) cs := by
  induction cs generalizing m with
  | nil => rfl
  | cons c cs ih =>
    by_cases hm : m ≤ c.length
    · by_cases hn : m+n ≤ c.length
      · have hn' : n ≤ c.length-m := by omega
        simp [hm, hn, hn']
      · have hn' : ¬n ≤ c.length-m := by omega
        have hsub : n-(c.length-m) = m+n-c.length := by omega
        simp [hm, hn, hn', hsub]
    · have hn : ¬m+n ≤ c.length := by omega
      have hsub : m-c.length+n = m+n-c.length := by omega
      simp [hm, hn, ih, hsub]

/-- Behind a cut, the rest is cut where the stream is. -/
theorem mem_cuts_drop {m n : Nat} {cs : List (List α)} (hn : 0 < n) :
    n ∈ cuts (drop m cs) ↔ m+n ∈ cuts cs := by
  induction cs generalizing m with
  | nil => simp; omega
  | cons c cs ih =>
    by_cases hm : m ≤ c.length
    · rw [drop, if_pos hm, mem_cuts_cons, mem_cuts_cons, List.length_drop]
      constructor
      · rintro (h | ⟨k, hk, h⟩)
        · omega
        · exact .inr ⟨k, hk, by omega⟩
      · rintro (h | ⟨k, hk, h⟩)
        · omega
        · exact .inr ⟨k, hk, by omega⟩
    · rw [drop, if_neg hm, ih, mem_cuts_cons]
      constructor
      · exact fun h => .inr ⟨_, h, by omega⟩
      · rintro (h | ⟨k, hk, h⟩)
        · omega
        · rwa [show m-c.length+n = k by omega]

/-- Where the first chunk ends: behind the delimiter of the first token, or inside the token. -/
theorem first_cases {d : α} {c rest tok s : List α} (hfree : d ∉ tok)
    (h : c ++ rest = tok ++ d :: s) :
    (∃ r, c = tok ++ d :: r) ∨ (d ∉ c ∧ ∃ tok', tok = c ++ tok' ∧ rest = tok' ++ d :: s) := by
  rcases List.append_eq_append_iff.1 h with ⟨tok', rfl, hrest⟩ | ⟨c', rfl, hrest⟩
  · exact .inr ⟨fun hd => hfree (List.mem_append_left tok' hd), tok', rfl, hrest⟩
  · cases c' with
    | nil =>
      rw [List.append_nil]
      exact .inr ⟨hfree, [], (List.append_nil tok).symm, hrest.symm⟩
    | cons x r =>
      cases (List.cons.inj hrest).1
      exact .inl ⟨r, rfl⟩

end Stx.Chunks
