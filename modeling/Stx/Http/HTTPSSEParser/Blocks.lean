import Stx.Http.HTTPSSEParser

/-! The parser on texts: a text is cut into line ends and other characters, two line ends in a row end
a block, and a block is an event. -/
namespace Stx.Http.HTTPSSEParser
open StringUtil

/-- A line end in front of `rest`. A carriage return takes a line feed with it. -/
def LineEnd (le rest : Bytes) : Prop :=
  le = [10] ∨ le = [13, 10] ∨ le = [13] ∧ rest.head? ≠ some 10

theorem LineEnd.length_pos {le rest : Bytes} (h : LineEnd le rest) : 0 < le.length := by
  obtain rfl | rfl | ⟨rfl, -⟩ := h <;> decide

/-- Another text may follow, unless it alone begins with a line feed. -/
theorem LineEnd.before {le rest rest' : Bytes} (h : LineEnd le rest)
    (hhead : rest'.head? = some 10 → rest.head? = some 10) : LineEnd le rest' := by
  obtain rfl | rfl | ⟨rfl, hne⟩ := h
  · exact .inl rfl
  · exact .inr (.inl rfl)
  · exact .inr (.inr ⟨rfl, fun heq => hne (hhead heq)⟩)

/-- The beginning of what follows is enough. -/
theorem LineEnd.take {le rest : Bytes} (h : LineEnd le rest) {n : Nat} (hn : 0 < n) :
    LineEnd le (rest.take n) := by
  refine h.before fun heq => ?_
  rwa [List.head?_take, if_neg (Nat.ne_of_gt hn)] at heq

/-- What follows may be longer, as long as a lone carriage return does not meet a line feed. -/
theorem LineEnd.append {le rest : Bytes} (h : LineEnd le rest) (more : Bytes)
    (hmore : le = [13] → rest = [] → more.head? ≠ some 10) : LineEnd le (rest ++ more) := by
  obtain rfl | rfl | ⟨rfl, hhead⟩ := h
  · exact .inl rfl
  · exact .inr (.inl rfl)
  · refine .inr (.inr ⟨rfl, ?_⟩)
    cases rest with
    | nil => exact hmore rfl rfl
    | cons c rest => exact hhead

/-- A text goes on with a line end or with another character. -/
@[elab_as_elim]
theorem text_induction {motive : Bytes → Prop} (s : Bytes) (nil : motive [])
    (lineEnd : ∀ le rest, LineEnd le rest → motive rest → motive (le ++ rest))
    (char : ∀ c rest, c ≠ 10 → c ≠ 13 → motive rest → motive (c :: rest)) : motive s := by
  generalize hn : s.length = n
  induction n using Nat.strong_induction_on generalizing s with
  | _ n ih =>
    have hshorter : ∀ rest : Bytes, rest.length < s.length → motive rest :=
      fun rest hlt => ih rest.length (hn ▸ hlt) rest rfl
    match s with
    | [] => exact nil
    | c :: rest =>
      by_cases hlf : c = 10
      · subst hlf
        exact lineEnd [10] rest (.inl rfl) (hshorter rest (Nat.lt_succ_self _))
      · by_cases hcr : c = 13
        · subst hcr
          by_cases hhead : rest.head? = some 10
          · obtain ⟨rest, rfl⟩ : ∃ r, rest = 10 :: r := by
              cases rest with
              | nil => cases hhead
              | cons d r => exact ⟨r, by rw [Option.some.inj hhead]⟩
            refine lineEnd [13, 10] rest (.inr (.inl rfl)) (hshorter rest ?_)
            simp only [List.length_cons]
            omega
          · exact lineEnd [13] rest (.inr (.inr ⟨rfl, hhead⟩)) (hshorter rest (Nat.lt_succ_self _))
        · exact char c rest hlf hcr (hshorter rest (Nat.lt_succ_self _))

/-- The bytes up to the second of two line ends in a row; `ended` says that one is behind us. -/
def blockEnd : Bool → Bytes → Option Nat
  | _, [] => none
  | ended, 13 :: 10 :: rest => if ended then some 2 else (blockEnd true rest).map (·+2)
  | ended, c :: rest =>
    if c = 10 ∨ c = 13 then if ended then some 1 else (blockEnd true rest).map (·+1)
    else (blockEnd false rest).map (·+1)

theorem blockEnd_lineEnd {le rest : Bytes} (h : LineEnd le rest) (ended : Bool) :
    blockEnd ended (le ++ rest) =
      if ended then some le.length else (blockEnd true rest).map (·+le.length) := by
  obtain rfl | rfl | ⟨rfl, hhead⟩ := h
  · rw [List.singleton_append, blockEnd, if_pos (.inl rfl)]
    · rfl
    · rintro r ⟨⟩
  · exact blockEnd.eq_2 ended rest
  · rw [List.singleton_append, blockEnd, if_pos (.inr rfl)]
    · rfl
    · rintro r - rfl
      exact hhead rfl

theorem blockEnd_char {c : UInt8} (hlf : c ≠ 10) (hcr : c ≠ 13) (rest : Bytes) (ended : Bool) :
    blockEnd ended (c :: rest) = (blockEnd false rest).map (·+1) := by
  rw [blockEnd, if_neg (not_or.2 ⟨hlf, hcr⟩)]
  rintro r rfl -
  exact hcr rfl

/-- The lines of a block; `line` is behind us. -/
def lines : Bytes → Bytes → List Bytes
  | _, [] => []
  | line, 13 :: 10 :: rest => line :: lines [] rest
  | line, c :: rest => if c = 10 ∨ c = 13 then line :: lines [] rest else lines (line ++ [c]) rest

theorem lines_lineEnd {le rest : Bytes} (h : LineEnd le rest) (line : Bytes) :
    lines line (le ++ rest) = line :: lines [] rest := by
  obtain rfl | rfl | ⟨rfl, hhead⟩ := h
  · rw [List.singleton_append, lines, if_pos (.inl rfl)]
    rintro r ⟨⟩
  · exact lines.eq_2 line rest
  · rw [List.singleton_append, lines, if_pos (.inr rfl)]
    rintro r - rfl
    exact hhead rfl

theorem lines_char {c : UInt8} (hlf : c ≠ 10) (hcr : c ≠ 13) (line rest : Bytes) :
    lines line (c :: rest) = lines (line ++ [c]) rest := by
  rw [lines, if_neg (not_or.2 ⟨hlf, hcr⟩)]
  rintro r rfl -
  exact hcr rfl

/- Where a block ends. -/

theorem blockEnd_range {s : Bytes} {ended : Bool} {n : Nat} (h : blockEnd ended s = some n) :
    0 < n ∧ n ≤ s.length := by
  induction s using text_induction generalizing ended n with
  | nil => cases h
  | lineEnd le rest hle ih =>
    have hpos := hle.length_pos
    rw [blockEnd_lineEnd hle] at h
    rw [List.length_append]
    cases ended with
    | true =>
      obtain rfl := Option.some.inj h
      omega
    | false =>
      obtain ⟨m, hm, rfl⟩ := Option.map_eq_some_iff.1 h
      have hrange := ih hm
      omega
  | char c rest hlf hcr ih =>
    rw [blockEnd_char hlf hcr] at h
    obtain ⟨m, hm, rfl⟩ := Option.map_eq_some_iff.1 h
    have hrange := ih hm
    rw [List.length_cons]
    omega

/-- More text leaves a block as it is, but for a carriage return at the very end of the text that meets
a line feed. -/
theorem blockEnd_append {s : Bytes} {ended : Bool} {n : Nat} (more : Bytes)
    (h : blockEnd ended s = some n) :
    blockEnd ended (s ++ more) = some n ∨
      n = s.length ∧ (∃ before, s = before ++ [13]) ∧
        ∃ more', more = 10 :: more' ∧ blockEnd ended (s ++ more) = some (n+1) := by
  induction s using text_induction generalizing ended n with
  | nil => cases h
  | lineEnd le rest hle ih =>
    rw [blockEnd_lineEnd hle] at h
    rw [List.append_assoc]
    cases ended with
    | true =>
      obtain rfl := Option.some.inj h
      by_cases hmeet : le = [13] ∧ rest = [] ∧ more.head? = some 10
      · obtain ⟨rfl, rfl, hhead⟩ := hmeet
        obtain ⟨more', rfl⟩ : ∃ r, more = 10 :: r := by
          cases more with
          | nil => cases hhead
          | cons d r => exact ⟨r, by rw [Option.some.inj hhead]⟩
        exact .inr ⟨rfl, ⟨[], rfl⟩, more', rfl, rfl⟩
      · have hmore := hle.append more fun h13 hnil hhead => hmeet ⟨h13, hnil, hhead⟩
        exact .inl (by rw [blockEnd_lineEnd hmore]; rfl)
    | false =>
      obtain ⟨m, hm, rfl⟩ := Option.map_eq_some_iff.1 h
      have hne : rest ≠ [] := by
        rintro rfl
        cases hm
      have hmore := hle.append more fun _ hnil => absurd hnil hne
      rw [blockEnd_lineEnd hmore]
      obtain hsame | ⟨rfl, ⟨before, rfl⟩, more', rfl, hnext⟩ := ih hm
      · exact .inl (by rw [hsame]; rfl)
      · refine .inr ⟨?_, ⟨le ++ before, (List.append_assoc _ _ _).symm⟩, more', rfl, ?_⟩
        · simp only [List.length_append]
          omega
        · rw [hnext]
          simp only [Bool.false_eq_true, if_false, Option.map_some]
          congr 1
          omega
  | char c rest hlf hcr ih =>
    rw [blockEnd_char hlf hcr] at h
    obtain ⟨m, hm, rfl⟩ := Option.map_eq_some_iff.1 h
    rw [List.cons_append, blockEnd_char hlf hcr]
    obtain hsame | ⟨rfl, ⟨before, rfl⟩, more', rfl, hnext⟩ := ih hm
    · exact .inl (by rw [hsame]; rfl)
    · exact .inr ⟨rfl, ⟨c :: before, rfl⟩, more', rfl, by rw [hnext]; rfl⟩

/-- The text of a block is a block. -/
theorem blockEnd_take {s : Bytes} {ended : Bool} {n : Nat} (h : blockEnd ended s = some n) :
    blockEnd ended (s.take n) = some n := by
  induction s using text_induction generalizing ended n with
  | nil => cases h
  | lineEnd le rest hle ih =>
    rw [blockEnd_lineEnd hle] at h
    cases ended with
    | true =>
      obtain rfl := Option.some.inj h
      have halone : LineEnd le [] := hle.before fun heq => nomatch heq
      have hend := blockEnd_lineEnd halone true
      rw [List.append_nil] at hend
      rw [List.take_left]
      exact hend
    | false =>
      obtain ⟨m, hm, rfl⟩ := Option.map_eq_some_iff.1 h
      have hrange := blockEnd_range hm
      have hshort : LineEnd le (rest.take m) := hle.take (by omega)
      rw [Nat.add_comm, List.take_length_add_append, blockEnd_lineEnd hshort, ih hm, Nat.add_comm]
      rfl
  | char c rest hlf hcr ih =>
    rw [blockEnd_char hlf hcr] at h
    obtain ⟨m, hm, rfl⟩ := Option.map_eq_some_iff.1 h
    rw [List.take_succ_cons, blockEnd_char hlf hcr, ih hm]
    rfl

/-- The blocks of a text, and what is left behind the last one. -/
def split (s : Bytes) : List Bytes × Bytes :=
  match _h : blockEnd false s with
  | none => ([], s)
  | some n => (s.take n :: (split (s.drop n)).1, (split (s.drop n)).2)
termination_by s.length
decreasing_by all_goals
  have hrange := blockEnd_range _h
  rw [List.length_drop]
  omega

theorem split_none {s : Bytes} (h : blockEnd false s = none) : split s = ([], s) := by
  rw [split]
  split
  · rfl
  next n hn => rw [h] at hn; cases hn

theorem split_some {s : Bytes} {n : Nat} (h : blockEnd false s = some n) :
    split s = (s.take n :: (split (s.drop n)).1, (split (s.drop n)).2) := by
  conv_lhs => rw [split]
  split
  next hn => rw [h] at hn; cases hn
  next m hm =>
    rw [h] at hm
    obtain rfl := Option.some.inj hm
    rfl

/-- A text is its blocks and what is left, one block at a time. -/
theorem split_induction {motive : Bytes → Prop}
    (stop : ∀ s, blockEnd false s = none → motive s)
    (block : ∀ s n, blockEnd false s = some n → motive (s.drop n) → motive s) (s : Bytes) :
    motive s := by
  generalize hn : s.length = n
  induction n using Nat.strong_induction_on generalizing s with
  | _ n ih =>
    cases hend : blockEnd false s with
    | none => exact stop s hend
    | some m =>
      have hrange := blockEnd_range hend
      have hlt : (s.drop m).length < n := by
        rw [List.length_drop]
        omega
      exact block s m hend (ih _ hlt (s.drop m) rfl)

theorem split_spec (s : Bytes) : (split s).1.flatten ++ (split s).2 = s ∧
    (∀ b ∈ (split s).1, blockEnd false b = some b.length) ∧ blockEnd false (split s).2 = none := by
  induction s using split_induction with
  | stop s h =>
    rw [split_none h]
    exact ⟨rfl, by simp, h⟩
  | block s n h ih =>
    obtain ⟨hflat, hblocks, hrest⟩ := ih
    have hrange := blockEnd_range h
    rw [split_some h]
    refine ⟨?_, ?_, hrest⟩
    · rw [List.flatten_cons, List.append_assoc, hflat, List.take_append_drop]
    · rw [List.forall_mem_cons]
      refine ⟨?_, hblocks⟩
      rw [blockEnd_take h, List.length_take, Nat.min_eq_left hrange.2]

end Stx.Http.HTTPSSEParser
