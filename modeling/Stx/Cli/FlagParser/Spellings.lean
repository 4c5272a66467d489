import Stx.Cli.FlagParser
import Mathlib.Tactic.Common

/-! Whether the spellings of a flag and its value are taken for the same. Every run that looks at all
of the arguments and returns leaves as much behind as there were, so that one argument never does
for two. -/
namespace Stx.Cli

theorem startsWith_iff (arg text : Bytes) : startsWith arg text = true ↔ text <+: arg :=
  List.isPrefixOf_iff_prefix

theorem sized_iff (arg text : Bytes) :
    arg.length = text.length ∧ startsWith arg text = true ↔ arg = text := by
  rw [startsWith_iff]
  constructor
  · rintro ⟨hlen, hstart⟩
    exact (hstart.eq_of_length hlen.symm).symm
  · rintro rfl
    exact ⟨rfl, List.prefix_refl arg⟩

/-- What a flag is hit by. No text is left for the value behind the equals sign. -/
theorem matchFlag_eq (flag : FlagState) (arg : Bytes) :
    matchFlag flag arg =
      if arg = lit "--" ++ flag.longopt then some (-1 : Int)
      else if arg = lit "--" ++ flag.longopt ++ lit "=" then some (toInt arg.length)
      else if ∃ shortopt, flag.shortopt = some shortopt ∧ lit "-" ++ shortopt <+: arg then some (-1)
      else none := by
  unfold matchFlag
  simp only [sized_iff]
  by_cases hlong : arg = lit "--" ++ flag.longopt
  · rw [if_pos hlong, if_pos hlong]
  · rw [if_neg hlong, if_neg hlong]
    by_cases heq : arg = lit "--" ++ flag.longopt ++ lit "="
    · rw [if_pos heq, if_pos heq, ← heq]
    · rw [if_neg heq, if_neg heq]
      cases hshort : flag.shortopt with
      | none => simp
      | some shortopt =>
        simp only [startsWith_iff, Option.some.injEq, exists_eq_left']
        by_cases hstart : lit "-" ++ shortopt <+: arg
        · rw [if_pos hstart, if_pos hstart]
        · rw [if_neg hstart, if_neg hstart, if_neg fun h => hstart ((List.prefix_append _ _).trans h)]

theorem toInt_of_lt {n : Nat} (h : n < 2^31) : toInt n = n :=
  Int.bmod_eq_of_le (by omega) (by omega)

theorem findFlag_spec {k : Nat} {flags : List FlagState} {arg : Bytes} {hit : Hit}
    (h : findFlag k flags arg = some hit) :
    ∃ i, hit.index = k+i ∧ flags[i]? = some hit.flag ∧
      matchFlag hit.flag arg = some hit.eq_len := by
  induction flags generalizing k with
  | nil => cases h
  | cons flag flags ih =>
    rw [findFlag] at h
    cases hmatch : matchFlag flag arg with
    | some eq_len =>
      rw [hmatch] at h
      cases h
      exact ⟨0, rfl, rfl, hmatch⟩
    | none =>
      rw [hmatch] at h
      obtain ⟨i, hindex, hflag, hhit⟩ := ih h
      exact ⟨i+1, by omega, hflag, hhit⟩

theorem findFlag_eq_none {k : Nat} {flags : List FlagState} {arg : Bytes} :
    findFlag k flags arg = none ↔ ∀ flag ∈ flags, matchFlag flag arg = none := by
  induction flags generalizing k with
  | nil => simp [findFlag]
  | cons flag flags ih =>
    rw [findFlag, List.forall_mem_cons]
    cases matchFlag flag arg with
    | some eq_len => simp
    | none => simpa using ih

/-- How many arguments that are not empty have become values of the flag. -/
def FlagState.weight (flag : FlagState) : Nat :=
  if flag.type = .switch then flag.values.length
  else (flag.values.map fun value => if value = [] then 1 else 2).sum

def FlagParser.weight (p : FlagParser) : Nat :=
  p.argv_.length+(p.flags_.map FlagState.weight).sum

theorem sum_modify {α : Type} (w : α → Nat) (f : α → α) {l : List α} {i : Nat} {a : α}
    (h : l[i]? = some a) : ((l.modify i f).map w).sum+w a = (l.map w).sum+w (f a) := by
  induction l generalizing i with
  | nil => simp at h
  | cons b l ih =>
    cases i with
    | zero =>
      cases h
      simp only [List.modify_zero_cons, List.map_cons, List.sum_cons]
      omega
    | succ i =>
      have hnext := ih (show l[i]? = some a by simpa using h)
      simp only [List.modify_succ_cons, List.map_cons, List.sum_cons]
      omega

theorem FlagParser.weight_keep (p : FlagParser) (arg : Bytes) :
    (p.keep arg).weight = p.weight+1 := by
  simp only [weight, keep, List.length_append, List.length_singleton]
  omega

theorem FlagParser.weight_addValue {p : FlagParser} {i : Nat} {flag : FlagState}
    (h : p.flags_[i]? = some flag) (value : Bytes) :
    (p.addValue i value).weight =
      p.weight+(if flag.type = .switch ∨ value = [] then 1 else 2) := by
  have hsum := sum_modify FlagState.weight
    (fun flag => { flag with values := flag.values ++ [value] }) h
  have hflag : FlagState.weight { flag with values := flag.values ++ [value] } =
      flag.weight+(if flag.type = .switch ∨ value = [] then 1 else 2) := by
    unfold FlagState.weight
    by_cases hswitch : flag.type = .switch
    · simp [hswitch]
    · by_cases hvalue : value = [] <;> simp [hswitch, hvalue]
  simp only [weight, addValue]
  omega

def nonEmpty (args : List Bytes) : Nat := args.countP fun arg => arg ≠ []

theorem nonEmpty_cons {arg : Bytes} (h : arg ≠ []) (rest : List Bytes) :
    nonEmpty (arg :: rest) = nonEmpty rest+1 :=
  List.countP_cons_of_pos (by simpa using h)

theorem nonEmpty_append (args rest : List Bytes) :
    nonEmpty (args ++ rest) = nonEmpty args+nonEmpty rest :=
  List.countP_append

theorem hit_index {flags : List FlagState} {arg : Bytes} {hit : Hit}
    (h : findFlag 0 flags arg = some hit) : flags[hit.index]? = some hit.flag := by
  obtain ⟨i, hindex, hflag, -⟩ := findFlag_spec h
  rw [hindex, Nat.zero_add, hflag]

/-- The long names of the flags with their hyphens and an equals sign, as sizes that an `int`
holds. -/
def FlagParser.ShortNames (p : FlagParser) : Prop :=
  ∀ flag ∈ p.flags_, flag.longopt.length+3 < 2^31

theorem FlagParser.ShortNames.addValue {p : FlagParser} (h : p.ShortNames) (i : Nat)
    (value : Bytes) : (p.addValue i value).ShortNames := by
  intro flag hflag
  obtain ⟨k, hk⟩ := List.getElem?_of_mem hflag
  rw [FlagParser.addValue, List.getElem?_modify] at hk
  obtain ⟨old, hold, heq⟩ := Option.map_eq_some_iff.1 hk
  have hshort := h old (List.mem_of_getElem? hold)
  split at heq
  · rw [← heq]
    exact hshort
  · rwa [← heq]

/-- A value behind an equals sign is never there. -/
theorem length_of_hit {p : FlagParser} {arg : Bytes} {hit : Hit} (hshort : p.ShortNames)
    (h : findFlag 0 p.flags_ arg = some hit) (hpos : hit.eq_len > 0) :
    arg.length = hit.eq_len := by
  have hname := hshort _ (List.mem_of_getElem? (hit_index h))
  obtain ⟨i, -, -, hmatch⟩ := findFlag_spec h
  rw [matchFlag_eq] at hmatch
  split_ifs at hmatch with hlong heq
  · have hminus := Option.some.inj hmatch
    omega
  · have hlength : arg.length = hit.flag.longopt.length+3 := by
      rw [heq, List.length_append, List.length_append, Nat.add_right_comm]
      exact Nat.add_comm _ _
    rw [← Option.some.inj hmatch, toInt_of_lt (by omega)]
  · have hminus := Option.some.inj hmatch
    omega

/-- What is left behind by a run that looks at all of the arguments and returns. -/
theorem FlagParser.weight_parseLoop {i : Nat} {args : List Bytes} {p r : FlagParser}
    (hshort : p.ShortNames) (hfit : i+args.length ≤ 2^31) (h : parseLoop i args p = .ok r) :
    r.weight = p.weight+nonEmpty args := by
  fun_induction parseLoop i args p with
  | case1 i p =>
    cases h
    rfl
  | case2 i arg rest p hend =>
    rw [List.length_cons] at hfit
    omega
  | case3 i arg rest p hi hempty ih =>
    obtain rfl := List.eq_nil_of_length_eq_zero hempty
    exact ih hshort (by rw [List.length_cons] at hfit; omega) h
  | case4 i arg rest p hi hne hnone ih =>
    have hne : arg ≠ [] := fun h => hne (List.length_eq_zero_iff.2 h)
    rw [ih hshort (by rw [List.length_cons] at hfit; omega) h, weight_keep, nonEmpty_cons hne]
    omega
  | case5 i arg rest p hi hne hit hfind hswitch ih =>
    have hne : arg ≠ [] := fun h => hne (List.length_eq_zero_iff.2 h)
    rw [ih (hshort.addValue _ _) (by rw [List.length_cons] at hfit; omega) h,
      weight_addValue (hit_index hfind), if_pos (.inl hswitch), nonEmpty_cons hne]
    omega
  | case6 => cases h
  | case7 i arg rest p hi hne hit hfind hswitch hpos hlen ih =>
    exact absurd (length_of_hit hshort hfind hpos) hlen
  | case8 => cases h
  | case9 i arg p hi hne hit hfind hswitch hpos value rest hnext ih =>
    have hne : arg ≠ [] := fun h => hne (List.length_eq_zero_iff.2 h)
    rw [ih (hshort.addValue _ _) (by rw [List.length_cons, List.length_cons] at hfit; omega) h,
      weight_addValue (hit_index hfind), nonEmpty_cons hne]
    by_cases hvalue : value = []
    · subst hvalue
      rw [if_pos (.inr rfl)]
      change _ = _+(nonEmpty rest+1)
      omega
    · rw [if_neg (by simp [hswitch, hvalue]), nonEmpty_cons hvalue]
      omega
  | case10 => cases h

theorem FlagParser.weight_parseArgv {args : List Bytes} {p r : FlagParser} (hshort : p.ShortNames)
    (hfit : args.length ≤ 2^31) (h : p.parseArgv args = .ok r) :
    r.weight = p.weight+nonEmpty args := by
  obtain ⟨p', hloop, hcheck⟩ := Result.bind_eq_ok h
  cases hmissing : p'.flags_.find? fun flag => flag.required && flag.values.isEmpty with
  | some flag =>
    rw [hmissing] at hcheck
    cases hcheck
  | none =>
    rw [hmissing] at hcheck
    cases hcheck
    exact weight_parseLoop hshort (by omega) hloop

/-- One argument never does for two. -/
theorem FlagParser.parseArgv_ne {p r : FlagParser} {before after : List Bytes} {a b c : Bytes}
    (hshort : p.ShortNames) (hfit : before.length+after.length+2 ≤ 2^31) (ha : a ≠ [])
    (hb : b ≠ []) (hc : c ≠ []) (h : p.parseArgv (before ++ a :: b :: after) = .ok r) :
    p.parseArgv (before ++ c :: after) ≠ .ok r := by
  intro h'
  have htwo : (before ++ a :: b :: after).length ≤ 2^31 := by
    rw [List.length_append, List.length_cons, List.length_cons]
    omega
  have hone : (before ++ c :: after).length ≤ 2^31 := by
    rw [List.length_append, List.length_cons]
    omega
  have hweight := (weight_parseArgv hshort htwo h).symm.trans (weight_parseArgv hshort hone h')
  simp only [nonEmpty_append, nonEmpty_cons ha, nonEmpty_cons hb, nonEmpty_cons hc] at hweight
  omega

/-- Behind the first 2^31 arguments nothing is looked at. -/
theorem FlagParser.parseLoop_append {i : Nat} {before : List Bytes} {p : FlagParser}
    (hlong : 2^31 ≤ i+before.length) (xs ys : List Bytes) :
    parseLoop i (before ++ xs) p = parseLoop i (before ++ ys) p := by
  induction hn : before.length using Nat.strong_induction_on generalizing i before p with
  | _ n ih =>
    have hend : ∀ zs, 2^31 ≤ i → parseLoop i zs p = .ok p := by
      intro zs hi
      cases zs with
      | nil => rw [parseLoop]
      | cons z zs => rw [parseLoop, if_pos hi]
    by_cases hi : 2^31 ≤ i
    · rw [hend _ hi, hend _ hi]
    · cases before with
      | nil => exact absurd hlong hi
      | cons arg before =>
        rw [List.length_cons] at hlong hn
        have hnext : ∀ q : FlagParser,
            parseLoop (i+1) (before ++ xs) q = parseLoop (i+1) (before ++ ys) q := fun q =>
          ih before.length (by omega) (by omega) rfl
        rw [List.cons_append, List.cons_append, parseLoop, parseLoop, if_neg hi, if_neg hi]
        simp only [hnext]
        cases findFlag 0 p.flags_ arg with
        | none => rfl
        | some hit =>
          cases before with
          | nil =>
            rw [List.length_nil] at hlong
            have hlast : ¬i+1 < 2^31 := by omega
            cases xs <;> cases ys <;> simp only [List.nil_append, if_neg hlast]
          | cons value before =>
            rw [List.length_cons] at hlong hn
            simp only [List.cons_append]
            rw [ih before.length (by omega) (by omega) rfl]

/-- The two names that a flag is given by. -/
def FlagState.Name (flag : FlagState) (name : Bytes) : Prop :=
  name = lit "--" ++ flag.longopt ∨
    ∃ shortopt, flag.shortopt = some shortopt ∧ name = lit "-" ++ shortopt

theorem FlagState.Name.ne_nil {flag : FlagState} {name : Bytes} (h : flag.Name name) :
    name ≠ [] := by
  obtain rfl | ⟨shortopt, -, rfl⟩ := h <;> exact List.cons_ne_nil _ _

/-- The argument is the name of a flag, alone or with a value behind an equals sign. -/
def Spelled (flags : List FlagState) (arg : Bytes) : Prop :=
  ∃ flag ∈ flags, ∃ name, flag.Name name ∧
    (arg = name ∨ flag.type ≠ .switch ∧ ∃ value, value ≠ [] ∧ arg = name ++ lit "=" ++ value)

namespace FlagParser

/-- The argument with the number `i` is put to the positional ones, whatever is behind it. -/
def Kept (p : FlagParser) (i : Nat) (arg : Bytes) : Prop :=
  ∀ rest, p.parseLoop i (arg :: rest) = (p.keep arg).parseLoop (i+1) rest

theorem kept_iff (p : FlagParser) (i : Nat) (arg : Bytes) :
    p.Kept i arg ↔ i < 2^31 ∧ arg ≠ [] ∧ findFlag 0 p.flags_ arg = none := by
  constructor
  · intro h
    have hlast : parseLoop i [arg] p = .ok (p.keep arg) := (h []).trans (by rw [parseLoop])
    have hargv : (p.keep arg).argv_.length = p.argv_.length+1 := List.length_append
    rw [parseLoop] at hlast
    have hi : ¬2^31 ≤ i := by
      intro hend
      rw [if_pos hend] at hlast
      rw [← Result.ok.inj hlast] at hargv
      omega
    rw [if_neg hi] at hlast
    have hne : arg.length ≠ 0 := by
      intro hempty
      rw [if_pos hempty, parseLoop] at hlast
      rw [← Result.ok.inj hlast] at hargv
      omega
    rw [if_neg hne] at hlast
    refine ⟨by omega, fun hempty => hne (List.length_eq_zero_iff.2 hempty), ?_⟩
    cases hfind : findFlag 0 p.flags_ arg with
    | none => rfl
    | some hit =>
      have hvalue : ∀ value, parseLoop (i+1) [] (p.addValue hit.index value) ≠ .ok (p.keep arg) := by
        intro value heq
        rw [parseLoop] at heq
        rw [← Result.ok.inj heq] at hargv
        exact absurd hargv (Nat.ne_of_lt (Nat.lt_succ_self _))
      rw [hfind] at hlast
      simp only at hlast
      split_ifs at hlast
      · exact absurd hlast (hvalue _)
      · exact absurd hlast (hvalue _)
      · rw [noValue] at hlast
        cases hlast
  · rintro ⟨hi, hne, hnone⟩ rest
    rw [parseLoop, if_neg (by omega), if_neg (fun h => hne (List.eq_nil_of_length_eq_zero h)), hnone]

theorem kept_iff_of_not_spelled {p : FlagParser} {i : Nat} {arg : Bytes}
    (h : ¬Spelled p.flags_ arg) :
    p.Kept i arg ↔ i < 2^31 ∧ arg ≠ [] ∧ ∀ flag ∈ p.flags_, arg ≠ lit "--" ++ flag.longopt ++ lit "=" ∧
      ∀ shortopt, flag.shortopt = some shortopt → ¬lit "-" ++ shortopt <+: arg := by
  rw [kept_iff, findFlag_eq_none]
  refine and_congr_right fun _ => and_congr_right fun _ => forall₂_congr fun flag hflag => ?_
  have hlong : arg ≠ lit "--" ++ flag.longopt := fun heq =>
    h ⟨flag, hflag, arg, .inl heq, .inl rfl⟩
  rw [matchFlag_eq, if_neg hlong]
  by_cases heq : arg = lit "--" ++ flag.longopt ++ lit "="
  · simp [heq]
  · rw [if_neg heq]
    by_cases hshort : ∃ shortopt, flag.shortopt = some shortopt ∧ lit "-" ++ shortopt <+: arg
    · rw [if_pos hshort]
      obtain ⟨shortopt, hopt, hstart⟩ := hshort
      exact iff_of_false (by simp) fun hnot => hnot.2 shortopt hopt hstart
    · rw [if_neg hshort]
      exact iff_of_true rfl ⟨heq, fun shortopt hopt hstart => hshort ⟨shortopt, hopt, hstart⟩⟩

/-- What is promised: a value may be in the argument of the flag or in the next one, and what is
no flag is kept. -/
def SpellingFree (p : FlagParser) : Prop :=
  (∀ flag ∈ p.flags_, flag.type ≠ .switch → ∀ name, flag.Name name →
    ∀ before value after r, value ≠ [] → p.parseArgv (before ++ name :: value :: after) = .ok r →
      p.parseArgv (before ++ (name ++ lit "=" ++ value) :: after) = .ok r) ∧
    ∀ i arg, ¬Spelled p.flags_ arg → p.Kept i arg

/-- The spellings are never taken for the same, as far as the arguments are looked at. What is no
flag is kept if it is among these, is not empty, does not end where a value should be and does not
begin with a short name. -/
theorem spelling_iff (p : FlagParser) :
    (∀ flag ∈ p.flags_, flag.type ≠ .switch → ∀ name, flag.Name name →
      ∀ before value after, value ≠ [] →
        (p.ShortNames → before.length+after.length+2 ≤ 2^31 → ∀ r,
          p.parseArgv (before ++ name :: value :: after) = .ok r →
            p.parseArgv (before ++ (name ++ lit "=" ++ value) :: after) ≠ .ok r) ∧
        (2^31 ≤ before.length → p.parseArgv (before ++ name :: value :: after) =
          p.parseArgv (before ++ (name ++ lit "=" ++ value) :: after))) ∧
      ∀ i arg, ¬Spelled p.flags_ arg →
        (p.Kept i arg ↔ i < 2^31 ∧ arg ≠ [] ∧
          ∀ flag ∈ p.flags_, arg ≠ lit "--" ++ flag.longopt ++ lit "=" ∧
            ∀ shortopt, flag.shortopt = some shortopt → ¬lit "-" ++ shortopt <+: arg) := by
  refine ⟨fun flag _ _ name hname before value after hvalue =>
    ⟨fun hshort hfit r h => ?_, fun hlong => ?_⟩, fun i arg h => kept_iff_of_not_spelled h⟩
  · have hjoined : name ++ lit "=" ++ value ≠ [] := by
      rw [List.append_assoc]
      exact List.append_ne_nil_of_left_ne_nil hname.ne_nil _
    exact parseArgv_ne hshort hfit hname.ne_nil hvalue hjoined h
  · rw [parseArgv, parseArgv, parseLoop_append (by omega)]

/-- A parser with one flag, for examples. -/
def inputParser (values argv : List Bytes) : FlagParser :=
  ⟨argv, [⟨.string, false, lit "input", some (lit "i"), values⟩]⟩

theorem spelling_iff_at_input :
    (inputParser [] []).parseArgv [lit "--input=x"] ≠ .ok (inputParser [lit "x"] []) :=
  ((spelling_iff (inputParser [] [])).1 _ (List.mem_singleton_self _) (by decide) (lit "--input")
    (.inl rfl) [] (lit "x") [] (by decide)).1
      (by rw [ShortNames, inputParser, List.forall_mem_singleton]; decide) (by decide)
      (inputParser [lit "x"] []) (by decide)

theorem input_not_spellingFree : ¬∀ p : FlagParser, p.SpellingFree := by
  intro h
  have hfree := (h (inputParser [] [])).1 _ (List.mem_singleton_self _) (by decide) (lit "--input")
    (.inl rfl) [] (lit "x") [] (inputParser [lit "x"] []) (by decide) (by decide)
  have hkept : (inputParser [] []).parseArgv [lit "--input=x"] =
      .ok (inputParser [] [lit "--input=x"]) := by decide
  exact absurd (hfree.symm.trans hkept) (by decide)

end FlagParser
end Stx.Cli
