import Stx.Base

/-! `StringUtil::replaceAll` and `StringUtil::format` with the position of type `int` that they
search from. As long as the position fits, they compute what `Stx.Base` says in one pass. -/
namespace Stx.StringUtil

/-- Conversion to `int`. -/
def toInt (n : Int) : Int := (n+2^31) % 2^32-2^31

theorem toInt_range (n : Int) : -2^31 ≤ toInt n ∧ toInt n < 2^31 := by
  unfold toInt
  omega

/-- A counter of type `int`, one step further. -/
theorem toInt_succ (n : Int) : toInt (toInt n+1) = toInt (n+1) := by
  unfold toInt
  omega

/-- Decimal text of a signed number. -/
def toStringInt (n : Int) : Bytes :=
  if n < 0 then lit "-" ++ toString n.natAbs else toString n.natAbs

/-- The first place at which `pattern` occurs. -/
def indexOf (pattern : Bytes) : Bytes → Option Nat
  | [] => if pattern = [] then some 0 else none
  | b :: rest =>
    if pattern.isPrefixOf (b :: rest) then some 0 else (indexOf pattern rest).map (·+1)

/-- `std::string::find` with a position of type `size_t`. -/
def find (str pattern : Bytes) (pos : Nat) : Option Nat :=
  if str.length < pos then none else (indexOf pattern (str.drop pos)).map (pos+·)

/- `npos` is `size_t(-1)`, so that -1 ends the loop; a position outside of the string makes
   `std::string::replace` throw. The loop need not end when the position wraps. -/
def replaceAllLoop (pattern replacement : Bytes) : Nat → Bytes → Int → Result Bytes
  | 0, _, _ => .diverge
  | fuel+1, str, cur =>
    match find str pattern (cur % 2^64).toNat with
    | none => .ok str
    | some pos =>
      let cur := toInt pos
      if cur = -1 then .ok str
      else if cur < 0 ∨ str.length < cur then .raise ⟨.outOfRange, []⟩
      else
        replaceAllLoop pattern replacement fuel
          (str.take cur.toNat ++ replacement ++ str.drop (cur.toNat+pattern.length))
          (toInt (cur+replacement.length))

/-- One turn for each match, and one in which there is none. -/
def replaceAllInt (str pattern replacement : Bytes) : Result Bytes :=
  replaceAllLoop pattern replacement (str.length+1) str 0

/-- Where the replacements end in the text that they are put into, for a string from `pos` on. -/
def insertedEnds (pattern replacement : Bytes) : Nat → Nat → Bytes → List Nat
  | _, _, [] => []
  | skip+1, pos, _ :: rest => insertedEnds pattern replacement skip pos rest
  | 0, pos, b :: rest =>
    if pattern.isPrefixOf (b :: rest) then
      (pos+replacement.length) ::
        insertedEnds pattern replacement (pattern.length-1) (pos+replacement.length) rest
    else insertedEnds pattern replacement 0 (pos+1) rest

def formatImplInt (scratch : Bytes) (argn : Nat) : List Bytes → Result Bytes
  | [] => .ok scratch
  | value :: values => do
    let scratch ← replaceAllInt scratch (lit "$" ++ toString argn) value
    formatImplInt scratch (argn+1) values

def formatInt (fmt : String) (values : List Bytes) : Result Bytes := formatImplInt (lit fmt) 0 values

theorem toInt_of_lt {n : Nat} (h : n < 2^31) : toInt n = n := by
  unfold toInt
  omega

theorem length_toString_le {n : Nat} (h : n < 10^20) : (toString n).length ≤ 20 := by
  rw [toString, List.length_map]
  exact (Nat.length_toDigits_le_iff (by decide) (by decide)).2 h

attribute [local simp] replaceLoop indexOf insertedEnds

section replace
variable {pattern replacement : Bytes}

/- The pass of `replaceAll` goes over the string up to a match, drops the match, and goes on. -/

theorem replaceLoop_skip (skip : Nat) (str : Bytes) :
    replaceLoop pattern replacement skip str =
      replaceLoop pattern replacement 0 (str.drop skip) := by
  induction str generalizing skip with
  | nil => cases skip <;> simp
  | cons b str ih =>
    cases skip with
    | zero => rfl
    | succ skip => rw [replaceLoop, ih, List.drop_succ_cons]

theorem replaceAll_cons_match {b : UInt8} {rest : Bytes}
    (h : pattern.isPrefixOf (b :: rest) = true) (hne : pattern ≠ []) :
    replaceAll (b :: rest) pattern replacement =
      replacement ++ replaceAll ((b :: rest).drop pattern.length) pattern replacement := by
  obtain ⟨n, hn⟩ := Nat.exists_eq_succ_of_ne_zero (mt List.length_eq_zero_iff.1 hne)
  rw [replaceAll, replaceLoop, if_pos h, replaceLoop_skip, replaceAll, hn, List.drop_succ_cons,
    Nat.succ_sub_one]

theorem replaceAll_cons_of_not {b : UInt8} {rest : Bytes}
    (h : pattern.isPrefixOf (b :: rest) = false) :
    replaceAll (b :: rest) pattern replacement = b :: replaceAll rest pattern replacement := by
  rw [replaceAll, replaceLoop, if_neg (by simp [h])]
  rfl

/-- A pattern of one byte is replaced byte by byte. -/
theorem replaceAll_singleton (str : Bytes) (c : UInt8) :
    replaceAll str [c] replacement = str.flatMap fun d => if d = c then replacement else [d] := by
  induction str with
  | nil => rfl
  | cons d str ih =>
    rw [List.flatMap_cons, ← ih]
    by_cases hd : d = c
    · rw [replaceAll_cons_match (by simp [hd, List.isPrefixOf]) (List.cons_ne_nil _ _), if_pos hd]
      rfl
    · have hmatch : [c].isPrefixOf (d :: str) = false := by simp [List.isPrefixOf, Ne.symm hd]
      rw [replaceAll_cons_of_not hmatch, if_neg hd]
      rfl

/-- Up to the first match nothing is replaced. -/
theorem replaceAll_indexOf (str replacement : Bytes) (hne : pattern ≠ []) :
    (indexOf pattern str = none ∧ replaceAll str pattern replacement = str ∧ ¬pattern <:+: str) ∨
    ∃ a b, indexOf pattern str = some a.length ∧ str = a ++ pattern ++ b ∧
      replaceAll str pattern replacement = a ++ replacement ++ replaceAll b pattern replacement := by
  induction str with
  | nil => exact .inl ⟨by simp [hne], rfl, by simpa using hne⟩
  | cons x str ih =>
    by_cases hmatch : pattern.isPrefixOf (x :: str) = true
    · obtain ⟨b, hb⟩ := List.isPrefixOf_iff_prefix.1 hmatch
      refine .inr ⟨[], b, by simp [hmatch], by simp [hb], ?_⟩
      rw [replaceAll_cons_match hmatch hne, ← hb, List.drop_left, List.nil_append]
    · rw [Bool.not_eq_true] at hmatch
      rw [replaceAll_cons_of_not hmatch, indexOf, if_neg (by simp [hmatch])]
      rcases ih with ⟨hnone, hsame, hnot⟩ | ⟨a, b, hsome, hstr, hrest⟩
      · refine .inl ⟨by rw [hnone]; rfl, by rw [hsame], ?_⟩
        rw [List.infix_cons_iff, not_or]
        refine ⟨fun hp => ?_, hnot⟩
        rw [List.isPrefixOf_iff_prefix.2 hp] at hmatch
        cases hmatch
      · refine .inr ⟨x :: a, b, by rw [hsome]; rfl, by rw [hstr]; rfl, by rw [hrest]; rfl⟩

theorem replaceAll_of_not_infix {str : Bytes} (hne : pattern ≠ []) (h : ¬pattern <:+: str) :
    replaceAll str pattern replacement = str := by
  rcases replaceAll_indexOf str replacement hne with ⟨-, hsame, -⟩ | ⟨a, b, -, hstr, -⟩
  · exact hsame
  · exact absurd ⟨a, b, hstr.symm⟩ h

/-- Each match changes the length alike. -/
theorem length_replaceAll (str replacement : Bytes) (hne : pattern ≠ []) : ∃ k,
    (replaceAll str pattern replacement).length+k*pattern.length =
      str.length+k*replacement.length ∧ (pattern <:+: str → k ≠ 0) := by
  induction hn : str.length using Nat.strong_induction_on generalizing str with
  | _ n ih =>
    rcases replaceAll_indexOf str replacement hne with
      ⟨-, hsame, hnot⟩ | ⟨a, b, -, hstr, hrest⟩
    · exact ⟨0, by rw [hsame, hn]; simp, fun h => absurd h hnot⟩
    · have hpos := List.length_pos_of_ne_nil hne
      have hlen : a.length+pattern.length+b.length = n := by
        rw [← hn, hstr, List.length_append, List.length_append]
      obtain ⟨k, hk, -⟩ := ih b.length (by omega) b rfl
      refine ⟨k+1, ?_, fun _ => Nat.succ_ne_zero k⟩
      rw [hrest, List.length_append, List.length_append, Nat.add_mul, Nat.add_mul]
      omega

/-- Replaced text that looks like the string, up to `f`, was replaced by the pattern. -/
theorem eq_of_map_replaceAll {f : UInt8 → UInt8} {str : Bytes} (hne : pattern ≠ [])
    (h : (replaceAll str pattern replacement).map f = str) (hin : pattern <:+: str) :
    replacement.map f = pattern := by
  obtain ⟨k, hk, hpos⟩ := length_replaceAll str replacement hne
  have hlen : (replaceAll str pattern replacement).length = str.length := by
    rw [← List.length_map f, h]
  have hsame : replacement.length = pattern.length := by
    rw [hlen] at hk
    exact (Nat.eq_of_mul_eq_mul_left (Nat.pos_of_ne_zero (hpos hin)) (by omega)).symm
  rcases replaceAll_indexOf str replacement hne with ⟨-, -, hnot⟩ | ⟨a, b, -, hstr, hrest⟩
  · exact absurd hin hnot
  · rw [hrest, hstr, List.map_append, List.map_append] at h
    have hfirst := List.append_inj_left h (by simp [hsame])
    exact List.append_inj_right hfirst (by simp)

theorem replaceAll_self (str : Bytes) (hne : pattern ≠ []) :
    replaceAll str pattern pattern = str := by
  induction hn : str.length using Nat.strong_induction_on generalizing str with
  | _ n ih =>
    rcases replaceAll_indexOf str pattern hne with ⟨-, hsame, -⟩ | ⟨a, b, -, hstr, hrest⟩
    · exact hsame
    · have hpos := List.length_pos_of_ne_nil hne
      have hlen : b.length < n := by
        rw [← hn, hstr, List.length_append, List.length_append]
        omega
      rw [hrest, ih b.length hlen b rfl, hstr]

theorem mem_replaceAll {str : Bytes} {x : UInt8} (hne : pattern ≠ [])
    (h : x ∈ replaceAll str pattern replacement) : x ∈ str ∨ x ∈ replacement := by
  induction hn : str.length using Nat.strong_induction_on generalizing str with
  | _ n ih =>
    rcases replaceAll_indexOf str replacement hne with ⟨-, hsame, -⟩ | ⟨a, b, -, hstr, hrest⟩
    · rw [hsame] at h
      exact .inl h
    · have hpos := List.length_pos_of_ne_nil hne
      have hlen : b.length < n := by
        rw [← hn, hstr, List.length_append, List.length_append]
        omega
      rw [hrest, List.mem_append, List.mem_append] at h
      rw [hstr, List.mem_append, List.mem_append]
      rcases h with (h | h) | h
      · exact .inl (.inl (.inl h))
      · exact .inr h
      · rcases ih b.length hlen h rfl with h | h
        · exact .inl (.inr h)
        · exact .inr h

/-- A pattern of two bytes does not match across a place that its second byte does not follow. -/
theorem replaceAll_append {x d : UInt8} {b : Bytes} (h : b.head? ≠ some d) :
    ∀ a : Bytes, replaceAll (a ++ b) [x, d] replacement =
      replaceAll a [x, d] replacement ++ replaceAll b [x, d] replacement
  | [] => rfl
  | [y] => by
    have hno : [x, d].isPrefixOf (y :: b) = false := by
      cases b with
      | nil => simp [List.isPrefixOf]
      | cons z b =>
        have hz : (d == z) = false := by
          simp only [List.head?_cons, ne_eq, Option.some.injEq] at h
          simpa using Ne.symm h
        simp [List.isPrefixOf, hz]
    rw [List.singleton_append, replaceAll_cons_of_not hno, replaceAll_cons_of_not (by
      simp [List.isPrefixOf])]
    rfl
  | y :: z :: a => by
    by_cases hmatch : [x, d].isPrefixOf (y :: z :: a) = true
    · have hmatch' : [x, d].isPrefixOf (y :: z :: (a ++ b)) = true := by
        simpa [List.isPrefixOf] using hmatch
      rw [List.cons_append, List.cons_append, replaceAll_cons_match hmatch' (by simp),
        replaceAll_cons_match hmatch (by simp)]
      simp only [List.length_cons, List.length_nil, List.drop_succ_cons, List.drop_zero]
      rw [replaceAll_append h a, List.append_assoc]
    · rw [Bool.not_eq_true] at hmatch
      have hmatch' : [x, d].isPrefixOf (y :: z :: (a ++ b)) = false := by
        simpa [List.isPrefixOf] using hmatch
      have hrest := replaceAll_append (x := x) h (z :: a)
      rw [List.cons_append, List.cons_append, replaceAll_cons_of_not hmatch',
        replaceAll_cons_of_not hmatch, ← List.cons_append, hrest]
      rfl

theorem find_append (done rest : Bytes) :
    find (done ++ rest) pattern done.length = (indexOf pattern rest).map (done.length+·) := by
  rw [find, if_neg (by simp), List.drop_left]

theorem insertedEnds_skip (skip pos : Nat) (str : Bytes) :
    insertedEnds pattern replacement skip pos str =
      insertedEnds pattern replacement 0 pos (str.drop skip) := by
  induction str generalizing skip with
  | nil => cases skip <;> simp
  | cons b str ih =>
    cases skip with
    | zero => rfl
    | succ skip => rw [insertedEnds, ih, List.drop_succ_cons]

/-- The first replacement is that of the first match. -/
theorem insertedEnds_indexOf (hne : pattern ≠ []) {k : Nat} {str : Bytes}
    (h : indexOf pattern str = some k) (pos : Nat) :
    insertedEnds pattern replacement 0 pos str =
      (pos+k+replacement.length) :: insertedEnds pattern replacement 0
        (pos+k+replacement.length) (str.drop (k+pattern.length)) := by
  obtain ⟨n, hn⟩ := Nat.exists_eq_succ_of_ne_zero (mt List.length_eq_zero_iff.1 hne)
  induction str generalizing k pos with
  | nil =>
    rw [indexOf, if_neg hne] at h
    cases h
  | cons b str ih =>
    rw [indexOf] at h
    rw [insertedEnds]
    by_cases hmatch : pattern.isPrefixOf (b :: str) = true
    · rw [if_pos hmatch] at h ⊢
      cases h
      rw [insertedEnds_skip, hn, Nat.zero_add, List.drop_succ_cons]
      rfl
    · rw [if_neg hmatch] at h ⊢
      obtain ⟨j, hj, rfl⟩ := Option.map_eq_some_iff.1 h
      rw [ih hj, Nat.add_right_comm j 1, List.drop_succ_cons, Nat.add_assoc pos 1,
        Nat.add_comm 1 j]

/-- The replacements end in the result. -/
theorem le_of_mem_insertedEnds {skip pos e : Nat} {str : Bytes}
    (h : e ∈ insertedEnds pattern replacement skip pos str) :
    e ≤ pos+(replaceLoop pattern replacement skip str).length := by
  induction str generalizing skip pos with
  | nil => cases skip <;> cases h
  | cons b str ih =>
    cases skip with
    | succ skip => exact ih h
    | zero =>
      rw [insertedEnds] at h
      rw [replaceLoop]
      by_cases hmatch : pattern.isPrefixOf (b :: str) = true
      · rw [if_pos hmatch, List.mem_cons] at h
        rw [if_pos hmatch, List.length_append]
        cases h with
        | inl h => omega
        | inr h =>
          have hle := ih h
          omega
      · rw [if_neg hmatch] at h ⊢
        have hle := ih h
        rw [List.length_cons]
        omega

/-- As long as the replacements end where an `int` gets, the loop makes one pass. -/
theorem replaceAllLoop_eq (hne : pattern ≠ []) {fuel : Nat} {d rest : Bytes}
    (hfuel : rest.length < fuel) (hd : d.length < 2^31)
    (hends : ∀ e ∈ insertedEnds pattern replacement 0 d.length rest, e < 2^31) :
    replaceAllLoop pattern replacement fuel (d ++ rest) d.length =
      .ok (d ++ replaceAll rest pattern replacement) := by
  induction fuel generalizing d rest with
  | zero => exact absurd hfuel (Nat.not_lt_zero _)
  | succ fuel ih =>
    have hcur : ((d.length : Int) % 2^64).toNat = d.length := by omega
    rw [replaceAllLoop, hcur, find_append]
    rcases replaceAll_indexOf rest replacement hne with
      ⟨hnone, hsame, -⟩ | ⟨a, b, hsome, hstr, hrest⟩
    · rw [hnone, hsame]
      rfl
    · have hpos := List.length_pos_of_ne_nil hne
      have hlen : rest.length = a.length+pattern.length+b.length := by
        rw [hstr, List.length_append, List.length_append]
      have hb : rest.drop (a.length+pattern.length) = b := by
        rw [hstr, List.drop_left' (by simp)]
      rw [insertedEnds_indexOf hne hsome, hb, List.forall_mem_cons] at hends
      obtain ⟨hend, hends⟩ := hends
      have hlength : (d ++ a ++ replacement).length = d.length+a.length+replacement.length := by
        rw [List.length_append, List.length_append]
      have hint : toInt ((d.length+a.length : Nat) : Int) = (d.length+a.length : Nat) :=
        toInt_of_lt (by omega)
      have hshift : toInt ((d.length+a.length : Nat)+replacement.length : Int) =
          ((d ++ a ++ replacement).length : Nat) := by
        rw [hlength, ← toInt_of_lt hend]
        rfl
      have htake : (d ++ rest).take (d.length+a.length) = d ++ a := by
        rw [hstr, List.append_assoc, ← List.append_assoc, List.take_left' (by simp)]
      have hdrop : (d ++ rest).drop (d.length+a.length+pattern.length) = b := by
        rw [hstr, ← List.append_assoc, ← List.append_assoc, List.drop_left' (by simp; omega)]
      have hbig : ¬(((d.length+a.length : Nat) : Int) < 0 ∨
          ((d ++ rest).length : Int) < (d.length+a.length : Nat)) := by
        rw [List.length_append]
        omega
      have hdone : d ++ (a ++ replacement ++ replaceAll b pattern replacement) =
          d ++ a ++ replacement ++ replaceAll b pattern replacement := by simp
      simp only [hsome, Option.map_some, hint]
      rw [if_neg (by omega), if_neg hbig, Int.toNat_natCast, htake, hdrop, hshift, hrest, hdone]
      rw [← hlength] at hend hends
      exact ih (by omega) hend hends

theorem replaceAllInt_of_ends (hne : pattern ≠ []) {str : Bytes}
    (hends : ∀ e ∈ insertedEnds pattern replacement 0 0 str, e < 2^31) :
    replaceAllInt str pattern replacement = .ok (replaceAll str pattern replacement) := by
  exact replaceAllLoop_eq hne (Nat.lt_succ_self str.length) (d := []) (by decide) hends

theorem replaceAllInt_eq (hne : pattern ≠ []) {str : Bytes}
    (hto : (replaceAll str pattern replacement).length < 2^31) :
    replaceAllInt str pattern replacement = .ok (replaceAll str pattern replacement) := by
  refine replaceAllInt_of_ends hne fun e he => ?_
  have hle := le_of_mem_insertedEnds he
  rw [Nat.zero_add] at hle
  exact Nat.lt_of_le_of_lt hle hto

end replace

/-- All the texts on the way from the format to the result are shorter than 2^31. -/
def FormatFits (scratch : Bytes) (argn : Nat) : List Bytes → Prop
  | [] => scratch.length < 2^31
  | value :: values =>
    scratch.length < 2^31 ∧
      FormatFits (replaceAll scratch (lit "$" ++ toString argn) value) (argn+1) values

instance FormatFits.decidable : (scratch : Bytes) → (argn : Nat) → (values : List Bytes) →
    Decidable (FormatFits scratch argn values)
  | scratch, _, [] => inferInstanceAs (Decidable (scratch.length < 2^31))
  | scratch, argn, value :: values =>
    haveI := FormatFits.decidable (replaceAll scratch (lit "$" ++ toString argn) value) (argn+1) values
    inferInstanceAs (Decidable (scratch.length < 2^31 ∧
      FormatFits (replaceAll scratch (lit "$" ++ toString argn) value) (argn+1) values))

theorem FormatFits.length_lt {scratch : Bytes} {argn : Nat} {values : List Bytes}
    (h : FormatFits scratch argn values) : scratch.length < 2^31 := by
  cases values with
  | nil => exact h
  | cons value values => exact h.1

theorem formatImplInt_eq {scratch : Bytes} {argn : Nat} {values : List Bytes}
    (h : FormatFits scratch argn values) :
    formatImplInt scratch argn values = .ok (formatImpl scratch argn values) := by
  induction values generalizing scratch argn with
  | nil => rfl
  | cons value values ih =>
    have hne : lit "$" ++ toString argn ≠ [] := List.cons_ne_nil _ _
    rw [formatImplInt, replaceAllInt_eq hne h.2.length_lt, Result.ok_bind, ih h.2]
    rfl

end Stx.StringUtil
