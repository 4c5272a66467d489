import Stx.StringUtil.Split
import Mathlib.Data.List.Flatten

/-! `StringUtil::join` for vectors, whose index is an `int`, and in how far it and `split` undo each
other. -/
namespace Stx.StringUtil

/- The index is compared as a `size_t`: where it has wrapped to a negative number, it is behind the
   end of every vector that is not larger than memory. -/
def joinLoop (list : List Bytes) (join : Bytes) : Nat → Int → Bytes → Result Bytes
  | 0, _, _ => .diverge
  | fuel+1, i, out =>
    match list[(i % 2^64).toNat]? with
    | none => .ok out
    | some item =>
      joinLoop list join fuel (toInt (i+1)) ((if 0 < i then out ++ join else out) ++ item)

/-- One turn for each string, and one in which there is none. -/
def join (list : List Bytes) (join : Bytes) : Result Bytes :=
  joinLoop list join (list.length+1) 0 []

/-- The string can be split, no part contains the pattern, and the parts join to the string. -/
def SplitJoins (str pattern : Bytes) : Prop :=
  ∃ parts, split str pattern = .ok parts ∧ (∀ part ∈ parts, ¬pattern <:+: part) ∧
    join parts pattern = .ok str

/-- The strings join to one that is split into them. -/
def JoinSplits (list : List Bytes) (c : UInt8) : Prop :=
  ∃ str, join list [c] = .ok str ∧ split str [c] = .ok list

section joining
variable {sep : Bytes}

theorem length_intercalate (item : Bytes) (list : List Bytes) :
    (sep.intercalate (item :: list)).length =
      item.length+list.flatten.length+list.length*sep.length := by
  induction list generalizing item with
  | nil => simp
  | cons next list ih =>
    rw [List.intercalate_cons_cons, List.length_append, List.length_append, ih,
      List.flatten_cons, List.length_append, List.length_cons, Nat.add_one_mul]
    omega

theorem intercalate_cons (item : Bytes) (list : List Bytes) :
    sep.intercalate (item :: list) = item ++ list.flatMap (sep ++ ·) := by
  induction list generalizing item with
  | nil => simp
  | cons next list ih =>
    rw [List.intercalate_cons_cons, ih, List.flatMap_cons, List.append_assoc, List.append_assoc]

/-- No separator stands before the first string. -/
theorem joinLoop_first (item : Bytes) (list : List Bytes) (fuel : Nat) :
    joinLoop (item :: list) sep (fuel+1) 0 [] =
      joinLoop (item :: list) sep fuel 1 item := by
  rw [joinLoop]
  rfl

/-- Behind the first string, up to the 2^31st. -/
theorem joinLoop_eq {fuel : Nat} {done rest : List Bytes} (out : Bytes) (hdone : 0 < done.length)
    (hlen : (done ++ rest).length ≤ 2^31) (hfuel : rest.length < fuel) :
    joinLoop (done ++ rest) sep fuel (toInt done.length) out =
      .ok (out ++ rest.flatMap (sep ++ ·)) := by
  induction rest generalizing fuel done out with
  | nil =>
    obtain ⟨fuel, rfl⟩ : ∃ k, fuel = k+1 := Nat.exists_eq_add_one.2 (by omega)
    rw [List.append_nil] at hlen ⊢
    have hend : done.length ≤ (toInt done.length % 2^64).toNat := by
      unfold toInt
      omega
    rw [joinLoop, List.getElem?_eq_none hend, List.flatMap_nil, List.append_nil]
  | cons item rest ih =>
    obtain ⟨fuel, rfl⟩ : ∃ k, fuel = k+1 := Nat.exists_eq_add_one.2 (by omega)
    rw [List.length_cons] at hfuel
    rw [List.length_append, List.length_cons] at hlen
    have hint : toInt done.length = done.length := toInt_of_lt (by omega)
    have hindex : ((done.length : Int) % 2^64).toNat = done.length := by omega
    have hnext : ((done.length : Int)+1) = ((done ++ [item]).length : Nat) := by simp
    rw [joinLoop, hint, hindex, List.getElem?_append_right le_rfl, Nat.sub_self,
      List.getElem?_cons_zero]
    simp only
    rw [if_pos (by omega), hnext, List.append_cons, ih _ (by simp) (by simp; omega) (by omega),
      List.flatMap_cons]
    simp

theorem join_eq {list : List Bytes} (hlen : list.length ≤ 2^31) :
    join list sep = .ok (sep.intercalate list) := by
  cases list with
  | nil => rfl
  | cons item list =>
    have hone : toInt ([item].length : Nat) = 1 := @toInt_of_lt 1 (by decide)
    rw [join, List.length_cons, joinLoop_first, intercalate_cons, ← hone]
    exact @joinLoop_eq sep (list.length+1) [item] list item Nat.zero_lt_one hlen (by omega)

/-- As a `size_t` no index is behind the end of 2^64 strings. -/
theorem joinLoop_ne_ok {list : List Bytes} (hlen : 2^64 ≤ list.length) (fuel : Nat) (i : Int)
    (out str : Bytes) : joinLoop list sep fuel i out ≠ .ok str := by
  induction fuel generalizing i out with
  | zero => exact fun h => by cases h
  | succ fuel ih =>
    rw [joinLoop, List.getElem?_eq_getElem (by omega)]
    exact ih _ _

/-- Past 0 the index reaches each string at most once, and no more than `m` of them as a positive
number. -/
theorem length_le_of_joinLoop {list : List Bytes} (hlen : list.length < 2^64) {fuel m : Nat}
    {i : Int} {out str : Bytes} (hi : -2^31 ≤ i ∧ i < 2^31) (hne : i ≠ 0) (hm : 0 < i → 2^31-i ≤ m)
    (h : joinLoop list sep fuel i out = .ok str) :
    str.length ≤ out.length+(list.drop (i % 2^64).toNat).flatten.length+m*sep.length := by
  induction fuel generalizing i m out with
  | zero => cases h
  | succ fuel ih =>
    rw [joinLoop] at h
    by_cases hin : (i % 2^64).toNat < list.length
    · rw [List.getElem?_eq_getElem hin] at h
      have hdrop : (list.drop (toInt (i+1) % 2^64).toNat).flatten.length ≤
          (list.drop ((i % 2^64).toNat+1)).flatten.length := by
        refine (List.drop_sublist_drop_left list ?_).flatten.length_le
        unfold toInt
        omega
      rw [List.drop_eq_getElem_cons hin, List.flatten_cons, List.length_append]
      have hnext : toInt (i+1) ≠ 0 := by
        unfold toInt
        omega
      by_cases hpos : 0 < i
      · obtain ⟨m, rfl⟩ : ∃ k, m = k+1 := Nat.exists_eq_add_one.2 (by omega)
        have hle := @ih m _ _ (toInt_range _) hnext (by unfold toInt; omega) h
        rw [if_pos hpos, List.length_append, List.length_append] at hle
        rw [Nat.add_one_mul]
        omega
      · have hle := @ih m _ _ (toInt_range _) hnext (by unfold toInt; omega) h
        rw [if_neg hpos, List.length_append] at hle
        omega
    · rw [List.getElem?_eq_none (by omega)] at h
      cases h
      omega

/-- Behind 2^31 strings at least one separator is missing. -/
theorem length_lt_of_join (hne : sep ≠ []) {list : List Bytes} {str : Bytes}
    (hlen : 2^31 < list.length) (h : join list sep = .ok str) :
    str.length < (sep.intercalate list).length := by
  cases list with
  | nil => simp at hlen
  | cons item list =>
    have hmem : (item :: list).length < 2^64 := by
      by_contra hge
      exact joinLoop_ne_ok (by omega) _ _ _ _ h
    rw [join, List.length_cons, joinLoop_first] at h
    have hle := @length_le_of_joinLoop sep _ hmem _ (2^31-1) _ _ _ (by decide) (by decide)
      (by decide) h
    have hsep : (2^31-1)*sep.length < list.length*sep.length :=
      Nat.mul_lt_mul_of_pos_right (by simp at hlen; omega) (List.length_pos_of_ne_nil hne)
    have hindex : ((1 : Int) % 2^64).toNat = 1 := rfl
    rw [hindex, List.drop_one, List.tail_cons] at hle
    rw [length_intercalate]
    omega

theorem join_eq_iff (hne : sep ≠ []) (list : List Bytes) :
    join list sep = .ok (sep.intercalate list) ↔ list.length ≤ 2^31 := by
  constructor
  · intro h
    by_contra hlen
    exact Nat.lt_irrefl _ (length_lt_of_join hne (by omega) h)
  · exact join_eq

end joining

section splitting
variable {pattern : Bytes}

/-- No place comes before the first one. -/
theorem indexOf_le (a b : Bytes) {pos : Nat}
    (h : indexOf pattern (a ++ pattern ++ b) = some pos) : pos ≤ a.length := by
  induction a generalizing pos with
  | nil =>
    cases hstr : pattern ++ b with
    | nil =>
      rw [List.nil_append, hstr, indexOf, if_pos (List.append_eq_nil_iff.1 hstr).1] at h
      cases h
      exact Nat.le_refl _
    | cons c str =>
      have hmatch : pattern.isPrefixOf (c :: str) = true := by
        rw [← hstr, List.isPrefixOf_iff_prefix]
        exact List.prefix_append _ _
      rw [List.nil_append, hstr, indexOf, if_pos hmatch] at h
      cases h
      exact Nat.le_refl _
  | cons c a ih =>
    rw [List.cons_append, List.cons_append, indexOf] at h
    split at h
    · cases h
      exact Nat.zero_le _
    · obtain ⟨k, hk, rfl⟩ := Option.map_eq_some_iff.1 h
      exact Nat.succ_le_succ (ih hk)

theorem intercalate_append (a item : Bytes) (list : List Bytes) :
    a ++ pattern.intercalate (item :: list) = pattern.intercalate ((a ++ item) :: list) := by
  rw [intercalate_cons, intercalate_cons, List.append_assoc]

/-- The pieces of a string between the first places of the pattern: none contains it, and there is
no way to cut the string at the pattern into more. -/
theorem splitLoop_eq (hne : pattern ≠ []) {fuel : Nat} (done : Bytes) {rest : Bytes}
    (parts : List Bytes) (hfuel : rest.length < fuel) : ∃ pieces,
      splitLoop (done ++ rest) pattern fuel done.length parts = .ok (parts ++ pieces) ∧
      (∀ piece ∈ pieces, ¬pattern <:+: piece) ∧ pattern.intercalate pieces = rest ∧
      pieces ≠ [] ∧ ∀ list, pattern.intercalate list = rest → list.length ≤ pieces.length := by
  induction fuel generalizing done rest parts with
  | zero => exact absurd hfuel (Nat.not_lt_zero _)
  | succ fuel ih =>
    rw [splitLoop, find_append]
    rcases replaceAll_indexOf rest [] hne with ⟨hnone, -, hrest⟩ | ⟨a, b, hindex, rfl, -⟩
    · refine ⟨[rest], ?_, by simpa using hrest, List.intercalate_singleton,
        List.cons_ne_nil _ _, ?_⟩
      · rw [hnone, Option.map_none, List.drop_left]
      · rintro (- | ⟨item, - | ⟨next, list⟩⟩) hlist
        · exact Nat.zero_le _
        · exact Nat.le_refl _
        · rw [List.intercalate_cons_cons] at hlist
          exact absurd ⟨item, _, hlist⟩ hrest
    · have hpos := List.length_pos_of_ne_nil hne
      have hshift : done ++ (a ++ pattern ++ b) = done ++ a ++ pattern ++ b := by
        simp only [List.append_assoc]
      have hlen : done.length+a.length+pattern.length = (done ++ a ++ pattern).length := by
        rw [List.length_append, List.length_append]
      have hpiece : ((done ++ (a ++ pattern ++ b)).drop done.length).take
          (done.length+a.length-done.length) = a := by
        rw [List.drop_left, Nat.add_sub_cancel_left, List.append_assoc, List.take_left]
      obtain ⟨pieces, hloop, hnot, hjoin, hpieces, hmost⟩ :=
        @ih (done ++ a ++ pattern) b (parts ++ [a]) (by simp at hfuel; omega)
      refine ⟨a :: pieces, ?_, List.forall_mem_cons.2 ⟨?_, hnot⟩, ?_, List.cons_ne_nil _ _, ?_⟩
      · rw [hindex, Option.map_some]
        simp only
        rw [hpiece, hshift, hlen, hloop, List.append_assoc, List.singleton_append]
      · rintro ⟨x, y, rfl⟩
        rw [List.append_assoc (x ++ pattern ++ y), List.append_assoc (x ++ pattern)] at hindex
        have hle := indexOf_le _ _ hindex
        rw [List.length_append, List.length_append] at hle
        omega
      · rw [List.intercalate_cons_of_ne_nil hpieces, hjoin]
      · rintro (- | ⟨item, - | ⟨next, list⟩⟩) hlist
        · exact Nat.zero_le _
        · exact Nat.succ_le_succ (Nat.zero_le _)
        · rw [List.intercalate_cons_cons] at hlist
          have hle : a.length ≤ item.length := indexOf_le item _ (hlist ▸ hindex)
          obtain ⟨z, hz⟩ : ∃ z, b = z ++ pattern.intercalate (next :: list) := by
            rcases List.append_eq_append_iff.1 hlist with ⟨z, hz, hrest⟩ | ⟨z, -, hrest⟩
            · have hlength := congrArg List.length hz
              simp only [List.length_append] at hlength
              obtain rfl : z = [] := List.eq_nil_of_length_eq_zero (by omega)
              exact ⟨[], hrest.symm⟩
            · exact ⟨z, hrest⟩
          rw [intercalate_append] at hz
          exact Nat.succ_le_succ (hmost ((z ++ next) :: list) hz.symm)

theorem split_eq (hne : pattern ≠ []) (str : Bytes) : ∃ parts,
    split str pattern = .ok parts ∧ (∀ part ∈ parts, ¬pattern <:+: part) ∧
      pattern.intercalate parts = str ∧
      ∀ list, pattern.intercalate list = str → list.length ≤ parts.length := by
  obtain ⟨parts, hsplit, hnot, hjoin, -, hmost⟩ :=
    @splitLoop_eq pattern hne (str.length+1) [] str [] (Nat.lt_succ_self _)
  exact ⟨parts, hsplit, hnot, hjoin, hmost⟩

example : split (lit "aaab") (lit "aa") = .ok [[], lit "ab"] := by decide

theorem splitJoins_iff (hne : pattern ≠ []) (str : Bytes) :
    SplitJoins str pattern ↔
      ∀ list, pattern.intercalate list = str → list.length ≤ 2^31 := by
  obtain ⟨parts, hsplit, hnot, hjoin, hmost⟩ := split_eq hne str
  constructor
  · rintro ⟨parts', hsplit', -, hjoin'⟩ list hlist
    obtain rfl : parts = parts' := Result.ok.inj (hsplit.symm.trans hsplit')
    rw [← hjoin] at hjoin'
    exact (hmost list hlist).trans ((join_eq_iff hne parts).1 hjoin')
  · intro h
    refine ⟨parts, hsplit, hnot, ?_⟩
    rw [join_eq (h parts hjoin), hjoin]

end splitting

theorem joinSplits_iff {list : List Bytes} {c : UInt8} (hlist : list ≠ [])
    (hnot : ∀ part ∈ list, c ∉ part) : JoinSplits list c ↔ list.length ≤ 2^31 := by
  constructor
  · rintro ⟨str, hjoin, hsplit⟩
    rw [split_singleton] at hsplit
    have hstr : [c].intercalate list = str := by
      rw [← Result.ok.inj hsplit, List.intercalate_splitOn]
    rw [← hstr] at hjoin
    exact (join_eq_iff (List.cons_ne_nil c []) list).1 hjoin
  · intro h
    exact ⟨_, join_eq h, by rw [split_singleton, List.splitOn_intercalate c hnot hlist]⟩

/-- Splitting and joining undo each other as long as there are no more than 2^31 strings: the parts
of the one that is split, however it is cut, or those that are joined. -/
theorem split_join_inverse_iff (str pattern : Bytes) (list : List Bytes) (c : UInt8) :
    (pattern ≠ [] →
      (SplitJoins str pattern ↔ ∀ l, pattern.intercalate l = str → l.length ≤ 2^31)) ∧
    (list ≠ [] → (∀ part ∈ list, c ∉ part) →
      (JoinSplits list c ↔ list.length ≤ 2^31)) :=
  ⟨fun hne => splitJoins_iff hne str, joinSplits_iff⟩

theorem split_join_inverse_three : SplitJoins (lit "a,,b") [44] ∧
    JoinSplits [lit "a", [], lit "b"] 44 := by
  have hfew : ∀ l, [44].intercalate l = lit "a,,b" → l.length ≤ 2^31 := by
    intro l hl
    cases l with
    | nil => exact Nat.zero_le _
    | cons item l =>
      have hlength := @length_intercalate [44] item l
      rw [hl] at hlength
      have hsize : (lit "a,,b").length = 4 := by decide
      rw [hsize, List.length_singleton, Nat.mul_one] at hlength
      rw [List.length_cons]
      omega
  obtain ⟨hsplit, hjoin⟩ :=
    split_join_inverse_iff (lit "a,,b") [44] [lit "a", [], lit "b"] 44
  exact ⟨(hsplit (List.cons_ne_nil _ _)).2 hfew,
    (hjoin (List.cons_ne_nil _ _) (by decide)).2 (by decide)⟩

/-- 2^31 commas are cut into one empty string more, and the last comma is lost. -/
theorem commas_not_inverse : ¬SplitJoins (List.replicate (2^31) 44) [44] := by
  intro h
  have hcut : ∀ n, [44].intercalate (List.replicate (n+1) []) = List.replicate n (44 : UInt8) := by
    intro n
    rw [List.replicate_succ, intercalate_cons, List.flatMap_replicate]
    simp
  have hlen := (splitJoins_iff (List.cons_ne_nil 44 []) _).1 h _ (hcut (2^31))
  rw [List.length_replicate] at hlen
  omega

end Stx.StringUtil
