import Stx.Json.JSONPointer
import Stx.StringUtil.Split

/-! A `JSONPointer` as a stack of keys. The replacements that escape a key keep their position in an
`int`, so that it matters where in the text the characters are that have to be escaped. -/
namespace Stx.Json.JSONPointer
open StringUtil Rfc6901

/-- The characters behind the last slash. -/
def head (path : Bytes) : Bytes := (path.reverse.takeWhile (· ≠ 47)).reverse

/-- The keys one behind the other. -/
def pushAll (path : Bytes) : List Bytes → Result Bytes
  | [] => .ok path
  | key :: keys => do
    let path ← push path key
    pushAll path keys

/-- On pointers with keys out of `K` a push can be undone and gives the escaped key as the head, and
different sequences of keys give different pointers. -/
structure FaithfulStack (K : Bytes → Prop) : Prop where
  undone : ∀ keys key, (∀ k ∈ keys, K k) → K key → ∃ path path',
    pushAll [] keys = .ok path ∧ push path key = .ok path' ∧ pop path' = path ∧
      head path' = Rfc6901.escape key
  injective : ∀ keys keys' path, (∀ k ∈ keys, K k) → (∀ k ∈ keys', K k) →
    pushAll [] keys = .ok path → pushAll [] keys' = .ok path → keys = keys'

/-- Each tilde of the key comes to lie below 2^31 when the tildes are escaped, and each slash when
it is escaped. -/
def Escapable (key : Bytes) : Prop :=
  (∀ a b, key = a ++ 126 :: b → a.length+a.count 126 < 2^31) ∧
    ∀ a b, key = a ++ 47 :: b → (Rfc6901.escape a).length < 2^31

/- The loop of `replaceAll` with a pattern of one byte. -/

section
variable {c : UInt8} {replacement : Bytes}

/-- Behind 2^31 nothing is replaced: the position does not get there. -/
theorem replaceAllLoop_suffix (hne : replacement ≠ []) {fuel : Nat} {x s result : Bytes} {cur : Int}
    (hx : 2^31 ≤ x.length)
    (h : replaceAllLoop [c] replacement fuel (x ++ s) cur = .ok result) :
    ∃ x', result = x' ++ s ∧ 2^31 ≤ x'.length := by
  induction fuel generalizing x cur with
  | zero => cases h
  | succ fuel ih =>
    rw [replaceAllLoop] at h
    cases hfind : find (x ++ s) [c] (cur % 2^64).toNat with
    | none =>
      rw [hfind] at h
      cases h
      exact ⟨x, rfl, hx⟩
    | some pos =>
      rw [hfind] at h
      simp only at h
      have hrange := toInt_range pos
      split_ifs at h with hone hout
      · cases h
        exact ⟨x, rfl, hx⟩
      · have hcur : (toInt pos).toNat < x.length := by omega
        have htake : (x ++ s).take (toInt pos).toNat = x.take (toInt pos).toNat :=
          List.take_append_of_le_length (by omega)
        have hdrop : (x ++ s).drop ((toInt pos).toNat+[c].length)
            = x.drop ((toInt pos).toNat+1) ++ s := List.drop_append_of_le_length hcur
        rw [htake, hdrop, ← List.append_assoc] at h
        refine ih ?_ h
        have hpos := List.length_pos_of_ne_nil hne
        simp only [List.length_append, List.length_take, List.length_drop]
        omega

theorem indexOf_eq_none {s : Bytes} (h : c ∉ s) : indexOf [c] s = none := by
  simpa [indexOf] using @indexOf_append c [] s h []

theorem indexOf_append_cons {a b : Bytes} (ha : c ∉ a) :
    indexOf [c] (a ++ c :: b) = some a.length := by
  rw [indexOf_append ha]
  simp [indexOf, List.isPrefixOf]

theorem find_eq_none {d s : Bytes} (h : c ∉ s) {pos : Nat} (hpos : d.length ≤ pos) :
    find (d ++ s) [c] pos = none := by
  unfold find
  split
  · rfl
  · rw [List.drop_append, List.drop_of_length_le hpos, List.nil_append,
      indexOf_eq_none fun hc => h (List.mem_of_mem_drop hc)]
    rfl

theorem replaceAll_of_not_mem {s : Bytes} (h : c ∉ s) : replaceAll s [c] replacement = s :=
  replaceAll_of_not_infix (List.cons_ne_nil c []) fun hin =>
    h (hin.subset List.mem_cons_self)

theorem replaceAll_append_singleton (a b : Bytes) :
    replaceAll (a ++ b) [c] replacement
      = replaceAll a [c] replacement ++ replaceAll b [c] replacement := by
  rw [replaceAll_singleton, replaceAll_singleton, replaceAll_singleton, List.flatMap_append]

/-- One pass of the loop, at a match that begins below 2^31. -/
theorem replaceAllLoop_match {fuel : Nat} {d a b : Bytes}
    (hindex : indexOf [c] (a ++ c :: b) = some a.length) (hpos : d.length+a.length < 2^31) :
    replaceAllLoop [c] replacement (fuel+1) (d ++ (a ++ c :: b)) d.length =
      replaceAllLoop [c] replacement fuel (d ++ a ++ replacement ++ b)
        (toInt ((d ++ a ++ replacement).length : Nat)) := by
  have hcur : ((d.length : Int) % 2^64).toNat = d.length := by omega
  have hint : toInt ((d.length+a.length : Nat) : Int) = (d.length+a.length : Nat) :=
    toInt_of_lt hpos
  have htake : (d ++ (a ++ c :: b)).take (d.length+a.length) = d ++ a := by
    rw [← List.append_assoc, List.take_left' (by simp)]
  have hdrop : (d ++ (a ++ c :: b)).drop (d.length+a.length+[c].length) = b := by
    rw [List.append_cons, ← List.append_assoc, ← List.append_assoc,
      List.drop_left' (by simp; omega)]
  have hbig : ¬(((d.length+a.length : Nat) : Int) < 0 ∨
      ((d ++ (a ++ c :: b)).length : Int) < (d.length+a.length : Nat)) := by
    rw [List.length_append, List.length_append]
    omega
  have hlen : (((d.length+a.length : Nat) : Int)+replacement.length)
      = ((d ++ a ++ replacement).length : Nat) := by
    simp [Int.add_assoc]
  rw [replaceAllLoop, hcur, find_append, hindex]
  simp only [Option.map_some, hint]
  rw [if_neg (by omega), if_neg hbig, Int.toNat_natCast, htake, hdrop, hlen]

/-- Past 2^31 the position is negative, and as a `size_t` behind everything. -/
theorem replaceAllLoop_past {fuel : Nat} {d s : Bytes} (hs : c ∉ s) (hlo : 2^31 ≤ d.length)
    (hhi : d.length < 2^32) :
    replaceAllLoop [c] replacement (fuel+1) (d ++ s) (toInt (d.length : Nat)) = .ok (d ++ s) := by
  have hpos : d.length ≤ (toInt (d.length : Nat) % 2^64).toNat := by
    unfold toInt
    omega
  rw [replaceAllLoop, find_eq_none hs hpos]

/-- Where all matches begin below 2^31 in what comes out, the loop makes one pass. -/
theorem replaceAllLoop_singleton (hr : replacement.length ≤ 2^31) {fuel : Nat} {d rest : Bytes}
    (hfuel : rest.length < fuel) (hd : d.length < 2^31)
    (hbegin : ∀ a b, rest = a ++ c :: b →
      d.length+(replaceAll a [c] replacement).length < 2^31) :
    replaceAllLoop [c] replacement fuel (d ++ rest) d.length =
      .ok (d ++ replaceAll rest [c] replacement) := by
  induction fuel generalizing d rest with
  | zero => exact absurd hfuel (Nat.not_lt_zero _)
  | succ fuel ih =>
    rcases indexOf_singleton rest c with ⟨hc, hnone⟩ | ⟨a, b, rfl, ha, hindex⟩
    · have hcur : ((d.length : Int) % 2^64).toNat = d.length := by omega
      rw [replaceAllLoop, hcur, find_append, hnone, replaceAll_of_not_mem hc]
      rfl
    · have hfirst := hbegin a b rfl
      rw [replaceAll_of_not_mem ha] at hfirst
      rw [List.length_append, List.length_cons] at hfuel
      have hlen : (d ++ a ++ replacement).length = d.length+a.length+replacement.length := by
        rw [List.length_append, List.length_append]
      have hnext : ∀ a' b', b = a' ++ c :: b' →
          (d ++ a ++ replacement).length+(replaceAll a' [c] replacement).length < 2^31 := by
        rintro a' b' rfl
        have h := hbegin (a ++ c :: a') b' (by simp)
        rw [List.append_cons, replaceAll_append_singleton, replaceAll_append_singleton,
          replaceAll_of_not_mem ha, replaceAll_singleton [c]] at h
        simp only [List.flatMap_singleton, if_true, List.length_append] at h
        omega
      have hdone : d ++ replaceAll (a ++ c :: b) [c] replacement
          = d ++ a ++ replacement ++ replaceAll b [c] replacement := by
        rw [List.append_cons, replaceAll_append_singleton, replaceAll_append_singleton,
          replaceAll_of_not_mem ha, replaceAll_singleton [c]]
        simp
      rw [replaceAllLoop_match hindex hfirst, hdone]
      by_cases hend : (d ++ a ++ replacement).length < 2^31
      · rw [toInt_of_lt hend]
        exact ih (by omega) hend hnext
      · have hb : c ∉ b := by
          intro hmem
          obtain ⟨a', b', hb⟩ := List.append_of_mem hmem
          exact hend (Nat.lt_of_le_of_lt (Nat.le_add_right _ _) (hnext a' b' hb))
        obtain ⟨fuel, rfl⟩ : ∃ k, fuel = k+1 := Nat.exists_eq_add_one.2 (by omega)
        rw [replaceAllLoop_past hb (by omega) (by omega), replaceAll_of_not_mem hb]

/-- A match that would begin at 2^31 or behind stays where it is. -/
theorem replaceAllLoop_stays (hne : replacement ≠ []) {fuel : Nat} {d a s result : Bytes}
    (hd : d.length < 2^31) (ha : 2^31 ≤ d.length+(replaceAll a [c] replacement).length)
    (h : replaceAllLoop [c] replacement fuel (d ++ (a ++ s)) d.length = .ok result) :
    ∃ x, result = x ++ s ∧ 2^31 ≤ x.length := by
  induction fuel generalizing d a with
  | zero => cases h
  | succ fuel ih =>
    rcases indexOf_singleton a c with ⟨hc, -⟩ | ⟨a', b, rfl, ha', -⟩
    · rw [replaceAll_of_not_mem hc, ← List.length_append] at ha
      rw [← List.append_assoc] at h
      exact replaceAllLoop_suffix hne ha h
    · by_cases hfirst : d.length+a'.length < 2^31
      · rw [List.append_assoc, List.cons_append,
          replaceAllLoop_match (indexOf_append_cons ha') hfirst] at h
        rw [List.append_cons, replaceAll_append_singleton, replaceAll_append_singleton,
          replaceAll_of_not_mem ha', replaceAll_singleton [c], List.flatMap_singleton, if_pos rfl,
          List.length_append, ← Nat.add_assoc, ← List.length_append, ← List.append_assoc] at ha
        by_cases hend : (d ++ a' ++ replacement).length < 2^31
        · rw [toInt_of_lt hend] at h
          exact ih hend ha h
        · rw [← List.append_assoc] at h
          refine replaceAllLoop_suffix hne ?_ h
          rw [List.length_append]
          omega
      · rw [← List.append_assoc] at h
        refine replaceAllLoop_suffix hne ?_ h
        simp only [List.length_append]
        omega

end

/- The escaped key. -/

theorem length_replaceAll_tilde (a : Bytes) :
    (replaceAll a [126] [126, 48]).length = a.length+a.count 126 := by
  rw [replaceAll_singleton]
  induction a with
  | nil => rfl
  | cons c a ih =>
    rw [List.flatMap_cons, List.length_append, ih, List.length_cons, List.count_cons]
    by_cases hc : c = 126
    · simp [hc]
      omega
    · simp [hc]
      omega

/-- A slash of the text with the escaped tildes is one of the key. -/
theorem slash_replaceAll_tilde {key a b : Bytes}
    (h : replaceAll key [126] [126, 48] = a ++ 47 :: b) :
    ∃ a' b', key = a' ++ 47 :: b' ∧ a = replaceAll a' [126] [126, 48] := by
  rw [replaceAll_singleton] at h
  induction key generalizing a with
  | nil => simp at h
  | cons c key ih =>
    rw [List.flatMap_cons] at h
    by_cases hslash : c = 47 ∧ a = []
    · exact ⟨[], key, by rw [hslash.1]; rfl, by rw [hslash.2]; rfl⟩
    · obtain ⟨y, rfl⟩ : ∃ y, a = (if c = 126 then [126, 48] else [c]) ++ y := by
        split_ifs at h ⊢ with hc
        · rcases a with - | ⟨x, - | ⟨x', y⟩⟩
          · simp at h
          · simp at h
          · simp only [List.cons_append, List.nil_append, List.cons.injEq] at h
            exact ⟨y, by rw [← h.1, ← h.2.1]; rfl⟩
        · rcases a with - | ⟨x, y⟩
          · simp only [List.cons_append, List.nil_append, List.cons.injEq] at h
            exact absurd ⟨h.1, rfl⟩ hslash
          · simp only [List.cons_append, List.nil_append, List.cons.injEq] at h
            exact ⟨y, by rw [← h.1]; rfl⟩
      rw [List.append_assoc] at h
      obtain ⟨a', b', rfl, rfl⟩ := ih (List.append_cancel_left h)
      refine ⟨c :: a', b', rfl, ?_⟩
      rw [replaceAll_singleton, replaceAll_singleton, List.flatMap_cons]

theorem count_escape (token : Bytes) :
    (Rfc6901.escape token).count 126 = token.count 126+token.count 47 := by
  induction token with
  | nil => rfl
  | cons c token ih =>
    rw [Rfc6901.escape, List.flatMap_cons, List.count_append, ← Rfc6901.escape, ih,
      List.count_cons, List.count_cons]
    unfold Rfc6901.escapeChar
    by_cases htilde : c = 126
    · subst htilde
      simp
      omega
    · by_cases hslash : c = 47
      · subst hslash
        simp
        omega
      · simp [htilde, hslash]

/-- An escaped key has one more character behind the last tilde than the key, or a slash less. -/
theorem escape_ne (a b x : Bytes) : Rfc6901.escape (a ++ 126 :: b) ≠ x ++ 126 :: b := by
  intro h
  have hslash : b.count 47 = 0 := by
    refine List.count_eq_zero_of_not_mem fun hmem => slash_not_mem_escape (a ++ 126 :: b) ?_
    rw [h]
    simp [hmem]
  have hlen : b.length ≤ (Rfc6901.escape b).length := by
    have hle := length_le_escape b
    change (replaceAll b [126] [126, 48]).length ≤ _ at hle
    rw [length_replaceAll_tilde] at hle
    omega
  have hescape : Rfc6901.escape (a ++ 126 :: b)
      = Rfc6901.escape a ++ 126 :: 48 :: Rfc6901.escape b := by
    rw [Rfc6901.escape, List.flatMap_append, List.flatMap_cons]
    rfl
  rw [hescape] at h
  rcases List.append_eq_append_iff.1 h with ⟨y, -, hy⟩ | ⟨y, -, hy⟩
  · cases y with
    | nil =>
      have := congrArg List.length hy
      simp only [List.nil_append, List.length_cons] at this
      omega
    | cons c y =>
      rw [List.cons_append, List.cons.injEq] at hy
      have hcount := congrArg (List.count 126) hy.2
      rw [List.count_append, List.count_cons_self, List.count_cons_of_ne (by decide),
        count_escape, hslash] at hcount
      omega
  · have := congrArg List.length hy
    simp only [List.length_append, List.length_cons] at this
    omega

theorem replaceAllInt_tilde {key : Bytes}
    (h : ∀ a b, key = a ++ 126 :: b → a.length+a.count 126 < 2^31) :
    replaceAllInt key [126] [126, 48] = .ok (replaceAll key [126] [126, 48]) := by
  refine replaceAllLoop_singleton (by decide) (d := []) (Nat.lt_succ_self _) (by decide) ?_
  intro a b hkey
  rw [length_replaceAll_tilde]
  simpa using h a b hkey

theorem escape_of_escapable {key : Bytes} (h : Escapable key) :
    JSONPointer.escape key = .ok (Rfc6901.escape key) := by
  have hslash : replaceAllInt (replaceAll key [126] [126, 48]) [47] [126, 49]
      = .ok (Rfc6901.escape key) := by
    refine (replaceAllLoop_singleton (by decide) (d := []) (Nat.lt_succ_self _)
      (by decide) ?_).trans (congrArg _ (replaceAll_escape key))
    intro a b hsplit
    obtain ⟨a', b', hkey, rfl⟩ := slash_replaceAll_tilde hsplit
    change _+(replaceAll (replaceAll a' (lit "~") (lit "~0")) (lit "/") (lit "~1")).length < _
    rw [replaceAll_escape]
    simpa using h.2 a' b' hkey
  rw [JSONPointer.escape]
  exact (congrArg (· >>= _) (replaceAllInt_tilde h.1)).trans hslash

/-- A character that comes to lie at 2^31 or behind is not escaped, or the key not at all. -/
theorem escapable_of_escape {key : Bytes}
    (h : JSONPointer.escape key = .ok (Rfc6901.escape key)) : Escapable key := by
  obtain ⟨t, ht, hescape⟩ := Result.bind_eq_ok h
  have htilde : ∀ a b, key = a ++ 126 :: b → a.length+a.count 126 < 2^31 := by
    rintro a b rfl
    by_contra hge
    obtain ⟨x, rfl, hx⟩ := @replaceAllLoop_stays 126 [126, 48] (by decide) _ [] a (126 :: b) t
      (by decide) (by rw [length_replaceAll_tilde]; simp; omega) ht
    obtain ⟨y, hy, -⟩ := @replaceAllLoop_suffix 47 [126, 49] (by decide) _ x (126 :: b) _ 0 hx
      hescape
    exact escape_ne a b y hy
  refine ⟨htilde, ?_⟩
  rintro a b rfl
  by_contra hge
  have hpass : t = replaceAll a [126] [126, 48] ++ 47 :: replaceAll b [126] [126, 48] := by
    have hsplit : replaceAll (a ++ 47 :: b) [126] [126, 48]
        = replaceAll a [126] [126, 48] ++ 47 :: replaceAll b [126] [126, 48] := by
      rw [replaceAll_append_singleton, replaceAll_singleton (47 :: b), List.flatMap_cons,
        ← replaceAll_singleton]
      rfl
    exact Result.ok.inj (ht.symm.trans ((replaceAllInt_tilde htilde).trans (congrArg _ hsplit)))
  subst hpass
  have hlen : (replaceAll (replaceAll a [126] [126, 48]) [47] [126, 49]).length
      = (Rfc6901.escape a).length := congrArg List.length (replaceAll_escape a)
  obtain ⟨x, hx, -⟩ := @replaceAllLoop_stays 47 [126, 49] (by decide) _ [] _ _ _ (by decide)
    (by rw [hlen]; simp; omega) hescape
  exact slash_not_mem_escape (a ++ 47 :: b) (by rw [hx]; simp)

/- The stack. -/

theorem push_of_escapable (path : Path) {key : Bytes} (h : Escapable key) :
    push (pointer path) key = .ok (pointer (path ++ [key])) := by
  rw [push, escape_of_escapable h, Result.ok_bind, pointer_append_singleton]
  rfl

theorem head_pointer (path : Path) (key : Bytes) :
    head (pointer (path ++ [key])) = Rfc6901.escape key := by
  rw [head, pointer_append_singleton, List.reverse_append, List.reverse_cons, List.append_assoc,
    List.takeWhile_append_of_pos (ne_slash_of_mem key)]
  simp

theorem pushAll_of_escapable (path : Path) {keys : List Bytes} (h : ∀ key ∈ keys, Escapable key) :
    pushAll (pointer path) keys = .ok (pointer (path ++ keys)) := by
  induction keys generalizing path with
  | nil => rw [pushAll, List.append_nil]
  | cons key keys ih =>
    rw [List.forall_mem_cons] at h
    rw [pushAll, push_of_escapable path h.1, Result.ok_bind, ih _ h.2, List.append_assoc]
    rfl

theorem faithfulStack_of_escapable {K : Bytes → Prop} (h : ∀ key, K key → Escapable key) :
    FaithfulStack K := by
  have hall : ∀ keys : List Bytes, (∀ k ∈ keys, K k) → pushAll [] keys = .ok (pointer keys) :=
    fun keys hkeys => pushAll_of_escapable [] fun k hk => h k (hkeys k hk)
  constructor
  · intro keys key hkeys hkey
    exact ⟨pointer keys, pointer (keys ++ [key]), hall keys hkeys,
      push_of_escapable keys (h key hkey), pop_pointer keys key, head_pointer keys key⟩
  · intro keys keys' path hkeys hkeys' hpath hpath'
    rw [hall keys hkeys] at hpath
    rw [hall keys' hkeys'] at hpath'
    exact pointer_injective (Result.ok.inj (hpath.trans hpath'.symm))

/-- A key that is pushed onto the empty pointer is all there is, so its head and what is left of it
tell what the escaped key was. -/
theorem eq_of_pop_head {key escaped : Bytes} (hpop : pop (47 :: escaped) = [])
    (hhead : head (47 :: escaped) = Rfc6901.escape key) : escaped = Rfc6901.escape key := by
  have hsplit := List.takeWhile_append_dropWhile (p := (· ≠ 47)) (l := (47 :: escaped).reverse)
  unfold pop at hpop
  unfold head at hhead
  cases hrest : (47 :: escaped).reverse.dropWhile (· ≠ 47) with
  | nil =>
    have hslash : (47 : UInt8) ∈ (47 :: escaped).reverse := by simp
    rw [← hsplit, hrest, List.append_nil] at hslash
    have hne := List.mem_takeWhile_imp hslash
    exact absurd rfl (of_decide_eq_true hne)
  | cons c rest =>
    rw [hrest, List.drop_one, List.tail_cons, List.reverse_eq_nil_iff] at hpop
    subst hpop
    rw [hrest] at hsplit
    have htokens := (List.append_inj' (hsplit.trans List.reverse_cons) rfl).1
    rw [← hhead, htokens, List.reverse_reverse]

theorem escapable_of_faithfulStack {K : Bytes → Prop} (h : FaithfulStack K) {key : Bytes}
    (hkey : K key) : Escapable key := by
  obtain ⟨path, path', hpath, hpush, hpop, hhead⟩ :=
    h.undone [] key (fun k hk => absurd hk List.not_mem_nil) hkey
  obtain rfl : [] = path := Result.ok.inj hpath
  obtain ⟨escaped, hescape, hpure⟩ := Result.bind_eq_ok hpush
  obtain rfl : 47 :: escaped = path' := Result.ok.inj hpure
  rw [eq_of_pop_head hpop hhead] at hescape
  exact escapable_of_escape hescape

/-- A pointer is a stack of the keys that can be escaped and of no others. -/
theorem pointer_faithful_iff (K : Bytes → Prop) :
    FaithfulStack K ↔ ∀ key, K key → Escapable key :=
  ⟨fun h _ hkey => escapable_of_faithfulStack h hkey, faithfulStack_of_escapable⟩

/-- Not of all keys: a tilde behind 2^31 other characters stays as it is or throws. -/
theorem far_tilde_not_faithful : ¬ FaithfulStack fun _ => True := by
  intro h
  have hkey := (@escapable_of_faithfulStack _ h (List.replicate (2^31) 97 ++ [126]) trivial).1
    (List.replicate (2^31) 97) [] rfl
  rw [List.length_replicate] at hkey
  omega

end Stx.Json.JSONPointer
