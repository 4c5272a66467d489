import Stx.Json.JSONUtil

/-! Where `objectLookup` ends up. The loop takes a key to be one token and a value to be one span,
so it comes out of an object at its closing token only when the tokens pair up that way. -/
namespace Stx.Json.JSONUtil
open Brackets

/-- How the pairs of a key and a value go through a forest: the key is found at an offset, or the
walk comes behind the last token where it takes a key or a value next. -/
inductive Walk where
  | found (offset : Nat)
  | behind (takesKey : Bool)
  deriving DecidableEq

def Walk.shift (n : Nat) : Walk → Walk
  | found offset => found (offset+n)
  | behind takesKey => behind takesKey

/-- A key is one token, so a bracket that opens in its place leads to what is inside. -/
def walk (key : Bytes) : TokenForest → Bool → Walk
  | .nil, takesKey => .behind takesKey
  | .atom a rest, true => if a = .string key then .found 0 else (walk key rest false).shift 1
  | .atom _ rest, false => (walk key rest true).shift 1
  | .node _ _ inner rest, true =>
    match walk key inner false with
    | .found offset => .found (offset+1)
    | .behind takesKey => (walk key rest !takesKey).shift (inner.spans.length+2)
  | .node _ _ inner rest, false => (walk key rest true).shift (inner.spans.length+2)

theorem Walk.shift_eq_found {w : Walk} {n offset : Nat} (h : w.shift n = .found offset) :
    ∃ o, w = .found o ∧ offset = o+n := by
  cases w with
  | found o =>
    cases h
    exact ⟨o, rfl, rfl⟩
  | behind m => cases h

theorem offset_lt {key : Bytes} {g : TokenForest} {takesKey : Bool} {offset : Nat}
    (h : walk key g takesKey = .found offset) : offset < g.spans.length := by
  induction g generalizing takesKey offset with
  | nil => cases h
  | atom a rest ih =>
    have hlen : (Forest.atom a rest : TokenForest).spans.length = rest.spans.length+1 := rfl
    have hrest : ∀ m, (walk key rest m).shift 1 = .found offset → offset < rest.spans.length+1 := by
      intro m hm
      obtain ⟨o, ho, rfl⟩ := Walk.shift_eq_found hm
      exact Nat.succ_lt_succ (ih ho)
    rw [hlen]
    cases takesKey with
    | true =>
      rw [walk] at h
      split at h
      · cases h
        exact Nat.succ_pos _
      · exact hrest false h
    | false => exact hrest true h
  | node b e inner rest ihi ihr =>
    have hrest : ∀ m, (walk key rest m).shift (inner.spans.length+2) = .found offset →
        offset < inner.spans.length+2+rest.spans.length := by
      intro m hm
      obtain ⟨o, ho, rfl⟩ := Walk.shift_eq_found hm
      have := ihr ho
      omega
    rw [Forest.length_node]
    cases takesKey with
    | true =>
      rw [walk] at h
      cases hinner : walk key inner false with
      | found o =>
        rw [hinner] at h
        cases h
        have := ihi hinner
        omega
      | behind m =>
        rw [hinner] at h
        exact hrest _ h
    | false => exact hrest true h

def IsKey (key : Bytes) (t : JSONToken) : Prop := t.type = .string ∧ t.data = key

/-- The pairs behind the object that the walk came out of: it ends with the vector, or the key is
the last token. -/
inductive Stray (key : Bytes) : JSONObject → Prop
  | done : Stray key []
  | last (t : JSONToken) (hkey : IsKey key t) : Stray key [t]
  | pair (t value : JSONToken) (rest : JSONObject) (hkey : ¬IsKey key t)
    (hrest : Stray key ((value :: rest).drop value.size.toNat)) : Stray key (t :: value :: rest)

/-- The key is found in front of the last token of the object, or the pairs come out even, or what
the walk does behind the object has no effect. -/
def StaysInside (key : Bytes) (inner : TokenForest) (post : JSONObject) : Prop :=
  match walk key inner true with
  | .found offset => offset+1 < inner.spans.length
  | .behind true => True
  | .behind false => Stray key post

/-- The lookup returns the end, or a position behind the first and in front of the last token. -/
def LookupInside (obj : JSONObject) (i : Nat) (t : JSONToken) (key : Bytes) : Prop :=
  ∃ r, objectLookup obj i obj.length key = .ok r ∧
    (r = obj.length ∨ i < r ∧ r < i+t.size.toNat-1)

section loop
variable (obj : JSONObject) (oend : Nat) (key : Bytes)

/-- The loop where it takes a key, with fuel to spare. -/
def keyTurn (p : Nat) : Result Nat :=
  objectLookupLoop obj obj.length oend key (obj.length-p+1) p

/-- The loop where it takes a value. -/
def valueTurn (p : Nat) : Result Nat :=
  if p = oend then .ok obj.length
  else do
    let value ← deref obj p
    keyTurn obj oend key (p+value.size.toNat)

def turn (takesKey : Bool) (p : Nat) : Result Nat :=
  if takesKey then keyTurn obj oend key p else valueTurn obj oend key p

variable {obj oend key}

theorem objectLookupLoop_eq {p fuel : Nat} (h : obj.length-p < fuel) :
    objectLookupLoop obj obj.length oend key fuel p = keyTurn obj oend key p := by
  suffices hfuel : ∀ m n p, obj.length-p < m → obj.length-p < n →
      objectLookupLoop obj obj.length oend key m p = objectLookupLoop obj obj.length oend key n p from
    hfuel fuel _ p h (Nat.lt_succ_self _)
  intro m
  induction m with
  | zero => exact fun n p hm => absurd hm (Nat.not_lt_zero _)
  | succ m ih =>
    intro n p hm hn
    cases n with
    | zero => exact absurd hn (Nat.not_lt_zero _)
    | succ n =>
      rw [objectLookupLoop, objectLookupLoop]
      by_cases hp : p < obj.length
      · have hnext : ∀ q, p < q → objectLookupLoop obj obj.length oend key m q =
            objectLookupLoop obj obj.length oend key n q := by
          intro q hq
          by_cases hq' : q < obj.length
          · exact ih n q (by omega) (by omega)
          · exact ih n q (by omega) (by omega)
        rw [if_pos hp, if_pos hp]
        have hvalue : ∀ value : JSONToken,
            objectLookupLoop obj obj.length oend key m (p+1+value.size.toNat) =
              objectLookupLoop obj obj.length oend key n (p+1+value.size.toNat) :=
          fun value => hnext _ (by omega)
        simp only [hvalue]
      · rw [if_neg hp, if_neg hp]

theorem keyTurn_end {p : Nat} (h : obj.length ≤ p) : keyTurn obj oend key p = .ok obj.length := by
  rw [keyTurn, objectLookupLoop, if_neg (Nat.not_lt.2 h)]

theorem keyTurn_eq {p : Nat} {t : JSONToken} (h : obj[p]? = some t) :
    keyTurn obj oend key p =
      if t.type = .string ∧ t.data = key then .ok (p+1) else valueTurn obj oend key (p+1) := by
  have hp : p < obj.length := (List.getElem?_eq_some_iff.1 h).1
  rw [keyTurn, objectLookupLoop, if_pos hp, deref_eq h, Result.ok_bind]
  by_cases hkey : t.type = .string ∧ t.data = key
  · rw [if_pos hkey, if_pos hkey]
    rfl
  · rw [if_neg hkey, if_neg hkey, valueTurn]
    by_cases hend : p+1 = oend
    · rw [if_pos hend, if_pos hend]
      rfl
    · rw [if_neg hend, if_neg hend]
      congr 1
      funext value
      exact objectLookupLoop_eq (by omega)

theorem keyTurn_other {p : Nat} {x : Symbol × Nat} (h : obj[p]? = some (cell x))
    (hkey : x.1 ≠ .atom (.string key)) :
    keyTurn obj oend key p = valueTurn obj oend key (p+1) := by
  rw [keyTurn_eq h, if_neg]
  rintro ⟨htype, hdata⟩
  apply hkey
  have htoken : tokenOf x.1 = (.string, key) := Prod.ext htype hdata
  rw [← symbolOf_tokenOf x.1, htoken]
  rfl

theorem keyTurn_found {p n : Nat} (h : obj[p]? = some (cell (.atom (.string key), n))) :
    keyTurn obj oend key p = .ok (p+1) := by
  rw [keyTurn_eq h, if_pos ⟨rfl, rfl⟩]

theorem valueTurn_eq {p : Nat} {t : JSONToken} (h : obj[p]? = some t) (hp : p ≠ oend) :
    valueTurn obj oend key p = keyTurn obj oend key (p+t.size.toNat) := by
  rw [valueTurn, if_neg hp, deref_eq h]
  rfl

/-- The tokens of `g` stand in the vector from position `p` on. -/
def At (obj : JSONObject) (p : Nat) (g : TokenForest) : Prop :=
  ∃ rest, obj.drop p = document g ++ rest

theorem At.atom {p : Nat} {a : Scalar} {rest : TokenForest} (h : At obj p (.atom a rest)) :
    obj[p]? = some (cell (.atom a, 1)) ∧ At obj (p+1) rest := by
  obtain ⟨left, hdrop⟩ := h
  constructor
  · rw [← List.head?_drop, hdrop]
    rfl
  · exact ⟨left, by rw [← List.drop_drop, hdrop]; rfl⟩

theorem At.node {p : Nat} {b e : Bracket} {inner rest : TokenForest}
    (h : At obj p (.node b e inner rest)) :
    obj[p]? = some (cell (.opens b, inner.spans.length+2)) ∧ At obj (p+1) inner ∧
      obj[p+1+inner.spans.length]? = some (cell (.closes e, 1)) ∧
      At obj (p+(inner.spans.length+2)) rest := by
  obtain ⟨left, hdrop⟩ := h
  have hinner : obj.drop (p+1) = document inner ++ (cell (.closes e, 1) :: document rest ++ left) := by
    rw [← List.drop_drop, hdrop]
    simp [document, Forest.spans]
  have hlast : obj.drop (p+1+inner.spans.length) = cell (.closes e, 1) :: document rest ++ left := by
    rw [← List.drop_drop, hinner, ← length_document, List.drop_left]
  refine ⟨?_, ⟨_, hinner⟩, ?_, left, ?_⟩
  · rw [← List.head?_drop, hdrop]
    rfl
  · rw [← List.head?_drop, hlast]
    rfl
  · rw [show p+(inner.spans.length+2) = p+1+inner.spans.length+1 by omega, ← List.drop_drop, hlast]
    rfl

theorem opens_ne {b : Bracket} : (.opens b : Symbol) ≠ .atom (.string key) := nofun

theorem closes_ne {e : Bracket} : (.closes e : Symbol) ≠ .atom (.string key) := nofun

/-- In front of the end of the object the loop goes through a forest as `walk` says. -/
theorem turn_walk {g : TokenForest} {p : Nat} (h : At obj p g) (hlt : p+g.spans.length < oend)
    (hsize : g.spans.length < 2^32) (takesKey : Bool) :
    turn obj oend key takesKey p =
      match walk key g takesKey with
      | .found offset => .ok (p+offset+1)
      | .behind takesKey => turn obj oend key takesKey (p+g.spans.length) := by
  induction g generalizing p takesKey with
  | nil => rfl
  | atom a rest ih =>
    obtain ⟨hp, hrest⟩ := h.atom
    have hlen : (Forest.atom a rest : TokenForest).spans.length = rest.spans.length+1 := rfl
    rw [hlen] at hlt hsize ⊢
    have hnext := fun m => ih hrest (by omega) (by omega) m
    have hshift : p+1+rest.spans.length = p+(rest.spans.length+1) := by omega
    cases takesKey with
    | true =>
      change keyTurn obj oend key p = _
      by_cases hkey : a = .string key
      · subst hkey
        rw [walk, if_pos rfl, keyTurn_found hp]
      · rw [keyTurn_other hp fun he => hkey (by cases he; rfl), walk, if_neg hkey]
        refine (hnext false).trans ?_
        rw [hshift]
        cases walk key rest false with
        | found offset => simp only [Walk.shift, Nat.add_assoc, Nat.add_comm 1]
        | behind m => rfl
    | false =>
      change valueTurn obj oend key p = _
      rw [valueTurn_eq hp (by omega), size_cell (by omega), walk]
      refine (hnext true).trans ?_
      rw [hshift]
      cases walk key rest true with
      | found offset => simp only [Walk.shift, Nat.add_assoc, Nat.add_comm 1]
      | behind m => rfl
  | node b e inner rest ihi ihr =>
    obtain ⟨hp, hinner, hlast, hrest⟩ := h.node
    rw [Forest.length_node] at hlt hsize ⊢
    have hnext := fun m => ihr hrest (by omega) (by omega) m
    have hshift : p+(inner.spans.length+2)+rest.spans.length =
        p+(inner.spans.length+2+rest.spans.length) := by omega
    have hbehind : ∀ m, turn obj oend key m (p+(inner.spans.length+2)) =
        match (walk key rest m).shift (inner.spans.length+2) with
        | .found offset => .ok (p+offset+1)
        | .behind m => turn obj oend key m (p+(inner.spans.length+2+rest.spans.length)) := by
      intro m
      rw [hnext m, hshift]
      cases walk key rest m with
      | found offset => simp only [Walk.shift, Nat.add_assoc, Nat.add_comm offset]
      | behind m => rfl
    cases takesKey with
    | true =>
      change keyTurn obj oend key p = _
      rw [keyTurn_other hp opens_ne, walk]
      refine (ihi hinner (by omega) (by omega) false).trans ?_
      cases walk key inner false with
      | found offset => simp only [Nat.add_assoc, Nat.add_comm 1]
      | behind m =>
        -- the closing bracket inside is a key or a value of its own
        simp only
        rw [← hbehind]
        have hpos : p+1+inner.spans.length+1 = p+(inner.spans.length+2) := by omega
        cases m with
        | true =>
          change keyTurn obj oend key _ = valueTurn obj oend key _
          rw [keyTurn_other hlast closes_ne, hpos]
        | false =>
          change valueTurn obj oend key _ = keyTurn obj oend key _
          rw [valueTurn_eq hlast (by omega), size_cell (by omega), hpos]
    | false =>
      change valueTurn obj oend key p = _
      rw [valueTurn_eq hp (by omega), size_cell (by omega), walk]
      exact hbehind true

/-- Behind the object the walk does no harm exactly when it ends with the vector. -/
theorem keyTurn_stray {p : Nat} (hp : oend ≤ p) {low high : Nat} (hhigh : high < oend) :
    (∃ r, keyTurn obj oend key p = .ok r ∧ (r = obj.length ∨ low < r ∧ r < high)) ↔
      Stray key (obj.drop p) := by
  induction hn : obj.length-p using Nat.strong_induction_on generalizing p with
  | _ n ih =>
    cases hdrop : obj.drop p with
    | nil =>
      have hle : obj.length ≤ p := List.drop_eq_nil_iff.1 hdrop
      exact ⟨fun _ => .done, fun _ => ⟨_, keyTurn_end hle, .inl rfl⟩⟩
    | cons t rest =>
      have ht : obj[p]? = some t := by rw [← List.head?_drop, hdrop]; rfl
      have hlt : p < obj.length := (List.getElem?_eq_some_iff.1 ht).1
      have hlen : obj.length = p+(rest.length+1) := by
        have hcount := congrArg List.length hdrop
        rw [List.length_drop, List.length_cons] at hcount
        omega
      have hbehind : obj.drop (p+1) = rest := by rw [← List.drop_drop, hdrop]; rfl
      rw [keyTurn_eq ht]
      by_cases hkey : t.type = .string ∧ t.data = key
      · simp only [if_pos hkey, Result.ok.injEq, exists_eq_left']
        cases rest with
        | nil => exact ⟨fun _ => .last t hkey, fun _ => .inl (by rw [hlen]; rfl)⟩
        | cons value rest =>
          rw [List.length_cons] at hlen
          constructor
          · intro h
            omega
          · intro h
            cases h with
            | pair _ _ _ hnot _ => exact absurd hkey hnot
      · rw [if_neg hkey]
        cases rest with
        | nil =>
          have hnone : obj[p+1]? = none := by
            rw [List.getElem?_eq_none_iff, hlen]
            exact Nat.le_refl _
          rw [valueTurn, if_neg (by omega), deref, hnone]
          constructor
          · rintro ⟨r, hr, -⟩
            cases hr
          · intro h
            cases h with
            | last _ hkey' => exact absurd hkey' hkey
        | cons value rest =>
          have hvalue : obj[p+1]? = some value := by rw [← List.head?_drop, hbehind]; rfl
          have htail : obj.drop (p+1+value.size.toNat) = (value :: rest).drop value.size.toNat := by
            rw [← List.drop_drop, hbehind]
          rw [valueTurn_eq hvalue (by omega), ih (obj.length-(p+1+value.size.toNat)) (by omega)
            (by omega) rfl, htail]
          constructor
          · exact .pair t value rest hkey
          · intro h
            cases h with
            | pair _ _ _ _ hrest => exact hrest

end loop

/-- What a lookup in an object does, by the tokens inside and behind the object. -/
theorem lookupInside_iff {obj pre post : JSONObject} {inner : TokenForest} {e : Bracket}
    (hobj : obj = pre ++ document (.node .object e inner .nil) ++ post) (hlen : obj.length < 2^32)
    (key : Bytes) :
    LookupInside obj pre.length (cell (.opens .object, inner.spans.length+2)) key ↔
      StaysInside key inner post := by
  have hcount : obj.length = pre.length+(inner.spans.length+2)+post.length := by
    rw [hobj]
    simp only [List.length_append, length_document, Forest.length_node]
    rfl
  have hat : At obj pre.length (.node .object e inner .nil) :=
    ⟨post, by rw [hobj, List.append_assoc, List.drop_left]⟩
  obtain ⟨hfirst, hinner, hlast, -⟩ := hat.node
  have hpost : obj.drop (pre.length+(inner.spans.length+2)) = post := by
    rw [hobj, List.drop_left' (by simp [Forest.spans])]
  have hsize : (cell (.opens .object, inner.spans.length+2)).size.toNat = inner.spans.length+2 :=
    size_cell (by omega)
  have htype : ¬(cell (.opens .object, inner.spans.length+2)).type ≠ .objectBegin :=
    not_not_intro rfl
  have hlookup : objectLookup obj pre.length obj.length key =
      keyTurn obj (pre.length+(inner.spans.length+2)) key (pre.length+1) := by
    rw [objectLookup, if_neg (by omega), deref_eq hfirst, Result.ok_bind, if_neg htype, hsize,
      if_neg (by omega)]
    exact objectLookupLoop_eq (by omega)
  have hwalk := @turn_walk obj (pre.length+(inner.spans.length+2)) key _ _ hinner
    (by omega : pre.length+1+inner.spans.length < pre.length+(inner.spans.length+2)) (by omega) true
  rw [LookupInside, hlookup, StaysInside, hsize]
  change keyTurn obj _ key _ = _ at hwalk
  rw [hwalk]
  cases hfound : walk key inner true with
  | found offset =>
    have hoffset := offset_lt hfound
    simp only [Result.ok.injEq, exists_eq_left']
    omega
  | behind takesKey =>
    cases takesKey with
    | true =>
      change (∃ r, keyTurn obj _ key _ = .ok r ∧ _) ↔ True
      rw [keyTurn_other hlast closes_ne, valueTurn, if_pos (by omega)]
      exact ⟨fun _ => trivial, fun _ => ⟨_, rfl, .inl rfl⟩⟩
    | false =>
      change (∃ r, valueTurn obj _ key _ = .ok r ∧ _) ↔ Stray key post
      rw [valueTurn_eq hlast (by omega), size_cell (by omega), ← hpost,
        show pre.length+1+inner.spans.length+1 = pre.length+(inner.spans.length+2) by omega]
      exact keyTurn_stray (Nat.le_refl _) (by omega)

/-- Every object of a parsed document stands between what is in front of it and what is behind. -/
theorem exists_object {f : TokenForest} (hlen : (document f).length < 2^32) {i : Nat}
    {t : JSONToken} (ht : (document f)[i]? = some t) (htype : t.type = .objectBegin) :
    ∃ pre e inner post, document f = pre ++ document (.node .object e inner .nil) ++ post ∧
      pre.length = i ∧ t = cell (.opens .object, inner.spans.length+2) := by
  rw [length_document] at hlen
  obtain ⟨s, hs, hcell⟩ := span_of_document hlen ht
  have hopens : s = .opens .object := by
    rw [hcell] at htype
    cases s with
    | opens b =>
      cases b with
      | object => rfl
      | array => cases htype
    | closes e => cases e <;> cases htype
    | atom a => cases a <;> cases htype
  subst hopens
  obtain ⟨pre, e, inner, post, hf, rfl, hn⟩ := Forest.exists_node hs
  refine ⟨pre.map cell, e, inner, post.map cell, ?_, List.length_map _, by rw [← hn]; exact hcell⟩
  simp only [document, hf, List.map_append]

/-- For every object of a parsed document and every key: the lookup stays inside exactly when the
tokens pair up inside the object, or what comes behind does no harm. -/
theorem objectLookup_inside_iff {text : Bytes} {obj : JSONObject} (h : parseJSON text = .ok obj)
    (hlen : obj.length < 2^32) {i : Nat} {t : JSONToken} (ht : obj[i]? = some t)
    (htype : t.type = .objectBegin) :
    ∃ pre e inner post, obj = pre ++ document (.node .object e inner .nil) ++ post ∧
      pre.length = i ∧ ∀ key, LookupInside obj i t key ↔ StaysInside key inner post := by
  obtain ⟨-, f, -, rfl⟩ := parseJSON_ok_iff.1 h
  obtain ⟨pre, e, inner, post, hsplit, rfl, rfl⟩ := exists_object hlen ht htype
  exact ⟨pre, e, inner, post, hsplit, rfl, lookupInside_iff hsplit hlen⟩

/-- `{"a": 1}`. -/
def pairObject : JSONObject :=
  [⟨.objectBegin, [], 4⟩, ⟨.string, lit "a", 1⟩, ⟨.number, lit "1", 1⟩, ⟨.objectEnd, [], 1⟩]

theorem objectLookup_inside_sample : ∃ pre e inner post,
    pairObject = pre ++ document (.node .object e inner .nil) ++ post ∧ pre.length = 0 ∧
      ∀ key, LookupInside pairObject 0 ⟨.objectBegin, [], 4⟩ key ↔ StaysInside key inner post :=
  @objectLookup_inside_iff (lit "\x7b\"a\": 1\x7d") pairObject (by decide +kernel) (by decide) 0
    ⟨.objectBegin, [], 4⟩ rfl rfl

/-- `[{"a"}, "b", 1]`: the value of "b" is found in the object in front of it. -/
def valuelessArray : JSONObject :=
  [⟨.arrayBegin, [], 7⟩, ⟨.objectBegin, [], 3⟩, ⟨.string, lit "a", 1⟩, ⟨.objectEnd, [], 1⟩,
    ⟨.string, lit "b", 1⟩, ⟨.number, lit "1", 1⟩, ⟨.arrayEnd, [], 1⟩]

theorem valuelessArray_not_inside :
    parseJSON (lit "[\x7b\"a\"\x7d, \"b\", 1]") = .ok valuelessArray ∧
      valuelessArray[1]? = some ⟨.objectBegin, [], 3⟩ ∧
      ¬LookupInside valuelessArray 1 ⟨.objectBegin, [], 3⟩ (lit "b") := by
  refine ⟨by decide +kernel, rfl, ?_⟩
  rintro ⟨r, hr, hin⟩
  have hfive : objectLookup valuelessArray 1 valuelessArray.length (lit "b") = .ok 5 := by decide
  rw [hfive] at hr
  cases hr
  revert hin
  decide

end Stx.Json.JSONUtil
