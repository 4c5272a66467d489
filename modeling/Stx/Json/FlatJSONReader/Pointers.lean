import Stx.Json.FlatJSONReader.Walk

/-! Which pointers the reader reports, against those of RFC 6901. The token that an array leaves
behind on the path makes every later path longer than it should be. -/
namespace Stx.Json.FlatJSONReader
open Rfc8259 Rfc6901 JSONInputStream
open StringUtil (toInt toStringInt)

mutual
def hasLeaf : Value → Bool
  | .null => true
  | .true => true
  | .false => true
  | .string _ => true
  | .number _ => true
  | .array elems => hasLeafElems elems
  | .object members => hasLeafMembers members

def hasLeafElems : List Value → Bool
  | [] => false
  | v :: elems => hasLeaf v || hasLeafElems elems

def hasLeafMembers : List (Str × Value) → Bool
  | [] => false
  | (_, v) :: members => hasLeaf v || hasLeafMembers members
end

mutual
def hasArray : Value → Bool
  | .null => false
  | .true => false
  | .false => false
  | .string _ => false
  | .number _ => false
  | .array _ => true
  | .object members => hasArrayMembers members

def hasArrayMembers : List (Str × Value) → Bool
  | [] => false
  | (_, v) :: members => hasArray v || hasArrayMembers members
end

mutual
/-- No scalar stands behind the end of a nested array, below an index that wraps, or below a key
with a `\u` escape. -/
def Reached : Value → Prop
  | .null => True
  | .true => True
  | .false => True
  | .string _ => True
  | .number _ => True
  | .array elems => ReachedElems 0 elems
  | .object members => ReachedMembers members

/-- The elements from the `i`-th on. -/
def ReachedElems (i : Nat) : List Value → Prop
  | [] => True
  | v :: elems =>
    (hasLeaf v → i < 2^31) ∧ Reached v ∧ (hasArray v → hasLeafElems elems = false) ∧
      ReachedElems (i+1) elems

def ReachedMembers : List (Str × Value) → Prop
  | [] => True
  | (k, v) :: members =>
    (hasLeaf v → k.hasUnicode = false) ∧ Reached v ∧ (hasArray v → hasLeafMembers members = false) ∧
      ReachedMembers members
end

section paths
variable {elems : List Value} {members : List (Str × Value)}

/- As many reports as there are scalars. -/

theorem length_calls_elems
    (ih : ∀ v ∈ elems, ∀ p q, (walk p v).1.length = (leaves Str.decode q v).length)
    (p q : Path) (i : Nat) :
    (walkElems p i elems).1.length = (leavesElems Str.decode q i elems).length := by
  induction elems generalizing p i with
  | nil => rfl
  | cons v elems ihe =>
    simp only [walkElems, leavesElems, List.length_append]
    rw [ih v List.mem_cons_self _ (q ++ [index i]),
      ihe (fun w hw => ih w (List.mem_cons_of_mem v hw))]

theorem length_calls_members
    (ih : ∀ m ∈ members, ∀ p q, (walk p m.2).1.length = (leaves Str.decode q m.2).length)
    (p q : Path) :
    (walkMembers p members).1.length = (leavesMembers Str.decode q members).length := by
  induction members generalizing p with
  | nil => rfl
  | cons m members ihm =>
    cases m with
    | mk k v =>
      have hv : ∀ p q, (walk p v).1.length = (leaves Str.decode q v).length :=
        ih (k, v) List.mem_cons_self
      simp only [walkMembers, leavesMembers, List.length_append]
      rw [hv _ (q ++ [k.decode]), ihm (fun w hw => ih w (List.mem_cons_of_mem _ hw))]

theorem length_calls (v : Value) (p q : Path) :
    (walk p v).1.length = (leaves Str.decode q v).length := by
  induction v using Json.induction generalizing p q with
  | null | true | false | string _ | number _ => rfl
  | array elems ih => exact length_calls_elems ih p q 0
  | object members ih => exact length_calls_members ih p q

/- A value without a scalar has no pointers. -/

theorem leavesElems_eq_nil (ih : ∀ v ∈ elems, ∀ q, leaves Str.decode q v = [] ↔ hasLeaf v = false)
    (q : Path) (i : Nat) : leavesElems Str.decode q i elems = [] ↔ hasLeafElems elems = false := by
  induction elems generalizing i with
  | nil => exact iff_of_true rfl rfl
  | cons v elems ihe =>
    rw [leavesElems, hasLeafElems, List.append_eq_nil_iff, Bool.or_eq_false_iff,
      ih v List.mem_cons_self, ihe fun w hw => ih w (List.mem_cons_of_mem v hw)]

theorem leavesMembers_eq_nil
    (ih : ∀ m ∈ members, ∀ q, leaves Str.decode q m.2 = [] ↔ hasLeaf m.2 = false)
    (q : Path) : leavesMembers Str.decode q members = [] ↔ hasLeafMembers members = false := by
  induction members with
  | nil => exact iff_of_true rfl rfl
  | cons m members ihm =>
    cases m with
    | mk k v =>
      have hv : ∀ q, leaves Str.decode q v = [] ↔ hasLeaf v = false := ih (k, v) List.mem_cons_self
      rw [leavesMembers, hasLeafMembers, List.append_eq_nil_iff, Bool.or_eq_false_iff, hv,
        ihm fun w hw => ih w (List.mem_cons_of_mem _ hw)]

theorem leaves_eq_nil (v : Value) (q : Path) : leaves Str.decode q v = [] ↔ hasLeaf v = false := by
  induction v using Json.induction generalizing q with
  | null | true | false | string _ | number _ => simp [leaves, hasLeaf]
  | array elems ih => exact leavesElems_eq_nil ih q 0
  | object members ih => exact leavesMembers_eq_nil ih q

theorem calls_eq_nil {v : Value} (h : hasLeaf v = false) (p : Path) : (walk p v).1 = [] := by
  rw [← List.length_eq_zero_iff, length_calls v p [], (leaves_eq_nil v []).2 h, List.length_nil]

/- Only arrays leave a token behind. -/

theorem walkMembers_snd
    (ih : ∀ m ∈ members, ∀ p, (hasArray m.2 = false → (walk p m.2).2 = p) ∧
      (hasArray m.2 → p.length < (walk p m.2).2.length)) (p : Path) :
    (hasArrayMembers members = false → (walkMembers p members).2 = p) ∧
      (hasArrayMembers members → p.length < (walkMembers p members).2.length) := by
  induction members generalizing p with
  | nil => exact ⟨fun _ => rfl, nofun⟩
  | cons m members ihm =>
    cases m with
    | mk k v =>
      have hv : (hasArray v = false → (walk (p ++ [kept k]) v).2 = p ++ [kept k]) ∧
          (hasArray v → (p ++ [kept k]).length < (walk (p ++ [kept k]) v).2.length) :=
        ih (k, v) List.mem_cons_self _
      have hrest := ihm fun w hw => ih w (List.mem_cons_of_mem _ hw)
      have hkeep := @length_walkMembers members (fun m _ => length_walk m.2)
        (walk (p ++ [kept k]) v).2.dropLast
      simp only [walkMembers, hasArrayMembers, Bool.or_eq_false_iff, Bool.or_eq_true]
      constructor
      · rintro ⟨hno, hnos⟩
        rw [hv.1 hno, List.dropLast_concat]
        exact (hrest p).1 hnos
      · intro hsome
        cases harray : hasArray v with
        | true =>
          have hlt := hv.2 harray
          rw [List.length_append, List.length_singleton] at hlt
          rw [List.length_dropLast] at hkeep
          omega
        | false =>
          rw [harray] at hsome
          rw [hv.1 harray, List.dropLast_concat]
          exact (hrest p).2 (hsome.resolve_left Bool.false_ne_true)

theorem walk_snd (v : Value) (p : Path) :
    (hasArray v = false → (walk p v).2 = p) ∧ (hasArray v → p.length < (walk p v).2.length) := by
  induction v using Json.induction generalizing p with
  | null | true | false | string _ | number _ => exact ⟨fun _ => rfl, nofun⟩
  | array elems ih => exact ⟨nofun, fun _ => length_walkElems (fun v _ => length_walk v) p 0⟩
  | object members ih => exact walkMembers_snd ih p

/- The first report of a walk is below the path that the walk began with. -/

/-- Between the path at the beginning and the first report are at least as many tokens as should
be. -/
def FirstBelow (p q : Path) (calls pointers : List Path) : Prop :=
  ∀ c ∈ calls.head?, ∀ d ∈ pointers.head?, d.length+p.length ≤ c.length+q.length

theorem FirstBelow.append {p p' q : Path} {a b : Bytes} {xs ys xs' ys' : List Path}
    (h : FirstBelow (p ++ [a]) (q ++ [b]) xs ys) (h' : FirstBelow p' q xs' ys')
    (hlen : xs.length = ys.length) (hp : p.length ≤ p'.length) :
    FirstBelow p q (xs ++ xs') (ys ++ ys') := by
  intro c hc d hd
  cases xs with
  | nil =>
    obtain rfl := List.length_eq_zero_iff.1 hlen.symm
    have := h' c hc d hd
    omega
  | cons x xs =>
    cases ys with
    | nil => cases hlen
    | cons y ys =>
      have := h c hc d hd
      simp only [List.length_append, List.length_singleton] at this
      omega

theorem firstBelow_elems
    (ih : ∀ v ∈ elems, ∀ p q, FirstBelow p q (walk p v).1 (leaves Str.decode q v))
    (p q : Path) (i : Nat) :
    FirstBelow p q (walkElems p i elems).1 (leavesElems Str.decode q i elems) := by
  induction elems generalizing p i with
  | nil =>
    intro c hc
    cases hc
  | cons v elems ihe =>
    rw [walkElems, leavesElems]
    have hkeep := length_walk v (p ++ [toStringInt (toInt i)])
    rw [List.length_append, List.length_singleton] at hkeep
    refine (ih v List.mem_cons_self _ _).append
      (ihe (fun w hw => ih w (List.mem_cons_of_mem v hw)) _ (i+1)) (length_calls v _ _) ?_
    rw [List.length_dropLast]
    omega

theorem firstBelow_members
    (ih : ∀ m ∈ members, ∀ p q, FirstBelow p q (walk p m.2).1 (leaves Str.decode q m.2))
    (p q : Path) :
    FirstBelow p q (walkMembers p members).1 (leavesMembers Str.decode q members) := by
  induction members generalizing p with
  | nil =>
    intro c hc
    cases hc
  | cons m members ihm =>
    cases m with
    | mk k v =>
      have hv : ∀ p q, FirstBelow p q (walk p v).1 (leaves Str.decode q v) :=
        ih (k, v) List.mem_cons_self
      have hkeep := length_walk v (p ++ [kept k])
      rw [List.length_append, List.length_singleton] at hkeep
      rw [walkMembers, leavesMembers]
      refine (hv _ _).append (ihm (fun w hw => ih w (List.mem_cons_of_mem _ hw)) _)
        (length_calls v _ _) ?_
      rw [List.length_dropLast]
      omega

theorem firstBelow (v : Value) (p q : Path) :
    FirstBelow p q (walk p v).1 (leaves Str.decode q v) := by
  induction v using Json.induction generalizing p q with
  | null | true | false | string _ | number _ =>
    intro c hc d hd
    cases hc
    cases hd
    exact Nat.le_of_eq (Nat.add_comm _ _)
  | array elems ih => exact firstBelow_elems ih p q 0
  | object members ih => exact firstBelow_members ih p q

/-- From a path that is too long no scalar is reported right. -/
theorem FirstBelow.eq_nil {p q : Path} {calls pointers : List Path}
    (h : FirstBelow p q calls pointers) (heq : calls = pointers) (hlt : q.length < p.length) :
    pointers = [] := by
  cases pointers with
  | nil => rfl
  | cons d pointers =>
    have := h d (by rw [heq]; rfl) d rfl
    omega

/- Right reports. -/

theorem reachedElems_of_not_leaf (ih : ∀ v ∈ elems, hasLeaf v = false → Reached v)
    (h : hasLeafElems elems = false) (i : Nat) : ReachedElems i elems := by
  induction elems generalizing i with
  | nil => trivial
  | cons v elems ihe =>
    rw [hasLeafElems, Bool.or_eq_false_iff] at h
    refine ⟨fun hleaf => ?_, ih v List.mem_cons_self h.1, fun _ => h.2,
      ihe (fun w hw => ih w (List.mem_cons_of_mem v hw)) h.2 (i+1)⟩
    rw [h.1] at hleaf
    cases hleaf

theorem reachedMembers_of_not_leaf (ih : ∀ m ∈ members, hasLeaf m.2 = false → Reached m.2)
    (h : hasLeafMembers members = false) : ReachedMembers members := by
  induction members with
  | nil => trivial
  | cons m members ihm =>
    cases m with
    | mk k v =>
      rw [hasLeafMembers, Bool.or_eq_false_iff] at h
      refine ⟨fun hleaf => ?_, ih (k, v) List.mem_cons_self h.1, fun _ => h.2,
        ihm (fun w hw => ih w (List.mem_cons_of_mem _ hw)) h.2⟩
      rw [h.1] at hleaf
      cases hleaf

theorem reached_of_not_leaf (v : Value) (h : hasLeaf v = false) : Reached v := by
  induction v using Json.induction with
  | null | true | false | string _ | number _ => trivial
  | array elems ih => exact reachedElems_of_not_leaf ih h 0
  | object members ih => exact reachedMembers_of_not_leaf ih h

theorem calls_elems (ih : ∀ v ∈ elems, Reached v → ∀ p, (walk p v).1 = leaves Str.decode p v)
    {i : Nat} (h : ReachedElems i elems) (p : Path) :
    (walkElems p i elems).1 = leavesElems Str.decode p i elems := by
  induction elems generalizing i p with
  | nil => rfl
  | cons v elems ihe =>
    obtain ⟨hindex, hv, harray, hrest⟩ := h
    have hcalls : (walk (p ++ [toStringInt (toInt i)]) v).1 = leaves Str.decode (p ++ [index i]) v := by
      cases hleaf : hasLeaf v with
      | true => rw [(JSONPointer.toStringInt_toInt_eq_iff i).2 (hindex hleaf), ih v List.mem_cons_self hv]
      | false => rw [calls_eq_nil hleaf, (leaves_eq_nil v _).2 hleaf]
    have hnext := ihe (fun w hw => ih w (List.mem_cons_of_mem v hw)) hrest
    rw [walkElems, leavesElems, hcalls]
    cases hsome : hasArray v with
    | false => rw [(walk_snd v _).1 hsome, List.dropLast_concat, hnext]
    | true =>
      have hnil : ∀ q, leavesElems Str.decode q (i+1) elems = [] := fun q =>
        (leavesElems_eq_nil (fun v _ => leaves_eq_nil v) q (i+1)).2 (harray hsome)
      rw [hnext, hnil, hnil]

theorem calls_members
    (ih : ∀ m ∈ members, Reached m.2 → ∀ p, (walk p m.2).1 = leaves Str.decode p m.2)
    (h : ReachedMembers members) (p : Path) :
    (walkMembers p members).1 = leavesMembers Str.decode p members := by
  induction members generalizing p with
  | nil => rfl
  | cons m members ihm =>
    cases m with
    | mk k v =>
      obtain ⟨hkey, hv, harray, hrest⟩ := h
      have hcalls : (walk (p ++ [kept k]) v).1 = leaves Str.decode (p ++ [k.decode]) v := by
        cases hleaf : hasLeaf v with
        | true =>
          rw [(kept_eq_decode_iff k).2 (hkey hleaf)]
          exact ih (k, v) List.mem_cons_self hv _
        | false => rw [calls_eq_nil hleaf, (leaves_eq_nil v _).2 hleaf]
      have hnext := ihm (fun w hw => ih w (List.mem_cons_of_mem _ hw)) hrest
      rw [walkMembers, leavesMembers, hcalls]
      cases hsome : hasArray v with
      | false => rw [(walk_snd v _).1 hsome, List.dropLast_concat, hnext]
      | true =>
        have hnil : ∀ q, leavesMembers Str.decode q members = [] := fun q =>
          (leavesMembers_eq_nil (fun m _ => leaves_eq_nil m.2) q).2 (harray hsome)
        rw [hnext, hnil, hnil]

theorem calls_of_reached (v : Value) (h : Reached v) (p : Path) :
    (walk p v).1 = leaves Str.decode p v := by
  induction v using Json.induction generalizing p with
  | null | true | false | string _ | number _ => rfl
  | array elems ih => exact calls_elems (fun v hv hr p => ih v hv hr p) h p
  | object members ih => exact calls_members (fun m hm hr p => ih m hm hr p) h p

/- Only right paths give right reports. -/

theorem reached_elems
    (ih : ∀ v ∈ elems, ∀ p q, (walk p v).1 = leaves Str.decode q v → p.length = q.length →
      Reached v ∧ (hasLeaf v → p = q))
    {p q : Path} {i : Nat} (h : (walkElems p i elems).1 = leavesElems Str.decode q i elems)
    (hlen : p.length = q.length) :
    ReachedElems i elems ∧ (hasLeafElems elems → p = q) := by
  induction elems generalizing p i with
  | nil => exact ⟨trivial, fun h => absurd h Bool.false_ne_true⟩
  | cons v elems ihe =>
    rw [walkElems, leavesElems] at h
    obtain ⟨hv, hrest⟩ := List.append_inj h (length_calls v _ _)
    obtain ⟨hreached, heq⟩ := ih v List.mem_cons_self _ _ hv (by simp [hlen])
    have hsame : hasLeaf v → p = q ∧ i < 2^31 := by
      intro hleaf
      obtain ⟨hpq, hindex⟩ := List.append_inj (heq hleaf) hlen
      exact ⟨hpq, (JSONPointer.toStringInt_toInt_eq_iff i).1 (List.singleton_injective hindex)⟩
    rw [ReachedElems, hasLeafElems, Bool.or_eq_true]
    cases hsome : hasArray v with
    | false =>
      rw [(walk_snd v _).1 hsome, List.dropLast_concat] at hrest
      obtain ⟨hnext, hpq⟩ := ihe (fun w hw => ih w (List.mem_cons_of_mem v hw)) hrest hlen
      refine ⟨⟨fun hleaf => (hsame hleaf).2, hreached,
        fun h => absurd h Bool.false_ne_true, hnext⟩, ?_⟩
      exact fun hleaf => hleaf.elim (fun h => (hsame h).1) hpq
    | true =>
      have hlonger := (walk_snd v (p ++ [toStringInt (toInt i)])).2 hsome
      rw [List.length_append, List.length_singleton] at hlonger
      have hnil := (firstBelow_elems (fun v _ => firstBelow v) _ q (i+1)).eq_nil hrest
        (by rw [List.length_dropLast]; omega)
      have hnone := (leavesElems_eq_nil (fun v _ => leaves_eq_nil v) q (i+1)).1 hnil
      refine ⟨⟨fun hleaf => (hsame hleaf).2, hreached, fun _ => hnone,
        reachedElems_of_not_leaf (fun v _ => reached_of_not_leaf v) hnone (i+1)⟩, ?_⟩
      rw [hnone]
      exact fun hleaf => (hsame (hleaf.resolve_right Bool.false_ne_true)).1

theorem reached_members
    (ih : ∀ m ∈ members, ∀ p q, (walk p m.2).1 = leaves Str.decode q m.2 →
      p.length = q.length → Reached m.2 ∧ (hasLeaf m.2 → p = q))
    {p q : Path} (h : (walkMembers p members).1 = leavesMembers Str.decode q members)
    (hlen : p.length = q.length) :
    ReachedMembers members ∧ (hasLeafMembers members → p = q) := by
  induction members generalizing p with
  | nil => exact ⟨trivial, fun h => absurd h Bool.false_ne_true⟩
  | cons m members ihm =>
    cases m with
    | mk k v =>
      rw [walkMembers, leavesMembers] at h
      obtain ⟨hv, hrest⟩ := List.append_inj h (length_calls v _ _)
      obtain ⟨hreached, heq⟩ := ih (k, v) List.mem_cons_self _ _ hv (by simp [hlen])
      have hsame : hasLeaf v → p = q ∧ k.hasUnicode = false := by
        intro hleaf
        obtain ⟨hpq, hkey⟩ := List.append_inj (heq hleaf) hlen
        exact ⟨hpq, (kept_eq_decode_iff k).1 (List.singleton_injective hkey)⟩
      rw [ReachedMembers, hasLeafMembers, Bool.or_eq_true]
      cases hsome : hasArray v with
      | false =>
        rw [(walk_snd v _).1 hsome, List.dropLast_concat] at hrest
        obtain ⟨hnext, hpq⟩ := ihm (fun w hw => ih w (List.mem_cons_of_mem _ hw)) hrest hlen
        refine ⟨⟨fun hleaf => (hsame hleaf).2, hreached,
        fun h => absurd h Bool.false_ne_true, hnext⟩, ?_⟩
        exact fun hleaf => hleaf.elim (fun h => (hsame h).1) hpq
      | true =>
        have hlonger := (walk_snd v (p ++ [kept k])).2 hsome
        rw [List.length_append, List.length_singleton] at hlonger
        have hnil := (firstBelow_members (fun m _ => firstBelow m.2) _ q).eq_nil hrest
          (by rw [List.length_dropLast]; omega)
        have hnone := (leavesMembers_eq_nil (fun m _ => leaves_eq_nil m.2) q).1 hnil
        refine ⟨⟨fun hleaf => (hsame hleaf).2, hreached, fun _ => hnone,
          reachedMembers_of_not_leaf (fun m _ => reached_of_not_leaf m.2) hnone⟩, ?_⟩
        rw [hnone]
        exact fun hleaf => (hsame (hleaf.resolve_right Bool.false_ne_true)).1

theorem reached_of_calls (v : Value) (p q : Path) (h : (walk p v).1 = leaves Str.decode q v)
    (hlen : p.length = q.length) : Reached v ∧ (hasLeaf v → p = q) := by
  induction v using Json.induction generalizing p q with
  | null | true | false | string _ | number _ => exact ⟨trivial, fun _ => List.singleton_injective h⟩
  | array elems ih => exact reached_elems ih h hlen
  | object members ih => exact reached_members ih h hlen

/-- The walk from the root reports the pointers of the scalars exactly when it reaches them. -/
theorem calls_eq_leaves_iff (v : Value) : (walk [] v).1 = leaves Str.decode [] v ↔ Reached v :=
  ⟨fun h => (reached_of_calls v [] [] h rfl).1, fun h => calls_of_reached v h []⟩

end paths
end Stx.Json.FlatJSONReader
