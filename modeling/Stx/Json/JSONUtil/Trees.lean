import Stx.Json.JSONUtil.Members
import Stx.Json.ParseJSON.Grammar

/-! The lookups against the tree of a document. A value is named by its path from the root, and the
tree says at which position its first token stands. -/
namespace Stx.Json
open Brackets JSONUtil

/-- Elements of which the first stands at `p`, each with its position. -/
def elemsFrom (p : Nat) : List JSONValue → List (JSONValue × Nat)
  | [] => []
  | v :: elems => (v, p) :: elemsFrom (p+spanOf v) elems

/-- The values of members, behind their keys. -/
def membersFrom (p : Nat) : List (Bytes × JSONValue) → List (JSONValue × Nat)
  | [] => []
  | (_, v) :: members => (v, p+1) :: membersFrom (p+1+spanOf v) members

/-- The values right below a value that stands at `p`. -/
def children (p : Nat) : JSONValue → List (JSONValue × Nat)
  | .array elems => elemsFrom (p+1) elems
  | .object members => membersFrom (p+1) members
  | _ => []

/-- The value at the end of a path of indexes, and where it stands. -/
def locate : JSONValue × Nat → List Nat → Option (JSONValue × Nat)
  | c, [] => some c
  | c, i :: path => ((children c.2 c.1)[i]?).bind fun d => locate d path

/-- The tokens are those of the value in pre-order, each with the number of tokens that belong to
it. -/
def Serializes (obj : JSONObject) (v : JSONValue) : Prop :=
  obj.map (fun t => ((t.type, t.data), t.size.toNat)) =
    (forest v .nil).spans.map fun x => (tokenOf x.1, x.2)

/-- What the lookups return for the value `v`, whose first token is at `p`: for an object the value
of the first member with the key, for an array the elements. -/
structure LookupsAgree (obj : JSONObject) (endp p : Nat) (v : JSONValue) : Prop where
  found : ∀ members, v = .object members → ∀ key i,
    members.findIdx? (fun m => m.1 = key) = some i →
      ∃ c, (children p v)[i]? = some c ∧ objectLookup obj p endp key = .ok c.2
  absent : ∀ members, v = .object members → ∀ key,
    members.findIdx? (fun m => m.1 = key) = none → objectLookup obj p endp key = .ok endp
  length : ∀ elems, v = .array elems → arrayLength obj p endp = .ok elems.length
  element : ∀ elems, v = .array elems → ∀ index, index < elems.length →
    ∃ c, (children p v)[index]? = some c ∧ arrayLookup obj p endp index = .ok c.2
  index : ∀ elems, v = .array elems → ∀ index,
    (∃ message, arrayLookup obj p endp index = .raise ⟨.indexError, message⟩) ↔
      elems.length ≤ index

theorem Serializes.eq {obj : JSONObject} {v : JSONValue} (h : Serializes obj v) :
    spanOf v < 2^32 ∧ obj = document (forest v .nil) := by
  have hlen : spanOf v < 2^32 := by
    have htokens := length_lt_of_sizes h
    rwa [tokens, tokensOf, List.length_map, Forest.length_symbols] at htokens
  have hinj : Function.Injective fun t : JSONToken => ((t.type, t.data), t.size.toNat) := by
    intro t u htu
    simp only [Prod.mk.injEq] at htu
    cases t
    cases u
    simp only [UInt32.toNat_inj] at htu
    obtain ⟨⟨rfl, rfl⟩, rfl⟩ := htu
    rfl
  exact ⟨hlen, List.map_injective_iff.2 hinj (h.trans (map_size_document hlen).symm)⟩

theorem length_elemsFrom (p : Nat) (elems : List JSONValue) :
    (elemsFrom p elems).length = elems.length := by
  induction elems generalizing p with
  | nil => rfl
  | cons v elems ih => rw [elemsFrom, List.length_cons, ih, List.length_cons]

namespace JSONUtil

section positions
variable {obj : JSONObject} {p : Nat}

/-- Every element stands where the tree has it. -/
theorem At.elems {elems : List JSONValue} (hat : At obj p (forestElems elems))
    (hsize : (forestElems elems).spans.length < 2^32) :
    ∀ c ∈ elemsFrom p elems, spanOf c.1 ≤ (forestElems elems).spans.length ∧
      c.2+spanOf c.1 ≤ p+(forestElems elems).spans.length ∧ ∃ rest, At obj c.2 (forest c.1 rest) := by
  induction elems generalizing p with
  | nil => exact List.forall_mem_nil _
  | cons v elems ih =>
    rw [length_forestElems_cons] at hsize ⊢
    obtain ⟨t, -, -, hrest⟩ := hat.value (by omega : spanOf v < 2^32)
    refine List.forall_mem_cons.2 ⟨⟨Nat.le_add_right .., ?_, _, hat⟩, fun c hc => ?_⟩
    · exact Nat.add_le_add_left (Nat.le_add_right ..) p
    · obtain ⟨hspan, hroom, hc⟩ := ih hrest (by omega) c hc
      exact ⟨by omega, by omega, hc⟩

theorem At.members {members : List (Bytes × JSONValue)} (hat : At obj p (forestMembers members))
    (hsize : (forestMembers members).spans.length < 2^32) :
    ∀ c ∈ membersFrom p members, spanOf c.1 ≤ (forestMembers members).spans.length ∧
      c.2+spanOf c.1 ≤ p+(forestMembers members).spans.length ∧
      ∃ rest, At obj c.2 (forest c.1 rest) := by
  induction members generalizing p with
  | nil => exact List.forall_mem_nil _
  | cons m members ih =>
    cases m with
    | mk k v =>
      rw [length_forestMembers_cons] at hsize ⊢
      obtain ⟨-, hvalue⟩ := hat.atom
      obtain ⟨t, -, -, hrest⟩ := hvalue.value (by omega : spanOf v < 2^32)
      refine List.forall_mem_cons.2 ⟨⟨?_, ?_, _, hvalue⟩, fun c hc => ?_⟩
      · exact Nat.le_trans (Nat.le_add_right ..) (Nat.le_succ _)
      · change p+1+spanOf v ≤ _
        omega
      · obtain ⟨hspan, hroom, hc⟩ := ih hrest (by omega) c hc
        exact ⟨by omega, by omega, hc⟩

/-- One step of a path stays in the tokens of the value. -/
theorem At.child {v : JSONValue} {rest : TokenForest} (hat : At obj p (forest v rest))
    (hsize : spanOf v < 2^32) {c : JSONValue × Nat} (hc : c ∈ children p v) :
    spanOf c.1 < 2^32 ∧ c.2+spanOf c.1 ≤ p+spanOf v ∧ ∃ rest, At obj c.2 (forest c.1 rest) := by
  cases v with
  | null | true | false => cases hc
  | string s => cases hc
  | number n => cases hc
  | array elems =>
    rw [spanOf_array] at hsize ⊢
    obtain ⟨hspan, hroom, hc⟩ := hat.node.2.1.elems (by omega) c hc
    exact ⟨by omega, by omega, hc⟩
  | object members =>
    rw [spanOf_object] at hsize ⊢
    obtain ⟨hspan, hroom, hc⟩ := hat.node.2.1.members (by omega) c hc
    exact ⟨by omega, by omega, hc⟩

/-- At the end of a path there are the tokens of the value that the tree has there. -/
theorem At.located {path : List Nat} {c d : JSONValue × Nat} {rest : TokenForest}
    (hat : At obj c.2 (forest c.1 rest)) (hsize : spanOf c.1 < 2^32)
    (hd : locate c path = some d) :
    spanOf d.1 < 2^32 ∧ d.2+spanOf d.1 ≤ c.2+spanOf c.1 ∧ ∃ rest, At obj d.2 (forest d.1 rest) := by
  induction path generalizing c rest with
  | nil =>
    cases hd
    exact ⟨hsize, Nat.le_refl _, rest, hat⟩
  | cons i path ih =>
    obtain ⟨b, hb, hd⟩ := Option.bind_eq_some_iff.1 hd
    obtain ⟨hspan, hroom, rest, hatb⟩ := hat.child hsize (List.mem_of_getElem? hb)
    obtain ⟨hspan', hroom', hatd⟩ := ih hatb hspan hd
    exact ⟨hspan', by omega, hatd⟩

end positions

section lookups
variable {obj : JSONObject} {p oend endp : Nat}

/-- The loop stops behind the first key that is the one looked for. -/
theorem lookupLoop_first {members : List (Bytes × JSONValue)} {key : Bytes} {i : Nat}
    (hat : At obj p (forestMembers members))
    (hend : p+(forestMembers members).spans.length < oend) (hle : oend ≤ endp)
    (hsize : (forestMembers members).spans.length < 2^32)
    (hi : members.findIdx? (fun m => m.1 = key) = some i) {fuel : Nat}
    (hfuel : (forestMembers members).spans.length < fuel) :
    ∃ c, (membersFrom p members)[i]? = some c ∧
      objectLookupLoop obj endp oend key fuel p = .ok c.2 := by
  induction members generalizing p i fuel with
  | nil => cases hi
  | cons m members ih =>
    cases m with
    | mk k v =>
      obtain ⟨fuel, rfl⟩ : ∃ n, fuel = n+1 := Nat.exists_eq_add_one.2 (by omega)
      have hlen := length_forestMembers_cons k v members
      rw [hlen] at hfuel hsize
      obtain ⟨hrest, hturn⟩ := lookupLoop_member key hat hend hle (by omega) fuel
      rw [List.findIdx?_cons] at hi
      rw [hturn]
      by_cases hk : k = key
      · rw [if_pos (by simpa using hk)] at hi
        cases hi
        exact ⟨(v, p+1), rfl, if_pos hk⟩
      · rw [if_neg (by simpa using hk)] at hi
        obtain ⟨j, hj, rfl⟩ := Option.map_eq_some_iff.1 hi
        rw [if_neg hk]
        exact ih hrest (by omega) (by omega) hj (by omega)

/-- The elements are stepped over one by one. -/
theorem steps_elemsFrom {elems : List JSONValue} (hat : At obj p (forestElems elems))
    (hsize : (forestElems elems).spans.length < 2^32) :
    Steps (sizeAt obj) p ((elemsFrom p elems).map Prod.snd) (p+(forestElems elems).spans.length) ∧
      ∀ i ∈ (elemsFrom p elems).map Prod.snd, ∀ n, sizeAt obj i = some n → 0 < n := by
  induction elems generalizing p with
  | nil => exact ⟨.stop p, List.forall_mem_nil _⟩
  | cons v elems ih =>
    rw [length_forestElems_cons] at hsize ⊢
    have hpos := spanOf_pos v
    obtain ⟨t, ht, htsize, hrest⟩ := hat.value (by omega : spanOf v < 2^32)
    have hspan : sizeAt obj p = some (spanOf v) := by rw [sizeAt, ht, Option.map_some, htsize]
    obtain ⟨hsteps, hspans⟩ := ih hrest (by omega)
    rw [Nat.add_assoc] at hsteps
    refine ⟨.step hspan hsteps, List.forall_mem_cons.2 ⟨fun n hn => ?_, hspans⟩⟩
    cases hspan.symm.trans hn
    exact hpos

theorem arrayLookup_elemsFrom {elems : List JSONValue} {rest : TokenForest}
    (hat : At obj p (forest (.array elems) rest)) (hsize : spanOf (.array elems) < 2^32)
    (hle : p+spanOf (.array elems) ≤ endp) (index : Nat) :
    arrayLookup obj p endp index =
      match (elemsFrom (p+1) elems)[index]? with
      | some c => .ok c.2
      | none => Result.RAISEF .indexError "invalid index: $0" [StringUtil.toString index] := by
  obtain ⟨t, ht, htype, haend, hinner⟩ := hat.array hsize
  rw [spanOf_array] at hsize hle
  obtain ⟨hsteps, hspans⟩ := steps_elemsFrom hinner (by omega)
  have hloop := arrayLookupLoop_eq hsteps hspans
    (by omega : _ < p+1+(p+1+(forestElems elems).spans.length-p+1)) 0 index
  rw [Nat.zero_add, List.getElem?_map] at hloop
  rw [arrayLookup, if_neg (by omega), deref_eq ht, Result.ok_bind, if_neg (not_not_intro htype),
    haend, if_neg (by omega), hloop]
  cases (elemsFrom (p+1) elems)[index]? with
  | some c => rfl
  | none => rfl

theorem At.lookupsAgree {v : JSONValue} {rest : TokenForest} (hat : At obj p (forest v rest))
    (hsize : spanOf v < 2^32) (hle : p+spanOf v ≤ endp) : LookupsAgree obj endp p v where
  found := by
    rintro members rfl key i hi
    rw [objectLookup_eq hat hsize hle]
    have hinner := hat.node.2.1
    rw [spanOf_object] at hsize hle ⊢
    exact lookupLoop_first hinner (by omega) (by omega) (by omega) hi (by omega)
  absent := by
    rintro members rfl key hnone
    refine objectLookup_absent hat hsize hle fun hkey => ?_
    obtain ⟨m, hm, rfl⟩ := List.mem_map.1 hkey
    simpa using List.findIdx?_eq_none_iff.1 hnone m hm
  length := by
    rintro elems rfl
    exact arrayLength_eq hat hsize hle
  element := by
    rintro elems rfl index hindex
    rw [← length_elemsFrom (p+1)] at hindex
    refine ⟨(elemsFrom (p+1) elems)[index], List.getElem?_eq_getElem hindex, ?_⟩
    rw [arrayLookup_elemsFrom hat hsize hle, List.getElem?_eq_getElem hindex]
  index := by
    rintro elems rfl index
    rw [arrayLookup_elemsFrom hat hsize hle, ← length_elemsFrom (p+1), ← List.getElem?_eq_none_iff]
    cases (elemsFrom (p+1) elems)[index]? with
    | some c => simp
    | none => exact ⟨fun _ => rfl, fun _ => ⟨_, rfl⟩⟩

end lookups

/-- In the tokens of a tree, at every object and every array of it and for every end of the range
behind its tokens, the lookups return what the tree says. -/
theorem lookupsAgree_of_serializes {obj : JSONObject} {v : JSONValue} (hobj : Serializes obj v)
    {path : List Nat} {w : JSONValue} {p endp : Nat} (hw : locate (v, 0) path = some (w, p))
    (hend : p+spanOf w ≤ endp) : LookupsAgree obj endp p w := by
  obtain ⟨hsize, rfl⟩ := hobj.eq
  have hroot : At (document (forest v .nil)) 0 (forest v .nil) := ⟨[], (List.append_nil _).symm⟩
  obtain ⟨hspan, -, rest, hat⟩ := @At.located _ path (v, 0) _ _ hroot hsize hw
  exact hat.lookupsAgree hspan hend

/-- `{"b": "a", "a": [null, {}]}`, whose value "a" comes in front of the key. -/
def nestedTree : JSONValue :=
  .object [(lit "b", .string (lit "a")), (lit "a", .array [.null, .object []])]

theorem nestedTree_lookupsAgree :
    LookupsAgree (document (forest nestedTree .nil)) 9 4 (.array [.null, .object []]) :=
  @lookupsAgree_of_serializes _ nestedTree (map_size_document (by decide)) [1] _ 4 9 rfl (by decide)

end JSONUtil
end Stx.Json
