import Stx.Json.JSONUtil.ObjectLookup
import Stx.Json.Values

/-! Lookups in the tokens of a value. In an object of a value a key and its member are a token and a
span, so the lookup finds the member of the key. -/
namespace Stx.Json
open Brackets JSONUtil

/-- The number of tokens of a value. -/
def spanOf (v : JSONValue) : Nat := (forest v .nil).spans.length

theorem length_forest (v : JSONValue) (rest : TokenForest) :
    (forest v rest).spans.length = spanOf v+rest.spans.length := by
  cases v with
  | null | true | false => exact Nat.add_comm ..
  | string s => exact Nat.add_comm ..
  | number n => exact Nat.add_comm ..
  | array elems => rw [spanOf, forest, forest, Forest.length_node, Forest.length_node]; rfl
  | object members => rw [spanOf, forest, forest, Forest.length_node, Forest.length_node]; rfl

theorem spanOf_pos (v : JSONValue) : 0 < spanOf v := by
  cases v with
  | null | true | false => exact Nat.one_pos
  | string s => exact Nat.one_pos
  | number n => exact Nat.one_pos
  | array elems => rw [spanOf, forest, Forest.length_node]; omega
  | object members => rw [spanOf, forest, Forest.length_node]; omega

theorem spanOf_array (elems : List JSONValue) :
    spanOf (.array elems) = (forestElems elems).spans.length+2 := by
  rw [spanOf, forest, Forest.length_node]
  rfl

theorem spanOf_object (members : List (Bytes × JSONValue)) :
    spanOf (.object members) = (forestMembers members).spans.length+2 := by
  rw [spanOf, forest, Forest.length_node]
  rfl

theorem length_forestElems_cons (v : JSONValue) (elems : List JSONValue) :
    (forestElems (v :: elems)).spans.length = spanOf v+(forestElems elems).spans.length := by
  rw [forestElems, length_forest]

theorem length_forestMembers_cons (k : Bytes) (v : JSONValue) (members : List (Bytes × JSONValue)) :
    (forestMembers ((k, v) :: members)).spans.length =
      spanOf v+(forestMembers members).spans.length+1 := by
  rw [forestMembers, Forest.spans, List.length_cons, length_forest]

namespace JSONUtil

/-- The first token of a value has the size of the value. -/
theorem At.value {obj : JSONObject} {p : Nat} {v : JSONValue} {rest : TokenForest}
    (h : At obj p (forest v rest)) (hsize : spanOf v < 2^32) :
    ∃ t, obj[p]? = some t ∧ t.size.toNat = spanOf v ∧ At obj (p+spanOf v) rest := by
  cases v with
  | null | true | false => exact ⟨_, h.atom.1, rfl, h.atom.2⟩
  | string s => exact ⟨_, h.atom.1, rfl, h.atom.2⟩
  | number n => exact ⟨_, h.atom.1, rfl, h.atom.2⟩
  | array elems =>
    rw [spanOf_array] at hsize ⊢
    exact ⟨_, h.node.1, size_cell hsize, h.node.2.2.2⟩
  | object members =>
    rw [spanOf_object] at hsize ⊢
    exact ⟨_, h.node.1, size_cell hsize, h.node.2.2.2⟩

section members
variable {obj : JSONObject} {key : Bytes} {members : List (Bytes × JSONValue)} {p oend endp : Nat}

/-- A turn of the loop at the key of a member. -/
theorem lookupLoop_member (key : Bytes) {k : Bytes} {v : JSONValue}
    (hat : At obj p (forestMembers ((k, v) :: members)))
    (hend : p+(forestMembers ((k, v) :: members)).spans.length < oend) (hle : oend ≤ endp)
    (hsize : spanOf v < 2^32) (fuel : Nat) :
    At obj (p+1+spanOf v) (forestMembers members) ∧
    objectLookupLoop obj endp oend key (fuel+1) p =
      if k = key then .ok (p+1)
      else objectLookupLoop obj endp oend key fuel (p+1+spanOf v) := by
  obtain ⟨hkey, hvalue⟩ := hat.atom
  obtain ⟨t, ht, htsize, hrest⟩ := hvalue.value hsize
  rw [length_forestMembers_cons] at hend
  refine ⟨hrest, ?_⟩
  rw [objectLookupLoop, if_pos (by omega), deref_eq hkey, Result.ok_bind]
  have hcell : (cell (.atom (.string k), 1)).type = .string ∧
      (cell (.atom (.string k), 1)).data = key ↔ k = key := and_iff_right rfl
  by_cases hk : k = key
  · rw [if_pos hk, if_pos (hcell.2 hk)]
    rfl
  · rw [if_neg hk, if_neg (hcell.not.2 hk), if_neg (by omega), deref_eq ht, Result.ok_bind, htsize]

theorem lookupLoop_absent (hat : At obj p (forestMembers members))
    (hlast : obj[p+(forestMembers members).spans.length]? = some (cell (.closes .object, 1)))
    (hend : p+(forestMembers members).spans.length+1 = oend) (hle : oend ≤ endp)
    (hsize : (forestMembers members).spans.length < 2^32) (hkey : key ∉ members.map Prod.fst)
    {fuel : Nat} (hfuel : (forestMembers members).spans.length < fuel) :
    objectLookupLoop obj endp oend key fuel p = .ok endp := by
  induction members generalizing p fuel with
  | nil =>
    change p+0+1 = oend at hend
    change obj[p]? = _ at hlast
    obtain ⟨fuel, rfl⟩ : ∃ n, fuel = n+1 := Nat.exists_eq_add_one.2 (by omega)
    rw [objectLookupLoop, if_pos (by omega), deref_eq hlast, Result.ok_bind,
      if_neg fun h => absurd h.1 (by decide), if_pos (by omega)]
    rfl
  | cons m members ih =>
    cases m with
    | mk k v =>
      obtain ⟨fuel, rfl⟩ : ∃ n, fuel = n+1 := Nat.exists_eq_add_one.2 (by omega)
      rw [List.map_cons, List.mem_cons, not_or] at hkey
      rw [length_forestMembers_cons] at hend hfuel hsize hlast
      have hpos := spanOf_pos v
      obtain ⟨hrest, hturn⟩ := lookupLoop_member key hat
        (by rw [length_forestMembers_cons]; omega) hle (by omega) fuel
      rw [hturn, if_neg (Ne.symm hkey.1)]
      refine ih hrest ?_ (by omega) (by omega) hkey.2 (by omega)
      rw [← hlast]
      congr 1
      omega

theorem lookup_of_ne {k : Bytes} {w : JSONValue} (h : k ≠ key) :
    ((k, w) :: members).lookup key = members.lookup key := by
  rw [List.lookup_cons, beq_false_of_ne h.symm]

/-- Of distinct keys each one is the first. -/
theorem lookup_of_mem {v : JSONValue} (hkeys : (members.map Prod.fst).Nodup)
    (hmem : (key, v) ∈ members) : members.lookup key = some v := by
  induction members with
  | nil => cases hmem
  | cons m members ih =>
    rw [List.map_cons, List.nodup_cons] at hkeys
    cases List.mem_cons.1 hmem with
    | inl h => rw [← h, List.lookup_cons_self]
    | inr h =>
      have hagain : key ∈ members.map Prod.fst := List.mem_map_of_mem h
      have hne : m.1 ≠ key := fun hkey => hkeys.1 (hkey.symm ▸ hagain)
      rw [← ih hkeys.2 h]
      exact lookup_of_ne hne

/-- The loop stops at the first member with the key. -/
theorem lookupLoop_lookup {v : JSONValue} (hat : At obj p (forestMembers members))
    (hend : p+(forestMembers members).spans.length+1 = oend) (hle : oend ≤ endp)
    (hsize : (forestMembers members).spans.length < 2^32) (hlookup : members.lookup key = some v)
    {fuel : Nat} (hfuel : (forestMembers members).spans.length < fuel) :
    ∃ q rest, objectLookupLoop obj endp oend key fuel p = .ok q ∧ p < q ∧ q+spanOf v < oend ∧
      At obj q (forest v rest) := by
  induction members generalizing p fuel with
  | nil => cases hlookup
  | cons m members ih =>
    cases m with
    | mk k w =>
      obtain ⟨fuel, rfl⟩ : ∃ n, fuel = n+1 := Nat.exists_eq_add_one.2 (by omega)
      rw [length_forestMembers_cons] at hend hfuel hsize
      obtain ⟨hrest, hturn⟩ := lookupLoop_member key hat
        (by rw [length_forestMembers_cons]; omega) hle (by omega) fuel
      rw [hturn]
      by_cases hk : k = key
      · rw [hk, List.lookup_cons_self] at hlookup
        cases hlookup
        rw [if_pos hk]
        exact ⟨p+1, forestMembers members, rfl, by omega, by omega, hat.atom.2⟩
      · rw [lookup_of_ne hk] at hlookup
        rw [if_neg hk]
        obtain ⟨q, rest, hq, hlt, hroom, hv⟩ := ih hrest (by omega) (by omega) hlookup
          (by omega : (forestMembers members).spans.length < fuel)
        exact ⟨q, rest, hq, by omega, hroom, hv⟩

end members

section object
variable {obj : JSONObject} {p endp : Nat} {members : List (Bytes × JSONValue)}
  {rest : TokenForest} (hat : At obj p (forest (.object members) rest))
  (hsize : spanOf (.object members) < 2^32) (hle : p+spanOf (.object members) ≤ endp)
include hat hsize hle

theorem objectLookup_eq (key : Bytes) :
    objectLookup obj p endp key =
      objectLookupLoop obj endp (p+spanOf (.object members)) key (endp-p) (p+1) := by
  have hpos := spanOf_pos (.object members)
  have hfirst := hat.node.1
  rw [spanOf_object] at hsize hpos hle ⊢
  have hcell := size_cell (s := .opens .object) hsize
  have htype : ¬(cell (.opens .object, (forestMembers members).spans.length+2)).type ≠
    .objectBegin := not_not_intro rfl
  rw [objectLookup, if_neg (by omega), deref_eq hfirst, Result.ok_bind, if_neg htype, hcell,
    if_neg (by omega)]

theorem objectLookup_absent {key : Bytes} (hkey : key ∉ members.map Prod.fst) :
    objectLookup obj p endp key = .ok endp := by
  rw [objectLookup_eq hat hsize hle]
  obtain ⟨-, hinner, hlast, -⟩ := hat.node
  rw [spanOf_object] at hsize hle ⊢
  exact lookupLoop_absent hinner hlast (by omega) (by omega) (by omega) hkey (by omega)

theorem objectLookup_lookup {key : Bytes} {v : JSONValue} (hlookup : members.lookup key = some v) :
    ∃ q rest, objectLookup obj p endp key = .ok q ∧ p < q ∧
      q+spanOf v < p+spanOf (.object members) ∧ At obj q (forest v rest) := by
  rw [objectLookup_eq hat hsize hle]
  obtain ⟨-, hinner, -, -⟩ := hat.node
  rw [spanOf_object] at hsize hle ⊢
  have hend : p+1+(forestMembers members).spans.length+1 =
      p+((forestMembers members).spans.length+2) := by omega
  obtain ⟨q, rest, hq, hlt, hroom, hv⟩ := lookupLoop_lookup hinner hend hle (by omega)
    hlookup (by omega : _ < endp-p)
  exact ⟨q, rest, hq, by omega, hroom, hv⟩

theorem objectLookup_found (hkeys : (members.map Prod.fst).Nodup) {key : Bytes} {v : JSONValue}
    (hmem : (key, v) ∈ members) :
    ∃ q rest, objectLookup obj p endp key = .ok q ∧ p < q ∧
      q+spanOf v < p+spanOf (.object members) ∧ At obj q (forest v rest) :=
  objectLookup_lookup hat hsize hle (lookup_of_mem hkeys hmem)

variable (hkeys : (members.map Prod.fst).Nodup) {key : Bytes}
include hkeys

theorem objectGetString_found {s : Bytes} (hmem : (key, .string s) ∈ members) :
    objectGetString obj p endp key = .ok (some s) := by
  obtain ⟨q, after, hq, -, hroom, hv⟩ := objectLookup_found hat hsize hle hkeys hmem
  rw [objectGetString, hq, Result.ok_bind, if_neg (by omega), deref_eq hv.atom.1, Result.ok_bind]
  rfl

theorem objectGetUInt64_found {n : Bytes} {value : UInt64} (hmem : (key, .number n) ∈ members)
    (hvalue : (Libc.stoul n).map UInt64.ofNat = some value) :
    objectGetUInt64 obj p endp key = .ok (some value) := by
  obtain ⟨q, after, hq, -, hroom, hv⟩ := objectLookup_found hat hsize hle hkeys hmem
  obtain ⟨k, hk, rfl⟩ := Option.map_eq_some_iff.1 hvalue
  have hcell : (cell (.atom (.number n), 1)).data = n := rfl
  rw [objectGetUInt64, hq, Result.ok_bind, if_neg (by omega), deref_eq hv.atom.1, Result.ok_bind,
    hcell, hk]
  rfl

theorem objectGetBool_found {b : Bool} (hmem : (key, if b then .true else .false) ∈ members) :
    objectGetBool obj p endp key = .ok (some b) := by
  obtain ⟨q, after, hq, -, hroom, hv⟩ := objectLookup_found hat hsize hle hkeys hmem
  rw [objectGetBool, hq, Result.ok_bind, if_neg (by omega)]
  cases b with
  | true => rw [deref_eq hv.atom.1]; rfl
  | false => rw [deref_eq hv.atom.1]; rfl

end object

section array
variable {obj : JSONObject} {elems : List JSONValue}

/-- The elements are stepped over one by one, each from its first token. -/
theorem At.steps {q : Nat} (hat : At obj q (forestElems elems))
    (hsize : (forestElems elems).spans.length < 2^32) :
    ∃ ps, Steps (sizeAt obj) q ps (q+(forestElems elems).spans.length) ∧
      (∀ i ∈ ps, ∀ n, sizeAt obj i = some n → 0 < n) ∧ ps.length = elems.length ∧
      ∀ (i : Nat) (v : JSONValue), elems[i]? = some v → ∃ j rest, ps[i]? = some j ∧ q ≤ j ∧
        j+spanOf v ≤ q+(forestElems elems).spans.length ∧ At obj j (forest v rest) := by
  induction elems generalizing q with
  | nil => exact ⟨[], .stop q, by simp, rfl, by simp⟩
  | cons v elems ih =>
    rw [length_forestElems_cons] at hsize ⊢
    have hpos := spanOf_pos v
    obtain ⟨t, ht, htsize, hrest⟩ := hat.value (by omega : spanOf v < 2^32)
    have hspan : sizeAt obj q = some (spanOf v) := by rw [sizeAt, ht, Option.map_some, htsize]
    obtain ⟨ps, hsteps, hspans, hlen, hfind⟩ := ih hrest (by omega)
    rw [Nat.add_assoc] at hsteps hfind
    refine ⟨q :: ps, .step hspan hsteps, ?_, by rw [List.length_cons, List.length_cons, hlen], ?_⟩
    · rw [List.forall_mem_cons]
      refine ⟨fun n hn => ?_, hspans⟩
      cases hspan.symm.trans hn
      exact hpos
    · intro i w hw
      cases i with
      | zero =>
        cases hw
        exact ⟨q, forestElems elems, rfl, Nat.le_refl q, by omega, hat⟩
      | succ i =>
        obtain ⟨j, rest, hj, hle, hroom, hv⟩ := hfind i w hw
        exact ⟨j, rest, hj, by omega, hroom, hv⟩

/-- The token of an array, and where its elements begin and end. -/
theorem At.array {p : Nat} {rest : TokenForest} (hat : At obj p (forest (.array elems) rest))
    (hsize : spanOf (.array elems) < 2^32) :
    ∃ t, obj[p]? = some t ∧ t.type = .arrayBegin ∧
      p+t.size.toNat-1 = p+1+(forestElems elems).spans.length ∧ At obj (p+1) (forestElems elems) := by
  obtain ⟨hfirst, hinner, -, -⟩ := hat.node
  rw [spanOf_array] at hsize
  have hcell := size_cell (s := .opens .array) hsize
  refine ⟨_, hfirst, rfl, ?_, hinner⟩
  rw [hcell]
  omega

variable {p endp : Nat} {rest : TokenForest} (hat : At obj p (forest (.array elems) rest))
  (hsize : spanOf (.array elems) < 2^32) (hle : p+spanOf (.array elems) ≤ endp)
include hat hsize hle

theorem arrayLength_eq : arrayLength obj p endp = .ok elems.length := by
  obtain ⟨t, ht, htype, haend, hinner⟩ := hat.array hsize
  rw [spanOf_array] at hsize hle
  obtain ⟨ps, hsteps, hspans, hlen, -⟩ := hinner.steps (by omega)
  rw [arrayLength, if_neg (by omega), deref_eq ht, Result.ok_bind, if_neg (not_not_intro htype),
    haend, if_neg (by omega), arrayLengthLoop_eq hsteps hspans (by omega), hlen, Nat.zero_add]

theorem arrayLookup_eq {i : Nat} {v : JSONValue} (hv : elems[i]? = some v) :
    ∃ j rest, arrayLookup obj p endp i = .ok j ∧ p < j ∧ j+spanOf v < p+spanOf (.array elems) ∧
      At obj j (forest v rest) := by
  obtain ⟨t, ht, htype, haend, hinner⟩ := hat.array hsize
  rw [spanOf_array] at hsize hle ⊢
  obtain ⟨ps, hsteps, hspans, hlen, hfind⟩ := hinner.steps (by omega)
  obtain ⟨j, after, hj, hlt, hroom, hatj⟩ := hfind i v hv
  have hloop := arrayLookupLoop_eq hsteps hspans
    (by omega : _ < p+1+(p+1+(forestElems elems).spans.length-p+1)) 0 i
  rw [Nat.zero_add, hj] at hloop
  refine ⟨j, after, ?_, by omega, by omega, hatj⟩
  rw [arrayLookup, if_neg (by omega), deref_eq ht, Result.ok_bind, if_neg (not_not_intro htype),
    haend, if_neg (by omega), hloop]

end array

end JSONUtil
end Stx.Json
