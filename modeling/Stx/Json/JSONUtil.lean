import Stx.Json.ParseJSON.Spans
import Stx.Libc

/-! `json/jsonutil.{h,cc}`: lookups that step through a vector of tokens by size. An iterator is a
position. Reading through an iterator that is not in the vector, undefined in C++, is a raised
error here. -/
namespace Stx.Json
open Brackets

/-- `StringUtil::toString(kTokenType)`. -/
def TokenType.toString : TokenType → Bytes
  | objectBegin => lit "JSON_OBJECT_BEGIN"
  | objectEnd => lit "JSON_OBJECT_END"
  | arrayBegin => lit "JSON_ARRAY_BEGIN"
  | arrayEnd => lit "JSON_ARRAY_END"
  | string => lit "JSON_STRING"
  | number => lit "JSON_NUMBER"
  | true => lit "JSON_TRUE"
  | false => lit "JSON_FALSE"
  | null => lit "JSON_NULL"

namespace JSONUtil

def deref (obj : JSONObject) (iter : Nat) : Result JSONToken :=
  match obj[iter]? with
  | some t => .ok t
  | none => Result.RAISE .outOfRange

/-- The loop of `objectLookup`. Every turn moves `begin`, so there are no more turns than positions. -/
def objectLookupLoop (obj : JSONObject) (endp oend : Nat) (key : Bytes) : Nat → Nat → Result Nat
  | 0, _ => .diverge
  | fuel+1, beginp =>
    if beginp < endp then do
      let t ← deref obj beginp
      if t.type = .string ∧ t.data = key then pure (beginp+1)
      else if beginp+1 = oend then pure endp
      else do
        let value ← deref obj (beginp+1)
        objectLookupLoop obj endp oend key fuel (beginp+1+value.size.toNat)
    else .ok endp

def objectLookup (obj : JSONObject) (beginp endp : Nat) (key : Bytes) : Result Nat :=
  if beginp = endp then .ok endp
  else do
    let t ← deref obj beginp
    if t.type ≠ .objectBegin then
      Result.RAISEF .parseError "expected JSON_OBJECT_BEGIN, got: $0" [t.type.toString]
    else if endp < beginp+t.size.toNat then pure endp
    else objectLookupLoop obj endp (beginp+t.size.toNat) key (endp-beginp) (beginp+1)

def objectGetString (obj : JSONObject) (beginp endp : Nat) (key : Bytes) :
    Result (Option Bytes) := do
  let iter ← objectLookup obj beginp endp key
  if iter = endp then pure none
  else
    let t ← deref obj iter
    pure (if t.type = .string then some t.data else none)

/-- What `std::stoul` throws at a text without digits and at a number out of range is one
exception here. -/
def objectGetUInt64 (obj : JSONObject) (beginp endp : Nat) (key : Bytes) :
    Result (Option UInt64) := do
  let iter ← objectLookup obj beginp endp key
  if iter = endp then pure none
  else
    let t ← deref obj iter
    if t.type = .string ∨ t.type = .number then
      match Libc.stoul t.data with
      | some n => pure (some (UInt64.ofNat n))
      | none => Result.RAISE .outOfRange
    else pure none

def objectGetBool (obj : JSONObject) (beginp endp : Nat) (key : Bytes) :
    Result (Option Bool) := do
  let iter ← objectLookup obj beginp endp key
  if iter = endp then pure none
  else
    let t ← deref obj iter
    pure (match t.type with
      | .true => some true
      | .false => some false
      | .string =>
        if t.data = lit "true" ∨ t.data = lit "TRUE" then some true
        else if t.data = lit "false" ∨ t.data = lit "FALSE" then some false
        else none
      | _ => none)

/-- `for (++begin; begin < aend; begin += begin->size)`. A size of zero is never left. -/
def arrayLengthLoop (obj : JSONObject) (aend : Nat) : Nat → Nat → Nat → Result Nat
  | 0, _, _ => .diverge
  | fuel+1, beginp, length =>
    if beginp < aend then do
      let t ← deref obj beginp
      arrayLengthLoop obj aend fuel (beginp+t.size.toNat) (length+1)
    else .ok length

def arrayLength (obj : JSONObject) (beginp endp : Nat) : Result Nat :=
  if beginp = endp then .ok 0
  else do
    let t ← deref obj beginp
    if t.type ≠ .arrayBegin then
      Result.RAISEF .parseError "expected JSON_OBJECT_BEGIN, got: $0" [t.type.toString]
    else
      let aend := beginp+t.size.toNat-1
      if endp < aend then Result.RAISE .indexError
      else arrayLengthLoop obj aend (aend-beginp+1) (beginp+1) 0

def arrayLookupLoop (obj : JSONObject) (aend index : Nat) : Nat → Nat → Nat → Result Nat
  | 0, _, _ => .diverge
  | fuel+1, beginp, idx =>
    if beginp < aend then
      if idx = index then .ok beginp
      else do
        let t ← deref obj beginp
        arrayLookupLoop obj aend index fuel (beginp+t.size.toNat) (idx+1)
    else Result.RAISEF .indexError "invalid index: $0" [StringUtil.toString index]

def arrayLookup (obj : JSONObject) (beginp endp index : Nat) : Result Nat :=
  if beginp = endp then .ok endp
  else do
    let t ← deref obj beginp
    if t.type ≠ .arrayBegin then
      Result.RAISEF .parseError "expected JSON_OBJECT_BEGIN, got: $0" [t.type.toString]
    else
      let aend := beginp+t.size.toNat-1
      if endp < aend ∨ beginp = aend then Result.RAISE .indexError
      else arrayLookupLoop obj aend index (aend-beginp+1) (beginp+1) 0

theorem deref_eq {obj : JSONObject} {i : Nat} {t : JSONToken} (h : obj[i]? = some t) :
    deref obj i = .ok t := by
  rw [deref, h]

section steps
variable {obj : JSONObject} {p q : Nat} {ps : List Nat}

/-- The loop of `arrayLength` counts the steps. -/
theorem arrayLengthLoop_eq (h : Steps (sizeAt obj) p ps q)
    (hpos : ∀ i ∈ ps, ∀ n, sizeAt obj i = some n → 0 < n) {fuel : Nat} (hfuel : q < p+fuel)
    (length : Nat) : arrayLengthLoop obj q fuel p length = .ok (length+ps.length) := by
  induction h generalizing fuel length with
  | stop p =>
    cases fuel with
    | zero => omega
    | succ fuel => rw [arrayLengthLoop, if_neg (Nat.lt_irrefl p)]; rfl
  | step hspan hrest ih =>
    rename_i p n q ps
    have hn := hpos p List.mem_cons_self n hspan
    have hle := hrest.le
    obtain ⟨t, ht, rfl⟩ := Option.map_eq_some_iff.1 hspan
    cases fuel with
    | zero => omega
    | succ fuel =>
      rw [arrayLengthLoop, if_pos (by omega), deref_eq ht, Result.ok_bind,
        ih (fun i hi => hpos i (List.mem_cons_of_mem p hi)) (by omega), List.length_cons]
      congr 1
      omega

/-- The loop of `arrayLookup` takes the step of the index. -/
theorem arrayLookupLoop_eq (h : Steps (sizeAt obj) p ps q)
    (hpos : ∀ i ∈ ps, ∀ n, sizeAt obj i = some n → 0 < n) {fuel : Nat} (hfuel : q < p+fuel)
    (idx index : Nat) : arrayLookupLoop obj q (idx+index) fuel p idx =
      match ps[index]? with
      | some i => .ok i
      | none => Result.RAISEF .indexError "invalid index: $0" [StringUtil.toString (idx+index)] := by
  induction h generalizing fuel idx index with
  | stop p =>
    cases fuel with
    | zero => omega
    | succ fuel => rw [arrayLookupLoop, if_neg (Nat.lt_irrefl p)]; rfl
  | step hspan hrest ih =>
    rename_i p n q ps
    have hn := hpos p List.mem_cons_self n hspan
    have hle := hrest.le
    obtain ⟨t, ht, rfl⟩ := Option.map_eq_some_iff.1 hspan
    cases fuel with
    | zero => omega
    | succ fuel =>
      rw [arrayLookupLoop, if_pos (by omega)]
      cases index with
      | zero => rw [if_pos (Nat.add_zero idx).symm]; rfl
      | succ index =>
        have hrest' := ih (fun i hi => hpos i (List.mem_cons_of_mem p hi))
          (by omega : q < p+t.size.toNat+fuel) (idx+1) index
        rw [if_neg (by omega), deref_eq ht, Result.ok_bind, List.getElem?_cons_succ]
        rwa [show idx+1+index = idx+(index+1) by omega] at hrest'

end steps

section array
variable {obj : JSONObject} (hobj : SpanInvariant obj) {i : Nat} {t : JSONToken}
  (ht : obj[i]? = some t) (hbegin : t.type = .arrayBegin)
include hobj ht hbegin

/-- `arrayLength` is the number of the children, and `arrayLookup` finds each of them. -/
theorem array_spec : ∃ ps : List Nat, (∀ j, j ∈ ps ↔ ChildAt obj i t.size.toNat j) ∧
    arrayLength obj i obj.length = .ok ps.length ∧
    ∀ index j, ps[index]? = some j → arrayLookup obj i obj.length index = .ok j := by
  obtain ⟨ps, hsteps, hmem⟩ := hobj.children i t ht (by rw [hbegin]; rfl)
  obtain ⟨hpos, hroom⟩ := hobj.room i t ht
  have hspans : ∀ j ∈ ps, ∀ n, sizeAt obj j = some n → 0 < n := by
    intro j _ n hn
    obtain ⟨u, hu, rfl⟩ := Option.map_eq_some_iff.1 hn
    exact (hobj.room j u hu).1
  have hne : i ≠ obj.length := by omega
  have haend : ¬obj.length < i+t.size.toNat-1 := by omega
  have htype : ¬t.type ≠ .arrayBegin := not_not_intro hbegin
  have hlength := arrayLengthLoop_eq hsteps hspans
    (by omega : i+t.size.toNat-1 < i+1+(i+t.size.toNat-1-i+1)) 0
  refine ⟨ps, hmem, ?_, fun index j hj => ?_⟩
  · rw [arrayLength, if_neg hne, deref_eq ht, Result.ok_bind, if_neg htype]
    simp only [if_neg haend, hlength, Nat.zero_add]
  · obtain ⟨hij, hlt, -⟩ := (hmem j).1 (List.mem_of_getElem? hj)
    have hlookup := arrayLookupLoop_eq hsteps hspans
      (by omega : i+t.size.toNat-1 < i+1+(i+t.size.toNat-1-i+1)) 0 index
    have hbounds : ¬(obj.length < i+t.size.toNat-1 ∨ i = i+t.size.toNat-1) := by omega
    rw [Nat.zero_add, hj] at hlookup
    rw [arrayLookup, if_neg hne, deref_eq ht, Result.ok_bind, if_neg htype]
    simp only [if_neg hbounds, hlookup]

end array

end JSONUtil
end Stx.Json
