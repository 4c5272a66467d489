import Stx.Protobuf.DynamicMessage
import Stx.Json.JSONUtil.Members

/-! Reading a message from the tree of a document: a plain recursion over the tree, which `fromJSON`
runs on the tokens. -/
namespace Stx.Msg.DynamicMessage
open Json Json.JSONUtil Brackets

section
variable (conv : Conversions)

/-- Every field of the schema, from what `find` does for its name. -/
def readFields (find : Bytes → DynamicMessage → Result DynamicMessage) (msg : DynamicMessage) :
    Result DynamicMessage := do
  let schema ← MessageSchema.deref msg.schema_
  schema.fields.foldlM (fun msg field => find field.name msg) msg

def readText (text name : Bytes) (msg : DynamicMessage) : Result DynamicMessage := do
  let (_, msg) ← msg.addField conv name text
  pure msg

def readObject (nested : DynamicMessage → Result DynamicMessage) (name : Bytes)
    (msg : DynamicMessage) : Result DynamicMessage := do
  let (_, msg) ← msg.addObject name nested
  readText conv [] name msg

mutual
/-- The value of a field. -/
def readMember : JSONValue → Bytes → DynamicMessage → Result DynamicMessage
  | .array elems, name, msg => readElems elems name msg
  | .object members, name, msg => readObject conv (readFields (readMembers members)) name msg
  | .string text, name, msg => readText conv text name msg
  | .number text, name, msg => readText conv text name msg
  | .true, name, msg => readText conv (lit "true") name msg
  | .false, name, msg => readText conv (lit "false") name msg
  | .null, _, msg => .ok msg

/-- An element of an array. The tokens of `true` and `false` have no text. -/
def readElement : JSONValue → Bytes → DynamicMessage → Result DynamicMessage
  | .object members, name, msg => readObject conv (readFields (readMembers members)) name msg
  | .string text, name, msg => readText conv text name msg
  | .number text, name, msg => readText conv text name msg
  | .true, name, msg => readText conv [] name msg
  | .false, name, msg => readText conv [] name msg
  | .array _, _, msg => .ok msg
  | .null, _, msg => .ok msg

def readElems : List JSONValue → Bytes → DynamicMessage → Result DynamicMessage
  | [], _, msg => .ok msg
  | v :: elems, name, msg => do
    let msg ← readElement v name msg
    readElems elems name msg

/-- The first member with the name. -/
def readMembers : List (Bytes × JSONValue) → Bytes → DynamicMessage → Result DynamicMessage
  | [], _, msg => .ok msg
  | (k, v) :: members, name, msg =>
    if k = name then readMember v name msg else readMembers members name msg
end

end

variable {conv : Conversions}

theorem readMembers_eq (members : List (Bytes × JSONValue)) (name : Bytes) (msg : DynamicMessage) :
    readMembers conv members name msg =
      match members.lookup name with
      | some v => readMember conv v name msg
      | none => .ok msg := by
  induction members with
  | nil => rw [readMembers]; rfl
  | cons m members ih =>
    cases m with
    | mk k v =>
      rw [readMembers]
      by_cases hk : k = name
      · rw [if_pos hk, hk, List.lookup_cons_self]
      · rw [if_neg hk, ih, lookup_of_ne hk]

section tokens
variable {nested : Nat → Nat → DynamicMessage → Result DynamicMessage} {obj : JSONObject}
  {name : Bytes} {endp limit : Nat}

/-- `nested` reads the objects of less than `limit` tokens as the trees that they are. -/
def ReadsObjects (conv : Conversions) (nested : Nat → Nat → DynamicMessage → Result DynamicMessage)
    (obj : JSONObject) (limit : Nat) : Prop :=
  ∀ members q rest, At obj q (forest (.object members) rest) → spanOf (.object members) < limit →
    ∀ msg, nested q (q+spanOf (.object members)) msg = readFields (readMembers conv members) msg

theorem fromObject_tree (hnested : ReadsObjects conv nested obj limit)
    {members : List (Bytes × JSONValue)} {q : Nat} {rest : TokenForest}
    (hat : At obj q (forest (.object members) rest)) (hlimit : spanOf (.object members) < limit)
    (hsize : limit ≤ 2^32) (hle : q+spanOf (.object members) ≤ endp) {t : JSONToken}
    (ht : obj[q]? = some t) (msg : DynamicMessage) :
    fromObject conv nested endp name q t msg =
      readObject conv (readFields (readMembers conv members)) name msg := by
  obtain ⟨u, hu, hspan, -⟩ := hat.value (by omega)
  cases hu.symm.trans ht
  have hdata : t.data = [] := by
    cases hat.node.1.symm.trans ht
    rfl
  have hend : min endp (q+t.size.toNat) = q+spanOf (.object members) := by omega
  have hread : nested q (q+spanOf (.object members)) = readFields (readMembers conv members) :=
    funext fun msg => hnested members q rest hat hlimit msg
  rw [fromObject, hdata]
  simp only [hend, hread]
  rfl

theorem fromElement_tree (hnested : ReadsObjects conv nested obj limit) {v : JSONValue} {q : Nat}
    {rest : TokenForest} (hat : At obj q (forest v rest)) (hlimit : spanOf v < limit)
    (hsize : limit ≤ 2^32) (hle : q+spanOf v ≤ endp) {t : JSONToken} (ht : obj[q]? = some t)
    (msg : DynamicMessage) :
    fromElement conv nested endp name q t msg = readElement conv v name msg := by
  cases v with
  | null | true | false | string s | number n =>
    cases hat.atom.1.symm.trans ht
    rw [readElement]
    rfl
  | array elems =>
    cases hat.node.1.symm.trans ht
    rw [readElement]
    rfl
  | object members =>
    have htype : t.type = .objectBegin := by
      cases hat.node.1.symm.trans ht
      rfl
    rw [fromElement, htype, readElement]
    exact fromObject_tree hnested hat hlimit hsize hle ht msg

/-- The loop over the elements, and then over the end of the array. -/
theorem fromArray_tree (hnested : ReadsObjects conv nested obj limit) {elems : List JSONValue}
    {q : Nat} (hat : At obj q (forestElems elems))
    (hlast : obj[q+(forestElems elems).spans.length]? = some (cell (.closes .array, 1)))
    {aend : Nat} (haend : q+(forestElems elems).spans.length+1 = aend) (hle : aend ≤ endp)
    (hlimit : (forestElems elems).spans.length < limit) (hsize : limit ≤ 2^32) {fuel : Nat}
    (hfuel : (forestElems elems).spans.length+1 < fuel) (msg : DynamicMessage) :
    fromArray conv nested obj endp name aend fuel q msg = readElems conv elems name msg := by
  induction elems generalizing q fuel msg with
  | nil =>
    change q+0+1 = aend at haend
    change obj[q]? = _ at hlast
    obtain ⟨fuel, rfl⟩ : ∃ n, fuel = n+2 := Nat.exists_eq_add_of_le' (by omega)
    have hend : fromElement conv nested endp name q (cell (.closes .array, 1)) msg = .ok msg := rfl
    have hone : (cell (.closes .array, 1)).size.toNat = 1 := rfl
    rw [fromArray, if_pos (by omega), deref_eq hlast, Result.ok_bind, hend, Result.ok_bind,
      fromArray, hone, if_neg (by omega), readElems]
  | cons v elems ih =>
    obtain ⟨fuel, rfl⟩ : ∃ n, fuel = n+1 := Nat.exists_eq_add_one.2 (by omega)
    rw [length_forestElems_cons] at hlast haend hlimit hfuel
    have hpos := spanOf_pos v
    obtain ⟨t, ht, hspan, hrest⟩ := hat.value (by omega : spanOf v < 2^32)
    rw [fromArray, if_pos (by omega), deref_eq ht, Result.ok_bind,
      fromElement_tree hnested hat (by omega) hsize (by omega) ht, readElems, hspan]
    refine congrArg _ (funext fun msg => ?_)
    refine ih hrest ?_ (by omega) (by omega) (by omega) msg
    rw [← hlast]
    congr 1
    omega

theorem fromToken_tree (hnested : ReadsObjects conv nested obj limit) {v : JSONValue} {q : Nat}
    {rest : TokenForest} (hat : At obj q (forest v rest)) (hlimit : spanOf v < limit)
    (hsize : limit ≤ 2^32) (hle : q+spanOf v ≤ endp) {t : JSONToken} (ht : obj[q]? = some t)
    (msg : DynamicMessage) :
    fromToken conv nested obj endp name q t msg = readMember conv v name msg := by
  cases v with
  | null | true | false | string s | number n =>
    cases hat.atom.1.symm.trans ht
    rw [readMember]
    rfl
  | array elems =>
    obtain ⟨hfirst, hinner, hlast, -⟩ := hat.node
    cases hfirst.symm.trans ht
    rw [spanOf_array] at hlimit hle
    have hcell := @size_cell (.opens .array) ((forestElems elems).spans.length+2) (by omega)
    have haend : min endp (q+((forestElems elems).spans.length+2)) =
        q+1+(forestElems elems).spans.length+1 := by omega
    have hloop : fromArray conv nested obj endp name (q+1+(forestElems elems).spans.length+1)
        ((forestElems elems).spans.length+3) (q+1) msg = readElems conv elems name msg :=
      fromArray_tree hnested hinner hlast rfl (by omega) (by omega) hsize (by omega) msg
    have hturns : q+1+(forestElems elems).spans.length+1-q+1 =
        (forestElems elems).spans.length+3 := by omega
    rw [← hturns, ← haend, ← hcell] at hloop
    rw [readMember, ← hloop]
    rfl
  | object members =>
    have htype : t.type = .objectBegin := by
      cases hat.node.1.symm.trans ht
      rfl
    rw [fromToken, htype, readMember]
    exact fromObject_tree hnested hat hlimit hsize hle ht msg

end tokens

/-- On the tokens of an object `fromJSON` is the recursion over the tree. -/
theorem fromJSON_tree {obj : JSONObject} {fuel p : Nat} {members : List (Bytes × JSONValue)}
    {rest : TokenForest} (hat : At obj p (forest (.object members) rest))
    (hsize : spanOf (.object members) < 2^32) (hfuel : spanOf (.object members) ≤ fuel)
    (msg : DynamicMessage) :
    fromJSON conv obj fuel p (p+spanOf (.object members)) msg =
      readFields (readMembers conv members) msg := by
  induction fuel generalizing p members rest msg with
  | zero =>
    have hpos := spanOf_pos (.object members)
    omega
  | succ fuel ih =>
    have hnested : ReadsObjects conv (fromJSON conv obj fuel) obj (spanOf (.object members)) := by
      intro inner q after hatq hlt msg
      exact ih hatq (by omega) (by omega) msg
    have hfield : ∀ name msg, fromField conv (fromJSON conv obj fuel) obj
        (p+spanOf (.object members)) name p msg = readMembers conv members name msg := by
      intro name msg
      rw [fromField, readMembers_eq]
      cases hlookup : members.lookup name with
      | none =>
        have habsent : name ∉ members.map Prod.fst := by
          intro hmem
          obtain ⟨m, hm, rfl⟩ := List.mem_map.1 hmem
          simpa using List.lookup_eq_none_iff.1 hlookup m hm
        rw [objectLookup_absent hat hsize (Nat.le_refl _) habsent, Result.ok_bind, if_pos rfl]
        rfl
      | some v =>
        obtain ⟨q, after, hq, hlt, hroom, hv⟩ :=
          objectLookup_lookup hat hsize (Nat.le_refl _) hlookup
        obtain ⟨t, ht, -, -⟩ := hv.value (by omega)
        rw [hq, Result.ok_bind, if_neg (by omega), deref_eq ht, Result.ok_bind]
        exact fromToken_tree hnested hv (by omega) (Nat.le_of_lt hsize) (Nat.le_of_lt hroom) ht msg
    rw [fromJSON, readFields]
    simp only [hfield]

end Stx.Msg.DynamicMessage
