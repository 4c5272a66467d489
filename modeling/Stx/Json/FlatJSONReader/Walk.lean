import Stx.Json.FlatJSONReader
import Stx.Json.ParseJSON.Grammar

/-! What the reader does with the tokens of a value, as a walk over the value. The walk carries the
path; an array leaves a token of its own behind on it. -/
namespace Stx.Json.FlatJSONReader
open Rfc8259 Rfc6901 JSONInputStream
open StringUtil (toInt toInt_range toInt_succ toStringInt)

mutual
/-- The paths at which scalars are reported, and the path at the end. -/
def walk (path : Path) : Value → List Path × Path
  | .null => ([path], path)
  | .true => ([path], path)
  | .false => ([path], path)
  | .string _ => ([path], path)
  | .number _ => ([path], path)
  | .array elems => walkElems path 0 elems
  | .object members => walkMembers path members

def walkElems (path : Path) (i : Nat) : List Value → List Path × Path
  | [] => ([], path ++ [toStringInt (toInt i)])
  | v :: elems =>
    ((walk (path ++ [toStringInt (toInt i)]) v).1 ++
        (walkElems (walk (path ++ [toStringInt (toInt i)]) v).2.dropLast (i+1) elems).1,
      (walkElems (walk (path ++ [toStringInt (toInt i)]) v).2.dropLast (i+1) elems).2)

def walkMembers (path : Path) : List (Str × Value) → List Path × Path
  | [] => ([], path)
  | (k, v) :: members =>
    ((walk (path ++ [kept k]) v).1 ++
        (walkMembers (walk (path ++ [kept k]) v).2.dropLast members).1,
      (walkMembers (walk (path ++ [kept k]) v).2.dropLast members).2)
end

mutual
/-- The keys can be escaped. -/
def ShortKeys : Value → Prop
  | .null => True
  | .true => True
  | .false => True
  | .string _ => True
  | .number _ => True
  | .array elems => ShortKeysElems elems
  | .object members => ShortKeysMembers members

def ShortKeysElems : List Value → Prop
  | [] => True
  | v :: elems => ShortKeys v ∧ ShortKeysElems elems

def ShortKeysMembers : List (Str × Value) → Prop
  | [] => True
  | (k, v) :: members =>
    (Rfc6901.escape (kept k)).length < 2^31 ∧ ShortKeys v ∧ ShortKeysMembers members
end

/- The walk does not lose what the path had at its beginning. -/

section length
variable {elems : List Value} {members : List (Str × Value)}

theorem length_walkElems (ih : ∀ v ∈ elems, ∀ path, path.length ≤ (walk path v).2.length)
    (path : Path) (i : Nat) : path.length < (walkElems path i elems).2.length := by
  induction elems generalizing path i with
  | nil => simp [walkElems]
  | cons v elems ihe =>
    have hv := ih v List.mem_cons_self (path ++ [toStringInt (toInt i)])
    have hrest := ihe (fun w hw => ih w (List.mem_cons_of_mem v hw))
      (walk (path ++ [toStringInt (toInt i)]) v).2.dropLast (i+1)
    rw [List.length_append, List.length_singleton] at hv
    rw [List.length_dropLast] at hrest
    simp only [walkElems]
    omega

theorem length_walkMembers (ih : ∀ m ∈ members, ∀ path, path.length ≤ (walk path m.2).2.length)
    (path : Path) : path.length ≤ (walkMembers path members).2.length := by
  induction members generalizing path with
  | nil => exact Nat.le_refl _
  | cons m members ihm =>
    cases m with
    | mk k v =>
      have hv : _ ≤ (walk (path ++ [kept k]) v).2.length := ih (k, v) List.mem_cons_self _
      have hrest := ihm (fun w hw => ih w (List.mem_cons_of_mem _ hw))
        (walk (path ++ [kept k]) v).2.dropLast
      rw [List.length_append, List.length_singleton] at hv
      rw [List.length_dropLast] at hrest
      simp only [walkMembers]
      omega

theorem length_walk (v : Value) (path : Path) : path.length ≤ (walk path v).2.length := by
  induction v using Json.induction generalizing path with
  | null | true | false | string _ | number _ => exact Nat.le_refl _
  | array elems ih => exact Nat.le_of_lt (length_walkElems ih path 0)
  | object members ih => exact length_walkMembers ih path

end length

/- Running the reader. -/

/-- The call returns with the reports and the path of `w`, and with the tokens `ts` left. -/
def Reads (x : Sys FlatJSONReader Unit) (s : FlatJSONReader) (w : List Path × Path)
    (ts : List Token) (r : Result Unit) : Prop :=
  ∃ s', x s = (.ok (), s') ∧ s'.path = pointer w.2 ∧
    s'.calls.map Prod.fst = s.calls.map Prod.fst ++ w.1.map pointer ∧ scan s'.json_ = (ts, r)

section reads
variable {s : FlatJSONReader} {ts : List Token} {r : Result Unit}

theorem nextToken_run {t : Token} (h : scan s.json_ = (t :: ts, r)) :
    ∃ json, nextToken s = (.ok t, { s with json_ := json }) ∧ scan json = (ts, r) := by
  obtain ⟨left, hread, hscan, -⟩ := readNextToken_of_scan h
  exact ⟨left, by rw [nextToken, hread], hscan⟩

theorem nextToken_bind {α : Type} {t : Token} (h : scan s.json_ = (t :: ts, r))
    (f : Token → Sys FlatJSONReader α) :
    ∃ json, (nextToken >>= f) s = f t { s with json_ := json } ∧ scan json = (ts, r) := by
  obtain ⟨json, hread, hscan⟩ := nextToken_run h
  exact ⟨json, Sys.bind_of_ok hread, hscan⟩

theorem push_bind {α : Type} {path : Path} {token : Bytes} (hpath : s.path = pointer path)
    (htoken : (Rfc6901.escape token).length < 2^31) (f : Unit → Sys FlatJSONReader α) :
    (push token >>= f) s = f () { s with path := pointer (path ++ [token]) } := by
  apply Sys.bind_of_ok
  rw [push, hpath, JSONPointer.push_pointer path htoken]

theorem Reads.pure {path : Path} (hpath : s.path = pointer path) (h : scan s.json_ = (ts, r)) :
    Reads (pure ()) s ([], path) ts r :=
  ⟨s, rfl, hpath, (List.append_nil _).symm, h⟩

theorem Reads.func {path : Path} (hpath : s.path = pointer path) (h : scan s.json_ = (ts, r))
    (value : Bytes) : Reads (func value) s ([path], path) ts r :=
  ⟨_, rfl, hpath, by simp [hpath], h⟩

/-- Behind a value, its own token is taken from the path. -/
theorem Reads.pop_bind {x : Sys FlatJSONReader Unit} {f : Unit → Sys FlatJSONReader Unit}
    {ts' : List Token} {w w' : List Path × Path} (hx : Reads x s w ts' r) (hne : w.2 ≠ [])
    (hf : ∀ s', s'.path = pointer w.2.dropLast → scan s'.json_ = (ts', r) →
      Reads (f ()) s' w' ts r) :
    Reads (x >>= fun _ => pop >>= f) s (w.1 ++ w'.1, w'.2) ts r := by
  obtain ⟨s', hrun, hpath, hcalls, hscan⟩ := hx
  have hpop : JSONPointer.pop s'.path = pointer w.2.dropLast := by
    rw [hpath, JSONPointer.pop_pointer_dropLast hne]
  obtain ⟨s'', hrun', hpath', hcalls', hscan'⟩ :=
    hf { s' with path := JSONPointer.pop s'.path } hpop hscan
  refine ⟨s'', ?_, hpath', ?_, hscan'⟩
  · rw [Sys.bind_of_ok hrun]
    exact hrun'
  · rw [hcalls']
    simp [hcalls]

end reads

section values
variable {elems : List Value} {members : List (Str × Value)}

def raw (v : Value) : JSONValue := v.map kept Number.text

/-- The switch over the first token of a value reads the value. -/
def ReadsValue (v : Value) : Prop :=
  ∀ (fuel : Nat) (value : Bytes) (message : String) (s : FlatJSONReader) (path : Path)
    (ts : List Token) (r : Result Unit) (t : Token) (rest : List Token),
    tokens (raw v) = t :: rest → scan s.json_ = (rest ++ ts, r) → s.path = pointer path →
      rest.length ≤ fuel →
      Reads (readValue (readObject fuel) (readArray fuel 0) value message t.1) s (walk path v) ts r

theorem tokens_cons (v : JSONValue) :
    ∃ t rest, tokens v = t :: rest ∧ t.1 ≠ .arrayEnd ∧ t.1 ≠ .objectEnd := by
  cases v with
  | null | true | false | string _ | number _ =>
    refine ⟨_, _, rfl, ?_, ?_⟩ <;> simp [tokenOf]
  | array elems =>
    exact ⟨(.arrayBegin, []), _, by rw [tokens, forest, tokensOf_node]; rfl, by decide, by decide⟩
  | object members =>
    exact ⟨(.objectBegin, []), _, by rw [tokens, forest, tokensOf_node]; rfl, by decide, by decide⟩

theorem tokens_elems_cons {v : Value} {t : Token} {rest : List Token}
    (h : tokens (raw v) = t :: rest) :
    tokensOf (forestElems (Json.mapElems kept Number.text (v :: elems))) =
      t :: (rest ++ tokensOf (forestElems (Json.mapElems kept Number.text elems))) := by
  rw [Json.mapElems, forestElems, tokensOf_forest, ← List.cons_append, ← h]
  rfl

theorem tokens_members_cons (k : Str) {v : Value} {t : Token} {rest : List Token}
    (h : tokens (raw v) = t :: rest) :
    tokensOf (forestMembers (Json.mapMembers kept Number.text ((k, v) :: members))) =
      (.string, kept k) :: t ::
        (rest ++ tokensOf (forestMembers (Json.mapMembers kept Number.text members))) := by
  have hv : tokens (v.map kept Number.text) = t :: rest := h
  rw [Json.mapMembers, forestMembers, tokensOf_atom, tokensOf_forest, hv]
  rfl

theorem reads_elems (ih : ∀ v ∈ elems, ShortKeys v → ReadsValue v) (hkeys : ShortKeysElems elems)
    {fuel i : Nat} {s : FlatJSONReader} {path : Path} {ts : List Token} {r : Result Unit}
    (h : scan s.json_ =
      (tokensOf (forestElems (Json.mapElems kept Number.text elems)) ++ (.arrayEnd, []) :: ts, r))
    (hpath : s.path = pointer path)
    (hfuel : (tokensOf (forestElems (Json.mapElems kept Number.text elems))).length < fuel) :
    Reads (readArray fuel (toInt i)) s (walkElems path i elems) ts r := by
  induction elems generalizing fuel i s path with
  | nil =>
    cases fuel with
    | zero => exact absurd hfuel (Nat.not_lt_zero _)
    | succ fuel =>
      obtain ⟨json, hread, hscan⟩ := nextToken_bind h _
      rw [Reads, readArray, hread, @push_bind { s with json_ := json } _ path _ hpath
        (JSONPointer.length_escape_index _ (toInt_range i))]
      exact Reads.pure rfl hscan
  | cons v elems ihe =>
    obtain ⟨t, rest, htokens, hend, -⟩ := tokens_cons (raw v)
    rw [tokens_elems_cons htokens] at h hfuel
    cases fuel with
    | zero => exact absurd hfuel (Nat.not_lt_zero _)
    | succ fuel =>
      rw [List.length_cons, List.length_append] at hfuel
      rw [List.cons_append, List.append_assoc] at h
      obtain ⟨json, hread, hscan⟩ := nextToken_bind h _
      rw [Reads, readArray, hread, @push_bind { s with json_ := json } _ path _ hpath
        (JSONPointer.length_escape_index _ (toInt_range i)), if_neg hend, walkElems]
      have hvalue := ih v List.mem_cons_self hkeys.1 fuel (elemText t)
        "invalid JSON. unexpected token"
        { s with json_ := json, path := pointer (path ++ [toStringInt (toInt i)]) } _ _ r t rest
        htokens hscan rfl (by omega)
      refine hvalue.pop_bind ?_ fun s' hpath' hscan' => ?_
      · have hlen := length_walk v (path ++ [toStringInt (toInt i)])
        rw [List.length_append, List.length_singleton] at hlen
        exact List.ne_nil_of_length_pos (by omega)
      · rw [toInt_succ, ← Nat.cast_succ]
        exact ihe (fun w hw => ih w (List.mem_cons_of_mem v hw)) hkeys.2 hscan' hpath' (by omega)

theorem reads_members (ih : ∀ m ∈ members, ShortKeys m.2 → ReadsValue m.2)
    (hkeys : ShortKeysMembers members)
    {fuel : Nat} {s : FlatJSONReader} {path : Path} {ts : List Token} {r : Result Unit}
    (h : scan s.json_ = (tokensOf (forestMembers (Json.mapMembers kept Number.text members)) ++
      (.objectEnd, []) :: ts, r))
    (hpath : s.path = pointer path)
    (hfuel : (tokensOf (forestMembers (Json.mapMembers kept Number.text members))).length < fuel) :
    Reads (readObject fuel) s (walkMembers path members) ts r := by
  induction members generalizing fuel s path with
  | nil =>
    cases fuel with
    | zero => exact absurd hfuel (Nat.not_lt_zero _)
    | succ fuel =>
      obtain ⟨json, hread, hscan⟩ := nextToken_bind h _
      rw [Reads, readObject, hread]
      exact Reads.pure hpath hscan
  | cons m members ihm =>
    cases m with
    | mk k v =>
      obtain ⟨t, rest, htokens, -, -⟩ := tokens_cons (raw v)
      rw [tokens_members_cons k htokens] at h hfuel
      cases fuel with
      | zero => exact absurd hfuel (Nat.not_lt_zero _)
      | succ fuel =>
        rw [List.length_cons, List.length_cons, List.length_append] at hfuel
        rw [List.cons_append, List.cons_append, List.append_assoc] at h
        obtain ⟨json, hread, hscan⟩ := nextToken_bind h _
        have hkey : ∀ f : Unit → Sys FlatJSONReader Unit,
            (pushKey (.string, kept k) >>= f) { s with json_ := json } =
              f () { s with json_ := json, path := pointer (path ++ [kept k]) } :=
          @push_bind { s with json_ := json } _ path _ hpath hkeys.1
        obtain ⟨json', hread', hscan'⟩ := @nextToken_bind
          { s with json_ := json, path := pointer (path ++ [kept k]) } _ _ _ _ hscan _
        have hgoes : (TokenType.string, kept k).1 ≠ .objectEnd := by simp
        rw [Reads, readObject, hread, if_neg hgoes, hkey, hread', walkMembers]
        have hv : ReadsValue v := ih (k, v) List.mem_cons_self hkeys.2.1
        have hvalue := hv fuel t.2
          "invalid JSON. object key must be of type string, number, boolean or null"
          { s with json_ := json', path := pointer (path ++ [kept k]) } _ _ r t rest htokens hscan'
          rfl (by omega)
        refine hvalue.pop_bind ?_ fun s' hpath' hscan'' => ?_
        · have hlen : _ ≤ (walk (path ++ [kept k]) v).2.length := length_walk v _
          rw [List.length_append, List.length_singleton] at hlen
          exact List.ne_nil_of_length_pos (by omega)
        · exact ihm (fun w hw => ih w (List.mem_cons_of_mem _ hw)) hkeys.2.2 hscan'' hpath'
            (by omega)

/-- Behind the first token of a container there are its elements or members and its end. -/
theorem tokens_array (elems : List Value) :
    tokens (raw (.array elems)) = (.arrayBegin, []) ::
      (tokensOf (forestElems (Json.mapElems kept Number.text elems)) ++ [(.arrayEnd, [])]) := by
  rw [raw, Json.map, tokens, forest, tokensOf_node]
  rfl

theorem tokens_object (members : List (Str × Value)) :
    tokens (raw (.object members)) = (.objectBegin, []) ::
      (tokensOf (forestMembers (Json.mapMembers kept Number.text members)) ++
        [(.objectEnd, [])]) := by
  rw [raw, Json.map, tokens, forest, tokensOf_node]
  rfl

theorem reads_value (v : Value) (hkeys : ShortKeys v) : ReadsValue v := by
  induction v using Json.induction with
  | null | true | false | string _ | number _ =>
    intro fuel value message s path ts r t rest htokens h hpath hfuel
    cases htokens
    exact Reads.func hpath h value
  | array elems ih =>
    intro fuel value message s path ts r t rest htokens h hpath hfuel
    rw [tokens_array] at htokens
    cases htokens
    rw [List.append_assoc] at h
    rw [List.length_append, List.length_singleton] at hfuel
    exact @reads_elems _ ih hkeys fuel 0 s path ts r h hpath hfuel
  | object members ih =>
    intro fuel value message s path ts r t rest htokens h hpath hfuel
    rw [tokens_object] at htokens
    cases htokens
    rw [List.append_assoc] at h
    rw [List.length_append, List.length_singleton] at hfuel
    exact reads_members ih hkeys h hpath hfuel

end values
end Stx.Json.FlatJSONReader
