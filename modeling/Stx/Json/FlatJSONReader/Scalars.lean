import Stx.Json.FlatJSONReader.Texts

/-! What the reader hands on for a scalar. A word is its text as an element of an array, and the
empty data of its token as a value of an object. -/
namespace Stx.Json.FlatJSONReader
open Rfc8259 JSONInputStream

/-- The data of a string, the characters of a number, or the word. -/
def scalarText : Value → Bytes
  | .null => lit "null"
  | .true => lit "true"
  | .false => lit "false"
  | .string s => kept s
  | .number n => n.text
  | .array _ => []
  | .object _ => []

def isWord : Value → Bool
  | .null => true
  | .true => true
  | .false => true
  | _ => false

mutual
/-- The scalars of a value in their order, each with whether it is an element of an array. -/
def scalars (element : Bool) : Value → List (Bool × Value)
  | .null => [(element, .null)]
  | .true => [(element, .true)]
  | .false => [(element, .false)]
  | .string s => [(element, .string s)]
  | .number n => [(element, .number n)]
  | .array elems => scalarsElems elems
  | .object members => scalarsMembers members

def scalarsElems : List Value → List (Bool × Value)
  | [] => []
  | v :: elems => scalars true v ++ scalarsElems elems

def scalarsMembers : List (Str × Value) → List (Bool × Value)
  | [] => []
  | (_, v) :: members => scalars false v ++ scalarsMembers members
end

/-- The text that a scalar is reported with. -/
def reported (c : Bool × Value) : Bytes := if isWord c.2 ∧ c.1 = false then [] else scalarText c.2

/-- The arguments of the calls that are made for a text, whether it is read to its end or not. -/
def callsOf (text : Bytes) : List (Bytes × Bytes) := (read { json_ := .ofString text }).2.calls

/-- A call that returns has reported the values `ws`, and one that does not the first of them. -/
def Reports {α : Type} (x : Sys FlatJSONReader α) (s : FlatJSONReader) (ws : List Bytes)
    (Q : α → FlatJSONReader → Prop) : Prop :=
  ∃ cs, (x s).2.calls = s.calls ++ cs ∧ cs.map Prod.snd <+: ws ∧
    ∀ a, (x s).1 = .ok a → cs.map Prod.snd = ws ∧ Q a (x s).2

/-- The stream has no other tokens than these, of which the last may be missing. -/
def Left (s : FlatJSONReader) (ts : List Token) : Prop := (scan s.json_).1 <+: ts

section reports
variable {α β : Type} {s : FlatJSONReader}

theorem Reports.bind {x : Sys FlatJSONReader α} {f : α → Sys FlatJSONReader β} {ws ws' : List Bytes}
    {Q : α → FlatJSONReader → Prop} {Q' : β → FlatJSONReader → Prop} (hx : Reports x s ws Q)
    (hf : ∀ a s', Q a s' → Reports (f a) s' ws' Q') : Reports (x >>= f) s (ws ++ ws') Q' := by
  obtain ⟨cs, hcalls, hprefix, hok⟩ := hx
  cases hrun : x s with
  | mk r s' =>
    rw [hrun] at hcalls hok
    cases r with
    | ok a =>
      obtain ⟨rfl, hQ⟩ := hok a rfl
      obtain ⟨cs', hcalls', hprefix', hok'⟩ := hf a s' hQ
      rw [Reports, Sys.bind_of_ok hrun]
      refine ⟨cs ++ cs', by rw [hcalls', hcalls, List.append_assoc], ?_, fun b hb => ?_⟩
      · rw [List.map_append]
        exact List.prefix_append_right_inj _ |>.2 hprefix'
      · rw [List.map_append, (hok' b hb).1]
        exact ⟨rfl, (hok' b hb).2⟩
    | raise e =>
      rw [Reports, Sys.bind_of_raise hrun]
      exact ⟨cs, hcalls, hprefix.trans (List.prefix_append ws ws'), nofun⟩
    | diverge =>
      rw [Reports, Sys.bind_of_diverge hrun]
      exact ⟨cs, hcalls, hprefix.trans (List.prefix_append ws ws'), nofun⟩

/-- A call that reports nothing in front of the others. -/
theorem Reports.bind_nil {x : Sys FlatJSONReader α} {f : α → Sys FlatJSONReader β}
    {ws : List Bytes} {Q : α → FlatJSONReader → Prop} {Q' : β → FlatJSONReader → Prop}
    (hx : Reports x s [] Q) (hf : ∀ a s', Q a s' → Reports (f a) s' ws Q') :
    Reports (x >>= f) s ws Q' :=
  hx.bind hf

/-- A call that does not return, and leaves the reader as it is. -/
theorem reports_stopped {x : Sys FlatJSONReader α} {r : Result α} {ws : List Bytes}
    {Q : α → FlatJSONReader → Prop} (hrun : x s = (r, s)) (h : ∀ a, r ≠ .ok a) :
    Reports x s ws Q := by
  rw [Reports, hrun]
  exact ⟨[], (List.append_nil _).symm, List.nil_prefix, fun a ha => absurd ha (h a)⟩

theorem reports_reads {r : Result α} {ws : List Bytes} {Q : α → FlatJSONReader → Prop}
    (h : ∀ a, r ≠ .ok a) : Reports (.reads fun _ => r) s ws Q :=
  reports_stopped rfl h

theorem reports_pure {a : α} {Q : α → FlatJSONReader → Prop} (h : Q a s) :
    Reports (pure a) s [] Q := by
  refine ⟨[], (List.append_nil _).symm, List.nil_prefix, fun b hb => ?_⟩
  cases hb
  exact ⟨rfl, h⟩

theorem reports_nextToken {t : Token} {ts : List Token} (h : Left s (t :: ts)) :
    Reports nextToken s [] fun a s' => a = t ∧ Left s' ts := by
  cases hread : readNextToken s.json_ with
  | raise e => exact reports_stopped (by rw [nextToken, hread]) (by simp)
  | diverge => exact reports_stopped (by rw [nextToken, hread]) (by simp)
  | ok next =>
    cases next with
    | none => exact reports_stopped (by rw [nextToken, hread]) (by simp [Result.RAISE])
    | some p =>
      rw [Left, scan_token hread, List.cons_prefix_cons] at h
      rw [Reports, nextToken, hread]
      refine ⟨[], (List.append_nil _).symm, List.nil_prefix, fun a ha => ?_⟩
      cases ha
      exact ⟨rfl, h⟩

theorem reports_push {str : Bytes} {ts : List Token} (h : Left s ts) :
    Reports (push str) s [] fun _ s' => Left s' ts := by
  cases hpush : JSONPointer.push s.path str with
  | ok path =>
    rw [Reports, push, hpush]
    exact ⟨[], (List.append_nil _).symm, List.nil_prefix, fun _ _ => ⟨rfl, h⟩⟩
  | raise e => exact reports_stopped (by rw [push, hpush]) (by simp)
  | diverge => exact reports_stopped (by rw [push, hpush]) (by simp)

theorem reports_pop {ts : List Token} (h : Left s ts) :
    Reports pop s [] fun _ s' => Left s' ts :=
  ⟨[], (List.append_nil _).symm, List.nil_prefix, fun _ _ => ⟨rfl, h⟩⟩

theorem reports_func {value : Bytes} {ts : List Token} (h : Left s ts) :
    Reports (func value) s [value] fun _ s' => Left s' ts :=
  ⟨[(s.path, value)], rfl, List.prefix_refl _, fun _ _ => ⟨rfl, h⟩⟩

end reports

section values
variable {elems : List Value} {members : List (Str × Value)}

/-- What the switch over the token of a scalar hands on, in an array and in an object. -/
def handedOn (element : Bool) (t : Token) : Bytes := if element then elemText t else t.2

/-- The switch over the first token of a value reports its scalars. -/
def ReportsValue (v : Value) : Prop :=
  ∀ (fuel : Nat) (element : Bool) (message : String) (s : FlatJSONReader) (ts : List Token)
    (t : Token) (rest : List Token), tokens (raw v) = t :: rest → Left s (rest ++ ts) →
      Reports (readValue (readObject fuel) (readArray fuel 0) (handedOn element t) message t.1) s
        ((scalars element v).map reported) fun _ s' => Left s' ts

theorem reports_elems (ih : ∀ v ∈ elems, ReportsValue v) {fuel : Nat} {i : Int}
    {s : FlatJSONReader} {ts : List Token}
    (h : Left s
      (tokensOf (forestElems (Json.mapElems kept Number.text elems)) ++ (.arrayEnd, []) :: ts)) :
    Reports (readArray fuel i) s ((scalarsElems elems).map reported) fun _ s' => Left s' ts := by
  induction elems generalizing fuel i s with
  | nil =>
    cases fuel with
    | zero => exact reports_reads nofun
    | succ fuel =>
      rw [readArray]
      refine (reports_nextToken h).bind_nil ?_
      rintro elem s' ⟨rfl, hleft⟩
      refine (reports_push hleft).bind_nil fun _ s' hleft => ?_
      rw [if_pos rfl]
      exact reports_pure hleft
  | cons v elems ihe =>
    obtain ⟨t, rest, htokens, hend, -⟩ := tokens_cons (raw v)
    rw [tokens_elems_cons htokens, List.cons_append, List.append_assoc] at h
    cases fuel with
    | zero => exact reports_reads nofun
    | succ fuel =>
      rw [readArray, scalarsElems, List.map_append]
      refine (reports_nextToken h).bind_nil ?_
      rintro elem s' ⟨rfl, hleft⟩
      refine (reports_push hleft).bind_nil fun _ s' hleft => ?_
      rw [if_neg hend]
      refine (ih v List.mem_cons_self fuel true _ s' _ elem rest htokens hleft).bind
        fun _ s' hleft => ?_
      refine (reports_pop hleft).bind_nil fun _ s' hleft => ?_
      exact ihe (fun w hw => ih w (List.mem_cons_of_mem v hw)) hleft

theorem reports_members (ih : ∀ m ∈ members, ReportsValue m.2) {fuel : Nat} {s : FlatJSONReader}
    {ts : List Token}
    (h : Left s (tokensOf (forestMembers (Json.mapMembers kept Number.text members)) ++
      (.objectEnd, []) :: ts)) :
    Reports (readObject fuel) s ((scalarsMembers members).map reported) fun _ s' => Left s' ts := by
  induction members generalizing fuel s with
  | nil =>
    cases fuel with
    | zero => exact reports_reads nofun
    | succ fuel =>
      rw [readObject]
      refine (reports_nextToken h).bind_nil ?_
      rintro key s' ⟨rfl, hleft⟩
      rw [if_pos rfl]
      exact reports_pure hleft
  | cons m members ihm =>
    cases m with
    | mk k v =>
      obtain ⟨t, rest, htokens, -, -⟩ := tokens_cons (raw v)
      rw [tokens_members_cons k htokens, List.cons_append, List.cons_append, List.append_assoc] at h
      cases fuel with
      | zero => exact reports_reads nofun
      | succ fuel =>
        have hgoes : (TokenType.string, kept k).1 ≠ .objectEnd := by simp
        rw [readObject, scalarsMembers, List.map_append]
        refine (reports_nextToken h).bind_nil ?_
        rintro key s₁ ⟨rfl, hleft⟩
        rw [if_neg hgoes]
        refine (reports_push hleft).bind_nil fun _ s₂ hleft => ?_
        refine (reports_nextToken hleft).bind_nil ?_
        rintro value s₃ ⟨rfl, hleft'⟩
        have hv : ReportsValue v := ih (k, v) List.mem_cons_self
        refine (hv fuel false _ s₃ _ value rest htokens hleft').bind fun _ s₄ hleft => ?_
        refine (reports_pop hleft).bind_nil fun _ s₅ hleft => ?_
        exact ihm (fun w hw => ih w (List.mem_cons_of_mem _ hw)) hleft

theorem reports_value (v : Value) : ReportsValue v := by
  induction v using Json.induction with
  | null | true | false =>
    intro fuel element message s ts t rest htokens h
    cases htokens
    cases element <;> exact reports_func h
  | string _ | number _ =>
    intro fuel element message s ts t rest htokens h
    cases htokens
    cases element <;> exact reports_func h
  | array elems ih =>
    intro fuel element message s ts t rest htokens h
    rw [tokens_array] at htokens
    cases htokens
    rw [List.append_assoc] at h
    exact reports_elems ih h
  | object members ih =>
    intro fuel element message s ts t rest htokens h
    rw [tokens_object] at htokens
    cases htokens
    rw [List.append_assoc] at h
    exact reports_members ih h

end values

/-- A document has no other tokens than its value, and none behind a tab. -/
theorem left_text (t : Text) : Left { json_ := .ofString t.bytes } (tokens (raw t.value)) := by
  rw [Left, raw, tokens_map]
  by_cases htab : Tabbed t.spaced
  · obtain ⟨a, b, hsplit, -, hscan⟩ := scan_spell_tab (isChain_spaced t) htab (blanks t.trailing)
    have hskip : scan (.ofString t.bytes) = (terminalTokens kept a, .raise (unexpectedChar 9)) :=
      (scan_ignored (by decide) _).trans hscan
    rw [t.spaced_eq] at hsplit
    change (scan (.ofString t.bytes)).1 <+: _
    rw [hskip, hsplit, terminalTokens_append]
    exact List.prefix_append _ _
  · have hnumber : NumberEnds (blanks t.trailing) := by
      have hblanks := @numberEnds_blanks t.trailing [] (.inr rfl)
      rwa [List.append_nil] at hblanks
    have hnone : (scan (blanks t.trailing)).1 = [] := by
      by_cases htrailing : .tab ∈ t.trailing
      · have hscan := scan_tab htrailing []
        rw [List.append_nil] at hscan
        rw [hscan]
      · have hscan := scan_blanks htrailing []
        rw [List.append_nil] at hscan
        rw [hscan, scan_finished rfl]
    have hskip : scan (.ofString t.bytes) =
        (terminalTokens kept (terminals t.value) ++ (scan (blanks t.trailing)).1,
          (scan (blanks t.trailing)).2) := by
      refine (scan_ignored (by decide) _).trans ?_
      rw [Text.bytes, scan_spell (isChain_spaced t) htab hnumber, t.spaced_eq]
    change (scan (.ofString t.bytes)).1 <+: _
    rw [hskip, hnone]
    exact ⟨[], by rw [List.append_nil, List.append_nil]⟩

/-- A document that is a scalar is refused, and of any other one the scalars are reported. -/
theorem reports_root (t : Text) :
    Reports read { json_ := .ofString t.bytes } ((scalars false t.value).map reported)
      fun _ s' => Left s' [] := by
  obtain ⟨root, rest, htokens, -, -⟩ := tokens_cons (raw t.value)
  have hleft := left_text t
  rw [htokens] at hleft
  suffices h : Reports (nextToken >>= fun root =>
      readRoot ((JSONInputStream.ofString t.bytes).length+1) root.1)
      { json_ := .ofString t.bytes } ((scalars false t.value).map reported)
      fun _ s' => Left s' [] by
    rwa [Reports, ← read_eq] at h
  refine (reports_nextToken hleft).bind_nil ?_
  rintro root s' ⟨rfl, hleft'⟩
  have hvalue := reports_value t.value ((JSONInputStream.ofString t.bytes).length+1) false
    "invalid JSON. root node must be OBJECT or ARRAY" s' [] root rest htokens
    (by rwa [List.append_nil])
  cases hv : t.value with
  | array elems =>
    rw [hv] at htokens hvalue
    rw [tokens_array] at htokens
    cases htokens
    exact hvalue
  | object members =>
    rw [hv] at htokens hvalue
    rw [tokens_object] at htokens
    cases htokens
    exact hvalue
  | null | true | false =>
    rw [hv] at htokens
    cases htokens
    exact reports_reads nofun
  | string _ | number _ =>
    rw [hv] at htokens
    cases htokens
    exact reports_reads nofun

theorem reported_eq_iff (c : Bool × Value) :
    reported c = scalarText c.2 ↔ (isWord c.2 = true → c.1 = true) := by
  cases c with
  | mk element v =>
    rw [reported]
    cases element with
    | true => simp
    | false =>
      cases v with
      | null | true | false => simp [isWord, scalarText, lit]
      | string _ | number _ | array _ | object _ => simp [isWord]

/-- Every call for a document is one for the scalar at its place, all of them where the reader
returns, and it gets the text of the scalar exactly when that is not a word in an object. -/
theorem reported_iff (t : Text) :
    (∀ (i : Nat) (call : Bytes × Bytes), (callsOf t.bytes)[i]? = some call →
      ∃ c : Bool × Value, (scalars false t.value)[i]? = some c ∧
        (call.2 = scalarText c.2 ↔ (isWord c.2 = true → c.1 = true))) ∧
    ((read { json_ := .ofString t.bytes }).1 = .ok () →
      (callsOf t.bytes).length = (scalars false t.value).length) := by
  obtain ⟨cs, hcalls, hprefix, hok⟩ := reports_root t
  have hall : callsOf t.bytes = cs := hcalls
  rw [hall]
  refine ⟨fun i call hcall => ?_, fun hread => ?_⟩
  · obtain ⟨rest, hrest⟩ := hprefix
    have hvalue : ((scalars false t.value).map reported)[i]? = some call.2 := by
      rw [← hrest, List.getElem?_append_left, List.getElem?_map, hcall]
      · rfl
      · rw [List.length_map]
        exact (List.getElem?_eq_some_iff.1 hcall).1
    rw [List.getElem?_map] at hvalue
    obtain ⟨c, hc, hreported⟩ := Option.map_eq_some_iff.1 hvalue
    exact ⟨c, hc, by rw [← hreported, reported_eq_iff]⟩
  · have hlen := congrArg List.length (hok () hread).1
    rwa [List.length_map, List.length_map] at hlen

/-- `{"x":true,"y":[true]}`. -/
def twoWords : Text := .plain (.object
  [([.plain 120 (by decide)], .true), ([.plain 121 (by decide)], .array [.true])])

theorem twoWords_differ :
    ¬∀ (t : Text) (i j : Nat) (call call' : Bytes × Bytes) (c c' : Bool × Value),
      (callsOf t.bytes)[i]? = some call → (callsOf t.bytes)[j]? = some call' →
      (scalars false t.value)[i]? = some c → (scalars false t.value)[j]? = some c' → c.2 = c'.2 →
        call.2 = call'.2 := by
  intro h
  have hcalls : callsOf twoWords.bytes = [(lit "/x", []), (lit "/y/0", lit "true")] := by
    decide +kernel
  have hsame := h twoWords 0 1 (lit "/x", []) (lit "/y/0", lit "true") (false, .true) (true, .true)
    (by rw [hcalls]; rfl) (by rw [hcalls]; rfl) rfl rfl rfl
  exact absurd hsame (by decide)

end Stx.Json.FlatJSONReader
