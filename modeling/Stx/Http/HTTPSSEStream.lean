import Stx.Http.HTTPResponseStream
import Stx.Http.HTTPSSEParser.ChunkInvariance

/-! `http/HTTPSSEStream.{h,cc}`, and what the parser reads of the events that are sent. -/
namespace Stx.Http.HTTPSSEStream
open StringUtil HTTPSSEParser

def typeField : Option Bytes → Bytes
  | some event_type => lit "event: " ++ event_type ++ lit "\n"
  | none => []

/-- The buffer of `sendEvent`. -/
def eventBuf (event_data : Bytes) (event_type : Option Bytes) : Bytes :=
  typeField event_type ++ lit "data: " ++ event_data ++ lit "\n\n"

def sendEvent (event_data : Bytes) (event_type : Option Bytes) :
    Sys HTTPResponseStream HTTPResponseStream.Next :=
  HTTPResponseStream.writeBodyChunk (eventBuf event_data event_type)

/-- A call of `sendEvent`, as the event that it is meant to be. -/
def chunkOf (event : HTTPSSEEvent) : Bytes := eventBuf event.data event.name

theorem sendEvent_accepted {s : HTTPResponseStream} (h : s.error_ = false) (event : HTTPSSEEvent) :
    sendEvent event.data event.name s =
      HTTPResponseStream.onStateChanged { s with buf_ := s.buf_ ++ chunkOf event } := by
  have hcheck : HTTPResponseStream.checkClient s = (.ok (), s) := by
    simp [HTTPResponseStream.checkClient, h]
  rw [sendEvent, HTTPResponseStream.writeBodyChunk, Sys.bind_of_ok hcheck]
  rfl

/-- The body that the chunks make up. -/
def body (events : List HTTPSSEEvent) : Bytes := events.flatMap chunkOf

/-- The events are read back from the body. -/
def ReadBack (events : List HTTPSSEEvent) : Prop :=
  (parse (body events) { on_event_ := true }).1 = events

instance (events : List HTTPSSEEvent) : Decidable (ReadBack events) := inferInstanceAs (Decidable (_ = _))

def Plain (s : Bytes) : Prop := 10 ∉ s ∧ 13 ∉ s

instance (s : Bytes) : Decidable (Plain s) := inferInstanceAs (Decidable (_ ∧ _))

/-- Every event and every data field begins at an `int`, and the body is not as long as to come around. -/
def Fits : Nat → List HTTPSSEEvent → Prop
  | pos, [] => pos < 2^32
  | pos, event :: events =>
    pos < 2^31 ∧ (typeField event.name).length < 2^31 ∧ Fits (pos+(chunkOf event).length) events

instance Fits.decidable : (pos : Nat) → (events : List HTTPSSEEvent) → Decidable (Fits pos events)
  | pos, [] => inferInstanceAs (Decidable (pos < 2^32))
  | pos, event :: events =>
    have := Fits.decidable (pos+(chunkOf event).length) events
    inferInstanceAs (Decidable (_ ∧ _ ∧ _))

theorem chunkOf_eq (event : HTTPSSEEvent) :
    chunkOf event = typeField event.name ++ (lit "data: " ++ event.data) ++ [10] ++ [10] := by
  rw [chunkOf, eventBuf, show lit "\n\n" = [10] ++ [10] from rfl]
  simp only [List.append_assoc]

/- What the loops do with a line that has no line end in it. -/

section loops
variable {before line rest : Bytes}

theorem Plain.append {s t : Bytes} (hs : Plain s) (ht : Plain t) : Plain (s ++ t) := by
  constructor
  · intro hmem
    exact (List.mem_append.1 hmem).elim hs.1 ht.1
  · intro hmem
    exact (List.mem_append.1 hmem).elim hs.2 ht.2

theorem Plain.of_subset {s t : Bytes} (ht : Plain t) (h : s ⊆ t) : Plain s :=
  ⟨fun hmem => ht.1 (h hmem), fun hmem => ht.2 (h hmem)⟩

theorem Plain.cons {c : UInt8} {s : Bytes} (h : Plain (c :: s)) : c ≠ 10 ∧ c ≠ 13 ∧ Plain s := by
  refine ⟨?_, ?_, h.of_subset (List.subset_cons_self c s)⟩
  · rintro rfl
    exact h.1 List.mem_cons_self
  · rintro rfl
    exact h.2 List.mem_cons_self

theorem blockEnd_plain {ended : Bool} (hne : line ≠ []) (h : Plain line) :
    blockEnd ended (line ++ rest) = (blockEnd false rest).map (·+line.length) := by
  induction line generalizing ended with
  | nil => exact absurd rfl hne
  | cons c line ih =>
    obtain ⟨hlf, hcr, hline⟩ := h.cons
    rw [List.cons_append, blockEnd_char hlf hcr]
    by_cases hnil : line = []
    · subst hnil
      rfl
    · rw [ih hnil hline, Option.map_map]
      rfl

theorem parseEventLoop_plain (h : Plain line) {fuel : Nat} {begin : Int} {event : HTTPSSEEvent} :
    parseEventLoop (before ++ line ++ rest) (line.length+fuel) begin before.length event =
      parseEventLoop (before ++ line ++ rest) fuel begin (before ++ line).length event := by
  induction line generalizing before with
  | nil => simp
  | cons c line ih =>
    obtain ⟨hlf, hcr, hline⟩ := h.cons
    have hrest := @ih (before ++ [c]) hline
    simp only [List.append_assoc, List.cons_append, List.nil_append] at hrest ⊢
    rw [List.length_cons, Nat.add_right_comm, parseEventLoop_char hlf hcr, ← hrest]
    simp

theorem lineEnd_lf (rest : Bytes) : LineEnd [10] rest := .inl rfl

/-- A line is added if it begins at an `int`; behind that its beginning is negative, as a `size_t` behind
every position. -/
theorem addLine_guard {cur : Nat} {event : HTTPSSEEvent} (hcur : cur = (before ++ line).length)
    (hsize : cur < 2^32) :
    (if toInt before.length % 2^64 < cur then
      addLine event (slice (before ++ line ++ rest) (toInt before.length) cur) else event) =
      if before.length < 2^31 then addLine event line else event := by
  subst hcur
  have hlen : before.length ≤ (before ++ line).length := by simp
  by_cases hlt : before.length < 2^31
  · rw [if_pos hlt, toInt_of_lt hlt, slice_line]
    split
    · rfl
    next hno =>
      rw [List.length_append] at hno
      have hnil : line = [] := List.eq_nil_of_length_eq_zero (by omega)
      rw [hnil, addLine_nil]
  · have hneg : ¬toInt before.length % 2^64 < (((before ++ line).length : Nat) : Int) := by
      unfold toInt
      omega
    rw [if_neg hlt, if_neg hneg]

theorem parseEventLoop_line (h : Plain line) {fuel : Nat} {event : HTTPSSEEvent}
    (hsize : (before ++ line).length < 2^32) :
    parseEventLoop (before ++ line ++ ([10] ++ rest)) (line.length+(fuel+1)) (toInt before.length)
        before.length event =
      parseEventLoop (before ++ line ++ ([10] ++ rest)) fuel (toInt (before ++ line ++ [10]).length)
        (before ++ line ++ [10]).length
        (if before.length < 2^31 then addLine event line else event) := by
  rw [parseEventLoop_plain h, parseEventLoop_lineEnd (lineEnd_lf rest), addLine_guard rfl hsize,
    ← List.length_append]

end loops

/- The event of a chunk. -/

section events
variable {event : HTTPSSEEvent}

/-- The fields of an event have no line ends. -/
def PlainEvent (event : HTTPSSEEvent) : Prop :=
  Plain event.data ∧ ∀ event_type, event.name = some event_type → Plain event_type

theorem typeField_eq (event_type : Bytes) :
    typeField (some event_type) = [] ++ (lit "event: " ++ event_type) ++ [10] := rfl

theorem addLine_data (event : HTTPSSEEvent) (data : Bytes) :
    addLine event (lit "data: " ++ data) = { event with data := data } := by
  have hpre : kDataFieldPrefix.isPrefixOf (lit "data: " ++ data) = true :=
    List.isPrefixOf_iff_prefix.2 (List.prefix_append _ _)
  rw [addLine, if_pos hpre]
  rfl

theorem addLine_name (event : HTTPSSEEvent) (event_type : Bytes) :
    addLine event (lit "event: " ++ event_type) = { event with name := some event_type } := by
  have hpre : kNameFieldPrefix.isPrefixOf (lit "event: " ++ event_type) = true :=
    List.isPrefixOf_iff_prefix.2 (List.prefix_append _ _)
  have hno : ¬kDataFieldPrefix.isPrefixOf (lit "event: " ++ event_type) = true := by
    rw [List.isPrefixOf_iff_prefix]
    rintro ⟨r, hr⟩
    exact absurd (List.cons.inj hr).1 (by decide)
  rw [addLine, if_neg hno, if_pos hpre]
  rfl

theorem plain_data {data : Bytes} (h : Plain data) : Plain (lit "data: " ++ data) :=
  Plain.append (by decide) h

theorem plain_name {event_type : Bytes} (h : Plain event_type) : Plain (lit "event: " ++ event_type) :=
  Plain.append (by decide) h

/-- The type field of a chunk is read first. -/
theorem parseEventLoop_typeField (h : PlainEvent event) {rest : Bytes} {fuel : Nat}
    (hsize : (typeField event.name).length < 2^32) :
    parseEventLoop (typeField event.name ++ rest) ((typeField event.name).length+fuel) 0 0 {} =
      parseEventLoop (typeField event.name ++ rest) fuel (toInt (typeField event.name).length)
        (typeField event.name).length { name := event.name } := by
  cases hname : event.name with
  | none => exact congrArg (fun n => parseEventLoop _ n _ _ _) (Nat.zero_add fuel)
  | some event_type =>
    have hline := plain_name (h.2 event_type hname)
    rw [hname, typeField_eq, List.length_append] at hsize
    have hread := @parseEventLoop_line [] (lit "event: " ++ event_type) rest hline fuel {}
      (by rw [List.length_singleton] at hsize; omega)
    have hbegin : toInt ([] : Bytes).length = 0 := by decide
    rw [addLine_name, hbegin, if_pos (by decide)] at hread
    have hlen : ([] ++ (lit "event: " ++ event_type) ++ [10]).length+fuel =
        (lit "event: " ++ event_type).length+(fuel+1) := by
      rw [List.nil_append, List.length_append, List.length_singleton]
      omega
    rw [typeField_eq, hlen, List.append_assoc _ [10]]
    exact hread

theorem chunkOf_length (event : HTTPSSEEvent) : (chunkOf event).length =
    (typeField event.name).length+((lit "data: " ++ event.data).length+(1+1)) := by
  rw [chunkOf_eq]
  simp only [List.length_append, List.length_singleton]
  omega

/-- A chunk gives its event, if its data field begins at an `int`. -/
theorem parseEvent_chunkOf (h : PlainEvent event) (hdata : event.data ≠ [])
    (hsize : (chunkOf event).length < 2^32) :
    parseEvent true (chunkOf event) =
      if (typeField event.name).length < 2^31 then [event] else [] := by
  have hlen := chunkOf_length event
  have hloop : parseEventLoop (chunkOf event) (chunkOf event).length 0 0 {} =
      if (typeField event.name).length < 2^31 then event else { name := event.name } := by
    rw [hlen] at hsize
    have htype := @parseEventLoop_typeField event h ((lit "data: " ++ event.data) ++ ([10] ++ [10]))
      ((lit "data: " ++ event.data).length+(1+1)) (by omega)
    have hfield := @parseEventLoop_line (typeField event.name) (lit "data: " ++ event.data) [10]
      (plain_data h.1) 1 { name := event.name } (by rw [List.length_append]; omega)
    have hblank := @parseEventLoop_line (typeField event.name ++ (lit "data: " ++ event.data) ++ [10])
      [] [] (by decide) 0
      (if (typeField event.name).length < 2^31 then
        addLine { name := event.name } (lit "data: " ++ event.data) else { name := event.name })
      (by simp only [List.length_append, List.length_singleton, List.length_nil] at hsize ⊢; omega)
    rw [addLine_nil, ite_self, addLine_data] at hblank
    rw [addLine_data] at hfield
    have hchunk : chunkOf event =
        typeField event.name ++ ((lit "data: " ++ event.data) ++ ([10] ++ [10])) := by
      rw [chunkOf_eq]
      simp only [List.append_assoc]
    rw [hlen, hchunk, htype]
    rw [← List.append_assoc (typeField event.name), hfield]
    simp only [List.append_assoc, List.append_nil, List.length_nil] at hblank ⊢
    exact hblank
  rw [parseEvent, hloop]
  split
  · exact if_pos ⟨hdata, rfl⟩
  · rfl

theorem blockEnd_chunkOf (h : PlainEvent event) (more : Bytes) :
    blockEnd false (chunkOf event ++ more) = some (chunkOf event).length := by
  have hline := plain_data h.1
  have hne : lit "data: " ++ event.data ≠ [] := List.append_ne_nil_of_left_ne_nil (by decide) _
  have htail : ∀ ended, blockEnd ended ((lit "data: " ++ event.data) ++ ([10] ++ ([10] ++ more))) =
      some ((lit "data: " ++ event.data).length+(1+1)) := by
    intro ended
    rw [blockEnd_plain hne hline, blockEnd_lineEnd (lineEnd_lf _), blockEnd_lineEnd (lineEnd_lf _)]
    exact congrArg some (Nat.add_comm _ _)
  rw [chunkOf_length]
  cases hname : event.name with
  | none =>
    have hchunk : chunkOf event ++ more =
        (lit "data: " ++ event.data) ++ ([10] ++ ([10] ++ more)) := by
      rw [chunkOf_eq, hname]
      simp [typeField]
    rw [hchunk, htail]
    exact congrArg some (Nat.zero_add _).symm
  | some event_type =>
    have hname' := plain_name (h.2 event_type hname)
    have hne' : lit "event: " ++ event_type ≠ [] := List.append_ne_nil_of_left_ne_nil (by decide) _
    have hchunk : chunkOf event ++ more = (lit "event: " ++ event_type) ++
        ([10] ++ ((lit "data: " ++ event.data) ++ ([10] ++ ([10] ++ more)))) := by
      rw [chunkOf_eq, hname, typeField_eq]
      simp only [List.append_assoc, List.nil_append]
    rw [hchunk, blockEnd_plain hne' hname', blockEnd_lineEnd (lineEnd_lf _), htail]
    refine congrArg some ?_
    rw [typeField_eq]
    simp only [List.nil_append, List.length_append, List.length_singleton]
    omega

end events

/- The loop over the chunks. -/

/-- The events that are read of chunks from `pos` on. -/
def readFrom : Nat → List HTTPSSEEvent → List HTTPSSEEvent
  | _, [] => []
  | pos, event :: events =>
    if pos < 2^31 then parseEvent true (chunkOf event) ++ readFrom (pos+(chunkOf event).length) events
    else []

theorem parseLoop_body {events : List HTTPSSEEvent} (h : ∀ e ∈ events, PlainEvent e) (before : Bytes)
    {fuel : Nat} {acc : List HTTPSSEEvent} (hsize : (before ++ body events).length < 2^32)
    (hfuel : events.length < fuel) :
    (parseLoop true (before ++ body events) fuel (toInt before.length) before.length acc).2 =
      acc ++ readFrom before.length events := by
  induction events generalizing before fuel acc with
  | nil =>
    obtain ⟨fuel, rfl⟩ : ∃ f, fuel = f+1 := ⟨fuel-1, by omega⟩
    have hlen : (before ++ body []).length = before.length := by simp [body]
    have hno : ¬toInt before.length % 2^64 < (((before ++ body []).length : Nat) : Int) := by
      rw [hlen] at hsize ⊢
      unfold toInt
      omega
    rw [parseLoop, if_neg hno, readFrom, List.append_nil]
  | cons event events ih =>
    obtain ⟨fuel, rfl⟩ : ∃ f, fuel = f+1 := ⟨fuel-1, by omega⟩
    obtain ⟨hevent, hevents⟩ := List.forall_mem_cons.1 h
    have hbody : body (event :: events) = chunkOf event ++ body events := List.flatMap_cons
    have hlen := chunkOf_length event
    rw [hbody] at hsize ⊢
    have hsum : (before ++ (chunkOf event ++ body events)).length =
        before.length+((chunkOf event).length+(body events).length) := by
      rw [List.length_append, List.length_append]
    rw [readFrom, parseLoop]
    by_cases hlt : before.length < 2^31
    · have hguard : toInt before.length % 2^64 <
          (((before ++ (chunkOf event ++ body events)).length : Nat) : Int) := by
        rw [hsum, toInt_of_lt hlt]
        omega
      have hscan : scanLoop (before ++ (chunkOf event ++ body events))
          (before ++ (chunkOf event ++ body events)).length 0 before.length =
            (2, before.length+(chunkOf event).length) :=
        (@scanLoop_eq _ before false _ (by rw [hsum, List.length_append]; omega)).1 _
          (blockEnd_chunkOf hevent _)
      have hslice : slice (before ++ (chunkOf event ++ body events)) before.length
          (before.length+(chunkOf event).length) = chunkOf event := by
        simp [slice]
      have hrest := @ih hevents (before ++ chunkOf event) fuel (acc ++ parseEvent true (chunkOf event))
        (by rw [List.append_assoc]; exact hsize) (by rw [List.length_cons] at hfuel; omega)
      rw [List.append_assoc, List.append_assoc, List.length_append] at hrest
      rw [if_pos hlt, if_pos hguard, hscan]
      simp only
      rw [toInt_of_lt hlt, hslice, hrest]
    · have hno : ¬toInt before.length % 2^64 <
          (((before ++ (chunkOf event ++ body events)).length : Nat) : Int) := by
        rw [hsum] at hsize ⊢
        unfold toInt
        omega
      rw [if_neg hlt, if_neg hno, List.append_nil]

theorem length_parseEvent_le (on_event_ : Bool) (data : Bytes) :
    (parseEvent on_event_ data).length ≤ 1 := by
  rw [parseEvent]
  split
  · exact Nat.le_refl 1
  · exact Nat.zero_le 1

theorem length_readFrom_le (pos : Nat) (events : List HTTPSSEEvent) :
    (readFrom pos events).length ≤ events.length := by
  induction events generalizing pos with
  | nil => exact Nat.zero_le _
  | cons event events ih =>
    have hone := length_parseEvent_le true (chunkOf event)
    have hrest := ih (pos+(chunkOf event).length)
    rw [readFrom, List.length_cons]
    split
    · rw [List.length_append]
      omega
    · exact Nat.zero_le _

theorem length_le_body (events : List HTTPSSEEvent) : events.length ≤ (body events).length := by
  induction events with
  | nil => exact Nat.le_refl 0
  | cons event events ih =>
    have hlen := chunkOf_length event
    rw [body, List.flatMap_cons, List.length_append, List.length_cons]
    rw [body] at ih
    omega

theorem Fits.length_lt {pos : Nat} {events : List HTTPSSEEvent} (h : Fits pos events) :
    pos+(body events).length < 2^32 := by
  induction events generalizing pos with
  | nil => exact h
  | cons event events ih =>
    have hrest := ih h.2.2
    rw [body, List.flatMap_cons, List.length_append]
    rw [body] at hrest
    omega

/-- The chunks are read as their events exactly if they fit. -/
theorem readFrom_eq_iff {events : List HTTPSSEEvent} (h : ∀ e ∈ events, PlainEvent e)
    (hdata : ∀ e ∈ events, e.data ≠ []) {pos : Nat} (hsize : pos+(body events).length < 2^32) :
    readFrom pos events = events ↔ Fits pos events := by
  induction events generalizing pos with
  | nil => exact iff_of_true rfl hsize
  | cons event events ih =>
    obtain ⟨hevent, hevents⟩ := List.forall_mem_cons.1 h
    obtain ⟨hne, hnes⟩ := List.forall_mem_cons.1 hdata
    have hlen := length_readFrom_le (pos+(chunkOf event).length) events
    rw [body, List.flatMap_cons, List.length_append, ← body] at hsize
    have hrest := @ih hevents hnes (pos+(chunkOf event).length) (by omega)
    rw [readFrom, Fits, parseEvent_chunkOf hevent hne (by omega)]
    by_cases hpos : pos < 2^31
    · by_cases hshort : (typeField event.name).length < 2^31
      · rw [if_pos hpos, if_pos hshort, List.singleton_append, List.cons.injEq, hrest]
        simp only [hpos, hshort, true_and]
      · rw [if_pos hpos, if_neg hshort, List.nil_append]
        refine iff_of_false (fun heq => ?_) fun hfits => hshort hfits.2.1
        have hcount := congrArg List.length heq
        rw [List.length_cons] at hcount
        omega
    · rw [if_neg hpos]
      exact iff_of_false (fun heq => by cases heq) fun hfits => hpos hfits.1

/- What is read has no line ends. -/

theorem plain_addLine {event : HTTPSSEEvent} {line : Bytes} (hevent : Plain event.data)
    (hline : Plain line) : Plain (addLine event line).data := by
  rw [addLine]
  split
  · exact hline.of_subset (List.drop_subset _ _)
  · split
    · exact hevent
    · exact hevent

theorem plain_parseEventLoop (s before line : Bytes) {fuel : Nat} {event : HTTPSSEEvent}
    (hline : Plain line) (hevent : Plain event.data) (hsize : (before ++ line ++ s).length < 2^32) :
    Plain (parseEventLoop (before ++ line ++ s) fuel (toInt before.length) (before ++ line).length
      event).data := by
  induction s using text_induction generalizing before line fuel event with
  | nil =>
    cases fuel with
    | zero => exact hevent
    | succ fuel =>
      rw [parseEventLoop, if_neg (by simp)]
      exact hevent
  | lineEnd le rest hle ih =>
    cases fuel with
    | zero => exact hevent
    | succ fuel =>
      have hcur : (before ++ line).length < 2^32 := by
        rw [List.length_append] at hsize
        omega
      rw [parseEventLoop_lineEnd hle, addLine_guard rfl hcur, ← List.length_append]
      have hadd : Plain (if before.length < 2^31 then addLine event line else event).data := by
        split
        · exact plain_addLine hevent hline
        · exact hevent
      have hrest := @ih (before ++ line ++ le) [] fuel _ (by decide) hadd (by simpa using hsize)
      rw [List.append_nil, List.append_assoc _ le rest] at hrest
      exact hrest
  | char c rest hlf hcr ih =>
    cases fuel with
    | zero => exact hevent
    | succ fuel =>
      have hmore : Plain (line ++ [c]) := by
        refine hline.append ⟨?_, ?_⟩
        · intro hmem
          exact hlf (List.mem_singleton.1 hmem).symm
        · intro hmem
          exact hcr (List.mem_singleton.1 hmem).symm
      rw [parseEventLoop_char hlf hcr]
      have hrest := @ih before (line ++ [c]) fuel event hmore hevent (by simpa using hsize)
      rw [← List.append_assoc, List.append_assoc _ [c], List.length_append] at hrest
      exact hrest

theorem plain_of_mem_parseEvent {on_event_ : Bool} {data : Bytes} (hsize : data.length < 2^32) :
    ∀ e ∈ parseEvent on_event_ data, Plain e.data := by
  have hplain : Plain (parseEventLoop data data.length 0 0 {}).data :=
    plain_parseEventLoop data [] [] (by decide) (by decide) hsize
  intro e he
  rw [parseEvent] at he
  split at he
  · rw [List.mem_singleton.1 he]
    exact hplain
  · cases he

theorem plain_of_mem_parseLoop {on_event_ : Bool} {buf : Bytes} (hsize : buf.length < 2^32)
    {fuel : Nat} {begin : Int} {cur : Nat} {acc : List HTTPSSEEvent} (h : ∀ e ∈ acc, Plain e.data) :
    ∀ e ∈ (parseLoop on_event_ buf fuel begin cur acc).2, Plain e.data := by
  induction fuel generalizing begin cur acc with
  | zero => exact h
  | succ fuel ih =>
    rw [parseLoop]
    split
    · split
      next cur' _ =>
        have hslice : (slice buf begin cur').length < 2^32 := by
          rw [slice, List.length_take, List.length_drop]
          omega
        refine ih fun e he => ?_
        obtain he | he := List.mem_append.1 he
        · exact h e he
        · exact plain_of_mem_parseEvent hslice e he
      · exact h
    · exact h

/-- Events are read back if their data has no line ends and their beginnings are `int`s, and, as far as
positions are below 2^32, only then. -/
theorem read_back_iff {events : List HTTPSSEEvent} (hdata : ∀ e ∈ events, e.data ≠ [])
    (htype : ∀ e ∈ events, ∀ event_type, e.name = some event_type → Plain event_type) :
    ((∀ e ∈ events, Plain e.data) ∧ Fits 0 events → ReadBack events) ∧
      ((body events).length < 2^32 → ReadBack events →
        (∀ e ∈ events, Plain e.data) ∧ Fits 0 events) := by
  have hread : (∀ e ∈ events, Plain e.data) → (body events).length < 2^32 →
      (ReadBack events ↔ Fits 0 events) := by
    intro hplain hsize
    have hevents : ∀ e ∈ events, PlainEvent e := fun e he => ⟨hplain e he, htype e he⟩
    have hcount := Nat.lt_succ_of_le (length_le_body events)
    have hloop := @parseLoop_body events hevents [] ((body events).length+1) [] hsize hcount
    rw [ReadBack, ← readFrom_eq_iff hevents hdata (by rw [Nat.zero_add]; exact hsize)]
    exact Eq.congr hloop rfl
  constructor
  · rintro ⟨hplain, hfits⟩
    have hsize := hfits.length_lt
    rw [Nat.zero_add] at hsize
    exact (hread hplain hsize).2 hfits
  · intro hsize hback
    have hemitted : ∀ e ∈ (parseLoop true (body events) ((body events).length+1) 0 0 []).2,
        Plain e.data := plain_of_mem_parseLoop hsize (List.forall_mem_nil _)
    have heq : (parseLoop true (body events) ((body events).length+1) 0 0 []).2 = events := hback
    rw [heq] at hemitted
    exact ⟨hemitted, (hread hemitted hsize).1 hback⟩

theorem read_back_two : ReadBack [{ data := lit "data: x", name := some [] }, { data := lit " " }] :=
  (read_back_iff (by decide) (by simp [Plain])).1 (by decide)

/-- The second line of the data is no field, and is left out. -/
theorem line_break_lost : ¬∀ events : List HTTPSSEEvent, (∀ e ∈ events, e.data ≠ []) →
    (∀ e ∈ events, ∀ event_type, e.name = some event_type → Plain event_type) →
      ReadBack events := by
  intro h
  have hback := h [{ data := lit "a\nb" }] (by decide) (by simp)
  revert hback
  decide +kernel

end Stx.Http.HTTPSSEStream
