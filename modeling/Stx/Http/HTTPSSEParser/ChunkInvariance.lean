import Stx.Http.HTTPSSEParser.Blocks

/-! The loops of the parser find the blocks and their lines, as long as positions are `int`s, and the
events of a stream do not depend on where it is cut. -/
namespace Stx.Http.HTTPSSEParser
open StringUtil

/- The character at a position. -/

theorem charAt_length (before : Bytes) (c : UInt8) (rest : Bytes) :
    charAt (before ++ c :: rest) before.length = c := by
  simp [charAt]

theorem charAt_length_succ (before : Bytes) (c d : UInt8) (rest : Bytes) :
    charAt (before ++ c :: d :: rest) (before.length+1) = d := by
  have h := charAt_length (before ++ [c]) d rest
  rwa [List.append_assoc, List.length_append] at h

section loops
variable {before le rest : Bytes} {c : UInt8}

/-- The position that a line end leads to. -/
def nextCur (buf : Bytes) (cur : Nat) : Nat :=
  if cur+1 < buf.length ∧ charAt buf (cur+1) = 10 then cur+1 else cur

theorem charAt_lineEnd (before : Bytes) (hle : LineEnd le rest) :
    charAt (before ++ (le ++ rest)) before.length = 10 ∧ le.length = 1 ∨
      charAt (before ++ (le ++ rest)) before.length = 13 ∧
        nextCur (before ++ (le ++ rest)) before.length+1 = before.length+le.length := by
  obtain rfl | rfl | ⟨rfl, hhead⟩ := hle
  · exact .inl ⟨charAt_length _ _ _, rfl⟩
  · refine .inr ⟨charAt_length _ _ _, ?_⟩
    rw [nextCur, if_pos ⟨by simp, charAt_length_succ _ _ _ _⟩]
    rfl
  · refine .inr ⟨charAt_length _ _ _, ?_⟩
    rw [nextCur, if_neg]
    · rfl
    · rintro ⟨hlt, h10⟩
      cases rest with
      | nil => simp at hlt
      | cons d rest =>
        have hd : d = 10 := (charAt_length_succ before 13 d rest).symm.trans h10
        exact hhead (by rw [hd]; rfl)

theorem lt_length_cons : before.length < (before ++ c :: rest).length := by
  simp

theorem lt_length_of_pos {s : Bytes} (h : 0 < s.length) : before.length < (before ++ s).length := by
  rw [List.length_append]
  omega

/- The loop over a block. -/

/-- How the loop counts line ends. -/
def stateOf (ended : Bool) : Nat := if ended then 1 else 0

theorem stateOf_lt (ended : Bool) : stateOf ended < 2 := by
  cases ended <;> decide

theorem scanLoop_two (buf : Bytes) (fuel cur : Nat) : scanLoop buf fuel 2 cur = (2, cur) := by
  cases fuel <;> rfl

theorem scanLoop_lineEnd {ended : Bool} {fuel : Nat} (hle : LineEnd le rest) :
    scanLoop (before ++ (le ++ rest)) (fuel+1) (stateOf ended) before.length =
      scanLoop (before ++ (le ++ rest)) fuel (stateOf ended+1) (before.length+le.length) := by
  have hpos : 0 < (le ++ rest).length := by
    have hle := hle.length_pos
    rw [List.length_append]
    omega
  rw [scanLoop, if_pos ⟨stateOf_lt ended, lt_length_of_pos hpos⟩]
  obtain ⟨h10, hlen⟩ | ⟨h13, hnext⟩ := charAt_lineEnd before hle
  · rw [if_pos h10, hlen]
  · rw [if_neg (by rw [h13]; decide), if_pos h13, ← hnext]
    rfl

theorem scanLoop_char {ended : Bool} {fuel : Nat} (hlf : c ≠ 10) (hcr : c ≠ 13) :
    scanLoop (before ++ c :: rest) (fuel+1) (stateOf ended) before.length =
      scanLoop (before ++ c :: rest) fuel (stateOf false) (before.length+1) := by
  rw [scanLoop, if_pos ⟨stateOf_lt ended, lt_length_cons⟩, charAt_length,
    if_neg hlf, if_neg hcr]
  rfl

/-- The loop stops behind the block, or at the end of the buffer in another state. -/
theorem scanLoop_eq (s before : Bytes) {ended : Bool} {fuel : Nat} (hfuel : s.length ≤ fuel) :
    (∀ n, blockEnd ended s = some n →
      scanLoop (before ++ s) fuel (stateOf ended) before.length = (2, before.length+n)) ∧
    (blockEnd ended s = none →
      (scanLoop (before ++ s) fuel (stateOf ended) before.length).1 ≠ 2) := by
  induction s using text_induction generalizing before ended fuel with
  | nil =>
    refine ⟨fun _ h => by (cases h), fun _ => ?_⟩
    have hstop : scanLoop (before ++ []) fuel (stateOf ended) before.length =
        (stateOf ended, before.length) := by
      cases fuel with
      | zero => rfl
      | succ fuel =>
        rw [scanLoop, if_neg]
        rintro ⟨-, hlt⟩
        rw [List.append_nil] at hlt
        exact Nat.lt_irrefl _ hlt
    rw [hstop]
    exact Nat.ne_of_lt (stateOf_lt ended)
  | lineEnd le rest hle ih =>
    have hpos := hle.length_pos
    rw [List.length_append] at hfuel
    obtain ⟨fuel, rfl⟩ : ∃ f, fuel = f+1 := ⟨fuel-1, by omega⟩
    rw [blockEnd_lineEnd hle, scanLoop_lineEnd hle]
    cases ended with
    | true =>
      refine ⟨fun n h => ?_, fun h => by cases h⟩
      obtain rfl := Option.some.inj h
      exact scanLoop_two _ _ _
    | false =>
      have hrest := @ih (before ++ le) true fuel (by omega)
      rw [List.append_assoc, List.length_append] at hrest
      refine ⟨fun n h => ?_, fun h => hrest.2 (Option.map_eq_none_iff.1 h)⟩
      obtain ⟨m, hm, rfl⟩ := Option.map_eq_some_iff.1 h
      have hrun := hrest.1 m hm
      rw [show before.length + (m+le.length) = before.length + le.length + m by omega]
      exact hrun
  | char c rest hlf hcr ih =>
    rw [List.length_cons] at hfuel
    obtain ⟨fuel, rfl⟩ : ∃ f, fuel = f+1 := ⟨fuel-1, by omega⟩
    rw [blockEnd_char hlf hcr, scanLoop_char hlf hcr]
    have hrest := @ih (before ++ [c]) false fuel (by omega)
    rw [List.append_assoc, List.length_append] at hrest
    refine ⟨fun n h => ?_, fun h => hrest.2 (Option.map_eq_none_iff.1 h)⟩
    obtain ⟨m, hm, rfl⟩ := Option.map_eq_some_iff.1 h
    have hrun := hrest.1 m hm
    rw [show before.length + (m+1) = before.length + 1 + m by omega]
    exact hrun

/- The loop over the lines of a block. -/

/-- The event of a block. -/
def eventOf (block : Bytes) : HTTPSSEEvent := (lines [] block).foldl addLine {}

theorem slice_line (before line rest : Bytes) :
    slice (before ++ line ++ rest) before.length (before ++ line).length = line := by
  simp [slice]

theorem addLine_nil (event : HTTPSSEEvent) : addLine event [] = event := rfl

theorem parseEventLoop_lineEnd {fuel : Nat} {begin : Int} {event : HTTPSSEEvent}
    (hle : LineEnd le rest) :
    parseEventLoop (before ++ (le ++ rest)) (fuel+1) begin before.length event =
      parseEventLoop (before ++ (le ++ rest)) fuel (toInt (before.length+le.length : Nat))
        (before.length+le.length)
        (if begin % 2^64 < before.length then
          addLine event (slice (before ++ (le ++ rest)) begin before.length) else event) := by
  have hpos : 0 < (le ++ rest).length := by
    have hle := hle.length_pos
    rw [List.length_append]
    omega
  rw [parseEventLoop, if_pos (lt_length_of_pos hpos)]
  obtain ⟨h10, hlen⟩ | ⟨h13, hnext⟩ := charAt_lineEnd before hle
  · have hno : ¬(before.length+1 < (before ++ (le ++ rest)).length ∧
        charAt (before ++ (le ++ rest)) before.length = 13 ∧
        charAt (before ++ (le ++ rest)) (before.length+1) = 10) := by
      rintro ⟨-, h13, -⟩
      rw [h10] at h13
      exact absurd h13 (by decide)
    rw [if_pos (.inr h10)]
    simp only [if_neg hno, hlen]
  · rw [nextCur] at hnext
    rw [if_pos (.inl h13)]
    simp only [h13, true_and, hnext]

theorem parseEventLoop_char {fuel : Nat} {begin : Int} {event : HTTPSSEEvent} (hlf : c ≠ 10)
    (hcr : c ≠ 13) :
    parseEventLoop (before ++ c :: rest) (fuel+1) begin before.length event =
      parseEventLoop (before ++ c :: rest) fuel begin (before.length+1) event := by
  rw [parseEventLoop, if_pos (lt_length_cons), charAt_length,
    if_neg (not_or.2 ⟨hcr, hlf⟩)]

/-- The loop goes over the lines of the block. -/
theorem parseEventLoop_eq (s before line : Bytes) {fuel : Nat} {event : HTTPSSEEvent}
    (hsize : (before ++ line ++ s).length < 2^31) (hfuel : s.length ≤ fuel) :
    parseEventLoop (before ++ line ++ s) fuel before.length (before ++ line).length event =
      (lines line s).foldl addLine event := by
  induction s using text_induction generalizing before line fuel event with
  | nil =>
    cases fuel with
    | zero => rfl
    | succ fuel =>
      rw [parseEventLoop, if_neg (by simp)]
      rfl
  | lineEnd le rest hle ih =>
    have hpos := hle.length_pos
    rw [List.length_append] at hfuel
    obtain ⟨fuel, rfl⟩ : ∃ f, fuel = f+1 := ⟨fuel-1, by omega⟩
    have hint : (before ++ line ++ le).length < 2^31 := by
      simp only [List.length_append] at hsize ⊢
      omega
    -- an empty line is no field
    have hadd : (if ((before.length : Nat) : Int) % 2^64 < (((before ++ line).length : Nat) : Int)
        then addLine event line else event) = addLine event line := by
      simp only [List.length_append] at hsize ⊢
      split
      · rfl
      next hno =>
        have hnil : line = [] := List.eq_nil_of_length_eq_zero (by omega)
        rw [hnil, addLine_nil]
    have hrest := @ih (before ++ line ++ le) [] fuel (addLine event line)
      (by simpa using hsize) (by omega)
    rw [List.append_nil, List.append_assoc _ le rest] at hrest
    rw [parseEventLoop_lineEnd hle, slice_line, hadd, lines_lineEnd hle, List.foldl_cons,
      ← List.length_append, toInt_of_lt hint, hrest]
  | char c rest hlf hcr ih =>
    rw [List.length_cons] at hfuel
    obtain ⟨fuel, rfl⟩ : ∃ f, fuel = f+1 := ⟨fuel-1, by omega⟩
    have hrest := @ih before (line ++ [c]) fuel event (by simpa using hsize) (by omega)
    rw [← List.append_assoc, List.append_assoc _ [c], List.length_append] at hrest
    rw [parseEventLoop_char hlf hcr, lines_char hlf hcr, ← hrest]
    rfl

theorem parseEvent_eq (on_event_ : Bool) {block : Bytes} (hsize : block.length < 2^31) :
    parseEvent on_event_ block =
      if (eventOf block).data ≠ [] ∧ on_event_ then [eventOf block] else [] := by
  have hloop : parseEventLoop block block.length 0 0 {} = eventOf block :=
    parseEventLoop_eq block [] [] hsize (Nat.le_refl block.length)
  rw [parseEvent, hloop]

/- The loop over the blocks. -/

theorem parseLoop_eq (on_event_ : Bool) (s before : Bytes) {fuel : Nat} {events : List HTTPSSEEvent}
    (hsize : (before ++ s).length < 2^31) (hfuel : s.length < fuel) :
    parseLoop on_event_ (before ++ s) fuel before.length before.length events =
      ((((before ++ (split s).1.flatten).length : Nat) : Int),
        events ++ (split s).1.flatMap (parseEvent on_event_)) := by
  induction s using split_induction generalizing before fuel events with
  | stop s hend =>
    obtain ⟨fuel, rfl⟩ : ∃ f, fuel = f+1 := ⟨fuel-1, by omega⟩
    have hscan := (@scanLoop_eq s before false (before ++ s).length (by simp)).2 hend
    rw [split_none hend, parseLoop]
    simp only [List.flatten_nil, List.flatMap_nil, List.append_nil]
    split
    · split
      next heq => exact absurd (congrArg Prod.fst heq) hscan
      next => rfl
    · rfl
  | block s n hend ih =>
    have hrange := blockEnd_range hend
    obtain ⟨fuel, rfl⟩ : ∃ f, fuel = f+1 := ⟨fuel-1, by omega⟩
    have hscan : scanLoop (before ++ s) (before ++ s).length 0 before.length =
        (2, before.length+n) :=
      (@scanLoop_eq s before false (before ++ s).length (by simp)).1 n hend
    rw [List.length_append] at hsize
    have hlt : ((before.length : Nat) : Int) % 2^64 < (((before ++ s).length : Nat) : Int) := by
      rw [List.length_append]
      omega
    have hlen : (before ++ s.take n).length = before.length+n := by
      rw [List.length_append, List.length_take, Nat.min_eq_left hrange.2]
    have hslice : slice (before ++ s) before.length (before.length+n) = s.take n := by
      simp [slice]
    have hrest := @ih (before ++ s.take n) fuel (events ++ parseEvent on_event_ (s.take n))
      (by rw [List.append_assoc, List.take_append_drop, List.length_append]; exact hsize)
      (by rw [List.length_drop]; omega)
    rw [List.append_assoc, List.take_append_drop, hlen] at hrest
    rw [split_some hend, parseLoop, if_pos hlt, hscan]
    simp only
    rw [toInt_of_lt (by omega), hslice, hrest]
    simp only [List.flatten_cons, List.flatMap_cons, List.append_assoc]

/-- The events of a text, which are those of its blocks. -/
def eventsOf (on_event_ : Bool) (s : Bytes) : List HTTPSSEEvent :=
  (split s).1.flatMap (parseEvent on_event_)

theorem parse_eq {data : Bytes} {p : HTTPSSEParser} (hsize : (p.buf_ ++ data).length < 2^31) :
    parse data p = (eventsOf p.on_event_ (p.buf_ ++ data),
      { p with buf_ := (split (p.buf_ ++ data)).2 }) := by
  have hloop : parseLoop p.on_event_ (p.buf_ ++ data) ((p.buf_ ++ data).length+1) 0 0 [] =
      ((((split (p.buf_ ++ data)).1.flatten.length : Nat) : Int),
        eventsOf p.on_event_ (p.buf_ ++ data)) :=
    parseLoop_eq p.on_event_ (p.buf_ ++ data) [] hsize (Nat.lt_succ_self _)
  have hsplit := (split_spec (p.buf_ ++ data)).1
  rw [parse]
  simp only [hloop]
  generalize (split (p.buf_ ++ data)).1.flatten = blocks at *
  generalize (split (p.buf_ ++ data)).2 = rest at *
  congr 2
  split
  · rw [Int.toNat_natCast, ← hsplit, List.drop_left]
  next hzero =>
    have hnil : blocks = [] := List.eq_nil_of_length_eq_zero (by omega)
    rw [← hsplit, hnil, List.nil_append]

end loops

/- A line end in front of a text makes no difference to its events. -/

section cuts
variable {on_event_ : Bool}

theorem eventsOf_none {s : Bytes} (h : blockEnd false s = none) : eventsOf on_event_ s = [] := by
  rw [eventsOf, split_none h]
  rfl

theorem eventsOf_some {s : Bytes} {n : Nat} (h : blockEnd false s = some n) :
    eventsOf on_event_ s = parseEvent on_event_ (s.take n) ++ eventsOf on_event_ (s.drop n) := by
  rw [eventsOf, split_some h, List.flatMap_cons]
  rfl

theorem parseEvent_lineEnd {le block : Bytes} (hle : LineEnd le block)
    (hsize : (le ++ block).length < 2^31) :
    parseEvent on_event_ (le ++ block) = parseEvent on_event_ block := by
  have hevent : eventOf (le ++ block) = eventOf block := by
    rw [eventOf, lines_lineEnd hle, List.foldl_cons, addLine_nil]
    rfl
  rw [List.length_append] at hsize
  rw [parseEvent_eq _ (by rw [List.length_append]; exact hsize), parseEvent_eq _ (by omega), hevent]

theorem eventsOf_lineEnd {le rest : Bytes} (hle : LineEnd le rest)
    (hsize : (le ++ rest).length < 2^31) :
    eventsOf on_event_ (le ++ rest) = eventsOf on_event_ rest := by
  induction rest using text_induction generalizing le with
  | nil =>
    have hend := blockEnd_lineEnd hle false
    rw [eventsOf_none hend, eventsOf_none rfl]
  | lineEnd le' rest hle' ih =>
    -- the two line ends are a block without an event
    have hend := blockEnd_lineEnd hle false
    rw [blockEnd_lineEnd hle'] at hend
    have hshort : LineEnd le le' := by
      refine hle.before fun heq => ?_
      rw [List.head?_append, heq]
      rfl
    have hblock : (le ++ (le' ++ rest)).take (le'.length+le.length) = le ++ le' := by
      rw [← List.append_assoc, Nat.add_comm, ← List.length_append, List.take_left]
    have hdrop : (le ++ (le' ++ rest)).drop (le'.length+le.length) = rest := by
      rw [← List.append_assoc, Nat.add_comm, ← List.length_append, List.drop_left]
    simp only [List.length_append] at hsize
    have hnone : parseEvent on_event_ le' = [] := by
      obtain rfl | rfl | ⟨rfl, -⟩ := hle' <;> rfl
    rw [eventsOf_some hend, hblock, hdrop,
      parseEvent_lineEnd hshort (by rw [List.length_append]; omega), hnone, List.nil_append,
      ih hle' (by rw [List.length_append]; omega)]
  | char c rest hlf hcr ih =>
    have hend := blockEnd_lineEnd hle false
    rw [blockEnd_char hlf hcr, ← blockEnd_char hlf hcr rest false] at hend
    cases hrest : blockEnd false (c :: rest) with
    | none =>
      rw [hrest] at hend
      rw [eventsOf_none hend, eventsOf_none hrest]
    | some n =>
      have hend' : blockEnd false (le ++ c :: rest) = some (n+le.length) := by
        rw [hend, hrest]
        rfl
      have hrange := blockEnd_range hrest
      have hshort : LineEnd le ((c :: rest).take n) := hle.take (by omega)
      have hsize' : (le ++ (c :: rest).take n).length < 2^31 := by
        rw [List.length_append] at hsize ⊢
        have hle := List.length_take_le n (c :: rest)
        omega
      rw [eventsOf_some hend', eventsOf_some hrest, Nat.add_comm, List.take_length_add_append,
        List.drop_length_add_append, parseEvent_lineEnd hshort hsize']

/-- A line feed behind the carriage return that ends a block makes no difference to its event. -/
theorem lines_append_lf (before line : Bytes) :
    lines line (before ++ [13, 10]) = lines line (before ++ [13]) := by
  induction before using text_induction generalizing line with
  | nil => rfl
  | lineEnd le rest hle ih =>
    have hcr : le = [13] → rest = [] → ([13] : Bytes).head? ≠ some 10 := fun _ _ => by decide
    have hcrlf : le = [13] → rest = [] → ([13, 10] : Bytes).head? ≠ some 10 := fun _ _ => by decide
    rw [List.append_assoc, List.append_assoc, lines_lineEnd (hle.append _ hcr),
      lines_lineEnd (hle.append _ hcrlf), ih]
  | char c rest hlf hcr ih =>
    rw [List.cons_append, List.cons_append, lines_char hlf hcr, lines_char hlf hcr, ih]

theorem parseEvent_append_lf {before : Bytes} (hsize : (before ++ [13, 10]).length < 2^31) :
    parseEvent on_event_ (before ++ [13, 10]) = parseEvent on_event_ (before ++ [13]) := by
  have hevent : eventOf (before ++ [13, 10]) = eventOf (before ++ [13]) := by
    rw [eventOf, eventOf, lines_append_lf]
  have hshort : (before ++ [13]).length < 2^31 := by
    simp only [List.length_append, List.length_cons, List.length_nil] at hsize ⊢
    omega
  rw [parseEvent_eq _ hsize, parseEvent_eq _ hshort, hevent]

/-- The events of a text are those of a first part and those of what it leaves with the second. -/
theorem eventsOf_append (s more : Bytes) (hsize : (s ++ more).length < 2^31) :
    eventsOf on_event_ (s ++ more) =
      eventsOf on_event_ s ++ eventsOf on_event_ ((split s).2 ++ more) := by
  induction s using split_induction with
  | stop s hend => rw [eventsOf_none hend, split_none hend, List.nil_append]
  | block s n hend ih =>
    have hrange := blockEnd_range hend
    rw [split_some hend, eventsOf_some hend, List.append_assoc]
    obtain hsame | ⟨hn, ⟨before, hbefore⟩, more', hmore, hnext⟩ := blockEnd_append more hend
    · rw [← ih (by simp only [List.length_append, List.length_drop] at hsize ⊢; omega),
        eventsOf_some hsame, List.take_append_of_le_length hrange.2,
        List.drop_append_of_le_length hrange.2]
    · -- the line feed goes with the block in one case, and is a line end of its own in the other
      have htake : (s ++ more).take (n+1) = s ++ [10] := by
        rw [hmore, hn, List.take_length_add_append]
        rfl
      have hdrop : (s ++ more).drop (n+1) = more' := by
        rw [hmore, hn, List.drop_length_add_append]
        rfl
      rw [hmore, List.length_append, List.length_cons] at hsize
      have hblock : parseEvent on_event_ (s ++ [10]) = parseEvent on_event_ s := by
        subst hbefore
        rw [List.append_assoc]
        exact parseEvent_append_lf (by simp at hsize ⊢; omega)
      have hlf : eventsOf on_event_ ([10] ++ more') = eventsOf on_event_ more' :=
        eventsOf_lineEnd (.inl rfl) (by simp at hsize ⊢; omega)
      rw [eventsOf_some hnext, htake, hdrop, hblock, hn, List.take_length, List.drop_length,
        split_none (s := []) rfl, eventsOf_none (s := []) rfl, List.nil_append, hmore, ← hlf]
      rfl

theorem parseChunks_eq (chunks : List Bytes) {p : HTTPSSEParser} (hbuf : blockEnd false p.buf_ = none)
    (hsize : (p.buf_ ++ chunks.flatten).length < 2^31) :
    (parseChunks chunks p).1 = eventsOf p.on_event_ (p.buf_ ++ chunks.flatten) := by
  induction chunks generalizing p with
  | nil =>
    rw [List.flatten_nil, List.append_nil, eventsOf_none hbuf]
    rfl
  | cons data chunks ih =>
    rw [List.flatten_cons, ← List.append_assoc] at hsize ⊢
    have hfirst : (p.buf_ ++ data).length < 2^31 := by
      rw [List.length_append] at hsize
      omega
    obtain ⟨hflat, -, hrest⟩ := split_spec (p.buf_ ++ data)
    have hlater : ((split (p.buf_ ++ data)).2 ++ chunks.flatten).length < 2^31 := by
      have hlen := congrArg List.length hflat
      rw [List.length_append] at hlen hsize ⊢
      omega
    rw [parseChunks, parse_eq hfirst, eventsOf_append _ _ hsize]
    exact congrArg _ (ih (p := { p with buf_ := (split (p.buf_ ++ data)).2 }) hrest hlater)

/-- However a stream is cut into calls, its events are those of a single call, which are those of the
blocks up to its last blank line. -/
theorem parseChunks_flatten (on_event_ : Bool) (chunks : List Bytes)
    (hsize : chunks.flatten.length < 2^31) :
    (parseChunks chunks { on_event_ := on_event_ }).1 =
        (parse chunks.flatten { on_event_ := on_event_ }).1 ∧
      ∃ (blocks : List Bytes) (rest : Bytes), chunks.flatten = blocks.flatten ++ rest ∧
        (∀ b ∈ blocks, blockEnd false b = some b.length) ∧ blockEnd false rest = none ∧
        (parse chunks.flatten { on_event_ := on_event_ }).1 =
          blocks.flatMap (parseEvent on_event_) := by
  obtain ⟨hflat, hblocks, hrest⟩ := split_spec chunks.flatten
  rw [parseChunks_eq chunks (p := { on_event_ := on_event_ }) rfl hsize,
    parse_eq (p := { on_event_ := on_event_ }) hsize]
  exact ⟨rfl, _, _, hflat.symm, hblocks, hrest, rfl⟩

theorem parseChunks_flatten_crlf :
    (parseChunks [lit "data: b\r\n\r", lit "\ndata: c\n\nda"] { on_event_ := true }).1 =
      (parse [lit "data: b\r\n\r", lit "\ndata: c\n\nda"].flatten { on_event_ := true }).1 :=
  (parseChunks_flatten true _ (by decide)).1

end cuts

end Stx.Http.HTTPSSEParser
