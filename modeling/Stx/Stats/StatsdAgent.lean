import Stx.Stats.Statsd.Lines
import Stx.StringUtil.Decimals

/-! `stats/statsdagent.{h,cc}`, with the sink and the counters that it reads: the packets of the
reports, and what `statsd.cc` finds in them. A double is an integer here, since that is what every
counter is converted from; sending the packets is left to the socket. -/
namespace Stx.Stats
open StringUtil

inductive ExportMode where
  | value | delta | none
  deriving DecidableEq, Repr

/-- `CounterStat` and `MultiCounterStat`, with the values that are loaded from them. -/
inductive Stat where
  | counter (value : UInt64)
  | multiCounter (values : List UInt64)
  deriving DecidableEq, Repr

structure ExportedStat where
  path : Bytes
  stat : Stat
  export_mode : ExportMode
  deriving DecidableEq, Repr

/-- `BufferStatsSinkStatsSink`. -/
structure BufferStatsSink where
  values : List (Bytes × Int) := []
  deriving DecidableEq, Repr

namespace BufferStatsSink

def addStatValue (sink : BufferStatsSink) (path : Bytes) (value : UInt64) : BufferStatsSink :=
  { sink with values := sink.values ++ [(path, Libc.toDouble value.toNat)] }

/-- With labels a value is not kept. -/
def addLabeledStatValue (sink : BufferStatsSink) (_path : Bytes) (_labels : List (Bytes × Bytes))
    (_value : UInt64) : BufferStatsSink := sink

end BufferStatsSink

def Stat.exportAll (path : Bytes) (sink : BufferStatsSink) : Stat → BufferStatsSink
  | .counter value => sink.addStatValue path value
  | .multiCounter values =>
    values.foldl (fun sink value => sink.addLabeledStatValue path [] value) sink

def kMaxPacketSize : Nat := 1024*48

structure StatsdAgent where
  /-- A key without a value has zero. -/
  last_values_ : Bytes → Int := fun _ => 0

namespace StatsdAgent

def formatLine (key : Bytes) (value : Int) : Result Bytes := do
  let text ← toStringDouble (Libc.bitsOf value)
  formatInt "$0:$1" [key, text]

/-- The body of the loop of `reportValue`. -/
def putValue (out : List Bytes) (pair : Bytes × Int) : Sys StatsdAgent (List Bytes) := do
  let line ← Sys.reads fun _ => formatLine pair.1 pair.2
  pure (out ++ [line])

def reportValue (path : Bytes) (stat : Stat) (out : List Bytes) : Sys StatsdAgent (List Bytes) :=
  (stat.exportAll path {}).values.foldlM putValue out

/-- The body of the loop of `reportDelta`. -/
def putDelta (out : List Bytes) (pair : Bytes × Int) : Sys StatsdAgent (List Bytes) := do
  let agent ← Sys.get
  let delta := Libc.toDouble (pair.2-agent.last_values_ pair.1)
  Sys.modify fun agent =>
    { agent with last_values_ := Function.update agent.last_values_ pair.1 pair.2 }
  let line ← Sys.reads fun _ => formatLine pair.1 delta
  pure (out ++ [line])

def reportDelta (path : Bytes) (stat : Stat) (out : List Bytes) : Sys StatsdAgent (List Bytes) :=
  (stat.exportAll path {}).values.foldlM putDelta out

def reportStat (lines : List Bytes) (stat : ExportedStat) : Sys StatsdAgent (List Bytes) :=
  match stat.export_mode with
  | .value => reportValue stat.path stat.stat lines
  | .delta => reportDelta stat.path stat.stat lines
  | .none => pure lines

/-- The last packet is the one that is filled. -/
def appendLine (pkts : List Bytes) (line : Bytes) : List Bytes :=
  let pkts :=
    if pkts.length = 0 ∨ (pkts.getLast?.getD []).length+line.length+2 ≥ kMaxPacketSize then
      pkts ++ [[]]
    else pkts
  pkts.dropLast ++ [pkts.getLast?.getD [] ++ line ++ [10]]

def sendToStatsd (lines : List Bytes) : List Bytes := lines.foldl appendLine []

/-- `report`, for the statistics of the repository as they are at that time. -/
def report (stats : List ExportedStat) : Sys StatsdAgent (List Bytes) := do
  let lines ← stats.foldlM reportStat []
  pure (sendToStatsd lines)

/-- The loop of `start`: the packets of one report after the other. An exception ends a report, and
not the loop. -/
def run : List (List ExportedStat) → StatsdAgent → List Bytes × StatsdAgent
  | [], agent => ([], agent)
  | stats :: reports, agent =>
    match report stats agent with
    | (.ok pkts, agent) => (pkts ++ (run reports agent).1, (run reports agent).2)
    | (.raise _, agent) => run reports agent
    | (.diverge, agent) => ([], agent)

end StatsdAgent

/-- A key, and the value that is sent for it. -/
abbrev Sample := Bytes × Int

def sampleOf (last : Bytes → Int) (stat : ExportedStat) : List Sample :=
  match stat.stat, stat.export_mode with
  | .counter value, .value => [(stat.path, Libc.toDouble value.toNat)]
  | .counter value, .delta =>
    [(stat.path, Libc.toDouble (Libc.toDouble value.toNat-last stat.path))]
  | _, _ => []

def remember (last : Bytes → Int) (stat : ExportedStat) : Bytes → Int :=
  match stat.stat, stat.export_mode with
  | .counter value, .delta => Function.update last stat.path (Libc.toDouble value.toNat)
  | _, _ => last

/-- What statistics say, in their order. -/
def samples (last : Bytes → Int) : List ExportedStat → List Sample
  | [] => []
  | stat :: stats => sampleOf last stat ++ samples (remember last stat) stats

/-- Nothing in the path ends a key or a line, or is replaced by the value, and the positions in the
line are of type `int`. -/
structure Sendable (path : Bytes) : Prop where
  plain : PlainKey path
  line : ∀ c ∈ path, isLineBreak c = false
  placeholder : ¬[36, 49] <:+: path
  length : path.length+32 < 2^31

def lineText (s : Sample) : Bytes := s.1 ++ 58 :: (toStringInt s.2 ++ lit ".0")

def pktText (ss : List Sample) : Bytes := ss.flatMap fun s => lineText s ++ [10]

/-- A double whose text is an integer in front of `.0`. -/
structure Whole (n : Int) : Prop where
  double : Libc.IsDouble n.natAbs
  le : n.natAbs ≤ 2^64

/- The lines of a report. -/

namespace StatsdAgent

theorem length_toStringInt_le {n : Int} (h : n.natAbs ≤ 2^64) : (toStringInt n).length ≤ 21 := by
  have hle : (StringUtil.toString n.natAbs).length ≤ 20 :=
    length_toString_le (Nat.lt_of_le_of_lt h (by decide))
  unfold toStringInt
  split
  · rw [List.length_append]
    exact Nat.add_le_add (by decide : (lit "-").length ≤ 1) hle
  · exact Nat.le_succ_of_le hle

theorem formatLine_eq {s : Sample} (hpath : Sendable s.1) (hvalue : Whole s.2) :
    formatLine s.1 s.2 = .ok (lineText s) := by
  have hfirst : replaceAll (lit "$0:$1") (lit "$" ++ StringUtil.toString 0) s.1 =
      s.1 ++ [58, 36, 49] := rfl
  have hsecond : replaceAll (s.1 ++ [58, 36, 49]) (lit "$" ++ StringUtil.toString 1)
      (toStringInt s.2 ++ lit ".0") = lineText s := by
    have hpattern : lit "$" ++ StringUtil.toString 1 = [36, 49] := by decide
    have hbehind : replaceAll [58, 36, 49] [36, 49] (toStringInt s.2 ++ lit ".0") =
        58 :: (toStringInt s.2 ++ lit ".0" ++ []) := rfl
    rw [hpattern, replaceAll_append (by decide), replaceAll_of_not_infix (by decide)
      hpath.placeholder, hbehind, List.append_nil, lineText]
  have hlength : (lineText s).length < 2^31 := by
    have hle := length_toStringInt_le hvalue.le
    have hzero : (lit ".0").length = 2 := by decide
    have hpos := hpath.length
    simp only [lineText, List.length_append, List.length_cons]
    omega
  have hfits : FormatFits (lit "$0:$1") 0 [s.1, toStringInt s.2 ++ lit ".0"] := by
    have hpos := hpath.length
    refine ⟨by decide, ?_, ?_⟩
    · rw [hfirst, List.length_append]
      exact Nat.lt_of_le_of_lt (Nat.add_le_add_left (by decide) _) hpos
    · rw [hfirst]
      exact hsecond.symm ▸ hlength
  rw [formatLine, toStringDouble_bitsOf hvalue.double hvalue.le, Result.ok_bind, formatInt,
    formatImplInt_eq hfits, formatImpl, hfirst, formatImpl, hsecond, formatImpl]

theorem whole_toDouble {n : Int} (h : n.natAbs ≤ 2^64) : Whole (Libc.toDouble n) := by
  constructor
  · rw [Libc.natAbs_toDouble]
    exact Libc.isDouble_nearest _
  · rw [Libc.natAbs_toDouble]
    exact Libc.nearest_le h

/-- The values that were exported last are counters. -/
def Counters (last : Bytes → Int) : Prop := ∀ key, 0 ≤ last key ∧ last key ≤ 2^64

theorem toDouble_counter (value : UInt64) :
    0 ≤ Libc.toDouble value.toNat ∧ Libc.toDouble value.toNat ≤ 2^64 := by
  have hle : Libc.nearest value.toNat ≤ 2^64 := Libc.nearest_le (UInt64.toNat_lt value).le
  rw [Libc.toDouble, if_neg (by omega), Int.natAbs_natCast]
  omega

theorem Counters.remember {last : Bytes → Int} (h : Counters last) (stat : ExportedStat) :
    Counters (remember last stat) := by
  obtain ⟨path, stat, mode⟩ := stat
  cases stat with
  | counter value =>
    cases mode with
    | delta =>
      intro key
      change 0 ≤ Function.update last path _ key ∧ Function.update last path _ key ≤ 2^64
      obtain rfl | hne := eq_or_ne key path
      · rw [Function.update_self]
        exact toDouble_counter value
      · rw [Function.update_of_ne hne]
        exact h key
    | value => exact h
    | none => exact h
  | multiCounter values => exact h

theorem whole_of_mem_sampleOf {last : Bytes → Int} (h : Counters last) {stat : ExportedStat}
    {s : Sample} (hs : s ∈ sampleOf last stat) : Whole s.2 ∧ s.1 = stat.path := by
  unfold sampleOf at hs
  split at hs
  · rename_i value _ _
    obtain rfl := List.mem_singleton.1 hs
    have hle : (value.toNat : Int).natAbs ≤ 2^64 := (UInt64.toNat_lt value).le
    exact ⟨whole_toDouble hle, rfl⟩
  · rename_i value _ _
    obtain rfl := List.mem_singleton.1 hs
    have hlast := h stat.path
    have hvalue := toDouble_counter value
    exact ⟨whole_toDouble (by omega), rfl⟩
  · cases hs

theorem exportAll_multiCounter (path : Bytes) (sink : BufferStatsSink) (values : List UInt64) :
    (Stat.multiCounter values).exportAll path sink = sink := by
  rw [Stat.exportAll]
  induction values with
  | nil => rfl
  | cons value values ih => exact ih

theorem foldlM_singleton {α β σ : Type} {f : β → α → Sys σ β} {x : α} {b b' : β} {s s' : σ}
    (h : f b x s = (.ok b', s')) : ([x].foldlM f b) s = (.ok b', s') := by
  rw [List.foldlM_cons, Sys.bind_of_ok h]
  rfl

theorem reads_formatLine {s : Sample} (hpath : Sendable s.1) (hvalue : Whole s.2)
    (agent : StatsdAgent) :
    (Sys.reads fun _ => formatLine s.1 s.2) agent = (.ok (lineText s), agent) := by
  rw [Sys.reads_apply, formatLine_eq hpath hvalue]

theorem putValue_eq {s : Sample} (hpath : Sendable s.1) (hvalue : Whole s.2) (out : List Bytes)
    (agent : StatsdAgent) : putValue out s agent = (.ok (out ++ [lineText s]), agent) :=
  Sys.bind_of_ok (reads_formatLine hpath hvalue agent)

theorem putDelta_eq {pair : Bytes × Int} {last : Bytes → Int} {delta : Int}
    (hdelta : Libc.toDouble (pair.2-last pair.1) = delta) (hpath : Sendable pair.1)
    (hvalue : Whole delta) (out : List Bytes) :
    putDelta out pair ⟨last⟩ =
      (.ok (out ++ [lineText (pair.1, delta)]), ⟨Function.update last pair.1 pair.2⟩) := by
  subst hdelta
  have hread := @reads_formatLine (pair.1, Libc.toDouble (pair.2-last pair.1)) hpath hvalue
  rw [putDelta, Sys.bind_of_ok (Sys.get_apply _), Sys.bind_of_ok (Sys.modify_apply _ _)]
  exact Sys.bind_of_ok (hread _)

/-- A statistic puts its line behind the others, if it has one. -/
theorem reportStat_eq {last : Bytes → Int} (h : Counters last) {stat : ExportedStat}
    (hpath : Sendable stat.path) (lines : List Bytes) :
    reportStat lines stat ⟨last⟩ =
      (.ok (lines ++ (sampleOf last stat).map lineText), ⟨remember last stat⟩) := by
  have hwhole : ∀ s ∈ sampleOf last stat, Whole s.2 := fun s hs => (whole_of_mem_sampleOf h hs).1
  obtain ⟨path, stat, mode⟩ := stat
  cases stat with
  | counter value =>
    cases mode with
    | value => exact foldlM_singleton (putValue_eq hpath (hwhole _ List.mem_cons_self) _ _)
    | delta => exact foldlM_singleton (putDelta_eq rfl hpath (hwhole _ List.mem_cons_self) _)
    | none => simp [reportStat, sampleOf, remember]
  | multiCounter values =>
    have hexport : ((Stat.multiCounter values).exportAll path {}).values = [] := by
      rw [exportAll_multiCounter]
    cases mode with
    | value => simp [reportStat, reportValue, hexport, sampleOf, remember]
    | delta => simp [reportStat, reportDelta, hexport, sampleOf, remember]
    | none => simp [reportStat, sampleOf, remember]

/-- The lines of statistics, behind those that there are already. -/
theorem foldlM_reportStat {stats : List ExportedStat} (hpath : ∀ stat ∈ stats, Sendable stat.path)
    {last : Bytes → Int} (h : Counters last) (lines : List Bytes) :
    (stats.foldlM reportStat lines) ⟨last⟩ =
      (.ok (lines ++ (samples last stats).map lineText), ⟨stats.foldl remember last⟩) := by
  induction stats generalizing last lines with
  | nil => simp [samples]
  | cons stat stats ih =>
    obtain ⟨hfirst, hpath⟩ := List.forall_mem_cons.1 hpath
    rw [List.foldlM_cons, Sys.bind_of_ok (reportStat_eq h hfirst lines), ih hpath (h.remember stat),
      samples, List.map_append, List.append_assoc]
    rfl

theorem report_eq {stats : List ExportedStat} (hpath : ∀ stat ∈ stats, Sendable stat.path)
    {last : Bytes → Int} (h : Counters last) :
    report stats ⟨last⟩ =
      (.ok (sendToStatsd ((samples last stats).map lineText)), ⟨stats.foldl remember last⟩) :=
  Sys.bind_of_ok (foldlM_reportStat hpath h [])

/- The packets. -/

/-- The samples in packets: each packet is shorter than the limit, or it is for one sample. -/
def Packed (ss : List Sample) (pkts : List Bytes) : Prop :=
  ∃ groups : List (List Sample), groups.flatten = ss ∧ pkts = groups.map pktText ∧
    ∀ group ∈ groups, (pktText group).length+1 < kMaxPacketSize ∨ group.length = 1

theorem pktText_concat (ss : List Sample) (s : Sample) :
    pktText (ss ++ [s]) = pktText ss ++ lineText s ++ [10] := by
  simp [pktText]

theorem appendLine_concat (pkts : List Bytes) (pkt line : Bytes) :
    appendLine (pkts ++ [pkt]) line =
      if pkt.length+line.length+2 ≥ kMaxPacketSize then pkts ++ [pkt] ++ [line ++ [10]]
      else pkts ++ [pkt ++ line ++ [10]] := by
  unfold appendLine
  split <;> simp_all

theorem Packed.appendLine {ss : List Sample} {pkts : List Bytes} (h : Packed ss pkts) (s : Sample) :
    Packed (ss ++ [s]) (appendLine pkts (lineText s)) := by
  obtain ⟨groups, rfl, rfl, hgroups⟩ := h
  obtain rfl | ⟨groups, group, rfl⟩ := List.eq_nil_or_concat groups
  · refine ⟨[[s]], by simp, ?_, by simp⟩
    simp [StatsdAgent.appendLine, pktText]
  · rw [List.concat_eq_append] at hgroups ⊢
    obtain ⟨hbefore, hlast⟩ := List.forall_mem_append.1 hgroups
    rw [List.map_append, List.map_singleton, appendLine_concat]
    split
    · refine ⟨groups ++ [group] ++ [[s]], by simp, by simp [pktText], ?_⟩
      exact List.forall_mem_append.2 ⟨hgroups, by simp⟩
    · rename_i hroom
      refine ⟨groups ++ [group ++ [s]], by simp, by simp [pktText_concat], ?_⟩
      refine List.forall_mem_append.2 ⟨hbefore, List.forall_mem_singleton.2 (.inl ?_)⟩
      rw [pktText_concat, List.length_append, List.length_append]
      exact Nat.not_le.1 hroom

theorem packed_sendToStatsd (ss : List Sample) : Packed ss (sendToStatsd (ss.map lineText)) := by
  induction ss using List.reverseRecOn with
  | nil => exact ⟨[], rfl, rfl, by simp⟩
  | append_singleton ss s ih =>
    rw [sendToStatsd, List.map_append, List.foldl_append]
    exact ih.appendLine s

/- What the server finds in them. -/

section
variable {stod : Bytes → Option (Int × Nat)}

/-- `std::stod` gives back the double that a text was made of. -/
def ReadsDoubles (stod : Bytes → Option (Int × Nat)) : Prop :=
  ∀ n, Whole n → ∃ size, stod (toStringInt n ++ lit ".0") = some (n, size)

theorem not_isLineBreak_value (n : Int) :
    ∀ c ∈ toStringInt n ++ lit ".0", isLineBreak c = false := by
  have hnumber : ∀ c ∈ Rfc8259.numberChars, isLineBreak c = false := by
    simp [Rfc8259.numberChars, Rfc8259.digitChars, isLineBreak]
  have hzero : ∀ c ∈ lit ".0", c ∈ Rfc8259.numberChars := by
    simp [lit, Rfc8259.numberChars, Rfc8259.digitChars]
  obtain ⟨number, htext⟩ := exists_number_toStringInt n
  intro c hc
  obtain hc | hc := List.mem_append.1 hc
  · exact hnumber c (Rfc8259.Number.mem_text (htext ▸ hc))
  · exact hnumber c (hzero c hc)

theorem pktText_cons (s : Sample) (ss : List Sample) :
    pktText (s :: ss) =
      s.1 ++ (labelsText [] ++ 58 :: (toStringInt s.2 ++ lit ".0" ++
        10 :: pktText ss)) := by
  simp [pktText, lineText, labelsText]

/-- The next line does not begin with a line break. -/
theorem dropWhile_pktText {ss : List Sample} (hss : ∀ s ∈ ss, Sendable s.1) :
    (10 :: pktText ss).dropWhile isLineBreak = pktText ss := by
  rw [List.dropWhile_cons_of_pos (by decide)]
  cases ss with
  | nil => rfl
  | cons s ss =>
    rw [pktText_cons]
    cases hkey : s.1 with
    | nil => exact List.dropWhile_cons_of_neg (by decide)
    | cons c key =>
      have hc := (hss s List.mem_cons_self).line c (hkey ▸ List.mem_cons_self)
      rw [List.cons_append, List.dropWhile_cons_of_neg (by simp [hc])]

/-- One turn of the loop takes one line. -/
theorem messageLoop_cons {s : Sample} {ss : List Sample} (hss : ∀ s' ∈ s :: ss, Sendable s'.1)
    {size : Nat} (hstod : stod (toStringInt s.2 ++ lit ".0") = some (s.2, size)) (fuel begin : Nat)
    (out : Scratch) :
    ∃ begin', messageLoop stod (fuel+1) begin (pktText (s :: ss)) out =
      let next := messageLoop stod fuel begin' (pktText ss)
        ⟨s.1, toStringInt s.2 ++ lit ".0", []⟩
      (next.1, ⟨begin, s.1, s.2, out.labels⟩ :: next.2) := by
  obtain ⟨hs, hss⟩ := List.forall_mem_cons.1 hss
  have hvalue : ValueAt (pktText (s :: ss)) s.1 [] (toStringInt s.2 ++ lit ".0")
      (10 :: pktText ss) :=
    ⟨hs.plain, by simp [OkLabels], not_isLineBreak_value s.2, by simp [isLineBreak], 58, .inl rfl,
      pktText_cons s ss⟩
  have hparse := parseStatsdSample_value hvalue out
  rw [dropWhile_pktText hss, pairs, List.map_nil, List.append_nil] at hparse
  obtain ⟨c, text, htext⟩ : ∃ c text, pktText (s :: ss) = c :: text :=
    List.exists_cons_of_ne_nil (by simp [pktText, lineText])
  rw [htext] at hparse ⊢
  refine ⟨begin+((c :: text).length-(pktText ss).length), ?_⟩
  simp only [messageLoop, hparse, hstod]

theorem messageLoop_pktText (hstod : ReadsDoubles stod) {ss : List Sample}
    (hss : ∀ s ∈ ss, Sendable s.1) (hwhole : ∀ s ∈ ss, Whole s.2) {fuel : Nat} {out : Scratch}
    (hfuel : (pktText ss).length ≤ fuel) (hout : out.labels = []) (begin : Nat) :
    (messageLoop stod fuel begin (pktText ss) out).1 = .ok () ∧
      (messageLoop stod fuel begin (pktText ss) out).2.map
        (fun r => (r.key, r.value, r.labels)) = ss.map fun s => (s.1, s.2, []) := by
  induction ss generalizing fuel begin out with
  | nil => simp [pktText, messageLoop]
  | cons s ss ih =>
    obtain ⟨hs, hwhole⟩ := List.forall_mem_cons.1 hwhole
    obtain ⟨size, hsize⟩ := hstod s.2 hs
    have hlength : (pktText ss).length+1 ≤ (pktText (s :: ss)).length := by
      rw [pktText_cons]
      simp only [List.length_append, List.length_cons]
      omega
    obtain ⟨fuel, rfl⟩ : ∃ n, fuel = n+1 := ⟨fuel-1, by omega⟩
    obtain ⟨begin', hturn⟩ := messageLoop_cons hss hsize fuel begin out
    have hrest := @ih (List.forall_mem_cons.1 hss).2 hwhole fuel
      ⟨s.1, toStringInt s.2 ++ lit ".0", []⟩ (by omega) rfl begin'
    rw [hturn]
    exact ⟨hrest.1, by rw [List.map_cons, List.map_cons, hrest.2, hout]⟩

variable (stod) in
/-- What the callback of the server is called with, for one packet after the other. -/
def received (pkts : List Bytes) : List (Bytes × Int × List (Bytes × Bytes)) :=
  pkts.flatMap fun pkt => (messageReceived stod pkt).2.map fun r => (r.key, r.value, r.labels)

/-- A packet that is read to its end. It is shorter than the limit, or there is one sample in it. -/
structure Read (stod : Bytes → Option (Int × Nat)) (pkt : Bytes) : Prop where
  ok : (messageReceived stod pkt).1 = .ok ()
  size : pkt.length+1 < kMaxPacketSize ∨ (messageReceived stod pkt).2.length = 1

theorem messageReceived_pktText (hstod : ReadsDoubles stod) {ss : List Sample}
    (hss : ∀ s ∈ ss, Sendable s.1) (hwhole : ∀ s ∈ ss, Whole s.2) :
    (messageReceived stod (pktText ss)).1 = .ok () ∧
      (messageReceived stod (pktText ss)).2.map (fun r => (r.key, r.value, r.labels)) =
        ss.map fun s => (s.1, s.2, []) :=
  messageLoop_pktText hstod hss hwhole (Nat.le_refl _) rfl 0

theorem Packed.received {ss : List Sample} {pkts : List Bytes} (h : Packed ss pkts)
    (hstod : ReadsDoubles stod) (hss : ∀ s ∈ ss, Sendable s.1) (hwhole : ∀ s ∈ ss, Whole s.2) :
    received stod pkts = ss.map (fun s => (s.1, s.2, [])) ∧ ∀ pkt ∈ pkts, Read stod pkt := by
  obtain ⟨groups, rfl, rfl, hgroups⟩ := h
  have hread : ∀ group ∈ groups, (messageReceived stod (pktText group)).1 = .ok () ∧
      (messageReceived stod (pktText group)).2.map (fun r => (r.key, r.value, r.labels)) =
        group.map fun s => (s.1, s.2, []) := by
    intro group hgroup
    exact messageReceived_pktText hstod
      (fun s hs => hss s (List.mem_flatten_of_mem hgroup hs))
      (fun s hs => hwhole s (List.mem_flatten_of_mem hgroup hs))
  constructor
  · rw [StatsdAgent.received, List.flatMap_map, List.map_flatten, ← List.flatMap_def]
    exact List.flatMap_congr fun group hgroup => (hread group hgroup).2
  · intro pkt hpkt
    obtain ⟨group, hgroup, rfl⟩ := List.mem_map.1 hpkt
    refine ⟨(hread group hgroup).1, (hgroups group hgroup).imp_right fun hone => ?_⟩
    have hlength := congrArg List.length (hread group hgroup).2
    rw [List.length_map, List.length_map, hone] at hlength
    exact hlength

/- A run of the agent. -/

theorem samples_append (last : Bytes → Int) (stats stats' : List ExportedStat) :
    samples last (stats ++ stats') =
      samples last stats ++ samples (stats.foldl remember last) stats' := by
  induction stats generalizing last with
  | nil => rfl
  | cons stat stats ih =>
    rw [List.cons_append, samples, ih, samples, List.append_assoc]
    rfl

theorem Counters.foldl {last : Bytes → Int} (h : Counters last) (stats : List ExportedStat) :
    Counters (stats.foldl Stats.remember last) := by
  induction stats generalizing last with
  | nil => exact h
  | cons stat stats ih => exact ih (h.remember stat)

theorem mem_samples {last : Bytes → Int} (h : Counters last) {stats : List ExportedStat} :
    ∀ s ∈ samples last stats, Whole s.2 ∧ ∃ stat ∈ stats, stat.path = s.1 := by
  induction stats generalizing last with
  | nil => exact fun s hs => absurd hs List.not_mem_nil
  | cons stat stats ih =>
    intro s hs
    obtain hs | hs := List.mem_append.1 hs
    · obtain ⟨hwhole, hkey⟩ := whole_of_mem_sampleOf h hs
      exact ⟨hwhole, stat, List.mem_cons_self, hkey.symm⟩
    · obtain ⟨hwhole, stat', hstat', hkey⟩ := ih (h.remember stat) s hs
      exact ⟨hwhole, stat', List.mem_cons_of_mem _ hstat', hkey⟩

theorem counters_zero : Counters fun _ => 0 := by
  simp [Counters]

variable {reports : List (List ExportedStat)}
  (hpath : ∀ stats ∈ reports, ∀ stat ∈ stats, Sendable stat.path)

include hpath in
theorem received_run (hstod : ReadsDoubles stod) {last : Bytes → Int} (hlast : Counters last) :
    received stod (run reports ⟨last⟩).1 =
        (samples last reports.flatten).map (fun s => (s.1, s.2, [])) ∧
      ∀ pkt ∈ (run reports ⟨last⟩).1, Read stod pkt := by
  induction reports generalizing last with
  | nil => exact ⟨rfl, fun pkt hpkt => absurd hpkt List.not_mem_nil⟩
  | cons stats reports ih =>
    obtain ⟨hstats, hpath⟩ := List.forall_mem_cons.1 hpath
    have hreport := report_eq hstats hlast
    have hpkts := (packed_sendToStatsd (samples last stats)).received hstod
      (fun s hs => by
        obtain ⟨-, stat, hstat, hkey⟩ := mem_samples hlast s hs
        exact hkey ▸ hstats stat hstat)
      (fun s hs => (mem_samples hlast s hs).1)
    have hrest := ih hpath (hlast.foldl stats)
    rw [run, hreport]
    refine ⟨?_, List.forall_mem_append.2 ⟨hpkts.2, hrest.2⟩⟩
    rw [received, List.flatMap_append, List.flatten_cons, samples_append, List.map_append]
    exact congrArg₂ (· ++ ·) hpkts.1 hrest.1

/-- In every run the server reads all the packets, and its callback gets the samples, in order and
without labels. -/
theorem reports_received (hstod : ReadsDoubles stod)
    (hpath : ∀ stats ∈ reports, ∀ stat ∈ stats, Sendable stat.path) :
    received stod (run reports {}).1 =
        (samples (fun _ => 0) reports.flatten).map (fun s => (s.1, s.2, [])) ∧
      ∀ pkt ∈ (run reports {}).1, Read stod pkt :=
  received_run hpath hstod counters_zero

/-- What `std::stod` makes of digits, when those behind the point are zeros. -/
def stodDigits (text : Bytes) : Option (Int × Nat) :=
  let m := Libc.Numeral.ofText text
  if m.digits = [] then none
  else some (if m.negative then -Libc.digitsVal m.digits else Libc.digitsVal m.digits, text.length)

theorem readsDoubles_stodDigits : ReadsDoubles stodDigits := by
  intro n _
  have hdigits : ∀ d ∈ StringUtil.toString n.natAbs, Libc.isdigit d = true :=
    fun _ => Libc.isdigit_of_mem_toString
  have hne : StringUtil.toString n.natAbs ≠ [] := by simp [StringUtil.toString]
  have hpoint : ∀ c ∈ (lit ".0").head?, Libc.isdigit c = false := by simp [lit, Libc.isdigit]
  have hnumeral : Libc.Numeral.ofText (toStringInt n ++ lit ".0") =
      ⟨decide (n < 0), StringUtil.toString n.natAbs⟩ := by
    unfold toStringInt
    split
    · rename_i hneg
      have htake := Libc.takeWhile_digits hdigits hpoint
      have hminus : lit "-" ++ StringUtil.toString n.natAbs ++ lit ".0" =
          45 :: (StringUtil.toString n.natAbs ++ lit ".0") := rfl
      rw [hminus, Libc.Numeral.ofText, List.dropWhile_cons_of_neg (by decide)]
      simp only [if_true, htake, hneg, decide_true]
    · rename_i hneg
      rw [Libc.ofText_append hne hdigits hpoint, decide_eq_false hneg]
  refine ⟨(toStringInt n ++ lit ".0").length, ?_⟩
  simp only [stodDigits, hnumeral, if_neg hne, Libc.digitsVal_toString, decide_eq_true_eq]
  congr 2
  split <;> omega

theorem sendable_hits : Sendable (lit "hits") where
  plain := by simp [PlainKey, lit]
  line := by simp [lit, isLineBreak]
  placeholder := by decide
  length := by decide

/-- A counter before and after two hits. -/
def hits : List (List ExportedStat) :=
  [[⟨lit "hits", .counter 7, .delta⟩], [⟨lit "hits", .counter 9, .delta⟩]]

theorem samples_hits : samples (fun _ => 0) hits.flatten = [(lit "hits", 7), (lit "hits", 2)] := by
  decide

theorem reports_received_hits :
    received stodDigits (run hits {}).1 = [(lit "hits", 7, []), (lit "hits", 2, [])] ∧
      ∀ pkt ∈ (run hits {}).1, Read stodDigits pkt := by
  have hpath : ∀ stats ∈ hits, ∀ stat ∈ stats, Sendable stat.path := by
    simp [hits, sendable_hits]
  have hreceived := reports_received readsDoubles_stodDigits hpath
  rwa [samples_hits] at hreceived

/- Differences. -/

/-- The values that a key is exported with as differences. -/
def deltasOf (key : Bytes) (stats : List ExportedStat) : List UInt64 :=
  stats.filterMap fun stat =>
    match stat.stat, stat.export_mode with
    | .counter value, .delta => if stat.path = key then some value else none
    | _, _ => none

def valuesOf (key : Bytes) (ss : List Sample) : List Int :=
  (ss.filter fun s => s.1 = key).map Prod.snd

theorem valuesOf_append (key : Bytes) (ss ss' : List Sample) :
    valuesOf key (ss ++ ss') = valuesOf key ss ++ valuesOf key ss' := by
  simp [valuesOf]

theorem deltasOf_cons (key : Bytes) (stat : ExportedStat) (stats : List ExportedStat) :
    deltasOf key (stat :: stats) = deltasOf key [stat] ++ deltasOf key stats :=
  @List.filterMap_append _ _ [stat] stats _

/-- A counter that is exported as a difference is the last value from then on, and the other
statistics have nothing to do with the key. -/
theorem deltasOf_cases {key : Bytes} {stat : ExportedStat}
    (hmode : stat.path = key → stat.export_mode ≠ .value) (last : Bytes → Int) :
    (∃ value, deltasOf key [stat] = [value] ∧
      valuesOf key (sampleOf last stat) =
        [Libc.toDouble (Libc.toDouble value.toNat-last key)] ∧
      remember last stat key = Libc.toDouble value.toNat) ∨
    (deltasOf key [stat] = [] ∧ valuesOf key (sampleOf last stat) = [] ∧
      remember last stat key = last key) := by
  obtain ⟨path, stat, mode⟩ := stat
  cases stat with
  | counter value =>
    by_cases hkey : path = key
    · subst hkey
      cases mode with
      | value => exact absurd rfl (hmode rfl)
      | delta =>
        exact .inl ⟨value, by simp [deltasOf], by simp [valuesOf, sampleOf], by simp [remember]⟩
      | none => exact .inr ⟨rfl, rfl, rfl⟩
    · have hne : key ≠ path := Ne.symm hkey
      right
      cases mode with
      | value => simp [deltasOf, valuesOf, sampleOf, remember, hkey]
      | delta => simp [deltasOf, valuesOf, sampleOf, remember, hkey, hne]
      | none => simp [deltasOf, valuesOf, sampleOf, remember]
  | multiCounter values => exact .inr ⟨rfl, rfl, rfl⟩

theorem sum_valuesOf {key : Bytes} {stats : List ExportedStat}
    (hmode : ∀ stat ∈ stats, stat.path = key → stat.export_mode ≠ .value)
    (hsmall : ∀ value ∈ deltasOf key stats, value.toNat < 2^53) {last : Bytes → Int}
    (hlast : 0 ≤ last key ∧ last key < 2^53) :
    last key+(valuesOf key (samples last stats)).sum =
      ((deltasOf key stats).map fun value => (value.toNat : Int)).getLastD (last key) := by
  induction stats generalizing last with
  | nil => simp [samples, valuesOf, deltasOf]
  | cons stat stats ih =>
    obtain ⟨hfirst, hmode⟩ := List.forall_mem_cons.1 hmode
    rw [deltasOf_cons] at hsmall ⊢
    rw [samples, valuesOf_append, List.sum_append, List.map_append]
    obtain ⟨value, hdelta, hvalue, hremember⟩ | ⟨hdelta, hvalue, hremember⟩ :=
      deltasOf_cases hfirst last
    · rw [hdelta] at hsmall ⊢
      obtain ⟨hlt, hsmall⟩ := List.forall_mem_cons.1 hsmall
      have hexact : Libc.toDouble value.toNat = value.toNat := Libc.toDouble_of_lt hlt
      have hdifference : Libc.toDouble (value.toNat-last key) = value.toNat-last key :=
        Libc.toDouble_of_lt (by omega)
      have hrest := @ih hmode hsmall (remember last stat) (by omega)
      rw [hremember, hexact] at hrest
      rw [hvalue, hexact, hdifference, List.map_singleton, List.singleton_append,
        List.getLastD_cons, ← hrest, List.sum_singleton]
      omega
    · rw [hdelta] at hsmall ⊢
      have hrest := @ih hmode hsmall (remember last stat) (by omega)
      rw [hremember] at hrest
      rw [hvalue, List.sum_nil, Int.zero_add, hrest]
      rfl

/-- In every run, what the server gets for a key that is exported as differences adds up to the
value that was exported last. -/
theorem deltas_add_up (hstod : ReadsDoubles stod) {key : Bytes}
    (hpath : ∀ stats ∈ reports, ∀ stat ∈ stats, Sendable stat.path)
    (hmode : ∀ stats ∈ reports, ∀ stat ∈ stats, stat.path = key → stat.export_mode ≠ .value)
    (hsmall : ∀ value ∈ deltasOf key reports.flatten, value.toNat < 2^53) :
    (((received stod (run reports {}).1).filter fun r => r.1 = key).map fun r => r.2.1).sum =
      ((deltasOf key reports.flatten).map fun value => (value.toNat : Int)).getLastD 0 := by
  have hmode' : ∀ stat ∈ reports.flatten, stat.path = key → stat.export_mode ≠ .value := by
    intro stat hstat
    obtain ⟨stats, hstats, hmem⟩ := List.mem_flatten.1 hstat
    exact hmode stats hstats stat hmem
  have hsum := @sum_valuesOf key _ hmode' hsmall (fun _ => 0) (by simp)
  have hvalues : ((samples (fun _ => 0) reports.flatten).map fun s =>
      (s.1, s.2, ([] : List (Bytes × Bytes)))).filter (fun r => r.1 = key) =
        ((samples (fun _ => 0) reports.flatten).filter fun s => s.1 = key).map
          fun s => (s.1, s.2, []) := List.filter_map
  rw [(received_run hpath hstod counters_zero).1, hvalues, List.map_map, ← hsum]
  exact (Int.zero_add _).symm

theorem deltas_add_up_hits :
    (((received stodDigits (run hits {}).1).filter fun r => r.1 = lit "hits").map
      fun r => r.2.1).sum = 9 := by
  have hpath : ∀ stats ∈ hits, ∀ stat ∈ stats, Sendable stat.path := by
    simp [hits, sendable_hits]
  have hmode : ∀ stats ∈ hits, ∀ stat ∈ stats,
      stat.path = lit "hits" → stat.export_mode ≠ .value := by
    simp [hits]
  have hsmall : ∀ value ∈ deltasOf (lit "hits") hits.flatten, value.toNat < 2^53 := by
    have hvalues : deltasOf (lit "hits") hits.flatten = [7, 9] := by decide
    simp [hvalues]
  exact deltas_add_up readsDoubles_stodDigits hpath hmode hsmall

end

end StatsdAgent
end Stx.Stats
