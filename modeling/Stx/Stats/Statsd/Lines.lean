import Stx.Stats.Statsd.Grammar
import Stx.Libc

/-! Which packets give the samples of their lines, each line for itself. -/
namespace Stx.Stats

/-- A label in brackets. -/
def closed (ls : List Label) : List (Label × UInt8) := ls.map fun l => (l, 93)

/-- What is left behind a line and the line breaks behind it. -/
def behindLine (text : Bytes) : Bytes :=
  (text.dropWhile fun c => !isLineBreak c).dropWhile isLineBreak

theorem length_behindLine_lt {text : Bytes} (h : text ≠ []) :
    (behindLine text).length < text.length := by
  cases text with
  | nil => exact absurd rfl h
  | cons c text =>
    have hle : ((c :: text).dropWhile fun c => !isLineBreak c).length ≤ text.length ∨
        ((c :: text).dropWhile fun c => !isLineBreak c) = c :: text ∧ isLineBreak c = true := by
      cases hc : isLineBreak c with
      | true => exact .inr ⟨List.dropWhile_cons_of_neg (by simp [hc]), rfl⟩
      | false =>
        rw [List.dropWhile_cons_of_pos (by simp [hc])]
        exact .inl (List.length_dropWhile_le _ _)
    unfold behindLine
    rw [List.length_cons]
    obtain hle | ⟨hsame, hc⟩ := hle
    · exact Nat.lt_succ_of_le (Nat.le_trans (List.length_dropWhile_le _ _) hle)
    · rw [hsame, List.dropWhile_cons_of_pos hc]
      exact Nat.lt_succ_of_le (List.length_dropWhile_le _ _)

/-- The lines of a text, with the places at which they begin. -/
def linesOf (begin : Nat) (text : Bytes) : List (Nat × Bytes) :=
  if _h : text = [] then []
  else
    (begin, text.takeWhile fun c => !isLineBreak c) ::
      linesOf (begin+(text.length-(behindLine text).length)) (behindLine text)
termination_by text.length
decreasing_by exact length_behindLine_lt _h

section
variable {ν : Type} (stod : Bytes → Option (ν × Nat))

/-- A line of the form `key[label=value]*:number`. The number is the whole rest of the line. -/
def SampleLine (line key text : Bytes) (value : ν) (labels : List (Bytes × Bytes)) : Prop :=
  ∃ ls : List Label, PlainKey key ∧ (∀ l ∈ ls, l.Ok) ∧ labels = ls.map Label.pair ∧
    line = key ++ (labelsText (closed ls) ++ 58 :: text) ∧
      (∀ c ∈ line, isLineBreak c = false) ∧ stod text = some (value, text.length)

/-- The report is the one of some line. -/
def ReportFor (lines : List (Nat × Bytes)) (r : Report ν) : Prop :=
  ∃ line text, (r.begin, line) ∈ lines ∧ SampleLine stod line r.key text r.value r.labels

/-- The callback is called in order, exactly for the lines that are samples, with what they say. -/
def Independent (msg : Bytes) : Prop :=
  (messageReceived stod msg).2.Pairwise (fun r r' => r.begin < r'.begin) ∧
    ∀ r, r ∈ (messageReceived stod msg).2 ↔ ReportFor stod (linesOf 0 msg) r

/-- A report is made out of the text: a value is found in it that `stod` takes, or none is, and it
took the last one. -/
def Reported (last text : Bytes) : Prop :=
  (∃ key ls value rest, ValueAt text key ls value rest ∧ stod value ≠ none) ∨
    text ≠ [] ∧ (∃ key labels, OpenAt text key labels) ∧ stod last ≠ none

/-- Samples come first, line by line, and no report is made out of what is behind them. The first
argument is the last value. -/
inductive SamplesFirst : Bytes → Bytes → Prop where
  | rest {last text : Bytes}
      (none : ∀ l ∈ linesOf 0 text, ∀ key number value labels,
        ¬SampleLine stod l.2 key number value labels)
      (silent : ¬Reported stod last text) : SamplesFirst last text
  | sample {last text key number : Bytes} {value : ν} {labels : List (Bytes × Bytes)}
      (line : SampleLine stod (text.takeWhile fun c => !isLineBreak c) key number value labels)
      (behind : SamplesFirst number (behindLine text)) : SamplesFirst last text

variable {stod}

theorem linesOf_nil (begin : Nat) : linesOf begin [] = [] := by
  rw [linesOf, dif_pos rfl]

theorem linesOf_cons {text : Bytes} (h : text ≠ []) (begin : Nat) :
    linesOf begin text = (begin, text.takeWhile fun c => !isLineBreak c) ::
      linesOf (begin+(text.length-(behindLine text).length)) (behindLine text) := by
  rw [linesOf, dif_neg h]

/-- The lines are the same wherever the text begins. -/
theorem map_linesOf (text : Bytes) (begin begin' : Nat) :
    (linesOf begin text).map Prod.snd = (linesOf begin' text).map Prod.snd := by
  induction hn : text.length using Nat.strong_induction_on generalizing text begin begin' with
  | _ n ih =>
    by_cases h : text = []
    · subst h
      rw [linesOf_nil, linesOf_nil]
    · rw [linesOf_cons h, linesOf_cons h, List.map_cons, List.map_cons,
        ih _ (hn ▸ length_behindLine_lt h) (behindLine text) _ _ rfl]

theorem begin_le_of_mem {text : Bytes} {begin : Nat} : ∀ l ∈ linesOf begin text, begin ≤ l.1 := by
  induction hn : text.length using Nat.strong_induction_on generalizing text begin with
  | _ n ih =>
    by_cases h : text = []
    · subst h
      simp [linesOf_nil]
    · rw [linesOf_cons h]
      intro l hl
      obtain rfl | hl := List.mem_cons.1 hl
      · exact Nat.le_refl _
      · exact Nat.le_trans (Nat.le_add_right _ _) (ih _ (hn ▸ length_behindLine_lt h) rfl l hl)

/-- No line of the text is a sample. -/
theorem no_report_iff (text : Bytes) (begin : Nat) :
    (∀ r, ¬ReportFor stod (linesOf begin text) r) ↔
      ∀ l ∈ linesOf 0 text, ∀ key number value labels,
        ¬SampleLine stod l.2 key number value labels := by
  constructor
  · intro h l hl key number value labels hsample
    have hmem : l.2 ∈ (linesOf begin text).map Prod.snd := by
      rw [map_linesOf text begin 0]
      exact List.mem_map_of_mem hl
    obtain ⟨⟨b, line⟩, hline, heq⟩ := List.mem_map.1 hmem
    obtain rfl : line = l.2 := heq
    exact h ⟨b, key, value, labels⟩ ⟨_, number, hline, hsample⟩
  · rintro h r ⟨line, number, hline, hsample⟩
    have hmem : line ∈ (linesOf 0 text).map Prod.snd := by
      rw [map_linesOf text 0 begin]
      exact List.mem_map_of_mem hline
    obtain ⟨l, hl, rfl⟩ := List.mem_map.1 hmem
    exact h l hl _ _ _ _ hsample

/-- The first report is the one of the first line, and the others are behind it. -/
theorem reportFor_cons {text : Bytes} (h : text ≠ []) (begin : Nat) (r : Report ν) :
    ReportFor stod (linesOf begin text) r ↔
      (r.begin = begin ∧ ∃ number, SampleLine stod (text.takeWhile fun c => !isLineBreak c) r.key
        number r.value r.labels) ∨
        ReportFor stod (linesOf (begin+(text.length-(behindLine text).length)) (behindLine text))
          r := by
  rw [linesOf_cons h]
  constructor
  · rintro ⟨line, number, hline, hsample⟩
    obtain heq | hline := List.mem_cons.1 hline
    · obtain ⟨hbegin, rfl⟩ := Prod.mk.inj heq
      exact .inl ⟨hbegin, number, hsample⟩
    · exact .inr ⟨line, number, hline, hsample⟩
  · rintro (⟨hbegin, number, hsample⟩ | ⟨line, number, hline, hsample⟩)
    · exact ⟨_, number, by rw [hbegin]; exact List.mem_cons_self, hsample⟩
    · exact ⟨line, number, List.mem_cons_of_mem _ hline, hsample⟩

/-- In a line that is a sample, the sample is found. -/
theorem SampleLine.valueAt {text key number : Bytes} {value : ν} {labels : List (Bytes × Bytes)}
    (h : SampleLine stod (text.takeWhile fun c => !isLineBreak c) key number value labels) :
    ∃ ls rest, ValueAt text key ls number rest ∧ pairs ls = labels ∧
      rest.dropWhile isLineBreak = behindLine text ∧ stod number = some (value, number.length) := by
  obtain ⟨ls, hkey, hls, rfl, hline, hfree, hnumber⟩ := h
  refine ⟨closed ls, text.dropWhile fun c => !isLineBreak c, ⟨hkey, ?_, ?_, ?_, 58, .inl rfl, ?_⟩,
    ?_, rfl, hnumber⟩
  · intro l hl
    obtain ⟨l', hl', rfl⟩ := List.mem_map.1 hl
    exact ⟨hls l' hl', by simp⟩
  · intro c hc
    refine hfree c (hline ▸ ?_)
    simp [hc]
  · intro c hc
    have hnot := List.head?_dropWhile_not (fun c => !isLineBreak c) text
    rw [Option.mem_def.1 hc] at hnot
    simpa using hnot
  · have hjoin := @List.takeWhile_append_dropWhile _ (fun c => !isLineBreak c) text
    rw [hline] at hjoin
    simpa using hjoin.symm
  · rw [pairs, closed, List.map_map]
    rfl

/-- There is one value in a text at most. -/
theorem ValueAt.unique {whole key key' text text' rest rest' : Bytes}
    {ls ls' : List (Label × UInt8)} (h : ValueAt whole key ls text rest)
    (h' : ValueAt whole key' ls' text' rest') :
    key = key' ∧ text = text' ∧ pairs ls = pairs ls' ∧
      rest.dropWhile isLineBreak = rest'.dropWhile isLineBreak := by
  have heq := (parseStatsdSample_value h ⟨[], [], []⟩).symm.trans
    (parseStatsdSample_value h' ⟨[], [], []⟩)
  simp only [Result.ok.injEq, Prod.mk.injEq, Scratch.mk.injEq, List.nil_append] at heq
  exact ⟨heq.2.1, heq.2.2.1, heq.2.2.2, heq.1⟩

theorem ValueAt.not_open {whole key key' text rest : Bytes} {ls : List (Label × UInt8)}
    {labels : List (Bytes × Bytes)} (h : ValueAt whole key ls text rest) :
    ¬OpenAt whole key' labels := by
  intro hopen
  have heq := (parseStatsdSample_value h ⟨[], 0 :: text, []⟩).symm.trans
    (parseStatsdSample_open hopen ⟨[], 0 :: text, []⟩)
  simp only [Result.ok.injEq, Prod.mk.injEq, Scratch.mk.injEq] at heq
  exact List.cons_ne_self 0 text heq.2.2.1.symm

theorem ValueAt.not_refused {whole key text rest : Bytes} {ls : List (Label × UInt8)}
    {e : Exception} (h : ValueAt whole key ls text rest) :
    ¬∀ out, parseStatsdSample whole out = .raise e := by
  intro hraise
  cases (hraise ⟨[], [], []⟩).symm.trans (parseStatsdSample_value h _)

/-- Behind a sample there is less to look at. -/
theorem length_rest_lt {whole rest : Bytes} {out out' : Scratch} (h : whole ≠ [])
    (hparse : parseStatsdSample whole out = .ok (rest, out')) : rest.length < whole.length := by
  obtain ⟨key, ls, text, behind, hvalue⟩ | ⟨key, labels, hopen⟩ | ⟨e, hraise⟩ := parse_cases whole
  · have heq := hparse.symm.trans (parseStatsdSample_value hvalue out)
    simp only [Result.ok.injEq, Prod.mk.injEq] at heq
    obtain ⟨-, -, -, -, separator, -, rfl⟩ := hvalue
    have hle := List.length_dropWhile_le isLineBreak behind
    rw [heq.1]
    simp only [List.length_append, List.length_cons]
    omega
  · have heq := hparse.symm.trans (parseStatsdSample_open hopen out)
    simp only [Result.ok.injEq, Prod.mk.injEq] at heq
    rw [heq.1]
    exact List.length_pos_of_ne_nil h
  · cases (hraise out).symm.trans hparse

theorem parseStatsdSample_terminates (whole : Bytes) (out : Scratch) :
    parseStatsdSample whole out ≠ .diverge := by
  obtain ⟨key, ls, text, rest, hvalue⟩ | ⟨key, labels, hopen⟩ | ⟨e, hraise⟩ := parse_cases whole
  · rw [parseStatsdSample_value hvalue]
    simp
  · rw [parseStatsdSample_open hopen]
    simp
  · rw [hraise]
    simp

/- One turn of the loop. -/

theorem messageLoop_refused {whole : Bytes} {out : Scratch} {e : Exception}
    (hparse : parseStatsdSample whole out = .raise e) (fuel begin : Nat) :
    (messageLoop stod fuel begin whole out).2 = [] := by
  cases whole with
  | nil => rw [messageLoop]
  | cons c whole =>
    cases fuel with
    | zero => rw [messageLoop]
    | succ fuel => simp only [messageLoop, hparse]

theorem messageLoop_none {whole rest : Bytes} {out out' : Scratch}
    (hparse : parseStatsdSample whole out = .ok (rest, out')) (hnone : stod out'.value = none)
    (fuel begin : Nat) : (messageLoop stod fuel begin whole out).2 = [] := by
  cases whole with
  | nil => rw [messageLoop]
  | cons c whole =>
    cases fuel with
    | zero => rw [messageLoop]
    | succ fuel =>
      simp only [messageLoop, hparse, hnone]

theorem messageLoop_some {whole rest : Bytes} {out out' : Scratch} {value : ν} {n : Nat}
    (h : whole ≠ []) (hparse : parseStatsdSample whole out = .ok (rest, out'))
    (hsome : stod out'.value = some (value, n)) (fuel begin : Nat) :
    (messageLoop stod (fuel+1) begin whole out).2 = ⟨begin, out'.key, value, out'.labels⟩ ::
      (messageLoop stod fuel (begin+(whole.length-rest.length)) rest
        { out' with labels := [] }).2 := by
  cases whole with
  | nil => exact absurd rfl h
  | cons c whole =>
    simp only [messageLoop, hparse, hsome]

/-- One turn makes a report and leaves less to look at, or it is the last one. -/
theorem log_cases {whole : Bytes} (h : whole ≠ []) (fuel begin : Nat) (out : Scratch) :
    (messageLoop stod (fuel+1) begin whole out).2 = [] ∨
      ∃ rest out' r, r.begin = begin ∧ rest.length < whole.length ∧
        (messageLoop stod (fuel+1) begin whole out).2 =
          r :: (messageLoop stod fuel (begin+(whole.length-rest.length)) rest out').2 := by
  cases hparse : parseStatsdSample whole out with
  | ok result =>
    obtain ⟨rest, out'⟩ := result
    cases hvalue : stod out'.value with
    | none => exact .inl (messageLoop_none hparse hvalue _ _)
    | some result =>
      exact .inr ⟨rest, { out' with labels := [] }, ⟨begin, out'.key, result.1, out'.labels⟩, rfl,
        length_rest_lt h hparse, messageLoop_some h hparse hvalue _ _⟩
  | raise e => exact .inl (messageLoop_refused hparse _ _)
  | diverge => exact absurd hparse (parseStatsdSample_terminates whole out)

/-- What holds of no reports, and of a report in front of those that begin behind it, holds of the
reports of every text. -/
theorem log_induction {P : Nat → List (Report ν) → Prop} (hnil : ∀ begin, P begin [])
    (hcons : ∀ {r next log}, r.begin < next → P next log → P r.begin (r :: log))
    (fuel begin : Nat) (whole : Bytes) (out : Scratch) :
    P begin (messageLoop stod fuel begin whole out).2 := by
  induction fuel generalizing begin whole out with
  | zero => cases whole <;> exact hnil begin
  | succ fuel ih =>
    by_cases h : whole = []
    · subst h
      exact hnil begin
    · obtain hnone | ⟨rest, out', r, rfl, hlt, hlog⟩ := @log_cases _ stod _ h fuel begin out
      · rw [hnone]
        exact hnil begin
      · rw [hlog]
        exact hcons (by omega) (ih _ _ _)

/-- What is reported from a place on begins there or behind it, and in the order of the lines. -/
theorem log_sorted (fuel begin : Nat) (whole : Bytes) (out : Scratch) :
    (∀ r ∈ (messageLoop stod fuel begin whole out).2, begin ≤ r.begin) ∧
      (messageLoop stod fuel begin whole out).2.Pairwise fun r r' => r.begin < r'.begin := by
  refine @log_induction _ stod (fun begin log => (∀ r ∈ log, begin ≤ r.begin) ∧
    log.Pairwise fun r r' => r.begin < r'.begin) ?_ ?_ _ _ _ _
  · exact fun begin => ⟨fun r hr => absurd hr List.not_mem_nil, .nil⟩
  · rintro r next log hlt ⟨hlog, hpairwise⟩
    exact ⟨List.forall_mem_cons.2 ⟨Nat.le_refl _, fun r' hr' => Nat.le_trans hlt.le (hlog r' hr')⟩,
      List.pairwise_cons.2 ⟨fun r' hr' => Nat.lt_of_lt_of_le hlt (hlog r' hr'), hpairwise⟩⟩

/-- The report of the first line begins where the line does, and the others behind it. -/
theorem mem_cons_iff {begin next : Nat} {r₀ : Report ν} {log : List (Report ν)}
    {P : Report ν → Prop} (h₀ : r₀.begin = begin) (hlt : begin < next)
    (hlog : ∀ r ∈ log, next ≤ r.begin) (hP : ∀ r, P r → next ≤ r.begin) :
    (∀ r, r ∈ r₀ :: log ↔ r = r₀ ∨ P r) ↔ ∀ r, r ∈ log ↔ P r := by
  constructor
  · intro h r
    have hne : next ≤ r.begin → r ≠ r₀ := by
      rintro hle rfl
      omega
    constructor
    · intro hr
      exact ((h r).1 (List.mem_cons_of_mem _ hr)).resolve_left (hne (hlog r hr))
    · intro hr
      exact (List.mem_cons.1 ((h r).2 (.inr hr))).resolve_left (hne (hP r hr))
  · intro h r
    rw [List.mem_cons, h]

theorem begin_le_of_report {text : Bytes} {begin : Nat} {r : Report ν}
    (h : ReportFor stod (linesOf begin text) r) : begin ≤ r.begin := by
  obtain ⟨line, number, hline, -⟩ := h
  exact begin_le_of_mem _ hline

/-- Nothing is reported: then the text must not have a sample either. -/
theorem samplesFirst_of_silent {last text : Bytes} (h : ¬Reported stod last text) :
    SamplesFirst stod last text ↔ ∀ l ∈ linesOf 0 text, ∀ key number value labels,
      ¬SampleLine stod l.2 key number value labels := by
  constructor
  · intro hfirst
    cases hfirst with
    | rest hnone _ => exact hnone
    | sample hline _ =>
      obtain ⟨ls, rest, hvalue, -, -, hnumber⟩ := hline.valueAt
      exact absurd (.inl ⟨_, ls, _, rest, hvalue, by simp [hnumber]⟩) h
  · intro hnone
    exact .rest hnone h

theorem samplesFirst_of_reported {last text : Bytes} (h : Reported stod last text) :
    SamplesFirst stod last text ↔ ∃ key number value labels,
      SampleLine stod (text.takeWhile fun c => !isLineBreak c) key number value labels ∧
        SamplesFirst stod number (behindLine text) := by
  constructor
  · intro hfirst
    cases hfirst with
    | rest _ hsilent => exact absurd h hsilent
    | sample hline hbehind => exact ⟨_, _, _, _, hline, hbehind⟩
  · rintro ⟨key, number, value, labels, hline, hbehind⟩
    exact .sample hline hbehind

/-- The report of a first line that is a sample. -/
theorem reportFor_sample {text key number : Bytes} {value : ν} {labels : List (Bytes × Bytes)}
    (h : text ≠ [])
    (hline : SampleLine stod (text.takeWhile fun c => !isLineBreak c) key number value labels)
    (begin : Nat) (r : Report ν) :
    ReportFor stod (linesOf begin text) r ↔ r = ⟨begin, key, value, labels⟩ ∨
      ReportFor stod (linesOf (begin+(text.length-(behindLine text).length)) (behindLine text))
        r := by
  rw [reportFor_cons h]
  refine or_congr_left ⟨?_, ?_⟩
  · rintro ⟨hbegin, number', hline'⟩
    obtain ⟨ls, rest, hvalue, hlabels, -, hnumber⟩ := hline.valueAt
    obtain ⟨ls', rest', hvalue', hlabels', -, hnumber'⟩ := hline'.valueAt
    obtain ⟨hkey, rfl, hpairs, -⟩ := hvalue'.unique hvalue
    have hsame : r.value = value := by
      rw [hnumber'] at hnumber
      exact congrArg Prod.fst (Option.some.inj hnumber)
    rw [← hbegin, ← hkey, ← hsame, ← hlabels, ← hpairs, hlabels']
  · rintro rfl
    exact ⟨rfl, number, hline⟩

theorem not_reported_nil (last : Bytes) : ¬Reported stod last [] := by
  rintro (⟨key, ls, value, rest, ⟨-, -, -, -, separator, -, heq⟩, -⟩ | ⟨h, -⟩)
  · simpa using congrArg List.length heq
  · exact h rfl

/-- The first turn makes a report exactly when there is something for it in the text. -/
theorem reported_cases {fuel : Nat} {whole : Bytes} (hlen : whole.length ≤ fuel) (begin : Nat)
    (out : Scratch) :
    (¬Reported stod out.value whole ∧ (messageLoop stod fuel begin whole out).2 = []) ∨
      Reported stod out.value whole ∧
        ∃ r ∈ (messageLoop stod fuel begin whole out).2, r.begin = begin := by
  by_cases h : whole = []
  · subst h
    exact .inl ⟨not_reported_nil _, by rw [messageLoop]⟩
  obtain ⟨fuel, rfl⟩ : ∃ n, fuel = n+1 := by
    have hpos := List.length_pos_of_ne_nil h
    exact ⟨fuel-1, by omega⟩
  obtain ⟨key, ls, text, rest, hvalue⟩ | ⟨key, labels, hopen⟩ | ⟨e, hraise⟩ := parse_cases whole
  · have hparse := parseStatsdSample_value hvalue out
    cases hnumber : stod text with
    | none =>
      refine .inl ⟨?_, messageLoop_none hparse hnumber _ _⟩
      rintro (⟨key', ls', text', rest', hvalue', hsome⟩ | ⟨-, ⟨key', labels, hopen⟩, -⟩)
      · obtain ⟨-, rfl, -⟩ := hvalue.unique hvalue'
        exact hsome hnumber
      · exact hvalue.not_open hopen
    | some result =>
      refine .inr ⟨.inl ⟨key, ls, text, rest, hvalue, by simp [hnumber]⟩, ?_⟩
      rw [messageLoop_some h hparse hnumber]
      exact ⟨_, List.mem_cons_self, rfl⟩
  · have hparse := parseStatsdSample_open hopen out
    cases hnumber : stod out.value with
    | none =>
      refine .inl ⟨?_, messageLoop_none hparse hnumber _ _⟩
      rintro (⟨key', ls', text', rest', hvalue', -⟩ | ⟨-, -, hsome⟩)
      · exact hvalue'.not_open hopen
      · exact hsome hnumber
    | some result =>
      refine .inr ⟨.inr ⟨h, ⟨key, labels, hopen⟩, by simp [hnumber]⟩, ?_⟩
      rw [messageLoop_some h hparse hnumber]
      exact ⟨_, List.mem_cons_self, rfl⟩
  · refine .inl ⟨?_, messageLoop_refused (hraise out) _ _⟩
    rintro (⟨key, ls, value, rest, hvalue, -⟩ | ⟨-, ⟨key, labels, hopen⟩, -⟩)
    · exact hvalue.not_refused hraise
    · cases (hraise out).symm.trans (parseStatsdSample_open hopen out)

variable (stod) in
/-- What is reported from a place on is what the lines from there on say. -/
def Exact (fuel begin : Nat) (whole : Bytes) (out : Scratch) : Prop :=
  ∀ r, r ∈ (messageLoop stod fuel begin whole out).2 ↔ ReportFor stod (linesOf begin whole) r

/-- Behind a sample the text goes on with the next line. -/
theorem exact_of_sample {fuel begin : Nat} {whole key number : Bytes} {value : ν}
    {labels : List (Bytes × Bytes)} {out : Scratch} (h : whole ≠ []) (hlabels : out.labels = [])
    (hline : SampleLine stod (whole.takeWhile fun c => !isLineBreak c) key number value labels)
    (hbehind : ∀ begin, Exact stod fuel begin (behindLine whole) ⟨key, number, []⟩ ↔
      SamplesFirst stod number (behindLine whole)) :
    Exact stod (fuel+1) begin whole out ↔ SamplesFirst stod number (behindLine whole) := by
  obtain ⟨ls, rest, hvalue, hpairs, hrest, hnumber⟩ := hline.valueAt
  have hlog := messageLoop_some h (parseStatsdSample_value hvalue out) hnumber fuel begin
  rw [hrest, hpairs, hlabels, List.nil_append] at hlog
  have hlt : begin < begin+(whole.length-(behindLine whole).length) := by
    have hless := length_behindLine_lt h
    omega
  unfold Exact
  simp only [hlog, reportFor_sample h hline]
  rw [mem_cons_iff rfl hlt (log_sorted _ _ _ _).1 fun r => begin_le_of_report]
  exact hbehind _

theorem exact_iff {fuel begin : Nat} {whole : Bytes} {out : Scratch} (hlen : whole.length ≤ fuel)
    (hlabels : out.labels = []) :
    Exact stod fuel begin whole out ↔ SamplesFirst stod out.value whole := by
  induction fuel generalizing begin whole out with
  | zero =>
    obtain rfl := List.eq_nil_of_length_eq_zero (Nat.le_zero.1 hlen)
    rw [samplesFirst_of_silent (not_reported_nil _), ← no_report_iff [] begin]
    simp [Exact, messageLoop]
  | succ fuel ih =>
    obtain ⟨hnot, hnone⟩ | ⟨hreported, r, hr, hbegin⟩ := reported_cases hlen begin out
    · rw [samplesFirst_of_silent hnot, ← no_report_iff whole begin, Exact, hnone]
      simp
    · have hne : whole ≠ [] := by
        rintro rfl
        exact not_reported_nil _ hreported
      have hless := length_behindLine_lt hne
      have hbehind : ∀ {key number value labels},
          SampleLine stod (whole.takeWhile fun c => !isLineBreak c) key number value labels →
            (Exact stod (fuel+1) begin whole out ↔ SamplesFirst stod number (behindLine whole)) :=
        fun hline => exact_of_sample hne hlabels hline fun begin => ih (by omega) rfl
      rw [samplesFirst_of_reported hreported]
      constructor
      · -- The first report is the one of the first line, and of no line behind it.
        intro hexact
        obtain ⟨-, number, hline⟩ | hlater := (reportFor_cons hne begin r).1 ((hexact r).1 hr)
        · exact ⟨_, number, _, _, hline, (hbehind hline).1 hexact⟩
        · have hle := begin_le_of_report hlater
          omega
      · rintro ⟨key, number, value, labels, hline, hfirst⟩
        exact (hbehind hline).2 hfirst

theorem independent_iff (stod : Bytes → Option (ν × Nat)) (msg : Bytes) :
    Independent stod msg ↔ SamplesFirst stod [] msg := by
  constructor
  · rintro ⟨-, hexact⟩
    exact (exact_iff (Nat.le_refl _) rfl).1 hexact
  · intro hfirst
    exact ⟨(log_sorted _ _ _ _).2, (exact_iff (Nat.le_refl _) rfl).2 hfirst⟩

/-- The value of the line before is reported for a key without one. -/
theorem bare_key_not_independent :
    ¬Independent
      (fun text => (Libc.stoul text).map fun n => (n, (text.takeWhile Libc.isdigit).length))
      (lit "a:1\nb") := by
  rintro ⟨-, hexact⟩
  obtain ⟨line, number, hline, ls, -, -, -, htext, -⟩ :=
    (hexact ⟨4, lit "b", 1, []⟩).1 (by decide)
  have hlines : linesOf 0 (lit "a:1\nb") = [(0, lit "a:1"), (4, lit "b")] := by
    rw [linesOf_cons (by decide)]
    have hbehind : behindLine (lit "a:1\nb") = lit "b" := by decide
    have hnone : behindLine (lit "b") = [] := by decide
    rw [hbehind, linesOf_cons (by decide), hnone, linesOf_nil]
    decide
  rw [hlines] at hline
  obtain rfl : line = lit "b" := by simpa using hline
  have hcolon : 58 ∈ lit "b" := by
    rw [htext]
    simp
  revert hcolon
  decide

end
end Stx.Stats
