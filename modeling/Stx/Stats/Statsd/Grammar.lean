import Stx.Stats.Statsd
import Mathlib.Data.List.TakeWhile

/-! The texts that `parseStatsdSample` finds a sample in. -/
namespace Stx.Stats

/-- Nothing in the key ends it. -/
def PlainKey (key : Bytes) : Prop := ∀ c ∈ key, c ∉ ([91, 58, 61, 0] : Bytes)

structure Label where
  name : Bytes
  value : Bytes
  deriving DecidableEq, Repr

namespace Label

def text (l : Label) : Bytes := l.name ++ 61 :: l.value

def pair (l : Label) : Bytes × Bytes := (l.name, l.value)

/-- The first equals sign is behind the name, the value is not empty, and nothing ends the label. -/
structure Ok (l : Label) : Prop where
  name : 61 ∉ l.name
  value : l.value ≠ []
  text : ∀ c ∈ l.text, c ∉ ([93, 58, 0] : Bytes)

end Label

/-- Labels with the characters that they are ended by. -/
def labelsText (ls : List (Label × UInt8)) : Bytes := ls.flatMap fun l => 91 :: (l.1.text ++ [l.2])

def OkLabels (ls : List (Label × UInt8)) : Prop :=
  ∀ l ∈ ls, l.1.Ok ∧ l.2 ∈ ([93, 58, 0] : Bytes)

def pairs (ls : List (Label × UInt8)) : List (Bytes × Bytes) := ls.map fun l => l.1.pair

/-- A value is found: a key, labels, a colon (or a NUL right behind the key), and the value up to
the next line break. Only the value has to end with its line. -/
structure ValueAt (whole key : Bytes) (ls : List (Label × UInt8)) (text rest : Bytes) : Prop where
  plain : PlainKey key
  ok : OkLabels ls
  line : ∀ c ∈ text, isLineBreak c = false
  stop : ∀ c ∈ rest.head?, isLineBreak c = true
  eq : ∃ separator, (separator = 58 ∨ separator = 0 ∧ ls = []) ∧
    whole = key ++ (labelsText ls ++ separator :: (text ++ rest))

/-- The text ends in the key, or in a label behind others. -/
def OpenAt (whole key : Bytes) (labels : List (Bytes × Bytes)) : Prop :=
  PlainKey key ∧
    (whole = key ∧ labels = [] ∨
      ∃ ls l, OkLabels ls ∧ Label.Ok l ∧ whole = key ++ (labelsText ls ++ 91 :: l.text) ∧
        labels = pairs ls ++ [l.pair])

theorem labelsText_cons (l : Label × UInt8) (ls : List (Label × UInt8)) :
    labelsText (l :: ls) = 91 :: (l.1.text ++ l.2 :: labelsText ls) := by
  simp [labelsText]

theorem pushLabel_ok {l : Label} (h : l.Ok) (out : Scratch) :
    pushLabel l.text out = .ok { out with labels := out.labels ++ [l.pair] } := by
  have hname : l.text.takeWhile (fun c => c ≠ 61) = l.name := by
    rw [Label.text, List.takeWhile_append_of_pos]
    · rw [List.takeWhile_cons_of_neg (by simp), List.append_nil]
    · intro c hc
      have hne : c ≠ 61 := fun heq => h.name (heq ▸ hc)
      simpa using hne
  have hlen : ¬l.name.length+1 ≥ l.text.length := by
    have hvalue := List.length_pos_of_ne_nil h.value
    rw [Label.text, List.length_append, List.length_cons]
    omega
  have hdrop : l.text.drop (l.name.length+1) = l.value := by
    rw [Label.text, ← List.drop_drop, List.drop_left]
    rfl
  unfold pushLabel
  simp only [hname]
  rw [if_neg hlen, hdrop]
  rfl

theorem pushLabel_cases {text : Bytes} (htext : ∀ c ∈ text, c ∉ ([93, 58, 0] : Bytes)) :
    (∃ l : Label, l.Ok ∧ l.text = text) ∨ ∃ e, ∀ out, pushLabel text out = .raise e := by
  by_cases hlen : (text.takeWhile fun c => c ≠ 61).length+1 ≥ text.length
  · exact .inr ⟨_, fun out => if_pos hlen⟩
  · left
    cases hdrop : text.dropWhile fun c => c ≠ 61 with
    | nil =>
      have hjoin := @List.takeWhile_append_dropWhile _ (fun c : UInt8 => decide (c ≠ 61)) text
      rw [hdrop, List.append_nil] at hjoin
      rw [hjoin] at hlen
      omega
    | cons c value =>
      have hjoin := @List.takeWhile_append_dropWhile _ (fun c : UInt8 => decide (c ≠ 61)) text
      rw [hdrop] at hjoin
      have hc : c = 61 := by
        have hnot := List.head?_dropWhile_not (fun c : UInt8 => decide (c ≠ 61)) text
        rw [hdrop] at hnot
        simpa using hnot
      subst hc
      refine ⟨⟨text.takeWhile fun c => c ≠ 61, value⟩, ⟨?_, ?_, ?_⟩, hjoin⟩
      · intro hmem
        simpa using List.mem_takeWhile_imp hmem
      · rintro rfl
        have hlength := congrArg List.length hjoin
        simp only [List.length_append, List.length_cons, List.length_nil] at hlength
        omega
      · rw [Label.text, hjoin]
        exact htext

/- What the loop does in each state. Its equations are made here, before the proofs that rewrite with
them. -/

attribute [local simp] parseLoop

theorem parseLoop_key {key : Bytes} (hkey : PlainKey key) (mark cur : Bytes) (out : Scratch) :
    parseLoop .key mark (key ++ cur) out = parseLoop .key (mark ++ key) cur out := by
  induction key generalizing mark with
  | nil => rw [List.nil_append, List.append_nil]
  | cons c key ih =>
    obtain ⟨hc, hkey⟩ := List.forall_mem_cons.1 hkey
    simp only [List.mem_cons, List.not_mem_nil, or_false, not_or] at hc
    obtain ⟨hbracket, hcolon, hequals, hnul⟩ := hc
    rw [List.cons_append, parseLoop, if_neg hbracket, if_neg (by simp [hcolon, hnul]),
      if_neg hequals, ih hkey, List.append_assoc]
    rfl

theorem parseLoop_label {text : Bytes} (htext : ∀ c ∈ text, c ∉ ([93, 58, 0] : Bytes))
    (mark cur : Bytes) (out : Scratch) :
    parseLoop .label mark (text ++ cur) out = parseLoop .label (mark ++ text) cur out := by
  induction text generalizing mark with
  | nil => rw [List.nil_append, List.append_nil]
  | cons c text ih =>
    obtain ⟨hc, htext⟩ := List.forall_mem_cons.1 htext
    simp only [List.mem_cons, List.not_mem_nil, or_false, not_or] at hc
    rw [List.cons_append, parseLoop, if_neg (by simp [hc]), ih htext, List.append_assoc]
    rfl

theorem parseLoop_label_end {c : UInt8} (hc : c ∈ ([93, 58, 0] : Bytes)) (mark cur : Bytes)
    (out : Scratch) :
    parseLoop .label mark (c :: cur) out =
      (pushLabel mark out >>= fun out => parseLoop .labelOrValue [] cur out) := by
  rw [parseLoop, if_pos (by simpa using hc)]

/-- One label, and what it is ended by. -/
theorem parseLoop_label_step {l : Label} {c : UInt8} (hl : l.Ok) (hc : c ∈ ([93, 58, 0] : Bytes))
    (cur : Bytes) (out : Scratch) :
    parseLoop .label [] (l.text ++ c :: cur) out =
      parseLoop .labelOrValue [] cur { out with labels := out.labels ++ [l.pair] } := by
  rw [parseLoop_label hl.text, parseLoop_label_end hc, List.nil_append, pushLabel_ok hl]
  rfl

theorem parseLoop_value {text rest : Bytes} (htext : ∀ c ∈ text, isLineBreak c = false)
    (hrest : ∀ c ∈ rest.head?, isLineBreak c = true) (mark : Bytes) (out : Scratch) :
    parseLoop .value mark (text ++ rest) out =
      .ok (rest.dropWhile isLineBreak, { out with value := text }) := by
  have hpos : ∀ c ∈ text, (!isLineBreak c) = true := fun c hc => by simp [htext c hc]
  rw [parseLoop, List.takeWhile_append_of_pos hpos, List.dropWhile_append_of_pos hpos]
  cases rest with
  | nil => simp
  | cons c rest => simp [hrest c rfl]

/-- Behind a label there are others, and then whatever is behind them. -/
theorem parseLoop_labels {ls : List (Label × UInt8)} (hls : OkLabels ls) (cur : Bytes)
    (out : Scratch) :
    parseLoop .labelOrValue [] (labelsText ls ++ cur) out =
      parseLoop .labelOrValue [] cur { out with labels := out.labels ++ pairs ls } := by
  induction ls generalizing out with
  | nil => simp [labelsText, pairs]
  | cons l ls ih =>
    obtain ⟨⟨hl, hc⟩, hls⟩ := List.forall_mem_cons.1 hls
    rw [labelsText_cons, List.cons_append, parseLoop, if_pos rfl, List.append_assoc,
      List.cons_append, parseLoop_label_step hl hc, ih hls]
    simp [pairs]

/- What becomes of a text. -/

theorem parseStatsdSample_value {whole key text rest : Bytes} {ls : List (Label × UInt8)}
    (h : ValueAt whole key ls text rest) (out : Scratch) :
    parseStatsdSample whole out =
      .ok (rest.dropWhile isLineBreak, ⟨key, text, out.labels ++ pairs ls⟩) := by
  obtain ⟨hplain, hok, hline, hstop, separator, hseparator, rfl⟩ := h
  rw [parseStatsdSample, parseLoop_key hplain, List.nil_append]
  cases ls with
  | nil =>
    have hsep : separator = 58 ∨ separator = 0 := hseparator.imp_right And.left
    have hne : separator ≠ 91 := by obtain rfl | rfl := hsep <;> decide
    rw [labelsText, List.flatMap_nil, List.nil_append, parseLoop, if_neg hne, if_pos hsep,
      parseLoop_value hline hstop]
    simp [pairs]
  | cons l ls =>
    obtain ⟨⟨hl, hc⟩, hls⟩ := List.forall_mem_cons.1 hok
    obtain rfl : separator = 58 := hseparator.resolve_right fun h => List.cons_ne_nil _ _ h.2
    rw [labelsText_cons, List.cons_append, parseLoop, if_pos rfl, List.append_assoc,
      List.cons_append, parseLoop_label_step hl hc, parseLoop_labels hls, parseLoop,
      if_neg (by decide), if_pos rfl, parseLoop_value hline hstop]
    simp [pairs]

theorem parseStatsdSample_open {whole key : Bytes} {labels : List (Bytes × Bytes)}
    (h : OpenAt whole key labels) (out : Scratch) :
    parseStatsdSample whole out = .ok ([], ⟨key, out.value, out.labels ++ labels⟩) := by
  obtain ⟨hplain, ⟨rfl, rfl⟩ | ⟨ls, l, hls, hl, rfl, rfl⟩⟩ := h
  · have hkey := parseLoop_key hplain [] [] out
    rw [List.append_nil, List.nil_append] at hkey
    rw [parseStatsdSample, hkey, parseLoop, List.append_nil]
  · have hlast : ∀ out : Scratch, parseLoop .label [] l.text out =
        .ok ([], { out with labels := out.labels ++ [l.pair] }) := by
      intro out
      have hlabel := parseLoop_label hl.text [] [] out
      rw [List.append_nil, List.nil_append] at hlabel
      rw [hlabel, parseLoop, pushLabel_ok hl]
      rfl
    rw [parseStatsdSample, parseLoop_key hplain, List.nil_append]
    cases ls with
    | nil =>
      rw [labelsText, List.flatMap_nil, List.nil_append, parseLoop, if_pos rfl, hlast]
      simp [pairs]
    | cons l' ls =>
      obtain ⟨⟨hl', hc⟩, hls⟩ := List.forall_mem_cons.1 hls
      rw [labelsText_cons, List.cons_append, parseLoop, if_pos rfl, List.append_assoc,
        List.cons_append, parseLoop_label_step hl' hc, parseLoop_labels hls, parseLoop, if_pos rfl,
        hlast]
      simp [pairs]

/-- What a bracket is the beginning of: labels and a value, labels of which the last one is open,
or something that is refused. -/
def LabelsAt (cur : Bytes) : Prop :=
  (∃ ls behind, OkLabels ls ∧ 91 :: cur = labelsText ls ++ 58 :: behind ∧ ls ≠ []) ∨
    (∃ ls l, OkLabels ls ∧ Label.Ok l ∧ 91 :: cur = labelsText ls ++ 91 :: l.text) ∨
      ∃ e, ∀ out, parseLoop .label [] cur out = .raise e

/-- A text up to the first character of some, and from it on. -/
theorem exists_front (stops : Bytes) (whole : Bytes) :
    ∃ front rest, whole = front ++ rest ∧ (∀ c ∈ front, c ∉ stops) ∧
      ∀ c ∈ rest.head?, c ∈ stops := by
  refine ⟨whole.takeWhile fun c => decide (c ∉ stops), whole.dropWhile fun c => decide (c ∉ stops),
    List.takeWhile_append_dropWhile.symm, fun c hc => by simpa using List.mem_takeWhile_imp hc,
    fun c hc => ?_⟩
  have hnot := List.head?_dropWhile_not (fun c => decide (c ∉ stops)) whole
  rw [Option.mem_def.1 hc] at hnot
  exact Decidable.not_not.1 (of_decide_eq_false hnot)

theorem labelsAt_of_length {n : Nat} {cur : Bytes} (hlen : cur.length < n) : LabelsAt cur := by
  induction n generalizing cur with
  | zero => omega
  | succ n ih =>
    obtain ⟨text, behind, rfl, htext, hstop⟩ := exists_front [93, 58, 0] cur
    obtain ⟨l, hl, rfl⟩ | ⟨e, hraise⟩ := pushLabel_cases htext
    · cases behind with
      | nil => exact .inr (.inl ⟨[], l, by simp [OkLabels], hl, by rw [List.append_nil]; rfl⟩)
      | cons t behind =>
        have ht : t ∈ ([93, 58, 0] : Bytes) := hstop t rfl
        have hok : OkLabels [(l, t)] := List.forall_mem_singleton.2 ⟨hl, ht⟩
        have hone : 91 :: (l.text ++ t :: behind) = labelsText [(l, t)] ++ behind := by
          simp [labelsText]
        cases behind with
        | nil =>
          refine .inr (.inr ⟨⟨.parseError, lit "unexpected..."⟩, fun out => ?_⟩)
          rw [parseLoop_label_step hl ht]
          rfl
        | cons c cur =>
          by_cases hbracket : c = 91
          · subst hbracket
            have hnext : LabelsAt cur := ih (by
              simp only [List.length_append, List.length_cons] at hlen
              omega)
            obtain ⟨ls, behind, hls, heq, -⟩ | ⟨ls, l', hls, hl', heq⟩ | ⟨e, hraise⟩ := hnext
            · refine .inl ⟨(l, t) :: ls, behind, List.forall_mem_cons.2 ⟨⟨hl, ht⟩, hls⟩, ?_,
                List.cons_ne_nil _ _⟩
              rw [hone, heq]
              simp [labelsText]
            · refine .inr (.inl ⟨(l, t) :: ls, l', List.forall_mem_cons.2 ⟨⟨hl, ht⟩, hls⟩, hl', ?_⟩)
              rw [hone, heq]
              simp [labelsText]
            · refine .inr (.inr ⟨e, fun out => ?_⟩)
              rw [parseLoop_label_step hl ht, parseLoop, if_pos rfl, hraise]
          · by_cases hcolon : c = 58
            · subst hcolon
              exact .inl ⟨[(l, t)], cur, hok, hone, List.cons_ne_nil _ _⟩
            · refine .inr (.inr ⟨⟨.parseError, lit "unexpected..."⟩, fun out => ?_⟩)
              rw [parseLoop_label_step hl ht, parseLoop, if_neg hbracket, if_neg hcolon]
              rfl
    · refine .inr (.inr ⟨e, fun out => ?_⟩)
      rw [parseLoop_label htext, List.nil_append]
      cases behind with
      | nil =>
        rw [parseLoop, hraise]
        rfl
      | cons t behind =>
        rw [parseLoop_label_end (hstop t rfl), hraise]
        rfl

theorem labelsAt (cur : Bytes) : LabelsAt cur := labelsAt_of_length (Nat.lt_succ_self _)

/-- The value goes up to the next line break. -/
theorem valueAt_of_front {key : Bytes} {ls : List (Label × UInt8)} {separator : UInt8}
    (hkey : PlainKey key) (hls : OkLabels ls) (hseparator : separator = 58 ∨ separator = 0 ∧ ls = [])
    (behind : Bytes) :
    ∃ text rest, ValueAt (key ++ (labelsText ls ++ separator :: behind)) key ls text rest := by
  have hbreak : ∀ c, c ∈ ([10, 13] : Bytes) ↔ isLineBreak c = true := fun c => by simp [isLineBreak]
  obtain ⟨text, rest, rfl, htext, hrest⟩ := exists_front [10, 13] behind
  refine ⟨text, rest, hkey, hls, fun c hc => ?_, fun c hc => (hbreak c).1 (hrest c hc), separator,
    hseparator, rfl⟩
  rw [Bool.eq_false_iff]
  exact fun h => htext c hc ((hbreak c).2 h)

/-- A value is found, the text ends before one, or the text is refused. -/
theorem parse_cases (whole : Bytes) :
    (∃ key ls text rest, ValueAt whole key ls text rest) ∨ (∃ key labels, OpenAt whole key labels) ∨
      ∃ e, ∀ out, parseStatsdSample whole out = .raise e := by
  obtain ⟨key, behind, rfl, hkey, hstop⟩ := exists_front [91, 58, 61, 0] whole
  cases behind with
  | nil => exact .inr (.inl ⟨key, [], hkey, .inl ⟨List.append_nil key, rfl⟩⟩)
  | cons c cur =>
    have hc : c ∈ ([91, 58, 61, 0] : Bytes) := hstop c rfl
    have hnone : OkLabels [] := by simp [OkLabels]
    simp only [List.mem_cons, List.not_mem_nil, or_false] at hc
    obtain rfl | rfl | rfl | rfl := hc
    · obtain ⟨ls, behind, hls, heq, -⟩ | ⟨ls, l, hls, hl, heq⟩ | ⟨e, hraise⟩ := labelsAt cur
      · rw [heq]
        exact .inl ⟨key, ls, valueAt_of_front hkey hls (.inl rfl) behind⟩
      · rw [heq]
        exact .inr (.inl ⟨key, _, hkey, .inr ⟨ls, l, hls, hl, rfl, rfl⟩⟩)
      · refine .inr (.inr ⟨e, fun out => ?_⟩)
        rw [parseStatsdSample, parseLoop_key hkey, parseLoop, if_pos rfl, hraise]
    · exact .inl ⟨key, [], valueAt_of_front hkey hnone (.inl rfl) cur⟩
    · refine .inr (.inr ⟨⟨.parseError, lit "invalid equal sign in metric key"⟩, fun out => ?_⟩)
      rw [parseStatsdSample, parseLoop_key hkey, parseLoop, if_neg (by decide), if_neg (by decide),
        if_pos rfl]
      rfl
    · exact .inl ⟨key, [], valueAt_of_front hkey hnone (.inr ⟨rfl, rfl⟩) cur⟩

end Stx.Stats
