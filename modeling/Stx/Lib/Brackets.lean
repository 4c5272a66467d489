import Mathlib.Data.List.Basic
import Mathlib.Tactic.Ring

/-! Sequences of brackets and atoms. A sequence whose brackets balance by count spells one
forest, in which a node keeps the kinds of both of its brackets: they may differ. -/
namespace Brackets
variable {β α : Type}

inductive Sym (β α : Type) where
  | opens (kind : β)
  | closes (kind : β)
  | atom (value : α)
  deriving DecidableEq

/-- A list of trees: the first tree of it and the trees behind that one. -/
inductive Forest (β α : Type) where
  | nil
  | atom (value : α) (rest : Forest β α)
  | node (first last : β) (inner rest : Forest β α)
  deriving DecidableEq

namespace Forest

/-- The symbols in document order, each opening bracket with the number of symbols of its
tree and every other symbol with one. -/
def spans : Forest β α → List (Sym β α × Nat)
  | nil => []
  | atom a rest => (.atom a, 1) :: rest.spans
  | node b e inner rest =>
    (.opens b, inner.spans.length+2) :: (inner.spans ++ (.closes e, 1) :: rest.spans)

def symbols : Forest β α → List (Sym β α)
  | nil => []
  | atom a rest => .atom a :: rest.symbols
  | node b e inner rest => .opens b :: (inner.symbols ++ .closes e :: rest.symbols)

def append : Forest β α → Forest β α → Forest β α
  | nil, g => g
  | atom a rest, g => .atom a (rest.append g)
  | node b e inner rest, g => .node b e inner (rest.append g)

instance : Append (Forest β α) := ⟨append⟩

@[simp] theorem nil_append (g : Forest β α) : nil ++ g = g := rfl
@[simp] theorem atom_append (a : α) (f g : Forest β α) : atom a f ++ g = atom a (f ++ g) := rfl
@[simp] theorem node_append (b e : β) (inner f g : Forest β α) :
    node b e inner f ++ g = node b e inner (f ++ g) := rfl

@[simp] theorem append_nil (f : Forest β α) : f ++ nil = f := by
  induction f with
  | nil => rfl
  | atom a rest ih => rw [atom_append, ih]
  | node b e inner rest _ ih => rw [node_append, ih]

theorem append_assoc (f g h : Forest β α) : f ++ g ++ h = f ++ (g ++ h) := by
  induction f with
  | nil => rfl
  | atom a rest ih => simp only [atom_append, ih]
  | node b e inner rest _ ih => simp only [node_append, ih]

@[simp] theorem spans_append (f g : Forest β α) : (f ++ g).spans = f.spans ++ g.spans := by
  induction f with
  | nil => rfl
  | atom a rest ih => simp [spans, ih]
  | node b e inner rest _ ih => simp [spans, ih]

theorem map_fst_spans (f : Forest β α) : f.spans.map Prod.fst = f.symbols := by
  induction f with
  | nil => rfl
  | atom a rest ih => simp [spans, symbols, ih]
  | node b e inner rest ihi ihr => simp [spans, symbols, ihi, ihr]

@[simp] theorem symbols_append (f g : Forest β α) : (f ++ g).symbols = f.symbols ++ g.symbols := by
  rw [← map_fst_spans, spans_append, List.map_append, map_fst_spans, map_fst_spans]

@[simp] theorem length_symbols (f : Forest β α) : f.symbols.length = f.spans.length := by
  rw [← map_fst_spans, List.length_map]

/-- Both brackets of every node are of one kind. -/
def Matched : Forest β α → Prop
  | nil => True
  | atom _ rest => rest.Matched
  | node b e inner rest => b = e ∧ inner.Matched ∧ rest.Matched

end Forest

/- Counting. -/

/-- The number of brackets that are open behind `s`, or `none` when a closing bracket finds
none open. -/
def depth : Nat → List (Sym β α) → Option Nat
  | n, [] => some n
  | n, .opens _ :: s => depth (n+1) s
  | 0, .closes _ :: _ => none
  | n+1, .closes _ :: s => depth n s
  | n, .atom _ :: s => depth n s

def Balanced (s : List (Sym β α)) : Prop := depth 0 s = some 0

instance (s : List (Sym β α)) : Decidable (Balanced s) := inferInstanceAs (Decidable (_ = _))

theorem depth_append (n : Nat) (s t : List (Sym β α)) :
    depth n (s ++ t) = (depth n s).bind fun m => depth m t := by
  induction s generalizing n with
  | nil => rfl
  | cons x s ih =>
    cases x with
    | opens b => exact ih (n+1)
    | atom a => exact ih n
    | closes e =>
      cases n with
      | zero => rfl
      | succ n => exact ih n

theorem depth_symbols (n : Nat) (f : Forest β α) : depth n f.symbols = some n := by
  induction f generalizing n with
  | nil => rfl
  | atom a rest ih => exact ih n
  | node b e inner rest ihi ihr =>
    rw [Forest.symbols, depth, depth_append, ihi]
    exact ihr n

theorem balanced_symbols (f : Forest β α) : Balanced f.symbols := depth_symbols 0 f

/- A sequence that is read from the left: the forest at the level of the last open bracket and,
   for each open bracket, its kind and the forest in front of it. -/

structure Builder (β α : Type) where
  done : Forest β α := .nil
  frames : List (β × Forest β α) := []

namespace Builder

def push (z : Builder β α) : Sym β α → Option (Builder β α)
  | .opens b => some ⟨.nil, (b, z.done) :: z.frames⟩
  | .closes e =>
    match z.frames with
    | [] => none
    | (b, before) :: frames => some ⟨before ++ .node b e z.done .nil, frames⟩
  | .atom a => some ⟨z.done ++ .atom a .nil, z.frames⟩

def pushAll (z : Builder β α) (s : List (Sym β α)) : Option (Builder β α) := s.foldlM push z

/-- What stands in front of the innermost level, the brackets that are open with a span of one. -/
def outside : List (β × Forest β α) → List (Sym β α × Nat)
  | [] => []
  | (b, before) :: frames => outside frames ++ (before.spans ++ [(.opens b, 1)])

def spans (z : Builder β α) : List (Sym β α × Nat) := outside z.frames ++ z.done.spans

/-- Where the open brackets stand, the innermost one first. -/
def positions : List (β × Forest β α) → List Nat
  | [] => []
  | (_, before) :: frames => ((outside frames).length+before.spans.length) :: positions frames

theorem pushAll_append (z : Builder β α) (s t : List (Sym β α)) :
    z.pushAll (s ++ t) = (z.pushAll s).bind fun z' => z'.pushAll t := by
  simp only [pushAll, List.foldlM_append, Option.bind_eq_bind]

theorem pushAll_symbols (z : Builder β α) (f : Forest β α) :
    z.pushAll f.symbols = some ⟨z.done ++ f, z.frames⟩ := by
  induction f generalizing z with
  | nil => simp [pushAll, Forest.symbols]
  | atom a rest ih =>
    rw [Forest.symbols, pushAll, List.foldlM_cons]
    refine (ih _).trans ?_
    simp [Forest.append_assoc]
  | node b e inner rest ihi ihr =>
    rw [Forest.symbols, ← List.cons_append, pushAll_append, pushAll, List.foldlM_cons]
    change ((Builder.pushAll ⟨.nil, (b, z.done) :: z.frames⟩ inner.symbols).bind _) = _
    rw [ihi, Option.bind_some, pushAll, List.foldlM_cons]
    refine (ihr _).trans ?_
    simp [Forest.append_assoc]

/-- Reading fails where counting fails, and leaves as many brackets open. -/
theorem map_length_pushAll (z : Builder β α) (s : List (Sym β α)) :
    (z.pushAll s).map (·.frames.length) = depth z.frames.length s := by
  induction s generalizing z with
  | nil => rfl
  | cons x s ih =>
    rw [pushAll, List.foldlM_cons]
    cases x with
    | opens b => exact ih _
    | atom a => exact ih _
    | closes e =>
      cases hz : z.frames with
      | nil => simp [push, hz, depth]
      | cons frame frames =>
        have hpush : z.push (.closes e) = some ⟨frame.2 ++ .node frame.1 e z.done .nil, frames⟩ := by
          simp only [push, hz]
        rw [hpush, List.length_cons, depth]
        exact ih _

end Builder

/-- A balanced sequence spells one forest. -/
theorem exists_forest {s : List (Sym β α)} (h : Balanced s) : ∃ f : Forest β α, f.symbols = s := by
  suffices hpush : ∀ (s : List (Sym β α)) (z z' : Builder β α), z.pushAll s = some z' →
      z.spans.map Prod.fst ++ s = z'.spans.map Prod.fst by
    have hlen := Builder.map_length_pushAll (β := β) (α := α) {} s
    rw [List.length_nil, h] at hlen
    obtain ⟨z, hz, hframes⟩ := Option.map_eq_some_iff.1 hlen
    have hsym := hpush s {} z hz
    refine ⟨z.done, ?_⟩
    have hnil : z.frames = [] := List.eq_nil_of_length_eq_zero hframes
    simpa [Builder.spans, hnil, Builder.outside, Forest.spans, Forest.map_fst_spans] using hsym.symm
  intro s
  induction s with
  | nil =>
    intro z z' hz
    cases hz
    rw [List.append_nil]
  | cons x s ih =>
    intro z z' hz
    rw [Builder.pushAll, List.foldlM_cons] at hz
    obtain ⟨y, hy, hrest⟩ := Option.bind_eq_some_iff.1 hz
    rw [← ih y z' hrest]
    cases x with
    | opens b =>
      cases hy
      simp [Builder.spans, Builder.outside, Forest.spans]
    | atom a =>
      cases hy
      simp [Builder.spans, Forest.spans]
    | closes e =>
      cases hz' : z.frames with
      | nil => simp [Builder.push, hz'] at hy
      | cons frame frames =>
        simp only [Builder.push, hz', Option.some.injEq] at hy
        subst hy
        simp [Builder.spans, hz', Builder.outside, Forest.spans]

theorem symbols_injective {f g : Forest β α} (h : f.symbols = g.symbols) : f = g := by
  have hf := Builder.pushAll_symbols (β := β) (α := α) {} f
  have hg := Builder.pushAll_symbols (β := β) (α := α) {} g
  rw [h, hg] at hf
  simpa using hf.symm

/- Pairs of brackets. -/

/-- Counting pairs an opening bracket of kind `b` with a closing one of kind `e`. -/
def Paired (s : List (Sym β α)) (b e : β) : Prop :=
  ∃ pre mid post, s = pre ++ .opens b :: (mid ++ .closes e :: post) ∧ Balanced mid

def Forest.HasNode (b e : β) : Forest β α → Prop
  | nil => False
  | atom _ rest => rest.HasNode b e
  | node b' e' inner rest => (b' = b ∧ e' = e) ∨ inner.HasNode b e ∨ rest.HasNode b e

theorem Forest.hasNode_append (b e : β) (f g : Forest β α) :
    (f ++ g).HasNode b e ↔ f.HasNode b e ∨ g.HasNode b e := by
  induction f with
  | nil => simp [HasNode]
  | atom a rest ih => exact ih
  | node b' e' inner rest _ ih => simp only [node_append, HasNode, ih, or_assoc]

theorem Forest.matched_iff (f : Forest β α) : f.Matched ↔ ∀ b e, f.HasNode b e → b = e := by
  induction f with
  | nil => simp [Matched, HasNode]
  | atom a rest ih => exact ih
  | node b e inner rest ihi ihr =>
    simp only [Matched, HasNode, ihi, ihr]
    constructor
    · rintro ⟨rfl, hi, hr⟩ b' e' (⟨rfl, rfl⟩ | h | h)
      · rfl
      · exact hi b' e' h
      · exact hr b' e' h
    · intro h
      exact ⟨h b e (.inl ⟨rfl, rfl⟩), fun b' e' h' => h b' e' (.inr (.inl h')),
        fun b' e' h' => h b' e' (.inr (.inr h'))⟩

def Builder.HasNode (z : Builder β α) (b e : β) : Prop :=
  z.done.HasNode b e ∨ ∃ frame ∈ z.frames, frame.2.HasNode b e

/-- A node that was built stays. -/
theorem Builder.HasNode.push {z z' : Builder β α} {b e : β} {x : Sym β α} (h : z.HasNode b e)
    (hz : z.push x = some z') : z'.HasNode b e := by
  cases x with
  | opens c =>
    cases hz
    rcases h with h | ⟨frame, hmem, h⟩
    · exact .inr ⟨(c, z.done), List.mem_cons_self, h⟩
    · exact .inr ⟨frame, List.mem_cons_of_mem _ hmem, h⟩
  | atom a =>
    cases hz
    rcases h with h | h
    · exact .inl ((Forest.hasNode_append b e _ _).2 (.inl h))
    · exact .inr h
  | closes c =>
    cases hf : z.frames with
    | nil => simp [Builder.push, hf] at hz
    | cons frame frames =>
      simp only [Builder.push, hf, Option.some.injEq] at hz
      subst hz
      rcases h with h | ⟨frame', hmem, h⟩
      · exact .inl ((Forest.hasNode_append b e _ _).2 (.inr (.inr (.inl h))))
      · rw [hf] at hmem
        rcases List.mem_cons.1 hmem with rfl | hmem
        · exact .inl ((Forest.hasNode_append b e _ _).2 (.inl h))
        · exact .inr ⟨frame', hmem, h⟩

theorem Builder.HasNode.pushAll {z z' : Builder β α} {b e : β} {s : List (Sym β α)}
    (h : z.HasNode b e) (hz : z.pushAll s = some z') : z'.HasNode b e := by
  induction s generalizing z with
  | nil =>
    cases hz
    exact h
  | cons x s ih =>
    rw [Builder.pushAll, List.foldlM_cons] at hz
    obtain ⟨y, hy, hrest⟩ := Option.bind_eq_some_iff.1 hz
    exact ih (h.push hy) hrest

theorem hasNode_iff (f : Forest β α) (b e : β) : f.HasNode b e ↔ Paired f.symbols b e := by
  constructor
  · intro h
    induction f with
    | nil => exact h.elim
    | atom a rest ih =>
      obtain ⟨pre, mid, post, hs, hmid⟩ := ih h
      exact ⟨.atom a :: pre, mid, post, by simp [Forest.symbols, hs], hmid⟩
    | node b' e' inner rest ihi ihr =>
      rcases h with ⟨rfl, rfl⟩ | h | h
      · exact ⟨[], inner.symbols, rest.symbols, rfl, balanced_symbols inner⟩
      · obtain ⟨pre, mid, post, hs, hmid⟩ := ihi h
        exact ⟨.opens b' :: pre, mid, post ++ .closes e' :: rest.symbols,
          by simp [Forest.symbols, hs], hmid⟩
      · obtain ⟨pre, mid, post, hs, hmid⟩ := ihr h
        exact ⟨.opens b' :: (inner.symbols ++ .closes e' :: pre), mid, post,
          by simp [Forest.symbols, hs], hmid⟩
  · rintro ⟨pre, mid, post, hs, hmid⟩
    obtain ⟨g, rfl⟩ := exists_forest hmid
    have hf := Builder.pushAll_symbols (β := β) (α := α) {} f
    rw [hs, Builder.pushAll_append] at hf
    obtain ⟨z, hz, hrest⟩ := Option.bind_eq_some_iff.1 hf
    rw [← List.cons_append, Builder.pushAll_append] at hrest
    obtain ⟨y, hy, hrest⟩ := Option.bind_eq_some_iff.1 hrest
    rw [Builder.pushAll, List.foldlM_cons] at hy
    change Builder.pushAll ⟨.nil, (b, z.done) :: z.frames⟩ g.symbols = some y at hy
    rw [Builder.pushAll_symbols] at hy
    cases hy
    rw [Builder.pushAll, List.foldlM_cons] at hrest
    change Builder.pushAll ⟨z.done ++ .node b e (.nil ++ g) .nil, z.frames⟩ post = _ at hrest
    have hnode : Builder.HasNode ⟨z.done ++ .node b e (.nil ++ g) .nil, z.frames⟩ b e :=
      .inl ((Forest.hasNode_append b e _ _).2 (.inr (.inl ⟨rfl, rfl⟩)))
    have hlast := hnode.pushAll hrest
    simpa [Builder.HasNode] using hlast

/-- Brackets that are closed in order, each by one of its own kind. -/
inductive Nested : List (Sym β α) → Prop
  | nil : Nested []
  | atom (a : α) {s : List (Sym β α)} (hs : Nested s) : Nested (.atom a :: s)
  | pair (b : β) {s t : List (Sym β α)} (hs : Nested s) (ht : Nested t) :
    Nested (.opens b :: (s ++ .closes b :: t))

theorem Nested.exists_forest {s : List (Sym β α)} (h : Nested s) :
    ∃ f : Forest β α, f.symbols = s ∧ f.Matched := by
  induction h with
  | nil => exact ⟨.nil, rfl, trivial⟩
  | atom a hs ih =>
    obtain ⟨f, rfl, hf⟩ := ih
    exact ⟨.atom a f, rfl, hf⟩
  | pair b hs ht ihs iht =>
    obtain ⟨f, rfl, hf⟩ := ihs
    obtain ⟨g, rfl, hg⟩ := iht
    exact ⟨.node b b f g, rfl, rfl, hf, hg⟩

theorem Forest.Matched.nested {f : Forest β α} (h : f.Matched) : Nested f.symbols := by
  induction f with
  | nil => exact .nil
  | atom a rest ih => exact .atom a (ih h)
  | node b e inner rest ihi ihr =>
    obtain ⟨rfl, hi, hr⟩ := h
    exact .pair b (ihi hi) (ihr hr)

theorem nested_symbols_iff (f : Forest β α) :
    Nested f.symbols ↔ ∀ b e, Paired f.symbols b e → b = e := by
  have hpairs : f.Matched ↔ ∀ b e, Paired f.symbols b e → b = e := by
    rw [Forest.matched_iff]
    exact forall₂_congr fun b e => imp_congr_left (hasNode_iff f b e)
  rw [← hpairs]
  constructor
  · intro h
    obtain ⟨g, hg, hmatched⟩ := h.exists_forest
    rwa [← symbols_injective hg]
  · exact Forest.Matched.nested

/- Positions. -/

namespace Forest

/-- What stands where in the spans of a node and the trees behind it. -/
inductive Place (b e : β) (inner rest : Forest β α) : Nat → Sym β α × Nat → Prop
  | first : Place b e inner rest 0 (.opens b, inner.spans.length+2)
  | inner {i : Nat} {x : Sym β α × Nat} (hi : i < inner.spans.length)
    (h : inner.spans[i]? = some x) : Place b e inner rest (i+1) x
  | last : Place b e inner rest (inner.spans.length+1) (.closes e, 1)
  | rest {i : Nat} {x : Sym β α × Nat} (h : rest.spans[i]? = some x) :
    Place b e inner rest (inner.spans.length+2+i) x

theorem getElem?_node {b e : β} {inner rest : Forest β α} {i : Nat} {x : Sym β α × Nat} :
    (node b e inner rest).spans[i]? = some x ↔ Place b e inner rest i x := by
  constructor
  · intro h
    cases i with
    | zero =>
      cases h
      exact .first
    | succ i =>
      rw [spans, List.getElem?_cons_succ, List.getElem?_append] at h
      split at h
      · next hi => exact .inner hi h
      · next hi =>
        obtain ⟨k, rfl⟩ := Nat.exists_eq_add_of_le (Nat.not_lt.1 hi)
        rw [Nat.add_sub_cancel_left] at h
        cases k with
        | zero =>
          cases h
          exact .last
        | succ k =>
          have hplace : Place b e inner rest (inner.spans.length+2+k) x := .rest h
          rwa [show inner.spans.length+2+k = inner.spans.length+(k+1)+1 by omega] at hplace
  · intro h
    cases h with
    | first => rfl
    | inner hi h => rw [spans, List.getElem?_cons_succ, List.getElem?_append_left hi, h]
    | last => simp [spans]
    | rest h =>
      rename_i k
      rw [spans, show inner.spans.length+2+k = inner.spans.length+(k+1)+1 by omega,
        List.getElem?_cons_succ, List.getElem?_append_right (by omega), Nat.add_sub_cancel_left,
        List.getElem?_cons_succ, h]

theorem length_node (b e : β) (inner rest : Forest β α) :
    (node b e inner rest).spans.length = inner.spans.length+2+rest.spans.length := by
  simp only [spans, List.length_cons, List.length_append]
  omega

/-- A span has room, the one of an opening bracket ends with a closing one, and the others are
of one symbol. -/
theorem span_spec {f : Forest β α} {i n : Nat} {s : Sym β α} (h : f.spans[i]? = some (s, n)) :
    1 ≤ n ∧ i+n ≤ f.spans.length ∧
    (∀ b, s = .opens b → 2 ≤ n ∧ ∃ e, f.spans[i+n-1]? = some (.closes e, 1)) ∧
    ((∀ b, s ≠ .opens b) → n = 1) := by
  induction f generalizing i with
  | nil => simp [spans] at h
  | atom a rest ih =>
    cases i with
    | zero =>
      cases h
      simp [spans]
    | succ i =>
      obtain ⟨hpos, hle, hopens, hone⟩ := ih h
      refine ⟨hpos, by simp only [spans, List.length_cons]; omega, fun b hb => ?_, hone⟩
      obtain ⟨htwo, e, he⟩ := hopens b hb
      exact ⟨htwo, e, by rw [spans, show i+1+n-1 = i+n-1+1 by omega, List.getElem?_cons_succ, he]⟩
  | node b e inner rest ihi ihr =>
    rw [length_node]
    cases getElem?_node.1 h with
    | first =>
      refine ⟨by omega, by omega, fun _ _ => ⟨by omega, e, ?_⟩, fun hne => absurd rfl (hne b)⟩
      exact getElem?_node.2 (by simpa using Place.last)
    | inner hi hx =>
      rename_i k
      obtain ⟨hpos, hle, hopens, hone⟩ := ihi hx
      refine ⟨hpos, by omega, fun c hc => ?_, hone⟩
      obtain ⟨htwo, e', he⟩ := hopens c hc
      refine ⟨htwo, e', getElem?_node.2 ?_⟩
      rw [show k+1+n-1 = k+n-1+1 by omega]
      exact .inner (by omega) he
    | last =>
      refine ⟨by omega, by omega, fun c hc => ?_, fun _ => rfl⟩
      cases hc
    | rest hx =>
      rename_i k
      obtain ⟨hpos, hle, hopens, hone⟩ := ihr hx
      refine ⟨hpos, by omega, fun c hc => ?_, hone⟩
      obtain ⟨htwo, e', he⟩ := hopens c hc
      refine ⟨htwo, e', getElem?_node.2 ?_⟩
      rw [show inner.spans.length+2+k+n-1 = inner.spans.length+2+(k+n-1) by omega]
      exact .rest he

/-- Two spans of brackets are apart, or one is inside the other. -/
theorem laminar {f : Forest β α} {i j m n : Nat} {b c : β} (hi : f.spans[i]? = some (.opens b, n))
    (hj : f.spans[j]? = some (.opens c, m)) (hij : i < j) (hlt : j < i+n) : j+m < i+n := by
  induction f generalizing i j with
  | nil => simp [spans] at hi
  | atom a rest ih =>
    cases i with
    | zero => cases hi
    | succ i =>
      cases j with
      | zero => cases hj
      | succ j =>
        have := ih hi hj (by omega) (by omega)
        omega
  | node b' e inner rest ihi ihr =>
    cases getElem?_node.1 hi with
    | first =>
      cases getElem?_node.1 hj with
      | first => omega
      | inner hk hx =>
        have := (span_spec hx).2.1
        omega
      | rest hx => omega
    | inner hk hx =>
      have hroom := (span_spec hx).2.1
      cases getElem?_node.1 hj with
      | first => omega
      | inner hk' hx' =>
        have := ihi hx hx' (by omega) (by omega)
        omega
      | rest hx' => omega
    | rest hx =>
      cases getElem?_node.1 hj with
      | first => omega
      | inner hk' hx' => omega
      | rest hx' =>
        have := ihr hx hx' (by omega) (by omega)
        omega

/-- Where the trees of `f` stand when it begins at position `p`. -/
def starts : Forest β α → Nat → List Nat
  | nil, _ => []
  | atom _ rest, p => p :: rest.starts (p+1)
  | node _ _ inner rest, p => p :: rest.starts (p+(inner.spans.length+2))

theorem starts_add (f : Forest β α) (p q : Nat) :
    f.starts (p+q) = (f.starts p).map (·+q) := by
  induction f generalizing p with
  | nil => rfl
  | atom a rest ih =>
    rw [starts, starts, List.map_cons, ← ih, Nat.add_right_comm]
  | node b e inner rest _ ih =>
    rw [starts, starts, List.map_cons, ← ih, Nat.add_right_comm]

theorem mem_starts_add {f : Forest β α} {j p : Nat} : j+p ∈ f.starts p ↔ j ∈ f.starts 0 := by
  have h := f.starts_add 0 p
  rw [Nat.zero_add] at h
  rw [h, List.mem_map]
  constructor
  · rintro ⟨k, hk, he⟩
    rwa [← Nat.add_right_cancel he]
  · exact fun hj => ⟨j, hj, rfl⟩

theorem le_of_mem_starts {f : Forest β α} {j p : Nat} (h : j ∈ f.starts p) : p ≤ j := by
  induction f generalizing p with
  | nil => cases h
  | atom a rest ih =>
    rcases List.mem_cons.1 h with rfl | h
    · exact Nat.le_refl _
    · exact Nat.le_of_lt (ih h)
  | node b e inner rest _ ih =>
    rcases List.mem_cons.1 h with rfl | h
    · exact Nat.le_refl _
    · exact Nat.le_trans (Nat.le_add_right _ _) (ih h)

/-- A tree stands where no span of brackets that begins further left still goes on. -/
theorem mem_starts_iff {f : Forest β α} {j : Nat} :
    j ∈ f.starts 0 ↔ j < f.spans.length ∧
      ∀ k b m, k < j → f.spans[k]? = some (.opens b, m) → k+m ≤ j := by
  induction f generalizing j with
  | nil => simp [starts, spans]
  | atom a rest ih =>
    cases j with
    | zero => simp [starts, spans]
    | succ j =>
      have htail : j+1 ∈ (atom a rest : Forest β α).starts 0 ↔ j ∈ rest.starts 0 := by
        rw [starts, List.mem_cons, Nat.zero_add, mem_starts_add]
        simp
      rw [htail, ih]
      constructor
      · rintro ⟨hlt, hout⟩
        refine ⟨Nat.succ_lt_succ hlt, fun k b m hk hb => ?_⟩
        cases k with
        | zero => cases hb
        | succ k =>
          have := hout k b m (Nat.lt_of_succ_lt_succ hk) hb
          omega
      · rintro ⟨hlt, hout⟩
        refine ⟨Nat.lt_of_succ_lt_succ hlt, fun k b m hk hb => ?_⟩
        have := hout (k+1) b m (Nat.succ_lt_succ hk) hb
        omega
  | node b e inner rest _ ih =>
    have hfirst : (node b e inner rest).spans[0]? = some (.opens b, inner.spans.length+2) := rfl
    rw [length_node]
    constructor
    · intro h
      rcases List.mem_cons.1 h with rfl | h
      · exact ⟨by omega, fun k c m hk _ => absurd hk (Nat.not_lt_zero k)⟩
      · rw [Nat.zero_add] at h
        obtain ⟨i, rfl⟩ := Nat.exists_eq_add_of_le' (le_of_mem_starts h)
        obtain ⟨hlt, hout⟩ := ih.1 (mem_starts_add.1 h)
        refine ⟨by omega, fun k c m hk hc => ?_⟩
        cases getElem?_node.1 hc with
        | first => omega
        | inner hx hx' =>
          have := (span_spec hx').2.1
          omega
        | rest hx =>
          have := hout _ c m (by omega) hx
          omega
    · rintro ⟨hlt, hout⟩
      rw [starts, List.mem_cons]
      by_cases hj : j = 0
      · exact .inl hj
      · have hbehind := hout 0 b _ (Nat.pos_of_ne_zero hj) hfirst
        rw [Nat.zero_add] at hbehind
        obtain ⟨i, rfl⟩ := Nat.exists_eq_add_of_le' hbehind
        rw [Nat.zero_add, mem_starts_add]
        refine .inr (ih.2 ⟨by omega, fun k c m hk hc => ?_⟩)
        have := hout (inner.spans.length+2+k) c m (by omega) (getElem?_node.2 (.rest hc))
        omega

end Forest

/-- From position `p` by spans to position `q`, with the positions that are left behind. -/
inductive Steps (span : Nat → Option Nat) : Nat → List Nat → Nat → Prop
  | stop (p : Nat) : Steps span p [] p
  | step {p n q : Nat} {ps : List Nat} (hspan : span p = some n) (hrest : Steps span (p+n) ps q) :
    Steps span p (p :: ps) q

theorem Steps.le {span : Nat → Option Nat} {p q : Nat} {ps : List Nat} (h : Steps span p ps q) :
    p ≤ q := by
  induction h with
  | stop p => exact Nat.le_refl p
  | step _ _ ih => exact Nat.le_trans (Nat.le_add_right _ _) ih

/-- Stepping through a forest visits its trees and ends behind the last of them. -/
theorem Forest.steps {f : Forest β α} {span : Nat → Option Nat} {p : Nat}
    (h : ∀ i x, f.spans[i]? = some x → span (p+i) = some x.2) :
    Steps span p (f.starts p) (p+f.spans.length) := by
  induction f generalizing p with
  | nil => exact .stop p
  | atom a rest ih =>
    have hrest := ih (p := p+1) fun i x hx => by
      rw [Nat.add_assoc, Nat.add_comm 1]
      exact h (i+1) x hx
    have hlen : p+(atom a rest : Forest β α).spans.length = p+1+rest.spans.length := by
      simp only [spans, List.length_cons]
      omega
    rw [hlen]
    exact .step (h 0 _ rfl) hrest
  | node b e inner rest _ ih =>
    have hrest := ih (p := p+(inner.spans.length+2)) fun i x hx => by
      rw [Nat.add_assoc]
      exact h (inner.spans.length+2+i) x (getElem?_node.2 (.rest hx))
    rw [length_node, ← Nat.add_assoc]
    exact .step (h 0 _ rfl) hrest

/-- The node that begins at an opening bracket. -/
theorem Forest.exists_node {f : Forest β α} {i n : Nat} {b : β}
    (h : f.spans[i]? = some (.opens b, n)) :
    ∃ pre e inner post, f.spans = pre ++ (node b e inner nil).spans ++ post ∧ pre.length = i ∧
      n = inner.spans.length+2 := by
  induction f generalizing i with
  | nil => simp [spans] at h
  | atom a rest ih =>
    cases i with
    | zero => cases h
    | succ i =>
      obtain ⟨pre, e, inner, post, hs, rfl, hn⟩ := ih h
      exact ⟨(.atom a, 1) :: pre, e, inner, post, by rw [spans, hs]; rfl, rfl, hn⟩
  | node b' e' inner' rest ihi ihr =>
    cases getElem?_node.1 h with
    | first => exact ⟨[], e', inner', rest.spans, by simp [spans], rfl, rfl⟩
    | inner hi hx =>
      obtain ⟨pre, e, inner, post, hs, rfl, hn⟩ := ihi hx
      refine ⟨(.opens b', inner'.spans.length+2) :: pre, e, inner,
        post ++ (.closes e', 1) :: rest.spans, ?_, rfl, hn⟩
      rw [spans]
      conv => lhs; rhs; rw [hs]
      simp
    | rest hx =>
      obtain ⟨pre, e, inner, post, hs, rfl, hn⟩ := ihr hx
      refine ⟨(.opens b', inner'.spans.length+2) :: (inner'.spans ++ (.closes e', 1) :: pre), e,
        inner, post, by rw [spans, hs]; simp, ?_, hn⟩
      simp only [List.length_cons, List.length_append]
      omega

/-- The trees between the brackets of a node, where they stand in the whole forest. -/
theorem Forest.exists_inner {f : Forest β α} {i n : Nat} {b : β}
    (h : f.spans[i]? = some (.opens b, n)) :
    ∃ inner : Forest β α, n = inner.spans.length+2 ∧
      ∀ k, k < inner.spans.length → f.spans[i+1+k]? = inner.spans[k]? := by
  obtain ⟨pre, e, inner, post, hs, rfl, hn⟩ := exists_node h
  refine ⟨inner, hn, fun k hk => ?_⟩
  rw [hs, List.append_assoc, Nat.add_assoc, List.getElem?_append_right (Nat.le_add_right _ _),
    Nat.add_sub_cancel_left, Nat.add_comm 1, spans, List.cons_append, List.getElem?_cons_succ,
    List.append_assoc, List.getElem?_append_left hk]

/-- Stepping by spans behind an opening bracket visits the positions that are in no smaller pair
of brackets, and ends on the closing one. -/
theorem Forest.children_spec {f : Forest β α} {i n : Nat} {b : β}
    (h : f.spans[i]? = some (.opens b, n)) :
    ∃ ps, Steps (fun p => (f.spans[p]?).map Prod.snd) (i+1) ps (i+n-1) ∧
      ∀ j, j ∈ ps ↔ i < j ∧ j < i+n-1 ∧
        ∀ k c m, i < k → k < j → f.spans[k]? = some (.opens c, m) → k+m ≤ j := by
  obtain ⟨inner, rfl, hinner⟩ := exists_inner h
  have hsteps : Steps (fun p => (f.spans[p]?).map Prod.snd) (i+1) (inner.starts (i+1))
      (i+1+inner.spans.length) := by
    apply inner.steps
    intro k x hx
    have hk : k < inner.spans.length := (List.getElem?_eq_some_iff.1 hx).1
    simp only [hinner k hk, hx, Option.map_some]
  rw [show i+1+inner.spans.length = i+(inner.spans.length+2)-1 by omega] at hsteps
  refine ⟨_, hsteps, fun j => ?_⟩
  constructor
  · intro hj
    obtain ⟨j, rfl⟩ := Nat.exists_eq_add_of_le' (le_of_mem_starts hj)
    obtain ⟨hlt, hout⟩ := mem_starts_iff.1 (mem_starts_add.1 hj)
    refine ⟨by omega, by omega, fun k c m hik hkj hc => ?_⟩
    obtain ⟨k, rfl⟩ := Nat.exists_eq_add_of_le hik
    rw [Nat.succ_eq_add_one, hinner k (by omega)] at hc
    have := hout k c m (by omega) hc
    omega
  · rintro ⟨hij, hlt, hout⟩
    obtain ⟨j, rfl⟩ := Nat.exists_eq_add_of_le' hij
    rw [Nat.succ_eq_add_one, mem_starts_add, mem_starts_iff]
    refine ⟨by omega, fun k c m hk hc => ?_⟩
    have := hout (i+1+k) c m (by omega) (by omega) (by rw [hinner k (by omega), hc])
    omega

end Brackets
