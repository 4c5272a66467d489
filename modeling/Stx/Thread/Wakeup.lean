import Stx.Base
import Stx.Lib.Runs
import Stx.Lib.Places

/-! `thread/wakeup.{h,cc}`, and any number of threads that call `wakeup` and `onWakeup`. The sections
under `mutex_` and the calls of callbacks behind them are the steps. -/
namespace Stx.Thread

/-- A callback and the generation it was registered for, which the code does not keep. The number is
that of its `onWakeup` call. -/
structure Callback where
  number : Nat
  generation : Int64
  deriving DecidableEq

structure Wakeup where
  gen_ : Int64 := 0
  callbacks_ : List Callback := []
  deriving DecidableEq

namespace Wakeup

/-- The predicate that `waitForWakeup(oldgen)` waits for. -/
def exceeds (w : Wakeup) (oldgen : Int64) : Bool := oldgen < w.gen_

/-- The section of `onWakeup`: true says that the thread goes on to call the callback itself. -/
def onWakeup (w : Wakeup) (callback : Callback) : Wakeup × Bool :=
  if w.exceeds callback.generation then (w, true)
  else ({ w with callbacks_ := w.callbacks_ ++ [callback] }, false)

/-- The section of `wakeup`, and the callbacks that it takes along. -/
def wakeup (w : Wakeup) : Wakeup × List Callback :=
  ({ gen_ := w.gen_+1, callbacks_ := [] }, w.callbacks_)

/-- A call of `wakeup` behind its section, with the callbacks that it has not called yet. `due` notes
the callbacks, of all that were registered, for which it made the counter exceed the generation. -/
structure WakeupCall where
  callbacks : List Callback
  due : List Callback
  deriving DecidableEq

/-- The object, the threads behind their sections, and the past: `immediate` are the callbacks that
`onWakeup` is about to call, `invoked` has the generation counter in which each call was made, and
`returned` notes what was due for the calls of either kind that have returned. -/
structure World where
  wakeup : Wakeup := {}
  immediate : List Callback := []
  calls : List WakeupCall := []
  registered : List Callback := []
  invoked : List (Callback × Int64) := []
  returned : List Callback := []
  deriving DecidableEq

inductive Action where
  | onWakeup (generation : Int64)
  | callImmediate (i : Nat)
  | wakeup
  | callNext (i : Nat)
  | return (i : Nat)
  deriving DecidableEq

namespace World

/-- The callback of the next `onWakeup` call. -/
def next (w : World) (generation : Int64) : Callback := ⟨w.registered.length, generation⟩

def calling (w : World) (callback : Callback) : World :=
  { w with invoked := w.invoked ++ [(callback, w.wakeup.gen_)] }

/-- The callbacks whose generation the counter comes to exceed with this call. -/
def due (w : World) : List Callback :=
  w.registered.filter fun c => !w.wakeup.exceeds c.generation && w.wakeup.wakeup.1.exceeds c.generation

def step (w : World) : Action → Option World
  | .onWakeup generation =>
    match w.wakeup.onWakeup (w.next generation) with
    | (wakeup, true) =>
      some { w with
        wakeup := wakeup
        immediate := w.immediate ++ [w.next generation]
        registered := w.registered ++ [w.next generation] }
    | (wakeup, false) =>
      some { w with wakeup := wakeup, registered := w.registered ++ [w.next generation] }
  | .callImmediate i =>
    match w.immediate[i]? with
    | some callback =>
      some { w.calling callback with
        immediate := w.immediate.eraseIdx i
        returned := w.returned ++ [callback] }
    | none => none
  | .wakeup =>
    let (wakeup, callbacks) := w.wakeup.wakeup
    some { w with wakeup := wakeup, calls := w.calls ++ [⟨callbacks, w.due⟩] }
  | .callNext i =>
    match w.calls[i]? with
    | some ⟨callback :: callbacks, due⟩ =>
      some { w.calling callback with calls := w.calls.set i ⟨callbacks, due⟩ }
    | _ => none
  | .return i =>
    match w.calls[i]? with
    | some ⟨[], due⟩ =>
      some { w with calls := w.calls.eraseIdx i, returned := w.returned ++ due }
    | _ => none

/-- Each callback is called at most once, where the counter exceeds its generation, and has been called
when the call returned that is to call it. -/
structure Agrees (w : World) : Prop where
  once : (w.invoked.map Prod.fst).Nodup
  after : ∀ e ∈ w.invoked, e.1.generation < e.2
  by_return : ∀ c ∈ w.returned, c ∈ w.invoked.map Prod.fst

/-- The callbacks that are not called yet. -/
def open_ (w : World) : List Callback :=
  w.wakeup.callbacks_ ++ w.immediate ++ w.calls.flatMap WakeupCall.callbacks

/-- When `wakeup` is called, the callbacks wait for generations that have been reached, and the counter
is not at its end, or there are no callbacks. -/
def Meets (w : World) : Action → Prop
  | .wakeup => (∀ c ∈ w.wakeup.callbacks_, c.generation ≤ w.wakeup.gen_) ∧
      (w.wakeup.gen_ = Int64.maxValue → w.open_ = [])
  | _ => True

instance (w : World) : (a : Action) → Decidable (w.Meets a)
  | .wakeup => inferInstanceAs (Decidable (_ ∧ _))
  | .onWakeup _ | .callImmediate _ | .callNext _ | .return _ => inferInstanceAs (Decidable True)

/-- What the condition keeps. -/
structure Good (w : World) : Prop where
  numbers : w.registered.map Callback.number = List.range w.registered.length
  all : (w.open_ ++ w.invoked.map Prod.fst).Perm w.registered
  waiting : ∀ c ∈ w.wakeup.callbacks_, w.wakeup.gen_ ≤ c.generation
  immediate_lt : ∀ c ∈ w.immediate, c.generation < w.wakeup.gen_
  taken_lt : ∀ call ∈ w.calls, ∀ c ∈ call.callbacks, c.generation < w.wakeup.gen_
  due_taken : ∀ call ∈ w.calls, ∀ c ∈ call.due,
    c ∈ call.callbacks ∨ c ∈ w.invoked.map Prod.fst
  after : ∀ e ∈ w.invoked, e.1.generation < e.2
  by_return : ∀ c ∈ w.returned, c ∈ w.invoked.map Prod.fst

section steps
variable {w v : World}

theorem Good.agrees (h : Good w) : Agrees w where
  once := by
    have hnodup : (w.registered.map Callback.number).Nodup := by
      rw [h.numbers]
      exact List.nodup_range
    have hall := (h.all.nodup_iff).2 hnodup.of_map
    exact hall.of_append_right
  after := h.after
  by_return := h.by_return

theorem lt_succ {generation gen_ : Int64} (h : generation ≤ gen_) (hmax : gen_ ≠ Int64.maxValue) :
    generation < gen_+1 := by
  have hle := Int64.le_iff_toInt_le.1 h
  have hrange := gen_.toInt_lt
  have hlow := gen_.le_toInt
  have hne : gen_.toInt ≠ 2^63-1 := fun heq => hmax (Int64.toInt_inj.1 (by rw [heq]; rfl))
  have hone : (1 : Int64).toInt = 1 := by decide
  rw [Int64.lt_iff_toInt_lt, Int64.toInt_add, hone, Int.bmod_eq_of_le (by omega) (by omega)]
  omega

theorem Good.init : Good {} where
  numbers := rfl
  all := List.Perm.nil
  waiting := List.forall_mem_nil _
  immediate_lt := List.forall_mem_nil _
  taken_lt := List.forall_mem_nil _
  due_taken := List.forall_mem_nil _
  after := List.forall_mem_nil _
  by_return := List.forall_mem_nil _

/-- What each action does. -/
inductive Takes (w v : World) : Action → Prop
  | now {generation : Int64} (hexceeds : generation < w.wakeup.gen_)
    (hv : v = { w with
      immediate := w.immediate ++ [w.next generation]
      registered := w.registered ++ [w.next generation] }) : Takes w v (.onWakeup generation)
  | waits {generation : Int64} (hle : w.wakeup.gen_ ≤ generation)
    (hv : v = { w with
      wakeup := { w.wakeup with callbacks_ := w.wakeup.callbacks_ ++ [w.next generation] }
      registered := w.registered ++ [w.next generation] }) : Takes w v (.onWakeup generation)
  | immediate {i : Nat} {callback : Callback} (hget : w.immediate[i]? = some callback)
    (hv : v = { w.calling callback with
      immediate := w.immediate.eraseIdx i
      returned := w.returned ++ [callback] }) : Takes w v (.callImmediate i)
  | wakeup (hv : v = { w with
      wakeup := { gen_ := w.wakeup.gen_+1, callbacks_ := [] }
      calls := w.calls ++ [⟨w.wakeup.callbacks_, w.due⟩] }) : Takes w v .wakeup
  | next {i : Nat} {callback : Callback} {callbacks due : List Callback}
    (hget : w.calls[i]? = some ⟨callback :: callbacks, due⟩)
    (hv : v = { w.calling callback with calls := w.calls.set i ⟨callbacks, due⟩ }) :
    Takes w v (.callNext i)
  | returns {i : Nat} {due : List Callback} (hget : w.calls[i]? = some ⟨[], due⟩)
    (hv : v = { w with calls := w.calls.eraseIdx i, returned := w.returned ++ due }) :
    Takes w v (.return i)

theorem takes {a : Action} (h : w.step a = some v) : Takes w v a := by
  cases a with
  | onWakeup generation =>
    by_cases hexceeds : w.wakeup.exceeds generation
    · have hsection : w.wakeup.onWakeup (w.next generation) = (w.wakeup, true) := if_pos hexceeds
      simp only [step, hsection] at h
      exact .now (of_decide_eq_true hexceeds) (Option.some.inj h).symm
    · have hsection : w.wakeup.onWakeup (w.next generation) =
          ({ w.wakeup with callbacks_ := w.wakeup.callbacks_ ++ [w.next generation] }, false) :=
        if_neg hexceeds
      simp only [step, hsection] at h
      exact .waits (Int64.not_lt.1 fun hlt => hexceeds (decide_eq_true hlt)) (Option.some.inj h).symm
  | callImmediate i =>
    rw [step] at h
    split at h
    next callback hget => exact .immediate hget (Option.some.inj h).symm
    next => cases h
  | wakeup => exact .wakeup (Option.some.inj h).symm
  | callNext i =>
    rw [step] at h
    split at h
    next callback callbacks due hget => exact .next hget (Option.some.inj h).symm
    next => cases h
  | «return» i =>
    rw [step] at h
    split at h
    next due hget => exact .returns hget (Option.some.inj h).symm
    next => cases h

theorem numbers_append (h : Good w) (generation : Int64) :
    (w.registered ++ [w.next generation]).map Callback.number =
      List.range (w.registered ++ [w.next generation]).length := by
  rw [List.map_append, h.numbers, List.length_append, List.length_singleton, List.range_succ]
  rfl

theorem forall_mem_append_singleton {α : Type} {P : α → Prop} {l : List α} (h : ∀ a ∈ l, P a) {b : α}
    (hb : P b) : ∀ a ∈ l ++ [b], P a := by
  intro a ha
  obtain ha | ha := List.mem_append.1 ha
  · exact h a ha
  · rw [List.mem_singleton.1 ha]
    exact hb

/-- What was called stays called. -/
theorem mem_calling {c callback : Callback} (h : c ∈ w.invoked.map Prod.fst) :
    c ∈ (w.calling callback).invoked.map Prod.fst := by
  rw [calling, List.map_append]
  exact List.mem_append_left _ h

theorem self_mem_calling (callback : Callback) :
    callback ∈ (w.calling callback).invoked.map Prod.fst := by
  rw [calling, List.map_append]
  exact List.mem_append_right _ (List.mem_singleton_self _)

/-- All the callbacks that are still open, after one of them was called. -/
theorem all_calling {l : List Callback} {callback : Callback}
    (hopen : (callback :: l).Perm w.open_) (hall : (w.open_ ++ w.invoked.map Prod.fst).Perm w.registered) :
    (l ++ (w.calling callback).invoked.map Prod.fst).Perm w.registered := by
  rw [calling, List.map_append, ← List.append_assoc]
  refine List.Perm.trans ?_ ((hopen.append_right _).trans hall)
  exact (List.perm_append_singleton _ _)

/-- The counter only moves on with the callbacks that wait for less. -/
theorem Good.wakeup (h : Good w) (hmeets : w.Meets .wakeup) : Good { w with
    wakeup := { gen_ := w.wakeup.gen_+1, callbacks_ := [] }
    calls := w.calls ++ [⟨w.wakeup.callbacks_, w.due⟩] } := by
  have hlater : ∀ c ∈ w.open_, c.generation ≤ w.wakeup.gen_ → c.generation < w.wakeup.gen_+1 := by
    intro c hc hle
    refine lt_succ hle fun hmax => ?_
    rw [hmeets.2 hmax] at hc
    cases hc
  have hcases : ∀ c, c ∈ w.open_ ↔ (c ∈ w.wakeup.callbacks_ ∨ c ∈ w.immediate) ∨
      ∃ call ∈ w.calls, c ∈ call.callbacks := by
    intro c
    rw [open_, List.mem_append, List.mem_append, List.mem_flatMap]
  refine ⟨h.numbers, ?_, List.forall_mem_nil _, ?_, ?_, ?_, h.after, h.by_return⟩
  · refine List.Perm.trans (List.Perm.append_right _ ?_) h.all
    rw [open_, open_, List.flatMap_append, List.flatMap_singleton, List.nil_append,
      List.append_assoc w.wakeup.callbacks_, ← List.append_assoc w.immediate]
    exact List.perm_append_comm
  · intro c hc
    exact hlater c ((hcases c).2 (.inl (.inr hc))) (Int64.le_of_lt (h.immediate_lt c hc))
  · refine forall_mem_append_singleton (fun call hcall c hc => ?_) fun c hc => ?_
    · exact hlater c ((hcases c).2 (.inr ⟨call, hcall, hc⟩)) (Int64.le_of_lt (h.taken_lt call hcall c hc))
    · exact hlater c ((hcases c).2 (.inl (.inl hc))) (hmeets.1 c hc)
  · refine forall_mem_append_singleton h.due_taken fun c hc => ?_
    have hc' := List.mem_filter.1 hc
    have hmem := h.all.mem_iff.2 hc'.1
    have hnot : ¬c.generation < w.wakeup.gen_ := by
      intro hlt
      have hexceeds : w.wakeup.exceeds c.generation = true := decide_eq_true hlt
      simp [hexceeds] at hc'
    obtain hopen | hinvoked := List.mem_append.1 hmem
    · obtain (hwaiting | himmediate) | ⟨call, hcall, htaken⟩ := (hcases c).1 hopen
      · exact .inl hwaiting
      · exact absurd (h.immediate_lt c himmediate) hnot
      · exact absurd (h.taken_lt call hcall c htaken) hnot
    · exact .inr hinvoked

theorem Good.step {a : Action} (h : Good w) (hmeets : w.Meets a) (hstep : w.step a = some v) :
    Good v := by
  cases takes hstep with
  | @now generation hexceeds hv =>
    rw [hv]
    refine ⟨numbers_append h generation, ?_, h.waiting, ?_, h.taken_lt, h.due_taken, h.after,
      h.by_return⟩
    · refine (List.perm_iff_count.2 fun c => ?_).trans (h.all.append_right [w.next generation])
      simp only [open_, List.count_append]
      omega
    · exact forall_mem_append_singleton h.immediate_lt hexceeds
  | @waits generation hle hv =>
    rw [hv]
    refine ⟨numbers_append h generation, ?_, ?_, h.immediate_lt, h.taken_lt, h.due_taken, h.after,
      h.by_return⟩
    · refine (List.perm_iff_count.2 fun c => ?_).trans (h.all.append_right [w.next generation])
      simp only [open_, List.count_append]
      omega
    · exact forall_mem_append_singleton h.waiting hle
  | @immediate i callback hget hv =>
    rw [hv]
    have hmem := List.mem_of_getElem? hget
    refine ⟨h.numbers, all_calling ?_ h.all, h.waiting, Places.forall_mem_eraseIdx h.immediate_lt,
      h.taken_lt, fun call hcall c hc => ?_, ?_, ?_⟩
    · obtain ⟨hi, rfl⟩ := List.getElem?_eq_some_iff.1 hget
      refine List.perm_iff_count.2 fun c => ?_
      have hcount := (List.getElem_cons_eraseIdx_perm hi).count_eq c
      simp only [open_, calling, List.count_append, List.count_cons] at hcount ⊢
      omega
    · exact (h.due_taken call hcall c hc).imp_right mem_calling
    · exact forall_mem_append_singleton h.after (h.immediate_lt callback hmem)
    · exact forall_mem_append_singleton (fun c hc => mem_calling (h.by_return c hc))
        (self_mem_calling callback)
  | wakeup hv =>
    rw [hv]
    exact h.wakeup hmeets
  | @next i callback callbacks due hget hv =>
    rw [hv]
    have hmem := List.mem_of_getElem? hget
    refine ⟨h.numbers, all_calling ?_ h.all, h.waiting, h.immediate_lt, ?_, ?_, ?_, ?_⟩
    · refine List.perm_iff_count.2 fun c => ?_
      have hcount := (Places.flatMap_set_perm WakeupCall.callbacks hget ⟨callbacks, due⟩).count_eq c
      simp only [open_, calling, List.count_append, List.count_cons] at hcount ⊢
      omega
    · refine Places.forall_mem_set h.taken_lt fun c hc => ?_
      exact h.taken_lt _ hmem c (List.mem_cons_of_mem _ hc)
    · refine Places.forall_mem_set (fun call hcall c hc => ?_) fun c hc => ?_
      · exact (h.due_taken call hcall c hc).imp_right mem_calling
      · obtain hopen | hinvoked := h.due_taken _ hmem c hc
        · obtain rfl | hopen := List.mem_cons.1 hopen
          · exact .inr (self_mem_calling _)
          · exact .inl hopen
        · exact .inr (mem_calling hinvoked)
    · exact forall_mem_append_singleton h.after (h.taken_lt _ hmem callback List.mem_cons_self)
    · exact fun c hc => mem_calling (h.by_return c hc)
  | @returns i due hget hv =>
    rw [hv]
    have hmem := List.mem_of_getElem? hget
    refine ⟨h.numbers, ?_, h.waiting, h.immediate_lt, Places.forall_mem_eraseIdx h.taken_lt,
      Places.forall_mem_eraseIdx h.due_taken, h.after, ?_⟩
    · have hperm := Places.flatMap_eraseIdx_perm WakeupCall.callbacks hget
      exact ((hperm.append_left _).append_right _).trans h.all
    · intro c hc
      obtain hc | hc := List.mem_append.1 hc
      · exact h.by_return c hc
      · exact (h.due_taken _ hmem c hc).resolve_left (by simp)

end steps

open Runs in
/-- Where callbacks wait for generations that have been reached, they are called once, above their
generation, and by the calls that are to call them. -/
theorem wakeup_agrees {as : List Action} {w : World} (h : Reaches step Meets {} as w) : Agrees w :=
  (h.invariant Good.init fun _ _ _ hgood hmeets hstep => hgood.step hmeets hstep).agrees

theorem wakeup_agrees_two : ∃ w, Runs.Reaches step Meets {}
    [.onWakeup 0, .wakeup, .onWakeup 1, .onWakeup 0, .wakeup, .callNext 1, .callImmediate 0,
      .callNext 0, .return 0] w ∧ w.invoked = [(⟨1, 1⟩, 2), (⟨2, 0⟩, 2), (⟨0, 0⟩, 2)] ∧
    Agrees w := by
  have hruns : (([.onWakeup 0, .wakeup, .onWakeup 1, .onWakeup 0, .wakeup, .callNext 1,
      .callImmediate 0, .callNext 0, .return 0] : List Action).foldlM (Runs.guarded step Meets)
      {}).map invoked = some [(⟨1, 1⟩, 2), (⟨2, 0⟩, 2), (⟨0, 0⟩, 2)] := by decide +kernel
  obtain ⟨w, hrun, hinvoked⟩ := Runs.exists_of_foldlM _ hruns
  exact ⟨w, hrun, hinvoked, wakeup_agrees hrun⟩

/-- A callback for a later generation is called by the next `wakeup` all the same. -/
theorem called_too_early : ¬∀ as w, Runs.Run step {} as w → Agrees w := by
  intro h
  have hruns : (([.onWakeup 5, .wakeup, .callNext 0] : List Action).foldlM
      (Runs.guarded step fun _ _ => True) {}).map invoked = some [(⟨0, 5⟩, 1)] := by decide +kernel
  obtain ⟨w, hrun, hinvoked⟩ := Runs.exists_of_foldlM _ hruns
  have hafter := (h _ w hrun).after (⟨0, 5⟩, 1) (by rw [hinvoked]; exact List.mem_singleton_self _)
  exact absurd hafter (by decide)

end World

end Wakeup
end Stx.Thread
