import Stx.Thread.Future
import Mathlib.Data.List.Perm.Basic

/-! Which of the functions that are registered on a promise are called. -/
namespace Stx.Future
variable {κ υ : Type}

/-- What a registration asks for, once the promise is fulfilled with `o`. -/
def Outcome.call : Outcome υ → Registration κ → Option (Call κ υ)
  | .success value, .onSuccess fn => some ⟨fn, .value value⟩
  | .failure status, .onFailure fn => some ⟨fn, .status status⟩
  | _, .onReady fn => some ⟨fn, .nothing⟩
  | _, _ => none

/-- A failure has the status of an error. -/
def Outcome.Proper : Outcome υ → Prop
  | .success _ => True
  | .failure status => status.isError = true

def Registration.isOnReady : Registration κ → Bool
  | .onReady _ => true
  | _ => false

/-- The calls that the registrations ask for. -/
def expected (f : Future κ υ) : List (Call κ υ) :=
  match f.outcome with
  | none => []
  | some o => (f.early ++ f.late).filterMap o.call

/-- At most one of the registrations on the pending promise asks for a call, and a failure has the
status of an error unless only `onReady` is called behind it. -/
def Exclusive (f : Future κ υ) : Prop :=
  ∀ o, f.outcome = some o → (f.early.filterMap o.call).length ≤ 1 ∧
    (o.Proper ∨ ∀ r ∈ f.late, r.isOnReady = true)

/-- The calls that a registration on the fulfilled promise makes at once. -/
def Outcome.late : Outcome υ → Registration κ → List (Call κ υ)
  | .success value, r => ((Outcome.success value).call r).toList
  | .failure status, r =>
    if status.isError then ((Outcome.failure status).call r).toList
    else match r with
      | .onSuccess fn => [⟨fn, .null⟩]
      | .onFailure _ => []
      | .onReady fn => [⟨fn, .nothing⟩]

/-- The promise was fulfilled with `o`. -/
def Outcome.Of (o : Outcome υ) (s : PromiseState κ υ) : Prop :=
  s.ready = true ∧
    match o with
    | .success value => s.status.isSuccess = true ∧ s.value = some value
    | .failure status => s.status = status ∧ s.value = none

/-- The slots hold the last of the registrations that ask for a call. -/
structure Good (f : Future κ υ) : Prop where
  slots : ∀ o, f.state.invoke o = (f.early.filterMap o.call).getLast?.toList
  pending : f.outcome = none → f.state.ready = false ∧ f.state.status.isSuccess = true ∧
    f.state.value = none ∧ f.calls = [] ∧ f.late = [] ∧ f.returned = false
  fulfilled : ∀ o, f.outcome = some o → o.Of f.state ∧
    f.calls.Perm ((if f.returned then f.state.invoke o else []) ++ f.late.flatMap o.late)

section steps
variable {f g : Future κ υ} {s t : PromiseState κ υ} {o : Outcome υ} {r : Registration κ}

theorem isError_eq_not (s : Status) : s.isError = !s.isSuccess := by
  simp [Status.isError, Status.isSuccess]

/-- A registration on a pending promise makes no call, and takes the slots that it asks for. -/
theorem register_pending (h : s.ready = false) :
    (s.register r).1 = [] ∧ (s.register r).2.ready = false ∧ (s.register r).2.status = s.status ∧
      (s.register r).2.value = s.value ∧
      ∀ o : Outcome υ, (s.register r).2.invoke o = (o.call r).elim (s.invoke o) fun c => [c] := by
  cases r with
  | onSuccess fn =>
    simp only [PromiseState.register, PromiseState.onSuccess, h]
    exact ⟨rfl, rfl, rfl, rfl, fun o => by cases o <;> rfl⟩
  | onFailure fn =>
    simp only [PromiseState.register, PromiseState.onFailure, h]
    exact ⟨rfl, rfl, rfl, rfl, fun o => by cases o <;> rfl⟩
  | onReady fn =>
    simp only [PromiseState.register, PromiseState.onReady, h]
    exact ⟨rfl, rfl, rfl, rfl, fun o => by cases o <;> rfl⟩

/-- A registration on a fulfilled promise leaves it alone. -/
theorem register_fulfilled (h : o.Of s) : s.register r = (o.late r, s) := by
  obtain ⟨hready, hof⟩ := h
  cases o with
  | success value =>
    obtain ⟨hsuccess, hvalue⟩ := hof
    cases r <;>
      simp [PromiseState.register, PromiseState.onSuccess, PromiseState.onFailure,
        PromiseState.onReady, hready, hsuccess, hvalue, isError_eq_not, Outcome.late, Outcome.call]
  | failure status =>
    obtain ⟨rfl, hvalue⟩ := hof
    cases hsuccess : s.status.isSuccess <;> cases r <;>
      simp [PromiseState.register, PromiseState.onSuccess, PromiseState.onFailure,
        PromiseState.onReady, hready, hsuccess, hvalue, isError_eq_not, Outcome.late, Outcome.call]

theorem Good.register (hf : f.Good) (h : f.step (.register r) = some g) : g.Good := by
  unfold step at h
  dsimp only at h
  cases ho : f.outcome with
  | none =>
    obtain ⟨hready, hstatus, hvalue, hcalls, hlate, hreturned⟩ := hf.pending ho
    obtain ⟨hnone, hready', hstatus', hvalue', hinvoke⟩ := register_pending (r := r) hready
    rw [if_neg (by rw [hready]; simp)] at h
    cases h
    refine ⟨fun o => ?_, fun _ => ?_, fun o heq => ?_⟩
    · change (f.state.register r).2.invoke o = _
      rw [hinvoke, List.filterMap_append, hf.slots]
      cases hcall : o.call r with
      | none => simp [hcall]
      | some c => simp [hcall]
    · refine ⟨hready', ?_, hvalue'.trans hvalue, ?_, hlate, hreturned⟩
      · change (f.state.register r).2.status.isSuccess = true
        rw [hstatus', hstatus]
      · change f.calls ++ (f.state.register r).1 = []
        rw [hnone, hcalls]
        rfl
    · exact absurd (ho.symm.trans heq) (by simp)
  | some o =>
    obtain ⟨hof, hperm⟩ := hf.fulfilled o ho
    rw [register_fulfilled hof] at h
    rw [if_pos hof.1] at h
    cases h
    refine ⟨hf.slots, fun heq => ?_, fun o' heq => ?_⟩
    · exact absurd (ho.symm.trans heq) (by simp)
    · obtain rfl : o = o' := Option.some.inj (ho.symm.trans heq)
      refine ⟨hof, ?_⟩
      rw [List.flatMap_append, ← List.append_assoc, List.flatMap_singleton]
      exact hperm.append_right _

theorem Good.fulfill (hf : f.Good) (h : f.step (.fulfill o) = some g) : g.Good := by
  unfold step at h
  dsimp only at h
  cases hready : f.state.ready with
  | true =>
    have hraise : f.state.fulfill o = Result.RAISE .futureError "promise was already fulfilled" := by
      cases o <;> simp [PromiseState.fulfill, PromiseState.success, PromiseState.failure, hready]
    rw [hraise] at h
    cases h
    exact ⟨hf.slots, hf.pending, hf.fulfilled⟩
  | false =>
    have hnone : f.outcome = none := by
      cases ho : f.outcome with
      | none => rfl
      | some o' => exact absurd (hf.fulfilled o' ho).1.1 (by simp [hready])
    obtain ⟨-, hstatus, hvalue, hcalls, hlate, hreturned⟩ := hf.pending hnone
    have hok : ∃ t, f.state.fulfill o = .ok t ∧ o.Of t ∧ ∀ o', t.invoke o' = f.state.invoke o' := by
      cases o with
      | success value =>
        refine ⟨{ f.state with value := some value, ready := true }, ?_, ⟨rfl, hstatus, rfl⟩, ?_⟩
        · simp [PromiseState.fulfill, PromiseState.success, hready]
        · exact fun o' => by cases o' <;> rfl
      | failure status =>
        refine ⟨{ f.state with status := status, ready := true }, ?_, ⟨rfl, rfl, hvalue⟩, ?_⟩
        · simp [PromiseState.fulfill, PromiseState.failure, hready]
        · exact fun o' => by cases o' <;> rfl
    obtain ⟨t, ht, hof, hinvoke⟩ := hok
    rw [ht] at h
    cases h
    refine ⟨fun o' => (hinvoke o').trans (hf.slots o'), fun heq => (by cases heq), fun o' heq => ?_⟩
    cases heq
    refine ⟨hof, ?_⟩
    simp [hcalls, hlate, hreturned]

theorem Good.invoke (hf : f.Good) (h : f.step .invoke = some g) : g.Good := by
  unfold step at h
  dsimp only at h
  split at h
  · next o ho hreturned =>
    cases h
    refine ⟨hf.slots, fun heq => ?_, fun o' heq => ?_⟩
    · exact absurd (ho.symm.trans heq) (by simp)
    · obtain rfl : o = o' := Option.some.inj (ho.symm.trans heq)
      obtain ⟨hof, hperm⟩ := hf.fulfilled o ho
      refine ⟨hof, ?_⟩
      rw [hreturned] at hperm
      exact (hperm.append_right _).trans List.perm_append_comm
  · cases h

theorem good_of_run {as : List (Action κ υ)} (h : Runs.Run step {} as f) : f.Good := by
  refine Runs.Reaches.invariant (P := Good) h ?_ ?_
  · exact ⟨fun o => by cases o <;> rfl, fun _ => ⟨rfl, rfl, rfl, rfl, rfl, rfl⟩,
      fun o ho => by cases ho⟩
  · intro f a g hf _ hstep
    cases a with
    | register r => exact hf.register hstep
    | fulfill o => exact hf.fulfill hstep
    | invoke => exact hf.invoke hstep

end steps

section counting
variable {f : Future κ υ} {o : Outcome υ}

theorem late_eq_call {r : Registration κ} (h : o.Proper ∨ r.isOnReady = true) :
    o.late r = (o.call r).toList := by
  cases o with
  | success value => cases r <;> rfl
  | failure status =>
    cases hstatus : status.isError with
    | true => simp [Outcome.late, hstatus]
    | false =>
      cases h with
      | inl hproper => exact absurd (hstatus.symm.trans hproper) (by simp)
      | inr hready =>
        cases r with
        | onReady fn => simp [Outcome.late, hstatus, Outcome.call]
        | onSuccess fn | onFailure fn => cases hready

theorem flatMap_late {l : List (Registration κ)} (h : o.Proper ∨ ∀ r ∈ l, r.isOnReady = true) :
    l.flatMap o.late = l.filterMap o.call := by
  rw [List.filterMap_eq_flatMap_toList, List.flatMap_def, List.flatMap_def]
  refine congrArg List.flatten (List.map_congr_left fun r hr => ?_)
  exact late_eq_call (h.imp_right fun hall => hall r hr)

/-- Behind a failure that is no error, registrations of functions for a value are answered without one,
and those for a status not at all. -/
theorem length_flatMap_late {l : List (Registration κ)} (h : ¬o.Proper)
    (hnull : ∀ fn, ⟨fn, .null⟩ ∉ l.flatMap o.late) :
    (l.flatMap o.late).length ≤ (l.filterMap o.call).length ∧
      ((l.flatMap o.late).length = (l.filterMap o.call).length → ∀ r ∈ l, r.isOnReady = true) := by
  cases o with
  | success value => exact absurd trivial h
  | failure status =>
    have hstatus : status.isError = false := Bool.eq_false_iff.2 h
    induction l with
    | nil => exact ⟨Nat.le_refl 0, fun _ _ hr => by cases hr⟩
    | cons r l ih =>
      let o : Outcome υ := .failure status
      rw [List.flatMap_cons] at hnull ⊢
      obtain ⟨hle, hall⟩ := ih fun fn hfn => hnull fn (List.mem_append_right _ hfn)
      cases r with
      | onSuccess fn =>
        have hmem : ⟨fn, .null⟩ ∈ o.late (.onSuccess fn) := by simp [o, Outcome.late, hstatus]
        exact absurd (List.mem_append_left _ hmem) (hnull fn)
      | onFailure fn =>
        have hlate : o.late (.onFailure fn) = [] := by simp [o, Outcome.late, hstatus]
        rw [hlate, List.nil_append, List.filterMap_cons]
        simp only [Outcome.call, List.length_cons]
        exact ⟨by omega, fun heq => by omega⟩
      | onReady fn =>
        have hlate : o.late (.onReady fn) = [⟨fn, .nothing⟩] := by simp [o, Outcome.late, hstatus]
        rw [hlate, List.singleton_append, List.filterMap_cons]
        simp only [Outcome.call, List.length_cons]
        exact ⟨by omega, fun heq => List.forall_mem_cons.2 ⟨rfl, hall (by omega)⟩⟩

theorem null_not_mem_filterMap (o : Outcome υ) (l : List (Registration κ)) (fn : κ) :
    ⟨fn, .null⟩ ∉ l.filterMap o.call := by
  intro h
  obtain ⟨r, -, hr⟩ := List.mem_filterMap.1 h
  cases o <;> cases r <;> simp [Outcome.call] at hr

/-- Of the calls that the registrations on the pending promise ask for, one is left. -/
theorem length_getLast? {α : Type} (l : List α) : l.getLast?.toList.length = min 1 l.length := by
  cases l with
  | nil => rfl
  | cons a l =>
    rw [List.getLast?_eq_getLast_of_ne_nil (List.cons_ne_nil a l)]
    simp

theorem getLast?_of_length_le {α : Type} {l : List α} (h : l.length ≤ 1) : l.getLast?.toList = l := by
  match l, h with
  | [], _ => rfl
  | [a], _ => rfl

/-- When the call that fulfilled the promise has returned, every function that was registered for the
outcome has been called exactly once and no other, if and only if the registrations were exclusive. -/
theorem callbacks_exactly_once_iff {as : List (Action κ υ)} (h : Runs.Run step {} as f)
    (hreturned : f.returned = true) : f.calls.Perm f.expected ↔ f.Exclusive := by
  have hgood := good_of_run h
  obtain ⟨o, ho⟩ : ∃ o, f.outcome = some o := by
    cases ho : f.outcome with
    | none => exact absurd hreturned (by simp [(hgood.pending ho).2.2.2.2.2])
    | some o => exact ⟨o, rfl⟩
  obtain ⟨-, hcalls⟩ := hgood.fulfilled o ho
  rw [hreturned, if_pos rfl, hgood.slots] at hcalls
  have hexpected : f.expected = f.early.filterMap o.call ++ f.late.filterMap o.call := by
    rw [expected, ho]
    exact List.filterMap_append
  have hexclusive : f.Exclusive ↔ (f.early.filterMap o.call).length ≤ 1 ∧
      (o.Proper ∨ ∀ r ∈ f.late, r.isOnReady = true) := by
    refine ⟨fun hex => hex o ho, fun hex o' heq => ?_⟩
    obtain rfl : o = o' := Option.some.inj (ho.symm.trans heq)
    exact hex
  rw [hexclusive, hexpected]
  constructor
  · intro hperm
    have hlate := hcalls.symm.trans hperm
    have hlen := hlate.length_eq
    rw [List.length_append, List.length_append, length_getLast?] at hlen
    by_cases hproper : o.Proper
    · rw [flatMap_late (.inl hproper)] at hlen
      exact ⟨by omega, .inl hproper⟩
    · have hnull : ∀ fn, ⟨fn, .null⟩ ∉ f.late.flatMap o.late := by
        intro fn hfn
        have hmem := hlate.mem_iff.1 (List.mem_append_right _ hfn)
        rw [← List.filterMap_append] at hmem
        exact null_not_mem_filterMap o _ fn hmem
      obtain ⟨hle, hall⟩ := length_flatMap_late hproper hnull
      exact ⟨by omega, .inr (hall (by omega))⟩
  · intro hex
    rw [getLast?_of_length_le hex.1, flatMap_late hex.2] at hcalls
    exact hcalls

/-- The second of two functions takes the slot of the first. -/
theorem onSuccess_overwritten :
    ∃ f : Future Nat Nat, Runs.Run step {} [.register (.onSuccess 0), .register (.onReady 1),
        .fulfill (.success 7), .invoke] f ∧
      f.returned = true ∧ f.calls = [⟨1, .nothing⟩] ∧
      ¬f.calls.Perm f.expected := by
  have hruns : (([.register (.onSuccess 0), .register (.onReady 1), .fulfill (.success 7), .invoke] :
      List (Action Nat Nat)).foldlM (Runs.guarded step fun _ _ => True) {}).map
      (fun f => (f.returned, f.calls, f.expected)) =
      some (true, [⟨1, .nothing⟩], [⟨0, .value 7⟩, ⟨1, .nothing⟩]) := by decide +kernel
  obtain ⟨f, hrun, hend⟩ := Runs.exists_of_foldlM _ hruns
  simp only [Prod.mk.injEq] at hend
  obtain ⟨hreturned, hcalls, hexpected⟩ := hend
  refine ⟨f, hrun, hreturned, hcalls, fun hperm => ?_⟩
  rw [hcalls, hexpected] at hperm
  exact absurd hperm.length_eq (by decide)

/-- One function is registered before the promise is fulfilled, and others race with the call of it. -/
theorem callbacks_exactly_once_iff_race :
    ∃ f : Future Nat Nat, Runs.Run step {} [.register (.onFailure 0), .register (.onSuccess 1),
        .fulfill (.success 7), .register (.onReady 2), .invoke, .register (.onSuccess 3)] f ∧
      f.returned = true ∧ (f.calls.Perm f.expected ↔ f.Exclusive) := by
  have hruns : (([.register (.onFailure 0), .register (.onSuccess 1), .fulfill (.success 7),
      .register (.onReady 2), .invoke, .register (.onSuccess 3)] : List (Action Nat Nat)).foldlM
      (Runs.guarded step fun _ _ => True) {}).map (fun f => f.returned) = some true := by
    decide +kernel
  obtain ⟨f, hrun, hreturned⟩ := Runs.exists_of_foldlM _ hruns
  exact ⟨f, hrun, hreturned, callbacks_exactly_once_iff hrun hreturned⟩

end counting

end Stx.Future
