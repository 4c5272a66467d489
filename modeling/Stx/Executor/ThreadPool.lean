import Stx.Base
import Stx.Lib.Runs
import Stx.Lib.Places

/-! `executor/ThreadPool.{h,cc}`: `execute`, `wait` and the workers of a pool that is not stopped. The
sections under `mutex_` and what a worker does behind its section are the steps, and a thread in
`condition_.wait` may look at its predicate at any time. -/
namespace Stx.Executor

/-- Where a worker is: at its `condition_.wait`, behind its section with a task, behind
`activeTasks_++`, and behind the call of the task. A task is the number of its `execute` call. -/
inductive Worker where
  | waits
  | popped (task : Nat)
  | counted (task : Nat)
  | called
  deriving DecidableEq

/-- The task that is not finished. -/
def Worker.tasks : Worker → List Nat
  | .popped task => [task]
  | .counted task => [task]
  | _ => []

/-- Between `activeTasks_++` and `activeTasks_--`. -/
def Worker.isActive : Worker → Bool
  | .counted _ => true
  | .called => true
  | _ => false

structure ThreadPool where
  threads_ : List Worker
  pendingTasks_ : List Nat := []
  activeTasks_ : UInt64 := 0
  deriving DecidableEq

namespace ThreadPool

def create (num_threads : UInt64) : ThreadPool :=
  { threads_ := List.replicate num_threads.toNat .waits }

def execute (p : ThreadPool) (task : Nat) : ThreadPool :=
  { p with pendingTasks_ := p.pendingTasks_ ++ [task] }

/-- The test of `wait`. -/
def idle (p : ThreadPool) : Bool := p.pendingTasks_.isEmpty && p.activeTasks_ == 0

/-- The next step of the worker `i`, and the task that it has finished with it. -/
def work (p : ThreadPool) (i : Nat) : Option (ThreadPool × Option Nat) :=
  match p.threads_[i]? with
  | some .waits =>
    match p.pendingTasks_ with
    | [] => none
    | task :: rest =>
      some ({ p with threads_ := p.threads_.set i (.popped task), pendingTasks_ := rest }, none)
  | some (.popped task) =>
    some ({ p with threads_ := p.threads_.set i (.counted task), activeTasks_ := p.activeTasks_+1 },
      none)
  | some (.counted task) => some ({ p with threads_ := p.threads_.set i .called }, some task)
  | some .called =>
    some ({ p with threads_ := p.threads_.set i .waits, activeTasks_ := p.activeTasks_-1 }, none)
  | none => none

/-- What a step of a worker can be. -/
inductive Works (p : ThreadPool) (i : Nat) : ThreadPool → Option Nat → Prop
  | pops {task : Nat} {rest : List Nat} (ht : p.threads_[i]? = some .waits)
    (hpending : p.pendingTasks_ = task :: rest) :
    Works p i { p with threads_ := p.threads_.set i (.popped task), pendingTasks_ := rest } none
  | counts {task : Nat} (ht : p.threads_[i]? = some (.popped task)) :
    Works p i
      { p with threads_ := p.threads_.set i (.counted task), activeTasks_ := p.activeTasks_+1 } none
  | calls {task : Nat} (ht : p.threads_[i]? = some (.counted task)) :
    Works p i { p with threads_ := p.threads_.set i .called } (some task)
  | leaves (ht : p.threads_[i]? = some .called) :
    Works p i { p with threads_ := p.threads_.set i .waits, activeTasks_ := p.activeTasks_-1 } none

theorem works_of_work {p q : ThreadPool} {i : Nat} {task : Option Nat}
    (h : p.work i = some (q, task)) : p.Works i q task := by
  rw [work] at h
  split at h
  next ht =>
    split at h
    · cases h
    next hpending =>
      cases h
      exact .pops ht hpending
  next ht =>
    cases h
    exact .counts ht
  next ht =>
    cases h
    exact .calls ht
  next ht =>
    cases h
    exact .leaves ht
  · cases h

/-- A `wait` that has returned: the tasks whose `execute` had returned when it was called, and those
that were finished when it returned. -/
structure Waited where
  before : List Nat
  finished : List Nat
  deriving DecidableEq

/-- The pool and its callers. `waits` has for each call of `wait` the tasks before it. -/
structure World where
  pool : ThreadPool
  executed : Nat := 0
  returned : List Nat := []
  finished : List Nat := []
  waits : List (List Nat) := []
  waited : List Waited := []
  deriving DecidableEq

/-- `execute` is its section, and `return` the rest of the call. -/
inductive Action where
  | execute
  | return (task : Nat)
  | wait
  | test (i : Nat)
  | work (i : Nat)
  deriving DecidableEq

namespace World

def init (num_threads : UInt64) : World := { pool := create num_threads }

/-- The `wait` at the place `i` looks at its predicate, and returns if it is met. -/
def test (w : World) (i : Nat) (before : List Nat) : World :=
  if w.pool.idle then
    { w with waits := w.waits.eraseIdx i, waited := w.waited ++ [⟨before, w.finished⟩] }
  else w

def step (w : World) : Action → Option World
  | .execute => some { w with pool := w.pool.execute w.executed, executed := w.executed+1 }
  | .return task =>
    if task < w.executed ∧ task ∉ w.returned then some { w with returned := w.returned ++ [task] }
    else none
  | .wait => some { w with waits := w.waits ++ [w.returned] }
  | .test i => (w.waits[i]?).map (w.test i)
  | .work i =>
    match w.pool.work i with
    | some (pool, task) => some { w with pool := pool, finished := w.finished ++ task.toList }
    | none => none

/-- When a `wait` returned, every task before it was finished. -/
def WaitsForAll (w : World) : Prop := ∀ r ∈ w.waited, ∀ task ∈ r.before, task ∈ r.finished

/-- When the test of a `wait` succeeds, no worker has a task from before it and has not counted it
yet. -/
def Meets (w : World) : Action → Prop
  | .test i => w.pool.idle → ∀ before ∈ w.waits[i]?, ∀ task ∈ before,
      Worker.popped task ∉ w.pool.threads_
  | _ => True

instance (w : World) : (a : Action) → Decidable (w.Meets a)
  | .test i => inferInstanceAs (Decidable (w.pool.idle → ∀ before ∈ w.waits[i]?, ∀ task ∈ before,
      Worker.popped task ∉ w.pool.threads_))
  | .execute | .return _ | .wait | .work _ => inferInstanceAs (Decidable True)

/-- What links the queue, the counter and the workers in every interleaving. -/
structure Good (w : World) : Prop where
  all : (w.pool.pendingTasks_ ++ w.pool.threads_.flatMap Worker.tasks ++ w.finished).Perm
    (List.range w.executed)
  active : w.pool.activeTasks_.toNat = w.pool.threads_.countP Worker.isActive
  size : w.pool.threads_.length < 2^64
  returned : ∀ task ∈ w.returned, task < w.executed
  waits : ∀ before ∈ w.waits, ∀ task ∈ before, task < w.executed

section steps
variable {w u : World}

theorem Good.init (num_threads : UInt64) : (init num_threads).Good where
  all := by
    have hnone : (List.replicate num_threads.toNat Worker.waits).flatMap Worker.tasks = [] := by
      rw [List.flatMap_eq_nil_iff]
      intro worker hmem
      rw [List.eq_of_mem_replicate hmem]
      rfl
    rw [World.init, create, hnone]
    exact .nil
  active := by
    rw [World.init, create, List.countP_replicate]
    rfl
  size := by
    rw [World.init, create, List.length_replicate]
    exact num_threads.toNat_lt
  returned := List.forall_mem_nil _
  waits := List.forall_mem_nil _

/-- A worker moves on, and what it has in hand comes from the queue or is finished. -/
theorem all_set {threads : List Worker} {i : Nat} {a b : Worker}
    {pending pending' finished finished' : List Nat} (ht : threads[i]? = some a)
    (hmoves : (pending' ++ b.tasks ++ finished').Perm (pending ++ a.tasks ++ finished)) :
    (pending' ++ (threads.set i b).flatMap Worker.tasks ++ finished').Perm
      (pending ++ threads.flatMap Worker.tasks ++ finished) := by
  refine List.perm_iff_count.2 fun c => ?_
  have hplace := (Places.flatMap_set_perm Worker.tasks ht b).count_eq c
  have hmoves := hmoves.count_eq c
  simp only [List.count_append] at hplace hmoves ⊢
  omega

theorem Good.work {i : Nat} {pool : ThreadPool} {task : Option Nat} (h : w.Good)
    (hworks : w.pool.Works i pool task) :
    World.Good { w with pool := pool, finished := w.finished ++ task.toList } := by
  have hall := h.all
  have hsize := h.size
  have hactive := h.active
  cases hworks with
  | @pops task rest ht hpending =>
    rw [hpending] at hall
    have hcount := Places.countP_set_add Worker.isActive ht (.popped task)
    refine ⟨(all_set ht ?_).trans hall, hactive.trans hcount.symm, ?_, h.returned, h.waits⟩
    · refine List.perm_iff_count.2 fun c => ?_
      simp only [Worker.tasks, Option.toList_none, List.count_append, List.count_cons,
        List.count_nil]
      omega
    · rwa [List.length_set]
  | @counts task ht =>
    have hcount := Places.countP_set_add Worker.isActive ht (.counted task)
    have hle : (w.pool.threads_.set i (.counted task)).countP Worker.isActive ≤
        (w.pool.threads_.set i (.counted task)).length := List.countP_le_length
    rw [List.length_set] at hle
    refine ⟨(all_set ht ?_).trans hall, ?_, ?_, h.returned, h.waits⟩
    · rw [Option.toList_none, List.append_nil]
      exact .refl _
    · change (w.pool.activeTasks_+1).toNat = _
      rw [UInt64.toNat_add, hactive]
      change _ = _ + 1 at hcount
      refine (Nat.mod_eq_of_lt ?_).trans hcount.symm
      exact hcount ▸ Nat.lt_of_le_of_lt hle hsize
    · rwa [List.length_set]
  | @calls task ht =>
    have hcount := Places.countP_set_add Worker.isActive ht .called
    refine ⟨(all_set ht ?_).trans hall, hactive.trans (Nat.add_right_cancel hcount).symm, ?_,
      h.returned, h.waits⟩
    · refine List.perm_iff_count.2 fun c => ?_
      simp only [Worker.tasks, Option.toList_some, List.count_append, List.count_nil]
      omega
    · rwa [List.length_set]
  | leaves ht =>
    have hcount := Places.countP_set_add Worker.isActive ht .waits
    change _ + 1 = _ at hcount
    have hle : 1 ≤ w.pool.activeTasks_ := by
      rw [UInt64.le_iff_toNat_le, hactive]
      exact (Nat.le_add_left 1 _).trans_eq hcount
    refine ⟨(all_set ht ?_).trans hall, ?_, ?_, h.returned, h.waits⟩
    · rw [Option.toList_none, List.append_nil]
      exact .refl _
    · change (w.pool.activeTasks_-1).toNat = _
      rw [UInt64.toNat_sub_of_le _ _ hle, hactive]
      exact Nat.sub_eq_of_eq_add hcount.symm
    · rwa [List.length_set]

theorem Good.step {a : Action} (h : w.Good) (hstep : w.step a = some u) : u.Good := by
  cases a with
  | execute =>
    cases hstep
    refine ⟨?_, h.active, h.size, fun task hmem => Nat.lt_succ_of_lt (h.returned task hmem),
      fun before hbefore task hmem => Nat.lt_succ_of_lt (h.waits before hbefore task hmem)⟩
    refine (List.perm_iff_count.2 fun c => ?_).trans
      ((h.all.append_right [w.executed]).trans (.of_eq List.range_succ.symm))
    simp only [ThreadPool.execute, List.count_append]
    omega
  | «return» task =>
    obtain ⟨⟨hlt, -⟩, heq⟩ := Option.ite_none_right_eq_some.1 hstep
    cases heq
    refine ⟨h.all, h.active, h.size, fun task' hmem => ?_, h.waits⟩
    obtain hmem | hmem := List.mem_append.1 hmem
    · exact h.returned task' hmem
    · rwa [List.mem_singleton.1 hmem]
  | wait =>
    cases hstep
    refine ⟨h.all, h.active, h.size, h.returned, fun before hmem => ?_⟩
    obtain hmem | hmem := List.mem_append.1 hmem
    · exact h.waits before hmem
    · rw [List.mem_singleton.1 hmem]
      exact h.returned
  | test i =>
    obtain ⟨before, -, heq⟩ := Option.map_eq_some_iff.1 hstep
    rw [test] at heq
    split at heq
    · cases heq
      exact ⟨h.all, h.active, h.size, h.returned, Places.forall_mem_eraseIdx h.waits⟩
    · cases heq
      exact h
  | work i =>
    rw [World.step] at hstep
    split at hstep
    next pool task hwork =>
      cases hstep
      exact h.work (works_of_work hwork)
    · cases hstep

/-- Where the test of a `wait` succeeds, a task is finished unless a worker has not counted it. -/
theorem Good.finished_iff {task : Nat} (h : w.Good) (hidle : w.pool.idle) (hlt : task < w.executed) :
    task ∈ w.finished ↔ Worker.popped task ∉ w.pool.threads_ := by
  rw [idle, Bool.and_eq_true, List.isEmpty_iff, beq_iff_eq] at hidle
  obtain ⟨hpending, hzero⟩ := hidle
  have hall := h.all
  rw [hpending, List.nil_append] at hall
  have hnone : ∀ worker ∈ w.pool.threads_, worker.isActive = false := by
    have hcount := h.active
    rw [hzero] at hcount
    intro worker hmem
    exact Bool.eq_false_iff.2 (List.countP_eq_zero.1 hcount.symm worker hmem)
  constructor
  · intro hfinished hpopped
    have hnodup := hall.nodup_iff.2 List.nodup_range
    have hhand : task ∈ w.pool.threads_.flatMap Worker.tasks :=
      List.mem_flatMap.2 ⟨_, hpopped, List.mem_singleton_self task⟩
    exact List.disjoint_of_nodup_append hnodup hhand hfinished
  · intro hnot
    obtain hhand | hfinished := List.mem_append.1 (hall.mem_iff.2 (List.mem_range.2 hlt))
    · obtain ⟨worker, hworker, hmem⟩ := List.mem_flatMap.1 hhand
      cases worker with
      | waits | called => cases hmem
      | popped task' =>
        obtain rfl := List.mem_singleton.1 hmem
        exact absurd hworker hnot
      | counted task' => exact nomatch (hnone _ hworker : true = false)
    · exact hfinished

/-- A `wait` returns only with a test that succeeds. -/
theorem waited_of_step {a : Action} (hstep : w.step a = some u) :
    (w.Meets a ∧ u.waited = w.waited) ∨ ∃ i before, a = .test i ∧ w.pool.idle ∧
      w.waits[i]? = some before ∧ u.waited = w.waited ++ [⟨before, w.finished⟩] := by
  cases a with
  | execute | wait =>
    cases hstep
    exact .inl ⟨trivial, rfl⟩
  | «return» task =>
    obtain ⟨-, heq⟩ := Option.ite_none_right_eq_some.1 hstep
    cases heq
    exact .inl ⟨trivial, rfl⟩
  | test i =>
    obtain ⟨before, hbefore, heq⟩ := Option.map_eq_some_iff.1 hstep
    rw [test] at heq
    split at heq
    next hidle =>
      cases heq
      exact .inr ⟨i, before, rfl, hidle, hbefore, rfl⟩
    next hbusy =>
      cases heq
      exact .inl ⟨fun hidle => absurd hidle hbusy, rfl⟩
  | work i =>
    rw [World.step] at hstep
    split at hstep
    · cases hstep
      exact .inl ⟨trivial, rfl⟩
    · cases hstep

/-- What a `wait` has left undone stays so. -/
theorem WaitsForAll.of_step {a : Action} (hu : u.WaitsForAll) (hstep : w.step a = some u) :
    w.WaitsForAll := by
  intro r hr
  refine hu r ?_
  obtain ⟨-, heq⟩ | ⟨i, before, -, -, -, heq⟩ := waited_of_step hstep
  · rwa [heq]
  · rw [heq]
    exact List.mem_append_left _ hr

/-- A step leaves the waits right exactly if it meets the condition. -/
theorem waitsForAll_iff_meets {a : Action} (h : w.Good) (hw : w.WaitsForAll)
    (hstep : w.step a = some u) : u.WaitsForAll ↔ w.Meets a := by
  obtain ⟨hmeets, heq⟩ | ⟨i, before, rfl, hidle, hbefore, heq⟩ := waited_of_step hstep
  · refine iff_of_true (fun r hr => hw r ?_) hmeets
    rwa [heq] at hr
  · have hlt := h.waits before (List.mem_of_getElem? hbefore)
    have hmeets : w.Meets (.test i) ↔ ∀ task ∈ before, task ∈ w.finished := by
      constructor
      · intro hmeets task hmem
        exact (h.finished_iff hidle (hlt task hmem)).2 (hmeets hidle before hbefore task hmem)
      · intro hall _ before' hbefore' task hmem
        obtain rfl := Option.some.inj (hbefore.symm.trans hbefore')
        exact (h.finished_iff hidle (hlt task hmem)).1 (hall task hmem)
    rw [hmeets, WaitsForAll, heq]
    constructor
    · intro hu
      exact hu _ (List.mem_append_right _ (List.mem_singleton_self _))
    · intro hall r hr
      obtain hr | hr := List.mem_append.1 hr
      · exact hw r hr
      · rw [List.mem_singleton.1 hr]
        exact hall

end steps

section runs
open Runs
variable {num_threads : UInt64} {as : List Action} {w : World}

theorem good_of_run (h : Run step (init num_threads) as w) : w.Good :=
  h.invariant (Good.init num_threads) fun _ _ _ hgood _ hstep => hgood.step hstep

/-- Every `wait` that has returned has waited for all tasks before it, if and only if at no successful
test a worker held one of them that it had not counted. -/
theorem wait_for_all_iff (h : Run step (init num_threads) as w) :
    w.WaitsForAll ↔ Reaches step Meets (init num_threads) as w := by
  constructor
  · intro hw
    refine Reaches.of_run h hw (fun _ _ _ _ _ hstep hu => hu.of_step hstep) ?_
    intro as t a u hrun hstep hu
    exact (waitsForAll_iff_meets (good_of_run hrun.run) (hu.of_step hstep) hstep).1 hu
  · intro hreaches
    have hboth : w.Good ∧ w.WaitsForAll := by
      refine hreaches.invariant (P := fun w => w.Good ∧ w.WaitsForAll)
        ⟨Good.init num_threads, List.forall_mem_nil _⟩ ?_
      rintro t a u ⟨hgood, hwaits⟩ hmeets hstep
      exact ⟨hgood.step hstep, (waitsForAll_iff_meets hgood hwaits hstep).2 hmeets⟩
    exact hboth.2

end runs

theorem wait_for_all_two : ∃ w, Runs.Run step (init 2)
      [.execute, .return 0, .execute, .work 0, .work 0, .wait, .work 1, .test 0, .work 0, .work 1,
        .work 1, .work 0, .return 1, .work 1, .test 0] w ∧
    w.waited = [⟨[0], [0, 1]⟩] ∧ w.WaitsForAll := by
  have hruns : (([.execute, .return 0, .execute, .work 0, .work 0, .wait, .work 1, .test 0, .work 0,
      .work 1, .work 1, .work 0, .return 1, .work 1, .test 0] : List Action).foldlM
      (Runs.guarded step Meets) (init 2)).map waited = some [⟨[0], [0, 1]⟩] := by decide +kernel
  obtain ⟨w, hreaches, hwaited⟩ := Runs.exists_of_foldlM _ hruns
  exact ⟨w, hreaches.run, hwaited, (wait_for_all_iff hreaches.run).2 hreaches⟩

/-- Between the section of the worker and its `activeTasks_++` the pool looks idle. -/
theorem returns_too_early : ¬∀ as w, Runs.Run step (init 1) as w → w.WaitsForAll := by
  intro h
  have hruns : (([.execute, .return 0, .work 0, .wait, .test 0] : List Action).foldlM
      (Runs.guarded step fun _ _ => True) (init 1)).map waited = some [⟨[0], []⟩] := by decide +kernel
  obtain ⟨w, hrun, hwaited⟩ := Runs.exists_of_foldlM _ hruns
  have hall := h _ w hrun ⟨[0], []⟩
  rw [hwaited] at hall
  exact absurd (hall (List.mem_singleton_self _) 0 (List.mem_singleton_self _)) List.not_mem_nil

end World

end ThreadPool
end Stx.Executor
