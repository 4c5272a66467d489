import Stx.Base
import Stx.Lib.Runs
import Mathlib.Data.List.Perm.Basic

/-! `thread/threadpool.{h,cc}`. A step is what one thread does while it holds `runq_mutex_`, or the
call of a task. Threads can always be created. -/
namespace Stx.Thread

/-- Where a thread of the pool is: before its first section, in `wakeup_.wait`, behind a section with
the task that it took, behind the call of it, or at its end. -/
inductive Worker (τ : Type) where
  | started
  | waiting
  | holding (task : τ)
  | called
  | exited

def Worker.task? {τ : Type} : Worker τ → Option τ
  | .holding task => some task
  | _ => none

structure PoolThread (τ : Type) where
  cache : Bool
  worker : Worker τ := .started

/-- `threads` are those that the pool has ever started. `free_threads_` counts some of them, of which
there are less than the `int` has numbers. -/
structure ThreadPool (τ : Type) where
  max_cached_threads_ : UInt64
  num_threads_ : UInt64 := 0
  free_threads_ : Int := 0
  runq_ : List τ := []
  threads : List (PoolThread τ) := []

namespace ThreadPool
variable {τ : Type}

def startThread (p : ThreadPool τ) : ThreadPool τ :=
  { p with
    num_threads_ := p.num_threads_ + 1
    threads := p.threads ++ [{ cache := decide (p.num_threads_ + 1 ≤ p.max_cached_threads_) }] }

def run (task : τ) (p : ThreadPool τ) : ThreadPool τ :=
  let p := { p with runq_ := p.runq_ ++ [task] }
  if p.free_threads_ < p.runq_.length then p.startThread else p

def set (p : ThreadPool τ) (i : Nat) (t : PoolThread τ) (worker : Worker τ) : ThreadPool τ :=
  { p with threads := p.threads.set i { t with worker } }

/-- The rest of the section when the thread has left the loop around `wakeup_.wait`. -/
def take (p : ThreadPool τ) (i : Nat) (t : PoolThread τ) : Option (ThreadPool τ) :=
  match p.runq_ with
  | [] => none
  | task :: rest =>
    some { p.set i t (.holding task) with runq_ := rest, free_threads_ := p.free_threads_ - 1 }

/-- The section up to the test of the loop, and to its end where there is a task. -/
def enter (p : ThreadPool τ) (i : Nat) (t : PoolThread τ) : Option (ThreadPool τ) :=
  let p := { p with free_threads_ := p.free_threads_ + 1 }
  match p.runq_ with
  | [] => some (p.set i t .waiting)
  | _ :: _ => p.take i t

/-- The next step of the thread `i`, with the task that it calls. A thread that is not kept in the
cache ends behind its first task. -/
def advance (p : ThreadPool τ) (i : Nat) : Option (Option τ × ThreadPool τ) :=
  match p.threads[i]? with
  | none => none
  | some t =>
    match t.worker with
    | .started => (p.enter i t).map fun p => (none, p)
    | .waiting => (p.take i t).map fun p => (none, p)
    | .holding task => some (some task, p.set i t .called)
    | .called =>
      if t.cache then (p.enter i t).map fun p => (none, p)
      else some (none, { p.set i t .exited with num_threads_ := p.num_threads_ - 1 })
    | .exited => none

/-- The tasks that threads have taken and not called yet. -/
def inHand (p : ThreadPool τ) : List τ := p.threads.filterMap fun t => t.worker.task?

/-- The task that the thread `i` has taken and not called yet. -/
def heldBy (p : ThreadPool τ) (i : Nat) : Option τ := p.threads[i]?.bind fun t => t.worker.task?

/-- What a step of a thread can be. -/
inductive Advances (p : ThreadPool τ) (i : Nat) : Option τ → ThreadPool τ → Prop
  | waits {t : PoolThread τ} (ht : p.threads[i]? = some t) (htask : t.worker.task? = none)
    (hempty : p.runq_ = []) :
    Advances p i none { p.set i t .waiting with free_threads_ := p.free_threads_ + 1 }
  | takes {t : PoolThread τ} {task : τ} {rest : List τ} {free : Int} (ht : p.threads[i]? = some t)
    (htask : t.worker.task? = none) (hrunq : p.runq_ = task :: rest) :
    Advances p i none { p.set i t (.holding task) with runq_ := rest, free_threads_ := free }
  | calls {t : PoolThread τ} {task : τ} (ht : p.threads[i]? = some t) (htask : t.worker.task? = some task) :
    Advances p i (some task) (p.set i t .called)
  | exits {t : PoolThread τ} (ht : p.threads[i]? = some t) (htask : t.worker.task? = none)
    (hcache : t.cache = false) :
    Advances p i none { p.set i t .exited with num_threads_ := p.num_threads_ - 1 }

/-- Where a step takes the thread, and what it does to the counters. -/
inductive Moves (p : ThreadPool τ) (i : Nat) : Option τ → ThreadPool τ → Prop
  | waits {t : PoolThread τ} (ht : p.threads[i]? = some t)
    (hfrom : t.worker = .started ∨ t.worker = .called) (hempty : p.runq_ = []) :
    Moves p i none { p.set i t .waiting with free_threads_ := p.free_threads_ + 1 }
  | enters {t : PoolThread τ} {task : τ} {rest : List τ} (ht : p.threads[i]? = some t)
    (hfrom : t.worker = .started ∨ t.worker = .called) (hrunq : p.runq_ = task :: rest) :
    Moves p i none { p.set i t (.holding task) with runq_ := rest }
  | wakes {t : PoolThread τ} {task : τ} {rest : List τ} (ht : p.threads[i]? = some t)
    (hfrom : t.worker = .waiting) (hrunq : p.runq_ = task :: rest) :
    Moves p i none
      { p.set i t (.holding task) with runq_ := rest, free_threads_ := p.free_threads_ - 1 }
  | calls {t : PoolThread τ} {task : τ} (ht : p.threads[i]? = some t)
    (hfrom : t.worker = .holding task) : Moves p i (some task) (p.set i t .called)
  | exits {t : PoolThread τ} (ht : p.threads[i]? = some t) (hfrom : t.worker = .called)
    (hcache : t.cache = false) :
    Moves p i none { p.set i t .exited with num_threads_ := p.num_threads_ - 1 }

section steps
variable {p q : ThreadPool τ} {i : Nat} {t : PoolThread τ} {called : Option τ}

theorem moves_of_enter (ht : p.threads[i]? = some t)
    (hfrom : t.worker = .started ∨ t.worker = .called) (h : p.enter i t = some q) :
    p.Moves i none q := by
  unfold enter at h
  dsimp only at h
  split at h
  · next hempty =>
    cases h
    exact .waits ht hfrom hempty
  · next hrunq =>
    rw [take, hrunq] at h
    cases h
    -- the section counts the thread as free and takes it back at once
    have hfree : p.free_threads_+1-1 = p.free_threads_ := by omega
    simp only [hfree]
    exact .enters ht hfrom hrunq

theorem moves_of_take (ht : p.threads[i]? = some t) (hfrom : t.worker = .waiting)
    (h : p.take i t = some q) : p.Moves i none q := by
  unfold take at h
  split at h
  · cases h
  · next hrunq =>
    cases h
    exact .wakes ht hfrom hrunq

theorem moves_of_advance (h : p.advance i = some (called, q)) : p.Moves i called q := by
  unfold advance at h
  split at h
  · cases h
  · next t ht =>
    cases hworker : t.worker with
    | started =>
      rw [hworker] at h
      obtain ⟨q', henter, heq⟩ := Option.map_eq_some_iff.1 h
      cases heq
      exact moves_of_enter ht (.inl hworker) henter
    | waiting =>
      rw [hworker] at h
      obtain ⟨q', htake, heq⟩ := Option.map_eq_some_iff.1 h
      cases heq
      exact moves_of_take ht hworker htake
    | holding task =>
      rw [hworker] at h
      cases h
      exact .calls ht hworker
    | called =>
      simp only [hworker] at h
      split at h
      · obtain ⟨q', henter, heq⟩ := Option.map_eq_some_iff.1 h
        cases heq
        exact moves_of_enter ht (.inr hworker) henter
      · next hcache =>
        cases h
        exact .exits ht hworker (Bool.eq_false_iff.2 hcache)
    | exited =>
      rw [hworker] at h
      cases h

theorem advances_of_advance (h : p.advance i = some (called, q)) : p.Advances i called q := by
  have htask : ∀ t : PoolThread τ, t.worker = .started ∨ t.worker = .called →
      t.worker.task? = none := by
    rintro t (hworker | hworker) <;> rw [hworker] <;> rfl
  cases moves_of_advance h with
  | waits ht hfrom hempty => exact .waits ht (htask _ hfrom) hempty
  | enters ht hfrom hrunq => exact .takes ht (htask _ hfrom) hrunq
  | wakes ht hfrom hrunq => exact .takes ht (by rw [hfrom]; rfl) hrunq
  | calls ht hfrom => exact .calls ht (by rw [hfrom]; rfl)
  | exits ht hfrom hcache => exact .exits ht (htask _ (.inr hfrom)) hcache

end steps

section hands
variable {α β : Type} {p q : ThreadPool τ} {i : Nat} {t : PoolThread τ}

theorem filterMap_set_perm (f : α → Option β) {l : List α} {i : Nat} {a : α} (h : l[i]? = some a)
    (b : α) : ((f a).toList ++ (l.set i b).filterMap f).Perm ((f b).toList ++ l.filterMap f) := by
  obtain ⟨hi, rfl⟩ := List.getElem?_eq_some_iff.1 h
  have hset := (List.set_perm_cons_eraseIdx hi b).filterMap f
  have hget := (List.getElem_cons_eraseIdx_perm hi).symm.filterMap f
  have hcons : ∀ c : α, (c :: l.eraseIdx i).filterMap f =
      (f c).toList ++ (l.eraseIdx i).filterMap f := by
    intro c
    rw [List.filterMap_cons]
    cases f c <;> rfl
  rw [hcons] at hset hget
  refine ((hset.append_left _).trans ?_).trans (hget.symm.append_left _)
  rw [← List.append_assoc, ← List.append_assoc]
  exact List.perm_append_comm.append_right _

theorem inHand_set_perm (h : p.threads[i]? = some t) (worker : Worker τ) :
    (t.worker.task?.toList ++ (p.set i t worker).inHand).Perm
      (worker.task?.toList ++ p.inHand) :=
  filterMap_set_perm (fun t => t.worker.task?) h _

@[simp] theorem runq_run (task : τ) : (p.run task).runq_ = p.runq_ ++ [task] := by
  rw [run]
  dsimp only
  split <;> rfl

@[simp] theorem inHand_run (task : τ) : (p.run task).inHand = p.inHand := by
  rw [run]
  dsimp only
  split
  · simp [startThread, inHand, Worker.task?]
  · rfl

/-- A step takes the front of the queue in hand, calls what was in hand, or does neither. -/
theorem Advances.hands {called : Option τ} (h : p.Advances i called q) :
    ∃ taken : Option τ, p.runq_ = taken.toList ++ q.runq_ ∧
      (called.toList ++ q.inHand).Perm (taken.toList ++ p.inHand) := by
  cases h with
  | @waits t ht htask hempty =>
    have hperm := inHand_set_perm ht .waiting
    rw [htask] at hperm
    exact ⟨none, rfl, hperm⟩
  | @takes t task rest free ht htask hrunq =>
    have hperm := inHand_set_perm ht (.holding task)
    rw [htask] at hperm
    exact ⟨some task, hrunq, hperm⟩
  | @calls t task ht htask =>
    have hperm := inHand_set_perm ht .called
    rw [htask] at hperm
    exact ⟨none, rfl, hperm⟩
  | @exits t ht htask hcache =>
    have hperm := inHand_set_perm ht .exited
    rw [htask] at hperm
    exact ⟨none, rfl, hperm⟩

/-- What a step calls was in hand. -/
theorem Advances.called_eq {called : Option τ} (h : p.Advances i called q) :
    called = p.heldBy i := by
  cases h with
  | waits ht htask | takes ht htask | calls ht htask | exits ht htask =>
    rw [heldBy, ht]
    exact htask.symm

theorem mem_inHand_of_heldBy {task : τ} (h : p.heldBy i = some task) : task ∈ p.inHand := by
  obtain ⟨t, ht, htask⟩ := Option.bind_eq_some_iff.1 h
  exact List.mem_filterMap.2 ⟨t, List.mem_of_getElem? ht, htask⟩

end hands

end ThreadPool
end Stx.Thread
