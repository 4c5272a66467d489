import Stx.Thread.ThreadPool
import Stx.Lib.Runs
import Mathlib.Data.List.Count

/-! `free_threads_` and `num_threads_` against the threads that they count. -/
namespace Stx.Thread

namespace Worker
variable {τ : Type}

def isStarted : Worker τ → Bool
  | .started => true
  | _ => false

def isWaiting : Worker τ → Bool
  | .waiting => true
  | _ => false

def isLive : Worker τ → Bool
  | .exited => false
  | _ => true

end Worker

namespace ThreadPool
variable {τ : Type}

def count (p : ThreadPool τ) (kind : Worker τ → Bool) : Nat :=
  p.threads.countP fun t => kind t.worker

/-- The threads that have not come to their first section yet. -/
def starting (p : ThreadPool τ) : Nat := p.count Worker.isStarted

/-- The threads that have not exited yet. -/
def live (p : ThreadPool τ) : Nat := p.count Worker.isLive

/-- What the counters stand for. A thread in `wakeup_.wait` is free, whether it was woken or not. -/
structure Accounts (p : ThreadPool τ) : Prop where
  free_threads_ : p.free_threads_ = p.count Worker.isWaiting
  num_threads_ : p.num_threads_ = UInt64.ofNat p.live
  runq_ : p.runq_.length ≤ p.count Worker.isWaiting+p.starting

section counting
variable {p : ThreadPool τ} {i : Nat} {t : PoolThread τ}

theorem count_set (ht : p.threads[i]? = some t) (worker : Worker τ) (kind : Worker τ → Bool) :
    (p.set i t worker).count kind+(kind t.worker).toNat = p.count kind+(kind worker).toNat := by
  obtain ⟨hi, rfl⟩ := List.getElem?_eq_some_iff.1 ht
  have hpos : kind p.threads[i].worker = true → 0 < p.count kind := fun h =>
    List.countP_pos_iff.2 ⟨p.threads[i], List.getElem_mem hi, h⟩
  rw [count, set, List.countP_set hi]
  change p.count kind-_+_+_ = _
  cases hold : kind p.threads[i].worker with
  | false => cases hnew : kind worker <;> simp
  | true =>
    have := hpos hold
    cases hnew : kind worker <;> simp <;> omega

@[simp] theorem count_startThread (kind : Worker τ → Bool) :
    p.startThread.count kind = p.count kind+(kind .started).toNat := by
  rw [count, startThread, List.countP_append, List.countP_singleton]
  cases kind .started <;> rfl

theorem Accounts.run (h : p.Accounts) (task : τ) : (p.run task).Accounts := by
  obtain ⟨hfree, hnum, hrunq⟩ := h
  unfold ThreadPool.run
  dsimp only
  split
  · -- the new thread stands for the new task
    refine ⟨?_, ?_, ?_⟩
    · rw [count_startThread]
      exact hfree
    · rw [live, count_startThread]
      change p.num_threads_+1 = UInt64.ofNat (p.live+1)
      rw [hnum, UInt64.ofNat_add]
      rfl
    · rw [starting, count_startThread, count_startThread]
      change (p.runq_ ++ [task]).length ≤ p.count Worker.isWaiting+0+(p.starting+1)
      simp only [List.length_append, List.length_singleton]
      omega
  · next hfull =>
    refine ⟨hfree, hnum, ?_⟩
    change (p.runq_ ++ [task]).length ≤ p.count Worker.isWaiting+p.starting
    rw [hfree] at hfull
    omega

/-- One thread is somewhere else, and the counters have changed with it. -/
theorem Accounts.replace {q : ThreadPool τ} (h : p.Accounts) (worker : Worker τ)
    (ht : p.threads[i]? = some t) (hthreads : q.threads = (p.set i t worker).threads)
    (hfree : q.free_threads_+t.worker.isWaiting.toNat = p.free_threads_+worker.isWaiting.toNat)
    (hnum : q.num_threads_+UInt64.ofNat t.worker.isLive.toNat =
      p.num_threads_+UInt64.ofNat worker.isLive.toNat)
    (hrunq : q.runq_.length+(t.worker.isWaiting.toNat+t.worker.isStarted.toNat) ≤
      p.runq_.length+(worker.isWaiting.toNat+worker.isStarted.toNat)) : q.Accounts := by
  have hcount : ∀ kind : Worker τ → Bool,
      q.count kind+(kind t.worker).toNat = p.count kind+(kind worker).toNat := by
    intro kind
    rw [← count_set ht worker kind, count, hthreads]
    rfl
  have hwaiting := hcount Worker.isWaiting
  have hlive := hcount Worker.isLive
  have hstarted := hcount Worker.isStarted
  refine ⟨?_, ?_, ?_⟩
  · have := h.free_threads_
    omega
  · have hsum : q.num_threads_+UInt64.ofNat t.worker.isLive.toNat =
        UInt64.ofNat q.live+UInt64.ofNat t.worker.isLive.toNat := by
      rw [hnum, h.num_threads_, ← UInt64.ofNat_add, ← UInt64.ofNat_add, live, live, hlive]
    exact (UInt64.add_left_inj _).1 hsum
  · have := h.runq_
    rw [starting] at this ⊢
    omega

theorem Accounts.moves {called : Option τ} {q : ThreadPool τ} (h : p.Accounts)
    (hmove : p.Moves i called q) : q.Accounts := by
  cases hmove with
  | @waits t ht hfrom hempty =>
    refine h.replace .waiting ht rfl ?_ ?_ ?_ <;> cases hfrom with
    | inl hworker | inr hworker =>
      simp [hworker, hempty, Worker.isWaiting, Worker.isLive, Worker.isStarted, set]
  | @enters t task rest ht hfrom hrest =>
    refine h.replace (.holding task) ht rfl ?_ ?_ ?_ <;> cases hfrom with
    | inl hworker | inr hworker =>
      simp [hworker, hrest, Worker.isWaiting, Worker.isLive, Worker.isStarted, set]
  | @wakes t task rest ht hfrom hrest =>
    refine h.replace (.holding task) ht rfl ?_ ?_ ?_ <;>
      simp [hfrom, hrest, Worker.isWaiting, Worker.isLive, Worker.isStarted, set]
  | @calls t task ht hfrom =>
    refine h.replace .called ht rfl ?_ ?_ ?_ <;>
      simp [hfrom, Worker.isWaiting, Worker.isLive, Worker.isStarted, set]
  | @exits t ht hfrom hcache =>
    refine h.replace .exited ht rfl ?_ ?_ ?_ <;>
      simp [hfrom, Worker.isWaiting, Worker.isLive, Worker.isStarted, set]

end counting

/-- What can happen to a pool: a call of `run`, a section of the thread `i`, and the end of the task
that it calls, which returns or raises. A task that blocks has no end. -/
inductive Action (τ : Type) where
  | run (task : τ)
  | locks (i : Nat)
  | returns (i : Nat)
  | raises (i : Nat) (e : Exception)

/-- A pool, and the exceptions that its `error_handler_` was called with. -/
structure Handled (τ : Type) where
  pool : ThreadPool τ
  onException : List Exception := []

namespace Handled

def new (max_cached_threads : UInt64) : Handled τ :=
  { pool := { max_cached_threads_ := max_cached_threads } }

/-- The loop of a thread goes on behind a task that raises as it does behind one that returns. -/
def step (s : Handled τ) : Action τ → Option (Handled τ)
  | .run task => some { s with pool := s.pool.run task }
  | .locks i =>
    match s.pool.advance i with
    | some (none, q) => some { s with pool := q }
    | _ => none
  | .returns i =>
    match s.pool.advance i with
    | some (some _, q) => some { s with pool := q }
    | _ => none
  | .raises i e =>
    match s.pool.advance i with
    | some (some _, q) => some { pool := q, onException := s.onException ++ [e] }
    | _ => none

theorem step_cases {s u : Handled τ} {a : Action τ} (h : s.step a = some u) :
    (∃ task, u.pool = s.pool.run task) ∨ ∃ i called, s.pool.Moves i called u.pool := by
  cases a with
  | run task =>
    cases h
    exact .inl ⟨task, rfl⟩
  | locks i | returns i | raises i e =>
    rw [step] at h
    split at h
    · next hadvance =>
      cases h
      exact .inr ⟨i, _, moves_of_advance hadvance⟩
    · cases h

theorem accounts_of_run {max_cached_threads : UInt64} {as : List (Action τ)} {s : Handled τ}
    (h : Runs.Run step (new max_cached_threads) as s) : s.pool.Accounts := by
  refine Runs.Reaches.invariant (P := fun s => s.pool.Accounts) h ⟨rfl, rfl, Nat.le_refl 0⟩ ?_
  intro s a u hs _ hstep
  rcases step_cases hstep with ⟨task, hrun⟩ | ⟨i, called, hmove⟩
  · rw [hrun]
    exact hs.run task
  · exact hs.moves hmove

/-- No task waits for a thread that will not come: for each one in the queue there is a free thread or
one that is about to enter its first section. -/
theorem no_task_stranded {max_cached_threads : UInt64} {as : List (Action τ)} {s : Handled τ}
    (h : Runs.Run step (new max_cached_threads) as s) :
    (s.pool.runq_.length : Int) ≤ s.pool.free_threads_+s.pool.starting ∧
      s.pool.num_threads_ = UInt64.ofNat s.pool.live := by
  have haccounts := accounts_of_run h
  have hrunq := haccounts.runq_
  have hfree := haccounts.free_threads_
  exact ⟨by omega, haccounts.num_threads_⟩

/-- A thread that is kept and one that is not; the first task raises, and the third is queued. -/
theorem no_task_stranded_two_threads :
    ∃ s : Handled Nat, Runs.Run step (new 1) [.run 0, .locks 0, .run 1, .run 2, .locks 1,
        .raises 0 ⟨.runtimeError, []⟩, .returns 1, .locks 1] s ∧
      s.pool.runq_ = [2] ∧ (s.pool.runq_.length : Int) ≤ s.pool.free_threads_+s.pool.starting ∧
      s.pool.num_threads_ = UInt64.ofNat s.pool.live := by
  have hruns : (([.run 0, .locks 0, .run 1, .run 2, .locks 1, .raises 0 ⟨.runtimeError, []⟩,
      .returns 1, .locks 1] : List (Action Nat)).foldlM (Runs.guarded step fun _ _ => True)
      (new 1)).map (fun s => s.pool.runq_) = some [2] := by decide +kernel
  obtain ⟨s, hrun, hrunq⟩ := Runs.exists_of_foldlM _ hruns
  exact ⟨s, hrun, hrunq, no_task_stranded hrun⟩

end Handled
end ThreadPool
end Stx.Thread
