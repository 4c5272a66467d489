import Stx.Base
import Mathlib.Data.List.Induction
import Mathlib.Data.List.Sort

/-! `thread/CoalescingDelayedQueue{.h,_impl.h}`: jobs that become due at a time, at
most one entry per job. The three pieces of state are changed in sections that hold
`mutex_`; a run is a sequence of such sections, in whatever order the threads took
the mutex. -/
namespace Stx.Thread

/-- `τ` is the type of job pointers. `length_` counts entries of `queue_` in memory and
is a plain number; `max_size_` keeps the value `size_t(-1)` for "no limit". -/
structure CoalescingDelayedQueue (τ : Type) where
  max_size_ : Nat := 2^64-1
  length_ : Nat := 0
  queue_ : List (Nat × τ) := []
  map_ : HashMap τ Nat := ∅

namespace CoalescingDelayedQueue
variable {τ : Type} [DecidableEq τ]

/-- The comparator given to the `std::multiset`. It looks at the times only. -/
def less (a b : Nat × τ) : Prop := a.1 < b.1

instance : DecidableRel (less (τ := τ)) := fun a b => inferInstanceAs (Decidable (a.1 < b.1))

/-- What a section does with its caller. -/
inductive Outcome (τ : Type) where
  | inserted
  | raised (e : Exception)
  | returned (job : Option τ)
  | waits
  deriving DecidableEq

/-- The part after the switch on `map_.find`: `emplace` puts the entry behind those that
the comparator does not tell from it. -/
def enqueue (q : CoalescingDelayedQueue τ) (job : τ) (when_ : Nat) : CoalescingDelayedQueue τ :=
  { q with queue_ := q.queue_.orderedInsert less (when_, job), length_ := q.length_+1 }

/-- `queue_.erase(value)` drops every entry that the comparator does not tell from it. -/
def eraseAll (q : CoalescingDelayedQueue τ) (value : Nat × τ) : CoalescingDelayedQueue τ :=
  { q with queue_ := q.queue_.filter fun x => less x value ∨ less value x }

/-- One pass of the loop of a full queue, or the whole insertion. A blocked caller tries
the same section again after it was woken. -/
def insert (q : CoalescingDelayedQueue τ) (job : τ) (when_ : Nat) (block : Bool) :
    CoalescingDelayedQueue τ × Outcome τ :=
  if q.max_size_ ≠ 2^64-1 ∧ q.max_size_ ≤ q.length_ then
    if block then (q, .waits) else (q, .raised ⟨.runtimeError, lit "queue is full"⟩)
  else
    match q.map_.lookup job with
    | none => ({ q with map_ := q.map_.emplace job when_ }.enqueue job when_, .inserted)
    | some old =>
      if when_ < old then
        let q := q.eraseAll (old, job)
        ({ q with map_ := q.map_.insert job when_ }.enqueue job when_, .inserted)
      else (q, .inserted)

/-- The section from the entry (or, when `resumed`, from the return of the first `wait`)
to the end or the next wait. The `wait_for` of a job that is not due ends in `None`
whatever wakes it. -/
def interruptiblePop (q : CoalescingDelayedQueue τ) (resumed : Bool) (now : Nat) :
    CoalescingDelayedQueue τ × Outcome τ :=
  match q.queue_ with
  | [] => if resumed then (q, .returned none) else (q, .waits)
  | (time, job) :: rest =>
    if now < time then (q, .returned none)
    else
      ({ q with queue_ := rest, map_ := q.map_.erase job, length_ := q.length_-1 },
        .returned (some job))

/-- The sections of the two calls, with the clock that a pop reads. -/
inductive Section (τ : Type) where
  | insert (job : τ) (when_ : Nat) (block : Bool)
  | interruptiblePop (resumed : Bool) (now : Nat)

def step (q : CoalescingDelayedQueue τ) : Section τ → CoalescingDelayedQueue τ × Outcome τ
  | .insert job when_ block => q.insert job when_ block
  | .interruptiblePop resumed now => q.interruptiblePop resumed now

/-- What happened to a job, seen from outside. -/
inductive Event (τ : Type) where
  | inserted (job : τ) (when_ : Nat)
  | popped (job : τ)

def event : Section τ → Outcome τ → List (Event τ)
  | .insert job when_ _, .inserted => [.inserted job when_]
  | .interruptiblePop _ _, .returned (some job) => [.popped job]
  | _, _ => []

/-- The times inserted for `job` since it was last popped; the newest event is first. -/
def timesSincePop (job : τ) : List (Event τ) → List Nat
  | [] => []
  | .inserted j t :: rest =>
    if j = job then t :: timesSincePop job rest else timesSincePop job rest
  | .popped j :: rest => if j = job then [] else timesSincePop job rest

/-- A queue together with the events that led to it. -/
structure Run (τ : Type) where
  queue : CoalescingDelayedQueue τ
  events : List (Event τ) := []

def Run.next (r : Run τ) (s : Section τ) : Run τ :=
  ⟨(r.queue.step s).1, event s (r.queue.step s).2 ++ r.events⟩

def Run.exec (r : Run τ) (sections : List (Section τ)) : Run τ := sections.foldl Run.next r

/-- A queue as the constructor leaves it. -/
def Run.new (τ : Type) (max_size : Nat) : Run τ := { queue := { max_size_ := max_size } }

def jobs (q : CoalescingDelayedQueue τ) : List τ := q.queue_.map Prod.snd

/-- The three pieces of state agree with each other and with the past. -/
structure Represents (r : Run τ) : Prop where
  mem_iff : ∀ job, job ∈ r.queue.jobs ↔ job ∈ r.queue.map_
  nodup : r.queue.jobs.Nodup
  time_eq : ∀ time job, (time, job) ∈ r.queue.queue_ → r.queue.map_.lookup job = some time
  min_eq : ∀ job, r.queue.map_.lookup job = (timesSincePop job r.events).min?
  length_eq : r.queue.length_ = r.queue.queue_.length

/-- A job leaves the queue only by being returned. -/
def LosesNone (q : CoalescingDelayedQueue τ) (s : Section τ) : Prop :=
  ∀ job ∈ q.jobs, job ∉ (q.step s).1.jobs → (q.step s).2 = .returned (some job)

/-- The section is an admitted insert of a pending job at a strictly earlier time. -/
def Reschedules (q : CoalescingDelayedQueue τ) : Section τ → Prop
  | .insert job when_ _ =>
    ¬(q.max_size_ ≠ 2^64-1 ∧ q.max_size_ ≤ q.length_) ∧ ∃ old ∈ q.map_.lookup job, when_ < old
  | .interruptiblePop _ _ => False

/- What a section can do: nothing, add a new job, merge an insert with the pending
   entry, take the first entry out, or move a pending job to an earlier time. -/

/-- The five ways in which a section can end. -/
inductive StepCase (q : CoalescingDelayedQueue τ) (s : Section τ) : Prop
  | idle (hq : (q.step s).1 = q) (he : event s (q.step s).2 = [])
  | fresh (job : τ) (when_ : Nat) (hnew : q.map_.lookup job = none)
    (hq : (q.step s).1 = { q with map_ := q.map_.insert job when_ }.enqueue job when_)
    (he : event s (q.step s).2 = [.inserted job when_])
  | merged (job : τ) (when_ old : Nat) (hold : q.map_.lookup job = some old) (hle : old ≤ when_)
    (hq : (q.step s).1 = q) (he : event s (q.step s).2 = [.inserted job when_])
  | popped (time : Nat) (job : τ) (rest : List (Nat × τ)) (hhead : q.queue_ = (time, job) :: rest)
    (hq : (q.step s).1 =
      { q with queue_ := rest, map_ := q.map_.erase job, length_ := q.length_-1 })
    (ho : (q.step s).2 = .returned (some job)) (he : event s (q.step s).2 = [.popped job])
  | moved (hr : q.Reschedules s)

theorem insert_stepCase (q : CoalescingDelayedQueue τ) (job : τ) (when_ : Nat) (block : Bool) :
    StepCase q (.insert job when_ block) := by
  by_cases hfull : q.max_size_ ≠ 2^64-1 ∧ q.max_size_ ≤ q.length_
  · cases block
    · exact .idle (by simp only [step, insert, if_pos hfull]; rfl)
        (by simp only [step, insert, if_pos hfull]; rfl)
    · exact .idle (by simp only [step, insert, if_pos hfull]; rfl)
        (by simp only [step, insert, if_pos hfull]; rfl)
  · cases hold : q.map_.lookup job with
    | none =>
      have hmem : job ∉ q.map_ := AList.lookup_eq_none.1 hold
      have hstep : q.step (.insert job when_ block) =
          ({ q with map_ := q.map_.insert job when_ }.enqueue job when_, .inserted) := by
        simp only [step, insert, if_neg hfull, hold, HashMap.emplace, if_neg hmem]
      exact .fresh job when_ hold (by rw [hstep]) (by rw [hstep]; rfl)
    | some old =>
      by_cases hlt : when_ < old
      · exact .moved ⟨hfull, old, hold, hlt⟩
      · have hstep : q.step (.insert job when_ block) = (q, .inserted) := by
          simp only [step, insert, if_neg hfull, hold, if_neg hlt]
        exact .merged job when_ old hold (by omega) (by rw [hstep]) (by rw [hstep]; rfl)

theorem interruptiblePop_stepCase (q : CoalescingDelayedQueue τ) (resumed : Bool) (now : Nat) :
    StepCase q (.interruptiblePop resumed now) := by
  cases hq : q.queue_ with
  | nil =>
    cases resumed <;>
      exact .idle (by simp [step, interruptiblePop, hq]) (by simp [step, interruptiblePop, hq, event])
  | cons head rest =>
    cases head with
    | mk time job =>
      by_cases hdue : now < time
      · exact .idle (by simp [step, interruptiblePop, hq, hdue])
          (by simp [step, interruptiblePop, hq, hdue, event])
      · have hstep : q.step (.interruptiblePop resumed now) =
            ({ q with queue_ := rest, map_ := q.map_.erase job, length_ := q.length_-1 },
              .returned (some job)) := by
          simp only [step, interruptiblePop, hq, if_neg hdue]
        exact .popped time job rest hq (by rw [hstep]) (by rw [hstep]) (by rw [hstep]; rfl)

theorem step_cases (q : CoalescingDelayedQueue τ) (s : Section τ) : StepCase q s := by
  cases s with
  | insert job when_ block => exact q.insert_stepCase job when_ block
  | interruptiblePop resumed now => exact q.interruptiblePop_stepCase resumed now

/- The entries after an insertion, up to order. -/

omit [DecidableEq τ] in
theorem enqueue_perm (q : CoalescingDelayedQueue τ) (job : τ) (when_ : Nat) :
    (q.enqueue job when_).queue_.Perm ((when_, job) :: q.queue_) :=
  List.perm_orderedInsert _ _ _

omit [DecidableEq τ] in
theorem jobs_enqueue_perm (q : CoalescingDelayedQueue τ) (job : τ) (when_ : Nat) :
    (q.enqueue job when_).jobs.Perm (job :: q.jobs) :=
  (q.enqueue_perm job when_).map Prod.snd

omit [DecidableEq τ] in
theorem mem_jobs {q : CoalescingDelayedQueue τ} {job : τ} :
    job ∈ q.jobs ↔ ∃ time, (time, job) ∈ q.queue_ := by
  simp [jobs]

omit [DecidableEq τ] in
/-- The entry that is looked for is among those that `erase` drops. -/
theorem length_eraseAll_lt {q : CoalescingDelayedQueue τ} {value : Nat × τ}
    (h : value ∈ q.queue_) : (q.eraseAll value).queue_.length < q.queue_.length := by
  apply List.length_filter_lt_length_iff_exists.2
  exact ⟨value, h, by simp [less]⟩

/- Every section but a reschedule keeps the representation. -/

namespace Represents

theorem fresh {r : Run τ} (h : Represents r) {job : τ} {when_ : Nat}
    (hnew : r.queue.map_.lookup job = none) :
    Represents ⟨{ r.queue with map_ := r.queue.map_.insert job when_ }.enqueue job when_,
      .inserted job when_ :: r.events⟩ where
  mem_iff x := by
    rw [(jobs_enqueue_perm _ job when_).mem_iff, List.mem_cons]
    exact (or_congr_right (h.mem_iff x)).trans (AList.mem_insert _).symm
  nodup := by
    have hjob : job ∉ r.queue.jobs := fun hm => AList.lookup_eq_none.1 hnew ((h.mem_iff job).1 hm)
    exact (jobs_enqueue_perm _ job when_).nodup_iff.2 (List.nodup_cons.2 ⟨hjob, h.nodup⟩)
  time_eq time x hx := by
    change AList.lookup x (r.queue.map_.insert job when_) = some time
    cases List.mem_cons.1 ((enqueue_perm _ job when_).mem_iff.1 hx) with
    | inl heq =>
      cases heq
      exact AList.lookup_insert _
    | inr hold =>
      have hx' := h.time_eq time x hold
      have hne : x ≠ job := by
        intro he
        rw [he, hnew] at hx'
        cases hx'
      rw [AList.lookup_insert_ne hne]
      exact hx'
  min_eq x := by
    change AList.lookup x (r.queue.map_.insert job when_) = _
    rw [timesSincePop]
    by_cases hx : job = x
    · subst hx
      have hnone : timesSincePop job r.events = [] := by
        rw [← List.min?_eq_none_iff, ← h.min_eq, hnew]
      rw [if_pos rfl, hnone, AList.lookup_insert]
      rfl
    · rw [if_neg hx, AList.lookup_insert_ne (Ne.symm hx), h.min_eq]
  length_eq := by
    rw [(enqueue_perm _ job when_).length_eq, List.length_cons]
    exact congrArg (·+1) h.length_eq

theorem merged {r : Run τ} (h : Represents r) {job : τ} {when_ old : Nat}
    (hold : r.queue.map_.lookup job = some old) (hle : old ≤ when_) :
    Represents ⟨r.queue, .inserted job when_ :: r.events⟩ where
  mem_iff := h.mem_iff
  nodup := h.nodup
  time_eq := h.time_eq
  min_eq x := by
    rw [timesSincePop, h.min_eq]
    by_cases hx : job = x
    · subst hx
      rw [if_pos rfl, List.min?_cons, ← h.min_eq, hold]
      simp [Nat.min_eq_right hle]
    · rw [if_neg hx]
  length_eq := h.length_eq

theorem popped {r : Run τ} (h : Represents r) {time : Nat} {job : τ} {rest : List (Nat × τ)}
    (hhead : r.queue.queue_ = (time, job) :: rest) :
    Represents
      ⟨{ r.queue with
          queue_ := rest, map_ := r.queue.map_.erase job, length_ := r.queue.length_-1 },
        .popped job :: r.events⟩ := by
  have hjobs : r.queue.jobs = job :: rest.map Prod.snd := by rw [jobs, hhead, List.map_cons]
  have hnd : job ∉ rest.map Prod.snd ∧ (rest.map Prod.snd).Nodup := by
    rw [← List.nodup_cons, ← hjobs]
    exact h.nodup
  have hne : ∀ x ∈ rest.map Prod.snd, x ≠ job := fun x hx he => hnd.1 (he ▸ hx)
  constructor
  · intro x
    change x ∈ rest.map Prod.snd ↔ x ∈ r.queue.map_.erase job
    rw [AList.mem_erase, ← h.mem_iff, hjobs, List.mem_cons]
    constructor
    · intro hx
      exact ⟨hne x hx, .inr hx⟩
    · rintro ⟨hx, rfl | hmem⟩
      · exact absurd rfl hx
      · exact hmem
  · exact hnd.2
  · intro t x hx
    change AList.lookup x (r.queue.map_.erase job) = some t
    rw [AList.lookup_erase_ne (hne x (List.mem_map_of_mem hx))]
    apply h.time_eq
    rw [hhead]
    exact List.mem_cons_of_mem _ hx
  · intro x
    change AList.lookup x (r.queue.map_.erase job) = _
    rw [timesSincePop]
    by_cases hx : job = x
    · subst hx
      rw [if_pos rfl, AList.lookup_erase]
      rfl
    · rw [if_neg hx, AList.lookup_erase_ne (Ne.symm hx), h.min_eq]
  · change r.queue.length_-1 = rest.length
    rw [h.length_eq, hhead, List.length_cons, Nat.add_sub_cancel]

end Represents

theorem step_of_reschedules {q : CoalescingDelayedQueue τ} {s : Section τ}
    (hs : q.Reschedules s) :
    ∃ job when_ old, q.map_.lookup job = some old ∧ (q.step s).1 =
      { q.eraseAll (old, job) with map_ := q.map_.insert job when_ }.enqueue job when_ := by
  cases s with
  | interruptiblePop resumed now => cases hs
  | insert job when_ block =>
    obtain ⟨hfull, old, hold, hlt⟩ := hs
    refine ⟨job, when_, old, hold, ?_⟩
    rw [step, insert, if_neg hfull, Option.mem_def.1 hold]
    simp only [if_pos hlt]
    rfl

/-- A reschedule counts the job a second time and never leaves more entries than before. -/
theorem Represents.not_next {r : Run τ} (h : Represents r) {s : Section τ}
    (hs : r.queue.Reschedules s) : ¬Represents (r.next s) := by
  obtain ⟨job, when_, old, hold, hstep⟩ := step_of_reschedules hs
  have hmem : (old, job) ∈ r.queue.queue_ := by
    have hin : job ∈ r.queue.map_ := AList.lookup_isSome.1 (by rw [hold]; rfl)
    cases mem_jobs.1 ((h.mem_iff job).2 hin) with
    | intro time htime =>
      cases (h.time_eq time job htime).symm.trans hold
      exact htime
  intro hn
  have hlen := hn.length_eq
  rw [Run.next, hstep, (enqueue_perm _ job when_).length_eq, List.length_cons] at hlen
  change r.queue.length_+1 = (r.queue.eraseAll (old, job)).queue_.length+1 at hlen
  have hlt := length_eraseAll_lt hmem
  have hcount := h.length_eq
  omega

theorem Represents.new (max_size : Nat) : Represents (Run.new τ max_size) where
  mem_iff _ := by simp [Run.new, jobs]
  nodup := List.nodup_nil
  time_eq _ _ h := by cases h
  min_eq _ := rfl
  length_eq := rfl

/-- One section: the representation is kept and nothing is lost, unless it is a reschedule. -/
theorem Represents.next {r : Run τ} (h : Represents r) {s : Section τ}
    (hs : ¬r.queue.Reschedules s) : Represents (r.next s) ∧ r.queue.LosesNone s := by
  rw [Run.next]
  cases r.queue.step_cases s with
  | idle hq he =>
    rw [LosesNone, hq, he]
    exact ⟨h, fun job hjob hnot => absurd hjob hnot⟩
  | fresh job when_ hnew hq he =>
    rw [LosesNone, hq, he]
    refine ⟨h.fresh hnew, fun x hx hnot => absurd ?_ hnot⟩
    exact (jobs_enqueue_perm _ job when_).mem_iff.2 (List.mem_cons_of_mem _ hx)
  | merged job when_ old hold hle hq he =>
    rw [LosesNone, hq, he]
    exact ⟨h.merged hold hle, fun x hx hnot => absurd hx hnot⟩
  | popped time job rest hhead hq ho he =>
    refine ⟨by rw [hq, he]; exact h.popped hhead, ?_⟩
    rw [LosesNone, hq, ho]
    intro x hx hnot
    rw [jobs, hhead, List.map_cons, List.mem_cons] at hx
    cases hx with
    | inl heq => rw [heq]
    | inr hmem => exact absurd hmem hnot
  | moved hr => exact absurd hr hs

theorem length_le_step {q : CoalescingDelayedQueue τ} (h : q.queue_.length ≤ q.length_)
    (s : Section τ) : (q.step s).1.queue_.length ≤ (q.step s).1.length_ := by
  cases q.step_cases s with
  | idle hq he => rwa [hq]
  | fresh job when_ hnew hq he =>
    rw [hq, (enqueue_perm _ job when_).length_eq]
    exact Nat.succ_le_succ h
  | merged job when_ old hold hle hq he => rwa [hq]
  | popped time job rest hhead hq ho he =>
    rw [hhead, List.length_cons] at h
    rw [hq]
    exact Nat.le_sub_one_of_lt h
  | moved hr =>
    obtain ⟨job, when_, old, -, hq⟩ := step_of_reschedules hr
    rw [hq, (enqueue_perm _ job when_).length_eq]
    exact Nat.succ_le_succ ((List.length_filter_le _ _).trans h)

theorem Run.exec_concat (r : Run τ) (sections : List (Section τ)) (s : Section τ) :
    r.exec (sections ++ [s]) = (r.exec sections).next s := by
  rw [Run.exec, Run.exec, List.foldl_append]
  rfl

/-- The representation holds in every state of a run, and no section of the run loses a
job, exactly when no section of the run moves a pending job to an earlier time. -/
theorem represents_iff_no_reschedule (max_size : Nat) (sections : List (Section τ)) :
    ((∀ pre, pre <+: sections → Represents ((Run.new τ max_size).exec pre)) ∧
      ∀ pre s, pre ++ [s] <+: sections → ((Run.new τ max_size).exec pre).queue.LosesNone s) ↔
    ∀ pre s, pre ++ [s] <+: sections →
      ¬((Run.new τ max_size).exec pre).queue.Reschedules s := by
  constructor
  · rintro ⟨hrep, -⟩ pre s hpre hs
    have hbefore := hrep pre ((List.prefix_append pre [s]).trans hpre)
    have hafter := hrep (pre ++ [s]) hpre
    rw [Run.exec_concat] at hafter
    exact hbefore.not_next hs hafter
  · intro hs
    have hrep : ∀ pre, pre <+: sections → Represents ((Run.new τ max_size).exec pre) := by
      intro pre
      induction pre using List.reverseRecOn with
      | nil =>
        intro _
        exact .new max_size
      | append_singleton pre s ih =>
        intro hpre
        rw [Run.exec_concat]
        exact ((ih ((List.prefix_append pre [s]).trans hpre)).next (hs pre s hpre)).1
    refine ⟨hrep, fun pre s hpre => ?_⟩
    exact ((hrep pre ((List.prefix_append pre [s]).trans hpre)).next (hs pre s hpre)).2

/-- In any run, with reschedules too, the counter never falls below the number of entries,
so `--length_` never wraps. -/
theorem queue_length_le (max_size : Nat) (sections : List (Section τ)) :
    ((Run.new τ max_size).exec sections).queue.queue_.length ≤
      ((Run.new τ max_size).exec sections).queue.length_ := by
  induction sections using List.reverseRecOn with
  | nil => exact Nat.le_refl 0
  | append_singleton sections s ih =>
    rw [Run.exec_concat, Run.next]
    exact length_le_step ih s

/-- Jobs 1 and 2 wait for time 5, and job 1 is moved to time 3. -/
def movedJob : Run Nat :=
  (Run.new Nat (2^64-1)).exec [.insert 1 5 false, .insert 2 5 false, .insert 1 3 false]

/-- Job 2 is no longer in the queue, and nobody popped it. -/
theorem movedJob_loses_other :
    movedJob.queue.queue_ = [(3, 1)] ∧ movedJob.queue.map_.lookup 2 = some 5 ∧
      movedJob.queue.length_ = 3 ∧ ¬Represents movedJob := by
  have hq : movedJob.queue.queue_ = [(3, 1)] := by decide
  have hlen : movedJob.queue.length_ = 3 := by decide
  refine ⟨hq, by decide, hlen, fun h => ?_⟩
  have hcount := h.length_eq
  rw [hq, hlen] at hcount
  cases hcount

end CoalescingDelayedQueue
end Stx.Thread
