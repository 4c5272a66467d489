import Stx.Base
import Stx.Lib.Runs
import Mathlib.Data.List.Sort

/-! `thread/DelayedQueue{.h,_impl.h}`: jobs that become due at a time. A run is a sequence of sections
that hold `mutex_`, in whatever order the threads took it. -/
namespace Stx.Thread

/-- `size_t(-1)`: a queue without a limit. -/
def DelayedQueue.unlimited : UInt64 := -1

structure DelayedQueue (τ : Type) where
  max_size_ : UInt64 := DelayedQueue.unlimited
  length_ : UInt64 := 0
  queue_ : List (UInt64 × τ) := []
  deriving DecidableEq

namespace DelayedQueue
variable {τ : Type}

/-- The comparator given to the `std::multiset`. It looks at the times only. -/
def less (a b : UInt64 × τ) : Prop := a.1 < b.1

instance : DecidableRel (less (τ := τ)) := fun a b => inferInstanceAs (Decidable (a.1 < b.1))

/-- What a section does with its caller. -/
inductive Outcome (τ : Type) where
  | inserted
  | raised (e : Exception)
  | returned (job : Option τ)
  | waits
  deriving DecidableEq

/-- One pass of the loop of a full queue, or the whole insertion. A blocked caller tries the same
section again after it was woken; `room` says whether there is memory for another entry. `emplace` puts
the entry behind those that the comparator does not tell from it. -/
def insert (q : DelayedQueue τ) (job : τ) (when_ : UInt64) (block room : Bool) :
    DelayedQueue τ × Outcome τ :=
  if q.max_size_ ≠ unlimited ∧ q.max_size_ ≤ q.length_ then
    (q, if block then .waits else .raised ⟨.runtimeError, lit "queue is full"⟩)
  else if room then
    ({ q with queue_ := q.queue_.orderedInsert less (when_, job), length_ := q.length_+1 }, .inserted)
  else (q, .raised ⟨.mallocError, []⟩)

/-- The section from the entry (or, when `resumed`, from the return of the first `wait`) to the end or
the next wait. The `wait_for` of a job that is not due ends in `None` whatever wakes it. -/
def interruptiblePop (q : DelayedQueue τ) (resumed : Bool) (now : UInt64) :
    DelayedQueue τ × Outcome τ :=
  match q.queue_ with
  | [] => (q, if resumed then .returned none else .waits)
  | (time, job) :: rest =>
    if now < time then (q, .returned none)
    else ({ q with queue_ := rest, length_ := q.length_-1 }, .returned (some job))

/-- The sections of the two calls, with the clock that a pop reads. -/
inductive Section (τ : Type) where
  | insert (job : τ) (when_ : UInt64) (block room : Bool)
  | interruptiblePop (resumed : Bool) (now : UInt64)
  deriving DecidableEq

/- The queue does not look at its jobs. -/

section map
variable {σ : Type} (f : τ → σ)

def Outcome.map : Outcome τ → Outcome σ
  | .inserted => .inserted
  | .raised e => .raised e
  | .returned job => .returned (job.map f)
  | .waits => .waits

def map (q : DelayedQueue τ) : DelayedQueue σ :=
  { max_size_ := q.max_size_, length_ := q.length_, queue_ := q.queue_.map (Prod.map id f) }

theorem map_orderedInsert (entries : List (UInt64 × τ)) (when_ : UInt64) (job : τ) :
    (entries.orderedInsert less (when_, job)).map (Prod.map id f) =
      (entries.map (Prod.map id f)).orderedInsert less (when_, f job) := by
  induction entries with
  | nil => rfl
  | cons e entries ih =>
    rw [List.orderedInsert, List.map_cons, List.orderedInsert]
    by_cases hless : less (when_, job) e
    · rw [if_pos hless, if_pos (show less (when_, f job) (Prod.map id f e) from hless)]
      rfl
    · rw [if_neg hless, if_neg (show ¬less (when_, f job) (Prod.map id f e) from hless), List.map_cons,
        ih]

theorem insert_map (q : DelayedQueue τ) (job : τ) (when_ : UInt64) (block room : Bool) :
    (q.map f).insert (f job) when_ block room =
      ((q.insert job when_ block room).1.map f, (q.insert job when_ block room).2.map f) := by
  rw [insert, insert, map]
  split
  · cases block <;> rfl
  · cases room with
    | false => rfl
    | true => simp [map, map_orderedInsert, Outcome.map]

theorem interruptiblePop_map (q : DelayedQueue τ) (resumed : Bool) (now : UInt64) :
    (q.map f).interruptiblePop resumed now =
      ((q.interruptiblePop resumed now).1.map f, (q.interruptiblePop resumed now).2.map f) := by
  obtain ⟨max_size_, length_, queue_⟩ := q
  cases queue_ with
  | nil => cases resumed <;> rfl
  | cons e rest =>
    simp only [interruptiblePop, map, List.map_cons, Prod.map, id]
    split <;> rfl

end map

/-- A queue and its past. Jobs carry the number of their insertion, which the queue does not look at.
`inserted` has the jobs in the order of the numbers, with their times, and `returned` in the order in
which pops returned them. -/
structure World (τ : Type) where
  queue : DelayedQueue (Nat × τ)
  clock : UInt64 := 0
  inserted : List (UInt64 × (Nat × τ)) := []
  returned : List (Nat × τ) := []
  deriving DecidableEq

/-- The nodes of a set are in memory. -/
def memory : Nat := 2^63

namespace World

/-- The clock does not go back, and there is no room behind the end of the memory. -/
def Possible (w : World τ) : Section τ → Prop
  | .insert _ _ _ room => room → w.queue.queue_.length < memory
  | .interruptiblePop _ now => w.clock ≤ now

instance (w : World τ) : (s : Section τ) → Decidable (w.Possible s)
  | .insert _ _ _ room => inferInstanceAs (Decidable (room → w.queue.queue_.length < memory))
  | .interruptiblePop _ now => inferInstanceAs (Decidable (w.clock ≤ now))

/-- A section, and what is noted of it. -/
def enter (w : World τ) : Section τ → World τ
  | .insert job when_ block room =>
    match w.queue.insert (w.inserted.length, job) when_ block room with
    | (q, .inserted) =>
      { w with queue := q, inserted := w.inserted ++ [(when_, (w.inserted.length, job))] }
    | (q, _) => { w with queue := q }
  | .interruptiblePop resumed now =>
    match w.queue.interruptiblePop resumed now with
    | (q, .returned (some job)) => { w with queue := q, clock := now, returned := w.returned ++ [job] }
    | (q, _) => { w with queue := q, clock := now }

def step (w : World τ) (s : Section τ) : Option (World τ) :=
  if w.Possible s then some (w.enter s) else none

/-- The queue as it is constructed. -/
def new (τ : Type) (max_size : UInt64) : World τ := { queue := { max_size_ := max_size } }

end World

/-- The earlier time, and among equals the earlier insertion. -/
def Before (a b : UInt64 × (Nat × τ)) : Prop := a.1 < b.1 ∨ a.1 = b.1 ∧ a.2.1 < b.2.1

/-- The queue is in order, its jobs and the returned ones are all the jobs there are, and the counter
counts it. -/
structure Good (w : World τ) : Prop where
  sorted : w.queue.queue_.Pairwise Before
  perm : (w.returned ++ w.queue.queue_.map Prod.snd).Perm (w.inserted.map Prod.snd)
  numbers : w.inserted.map (fun e => e.2.1) = List.range w.inserted.length
  times : ∀ e ∈ w.queue.queue_, e ∈ w.inserted
  length_eq : w.queue.length_.toNat = w.queue.queue_.length
  length_le : w.queue.length_ ≤ w.queue.max_size_
  in_memory : w.queue.queue_.length ≤ memory

/-- What a section can do: nothing but look at the clock, put a job in, or take the first one out. -/
inductive StepCase (w v : World τ) : Section τ → Prop
  | idle {s : Section τ} (hv : v = { w with clock := v.clock }) (hclock : w.clock ≤ v.clock) :
    StepCase w v s
  | inserted {job : τ} {when_ : UInt64} {block room : Bool}
    (hfree : w.queue.max_size_ ≠ unlimited → w.queue.length_ < w.queue.max_size_)
    (hroom : w.queue.queue_.length < memory)
    (hv : v = { w with
      queue := { w.queue with
        queue_ := w.queue.queue_.orderedInsert less (when_, (w.inserted.length, job))
        length_ := w.queue.length_+1 }
      inserted := w.inserted ++ [(when_, (w.inserted.length, job))] }) :
    StepCase w v (.insert job when_ block room)
  | returned {resumed : Bool} {now time : UInt64} {job : Nat × τ} {rest : List (UInt64 × (Nat × τ))}
    (hhead : w.queue.queue_ = (time, job) :: rest) (hdue : time ≤ now) (hclock : w.clock ≤ now)
    (hv : v = { w with
      queue := { w.queue with queue_ := rest, length_ := w.queue.length_-1 }
      clock := now
      returned := w.returned ++ [job] }) :
    StepCase w v (.interruptiblePop resumed now)

theorem enter_insert (w : World τ) {job : τ} {when_ : UInt64} {block room : Bool}
    (hroom : room → w.queue.queue_.length < memory) :
    StepCase w (w.enter (.insert job when_ block room)) (.insert job when_ block room) := by
  by_cases hfull : w.queue.max_size_ ≠ unlimited ∧ w.queue.max_size_ ≤ w.queue.length_
  · have henter : w.enter (.insert job when_ block room) = w := by
      rw [World.enter, insert, if_pos hfull]
      cases block <;> rfl
    exact .idle (by rw [henter]) (by rw [henter]; exact UInt64.le_refl _)
  · cases room with
    | false =>
      have henter : w.enter (.insert job when_ block false) = w := by
        rw [World.enter, insert, if_neg hfull]
        rfl
      exact .idle (by rw [henter]) (by rw [henter]; exact UInt64.le_refl _)
    | true =>
      refine .inserted (fun hmax => ?_) (hroom rfl) ?_
      · exact UInt64.not_le.1 fun hle => hfull ⟨hmax, hle⟩
      · rw [World.enter, insert, if_neg hfull]
        rfl

theorem enter_interruptiblePop (w : World τ) {resumed : Bool} {now : UInt64} (hclock : w.clock ≤ now) :
    StepCase w (w.enter (.interruptiblePop resumed now)) (.interruptiblePop resumed now) := by
  cases hqueue : w.queue.queue_ with
  | nil =>
    have henter : w.enter (.interruptiblePop resumed now) = { w with clock := now } := by
      rw [World.enter, interruptiblePop, hqueue]
      cases resumed <;> rfl
    exact .idle (by rw [henter]) (by rw [henter]; exact hclock)
  | cons e rest =>
    obtain ⟨time, job⟩ := e
    by_cases hdue : now < time
    · have henter : w.enter (.interruptiblePop resumed now) = { w with clock := now } := by
        simp only [World.enter, interruptiblePop, hqueue, if_pos hdue]
      exact .idle (by rw [henter]) (by rw [henter]; exact hclock)
    · refine .returned hqueue (UInt64.not_lt.1 hdue) hclock ?_
      simp only [World.enter, interruptiblePop, hqueue, if_neg hdue]

theorem step_cases {w v : World τ} {s : Section τ} (h : w.step s = some v) : StepCase w v s := by
  rw [World.step] at h
  split at h
  case isFalse => cases h
  case isTrue hpossible =>
    obtain rfl := Option.some.inj h
    cases s with
    | insert job when_ block room => exact enter_insert w hpossible
    | interruptiblePop resumed now => exact enter_interruptiblePop w hpossible

/- What a section keeps. -/

theorem Before.trans {a b c : UInt64 × (Nat × τ)} (hab : Before a b) (hbc : Before b c) :
    Before a c := by
  obtain hab | ⟨hab, hnum⟩ := hab
  · obtain hbc | ⟨hbc, -⟩ := hbc
    · exact .inl (UInt64.lt_trans hab hbc)
    · exact .inl (hbc ▸ hab)
  · obtain hbc | ⟨hbc, hnum'⟩ := hbc
    · exact .inl (hab ▸ hbc)
    · exact .inr ⟨hab.trans hbc, Nat.lt_trans hnum hnum'⟩

/-- A job with a new number goes behind those of its time. -/
theorem sorted_orderedInsert {entries : List (UInt64 × (Nat × τ))} {e : UInt64 × (Nat × τ)}
    (h : entries.Pairwise Before) (hnew : ∀ e' ∈ entries, e'.2.1 < e.2.1) :
    (entries.orderedInsert less e).Pairwise Before := by
  induction entries with
  | nil => exact List.pairwise_singleton _ _
  | cons b entries ih =>
    obtain ⟨hb, hentries⟩ := List.pairwise_cons.1 h
    obtain ⟨hbnew, hnews⟩ := List.forall_mem_cons.1 hnew
    rw [List.orderedInsert]
    split
    next hless =>
      refine List.pairwise_cons.2 ⟨fun c hc => ?_, h⟩
      obtain rfl | hc := List.mem_cons.1 hc
      · exact .inl hless
      · exact Before.trans (.inl hless) (hb c hc)
    next hnot =>
      have hbe : Before b e := by
        obtain hlt | heq := UInt64.lt_or_eq_of_le (UInt64.not_lt.1 hnot)
        · exact .inl hlt
        · exact .inr ⟨heq, hbnew⟩
      refine List.pairwise_cons.2 ⟨fun c hc => ?_, ih hentries hnews⟩
      obtain rfl | hc := (List.mem_orderedInsert _).1 hc
      · exact hbe
      · exact hb c hc

theorem Good.new (max_size : UInt64) : Good (World.new τ max_size) where
  sorted := List.Pairwise.nil
  perm := List.Perm.nil
  numbers := rfl
  times := List.forall_mem_nil _
  length_eq := rfl
  length_le := UInt64.le_iff_toNat_le.2 (Nat.zero_le _)
  in_memory := Nat.zero_le _

section steps
open scoped List
variable {w v : World τ}

theorem Good.number_lt (h : Good w) {e : UInt64 × (Nat × τ)} (he : e ∈ w.queue.queue_) :
    e.2.1 < w.inserted.length := by
  have hmem := List.mem_map_of_mem (f := fun e : UInt64 × (Nat × τ) => e.2.1) (h.times e he)
  rw [h.numbers] at hmem
  exact List.mem_range.1 hmem

/-- The counter is one further. -/
theorem Good.length_succ (h : Good w) (hroom : w.queue.queue_.length < memory) :
    (w.queue.length_+1).toNat = w.queue.queue_.length+1 := by
  have hlen := h.length_eq
  rw [memory] at hroom
  rw [UInt64.toNat_add, hlen]
  exact Nat.mod_eq_of_lt (by simp; omega)

/-- The counter is one behind. -/
theorem Good.length_pred (h : Good w) {e : UInt64 × (Nat × τ)} {rest : List (UInt64 × (Nat × τ))}
    (hhead : w.queue.queue_ = e :: rest) : (w.queue.length_-1).toNat = rest.length := by
  have hlen := h.length_eq
  rw [hhead, List.length_cons] at hlen
  have hone : (1 : UInt64) ≤ w.queue.length_ := by
    rw [UInt64.le_iff_toNat_le, hlen]
    exact Nat.succ_le_succ (Nat.zero_le _)
  rw [UInt64.toNat_sub_of_le _ _ hone, hlen]
  exact Nat.add_sub_cancel _ _

theorem Good.insert (h : Good w) {job : τ} {when_ : UInt64}
    (hfree : w.queue.max_size_ ≠ unlimited → w.queue.length_ < w.queue.max_size_)
    (hroom : w.queue.queue_.length < memory) :
    Good { w with
      queue := { w.queue with
        queue_ := w.queue.queue_.orderedInsert less (when_, (w.inserted.length, job))
        length_ := w.queue.length_+1 }
      inserted := w.inserted ++ [(when_, (w.inserted.length, job))] } where
  sorted := sorted_orderedInsert h.sorted fun e he => h.number_lt he
  perm := by
    have hqueue := (List.perm_orderedInsert less (when_, (w.inserted.length, job))
      w.queue.queue_).map Prod.snd
    rw [List.map_append, List.map_singleton]
    calc
      _ ~ w.returned ++ (w.inserted.length, job) :: w.queue.queue_.map Prod.snd :=
        hqueue.append_left w.returned
      _ ~ (w.inserted.length, job) :: (w.returned ++ w.queue.queue_.map Prod.snd) :=
        List.perm_middle
      _ ~ (w.inserted.length, job) :: w.inserted.map Prod.snd := h.perm.cons _
      _ ~ _ := (List.perm_append_singleton _ _).symm
  numbers := by
    rw [List.map_append, h.numbers, List.length_append, List.length_singleton, List.range_succ]
    rfl
  times := by
    intro e he
    obtain rfl | he := (List.mem_orderedInsert _).1 he
    · exact List.mem_append_right _ (List.mem_singleton_self _)
    · exact List.mem_append_left _ (h.times e he)
  length_eq := by
    rw [h.length_succ hroom]
    exact ((List.perm_orderedInsert less _ _).length_eq).symm
  length_le := by
    have hsucc := h.length_succ hroom
    rw [UInt64.le_iff_toNat_le, hsucc, ← h.length_eq]
    by_cases hmax : w.queue.max_size_ = unlimited
    · have hval : unlimited.toNat = 2^64-1 := by decide
      rw [memory] at hroom
      rw [hmax, hval, h.length_eq]
      omega
    · exact UInt64.lt_iff_toNat_lt.1 (hfree hmax)
  in_memory := by
    have hlen := (List.perm_orderedInsert less (when_, (w.inserted.length, job))
      w.queue.queue_).length_eq
    rw [hlen]
    exact hroom

theorem Good.pop (h : Good w) {now time : UInt64} {job : Nat × τ} {rest : List (UInt64 × (Nat × τ))}
    (hhead : w.queue.queue_ = (time, job) :: rest) :
    Good { w with
      queue := { w.queue with queue_ := rest, length_ := w.queue.length_-1 }
      clock := now
      returned := w.returned ++ [job] } where
  sorted := by
    have hsorted := h.sorted
    rw [hhead] at hsorted
    exact (List.pairwise_cons.1 hsorted).2
  perm := by
    have hperm := h.perm
    rw [hhead, List.map_cons] at hperm
    rw [List.append_assoc]
    exact hperm
  numbers := h.numbers
  times := by
    intro e he
    exact h.times e (by rw [hhead]; exact List.mem_cons_of_mem _ he)
  length_eq := h.length_pred hhead
  length_le := by
    have hlen := h.length_eq
    have hle := UInt64.le_iff_toNat_le.1 h.length_le
    rw [hhead, List.length_cons] at hlen
    rw [UInt64.le_iff_toNat_le, h.length_pred hhead]
    change rest.length ≤ w.queue.max_size_.toNat
    omega
  in_memory := by
    have hlen := h.in_memory
    rw [hhead, List.length_cons] at hlen
    exact Nat.le_of_succ_le hlen

theorem Good.step (h : Good w) {s : Section τ} (hstep : w.step s = some v) : Good v := by
  cases step_cases hstep with
  | idle hv _ =>
    rw [hv]
    exact ⟨h.sorted, h.perm, h.numbers, h.times, h.length_eq, h.length_le, h.in_memory⟩
  | inserted hfree hroom hv =>
    rw [hv]
    exact h.insert hfree hroom
  | returned hhead _ _ hv =>
    rw [hv]
    exact h.pop hhead

/-- A pop returns the first job that is due. -/
theorem Good.returned_first (h : Good w) {s : Section τ} (hstep : w.step s = some v) {job : Nat × τ}
    (hreturned : v.returned = w.returned ++ [job]) :
    ∃ time, (time, job) ∈ w.queue.queue_ ∧ time ≤ v.clock ∧
      ∀ e ∈ w.queue.queue_, e ≠ (time, job) → Before (time, job) e := by
  cases step_cases hstep with
  | idle hv _ =>
    rw [hv] at hreturned
    simp at hreturned
  | inserted hfree hroom hv =>
    rw [hv] at hreturned
    simp at hreturned
  | @returned _ now time job' rest hhead hdue hclock hv =>
    rw [hv] at hreturned
    obtain rfl : job' = job := by simpa using hreturned
    have hsorted := h.sorted
    rw [hhead] at hsorted
    refine ⟨time, by rw [hhead]; exact List.mem_cons_self, by rw [hv]; exact hdue, ?_⟩
    intro e he hne
    rw [hhead] at he
    obtain rfl | he := List.mem_cons.1 he
    · exact absurd rfl hne
    · exact (List.pairwise_cons.1 hsorted).1 e he

theorem max_size_step {s : Section τ} (hstep : w.step s = some v) :
    v.queue.max_size_ = w.queue.max_size_ := by
  cases step_cases hstep with
  | idle hv _ | inserted _ _ hv | returned _ _ _ hv => rw [hv]

theorem clock_step {s : Section τ} (hstep : w.step s = some v) : w.clock ≤ v.clock := by
  cases step_cases hstep with
  | idle _ hclock => exact hclock
  | inserted _ _ hv =>
    rw [hv]
    exact UInt64.le_refl _
  | returned _ _ hclock hv =>
    rw [hv]
    exact hclock

/-- No number is returned twice. -/
theorem Good.nodup_returned (h : Good w) : (w.returned.map Prod.fst).Nodup := by
  have hall : ((w.returned ++ w.queue.queue_.map Prod.snd).map Prod.fst).Nodup := by
    rw [(h.perm.map Prod.fst).nodup_iff, List.map_map]
    have hnumbers := h.numbers
    change w.inserted.map (Prod.fst ∘ Prod.snd) = _ at hnumbers
    rw [hnumbers]
    exact List.nodup_range
  rw [List.map_append] at hall
  exact hall.of_append_left

end steps

open Runs in
/-- In every run each job is returned at most once and stays in the queue until then, a pop returns the
first of the jobs and only when it is due, and the counter counts the jobs of the queue. -/
theorem delivers_in_order {max_size : UInt64} {sections : List (Section τ)} {w : World τ}
    (h : Run World.step (World.new τ max_size) sections w) :
    (w.returned ++ w.queue.queue_.map Prod.snd).Perm (w.inserted.map Prod.snd) ∧
      (w.returned.map Prod.fst).Nodup ∧ (∀ e ∈ w.queue.queue_, e ∈ w.inserted) ∧
      w.queue.length_.toNat = w.queue.queue_.length ∧ w.queue.length_ ≤ max_size ∧
      ∀ s v, w.step s = some v → w.clock ≤ v.clock ∧
        ∀ job, v.returned = w.returned ++ [job] →
          ∃ time, (time, job) ∈ w.queue.queue_ ∧ time ≤ v.clock ∧
            ∀ e ∈ w.queue.queue_, e ≠ (time, job) → Before (time, job) e := by
  obtain ⟨hgood, hmax⟩ : Good w ∧ w.queue.max_size_ = max_size :=
    h.invariant (P := fun w => Good w ∧ w.queue.max_size_ = max_size) ⟨Good.new max_size, rfl⟩
      fun _ _ _ hpast _ hstep => ⟨hpast.1.step hstep, (max_size_step hstep).trans hpast.2⟩
  have hle := hgood.length_le
  rw [hmax] at hle
  refine ⟨hgood.perm, hgood.nodup_returned, hgood.times, hgood.length_eq, hle, ?_⟩
  intro s v hstep
  exact ⟨clock_step hstep, fun job hreturned => hgood.returned_first hstep hreturned⟩

/-- Two jobs for one time and a later one, in a queue of two: a third has to wait. -/
def sampleSections : List (Section String) :=
  [.insert "a" 5 false true, .insert "b" 5 true true, .insert "c" 1 true true,
    .interruptiblePop false 4, .interruptiblePop false 5, .insert "c" 1 true true,
    .interruptiblePop false 6]

theorem delivers_in_order_sample : ∃ w, Runs.Run World.step (World.new String 2) sampleSections w ∧
    w.returned = [(0, "a"), (2, "c")] ∧ (w.returned.map Prod.fst).Nodup := by
  have hruns : (sampleSections.foldlM (Runs.guarded World.step fun _ _ => True)
      (World.new String 2)).map World.returned = some [(0, "a"), (2, "c")] := by decide +kernel
  obtain ⟨w, hrun, hreturned⟩ := Runs.exists_of_foldlM _ hruns
  exact ⟨w, hrun, hreturned, (delivers_in_order hrun).2.1⟩

end DelayedQueue
end Stx.Thread
