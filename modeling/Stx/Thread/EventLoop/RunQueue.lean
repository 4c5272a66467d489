import Stx.Thread.EventLoop

/-! The tasks that are appended against those that are run. -/
namespace Stx.Thread
open EventLoop
variable {τ : Type}

def Action.appended? : Action τ → Option τ
  | .append t | .appendToRunQ t => some t
  | _ => none

def Action.executed? : Action τ → Option τ
  | .task t => some t
  | _ => none

def appended (as : List (Action τ)) : List τ := as.filterMap Action.appended?

def executed (as : List (Action τ)) : List τ := as.filterMap Action.executed?

/-- The rest of the local list of `onRunQWakeup`. -/
def Position.left : Position τ → List τ
  | .tasks rest _ => rest
  | _ => []

section traces
variable {as : List (Action τ)} {a : Action τ} {task : τ}

theorem appended_some (h : a.appended? = some task) :
    appended (as ++ [a]) = appended as ++ [task] := by
  simp [appended, h]

theorem appended_other (h : a.appended? = none) : appended (as ++ [a]) = appended as := by
  simp [appended, h]

theorem executed_task : executed (as ++ [.task task]) = executed as ++ [task] := by
  simp [executed, Action.executed?]

theorem executed_other (h : a.executed? = none) : executed (as ++ [a]) = executed as := by
  simp [executed, h]

end traces

namespace System
variable {s t : System τ} {a : Action τ} {as : List (Action τ)}

/-- A select to come finds the pipe readable, or the queue is taken before the next one. -/
def Woken (s : System τ) : Prop :=
  s.loop.runq_wakeup_pipe_ ∈ s.loop.op_read_ ∧
    (0 < s.pipe ∨ 0 < s.waking ∨ ∃ ready, s.position = .drained ready)

/-- The thread of the loop can go on. -/
def Alive (s : System τ) : Prop := s.Defined ∧ s.position ≠ .waiting

/-- The tasks that have been run, those in hand and those in the queue are those appended, in this
order, and the loop does not sleep over the queue. -/
structure Serves (as : List (Action τ)) (s : System τ) : Prop where
  alive : s.Alive
  order : executed as ++ (s.position.left ++ s.loop.runq_) = appended as
  woken : s.loop.runq_ ≠ [] → s.Woken

/-- No exception leaves poll while tasks are in hand, the pipe is watched where the queue is not
empty, the thread that reads it does not fill it, and the sets are used within their bounds. -/
def Kept (s : System τ) : Action τ → Prop
  | .raises => s.position.left = []
  | .append _ => s.loop.runq_wakeup_pipe_ ∈ s.loop.op_read_
  | .appendToRunQ _ => s.loop.runq_wakeup_pipe_ ∈ s.loop.op_read_ ∧ s.pipe < pipeCapacity
  | .runOnReadable _ fd | .runOnWritable _ fd => fd ≠ FD_SETSIZE
  | .cancelFD fd => fd < FD_SETSIZE ∧ (fd = s.loop.runq_wakeup_pipe_ → s.loop.runq_ = [])
  | _ => True

theorem kept_runOn {op : Op} {task : τ} {fd : Nat} :
    s.Kept (.runOn op task fd) ↔ fd ≠ FD_SETSIZE := by
  cases op <;> rfl

theorem other_runOn {op : Op} {task : τ} {fd : Nat} :
    (Action.runOn op task fd).appended? = none ∧ (Action.runOn op task fd).executed? = none := by
  cases op <;> exact ⟨rfl, rfl⟩

/-- Functions are called from the list of the tasks and from the loop over the descriptors. -/
def Calls (s : System τ) : Prop :=
  s.calling = true → s.position ≠ .outside ∧ ∀ ready, s.position ≠ .woken ready ∧
    s.position ≠ .drained ready

theorem calls_new (runq_fd : Nat) : (new runq_fd : System τ).Calls := fun h => by cases h

theorem Takes.calls (h : Takes s a t) (hs : s.Calls) : t.Calls := by
  cases h with
  | runOn | refused | cancelFD | appendToRunQ | append | wakeup | shutdown | interrupted => exact hs
  | select hpos hops => exact fun hcalling => absurd hpos (hs hcalling).1
  | @drain ready hpos => exact fun hcalling => absurd hpos ((hs hcalling).2 ready).1
  | @splice ready hpos => exact fun hcalling => absurd hpos ((hs hcalling).2 ready).2
  | task | scan | pass | dispatch => exact fun _ => ⟨by simp, fun _ => by simp⟩
  | leave hpos hcalling => exact fun h => by cases hcalling.symm.trans h
  | passed | strayed | waits | overrun | returns | raises => exact fun h => by cases h

theorem serves_new {runq_fd : Nat} (hpipe : runq_fd < FD_SETSIZE) :
    (new runq_fd : System τ).Serves [] := by
  have hpos : (new runq_fd : System τ).position = .outside := if_pos hpipe
  refine ⟨⟨by simp [Defined, hpos], by simp [hpos]⟩, ?_, fun h => absurd rfl h⟩
  rw [hpos]
  rfl

theorem not_serves_undefined : ¬s.undefined.Serves as := fun h => h.alive.1 rfl

/-- An action that is neither an append nor a task, and leaves the tasks where they are. -/
theorem Serves.quiet (h : s.Serves as) (ha : a.appended? = none ∧ a.executed? = none)
    (hleft : t.position.left = s.position.left) (hrunq : t.loop.runq_ = s.loop.runq_)
    (halive : s.Alive → t.Alive) (hwoken : s.Woken → t.Woken) : t.Serves (as ++ [a]) where
  alive := halive h.alive
  order := by
    rw [executed_other ha.2, appended_other ha.1, hleft, hrunq]
    exact h.order
  woken hne := by
    rw [hrunq] at hne
    exact hwoken (h.woken hne)

/-- Woken by the pipe, where the position is not the one behind the drain. -/
theorem Woken.move (h : s.Woken) (hloop : t.loop.runq_wakeup_pipe_ ∈ t.loop.op_read_)
    (hpipe : t.pipe = s.pipe) (hwaking : t.waking = s.waking)
    (hpos : ∀ ready, s.position ≠ .drained ready) : t.Woken := by
  refine ⟨hloop, ?_⟩
  rw [hpipe, hwaking]
  obtain ⟨-, hbyte | hcall | ⟨ready, hdrained⟩⟩ := h
  · exact .inl hbyte
  · exact .inr (.inl hcall)
  · exact absurd hdrained (hpos ready)

/-- A task behind all that were appended before, in the queue of a loop that is woken for it. -/
theorem Serves.appended {task : τ} (h : s.Serves as) (ha : a.appended? = some task)
    (hnone : a.executed? = none) (hpos : t.position = s.position)
    (hrunq : t.loop.runq_ = s.loop.runq_ ++ [task]) (hwoken : t.Woken) : t.Serves (as ++ [a]) where
  alive := by
    rw [Alive, Defined, hpos]
    exact h.alive
  order := by
    rw [executed_other hnone, appended_some ha, hpos, hrunq, ← h.order]
    simp
  woken _ := hwoken

/-- What the pipe being watched comes to when a task is appended. -/
theorem Serves.watched {task : τ} (h : t.Serves as) (hrunq : t.loop.runq_ = s.loop.runq_ ++ [task])
    (hpipe : t.loop.runq_wakeup_pipe_ = s.loop.runq_wakeup_pipe_)
    (hops : t.loop.op_read_ = s.loop.op_read_) :
    s.loop.runq_wakeup_pipe_ ∈ s.loop.op_read_ := by
  rw [← hpipe, ← hops]
  exact (h.woken (by simp [hrunq])).1

theorem Takes.serves_cancel {fd : Nat} (hfd : fd < FD_SETSIZE) (hs : s.Serves as) :
    Serves (as ++ [.cancelFD fd]) { s with loop := s.loop.cancel fd } ↔ s.Kept (.cancelFD fd) := by
  constructor
  · refine fun ht => ⟨hfd, fun hpipe => ?_⟩
    by_contra hne
    have hmem := (ht.woken hne).1
    exact (Finset.mem_erase.1 hmem).1 hpipe.symm
  · intro hkept
    have horder : executed (as ++ [.cancelFD fd]) ++ (s.position.left ++ s.loop.runq_) =
        Thread.appended (as ++ [.cancelFD fd]) := by
      rw [executed_other rfl, appended_other rfl]
      exact hs.order
    refine ⟨hs.alive, horder, fun hne => ?_⟩
    have hwoken := hs.woken hne
    exact ⟨Finset.mem_erase.2 ⟨fun heq => hne (hkept.2 heq.symm), hwoken.1⟩, hwoken.2⟩

theorem Takes.serves_raises (hcalls : s.Calls) (hs : s.Serves as) (hcalling : s.calling = true) :
    Serves (as ++ [.raises]) { s with calling := false, position := .outside } ↔
      s.Kept .raises := by
  constructor
  · intro ht
    have horder := ht.order
    rw [executed_other rfl, appended_other rfl, ← hs.order] at horder
    simpa [Position.left, Kept] using horder
  · intro hkept
    have hleft : s.position.left = [] := hkept
    refine hs.quiet ⟨rfl, rfl⟩ hleft.symm rfl (fun _ => ⟨by simp [Defined], by simp⟩) fun hwoken => ?_
    exact hwoken.move hwoken.1 rfl rfl fun ready => ((hcalls hcalling).2 ready).2

theorem Takes.serves_iff (h : Takes s a t) (hmax : s.loop.max_fd_ < FD_SETSIZE) (hcalls : s.Calls)
    (hs : s.Serves as) : t.Serves (as ++ [a]) ↔ s.Kept a := by
  cases h with
  | @runOn op task fd l hthread hl =>
    refine ⟨fun _ => kept_runOn.2 hl.fd_lt.ne,
      fun _ => hs.quiet other_runOn rfl hl.runq_ id fun hwoken => ?_⟩
    have hmem := (hl.mem_ops .read s.loop.runq_wakeup_pipe_).2 (.inl hwoken.1)
    rw [← hl.runq_wakeup_pipe_] at hmem
    exact ⟨hmem, hwoken.2⟩
  | refused hthread hfd =>
    exact ⟨fun _ => kept_runOn.2 hfd.ne', fun _ => hs.quiet other_runOn rfl rfl id id⟩
  | passed hthread =>
    exact ⟨fun ht => absurd ht not_serves_undefined, fun hkept => absurd rfl (kept_runOn.1 hkept)⟩
  | cancelFD hthread hfd => exact serves_cancel hfd hs
  | strayed hthread hfd =>
    exact ⟨fun ht => absurd ht not_serves_undefined, fun hkept => absurd hkept.1 (Nat.not_lt.2 hfd)⟩
  | appendToRunQ hthread hroom =>
    refine ⟨fun ht => ⟨ht.watched rfl rfl rfl, hroom⟩, fun hkept => ?_⟩
    exact hs.appended rfl rfl rfl rfl ⟨hkept.1, .inl (Nat.succ_pos _)⟩
  | waits hthread hfull =>
    exact ⟨fun ht => absurd rfl ht.alive.2, fun hkept => absurd hkept.2 (Nat.not_lt.2 hfull)⟩
  | append =>
    refine ⟨fun ht => ht.watched rfl rfl rfl, fun hkept => ?_⟩
    exact hs.appended rfl rfl rfl rfl ⟨hkept, .inr (.inl (Nat.succ_pos _))⟩
  | wakeup hwaking =>
    refine ⟨fun _ => trivial, fun _ => hs.quiet ⟨rfl, rfl⟩ rfl rfl id fun hwoken => ?_⟩
    exact ⟨hwoken.1, .inl (Nat.succ_pos _)⟩
  | shutdown =>
    refine ⟨fun _ => trivial, fun _ => hs.quiet ⟨rfl, rfl⟩ rfl rfl id fun hwoken => ?_⟩
    exact ⟨hwoken.1, .inr (.inl (Nat.succ_pos _))⟩
  | interrupted hpos => exact ⟨fun _ => trivial, fun _ => hs.quiet ⟨rfl, rfl⟩ rfl rfl id id⟩
  | select hpos hops =>
    refine ⟨fun _ => trivial, fun _ => hs.quiet ⟨rfl, rfl⟩ ?_ rfl (fun _ => ?_) fun hwoken => ?_⟩
    · rw [hpos]
      dsimp only
      split
      · rfl
      · rfl
    · dsimp only [Alive, Defined]
      split
      · simp
      · simp
    · exact hwoken.move hwoken.1 rfl rfl (by simp [hpos])
  | @drain ready hpos =>
    refine ⟨fun _ => trivial, fun _ => hs.quiet ⟨rfl, rfl⟩ (by rw [hpos]; rfl) rfl
      (fun _ => ⟨by simp [Defined], by simp⟩) fun hwoken => ?_⟩
    exact ⟨hwoken.1, .inr (.inr ⟨ready, rfl⟩)⟩
  | splice hpos =>
    refine ⟨fun _ => trivial, fun _ => ⟨⟨by simp [Defined], by simp⟩, ?_, fun hne => absurd rfl hne⟩⟩
    rw [executed_other rfl, appended_other rfl, ← hs.order, hpos]
    simp [Position.left]
  | task hpos hcalling =>
    refine ⟨fun _ => trivial, fun _ => ⟨⟨by simp [Defined], by simp⟩, ?_, fun hne => ?_⟩⟩
    · rw [executed_task, appended_other rfl, ← hs.order, hpos]
      simp [Position.left]
    · exact (hs.woken hne).move (hs.woken hne).1 rfl rfl (by simp [hpos])
  | scan hpos hcalling =>
    refine ⟨fun _ => trivial, fun _ => hs.quiet ⟨rfl, rfl⟩ (by rw [hpos]; rfl) rfl
      (fun _ => ⟨by simp [Defined], by simp⟩) fun hwoken => ?_⟩
    exact hwoken.move hwoken.1 rfl rfl (by simp [hpos])
  | pass hpos hcalling hpass =>
    refine ⟨fun _ => trivial, fun _ => hs.quiet ⟨rfl, rfl⟩ (by rw [hpos]; rfl) rfl
      (fun _ => ⟨by simp [Defined], by simp⟩) fun hwoken => ?_⟩
    exact hwoken.move hwoken.1 rfl rfl (by simp [hpos])
  | overrun hpos hcalling hfd hle => exact absurd hle (by omega)
  | @dispatch fd ready op hpos hcalling hfd hop =>
    refine ⟨fun _ => trivial, fun _ => hs.quiet ⟨rfl, rfl⟩ (by rw [hpos]; rfl) setOps_runq_
      (fun _ => ⟨by simp [Defined], by simp⟩) fun hwoken => ?_⟩
    refine hwoken.move ?_ rfl rfl (by simp [hpos])
    have hpipe : (s.loop.clear op fd).runq_wakeup_pipe_ = s.loop.runq_wakeup_pipe_ :=
      setOps_runq_wakeup_pipe_
    have hmem : s.loop.runq_wakeup_pipe_ ∈ (s.loop.clear op fd).ops .read :=
      mem_ops_clear.2 ⟨hwoken.1, fun _ => hfd.symm⟩
    rw [hpipe]
    exact hmem
  | leave hpos hcalling =>
    refine ⟨fun _ => trivial, fun _ => hs.quiet ⟨rfl, rfl⟩ (by rw [hpos]; rfl) rfl
      (fun _ => ⟨by simp [Defined], by simp⟩) fun hwoken => ?_⟩
    exact hwoken.move hwoken.1 rfl rfl (by simp [hpos])
  | returns hcalling => exact ⟨fun _ => trivial, fun _ => hs.quiet ⟨rfl, rfl⟩ rfl rfl id id⟩
  | raises hcalling => exact serves_raises hcalls hs hcalling

variable [DecidableEq τ]

theorem calls_of_run {runq_fd : Nat} (h : Runs.Run step (new runq_fd) as s) : s.Calls :=
  h.invariant (calls_new runq_fd) fun _ _ _ hs _ hstep => (takes_of_step hstep).calls hs

/-- All along a run the tasks are run once, in order, and none is forgotten, if and only if the pipe
has a place in the sets and every action is one of those in `Kept`. -/
theorem tasks_served_iff (runq_fd : Nat) (h : Runs.Run step (new runq_fd) as s) :
    (∀ as' t, as' <+: as → Runs.Run step (new runq_fd : System τ) as' t → t.Serves as') ↔
      runq_fd < FD_SETSIZE ∧ Runs.Reaches step Kept (new runq_fd) as s := by
  by_cases hpipe : runq_fd < FD_SETSIZE
  · rw [and_iff_right hpipe]
    exact h.throughout_iff (serves_new hpipe) fun _ _ _ _ hrun hs hstep =>
      (takes_of_step hstep).serves_iff (max_fd_lt_of_run hpipe hrun) (calls_of_run hrun) hs
  · have hpos : (new runq_fd : System τ).position = .undefined := if_neg hpipe
    exact ⟨fun hall => absurd hpos (hall [] _ List.nil_prefix .start).alive.1,
      fun hpipe' => absurd hpipe'.1 hpipe⟩

/-- A task is appended by another thread, and one by the first of them. -/
def twice : List (Action Nat) :=
  [.append 1, .wakeup, .select ⟨{3}, ∅⟩, .drain, .splice, .task 1, .appendToRunQ 2, .returns, .scan,
    .visit 0 none, .visit 1 none, .visit 2 none, .visit 3 none, .leave, .select ⟨{3}, ∅⟩, .drain,
    .splice, .task 2, .raises]

theorem tasks_served_twice :
    ∃ s : System Nat, Runs.Run step (new 3) twice s ∧
      ((∀ as' t, as' <+: twice → Runs.Run step (new 3 : System Nat) as' t → t.Serves as') ↔
        3 < FD_SETSIZE ∧ Runs.Reaches step Kept (new 3) twice s) :=
  have hrun := Runs.reaches_of_foldlM rfl
  ⟨_, hrun, tasks_served_iff 3 hrun⟩

/-- The exception of the first task takes the second one with it. -/
theorem raised_not_served :
    ∃ s : System Nat,
      Runs.Run step (new 3)
        [.append 1, .append 2, .wakeup, .wakeup, .select ⟨{3}, ∅⟩, .drain, .splice, .task 1, .raises]
        s ∧
      ¬s.Serves
        [.append 1, .append 2, .wakeup, .wakeup, .select ⟨{3}, ∅⟩, .drain, .splice, .task 1,
          .raises] := by
  refine ⟨_, Runs.reaches_of_foldlM rfl, fun hserves => ?_⟩
  exact absurd hserves.order (by decide)

end System
end Stx.Thread
