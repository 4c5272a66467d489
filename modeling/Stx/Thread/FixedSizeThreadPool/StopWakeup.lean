import Stx.Thread.FixedSizeThreadPool
import Mathlib.Data.List.Perm.Basic

/-! Which workers the `notify_all` of `stop` reaches. -/
namespace Stx.Thread

namespace FixedSizeThreadPool
variable {τ : Type}

/-- `stop` has issued its `notify_all`, and a worker waits, or is about to wait on the empty queue. -/
def Missed (p : FixedSizeThreadPool τ) : Prop :=
  p.stopper.notified = true ∧ (.waits ∈ p.threads_ ∨ .pops ∈ p.threads_ ∧ p.queue_.queue_ = [])

/-- The next step of the worker `i` takes the only job of the queue. -/
def TakesLast (p : FixedSizeThreadPool τ) (i : Nat) : Prop :=
  (p.threads_[i]? = some .pops ∨ p.threads_[i]? = some .woken) ∧ p.queue_.queue_.length = 1

/-- When `stop` issues its `notify_all`, or a worker takes the last job behind it, the queue does not
get empty in front of a worker that stands between its test of `running_` and its section. -/
def Meets (p : FixedSizeThreadPool τ) : Action τ → Prop
  | .stopper => p.stopper = .notifies → p.queue_.queue_ = [] → .pops ∉ p.threads_
  | .worker i => p.stopper.notified = true → p.TakesLast i → .pops ∉ p.threads_.eraseIdx i
  | _ => True

instance [DecidableEq τ] (p : FixedSizeThreadPool τ) (i : Nat) : Decidable (p.TakesLast i) :=
  inferInstanceAs (Decidable (_ ∧ _))

instance [DecidableEq τ] (p : FixedSizeThreadPool τ) : (a : Action τ) → Decidable (p.Meets a)
  | .stopper => inferInstanceAs (Decidable (_ → _ → _))
  | .worker _ => inferInstanceAs (Decidable (_ → _ → _))
  | .start | .run _ | .caller _ | .returns _ | .raises _ _ | .stop => inferInstanceAs (Decidable True)

section stopping
variable {p u : FixedSizeThreadPool τ} {a : Action τ} {as : List (Action τ)} {i : Nat}
  {nthreads : Nat} {maxqueuelen : UInt64} {block : Bool}

@[simp] theorem notified_wake (s : Stopper) : s.wake.notified = s.notified := by cases s <;> rfl

@[simp] theorem cleared_wake (s : Stopper) : s.wake.cleared = s.cleared := by cases s <;> rfl

theorem cleared_of_notified {s : Stopper} (h : s.notified = true) : s.cleared = true := by
  cases s <;> first | rfl | cases h

theorem not_notified {s : Stopper} (h : s.cleared = false) : s.notified = false := by
  cases hs : s.notified with
  | false => rfl
  | true => rw [cleared_of_notified hs] at h; cases h

/-- `running_` stays false when `stop` has cleared it. -/
theorem running_of_run (h : Runs.Run step (new nthreads maxqueuelen block) as p)
    (hcleared : p.stopper.cleared = true) : p.running_ = false := by
  have hinv : p.stopper.cleared = true → p.running_ = false := by
    refine Runs.Reaches.invariant
      (P := fun p : FixedSizeThreadPool τ => p.stopper.cleared = true → p.running_ = false) h
      (fun _ => rfl) ?_
    intro t a u ht _ hstep hu
    cases moves_of_step hstep with
    | start hstopper => simp [hstopper, Stopper.cleared, Stopper.notified] at hu
    | stop ha hstopper hnext =>
      change Stopper.cleared _ = true at hu
      rw [hnext] at hu
      cases hu
    | clears hstopper => rfl
    | notifies hstopper => exact ht (by rw [hstopper]; rfl)
    | joins hstopper hnext => exact ht (cleared_of_notified hstopper)
    | callerNotifies i => exact ht (by simpa [notifyAll, setCaller] using hu)
    | workerNotifies hi => exact ht (by simpa [notifyAll, set] using hu)
    | run | caller | tests | waits | gives | takes | ends => exact ht hu
  exact hinv hcleared

theorem mem_map_wake {w : Worker τ} {l : List (Worker τ)} (h : w ∈ l.map Worker.wake)
    (hw : w ≠ .woken) : w ∈ l ∧ w ≠ .waits := by
  obtain ⟨v, hv, rfl⟩ := List.mem_map.1 h
  cases v with
  | waits => exact absurd rfl hw
  | tests | pops | woken | notifies | calls | left => exact ⟨hv, by simp [Worker.wake]⟩

theorem pops_mem_map_wake {l : List (Worker τ)} (h : .pops ∈ l) : .pops ∈ l.map Worker.wake :=
  List.mem_map.2 ⟨.pops, h, rfl⟩

/-- A worker that comes to another place, and not in front of the queue, misses nothing new. -/
theorem missed_set {w : Worker τ} (hpops : w ≠ .pops) (hwaits : w ≠ .waits)
    (h : (p.set i w).Missed) : p.Missed := by
  have hmem : ∀ v : Worker τ, w ≠ v → v ∈ (p.set i w).threads_ → v ∈ p.threads_ := fun v hne hv =>
    (List.mem_or_eq_of_mem_set hv).resolve_right hne.symm
  refine ⟨h.1, ?_⟩
  cases h.2 with
  | inl hwait => exact .inl (hmem _ hwaits hwait)
  | inr hpop => exact .inr ⟨hmem _ hpops hpop.1, hpop.2⟩

theorem missed_notifyAll (h : p.notifyAll.Missed) : p.Missed := by
  obtain ⟨hnotified, hwait | ⟨hpop, hempty⟩⟩ := h
  · exact absurd rfl (mem_map_wake hwait (by simp)).2
  · exact ⟨by simpa [notifyAll] using hnotified, .inr ⟨(mem_map_wake hpop (by simp)).1, hempty⟩⟩

/-- The step lemma: where nobody is missed, one step misses nobody if and only if it meets the
condition. -/
theorem not_missed_iff (hrunning : p.stopper.cleared = true → p.running_ = false)
    (hp : ¬p.Missed) (h : p.Moves a u) : ¬u.Missed ↔ p.Meets a := by
  cases h with
  | start hstopper =>
    refine iff_of_true (fun hu => ?_) trivial
    simp [Missed, hstopper, Stopper.notified] at hu
  | run task => exact iff_of_true hp trivial
  | @caller i callers q hqueue =>
    refine iff_of_true (fun hu => hp ⟨hu.1, ?_⟩) trivial
    refine hu.2.imp_right fun hpop => ⟨hpop.1, ?_⟩
    exact List.prefix_nil.1 (hpop.2 ▸ hqueue)
  | callerNotifies i => exact iff_of_true (fun hu => hp (missed_notifyAll hu)) trivial
  | @stop _ stopper ha hstopper hnext =>
    refine iff_of_true (fun hu => ?_) ?_
    · have hnotified : stopper.notified = true := hu.1
      rw [not_notified hnext] at hnotified
      cases hnotified
    · cases a with
      | stopper =>
        intro heq
        rw [heq] at hstopper
        cases hstopper
      | worker i => cases ha
      | start | run | caller | returns | raises | stop => trivial
  | clears hstopper =>
    refine iff_of_true (fun hu => ?_) ?_
    · cases hu.1
    · intro heq
      rw [heq] at hstopper
      cases hstopper
  | notifies hstopper =>
    constructor
    · intro hu _ hempty hpop
      exact hu ⟨rfl, .inr ⟨pops_mem_map_wake hpop, hempty⟩⟩
    · rintro hmeets ⟨-, hwait | ⟨hpop, hempty⟩⟩
      · exact absurd rfl (mem_map_wake hwait (by simp)).2
      · exact hmeets hstopper hempty (mem_map_wake hpop (by simp)).1
  | joins hstopper hnext =>
    refine iff_of_true (fun hu => hp ⟨hstopper, hu.2⟩) ?_
    intro heq
    rw [heq] at hstopper
    cases hstopper
  | @tests i hi =>
    refine iff_of_true (fun hu => ?_) ?_
    · -- behind the `notify_all` the flag is false, so the worker leaves
      have hfalse := hrunning (cleared_of_notified hu.1)
      rw [hfalse] at hu
      exact hp (missed_set (by simp) (by simp) hu)
    · rintro _ ⟨hi' | hi', _⟩ <;> rw [hi] at hi' <;> cases hi'
  | @waits i hi hempty =>
    refine iff_of_true (fun hu => hp ?_) ?_
    · exact ⟨hu.1, .inr ⟨List.mem_of_getElem? hi, hempty⟩⟩
    · rintro _ ⟨_, hlen⟩
      rw [hempty] at hlen
      cases hlen
  | @gives i hi hempty =>
    refine iff_of_true (fun hu => hp (missed_set (by simp) (by simp) hu)) ?_
    rintro _ ⟨_, hlen⟩
    rw [hempty] at hlen
    cases hlen
  | @takes i job q hi hqueue =>
    have hset : ∀ w : Worker τ, w ≠ .notifies job →
        (w ∈ p.threads_.set i (.notifies job) ↔ w ∈ p.threads_.eraseIdx i) := by
      intro w hw
      obtain ⟨v, hv⟩ : ∃ v, p.threads_[i]? = some v := hi.elim (fun h => ⟨_, h⟩) (fun h => ⟨_, h⟩)
      obtain ⟨hlt, -⟩ := List.getElem?_eq_some_iff.1 hv
      rw [(List.set_perm_cons_eraseIdx hlt _).mem_iff, List.mem_cons, or_iff_right hw]
    constructor
    · intro hu hnotified htakes hpop
      have hlast : q.queue_ = [] := by
        have hlen := htakes.2
        rw [hqueue] at hlen
        exact List.length_eq_zero_iff.1 (Nat.succ_injective hlen)
      exact hu ⟨hnotified, .inr ⟨(hset _ (by simp)).2 hpop, hlast⟩⟩
    · rintro hmeets ⟨hnotified, hwait | ⟨hpop, hempty⟩⟩
      · have hmem := (hset _ (by simp)).1 hwait
        exact hp ⟨hnotified, .inl (List.mem_of_mem_eraseIdx hmem)⟩
      · change q.queue_ = [] at hempty
        refine hmeets hnotified ⟨hi, ?_⟩ ((hset _ (by simp)).1 hpop)
        rw [hqueue, hempty]
        rfl
  | @workerNotifies i job hi =>
    refine iff_of_true (fun hu => hp (missed_set (by simp) (by simp) (missed_notifyAll hu))) ?_
    rintro _ ⟨hi' | hi', _⟩ <;> rw [hi] at hi' <;> cases hi'
  | @ends _ i job raised ha hi =>
    refine iff_of_true (fun hu => hp (missed_set (w := .tests) (by simp) (by simp) hu)) ?_
    rcases ha with rfl | ⟨e, rfl⟩ <;> trivial

/-- The steps of its own that take a worker out of its loop once `running_` is false. -/
def Worker.remaining : Worker τ → Nat
  | .left => 0
  | .tests => 1
  | .calls _ => 2
  | .notifies _ => 3
  | .pops => 4
  | .woken => 4
  | .waits => 5

def remaining (p : FixedSizeThreadPool τ) (i : Nat) : Nat :=
  (p.threads_[i]?.map Worker.remaining).getD 0

theorem remaining_eq {w : Worker τ} (h : p.threads_[i]? = some w) : p.remaining i = w.remaining := by
  rw [remaining, h]
  rfl

theorem remaining_set {w v : Worker τ} (h : p.threads_[i]? = some w) (hle : v.remaining+1 ≤ w.remaining)
    (j : Nat) : (p.set i v).remaining j+(if i = j then 1 else 0) ≤ p.remaining j := by
  obtain ⟨hi, -⟩ := List.getElem?_eq_some_iff.1 h
  by_cases hij : i = j
  · subst hij
    rw [remaining_eq h, remaining, set, List.getElem?_set_self hi, if_pos rfl]
    exact hle
  · rw [remaining, set, List.getElem?_set_ne hij, if_neg hij]
    exact Nat.le_refl _

theorem remaining_notifyAll (j : Nat) : p.notifyAll.remaining j ≤ p.remaining j := by
  rw [remaining, remaining, notifyAll, List.getElem?_map]
  cases p.threads_[j]? with
  | none => exact Nat.le_refl 0
  | some w => cases w <;> simp [Worker.wake, Worker.remaining]

/-- Behind the `notify_all` nothing sets `running_` again. -/
theorem Moves.notified (h : p.Moves a u) (hp : p.stopper.notified = true) :
    u.stopper.notified = true ∧ u.running_ = p.running_ := by
  have hcleared := cleared_of_notified hp
  cases h with
  | start hstopper => rw [hstopper] at hp; cases hp
  | stop ha hstopper hnext => rw [hstopper] at hcleared; cases hcleared
  | clears hstopper => rw [hstopper] at hp; cases hp
  | notifies hstopper => rw [hstopper] at hp; cases hp
  | joins hstopper hnext => exact ⟨hnext, rfl⟩
  | callerNotifies i | workerNotifies hi =>
    refine ⟨?_, rfl⟩
    change p.stopper.wake.notified = true
    rwa [notified_wake]
  | run | caller | tests | waits | gives | takes | ends => exact ⟨hp, rfl⟩

/-- No step takes a worker away from the end of its loop, and its own steps bring it nearer. -/
theorem Moves.remaining_le (h : p.Moves a u) (hp : p.stopper.notified = true)
    (hrunning : p.running_ = false) (hmissed : ¬p.Missed) (j : Nat) :
    u.remaining j+(if a.worker? = some j then 1 else 0) ≤ p.remaining j := by
  have hcleared := cleared_of_notified hp
  cases h with
  | start hstopper => rw [hstopper] at hp; cases hp
  | run | caller | joins => exact Nat.le_refl _
  | callerNotifies i =>
    exact remaining_notifyAll (p := p.setCaller i .returned) j
  | stop ha hstopper hnext => rw [hstopper] at hcleared; cases hcleared
  | clears hstopper => rw [hstopper] at hp; cases hp
  | notifies hstopper => rw [hstopper] at hp; cases hp
  | tests hi =>
    rw [hrunning]
    simpa [Action.worker?] using remaining_set (v := .left) hi (Nat.le_refl 1) j
  | waits hi hempty => exact absurd ⟨hp, .inr ⟨List.mem_of_getElem? hi, hempty⟩⟩ hmissed
  | gives hi hempty =>
    simpa [Action.worker?] using
      remaining_set (w := .woken) (v := .tests) hi (by simp [Worker.remaining]) j
  | @takes i job q hi hqueue =>
    simp only [Action.worker?, Option.some.injEq]
    cases hi with
    | inl hi => exact remaining_set (v := .notifies job) hi (Nat.le_refl 4) j
    | inr hi => exact remaining_set (v := .notifies job) hi (Nat.le_refl 4) j
  | @workerNotifies i job hi =>
    have hset := remaining_set (v := .calls job) hi (Nat.le_refl 3) j
    have hwake := remaining_notifyAll (p := p.set i (.calls job)) j
    simp only [Action.worker?, Option.some.injEq]
    omega
  | @ends _ i job raised ha hi =>
    have hset := remaining_set (v := .tests) hi (Nat.le_refl 2) j
    have hworker : a.worker? = some i := by rcases ha with rfl | ⟨e, rfl⟩ <;> rfl
    simp only [hworker, Option.some.injEq]
    exact hset

theorem reaches_remaining {bs : List (Action τ)} (h : Runs.Reaches step Meets p bs u)
    (hp : p.stopper.notified = true) (hrunning : p.running_ = false) (hmissed : ¬p.Missed) (j : Nat) :
    (u.stopper.notified = true ∧ u.running_ = false ∧ ¬u.Missed) ∧
      u.remaining j+bs.countP (fun a => a.worker? = some j) ≤ p.remaining j := by
  induction h with
  | start => exact ⟨⟨hp, hrunning, hmissed⟩, Nat.le_refl _⟩
  | @next bs t u a hrun hmeets hstep ih =>
    obtain ⟨⟨htp, htr, htm⟩, hle⟩ := ih
    have hmove := moves_of_step hstep
    obtain ⟨hup, hur⟩ := hmove.notified htp
    refine ⟨⟨hup, hur.trans htr, (not_missed_iff (fun _ => htr) htm hmove).2 hmeets⟩, ?_⟩
    have hlast := hmove.remaining_le htp htr htm j
    rw [List.countP_append, List.countP_singleton]
    simp only [decide_eq_true_eq]
    omega

/-- Where jobs come to an end, every worker leaves its loop: it can go on until it does, and it makes at
most four more steps. -/
structure Leaves (p : FixedSizeThreadPool τ) : Prop where
  enabled : ∀ i w, p.threads_[i]? = some w → w ≠ .left →
    ∃ a : Action τ, a.worker? = some i ∧ (p.step a).isSome = true
  bounded : ∀ i as u, Runs.Reaches step Meets p as u →
    as.countP (fun a => a.worker? = some i) ≤ 4

theorem leaves_of_not_missed (hp : p.stopper.notified = true) (hrunning : p.running_ = false)
    (hmissed : ¬p.Missed) : p.Leaves := by
  constructor
  · intro i w hi hleft
    cases w with
    | tests | pops | woken | notifies =>
      exact ⟨.worker i, rfl, by simp [step, stepWorker, hi]⟩
    | calls job => exact ⟨.returns i, rfl, by simp [step, endCall, hi]⟩
    | waits => exact absurd ⟨hp, .inl (List.mem_of_getElem? hi)⟩ hmissed
    | left => exact absurd rfl hleft
  · intro i as u h
    have hle := (reaches_remaining h hp hrunning hmissed i).2
    have hfour : p.remaining i ≤ 4 := by
      rw [remaining]
      cases hi : p.threads_[i]? with
      | none => exact Nat.zero_le 4
      | some w =>
        cases w with
        | waits => exact absurd ⟨hp, .inl (List.mem_of_getElem? hi)⟩ hmissed
        | tests | pops | woken | notifies | calls | left => simp [Worker.remaining]
    omega

/-- `stop` misses nobody all along a run if and only if every action of the run meets the condition, and
then all the workers leave. -/
theorem stop_misses_nobody_iff (h : Runs.Run step (new nthreads maxqueuelen block) as p) :
    ((∀ as' t, as' <+: as → Runs.Run step (new nthreads maxqueuelen block) as' t → ¬t.Missed) ↔
      Runs.Reaches step Meets (new nthreads maxqueuelen block) as p) ∧
    (Runs.Reaches step Meets (new nthreads maxqueuelen block) as p →
      p.stopper.notified = true → p.Leaves) := by
  have hiff : (∀ as' t, as' <+: as → Runs.Run step (new nthreads maxqueuelen block) as' t →
      ¬t.Missed) ↔ Runs.Reaches step Meets (new nthreads maxqueuelen block) as p := by
    refine Runs.Reaches.throughout_iff (P := fun _ (t : FixedSizeThreadPool τ) => ¬t.Missed) h ?_ ?_
    · intro hnew
      cases hnew.1
    · intro as t a u hrun ht hstep
      exact not_missed_iff (running_of_run hrun) ht (moves_of_step hstep)
  refine ⟨hiff, fun hok hp => ?_⟩
  have hmissed := hiff.2 hok as p (List.prefix_refl _) h
  exact leaves_of_not_missed hp (running_of_run h (cleared_of_notified hp)) hmissed

/-- The worker that stands between its tests when `stop` begins is missed, and waits for ever. -/
theorem stop_misses_worker :
    ∃ p : FixedSizeThreadPool Nat, Runs.Run step (new 1 18446744073709551615 true)
        [.start, .worker 0, .stop, .stopper, .stopper, .stopper, .worker 0] p ∧
      p.Missed ∧ p.threads_ = [.waits] ∧ p.stopper = .joins 0 := by
  have hruns : (([.start, .worker 0, .stop, .stopper, .stopper, .stopper, .worker 0] :
      List (Action Nat)).foldlM (Runs.guarded step fun _ _ => True)
      (new 1 18446744073709551615 true)).map (fun p => (p.threads_, p.stopper)) =
      some ([.waits], .joins 0) := by decide +kernel
  obtain ⟨p, hrun, hend⟩ := Runs.exists_of_foldlM _ hruns
  obtain ⟨hthreads, hstopper⟩ := Prod.mk.inj hend
  refine ⟨p, hrun, ⟨by rw [hstopper]; rfl, .inl ?_⟩, hthreads, hstopper⟩
  rw [hthreads]
  exact List.mem_singleton_self _

/-- A worker that waits when `stop` begins, and one that calls a job. -/
theorem stop_misses_nobody_iff_two_workers :
    ∃ p : FixedSizeThreadPool Nat, Runs.Reaches step Meets (new 2 18446744073709551615 true)
        [.start, .worker 0, .worker 0, .run 7, .caller 0, .worker 1, .worker 1, .stop, .stopper,
          .worker 1, .stopper, .stopper, .worker 0, .worker 0] p ∧
      p.threads_ = [.left, .calls 7] ∧ p.stopper.notified = true ∧ p.Leaves := by
  have hruns : (([.start, .worker 0, .worker 0, .run 7, .caller 0, .worker 1, .worker 1, .stop,
      .stopper, .worker 1, .stopper, .stopper, .worker 0, .worker 0] : List (Action Nat)).foldlM
      (Runs.guarded step Meets) (new 2 18446744073709551615 true)).map
      (fun p => (p.threads_, p.stopper.notified)) = some ([.left, .calls 7], true) := by
    decide +kernel
  obtain ⟨p, hreaches, hend⟩ := Runs.exists_of_foldlM _ hruns
  obtain ⟨hthreads, hnotified⟩ := Prod.mk.inj hend
  exact ⟨p, hreaches, hthreads, hnotified,
    (stop_misses_nobody_iff hreaches.run).2 hreaches hnotified⟩

end stopping

end FixedSizeThreadPool
end Stx.Thread
