import Stx.Executor.PosixScheduler
import Mathlib.Data.List.TakeWhile

/-! The order of the timers, what is collected of them and how long the loop waits for them. -/
namespace Stx.Executor.PosixScheduler
variable {τ : Type}

def Sorted (timers : List (Timer τ)) : Prop := timers.Pairwise fun a b => a.when_ ≤ b.when_

/-- Handed out is every pending timer that is due and no other. -/
def Collected.Exact (c : Collected τ) : Prop := c.handed = c.pending.filter (·.when_ ≤ c.now)

/-- The microseconds up to a point of time, none if it is past. -/
def distance (now time : UInt64) : Nat := (time/1000).toNat-(now/1000).toNat

/-- The wait ends before every pending timer. -/
def Waited.Within (r : Waited τ) : Prop :=
  ∀ job ∈ r.pending, r.timeout.toNat ≤ distance r.now job.when_

/-- The list is sorted, and everything that was collected and waited for was so in time. -/
structure World.InOrder (w : World τ) : Prop where
  sorted : Sorted w.sched.timers_
  exact : ∀ c ∈ w.collected, c.Exact
  within : ∀ r ∈ w.waited, r.Within

/-- A time that is not behind the last timer and not before the others. -/
def FitsIn (timers : List (Timer τ)) (when_ : UInt64) : Prop :=
  timers = [] ∨ (∃ last ∈ timers.getLast?, when_ ≤ last.when_) ∧
    ∀ job ∈ timers.dropLast, job.when_ ≤ when_

/-- The first timer is not overdue, or there is something else not to wait for. -/
def WaitsInTime (now : UInt64) (s : PosixScheduler τ) : Prop :=
  s.tasks_ ≠ [] ∨ (∀ job ∈ s.timers_.head?, now/1000 ≤ job.when_/1000) ∨
    ∃ w ∈ s.firstWatcher_, (s.watchers_ w).timeout/1000 = now/1000

def World.KeepsOrder (w : World τ) : Action τ → Prop
  | .executeAfter delay _ => FitsIn w.sched.timers_ (plus w.now delay)
  | .executeAt when_ _ => FitsIn w.sched.timers_ (plus w.now (unixMinus when_ w.wall))
  | .nextTimeout => WaitsInTime w.now w.sched
  | _ => True

instance (timers : List (Timer τ)) (when_ : UInt64) : Decidable (FitsIn timers when_) :=
  inferInstanceAs (Decidable (timers = [] ∨ (∃ last ∈ timers.getLast?, when_ ≤ last.when_) ∧
    ∀ job ∈ timers.dropLast, job.when_ ≤ when_))

instance (now : UInt64) (s : PosixScheduler τ) : Decidable (WaitsInTime now s) :=
  inferInstanceAs (Decidable (s.tasks_ ≠ [] ∨
    (∀ job ∈ s.timers_.head?, now/1000 ≤ job.when_/1000) ∨
    ∃ w ∈ s.firstWatcher_, (s.watchers_ w).timeout/1000 = now/1000))

instance (w : World τ) : (a : Action τ) → Decidable (w.KeepsOrder a)
  | .executeAfter delay _ => inferInstanceAs (Decidable (FitsIn _ (plus w.now delay)))
  | .executeAt when_ _ => inferInstanceAs (Decidable (FitsIn _ (plus w.now (unixMinus when_ w.wall))))
  | .nextTimeout => inferInstanceAs (Decidable (WaitsInTime w.now w.sched))
  | .tick .. | .execute _ | .takeTasks | .cancel _ | .executeOn .. | .collectActiveHandles ..
  | .collectTimeouts => inferInstanceAs (Decidable True)

/- The insertion. -/

section insertion
variable {t : Timer τ} {timers : List (Timer τ)}

/-- The search passes what is earlier. -/
theorem insertLoop_passed (before behind : List (Timer τ)) (h : ∀ job ∈ before, job.when_ < t.when_) :
    insertLoop t behind before = t :: (before.reverse ++ behind) := by
  induction before generalizing behind with
  | nil => rfl
  | cons current before ih =>
    obtain ⟨hcurrent, hbefore⟩ := List.forall_mem_cons.1 h
    rw [insertLoop, if_neg (UInt64.not_le.2 hcurrent), ih _ hbefore, List.reverse_cons,
      List.append_assoc]
    rfl

theorem insertLoop_last (before : List (Timer τ)) {last : Timer τ} (h : t.when_ ≤ last.when_) :
    insertLoop t [] (before ++ [last]).reverse = before ++ [t, last] := by
  rw [List.reverse_append, List.reverse_singleton, List.singleton_append, insertLoop, if_pos h,
    List.reverse_reverse]

theorem sorted_append_iff {before : List (Timer τ)} {last : Timer τ} :
    Sorted (before ++ [last]) ↔ Sorted before ∧ ∀ job ∈ before, job.when_ ≤ last.when_ := by
  rw [Sorted, List.pairwise_append]
  simp [Sorted]

/-- The list stays sorted exactly if the time fits in at its end. -/
theorem sorted_insertLoop_iff (h : Sorted timers) :
    Sorted (insertLoop t [] timers.reverse) ↔ FitsIn timers t.when_ := by
  obtain rfl | ⟨before, last, rfl⟩ := List.eq_nil_or_concat timers
  · exact iff_of_true (List.pairwise_singleton _ _) (.inl rfl)
  · rw [List.concat_eq_append] at h ⊢
    obtain ⟨hbefore, hlast⟩ := sorted_append_iff.1 h
    have hne : before ++ [last] ≠ [] := by simp
    rw [FitsIn, or_iff_right hne, List.getLast?_concat, List.dropLast_concat]
    by_cases hle : t.when_ ≤ last.when_
    · rw [insertLoop_last before hle, show before ++ [t, last] = (before ++ [t]) ++ [last] by simp,
        sorted_append_iff, sorted_append_iff]
      constructor
      · rintro ⟨⟨-, hfits⟩, -⟩
        exact ⟨⟨last, rfl, hle⟩, hfits⟩
      · rintro ⟨-, hfits⟩
        refine ⟨⟨hbefore, hfits⟩, fun job hjob => ?_⟩
        obtain hjob | hjob := List.mem_append.1 hjob
        · exact hlast job hjob
        · rwa [List.mem_singleton.1 hjob]
    · have hlt := UInt64.not_le.1 hle
      have hpassed : ∀ job ∈ (before ++ [last]).reverse, job.when_ < t.when_ := by
        intro job hjob
        obtain hjob | hjob := List.mem_append.1 (List.mem_reverse.1 hjob)
        · exact UInt64.lt_of_le_of_lt (hlast job hjob) hlt
        · rwa [List.mem_singleton.1 hjob]
      rw [insertLoop_passed _ _ hpassed]
      refine iff_of_false (fun hsorted => ?_) ?_
      · have hfirst := (List.pairwise_cons.1 hsorted).1 last (by simp)
        exact hle hfirst
      · rintro ⟨⟨job, hjob, hjobs⟩, -⟩
        obtain rfl := Option.some.inj hjob
        exact hle hjobs

theorem sorted_onCancel {s : PosixScheduler τ} (h : Sorted s.timers_) (number : Nat) :
    Sorted (s.onCancel number).timers_ := by
  have hsub := (List.eraseP_sublist (p := fun t : Timer τ => t.number == number)
    (l := s.timers_.reverse)).reverse
  rw [List.reverse_reverse] at hsub
  exact List.Pairwise.sublist hsub h

end insertion

/- What is collected. -/

theorem takeWhile_eq_filter {timers : List (Timer τ)} (h : Sorted timers) (now : UInt64) :
    timers.takeWhile (·.when_ ≤ now) = timers.filter (·.when_ ≤ now) := by
  induction timers with
  | nil => rfl
  | cons t timers ih =>
    obtain ⟨ht, htimers⟩ := List.pairwise_cons.1 h
    by_cases hdue : t.when_ ≤ now
    · rw [List.takeWhile_cons_of_pos (by simpa using hdue),
        List.filter_cons_of_pos (by simpa using hdue), ih htimers]
    · have hnone : timers.filter (·.when_ ≤ now) = [] := by
        rw [List.filter_eq_nil_iff]
        intro job hjob hle
        exact hdue (UInt64.le_trans (ht job hjob) (of_decide_eq_true hle))
      rw [List.takeWhile_cons_of_neg (by simpa using hdue),
        List.filter_cons_of_neg (by simpa using hdue), hnone]

abbrev SameTimers (s s' : PosixScheduler τ) : Prop := s'.timers_ = s.timers_

theorem sameTimers_setNext (s : PosixScheduler τ) (pred next : Option Nat) :
    SameTimers s (s.setNext pred next) := by
  cases pred <;> rfl

theorem sameTimers_setPrev (s : PosixScheduler τ) (succ prev : Option Nat) :
    SameTimers s (s.setPrev succ prev) := by
  cases succ <;> rfl

theorem sameTimers_unlinkWatcher (w : Nat) : (unlinkWatcher (τ := τ) w).Keeps SameTimers := fun s =>
  (sameTimers_setPrev _ _ _).trans (sameTimers_setNext s _ _)

theorem sameTimers_trans (s t u : PosixScheduler τ) (hst : SameTimers s t) (htu : SameTimers t u) :
    SameTimers s u := htu.trans hst

theorem sameTimers_countDown (mode : Mode) :
    (Sys.modify (countDown (τ := τ) mode)).Keeps SameTimers := by
  intro s
  cases mode <;> rfl

theorem keeps_timeoutLoop (now : UInt64) (fuel : Nat) (w : Option Nat) :
    (timeoutLoop (τ := τ) now fuel w).Keeps SameTimers := by
  induction fuel generalizing w with
  | zero =>
    intro s
    cases w <;> rfl
  | succ fuel ih =>
    intro s
    cases w with
    | none => rfl
    | some w =>
      rw [timeoutLoop, Sys.get_bind]
      split
      · refine Sys.Keeps.bind sameTimers_trans (sameTimers_countDown _) (fun _ => ?_) s
        refine Sys.Keeps.bind sameTimers_trans (sameTimers_unlinkWatcher w) fun succ => ?_
        exact Sys.Keeps.bind sameTimers_trans (ih succ) fun _ =>
          Sys.keeps_pure (R := SameTimers) (fun _ => rfl) _
      · rfl

theorem keeps_handleLoop (input output : Int → Bool) (fuel : Nat) (w : Option Nat) :
    (handleLoop (τ := τ) input output fuel w).Keeps SameTimers := by
  induction fuel generalizing w with
  | zero =>
    intro s
    cases w <;> rfl
  | succ fuel ih =>
    intro s
    cases w with
    | none => rfl
    | some w =>
      rw [handleLoop, Sys.get_bind]
      cases activeMode (s.watchers_ w) input output with
      | none => exact ih _ s
      | some mode =>
        refine Sys.Keeps.bind sameTimers_trans (sameTimers_countDown mode) (fun _ => ?_) s
        refine Sys.Keeps.bind sameTimers_trans (sameTimers_unlinkWatcher w) fun succ => ?_
        exact Sys.Keeps.bind sameTimers_trans (ih succ) fun _ =>
          Sys.keeps_pure (R := SameTimers) (fun _ => rfl) _

theorem keeps_insertWatcher (interest : Nat) : (insertWatcher (τ := τ) interest).Keeps SameTimers := by
  intro s
  rw [insertWatcher]
  split
  · split
    · split
      · exact sameTimers_setPrev _ _ _
      · rfl
    · exact sameTimers_setPrev _ _ _
  · rfl

theorem keeps_executeOn (now : UInt64) (mode : Mode) (fd : Int) (task : τ) (tmo : UInt64)
    (tcb : Option τ) : (executeOn now mode fd task tmo tcb).Keeps SameTimers := by
  refine Sys.Keeps.bind sameTimers_trans (fun s => by cases mode <;> rfl) fun _ s => ?_
  rw [setupWatcher, Sys.get_bind]
  split
  · rfl
  · split
    · rfl
    · exact Sys.Keeps.bind sameTimers_trans (fun _ => rfl) (fun _ => keeps_insertWatcher _) s

/-- The loop over the watchers collects no timers. -/
theorem timersOf_timeoutLoop {now : UInt64} {fuel : Nat} {w : Option Nat} {s s' : PosixScheduler τ}
    {dues : List (Due τ)} (h : timeoutLoop now fuel w s = (.ok dues, s')) :
    World.timersOf dues = [] := by
  induction fuel generalizing w s s' dues with
  | zero =>
    cases w with
    | none =>
      obtain rfl := Result.ok.inj (Prod.mk.inj h).1
      rfl
    | some w => cases h
  | succ fuel ih =>
    cases w with
    | none =>
      obtain rfl := Result.ok.inj (Prod.mk.inj h).1
      rfl
    | some w =>
      rw [timeoutLoop, Sys.get_bind] at h
      split at h
      · obtain ⟨-, s₁, -, h⟩ := Sys.bind_eq_ok h
        obtain ⟨succ, s₂, -, h⟩ := Sys.bind_eq_ok h
        obtain ⟨rest, s₃, hrest, h⟩ := Sys.bind_eq_ok h
        obtain rfl := Result.ok.inj (Prod.mk.inj h).1
        have hnone := ih hrest
        exact hnone
      · obtain rfl := Result.ok.inj (Prod.mk.inj h).1
        rfl

theorem collectTimeouts_ok {now : UInt64} {s s' : PosixScheduler τ} {dues : List (Due τ)}
    (h : collectTimeouts now s = (.ok dues, s')) :
    World.timersOf dues = s.timers_.takeWhile (·.when_ ≤ now) ∧
      s'.timers_ = s.timers_.dropWhile (·.when_ ≤ now) := by
  rw [collectTimeouts, Sys.get_bind] at h
  obtain ⟨watchers, s₁, hwatchers, h⟩ := Sys.bind_eq_ok h
  obtain ⟨timers, s₂, htimers, h⟩ := Sys.bind_eq_ok h
  have hsame : s₁.timers_ = s.timers_ := by
    have hkeeps := keeps_timeoutLoop now kWatchers s.firstWatcher_ s
    rwa [hwatchers] at hkeeps
  obtain ⟨hpopped, rfl⟩ := Prod.mk.inj htimers
  obtain rfl := Result.ok.inj hpopped
  obtain ⟨hdues, rfl⟩ := Prod.mk.inj h
  obtain rfl := Result.ok.inj hdues
  have hnone := timersOf_timeoutLoop hwatchers
  rw [World.timersOf] at hnone ⊢
  refine ⟨?_, congrArg _ hsame⟩
  rw [List.filterMap_append, hnone, List.nil_append, hsame, List.filterMap_map]
  exact List.filterMap_some

theorem sorted_collectTimeouts {now : UInt64} {s : PosixScheduler τ} (h : Sorted s.timers_) :
    Sorted (collectTimeouts now s).2.timers_ := by
  have htrans : ∀ s t u : PosixScheduler τ, (Sorted s.timers_ → Sorted t.timers_) →
      (Sorted t.timers_ → Sorted u.timers_) → Sorted s.timers_ → Sorted u.timers_ :=
    fun _ _ _ hst htu hs => htu (hst hs)
  have hkeeps : (collectTimeouts (τ := τ) now).Keeps
      fun s s' => Sorted s.timers_ → Sorted s'.timers_ := by
    intro s
    rw [collectTimeouts, Sys.get_bind]
    refine Sys.Keeps.bind htrans (fun s hs => ?_) (fun watchers => ?_) s
    · rwa [keeps_timeoutLoop now kWatchers _ s]
    · refine Sys.Keeps.bind htrans (fun s hs => ?_) fun timers => ?_
      · exact List.Pairwise.sublist (List.dropWhile_sublist _) hs
      · exact fun _ hs => hs
  exact hkeeps s h

/- The wait. -/

section wait
variable {now : UInt64} {s : PosixScheduler τ}

theorem toNat_minus {time : UInt64} (h : now/1000 ≤ time/1000) :
    (minus time now).toNat = distance now time := by
  rw [minus, UInt64.toNat_sub_of_le _ _ h, distance]

theorem minus_eq_zero {time : UInt64} : minus time now = 0 ↔ time/1000 = now/1000 := by
  rw [minus]
  constructor
  · intro h
    have hadd := UInt64.sub_add_cancel (time/1000) (now/1000)
    rw [h, UInt64.zero_add] at hadd
    exact hadd.symm
  · intro h
    rw [h, UInt64.sub_self]

theorem distance_mono {time time' : UInt64} (h : time ≤ time') :
    distance now time ≤ distance now time' := by
  have hle := UInt64.le_iff_toNat_le.1 h
  have hdiv := Nat.div_le_div_right (c := 1000) hle
  rw [distance, distance, UInt64.toNat_div, UInt64.toNat_div]
  exact Nat.sub_le_sub_right hdiv _

theorem min_le_left' (a b : UInt64) : (min a b).toNat ≤ a.toNat := by
  change (if a ≤ b then a else b).toNat ≤ a.toNat
  split
  · exact Nat.le_refl _
  next hle => exact Nat.le_of_lt (UInt64.lt_iff_toNat_lt.1 (UInt64.not_le.1 hle))

theorem min_eq_zero_iff {a b : UInt64} (ha : a ≠ 0) : min a b = 0 ↔ b = 0 := by
  change (if a ≤ b then a else b) = 0 ↔ b = 0
  split
  next hle =>
    refine iff_of_false ha ?_
    rintro rfl
    exact ha (UInt64.le_antisymm hle (UInt64.le_iff_toNat_le.2 (Nat.zero_le _)))
  next => exact Iff.rfl

theorem watcherWait_eq_zero {s : PosixScheduler τ} :
    (match s.firstWatcher_ with
      | some w => minus (s.watchers_ w).timeout now
      | none => 6*1000000) = 0 ↔
      ∃ w ∈ s.firstWatcher_, (s.watchers_ w).timeout/1000 = now/1000 := by
  cases s.firstWatcher_ with
  | none =>
    have hne : (6*1000000 : UInt64) ≠ 0 := by decide
    exact iff_of_false hne (by rintro ⟨w, hw, -⟩; cases hw)
  | some w =>
    rw [minus_eq_zero]
    exact ⟨fun h => ⟨w, rfl, h⟩, fun ⟨w', hw, h⟩ => by cases hw; exact h⟩

/-- The wait is in time for the first timer, and so for all of them. -/
theorem within_iff (h : Sorted s.timers_) :
    Waited.Within ⟨s.timers_, now, s.nextTimeout now⟩ ↔ WaitsInTime now s := by
  rw [WaitsInTime]
  by_cases htasks : s.tasks_ = []
  · rw [or_iff_right (not_not.2 htasks)]
    cases htimers : s.timers_ with
    | nil => exact iff_of_true (List.forall_mem_nil _) (.inl (by simp))
    | cons t timers =>
      rw [htimers] at h
      obtain ⟨ht, -⟩ := List.pairwise_cons.1 h
      have hfirst : Waited.Within ⟨t :: timers, now, s.nextTimeout now⟩ ↔
          (s.nextTimeout now).toNat ≤ distance now t.when_ := by
        refine ⟨fun hall => hall t List.mem_cons_self, fun hle job hjob => ?_⟩
        obtain rfl | hjob := List.mem_cons.1 hjob
        · exact hle
        · exact Nat.le_trans hle (distance_mono (ht job hjob))
      rw [hfirst, nextTimeout, if_neg (not_not.2 htasks), htimers, ← watcherWait_eq_zero]
      simp only [List.head?_cons, Option.mem_some_iff, forall_eq']
      by_cases hdue : now/1000 ≤ t.when_/1000
      · refine iff_of_true ?_ (.inl hdue)
        rw [← toNat_minus hdue]
        exact min_le_left' _ _
      · have hzero : distance now t.when_ = 0 := by
          have hlt := UInt64.lt_iff_toNat_lt.1 (UInt64.not_le.1 hdue)
          rw [distance]
          omega
        have hne : minus t.when_ now ≠ 0 := by
          rw [Ne, minus_eq_zero]
          intro heq
          exact hdue (heq ▸ UInt64.le_refl _)
        rw [or_iff_right hdue, ← min_eq_zero_iff hne, hzero, Nat.le_zero]
        exact UInt64.toNat_inj (b := 0)
  · refine iff_of_true (fun job _ => ?_) (.inl htasks)
    change (s.nextTimeout now).toNat ≤ _
    rw [nextTimeout, if_pos htasks]
    exact Nat.zero_le _

end wait

/- The actions. -/

section steps
variable {v u : World τ}

theorem World.inOrder_append_collected {w : World τ} {c : Collected τ} (h : w.InOrder) (hc : c.Exact) :
    ∀ c' ∈ w.collected ++ [c], c'.Exact := by
  intro c' hc'
  obtain hc' | hc' := List.mem_append.1 hc'
  · exact h.exact c' hc'
  · rwa [List.mem_singleton.1 hc']

theorem inOrder_after {α : Type} {r : Result α × PosixScheduler τ} (h : v.InOrder)
    (hsorted : Sorted r.2.timers_) : (v.after r).InOrder := by
  obtain ⟨r, s⟩ := r
  cases r with
  | ok _ | raise _ | diverge => exact ⟨hsorted, h.exact, h.within⟩

theorem inOrder_collectTimeouts (h : v.InOrder) : (v.enter .collectTimeouts).InOrder := by
  have hsorted : Sorted (collectTimeouts v.now v.sched).2.timers_ := sorted_collectTimeouts h.sorted
  rw [World.enter]
  split
  next dues s heq =>
    rw [heq] at hsorted
    refine ⟨hsorted, World.inOrder_append_collected h ?_, h.within⟩
    rw [Collected.Exact, (collectTimeouts_ok heq).1]
    exact takeWhile_eq_filter h.sorted _
  next => exact inOrder_after h hsorted

theorem inOrder_insert (h : v.InOrder) {t : Timer τ} {timers : Nat} :
    World.InOrder { v with sched := v.sched.insertIntoTimersList t, timers := timers } ↔
      FitsIn v.sched.timers_ t.when_ := by
  rw [← sorted_insertLoop_iff h.sorted]
  exact ⟨fun hu => hu.sorted, fun hsorted => ⟨hsorted, h.exact, h.within⟩⟩

/-- An action keeps everything in order exactly if it meets the condition. -/
theorem inOrder_enter_iff (h : v.InOrder) (a : Action τ) : (v.enter a).InOrder ↔ v.KeepsOrder a := by
  cases a with
  | tick now wall => exact iff_of_true ⟨h.sorted, h.exact, h.within⟩ trivial
  | execute task => exact iff_of_true ⟨h.sorted, h.exact, h.within⟩ trivial
  | takeTasks => exact iff_of_true ⟨h.sorted, h.exact, h.within⟩ trivial
  | executeAfter delay task => exact inOrder_insert h
  | executeAt when_ task => exact inOrder_insert h
  | cancel number => exact iff_of_true ⟨sorted_onCancel h.sorted number, h.exact, h.within⟩ trivial
  | executeOn mode fd task tmo tcb =>
    refine iff_of_true (inOrder_after h ?_) trivial
    rw [keeps_executeOn]
    exact h.sorted
  | collectActiveHandles input output =>
    refine iff_of_true (inOrder_after h ?_) trivial
    have hsame := keeps_handleLoop (· ∈ input) (· ∈ output) kWatchers v.sched.firstWatcher_ v.sched
    rw [collectActiveHandles, Sys.get_bind, hsame]
    exact h.sorted
  | collectTimeouts => exact iff_of_true (inOrder_collectTimeouts h) trivial
  | nextTimeout =>
    rw [World.KeepsOrder, ← within_iff h.sorted]
    constructor
    · exact fun hu => hu.within _ (List.mem_append_right _ (List.mem_singleton_self _))
    · intro hwithin
      refine ⟨h.sorted, h.exact, fun r hr => ?_⟩
      obtain hr | hr := List.mem_append.1 hr
      · exact h.within r hr
      · rwa [List.mem_singleton.1 hr]

end steps

open Runs in
/-- Timers are in order all along a run if and only if every new one fits in at the end of the list, and
no wait begins when the first of them is overdue. -/
theorem timers_in_order_iff {as : List (Action τ)} {w : World τ}
    (h : Run World.step ({} : World τ) as w) :
    (∀ as' v, as' <+: as → Run World.step ({} : World τ) as' v → v.InOrder) ↔
      Reaches World.step World.KeepsOrder ({} : World τ) as w := by
  refine h.throughout_iff (P := fun _ w => World.InOrder w)
    ⟨List.Pairwise.nil, List.forall_mem_nil _, List.forall_mem_nil _⟩ ?_
  intro as v a u _ hv hstep
  rw [World.eq_enter_of_step hstep]
  exact inOrder_enter_iff hv a

theorem timers_in_order_three : ∃ w : World String, Runs.Run World.step {}
      [.executeAfter 30 "c", .executeAfter 10 "a", .executeAfter 20 "b", .tick 10000 0,
        .collectTimeouts, .nextTimeout, .cancel 2, .tick 30000 0, .collectTimeouts] w ∧
    w.collected = [⟨[⟨1, 10000, "a"⟩, ⟨2, 20000, "b"⟩, ⟨0, 30000, "c"⟩], 10000, [⟨1, 10000, "a"⟩]⟩,
      ⟨[⟨0, 30000, "c"⟩], 30000, [⟨0, 30000, "c"⟩]⟩] ∧
    ∀ as' v, as' <+: [.executeAfter 30 "c", .executeAfter 10 "a", .executeAfter 20 "b", .tick 10000 0,
        .collectTimeouts, .nextTimeout, .cancel 2, .tick 30000 0, .collectTimeouts] →
      Runs.Run World.step ({} : World String) as' v → v.InOrder := by
  have hruns : (([.executeAfter 30 "c", .executeAfter 10 "a", .executeAfter 20 "b", .tick 10000 0,
      .collectTimeouts, .nextTimeout, .cancel 2, .tick 30000 0, .collectTimeouts] :
      List (Action String)).foldlM (Runs.guarded World.step World.KeepsOrder) {}).map World.collected =
      some [⟨[⟨1, 10000, "a"⟩, ⟨2, 20000, "b"⟩, ⟨0, 30000, "c"⟩], 10000, [⟨1, 10000, "a"⟩]⟩,
        ⟨[⟨0, 30000, "c"⟩], 30000, [⟨0, 30000, "c"⟩]⟩] := by decide +kernel
  obtain ⟨w, hreaches, hcollected⟩ := Runs.exists_of_foldlM _ hruns
  exact ⟨w, hreaches.run, hcollected, (timers_in_order_iff hreaches.run).2 hreaches⟩

/-- A timer that is later than the only one is put in front of it, and what is due is not handed out. -/
theorem later_timer_in_front : ¬∀ as (w : World String), Runs.Run World.step {} as w → w.InOrder := by
  intro h
  have hruns : (([.executeAfter 10 "a", .executeAfter 20 "b", .tick 10000 0, .collectTimeouts] :
      List (Action String)).foldlM (Runs.guarded World.step fun _ _ => True) {}).map World.collected =
      some [⟨[⟨1, 20000, "b"⟩, ⟨0, 10000, "a"⟩], 10000, []⟩] := by decide +kernel
  obtain ⟨w, hrun, hcollected⟩ := Runs.exists_of_foldlM _ hruns
  have hexact := (h _ w hrun).exact ⟨[⟨1, 20000, "b"⟩, ⟨0, 10000, "a"⟩], 10000, []⟩
  rw [hcollected] at hexact
  exact absurd (hexact (List.mem_singleton_self _)) (by rw [Collected.Exact]; decide)

end Stx.Executor.PosixScheduler
