import Stx.Executor.PosixScheduler
import Stx.Lib.DoublyLinked
import Mathlib.Data.List.Basic

/-! The list of the watchers: its links, who stands in it and in which order. -/
namespace Stx.Executor.PosixScheduler
open DoublyLinked
variable {τ : Type}

/-- The pointers forwards. The null pointer stands for both ends of the list. -/
def following (s : PosixScheduler τ) : Option Nat → Option Nat
  | none => s.firstWatcher_
  | some w => (s.watchers_ w).next

/-- The pointers backwards. -/
def preceding (s : PosixScheduler τ) : Option Nat → Option Nat
  | none => s.lastWatcher_
  | some w => (s.watchers_ w).prev

/-- The pointers from `firstWatcher_` to `lastWatcher_` go along `l` and back, and `l` has the active
watchers. -/
structure WellFormed (s : PosixScheduler τ) (l : List Nat) : Prop where
  circle : Circle s.following s.preceding none (l.map some)
  active : ∀ w, w ∈ l ↔ w < kWatchers ∧ 0 ≤ (s.watchers_ w).fd

def Ascending (s : PosixScheduler τ) (l : List Nat) : Prop :=
  l.Pairwise fun v w => (s.watchers_ v).timeout ≤ (s.watchers_ w).timeout

/-- Every call has come to its end, and the list is in order. -/
def World.WatchersInOrder (w : World τ) : Prop :=
  w.hung = false ∧ ∃ l, w.sched.WellFormed l ∧ w.sched.Ascending l

/-- The time is that of the last watcher but one, or at most that of the only one. -/
def FitsAtEnd (s : PosixScheduler τ) (timeout : UInt64) : Prop :=
  ∀ last ∈ s.lastWatcher_,
    ((s.watchers_ last).prev = none → timeout ≤ (s.watchers_ last).timeout) ∧
    ∀ pred ∈ (s.watchers_ last).prev, timeout = (s.watchers_ pred).timeout

instance (s : PosixScheduler τ) (timeout : UInt64) : Decidable (s.FitsAtEnd timeout) :=
  inferInstanceAs (Decidable (∀ last ∈ s.lastWatcher_,
    ((s.watchers_ last).prev = none → timeout ≤ (s.watchers_ last).timeout) ∧
    ∀ pred ∈ (s.watchers_ last).prev, timeout = (s.watchers_ pred).timeout))

def Refused (s : PosixScheduler τ) (fd : Int) : Prop :=
  (fd < 0 ∨ kWatchers ≤ fd) ∨ 0 ≤ (s.watchers_ fd.toNat).fd

instance (s : PosixScheduler τ) (fd : Int) : Decidable (s.Refused fd) :=
  inferInstanceAs (Decidable ((fd < 0 ∨ kWatchers ≤ fd) ∨ 0 ≤ (s.watchers_ fd.toNat).fd))

def World.OrdersWatchers (w : World τ) : Action τ → Prop
  | .executeOn _ fd _ tmo _ => w.sched.Refused fd ∨ w.sched.FitsAtEnd (plus w.now tmo)
  | _ => True

instance (w : World τ) : (a : Action τ) → Decidable (w.OrdersWatchers a)
  | .executeOn _ fd _ tmo _ =>
    inferInstanceAs (Decidable (w.sched.Refused fd ∨ w.sched.FitsAtEnd (plus w.now tmo)))
  | .tick .. | .execute _ | .takeTasks | .executeAfter .. | .executeAt .. | .cancel _
  | .collectActiveHandles .. | .collectTimeouts | .nextTimeout => inferInstanceAs (Decidable True)

/- What the writing of a pointer changes. -/

section pointers
variable (s : PosixScheduler τ) (v w : Option Nat) (i : Nat) (f : Watcher τ → Watcher τ)

@[simp] theorem following_setWatcher :
    (s.setWatcher i f).following = Function.update s.following (some i) (f (s.watchers_ i)).next := by
  funext x
  cases x with
  | none => rfl
  | some j =>
    by_cases hj : j = i
    · subst hj
      simp [following, setWatcher]
    · simp [following, setWatcher, hj]

@[simp] theorem preceding_setWatcher :
    (s.setWatcher i f).preceding = Function.update s.preceding (some i) (f (s.watchers_ i)).prev := by
  funext x
  cases x with
  | none => rfl
  | some j =>
    by_cases hj : j = i
    · subst hj
      simp [preceding, setWatcher]
    · simp [preceding, setWatcher, hj]

@[simp] theorem following_setNext :
    (s.setNext v w).following = Function.update s.following v w := by
  cases v with
  | none =>
    funext x
    cases x <;> simp [following, setNext]
  | some v => rw [setNext, following_setWatcher]

@[simp] theorem preceding_setNext : (s.setNext v w).preceding = s.preceding := by
  cases v with
  | none =>
    funext x
    cases x <;> rfl
  | some v =>
    rw [setNext, preceding_setWatcher]
    exact Function.update_eq_self (some v) s.preceding

@[simp] theorem following_setPrev : (s.setPrev v w).following = s.following := by
  cases v with
  | none =>
    funext x
    cases x <;> rfl
  | some v =>
    rw [setPrev, following_setWatcher]
    exact Function.update_eq_self (some v) s.following

@[simp] theorem preceding_setPrev :
    (s.setPrev v w).preceding = Function.update s.preceding v w := by
  cases v with
  | none =>
    funext x
    cases x <;> simp [preceding, setPrev]
  | some v => rw [setPrev, preceding_setWatcher]

/-- The rest of a watcher that counts here. -/
def entry (s : PosixScheduler τ) (i : Nat) : Int × UInt64 :=
  ((s.watchers_ i).fd, (s.watchers_ i).timeout)

@[simp] theorem entry_setWatcher : (s.setWatcher i f).entry =
    Function.update s.entry i ((f (s.watchers_ i)).fd, (f (s.watchers_ i)).timeout) := by
  funext j
  by_cases hj : j = i
  · subst hj
    simp [entry, setWatcher]
  · simp [entry, setWatcher, hj]

@[simp] theorem entry_setNext : (s.setNext v w).entry = s.entry := by
  cases v with
  | none => rfl
  | some v =>
    rw [setNext, entry_setWatcher]
    exact Function.update_eq_self v s.entry

@[simp] theorem entry_setPrev : (s.setPrev v w).entry = s.entry := by
  cases v with
  | none => rfl
  | some v =>
    rw [setPrev, entry_setWatcher]
    exact Function.update_eq_self v s.entry

variable (j : Nat)

theorem following_linkWatcher : (s.linkWatcher i j).following =
    Function.update (Function.update s.following (some i) (s.watchers_ j).next) (some j) (some i) := by
  rw [linkWatcher, following_setPrev, following_setNext, following_setWatcher]

theorem preceding_linkWatcher : (s.linkWatcher i j).preceding =
    Function.update (Function.update s.preceding (some i) (some j)) (s.watchers_ j).next (some i) := by
  rw [linkWatcher, preceding_setPrev, preceding_setNext, preceding_setWatcher]

theorem entry_linkWatcher : (s.linkWatcher i j).entry = s.entry := by
  rw [linkWatcher, entry_setPrev, entry_setNext, entry_setWatcher]
  exact Function.update_eq_self i s.entry

end pointers

/- The steps of the list. -/

section links
variable {s s' : PosixScheduler τ} {l l₁ l₂ : List Nat} {w : Nat} {fd : Int} {timeout : UInt64}

theorem headD_map_some : (l.map some).headD none = l.head? := by
  cases l <;> rfl

theorem getLastD_map_some : (l.map some).getLastD none = l.getLast? := by
  rw [List.getLastD_eq_getLast?, List.getLast?_map]
  cases l.getLast? <;> rfl

theorem WellFormed.nodup (h : s.WellFormed l) : l.Nodup :=
  (List.nodup_cons.1 h.circle.nodup).2.of_map some

theorem WellFormed.first (h : s.WellFormed l) : s.firstWatcher_ = l.head? :=
  h.circle.at_sentinel.2.trans headD_map_some

theorem WellFormed.last (h : s.WellFormed l) : s.lastWatcher_ = l.getLast? :=
  h.circle.at_sentinel.1.trans getLastD_map_some

theorem WellFormed.circle_at (h : s.WellFormed (l₁ ++ w :: l₂)) :
    Circle s.following s.preceding none (l₁.map some ++ some w :: l₂.map some) := by
  simpa using h.circle

theorem WellFormed.prev (h : s.WellFormed (l₁ ++ w :: l₂)) :
    (s.watchers_ w).prev = l₁.getLast? :=
  h.circle_at.at_node.1.trans getLastD_map_some

theorem WellFormed.next (h : s.WellFormed (l₁ ++ w :: l₂)) : (s.watchers_ w).next = l₂.head? :=
  h.circle_at.at_node.2.trans headD_map_some

/-- The list is told by the pointers. -/
theorem WellFormed.unique (h : s.WellFormed l₁) (h' : s.WellFormed l₂) : l₁ = l₂ :=
  List.map_injective_iff.2 (Option.some_injective Nat) (h.circle.unique h'.circle)

theorem WellFormed.length_le (h : s.WellFormed l) : l.length ≤ kWatchers := by
  have hsub : l ⊆ List.range kWatchers := fun w hw => List.mem_range.2 ((h.active w).1 hw).1
  have hle := (List.subperm_of_subset h.nodup hsub).length_le
  rwa [List.length_range] at hle

theorem WellFormed.congr (h : s.WellFormed l) (hwatchers : s'.watchers_ = s.watchers_)
    (hfirst : s'.firstWatcher_ = s.firstWatcher_) (hlast : s'.lastWatcher_ = s.lastWatcher_) :
    s'.WellFormed l := by
  have hfollowing : s'.following = s.following := by
    funext w
    cases w with
    | none => exact hfirst
    | some w => rw [following, following, hwatchers]
  have hpreceding : s'.preceding = s.preceding := by
    funext w
    cases w with
    | none => exact hlast
    | some w => rw [preceding, preceding, hwatchers]
  refine ⟨?_, fun w => ?_⟩
  · rw [hfollowing, hpreceding]
    exact h.circle
  · rw [hwatchers]
    exact h.active w

/-- What stays in the list keeps its time. -/
theorem Ascending.sublist (h : s.Ascending l₁) (hsub : l₂.Sublist l₁)
    (hentry : ∀ v ∈ l₂, s'.entry v = s.entry v) : s'.Ascending l₂ := by
  refine (List.Pairwise.sublist hsub h).imp_of_mem fun {v v'} hv hv' hle => ?_
  have htime := congrArg Prod.snd (hentry v hv)
  have htime' := congrArg Prod.snd (hentry v' hv')
  exact (htime.trans_le hle).trans_eq htime'.symm

theorem WellFormed.unlink (h : s.WellFormed (l₁ ++ w :: l₂)) (hasc : s.Ascending (l₁ ++ w :: l₂)) :
    ∃ s', unlinkWatcher w s = (.ok l₂.head?, s') ∧ s'.WellFormed (l₁ ++ l₂) ∧
      s'.Ascending (l₁ ++ l₂) := by
  obtain ⟨hpred, hsucc⟩ := h.circle_at.ne_self
  have hw : w ∉ l₁ ++ l₂ := by
    have hnot := h.circle_at.notMem
    simpa using hnot
  have hsub : (l₁ ++ l₂).Sublist (l₁ ++ w :: l₂) := (List.sublist_cons_self w l₂).append_left l₁
  let pred := s.preceding (some w)
  let succ := s.following (some w)
  let s' := ((s.setNext pred succ).setPrev succ pred).setWatcher w clear
  have hfollowing : s'.following =
      Function.update (Function.update s.following pred succ) (some w) none := by
    simp only [s', following_setWatcher, following_setPrev, following_setNext, clear]
  have hpreceding : s'.preceding =
      Function.update (Function.update s.preceding succ pred) (some w) none := by
    simp only [s', preceding_setWatcher, preceding_setPrev, preceding_setNext, clear]
  have hentry : s'.entry = Function.update s.entry w (-1, 0) := by
    simp only [s', entry_setWatcher, entry_setPrev, entry_setNext, clear]
  refine ⟨s', Prod.ext (congrArg Result.ok h.next) rfl, ⟨?_, fun v => ?_⟩, hasc.sublist hsub ?_⟩
  · rw [List.map_append, hfollowing, hpreceding]
    refine h.circle_at.remove ⟨?_, ?_⟩ (fun x hx hxw => ?_) fun y hy hyw => ?_
    · rw [Function.update_of_ne hpred]
      exact Function.update_self ..
    · rw [Function.update_of_ne hsucc]
      exact Function.update_self ..
    · rw [Function.update_of_ne hxw, Function.update_of_ne hx]
    · rw [Function.update_of_ne hyw, Function.update_of_ne hy]
  · change _ ↔ v < kWatchers ∧ 0 ≤ (s'.entry v).1
    rw [hentry]
    by_cases hv : v = w
    · subst hv
      rw [Function.update_self]
      exact iff_of_false hw fun hactive => absurd hactive.2 (by decide)
    · rw [Function.update_of_ne hv]
      have hactive := h.active v
      rw [List.perm_middle.mem_iff, List.mem_cons, or_iff_right hv] at hactive
      exact hactive
  · intro v hv
    rw [hentry, Function.update_of_ne]
    exact fun heq => hw (heq ▸ hv)

/-- A watcher that is new to the list is put in. -/
theorem WellFormed.insert (h : s.WellFormed (l₁ ++ l₂)) (hw : w ∉ l₁ ++ l₂) (hlt : w < kWatchers)
    (hfd : 0 ≤ fd) (hentry : s'.entry = Function.update s.entry w (fd, timeout))
    (hnext : s'.following =
      Function.update (Function.update s.following (some w) l₂.head?) l₁.getLast? (some w))
    (hprev : s'.preceding =
      Function.update (Function.update s.preceding (some w) l₁.getLast?) l₂.head? (some w)) :
    s'.WellFormed (l₁ ++ w :: l₂) := by
  have hcircle : Circle s.following s.preceding none (l₁.map some ++ l₂.map some) := by
    rw [← List.map_append]
    exact h.circle
  have hne : ∀ l : List Nat, w ∉ l → l.head? ≠ some w ∧ l.getLast? ≠ some w := fun l hl =>
    ⟨fun heq => hl (List.mem_of_head? heq), fun heq => hl (List.mem_of_getLast? heq)⟩
  have hpred := (hne l₁ fun hmem => hw (List.mem_append_left _ hmem)).2
  have hsucc := (hne l₂ fun hmem => hw (List.mem_append_right _ hmem)).1
  refine ⟨?_, fun v => ?_⟩
  · rw [List.map_append, List.map_cons, hnext, hprev]
    refine hcircle.insert (by simpa using hw) ?_ ?_ (fun x hx hxw => ?_) fun y hy hyw => ?_
    · rw [getLastD_map_some]
      refine ⟨Function.update_self .., ?_⟩
      rw [Function.update_of_ne hsucc.symm]
      exact Function.update_self ..
    · rw [headD_map_some]
      refine ⟨?_, Function.update_self ..⟩
      rw [Function.update_of_ne hpred.symm]
      exact Function.update_self ..
    · rw [getLastD_map_some] at hx
      rw [Function.update_of_ne hx, Function.update_of_ne hxw]
    · rw [headD_map_some] at hy
      rw [Function.update_of_ne hy, Function.update_of_ne hyw]
  · change _ ↔ v < kWatchers ∧ 0 ≤ (s'.entry v).1
    rw [hentry, List.perm_middle.mem_iff, List.mem_cons]
    by_cases hv : v = w
    · subst hv
      rw [Function.update_self]
      exact iff_of_true (.inl rfl) ⟨hlt, hfd⟩
    · rw [Function.update_of_ne hv, or_iff_right hv]
      exact h.active v

/-- The order with a new watcher in it. -/
theorem ascending_insert_iff (h : s.Ascending (l₁ ++ l₂)) (hw : w ∉ l₁ ++ l₂)
    (hentry : s'.entry = Function.update s.entry w (fd, timeout)) :
    s'.Ascending (l₁ ++ w :: l₂) ↔ (∀ v ∈ l₁, (s.watchers_ v).timeout ≤ timeout) ∧
      ∀ v ∈ l₂, timeout ≤ (s.watchers_ v).timeout := by
  have hnew : (s'.watchers_ w).timeout = timeout := by
    change (s'.entry w).2 = timeout
    rw [hentry, Function.update_self]
  have hold : ∀ v ∈ l₁ ++ l₂, s'.entry v = s.entry v := by
    intro v hv
    rw [hentry, Function.update_of_ne]
    exact fun heq => hw (heq ▸ hv)
  have htime : ∀ v ∈ l₁ ++ l₂, (s'.watchers_ v).timeout = (s.watchers_ v).timeout :=
    fun v hv => congrArg Prod.snd (hold v hv)
  have hkept := h.sublist (List.Sublist.refl _) hold
  obtain ⟨h₁, h₂, hcross⟩ := List.pairwise_append.1 hkept
  constructor
  · intro hasc
    obtain ⟨-, htail, hbehind⟩ := List.pairwise_append.1 hasc
    refine ⟨fun v hv => ?_, fun v hv => ?_⟩
    · have hle := hbehind v hv w List.mem_cons_self
      rwa [htime v (List.mem_append_left _ hv), hnew] at hle
    · have hle := (List.pairwise_cons.1 htail).1 v hv
      rwa [htime v (List.mem_append_right _ hv), hnew] at hle
  · rintro ⟨hbehind, hahead⟩
    refine List.pairwise_append.2 ⟨h₁, List.pairwise_cons.2 ⟨fun v hv => ?_, h₂⟩, fun u hu v hv => ?_⟩
    · rw [htime v (List.mem_append_right _ hv), hnew]
      exact hahead v hv
    · obtain rfl | hv := List.mem_cons.1 hv
      · rw [htime u (List.mem_append_left _ hu), hnew]
        exact hbehind u hu
      · exact hcross u hu v hv

end links

/- The calls. -/

section calls
variable {s : PosixScheduler τ} {l l₁ l₂ : List Nat} {w : Nat}

/-- The call has come to its end, and the list is in order. -/
def Orderly {α : Type} (r : Result α × PosixScheduler τ) : Prop :=
  r.1 ≠ .diverge ∧ ∃ l, r.2.WellFormed l ∧ r.2.Ascending l

theorem WellFormed.countDown (h : s.WellFormed l) (mode : Mode) :
    (PosixScheduler.countDown mode s).WellFormed l := by
  cases mode <;> exact h.congr rfl rfl rfl

theorem Ascending.countDown (h : s.Ascending l) (mode : Mode) :
    (PosixScheduler.countDown mode s).Ascending l := by
  cases mode <;> exact h

/-- From the first watcher on the loop takes watchers out until one is not due. -/
theorem orderly_timeoutLoop (now : UInt64) (h : s.WellFormed l) (hasc : s.Ascending l) {fuel : Nat}
    (hfuel : l.length ≤ fuel) : ∃ dues s', timeoutLoop now fuel l.head? s = (.ok dues, s') ∧
      ∃ l', s'.WellFormed l' ∧ s'.Ascending l' := by
  induction l generalizing s fuel with
  | nil =>
    refine ⟨[], s, ?_, [], h, hasc⟩
    cases fuel <;> rfl
  | cons w l ih =>
    cases fuel with
    | zero => cases hfuel
    | succ fuel =>
      rw [List.head?_cons, timeoutLoop, Sys.get_bind]
      split
      · have hcount : (countDown (s.watchers_ w).mode s).WellFormed ([] ++ w :: l) := h.countDown _
        obtain ⟨s₁, hunlink, hs₁, hasc₁⟩ := hcount.unlink (hasc.countDown _)
        obtain ⟨dues, s₂, hloop, hrest⟩ := ih hs₁ hasc₁ (Nat.le_of_succ_le_succ hfuel)
        refine ⟨.timeout w :: dues, s₂, ?_, hrest⟩
        rw [Sys.modify_bind, Sys.bind_of_ok hunlink, Sys.bind_of_ok hloop, Sys.pure_apply]
      · exact ⟨[], s, rfl, w :: l, h, hasc⟩

/-- The loop over all watchers takes out those whose descriptors are active. -/
theorem orderly_handleLoop (input output : Int → Bool) (h : s.WellFormed (l₁ ++ l₂))
    (hasc : s.Ascending (l₁ ++ l₂)) {fuel : Nat} (hfuel : l₂.length ≤ fuel) :
    ∃ dues s', handleLoop input output fuel l₂.head? s = (.ok dues, s') ∧
      ∃ l', s'.WellFormed l' ∧ s'.Ascending l' := by
  induction l₂ generalizing s l₁ fuel with
  | nil =>
    refine ⟨[], s, ?_, l₁ ++ [], h, hasc⟩
    cases fuel <;> rfl
  | cons w l ih =>
    cases fuel with
    | zero => cases hfuel
    | succ fuel =>
      rw [List.head?_cons, handleLoop, Sys.get_bind]
      have hfuel := Nat.le_of_succ_le_succ hfuel
      cases activeMode (s.watchers_ w) input output with
      | some mode =>
        obtain ⟨s₁, hunlink, hs₁, hasc₁⟩ := (h.countDown mode).unlink (hasc.countDown mode)
        obtain ⟨dues, s₂, hloop, hrest⟩ := ih hs₁ hasc₁ hfuel
        refine ⟨.io ( Watcher.onIO (s.watchers_ w)) :: dues, s₂, ?_, hrest⟩
        change (Sys.modify (countDown mode) >>= _) s = _
        rw [Sys.modify_bind, Sys.bind_of_ok hunlink, Sys.bind_of_ok hloop, Sys.pure_apply]
      | none =>
        have hnext := h.next
        rw [List.append_cons] at h hasc
        obtain ⟨dues, s₂, hloop, hrest⟩ := ih h hasc hfuel
        refine ⟨dues, s₂, ?_, hrest⟩
        rw [← hloop, ← hnext]

theorem orderly_collectActiveHandles (input output : Int → Bool) (h : s.WellFormed l)
    (hasc : s.Ascending l) : Orderly (collectActiveHandles input output s) := by
  have hall : s.WellFormed ([] ++ l) := h
  obtain ⟨dues, s', hloop, hrest⟩ := orderly_handleLoop input output hall hasc h.length_le
  rw [collectActiveHandles, Sys.get_bind, h.first, hloop]
  exact ⟨(fun hdiverge => nomatch hdiverge), hrest⟩

theorem orderly_collectTimeouts (now : UInt64) (h : s.WellFormed l) (hasc : s.Ascending l) :
    ∃ dues s', collectTimeouts now s = (.ok dues, s') ∧ ∃ l', s'.WellFormed l' ∧ s'.Ascending l' := by
  obtain ⟨watchers, s', hloop, l', h', hasc'⟩ := orderly_timeoutLoop now h hasc h.length_le
  rw [collectTimeouts, Sys.get_bind, h.first, Sys.bind_of_ok hloop]
  exact ⟨_, _, rfl, l', h'.congr rfl rfl rfl, hasc'⟩

/-- A watcher that came into the list. The list is in order if its time is. -/
theorem orderly_insert_iff {α : Type} {a : α} {s' : PosixScheduler τ} {fd : Int} (timeout : UInt64)
    (h : s.WellFormed (l₁ ++ l₂)) (hasc : s.Ascending (l₁ ++ l₂)) (hw : w ∉ l₁ ++ l₂)
    (hlt : w < kWatchers) (hfd : 0 ≤ fd)
    (hentry : s'.entry = Function.update s.entry w (fd, timeout))
    (hnext : s'.following =
      Function.update (Function.update s.following (some w) l₂.head?) l₁.getLast? (some w))
    (hprev : s'.preceding =
      Function.update (Function.update s.preceding (some w) l₁.getLast?) l₂.head? (some w)) :
    Orderly (Result.ok a, s') ↔ (∀ v ∈ l₁, (s.watchers_ v).timeout ≤ timeout) ∧
      ∀ v ∈ l₂, timeout ≤ (s.watchers_ v).timeout := by
  have h' := h.insert hw hlt hfd hentry hnext hprev
  rw [← ascending_insert_iff hasc hw hentry]
  constructor
  · rintro ⟨-, l, hl, hascl⟩
    exact hl.unique h' ▸ hascl
  · exact fun hascl => ⟨(fun hdiverge => nomatch hdiverge), _, h', hascl⟩

theorem insertWatcher_empty (hlast : s.lastWatcher_ = none) :
    insertWatcher w s = (.ok w, (s.setNext none (some w)).setPrev none (some w)) := by
  rw [insertWatcher, hlast]
  rfl

theorem insertWatcher_single {last : Nat} (hlast : s.lastWatcher_ = some last)
    (hprev : (s.watchers_ last).prev = none) : insertWatcher w s =
      (.ok w, ((s.setWatcher w fun w => { w with next := s.firstWatcher_ }).setPrev s.firstWatcher_
        (some w)).setNext none (some w)) := by
  simp only [insertWatcher, hlast, hprev]
  rfl

theorem insertWatcher_more {last prev : Nat} (hlast : s.lastWatcher_ = some last)
    (hprev : (s.watchers_ last).prev = some prev) : insertWatcher w s =
      if (s.watchers_ w).timeout ≤ (s.watchers_ prev).timeout then (.ok w, s.linkWatcher w prev)
      else (.diverge, s) := by
  simp only [insertWatcher, hlast, hprev]

/-- `s₁` is `s` with a new watcher that is not linked yet. -/
structure Fresh (s s₁ : PosixScheduler τ) (w : Nat) (fd : Int) (timeout : UInt64) : Prop where
  entry : s₁.entry = Function.update s.entry w (fd, timeout)
  following : s₁.following = Function.update s.following (some w) none
  preceding : s₁.preceding = Function.update s.preceding (some w) none

section insertion
variable {s₁ : PosixScheduler τ} {fd : Int} {timeout : UInt64} {last pred : Nat} {l₀ : List Nat}

theorem Fresh.ends (f : Fresh s s₁ w fd timeout) :
    s₁.firstWatcher_ = s.firstWatcher_ ∧ s₁.lastWatcher_ = s.lastWatcher_ := by
  have hne : none ≠ some w := (Option.some_ne_none w).symm
  constructor
  · change s₁.following none = s.following none
    rw [f.following, Function.update_of_ne hne]
  · change s₁.preceding none = s.preceding none
    rw [f.preceding, Function.update_of_ne hne]

theorem Fresh.other (f : Fresh s s₁ w fd timeout) {v : Nat} (hv : v ≠ w) :
    (s₁.watchers_ v).prev = (s.watchers_ v).prev ∧ (s₁.watchers_ v).next = (s.watchers_ v).next ∧
      (s₁.watchers_ v).timeout = (s.watchers_ v).timeout := by
  have hne : some v ≠ some w := fun heq => hv (Option.some.inj heq)
  refine ⟨?_, ?_, ?_⟩
  · change s₁.preceding (some v) = s.preceding (some v)
    rw [f.preceding, Function.update_of_ne hne]
  · change s₁.following (some v) = s.following (some v)
    rw [f.following, Function.update_of_ne hne]
  · change (s₁.entry v).2 = (s.entry v).2
    rw [f.entry, Function.update_of_ne hv]

theorem Fresh.timeout_eq (f : Fresh s s₁ w fd timeout) : (s₁.watchers_ w).timeout = timeout := by
  change (s₁.entry w).2 = timeout
  rw [f.entry, Function.update_self]

theorem orderly_insertWatcher_empty (f : Fresh s s₁ w fd timeout) (h : s.WellFormed [])
    (hlt : w < kWatchers) (hfd : 0 ≤ fd) :
    Orderly (insertWatcher w s₁) ↔ s.FitsAtEnd timeout := by
  have hnone : s.WellFormed ([] ++ []) := h
  rw [insertWatcher_empty (f.ends.2.trans h.last)]
  refine (orderly_insert_iff timeout hnone List.Pairwise.nil List.not_mem_nil hlt hfd ?_ ?_ ?_).trans ?_
  · rw [entry_setPrev, entry_setNext, f.entry]
  · rw [following_setPrev, following_setNext, f.following]
    rfl
  · rw [preceding_setPrev, preceding_setNext, f.preceding]
    rfl
  · refine iff_of_true ⟨List.forall_mem_nil _, List.forall_mem_nil _⟩ fun last hmem => ?_
    rw [h.last] at hmem
    cases hmem

theorem orderly_insertWatcher_single (f : Fresh s s₁ w fd timeout) (h : s.WellFormed [last])
    (hw : w ∉ [last]) (hlt : w < kWatchers) (hfd : 0 ≤ fd) :
    Orderly (insertWatcher w s₁) ↔ s.FitsAtEnd timeout := by
  have hsingle : s.WellFormed ([] ++ [last]) := h
  have hnone := hsingle.prev
  have hne : last ≠ w := fun heq => hw (heq ▸ List.mem_singleton_self last)
  rw [insertWatcher_single (f.ends.2.trans h.last) ((f.other hne).1.trans hnone)]
  refine (orderly_insert_iff timeout hsingle (List.pairwise_singleton _ _) hw hlt hfd ?_ ?_ ?_).trans ?_
  · rw [entry_setNext, entry_setPrev, entry_setWatcher]
    exact (Function.update_eq_self w s₁.entry).trans f.entry
  · rw [following_setNext, following_setPrev, following_setWatcher, f.following, f.ends.1, h.first,
      Function.update_idem]
    rfl
  · have hself := Function.update_eq_self (some w) s₁.preceding
    rw [preceding_setNext, preceding_setPrev, preceding_setWatcher, f.ends.1, h.first]
    exact congrArg (Function.update · (some last) (some w)) (hself.trans f.preceding)
  · simp [FitsAtEnd, h.last, hnone]

/-- In front of the last watcher and behind all others there is one time that fits in, if any. -/
theorem fits_before_last_iff (hasc : s.Ascending (l₀ ++ [pred] ++ [last]))
    (hle : timeout ≤ (s.watchers_ pred).timeout) :
    ((∀ v ∈ l₀ ++ [pred], (s.watchers_ v).timeout ≤ timeout) ∧
      ∀ v ∈ [last], timeout ≤ (s.watchers_ v).timeout) ↔ timeout = (s.watchers_ pred).timeout := by
  obtain ⟨hbehind, -, hahead⟩ := List.pairwise_append.1 hasc
  obtain ⟨-, -, hbefore⟩ := List.pairwise_append.1 hbehind
  constructor
  · exact fun hin => UInt64.le_antisymm hle (hin.1 pred (by simp))
  · rintro rfl
    refine ⟨fun v hv => ?_, fun v hv => hahead pred (by simp) v hv⟩
    obtain hv | hv := List.mem_append.1 hv
    · exact hbefore v hv pred (List.mem_singleton_self _)
    · rw [List.mem_singleton.1 hv]
      exact UInt64.le_refl _

theorem orderly_insertWatcher_more (f : Fresh s s₁ w fd timeout)
    (h : s.WellFormed (l₀ ++ [pred] ++ [last])) (hasc : s.Ascending (l₀ ++ [pred] ++ [last]))
    (hw : w ∉ l₀ ++ [pred] ++ [last]) (hlt : w < kWatchers) (hfd : 0 ≤ fd) :
    Orderly (insertWatcher w s₁) ↔ s.FitsAtEnd timeout := by
  have hpred : s.WellFormed (l₀ ++ pred :: [last]) := by simpa using h
  have hsome := h.prev
  have hlast := h.last
  rw [List.getLast?_concat] at hsome hlast
  obtain ⟨-, hsucc, hold⟩ := f.other fun heq : pred = w => hw (by simp [heq])
  obtain ⟨hback, -, -⟩ := f.other fun heq : last = w => hw (by simp [heq])
  have hnext : (s₁.watchers_ pred).next = some last := hsucc.trans hpred.next
  have hfits : s.FitsAtEnd timeout ↔ timeout = (s.watchers_ pred).timeout := by
    simp [FitsAtEnd, hlast, hsome]
  rw [insertWatcher_more (f.ends.2.trans hlast) (hback.trans hsome), f.timeout_eq, hold, hfits]
  split
  next hle =>
    refine (orderly_insert_iff timeout h hasc hw hlt hfd ?_ ?_ ?_).trans (fits_before_last_iff hasc hle)
    · rw [entry_linkWatcher, f.entry]
    · rw [following_linkWatcher, hnext, f.following, Function.update_idem, List.getLast?_concat]
      rfl
    · rw [preceding_linkWatcher, hnext, f.preceding, Function.update_idem, List.getLast?_concat]
      rfl
  next hnot =>
    refine iff_of_false (fun hin => hin.1 rfl) ?_
    rintro rfl
    exact hnot (UInt64.le_refl _)

/-- From the search on, for a watcher that is not in the list yet. -/
theorem orderly_insertWatcher_iff (f : Fresh s s₁ w fd timeout) (h : s.WellFormed l)
    (hasc : s.Ascending l) (hw : w ∉ l) (hlt : w < kWatchers) (hfd : 0 ≤ fd) :
    Orderly (insertWatcher w s₁) ↔ s.FitsAtEnd timeout := by
  obtain rfl | ⟨l₀, last, rfl⟩ := List.eq_nil_or_concat l
  · exact orderly_insertWatcher_empty f h hlt hfd
  · rw [List.concat_eq_append] at h hasc hw
    obtain rfl | ⟨l₀, pred, rfl⟩ := List.eq_nil_or_concat l₀
    · exact orderly_insertWatcher_single f h hw hlt hfd
    · rw [List.concat_eq_append] at h hasc hw
      exact orderly_insertWatcher_more f h hasc hw hlt hfd

end insertion

theorem orderly_setupWatcher_iff (now : UInt64) (fd : Int) (mode : Mode) (task : τ) (tmo : UInt64)
    (tcb : Option τ) (h : s.WellFormed l) (hasc : s.Ascending l) :
    Orderly (setupWatcher now fd mode task tmo tcb s) ↔
      s.Refused fd ∨ s.FitsAtEnd (plus now tmo) := by
  rw [setupWatcher, Sys.get_bind]
  split
  next hrange =>
    exact iff_of_true ⟨(fun hdiverge => nomatch hdiverge), l, h, hasc⟩ (.inl (.inl hrange))
  next hrange =>
    obtain ⟨hfd, hlt⟩ := not_or.1 hrange
    split
    next hwatching =>
      exact iff_of_true ⟨(fun hdiverge => nomatch hdiverge), l, h, hasc⟩ (.inl (.inr hwatching))
    next hidle =>
      have hrefused : ¬s.Refused fd := fun hrefused => hrefused.elim hrange hidle
      have hw : fd.toNat ∉ l := fun hmem => hidle ((h.active fd.toNat).1 hmem).2
      rw [or_iff_right hrefused, Sys.modify_bind]
      refine orderly_insertWatcher_iff ⟨?_, ?_, ?_⟩ h hasc hw (by omega) (Int.not_lt.1 hfd)
      · rw [entry_setWatcher]
      · rw [following_setWatcher]
      · rw [preceding_setWatcher]

theorem orderly_executeOn_iff (now : UInt64) (mode : Mode) (fd : Int) (task : τ) (tmo : UInt64)
    (tcb : Option τ) (h : s.WellFormed l) (hasc : s.Ascending l) :
    Orderly (executeOn now mode fd task tmo tcb s) ↔ s.Refused fd ∨ s.FitsAtEnd (plus now tmo) := by
  have hcount : (countUp mode s).WellFormed l := by
    cases mode <;> exact h.congr rfl rfl rfl
  rw [executeOn, Sys.modify_bind]
  cases mode with
  | READABLE | WRITABLE => exact orderly_setupWatcher_iff now fd _ task tmo tcb hcount hasc

end calls

/- The actions. -/

section steps
variable {v : World τ}

theorem watchersInOrder_after {α : Type} (r : Result α × PosixScheduler τ) (h : v.hung = false) :
    (v.after r).WatchersInOrder ↔ Orderly r := by
  obtain ⟨r, s⟩ := r
  cases r with
  | ok a => exact and_congr_left' (iff_of_true h fun hdiverge => nomatch hdiverge)
  | raise e => exact and_congr_left' (iff_of_true h fun hdiverge => nomatch hdiverge)
  | diverge => exact and_congr_left' (iff_of_false (fun hung => nomatch hung) fun hne => hne rfl)

/-- An action keeps the list in order exactly if it meets the condition. -/
theorem watchersInOrder_enter_iff (h : v.WatchersInOrder) (a : Action τ) :
    (v.enter a).WatchersInOrder ↔ v.OrdersWatchers a := by
  obtain ⟨hhung, l, hl, hasc⟩ := h
  cases a with
  | tick now wall => exact iff_of_true ⟨hhung, l, hl, hasc⟩ trivial
  | nextTimeout => exact iff_of_true ⟨hhung, l, hl, hasc⟩ trivial
  | execute task => exact iff_of_true ⟨hhung, l, hl.congr rfl rfl rfl, hasc⟩ trivial
  | takeTasks => exact iff_of_true ⟨hhung, l, hl.congr rfl rfl rfl, hasc⟩ trivial
  | executeAfter delay task => exact iff_of_true ⟨hhung, l, hl.congr rfl rfl rfl, hasc⟩ trivial
  | executeAt when_ task => exact iff_of_true ⟨hhung, l, hl.congr rfl rfl rfl, hasc⟩ trivial
  | cancel number => exact iff_of_true ⟨hhung, l, hl.congr rfl rfl rfl, hasc⟩ trivial
  | executeOn mode fd task tmo tcb =>
    exact (watchersInOrder_after _ hhung).trans (orderly_executeOn_iff _ mode fd task tmo tcb hl hasc)
  | collectActiveHandles input output =>
    refine iff_of_true ((watchersInOrder_after _ hhung).2 ?_) trivial
    exact orderly_collectActiveHandles _ _ hl hasc
  | collectTimeouts =>
    obtain ⟨dues, s', hcollect, hrest⟩ := orderly_collectTimeouts v.now hl hasc
    refine iff_of_true ?_ trivial
    rw [World.enter, hcollect]
    exact ⟨hhung, hrest⟩

end steps

theorem wellFormed_init : WellFormed ({} : PosixScheduler τ) [] := by
  refine ⟨.empty rfl rfl, fun w => iff_of_false List.not_mem_nil ?_⟩
  rintro ⟨-, hfd⟩
  have hnot : ¬(0 : Int) ≤ -1 := by decide
  exact hnot hfd

open Runs in
/-- The watchers are in order all along a run, and every call ends, if and only if every watcher that
is taken on has the time of the last but one, or is not behind the only one. -/
theorem watchers_in_order_iff {as : List (Action τ)} {w : World τ}
    (h : Run World.step ({} : World τ) as w) :
    (∀ as' v, as' <+: as → Run World.step ({} : World τ) as' v → v.WatchersInOrder) ↔
      Reaches World.step World.OrdersWatchers ({} : World τ) as w := by
  refine h.throughout_iff (P := fun _ w => World.WatchersInOrder w)
    ⟨rfl, [], wellFormed_init, List.Pairwise.nil⟩ ?_
  intro as v a u _ hv hstep
  rw [World.eq_enter_of_step hstep]
  exact watchersInOrder_enter_iff hv a

theorem watchers_in_order_four : ∃ w : World String, Runs.Run World.step {}
      [.executeOn .READABLE 7 "a" 20 none, .executeOn .WRITABLE 4 "b" 10 none,
        .executeOn .READABLE 7 "c" 5 none, .executeOn .READABLE 5 "d" 10 (some "e"), .tick 15000 0,
        .collectActiveHandles [7] [4], .executeOn .READABLE 40000 "f" 1 none, .collectTimeouts] w ∧
    w.sched.firstWatcher_ = none ∧
    ∀ as' v, as' <+: [.executeOn .READABLE 7 "a" 20 none, .executeOn .WRITABLE 4 "b" 10 none,
        .executeOn .READABLE 7 "c" 5 none, .executeOn .READABLE 5 "d" 10 (some "e"), .tick 15000 0,
        .collectActiveHandles [7] [4], .executeOn .READABLE 40000 "f" 1 none, .collectTimeouts] →
      Runs.Run World.step ({} : World String) as' v → v.WatchersInOrder := by
  have hruns : (([.executeOn .READABLE 7 "a" 20 none, .executeOn .WRITABLE 4 "b" 10 none,
      .executeOn .READABLE 7 "c" 5 none, .executeOn .READABLE 5 "d" 10 (some "e"), .tick 15000 0,
      .collectActiveHandles [7] [4], .executeOn .READABLE 40000 "f" 1 none, .collectTimeouts] :
      List (Action String)).foldlM (Runs.guarded World.step World.OrdersWatchers) {}).map
      (·.sched.firstWatcher_) = some none := by decide +kernel
  obtain ⟨w, hreaches, hfirst⟩ := Runs.exists_of_foldlM _ hruns
  exact ⟨w, hreaches.run, hfirst, (watchers_in_order_iff hreaches.run).2 hreaches⟩

/-- The third watcher is later than the first two, and the search for its place does not end. -/
theorem third_watcher_hangs :
    ¬∀ as (w : World String), Runs.Run World.step {} as w → w.WatchersInOrder := by
  intro h
  have hruns : (([.executeOn .READABLE 3 "a" 10 none, .executeOn .READABLE 4 "b" 10 none,
      .executeOn .READABLE 5 "c" 20 none] : List (Action String)).foldlM
      (Runs.guarded World.step fun _ _ => True) {}).map World.hung = some true := by decide +kernel
  obtain ⟨w, hrun, hhung⟩ := Runs.exists_of_foldlM _ hruns
  have hends := (h _ w hrun).1
  rw [hhung] at hends
  cases hends

end Stx.Executor.PosixScheduler
