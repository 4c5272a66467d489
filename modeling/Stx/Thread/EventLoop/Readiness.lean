import Stx.Thread.EventLoop

/-! Callbacks against the registrations they come from. `callbacks_` has one place for a descriptor,
whatever it is watched for, and poll goes by what select has said before the callbacks ran. -/
namespace Stx.Thread
variable {τ : Type}

/-- A registration in effect: its callback, and whether a select since then has reported its
descriptor. -/
structure Registration (τ : Type) where
  task : τ
  reported : Bool

/-- What is registered for each operation at each descriptor. -/
abbrev Registrations (τ : Type) := Op → Nat → Option (Registration τ)

namespace Registrations

def set (r : Registrations τ) (op : Op) (fd : Nat) (g : Option (Registration τ)) :
    Registrations τ :=
  fun op' fd' => if op' = op ∧ fd' = fd then g else r op' fd'

def cancel (r : Registrations τ) (fd : Nat) : Registrations τ :=
  fun op fd' => if fd' = fd then none else r op fd'

def report (r : Registrations τ) (ready : Ready) : Registrations τ :=
  fun op fd =>
    if fd ∈ ready.ops op then (r op fd).map fun g => { g with reported := true } else r op fd

/-- A call of a callback uses up a registration of it at this descriptor that has been reported. A
registration ends with that, with the next one of its kind, and when the descriptor is cancelled.
There is none of a descriptor that the sets have no place for. -/
inductive Permits (r : Registrations τ) : Action τ → Registrations τ → Prop
  | register {op : Op} {task : τ} {fd : Nat} (hfd : fd < FD_SETSIZE) :
    Permits r (.runOn op task fd) (r.set op fd (some ⟨task, false⟩))
  | refuse {op : Op} {task : τ} {fd : Nat} (hfd : FD_SETSIZE < fd) :
    Permits r (.runOn op task fd) r
  | cancelFD {fd : Nat} (hfd : fd < FD_SETSIZE) : Permits r (.cancelFD fd) (r.cancel fd)
  | select {ready : Ready} : Permits r (.select ready) (r.report ready)
  | call {op : Op} {task : τ} {fd : Nat} (hreg : r op fd = some ⟨task, true⟩) :
    Permits r (.visit fd (some task)) (r.set op fd none)
  | pass {fd : Nat} : Permits r (.visit fd none) r
  | appendToRunQ {task : τ} : Permits r (.appendToRunQ task) r
  | append {task : τ} : Permits r (.append task) r
  | wakeup : Permits r .wakeup r
  | shutdown : Permits r .shutdown r
  | interrupted : Permits r .interrupted r
  | drain : Permits r .drain r
  | splice : Permits r .splice r
  | task {task : τ} : Permits r (.task task) r
  | scan : Permits r .scan r
  | leave : Permits r .leave r
  | returns : Permits r .returns r
  | raises : Permits r .raises r

/-- The actions of a run each of which the registrations made before it permit. -/
inductive Permitted : List (Action τ) → Registrations τ → Prop
  | start : Permitted [] fun _ _ => none
  | next {as : List (Action τ)} {a : Action τ} {r r' : Registrations τ} (run : Permitted as r)
    (permits : r.Permits a r') : Permitted (as ++ [a]) r'

section lookups
variable {r : Registrations τ} {op op' : Op} {fd fd' : Nat} {g : Option (Registration τ)}

theorem set_self : r.set op fd g op fd = g := if_pos ⟨rfl, rfl⟩

theorem set_eq : r.set op fd (r op fd) = r := by
  funext op' fd'
  by_cases h : op' = op ∧ fd' = fd
  · rw [h.1, h.2]
    exact set_self
  · exact if_neg h

theorem set_of_ne (h : fd' ≠ fd) : r.set op fd g op' fd' = r op' fd' :=
  if_neg fun hboth => h hboth.2

theorem cancel_of_ne (h : fd' ≠ fd) : r.cancel fd op fd' = r op fd' := if_neg h

theorem report_of_mem {ready : Ready} {task : τ} {reported : Bool} (h : fd ∈ ready.ops op)
    (hreg : r op fd = some ⟨task, reported⟩) : r.report ready op fd = some ⟨task, true⟩ := by
  rw [report, if_pos h, hreg]
  rfl

theorem report_some {ready : Ready} {task : τ} {reported : Bool}
    (hreg : r op fd = some ⟨task, reported⟩) :
    ∃ reported', r.report ready op fd = some ⟨task, reported'⟩ := by
  by_cases h : fd ∈ ready.ops op
  · exact ⟨true, report_of_mem h hreg⟩
  · exact ⟨reported, by rw [report, if_neg h, hreg]⟩

end lookups

section history
variable {r r' : Registrations τ} {a : Action τ} {as : List (Action τ)} {op : Op} {fd : Nat}
  {task : τ} {reported : Bool}

/-- A registration is made by the last action, or was there before it. -/
theorem Permits.source (h : r.Permits a r') (hreg : r' op fd = some ⟨task, reported⟩) :
    (a = .runOn op task fd ∧ reported = false) ∨
      a ≠ .cancelFD fd ∧ ∃ before, r op fd = some ⟨task, before⟩ ∧
        (reported = true → before = true ∨ ∃ ready, a = .select ready ∧ fd ∈ ready.ops op) := by
  cases h with
  | @register op' task' fd' hfd =>
    by_cases hat : op = op' ∧ fd = fd'
    · obtain ⟨rfl, rfl⟩ := hat
      rw [set_self] at hreg
      cases hreg
      exact .inl ⟨rfl, rfl⟩
    · have hset : r.set op' fd' (some ⟨task', false⟩) op fd = r op fd := if_neg hat
      refine .inr ⟨fun heq => ?_, reported, hset ▸ hreg, .inl⟩
      cases op' <;> cases heq
  | @refuse op' task' fd' hfd =>
    refine .inr ⟨fun heq => ?_, reported, hreg, .inl⟩
    cases op' <;> cases heq
  | @cancelFD fd' hfd =>
    have hne : fd ≠ fd' := by
      intro heq
      have hnone : r.cancel fd' op fd = none := if_pos heq
      cases hnone.symm.trans hreg
    rw [cancel_of_ne hne] at hreg
    refine .inr ⟨fun heq => hne ?_, reported, hreg, .inl⟩
    exact (Action.cancelFD.inj heq).symm
  | @select ready =>
    refine .inr ⟨(fun heq => by cases heq), ?_⟩
    unfold report at hreg
    split at hreg
    · next hready =>
      obtain ⟨⟨task', before⟩, hbefore, hg⟩ := Option.map_eq_some_iff.1 hreg
      cases hg
      exact ⟨before, hbefore, fun _ => .inr ⟨ready, rfl, hready⟩⟩
    · exact ⟨reported, hreg, .inl⟩
  | @call op' task' fd' hcalled =>
    have hset : r.set op' fd' none op fd = r op fd := by
      refine if_neg fun hat => ?_
      obtain ⟨rfl, rfl⟩ := hat
      cases set_self.symm.trans hreg
    exact .inr ⟨(fun heq => by cases heq), reported, hset ▸ hreg, .inl⟩
  | pass | appendToRunQ | append | wakeup | shutdown | interrupted | drain | splice | task | scan |
    leave | returns | raises => exact .inr ⟨(fun heq => by cases heq), reported, hreg, .inl⟩

theorem Permits.registered (h : r.Permits (.visit fd (some task)) r') :
    ∃ op, r op fd = some ⟨task, true⟩ := by
  generalize ha : Action.visit fd (some task) = a at h
  cases h with
  | @register op | @refuse op => cases op <;> cases ha
  | @call op task' fd' hreg =>
    cases ha
    exact ⟨op, hreg⟩
  | _ => cases ha

/-- Since a registration in effect was made its descriptor has not been cancelled, and where it
counts as reported a select has reported it. -/
theorem Permitted.since (h : Permitted as r) (hreg : r op fd = some ⟨task, reported⟩) :
    ∃ before after, as = before ++ .runOn op task fd :: after ∧ .cancelFD fd ∉ after ∧
      (reported = true → ∃ ready, .select ready ∈ after ∧ fd ∈ ready.ops op) := by
  induction h generalizing reported with
  | start => cases hreg
  | @next as a r r' run permits ih =>
    cases permits.source hreg with
    | inl hmade =>
      obtain ⟨rfl, rfl⟩ := hmade
      exact ⟨as, [], rfl, List.not_mem_nil, fun h => by cases h⟩
    | inr hkept =>
      obtain ⟨hcancel, reported', hreg', hreported⟩ := hkept
      obtain ⟨before, after, rfl, hnot, hselect⟩ := ih hreg'
      refine ⟨before, after ++ [a], by simp, ?_, fun hr => ?_⟩
      · rw [List.mem_append, List.mem_singleton]
        exact fun hmem => hmem.elim hnot fun heq => hcancel heq.symm
      · cases hreported hr with
        | inl hbefore =>
          obtain ⟨ready, hmem, hready⟩ := hselect hbefore
          exact ⟨ready, List.mem_append_left _ hmem, hready⟩
        | inr hnow =>
          obtain ⟨ready, rfl, hready⟩ := hnow
          exact ⟨ready, List.mem_append_right _ (List.mem_singleton.2 rfl), hready⟩

/-- What is called was registered before, and has been reported since without being cancelled. -/
theorem Permitted.call (h : Permitted (as ++ [.visit fd (some task)]) r) :
    ∃ op before after ready, as = before ++ .runOn op task fd :: after ∧ .cancelFD fd ∉ after ∧
      .select ready ∈ after ∧ fd ∈ ready.ops op := by
  generalize hbs : as ++ [Action.visit fd (some task)] = bs at h
  cases h with
  | start => simp at hbs
  | next run permits =>
    obtain ⟨rfl, hlast⟩ := List.append_inj' hbs rfl
    rw [← List.singleton_inj.1 hlast] at permits
    obtain ⟨op, hreg⟩ := permits.registered
    obtain ⟨before, after, has, hcancel, hselect⟩ := run.since hreg
    obtain ⟨ready, hmem, hready⟩ := hselect rfl
    exact ⟨op, before, after, ready, has, hcancel, hmem, hready⟩

end history

end Registrations

theorem Ready.mem_of_op? {ready : Ready} {op : Op} {fd : Nat} (h : ready.op? fd = some op) :
    fd ∈ ready.ops op := by
  unfold Ready.op? at h
  split at h
  · next hread =>
    cases h
    exact hread
  · split at h
    · next hwrite =>
      cases h
      exact hwrite
    · cases h

/-- What poll has still to look at. -/
def Position.pending (op : Op) (fd : Nat) : Position τ → Prop
  | .outside | .waiting | .undefined => False
  | .woken ready | .drained ready | .tasks _ ready => fd ∈ ready.ops op
  | .fds n ready => n ≤ fd ∧ fd ∈ ready.ops op

namespace System
open EventLoop Registrations
variable {s t : System τ} {a : Action τ} {r : Registrations τ}

/-- No descriptor is registered while it is watched for the other operation or while poll, which
calls the code that does it, has it still before it; and the sets have places for those that are
registered or cancelled. -/
def Settled (s : System τ) : Action τ → Prop
  | .runOnReadable _ fd =>
    fd ≠ FD_SETSIZE ∧ (fd < FD_SETSIZE → fd ≠ s.loop.runq_wakeup_pipe_ →
      fd ∉ s.loop.op_write_ ∧ ∀ op, ¬s.position.pending op fd)
  | .runOnWritable _ fd =>
    fd ≠ FD_SETSIZE ∧ (fd < FD_SETSIZE → fd ≠ s.loop.runq_wakeup_pipe_ →
      fd ∉ s.loop.op_read_ ∧ ∀ op, ¬s.position.pending op fd)
  | .cancelFD fd => fd < FD_SETSIZE
  | _ => True

instance (p : Position τ) (op : Op) (fd : Nat) : Decidable (p.pending op fd) :=
  match p with
  | .outside | .waiting | .undefined => inferInstanceAs (Decidable False)
  | .woken ready | .drained ready | .tasks _ ready =>
    inferInstanceAs (Decidable (fd ∈ ready.ops op))
  | .fds n ready => inferInstanceAs (Decidable (n ≤ fd ∧ fd ∈ ready.ops op))

instance (p : Op → Prop) [DecidablePred p] : Decidable (∀ op, p op) :=
  decidable_of_iff (p .read ∧ p .write)
    ⟨fun h op => Op.casesOn op h.1 h.2, fun h => ⟨h .read, h .write⟩⟩

instance (s : System τ) (a : Action τ) : Decidable (s.Settled a) :=
  match a with
  | .runOnReadable _ fd =>
    inferInstanceAs (Decidable (fd ≠ FD_SETSIZE ∧ (fd < FD_SETSIZE →
      fd ≠ s.loop.runq_wakeup_pipe_ → fd ∉ s.loop.op_write_ ∧ ∀ op, ¬s.position.pending op fd)))
  | .runOnWritable _ fd =>
    inferInstanceAs (Decidable (fd ≠ FD_SETSIZE ∧ (fd < FD_SETSIZE →
      fd ≠ s.loop.runq_wakeup_pipe_ → fd ∉ s.loop.op_read_ ∧ ∀ op, ¬s.position.pending op fd)))
  | .cancelFD fd => inferInstanceAs (Decidable (fd < FD_SETSIZE))
  | .appendToRunQ _ | .append _ | .wakeup | .shutdown | .interrupted | .select _ | .drain |
    .splice | .task _ | .scan | .visit _ _ | .leave | .returns | .raises =>
    inferInstanceAs (Decidable True)

theorem Settled.ne_size {op : Op} {task : τ} {fd : Nat} (h : s.Settled (.runOn op task fd)) :
    fd ≠ FD_SETSIZE := by
  cases op with
  | read => exact h.1
  | write => exact h.1

theorem Settled.runOn {op : Op} {task : τ} {fd : Nat} (h : s.Settled (.runOn op task fd))
    (hlt : fd < FD_SETSIZE) (hpipe : fd ≠ s.loop.runq_wakeup_pipe_) :
    (∀ op', op' ≠ op → fd ∉ s.loop.ops op') ∧ ∀ op', ¬s.position.pending op' fd := by
  cases op with
  | read =>
    refine ⟨fun op' hne => ?_, (h.2 hlt hpipe).2⟩
    cases op' with
    | read => exact absurd rfl hne
    | write => exact (h.2 hlt hpipe).1
  | write =>
    refine ⟨fun op' hne => ?_, (h.2 hlt hpipe).2⟩
    cases op' with
    | read => exact (h.2 hlt hpipe).1
    | write => exact absurd rfl hne

/-- The callback in the place of a descriptor belongs to what the descriptor is watched for, and has
been reported where poll is still to call it. -/
structure Registers (s : System τ) (r : Registrations τ) : Prop where
  watched : ∀ op fd task, fd ≠ s.loop.runq_wakeup_pipe_ → fd ∈ s.loop.ops op →
    s.loop.callbacks_ fd = some task → ∃ reported, r op fd = some ⟨task, reported⟩
  pending : ∀ op fd task, fd ≠ s.loop.runq_wakeup_pipe_ → s.position.pending op fd →
    s.loop.callbacks_ fd = some task → r op fd = some ⟨task, true⟩

theorem registers_new (runq_fd : Nat) : (new runq_fd : System τ).Registers fun _ _ => none where
  watched op fd task hpipe hop hcallback := by cases hcallback
  pending op fd task hpipe hpending hcallback := by cases hcallback

namespace Registers

/-- What changes neither the sets nor the callbacks, and gives poll nothing more to look at. -/
theorem of_eq (h : s.Registers r) (hops : ∀ op, t.loop.ops op = s.loop.ops op)
    (hcallbacks : t.loop.callbacks_ = s.loop.callbacks_)
    (hpipe : t.loop.runq_wakeup_pipe_ = s.loop.runq_wakeup_pipe_)
    (hpending : ∀ op fd, t.position.pending op fd → s.position.pending op fd) :
    t.Registers r where
  watched op fd task := by
    rw [hops, hcallbacks, hpipe]
    exact h.watched op fd task
  pending op fd task hne hpend := by
    rw [hcallbacks]
    rw [hpipe] at hne
    exact h.pending op fd task hne (hpending op fd hpend)

theorem runOn {op : Op} {task : τ} {fd : Nat} {l : EventLoop τ} (h : s.Registers r)
    (hset : s.Settled (.runOn op task fd)) (hl : s.loop.RunOn op task fd l) :
    Registers { s with loop := l } (r.set op fd (some ⟨task, false⟩)) where
  watched op' x task' := by
    dsimp only
    rw [hl.callbacks_, hl.mem_ops, hl.runq_wakeup_pipe_]
    intro hpipe hop hcallback
    by_cases hx : x = fd
    · subst hx
      rw [Function.update_self, Option.some.injEq] at hcallback
      have hop' : op' = op := by
        by_contra hne
        refine (hset.runOn hl.fd_lt hpipe).1 op' hne ?_
        exact hop.resolve_right fun hboth => hne hboth.1
      rw [hop', set_self, hcallback]
      exact ⟨false, rfl⟩
    · rw [Function.update_of_ne hx] at hcallback
      rw [set_of_ne hx]
      exact h.watched op' x task' hpipe (hop.resolve_right fun hboth => hx hboth.2) hcallback
  pending op' x task' := by
    dsimp only
    rw [hl.callbacks_, hl.runq_wakeup_pipe_]
    intro hpipe hpending hcallback
    have hx : x ≠ fd := by
      intro hx
      subst hx
      exact (hset.runOn hl.fd_lt hpipe).2 op' hpending
    rw [Function.update_of_ne hx] at hcallback
    rw [set_of_ne hx]
    exact h.pending op' x task' hpipe hpending hcallback

theorem cancel (h : s.Registers r) (fd : Nat) :
    Registers { s with loop := s.loop.cancel fd } (r.cancel fd) where
  watched op x task hpipe hop hcallback := by
    have hmem := mem_ops_cancel.1 hop
    have hcallback' : s.loop.callbacks_ x = some task := by
      rwa [← Function.update_of_ne hmem.1 none s.loop.callbacks_]
    rw [cancel_of_ne hmem.1]
    exact h.watched op x task hpipe hmem.2 hcallback'
  pending op x task hpipe hpending hcallback := by
    have hx : x ≠ fd := by
      intro hx
      subst hx
      have hnone : (s.loop.cancel x).callbacks_ x = none := Function.update_self ..
      cases hnone.symm.trans hcallback
    have hcallback' : s.loop.callbacks_ x = some task := by
      rwa [← Function.update_of_ne hx none s.loop.callbacks_]
    rw [cancel_of_ne hx]
    exact h.pending op x task hpipe hpending hcallback'

theorem select {ready : Ready} {position : Position τ} (h : s.Registers r)
    (hops : ∀ op, ready.ops op ⊆ s.loop.ops op)
    (hpos : ∀ op fd, position.pending op fd → fd ∈ ready.ops op) :
    Registers { s with position := position } (r.report ready) where
  watched op fd task hpipe hop hcallback := by
    obtain ⟨reported, hreg⟩ := h.watched op fd task hpipe hop hcallback
    exact report_some hreg
  pending op fd task hpipe hpending hcallback := by
    have hready := hpos op fd hpending
    obtain ⟨reported, hreg⟩ := h.watched op fd task hpipe (hops op hready) hcallback
    exact report_of_mem hready hreg

/-- What poll does at a descriptor leaves of the registrations all but the one it is about. -/
theorem dispatch {op : Op} {fd : Nat} {ready : Ready} {calling : Bool}
    {g : Option (Registration τ)} (h : s.Registers r) (hpos : s.position = .fds fd ready) :
    Registers
      { s with position := .fds (fd+1) ready, loop := s.loop.clear op fd, calling := calling }
      (r.set op fd g) where
  watched op' x task hpipe hop hcallback := by
    obtain ⟨hmem, hne⟩ := mem_ops_clear.1 hop
    have hset : r.set op fd g op' x = r op' x := if_neg fun hboth => hne hboth.1 hboth.2
    rw [hset]
    exact h.watched op' x task (by simpa [clear] using hpipe) hmem (by simpa [clear] using hcallback)
  pending op' x task hpipe hpending hcallback := by
    obtain ⟨hlt, hready⟩ := hpending
    have hbefore : s.position.pending op' x := by
      rw [hpos]
      exact ⟨by omega, hready⟩
    rw [set_of_ne (by omega)]
    exact h.pending op' x task (by simpa [clear] using hpipe) hbefore
      (by simpa [clear] using hcallback)

end Registers

/-- Every action that meets the demand is permitted, and the callbacks stay those registered. -/
theorem Takes.registers (htakes : Takes s a t) (hmax : s.loop.max_fd_ < FD_SETSIZE)
    (hset : s.Settled a) (h : s.Registers r) : ∃ r', r.Permits a r' ∧ t.Registers r' := by
  cases htakes with
  | runOn hthread hl => exact ⟨_, .register hl.fd_lt, h.runOn hset hl⟩
  | refused hthread hfd => exact ⟨_, .refuse hfd, h⟩
  | passed hthread => exact absurd rfl hset.ne_size
  | cancelFD hthread hfd => exact ⟨_, .cancelFD hfd, h.cancel _⟩
  | strayed hthread hfd =>
    have hlt : _ < FD_SETSIZE := hset
    exact absurd hlt (Nat.not_lt.2 hfd)
  | select hpos hops =>
    refine ⟨_, .select, h.select hops fun op fd hpending => ?_⟩
    split at hpending
    · exact hpending
    · exact hpending.2
  | overrun hpos hcalling hfd hle => exact absurd hle (by omega)
  | @dispatch fd ready op hpos hcalling hfd hop =>
    cases hcallback : s.loop.callbacks_ fd with
    | none =>
      refine ⟨r, .pass, ?_⟩
      have hr : r.set op fd (r op fd) = r := set_eq
      rw [← hr]
      exact h.dispatch hpos
    | some task =>
      have hpending : s.position.pending op fd := by
        rw [hpos]
        exact ⟨Nat.le_refl fd, Ready.mem_of_op? hop⟩
      exact ⟨_, .call (h.pending op fd task hfd hpending hcallback), h.dispatch hpos⟩
  | appendToRunQ =>
    exact ⟨r, .appendToRunQ, h.of_eq (fun op => by cases op <;> rfl) rfl rfl fun _ _ hp => hp⟩
  | waits =>
    exact ⟨r, .appendToRunQ, h.of_eq (fun op => by cases op <;> rfl) rfl rfl fun _ _ hp => hp.elim⟩
  | append => exact ⟨r, .append, h.of_eq (fun op => by cases op <;> rfl) rfl rfl fun _ _ hp => hp⟩
  | wakeup hwaking => exact ⟨r, .wakeup, h.of_eq (fun _ => rfl) rfl rfl fun _ _ hp => hp⟩
  | shutdown =>
    exact ⟨r, .shutdown, h.of_eq (fun op => by cases op <;> rfl) rfl rfl fun _ _ hp => hp⟩
  | interrupted hpos => exact ⟨r, .interrupted, h⟩
  | drain hpos =>
    refine ⟨r, .drain, h.of_eq (fun _ => rfl) rfl rfl fun op fd hp => ?_⟩
    rwa [hpos]
  | splice hpos =>
    refine ⟨r, .splice, h.of_eq (fun op => by cases op <;> rfl) rfl rfl fun op fd hp => ?_⟩
    rwa [hpos]
  | task hpos hcalling =>
    refine ⟨r, .task, h.of_eq (fun _ => rfl) rfl rfl fun op fd hp => ?_⟩
    rwa [hpos]
  | scan hpos hcalling =>
    refine ⟨r, .scan, h.of_eq (fun _ => rfl) rfl rfl fun op fd hp => ?_⟩
    rw [hpos]
    exact hp.2
  | pass hpos hcalling hpass =>
    refine ⟨r, .pass, h.of_eq (fun _ => rfl) rfl rfl fun op fd hp => ?_⟩
    rw [hpos]
    exact ⟨by have := hp.1; omega, hp.2⟩
  | leave hpos hcalling => exact ⟨r, .leave, h.of_eq (fun _ => rfl) rfl rfl fun _ _ hp => hp.elim⟩
  | returns hcalling => exact ⟨r, .returns, h.of_eq (fun _ => rfl) rfl rfl fun _ _ hp => hp⟩
  | raises hcalling => exact ⟨r, .raises, h.of_eq (fun _ => rfl) rfl rfl fun _ _ hp => hp.elim⟩

theorem Takes.defined (htakes : Takes s a t) (hmax : s.loop.max_fd_ < FD_SETSIZE)
    (hset : s.Settled a) (h : s.Defined) : t.Defined := by
  cases htakes with
  | passed hthread => exact absurd rfl hset.ne_size
  | strayed hthread hfd =>
    have hlt : _ < FD_SETSIZE := hset
    exact absurd hlt (Nat.not_lt.2 hfd)
  | overrun hpos hcalling hfd hle => exact absurd hle (by omega)
  | select hpos hops =>
    dsimp only [Defined]
    split
    · simp
    · simp
  | waits | drain | splice | task | scan | pass | dispatch | leave | raises =>
    simp [Defined, waiting]
  | runOn | refused | cancelFD | appendToRunQ | append | wakeup | shutdown | interrupted | returns =>
    exact h

variable [DecidableEq τ] {as : List (Action τ)}

/-- In a run in which no descriptor is registered while it is watched for the other operation or
while poll has it still before it, and all of them have places in the sets, every call of a callback
is permitted. -/
theorem callbacks_permitted_of_settled {runq_fd : Nat} (hpipe : runq_fd < FD_SETSIZE)
    (h : Runs.Reaches step Settled (new runq_fd) as s) : s.Defined ∧ ∃ r, Permitted as r := by
  have hsim : s.Defined ∧ ∃ r, Permitted as r ∧ s.Registers r := by
    induction h with
    | start =>
      have hpos : (new runq_fd : System τ).position = .outside := if_pos hpipe
      exact ⟨by simp [Defined, hpos], _, .start, registers_new runq_fd⟩
    | next run meets takes ih =>
      obtain ⟨hdefined, r, hrun, hr⟩ := ih
      have hmax := max_fd_lt_of_run hpipe run.run
      obtain ⟨r', hpermits, hr'⟩ := (takes_of_step takes).registers hmax meets hr
      exact ⟨(takes_of_step takes).defined hmax meets hdefined, r', .next hrun hpermits, hr'⟩
  obtain ⟨hdefined, r, hrun, -⟩ := hsim
  exact ⟨hdefined, r, hrun⟩

theorem callbacks_permitted_rewatching :
    ∃ s : System Nat,
      Runs.Reaches step Settled (new 0)
        [.runOnReadable 1 1, .select ⟨{1}, ∅⟩, .visit 0 none, .visit 1 (some 1), .runOnWritable 2 1,
          .returns, .leave, .select ⟨∅, {1}⟩, .visit 0 none, .visit 1 (some 2)] s ∧
      s.Defined ∧ ∃ r, Permitted
        [.runOnReadable 1 1, .select ⟨{1}, ∅⟩, .visit 0 none, .visit 1 (some 1), .runOnWritable 2 1,
          .returns, .leave, .select ⟨∅, {1}⟩, .visit 0 none, .visit 1 (some 2)] r :=
  have hrun := Runs.reaches_of_foldlM rfl
  ⟨_, hrun, callbacks_permitted_of_settled (by decide) hrun⟩

/-- The callback for writing is called when the descriptor is readable. -/
theorem both_directions_not_permitted :
    ∃ s : System Nat,
      Runs.Run step (new 0)
        ([.runOnReadable 1 1, .runOnWritable 2 1, .select ⟨{1}, ∅⟩, .visit 0 none] ++
          [.visit 1 (some 2)]) s ∧
      ¬∃ r, Permitted
        ([.runOnReadable 1 1, .runOnWritable 2 1, .select ⟨{1}, ∅⟩, .visit 0 none] ++
          [.visit 1 (some 2)]) r := by
  refine ⟨_, Runs.reaches_of_foldlM rfl, fun hpermitted => ?_⟩
  obtain ⟨r, hr⟩ := hpermitted
  obtain ⟨op, before, after, ready, has, -, hselect, hready⟩ := hr.call
  have hready_eq : ready = ⟨{1}, ∅⟩ := by
    have hmem : .select ready ∈ before ++ Action.runOn op 2 1 :: after := by simp [hselect]
    rw [← has] at hmem
    simpa using hmem
  subst hready_eq
  have hmem : Action.runOn op 2 1 ∈ before ++ Action.runOn op 2 1 :: after := by simp
  rw [← has] at hmem
  cases op with
  | read => simp [Action.runOn] at hmem
  | write => cases hready

end System
end Stx.Thread
