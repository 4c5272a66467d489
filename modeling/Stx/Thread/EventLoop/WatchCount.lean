import Stx.Thread.EventLoop

/-! `num_fds_` against the sets of the descriptors that are watched. -/
namespace Stx.Thread

namespace EventLoop
variable {τ : Type} {l l' : EventLoop τ} {fd : Nat} {op : Op}

/-- The descriptors in one of the sets, other than that of the wakeup pipe. -/
def watched (l : EventLoop τ) : FdSet := (l.op_read_ ∪ l.op_write_).erase l.runq_wakeup_pipe_

/-- What the counter is for. -/
structure Counts (l : EventLoop τ) : Prop where
  num_fds_ : l.num_fds_.toNat = l.watched.card
  runOnce : l.running_ = true → (l.runOnceReturns = true ↔ l.watched = ∅ ∧ l.runq_ = [])

theorem mem_watched {x : Nat} :
    x ∈ l.watched ↔ x ≠ l.runq_wakeup_pipe_ ∧ ∃ op, x ∈ l.ops op := by
  rw [watched, Finset.mem_erase, Finset.mem_union]
  constructor
  · intro h
    refine ⟨h.1, ?_⟩
    cases h.2 with
    | inl hread => exact ⟨.read, hread⟩
    | inr hwrite => exact ⟨.write, hwrite⟩
  · intro h
    obtain ⟨hne, op, hop⟩ := h
    cases op with
    | read => exact ⟨hne, .inl hop⟩
    | write => exact ⟨hne, .inr hop⟩

theorem counts_iff : l.Counts ↔ l.num_fds_.toNat = l.watched.card := by
  refine ⟨fun h => h.num_fds_, fun h => ⟨h, fun hrunning => ?_⟩⟩
  have hzero : l.num_fds_ = 0 ↔ l.watched = ∅ := by
    rw [← Finset.card_eq_zero, ← h, ← UInt64.toNat_inj]
    rfl
  simp [runOnceReturns, hrunning, ← hzero, and_comm]

section card
variable {n : UInt64} {s t : FdSet}

theorem toNat_add_one_iff (hn : n.toNat = s.card) (hlt : s.card + 1 < 2^64) :
    (n + 1).toNat = t.card ↔ t.card = s.card + 1 := by
  rw [UInt64.toNat_add, UInt64.toNat_one, hn, Nat.mod_eq_of_lt hlt, eq_comm]

theorem toNat_sub_one_iff (hn : n.toNat = s.card) (hlt : t.card < 2^64 - 1) :
    (n - 1).toNat = t.card ↔ t.card + 1 = s.card := by
  rw [UInt64.toNat_sub, UInt64.toNat_one, hn]
  have hs : s.card < 2^64 := hn ▸ n.toNat_lt
  omega

end card

section watching
variable {task : τ}

theorem watched_runOn (h : l.RunOn op task fd l') :
    l'.watched = if fd = l.runq_wakeup_pipe_ then l.watched else insert fd l.watched := by
  ext x
  simp only [mem_watched, h.mem_ops, h.runq_wakeup_pipe_]
  split
  · next hpipe =>
    rw [mem_watched]
    refine and_congr_right fun hx => exists_congr fun op' => ?_
    exact or_iff_left fun hfd => hx (hfd.2.trans hpipe)
  · next hpipe =>
    rw [Finset.mem_insert, mem_watched]
    constructor
    · intro hx
      obtain ⟨hne, op', hmem | hfd⟩ := hx
      · exact .inr ⟨hne, op', hmem⟩
      · exact .inl hfd.2
    · intro hx
      cases hx with
      | inl heq => exact ⟨heq ▸ hpipe, op, .inr ⟨rfl, heq⟩⟩
      | inr hmem =>
        obtain ⟨hne, op', hop⟩ := hmem
        exact ⟨hne, op', .inl hop⟩

theorem watched_cancel : (l.cancel fd).watched = l.watched.erase fd := by
  ext x
  have hpipe : (l.cancel fd).runq_wakeup_pipe_ = l.runq_wakeup_pipe_ := rfl
  simp only [Finset.mem_erase, mem_watched, mem_ops_cancel, hpipe]
  constructor
  · intro hx
    obtain ⟨hne, op, hfd, hop⟩ := hx
    exact ⟨hfd, hne, op, hop⟩
  · intro hx
    obtain ⟨hfd, hne, op, hop⟩ := hx
    exact ⟨hne, op, hfd, hop⟩

theorem mem_watched_clear {x : Nat} :
    x ∈ (l.clear op fd).watched ↔
      x ≠ l.runq_wakeup_pipe_ ∧ ∃ op', x ∈ l.ops op' ∧ (op' = op → x ≠ fd) := by
  have hpipe : (l.clear op fd).runq_wakeup_pipe_ = l.runq_wakeup_pipe_ :=
    setOps_runq_wakeup_pipe_
  simp only [mem_watched, mem_ops_clear, hpipe]

theorem watched_clear_subset : (l.clear op fd).watched ⊆ l.watched := by
  intro x hx
  obtain ⟨hne, op', hop, -⟩ := mem_watched_clear.1 hx
  exact mem_watched.2 ⟨hne, op', hop⟩

theorem erase_subset_watched_clear : l.watched.erase fd ⊆ (l.clear op fd).watched := by
  intro x hx
  obtain ⟨hfd, hx⟩ := Finset.mem_erase.1 hx
  obtain ⟨hne, op', hop⟩ := mem_watched.1 hx
  exact mem_watched_clear.2 ⟨hne, op', hop, fun _ => hfd⟩

/-- One watched descriptor less is there after `clear` where `fd` was watched for nothing else. -/
theorem card_watched_clear_iff (hfd : fd ≠ l.runq_wakeup_pipe_) :
    (l.clear op fd).watched.card + 1 = l.watched.card ↔ ∀ op', fd ∈ l.ops op' ↔ op' = op := by
  have hclear : fd ∈ (l.clear op fd).watched ↔ ∃ op', fd ∈ l.ops op' ∧ op' ≠ op := by
    rw [mem_watched_clear]
    simp [hfd]
  constructor
  · intro hcard
    have hin : fd ∈ l.watched := by
      by_contra hnot
      have hsub : l.watched.erase fd ⊆ (l.clear op fd).watched := erase_subset_watched_clear
      have hle := Finset.card_le_card hsub
      rw [Finset.erase_eq_of_notMem hnot] at hle
      omega
    have hout : fd ∉ (l.clear op fd).watched := by
      intro hmem
      have hsub : l.watched ⊆ (l.clear op fd).watched := by
        intro x hx
        by_cases hxfd : x = fd
        · rwa [hxfd]
        · exact erase_subset_watched_clear (Finset.mem_erase.2 ⟨hxfd, hx⟩)
      have hle := Finset.card_le_card hsub
      omega
    have honly : ∀ op', fd ∈ l.ops op' → op' = op := by
      intro op' hop
      by_contra hne
      exact hout (hclear.2 ⟨op', hop, hne⟩)
    obtain ⟨-, op', hop⟩ := mem_watched.1 hin
    have hmem : fd ∈ l.ops op := honly op' hop ▸ hop
    exact fun op' => ⟨honly op', fun he => he ▸ hmem⟩
  · intro honly
    have hin : fd ∈ l.watched := mem_watched.2 ⟨hfd, op, (honly op).2 rfl⟩
    have hout : fd ∉ (l.clear op fd).watched := by
      rw [hclear]
      rintro ⟨op', hop, hne⟩
      exact hne ((honly op').1 hop)
    have heq : (l.clear op fd).watched = l.watched.erase fd := by
      refine Finset.Subset.antisymm (fun x hx => ?_) erase_subset_watched_clear
      refine Finset.mem_erase.2 ⟨fun hxfd => hout (hxfd ▸ hx), watched_clear_subset hx⟩
    rw [heq, Finset.card_erase_add_one hin]

end watching

/-- The sets have places for them. -/
def Bounded (l : EventLoop τ) : Prop := ∀ x ∈ l.watched, x < FD_SETSIZE

theorem Bounded.card_le (h : l.Bounded) : l.watched.card ≤ FD_SETSIZE := by
  have hsub : l.watched ⊆ Finset.range FD_SETSIZE := fun x hx => Finset.mem_range.2 (h x hx)
  simpa using Finset.card_le_card hsub

theorem Bounded.of_subset (h : l.Bounded) (hsub : l'.watched ⊆ l.watched) : l'.Bounded :=
  fun x hx => h x (hsub hx)

section counting
variable {task : τ} (hb : l.Bounded) (hn : l.num_fds_.toNat = l.watched.card)
include hb hn

theorem counts_runOn_iff (h : l.RunOn op task fd l') :
    l'.Counts ↔ fd ≠ l.runq_wakeup_pipe_ ∧ ∀ op', fd ∉ l.ops op' := by
  have hle := hb.card_le
  rw [FD_SETSIZE] at hle
  rw [counts_iff, h.num_fds_, toNat_add_one_iff hn (by omega), watched_runOn h]
  split
  · next hpipe => simp [hpipe]
  · next hpipe =>
    by_cases hmem : fd ∈ l.watched
    · obtain ⟨-, op', hop⟩ := mem_watched.1 hmem
      rw [Finset.insert_eq_of_mem hmem]
      exact ⟨fun hcard => absurd hcard (by omega), fun hfd => absurd hop (hfd.2 op')⟩
    · rw [Finset.card_insert_of_notMem hmem]
      refine ⟨fun _ => ⟨hpipe, fun op' hop => hmem ?_⟩, fun _ => rfl⟩
      exact mem_watched.2 ⟨hpipe, op', hop⟩

theorem counts_cancel_iff :
    (l.cancel fd).Counts ↔ (fd = l.runq_wakeup_pipe_ → ∀ op, fd ∉ l.ops op) := by
  have hle := hb.card_le
  rw [FD_SETSIZE] at hle
  have hnum : (l.cancel fd).num_fds_ =
      if fd ∈ l.op_read_ ∨ fd ∈ l.op_write_ then l.num_fds_ - 1 else l.num_fds_ := rfl
  have hset : fd ∈ l.op_read_ ∨ fd ∈ l.op_write_ ↔ ∃ op, fd ∈ l.ops op := by
    constructor
    · rintro (hread | hwrite)
      · exact ⟨.read, hread⟩
      · exact ⟨.write, hwrite⟩
    · rintro ⟨op, hop⟩
      cases op with
      | read => exact .inl hop
      | write => exact .inr hop
  have hcard := Finset.card_erase_le (s := l.watched) (a := fd)
  rw [counts_iff, hnum, watched_cancel]
  by_cases hop : ∃ op, fd ∈ l.ops op
  · rw [if_pos (hset.2 hop), toNat_sub_one_iff hn (by omega)]
    by_cases hpipe : fd = l.runq_wakeup_pipe_
    · have hnot : fd ∉ l.watched := fun hmem => (mem_watched.1 hmem).1 hpipe
      obtain ⟨op, hop⟩ := hop
      rw [Finset.erase_eq_of_notMem hnot]
      exact ⟨fun h => absurd h (by omega), fun h => absurd hop (h hpipe op)⟩
    · have hmem : fd ∈ l.watched := mem_watched.2 ⟨hpipe, hop⟩
      rw [Finset.card_erase_add_one hmem]
      exact ⟨fun _ heq => absurd heq hpipe, fun _ => rfl⟩
  · have hnot : fd ∉ l.watched := fun hmem => hop (mem_watched.1 hmem).2
    rw [if_neg fun h => hop (hset.1 h), Finset.erase_eq_of_notMem hnot]
    exact ⟨fun _ _ op hmem => hop ⟨op, hmem⟩, fun _ => hn⟩

theorem counts_clear_iff (hfd : fd ≠ l.runq_wakeup_pipe_) :
    (l.clear op fd).Counts ↔ ∀ op', fd ∈ l.ops op' ↔ op' = op := by
  have hle := hb.card_le
  rw [FD_SETSIZE] at hle
  have hsub : (l.clear op fd).watched ⊆ l.watched := watched_clear_subset
  have hcard := Finset.card_le_card hsub
  rw [counts_iff, ← card_watched_clear_iff hfd]
  exact toNat_sub_one_iff hn (by omega)

end counting

theorem bounded_new (runq_fd : Nat) : (new runq_fd : EventLoop τ).Bounded := by
  intro x hx
  simp [watched, new] at hx

theorem counts_new (runq_fd : Nat) : (new runq_fd : EventLoop τ).Counts := by
  rw [counts_iff]
  simp [watched, new]

end EventLoop

namespace System
open EventLoop
variable {τ : Type} {s t : System τ} {a : Action τ}

/-- The counter is right, and the sets have been used within their bounds. -/
structure Counts (s : System τ) : Prop where
  defined : s.Defined
  loop : s.loop.Counts

/-- What poll clears at `fd`, if it is not the pipe and was reported. -/
def dispatch? (s : System τ) (fd : Nat) : Option Op :=
  match s.position with
  | .fds _ ready => if fd = s.loop.runq_wakeup_pipe_ then none else ready.op? fd
  | _ => none

/-- The actions that keep the counter right: a descriptor is below `FD_SETSIZE` unless it is refused,
it is registered when it is not watched yet, nobody cancels the pipe, and poll clears what is watched
for this and for nothing else. -/
def Counted (s : System τ) : Action τ → Prop
  | .runOnReadable _ fd | .runOnWritable _ fd =>
    fd ≤ FD_SETSIZE → fd < FD_SETSIZE ∧ fd ≠ s.loop.runq_wakeup_pipe_ ∧ ∀ op, fd ∉ s.loop.ops op
  | .cancelFD fd =>
    fd < FD_SETSIZE ∧ (fd = s.loop.runq_wakeup_pipe_ → ∀ op, fd ∉ s.loop.ops op)
  | .visit fd _ => ∀ op, s.dispatch? fd = some op → ∀ op', fd ∈ s.loop.ops op' ↔ op' = op
  | _ => True

theorem counted_runOn {op : Op} {task : τ} {fd : Nat} :
    s.Counted (.runOn op task fd) ↔ (fd ≤ FD_SETSIZE →
      fd < FD_SETSIZE ∧ fd ≠ s.loop.runq_wakeup_pipe_ ∧ ∀ op, fd ∉ s.loop.ops op) := by
  cases op <;> rfl

theorem Counts.of_loop (h : s.Counts) (hpos : t.position ≠ .undefined)
    (hloop : t.loop.num_fds_ = s.loop.num_fds_ ∧ t.loop.watched = s.loop.watched) : t.Counts := by
  refine ⟨hpos, counts_iff.2 ?_⟩
  rw [hloop.1, hloop.2]
  exact h.loop.num_fds_

theorem not_counts_undefined : ¬s.undefined.Counts := fun h => h.defined rfl

theorem Takes.bounded (h : Takes s a t) (hb : s.loop.Bounded) : t.loop.Bounded := by
  cases h with
  | runOn hthread hl =>
    intro x hx
    rw [watched_runOn hl] at hx
    split at hx
    · exact hb x hx
    · cases Finset.mem_insert.1 hx with
      | inl heq => exact heq ▸ hl.fd_lt
      | inr hmem => exact hb x hmem
  | cancelFD hthread hfd =>
    refine hb.of_subset ?_
    rw [watched_cancel]
    exact Finset.erase_subset _ _
  | dispatch => exact hb.of_subset watched_clear_subset
  | refused | passed | strayed | appendToRunQ | waits | append | wakeup | shutdown | interrupted |
    select | drain | splice | task | scan | pass | overrun | leave | returns | raises => exact hb

theorem Takes.counts_iff (h : Takes s a t) (hmax : s.loop.max_fd_ < FD_SETSIZE)
    (hb : s.loop.Bounded) (hs : s.Counts) : t.Counts ↔ s.Counted a := by
  have hn := hs.loop.num_fds_
  cases h with
  | @runOn op task fd l hthread hl =>
    have hloop : Counts { s with loop := l } ↔ l.Counts := ⟨Counts.loop, fun h => ⟨hs.defined, h⟩⟩
    rw [hloop, counts_runOn_iff hb hn hl, counted_runOn]
    exact ⟨fun h _ => ⟨hl.fd_lt, h⟩, fun h => (h hl.fd_lt.le).2⟩
  | refused hthread hfd =>
    rw [counted_runOn]
    exact ⟨fun _ hle => absurd hle (by omega), fun _ => hs⟩
  | passed hthread =>
    rw [counted_runOn]
    exact ⟨fun h => absurd h not_counts_undefined, fun h => absurd (h le_rfl).1 (lt_irrefl _)⟩
  | @cancelFD fd hthread hfd =>
    have hloop : Counts { s with loop := s.loop.cancel fd } ↔ (s.loop.cancel fd).Counts :=
      ⟨Counts.loop, fun h => ⟨hs.defined, h⟩⟩
    rw [hloop, counts_cancel_iff hb hn]
    exact ⟨fun h => ⟨hfd, h⟩, fun h => h.2⟩
  | strayed hthread hfd =>
    exact ⟨fun h => absurd h not_counts_undefined, fun h => absurd h.1 (Nat.not_lt.2 hfd)⟩
  | pass hpos hcalling hpass =>
    refine ⟨fun _ op hop => ?_, fun _ => hs.of_loop (by simp) ⟨rfl, rfl⟩⟩
    simp only [dispatch?, hpos] at hop
    split at hop
    · cases hop
    · next hne =>
      rw [hpass.resolve_left hne] at hop
      cases hop
  | overrun hpos hcalling hfd hle => exact absurd hle (by omega)
  | @dispatch fd ready op hpos hcalling hfd hop =>
    have hdispatch : s.dispatch? fd = some op := by simp [dispatch?, hpos, hfd, hop]
    have hloop : Counts { s with
        position := .fds (fd+1) ready, loop := s.loop.clear op fd
        calling := (s.loop.callbacks_ fd).isSome } ↔ (s.loop.clear op fd).Counts :=
      ⟨Counts.loop, fun h => ⟨by simp [Defined], h⟩⟩
    rw [hloop, counts_clear_iff hb hn hfd]
    refine ⟨fun h op' hop' => ?_, fun h => h op hdispatch⟩
    obtain rfl := Option.some.inj (hdispatch.symm.trans hop')
    exact h
  | select hpos hops =>
    refine ⟨fun _ => trivial, fun _ => hs.of_loop ?_ ⟨rfl, rfl⟩⟩
    dsimp only
    split
    · simp
    · simp
  | waits | drain | splice | task | scan | leave | raises =>
    exact ⟨fun _ => trivial, fun _ => hs.of_loop (by simp [waiting]) ⟨rfl, rfl⟩⟩
  | appendToRunQ | append | shutdown | wakeup | interrupted | returns =>
    exact ⟨fun _ => trivial, fun _ => hs.of_loop hs.defined ⟨rfl, rfl⟩⟩

theorem counts_new {runq_fd : Nat} (h : runq_fd < FD_SETSIZE) :
    (new runq_fd : System τ).Counts where
  defined := by
    rw [Defined, new, if_pos h]
    simp
  loop := EventLoop.counts_new runq_fd

variable [DecidableEq τ] {as : List (Action τ)}

theorem bounded_of_run {runq_fd : Nat} (h : Runs.Run step (new runq_fd) as s) :
    s.loop.Bounded :=
  h.invariant (bounded_new runq_fd) fun _ _ _ hb _ hstep => (takes_of_step hstep).bounded hb

/-- The counter is right all along a run if and only if the pipe has a place in the sets and every
action of the run keeps it right. -/
theorem num_fds_counts_iff (runq_fd : Nat) (h : Runs.Run step (new runq_fd) as s) :
    (∀ as' t, as' <+: as → Runs.Run step (new runq_fd : System τ) as' t → t.Counts) ↔
      runq_fd < FD_SETSIZE ∧ Runs.Reaches step Counted (new runq_fd) as s := by
  by_cases hpipe : runq_fd < FD_SETSIZE
  · rw [and_iff_right hpipe]
    exact h.throughout_iff (counts_new hpipe) fun _ _ _ _ hrun hs hstep =>
      (takes_of_step hstep).counts_iff (max_fd_lt_of_run hpipe hrun) (bounded_of_run hrun) hs
  · have hpos : (new runq_fd : System τ).position = .undefined := if_neg hpipe
    exact ⟨fun hall => absurd hpos (hall [] _ List.nil_prefix .start).defined,
      fun hpipe' => absurd hpipe'.1 hpipe⟩

theorem num_fds_counts_polled :
    let as : List (Action Nat) :=
      [.runOnReadable 1 5, .runOnWritable 2 6, .select ⟨{5}, ∅⟩, .visit 0 none]
    ∃ s, Runs.Run step (new 3) as s ∧
      ((∀ as' t, as' <+: as → Runs.Run step (new 3 : System Nat) as' t → t.Counts) ↔
        3 < FD_SETSIZE ∧ Runs.Reaches step Counted (new 3) as s) :=
  have hrun := Runs.reaches_of_foldlM rfl
  ⟨_, hrun, num_fds_counts_iff 3 hrun⟩

/-- A descriptor that is watched for both is counted twice and, when it is cancelled, taken off
once: the loop goes on with nothing to wait for. -/
theorem both_directions_not_counted :
    ∃ s : System Nat,
      Runs.Run step (new 3) [.runOnReadable 1 5, .runOnWritable 2 5, .cancelFD 5] s ∧
      s.loop.watched = ∅ ∧ s.loop.runq_ = [] ∧ s.loop.runOnceReturns = false ∧ ¬s.Counts := by
  refine ⟨_, Runs.reaches_of_foldlM rfl, by decide, rfl, by decide, fun hcounts => ?_⟩
  exact absurd hcounts.loop.num_fds_ (by decide)

end System
end Stx.Thread
