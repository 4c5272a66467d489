import Stx.Lib.Threads

/-! Mutexes taken in order. Programs that give back what they take, and that take a mutex
only if it has a lower rank than all those they hold, cannot be kept waiting for ever:
from every state of a pool, every call can be run to its end. -/
namespace Threads
variable {σ M Λ C α β : Type} (rank : M → Nat)

/-- The program holds the mutexes of the second list, the last one taken first, and ends
with those of the first one. -/
def Prog.Locks (last : List M) : Prog σ M Λ α → List M → Prop
  | .ret _, held => held = last
  | .act _ k, held => ∀ s, (k s).Locks last held
  | .acquire m k, held => (∀ m' ∈ held, rank m < rank m') ∧ k.Locks last (m :: held)
  | .release m k, held => ∃ rest, held = m :: rest ∧ k.Locks last rest
  | .note _ k, held => k.Locks last held

variable {rank}

namespace Prog
variable {held mid last : List M}

theorem Locks.bind {p : Prog σ M Λ α} {g : α → Prog σ M Λ β} (hp : p.Locks rank mid held)
    (hg : ∀ a, (g a).Locks rank last mid) : (p.bind g).Locks rank last held := by
  induction p generalizing held with
  | ret a =>
    rw [show held = mid from hp]
    exact hg a
  | act f k ih => exact fun s => ih s (hp s)
  | acquire m k ih => exact ⟨hp.1, ih hp.2⟩
  | release m k ih =>
    obtain ⟨rest, hheld, hrest⟩ := hp
    exact ⟨rest, hheld, ih hrest⟩
  | note l k ih => exact ih hp

theorem ReadOnly.locks {p : Prog σ M Λ α} (hp : p.ReadOnly) : p.Locks rank held held := by
  induction p with
  | ret a => rfl
  | act f k ih => exact fun s => ih s (hp.2 s)
  | acquire m k => exact hp.elim
  | release m k => exact hp.elim
  | note l k => exact hp.elim

theorem Locks.holding {p : Prog σ M Λ α} {m : M} (hm : ∀ m' ∈ held, rank m < rank m')
    (hp : p.Locks rank (m :: held) (m :: held)) : (holding m p).Locks rank held held :=
  ⟨hm, hp.bind fun _ => ⟨held, rfl, rfl⟩⟩

end Prog

namespace Pool
variable {p p' : Pool σ M Λ C α} {c : C} {prog : Prog σ M Λ α} {t u : Nat} {m : M}

/-- Every mutex is held by a thread whose program will give it back. -/
structure Ordered (rank : M → Nat) (p : Pool σ M Λ C α) : Prop where
  held : ∀ t c prog, p.threads t = some (c, prog) → ∃ held : List M, prog.Locks rank [] held ∧
    held.Pairwise (rank · < rank ·) ∧ ∀ m, p.view.holder m = some t ↔ m ∈ held
  owner : ∀ m t, p.view.holder m = some t → p.threads t ≠ none

theorem Ordered.init (s : σ) : (Pool.init s : Pool σ M Λ C α).Ordered rank where
  held _ _ _ ht := by cases ht
  owner _ _ hm := by cases hm

/-- A step of the thread `t` with the mutexes it holds afterwards. -/
theorem Ordered.moved (hp : p.Ordered rank) {prog' : Prog σ M Λ α} {v' : View σ M} {held : List M}
    (hl : prog'.Locks rank [] held) (hheld : held.Pairwise (rank · < rank ·))
    (hmem : ∀ m, v'.holder m = some t ↔ m ∈ held)
    (hothers : ∀ u ≠ t, ∀ m, v'.holder m = some u ↔ p.view.holder m = some u)
    (ls : List Λ) : (p.moved t c v' prog' ls).Ordered rank where
  held u c' prog hu := by
    by_cases hne : u = t
    · subst hne
      cases (p.moved_self ..).symm.trans hu
      exact ⟨held, hl, hheld, hmem⟩
    · obtain ⟨heldu, hlu, hheldu, hmemu⟩ := hp.held u c' prog ((p.moved_of_ne hne ..).symm.trans hu)
      exact ⟨heldu, hlu, hheldu, fun m => (hothers u hne m).trans (hmemu m)⟩
  owner m u hm := by
    by_cases hne : u = t
    · subst hne
      rw [p.moved_self]
      exact Option.some_ne_none _
    · rw [p.moved_of_ne hne]
      exact hp.owner m u ((hothers u hne m).1 hm)

/-- Threads that hold only mutexes of a higher rank than `m` are left alone. -/
def Above (rank : M → Nat) (m : M) (p p' : Pool σ M Λ C α) : Prop :=
  ∀ t, (∀ m', p.view.holder m' = some t → rank m < rank m') →
    p'.threads t = p.threads t ∧ ∀ m', p'.view.holder m' = some t ↔ p.view.holder m' = some t

theorem Above.trans {p₁ p₂ p₃ : Pool σ M Λ C α} {m m' : M} (hm : rank m' ≤ rank m)
    (h₁ : Above rank m' p₁ p₂) (h₂ : Above rank m p₂ p₃) : Above rank m p₁ p₃ := by
  intro t ht
  obtain ⟨hsame, hiff⟩ := h₁ t fun m₁ hm₁ => Nat.lt_of_le_of_lt hm (ht m₁ hm₁)
  obtain ⟨hsame', hiff'⟩ := h₂ t fun m₁ hm₁ => ht m₁ ((hiff m₁).1 hm₁)
  exact ⟨hsame'.trans hsame, fun m₁ => (hiff' m₁).trans (hiff m₁)⟩

/-- A step of the thread that holds `m`. -/
theorem Above.moved {prog' : Prog σ M Λ α} {v' : View σ M} (hm : p.view.holder m = some u)
    (hothers : ∀ t ≠ u, ∀ m, v'.holder m = some t ↔ p.view.holder m = some t) (ls : List Λ) :
    Above rank m p (p.moved u c v' prog' ls) := by
  intro t ht
  have hne : t ≠ u := by
    rintro rfl
    exact Nat.lt_irrefl _ (ht m hm)
  exact ⟨p.moved_of_ne hne .., hothers t hne⟩

variable [DecidableEq M] {code : C → Prog σ M Λ α}

/-- A call that is alone in using the mutexes does what its program means. -/
theorem solo (code : C → Prog σ M Λ α) {held : List M} (hl : prog.Locks rank [] held)
    (hheld : held.Pairwise (rank · < rank ·)) (ht : p.threads t = some (c, prog))
    (hfree : ∀ m, p.view.holder m = if m ∈ held then some t else none) :
    ∃ p', p.Run code p' ∧ p'.Returned t c (prog.run p.view.state).1 ∧
      p'.view = ⟨(prog.run p.view.state).2, fun _ => none⟩ ∧
      (∀ u ≠ t, p'.threads u = p.threads u) ∧
      p'.notes = p.notes ++ (prog.noted p.view.state).map (t, ·) := by
  induction prog generalizing p held with
  | ret a =>
    cases (hl : held = [])
    refine ⟨p, .refl, ht, ?_, fun _ _ => rfl, (List.append_nil _).symm⟩
    have hnone : p.view.holder = fun _ => none := by
      funext m
      simpa using hfree m
    rw [Prog.run, ← hnone]
  | act f k ih =>
    obtain ⟨p', hrun, hret, hview, hothers, hnotes⟩ := ih p.view.state (hl p.view.state) hheld
      (p.moved_self t c (p.view.put (f p.view.state)) _ []) hfree
    exact ⟨p', hrun.head (.move t c _ _ _ _ ht (.act ..)), hret, hview,
      fun u hu => (hothers u hu).trans (p.moved_of_ne hu ..), by simpa [moved, Prog.noted] using hnotes⟩
  | acquire m k ih =>
    have hnot : m ∉ held := fun hmem => Nat.lt_irrefl _ (hl.1 m hmem)
    have hnone : p.view.holder m = none := by rw [hfree, if_neg hnot]
    have hlocked : ∀ m', (p.view.lock m t).holder m' = if m' ∈ m :: held then some t else none := by
      intro m'
      by_cases heq : m' = m
      · rw [heq, View.lock_self, if_pos List.mem_cons_self]
      · rw [View.lock_of_ne _ heq, hfree]
        simp [heq]
    obtain ⟨p', hrun, hret, hview, hothers, hnotes⟩ := ih hl.2 (List.pairwise_cons.2 ⟨hl.1, hheld⟩)
      (p.moved_self t c (p.view.lock m t) k []) hlocked
    exact ⟨p', hrun.head (.move t c _ _ _ _ ht (.acquire _ _ _ hnone)), hret, hview,
      fun u hu => (hothers u hu).trans (p.moved_of_ne hu ..), by simpa [moved, Prog.noted] using hnotes⟩
  | release m k ih =>
    obtain ⟨rest, rfl, hrest⟩ := hl
    have hsorted := List.pairwise_cons.1 hheld
    have hnot : m ∉ rest := fun hmem => Nat.lt_irrefl _ (hsorted.1 m hmem)
    have hunlocked : ∀ m', (p.view.unlock m).holder m' = if m' ∈ rest then some t else none := by
      intro m'
      by_cases heq : m' = m
      · rw [heq, View.unlock_self, if_neg hnot]
      · rw [View.unlock_of_ne _ heq, hfree]
        simp [heq]
    obtain ⟨p', hrun, hret, hview, hothers, hnotes⟩ := ih hrest hsorted.2
      (p.moved_self t c (p.view.unlock m) k []) hunlocked
    exact ⟨p', hrun.head (.move t c _ _ _ _ ht (.release ..)), hret, hview,
      fun u hu => (hothers u hu).trans (p.moved_of_ne hu ..), by simpa [moved, Prog.noted] using hnotes⟩
  | note l k ih =>
    obtain ⟨p', hrun, hret, hview, hothers, hnotes⟩ := ih hl hheld
      (p.moved_self t c p.view k [l]) hfree
    exact ⟨p', hrun.head (.move t c _ _ _ _ ht (.note ..)), hret, hview,
      fun u hu => (hothers u hu).trans (p.moved_of_ne hu ..), by simpa [moved, Prog.noted] using hnotes⟩

theorem holder_lock {v : View σ M} (hm : v.holder m = none) (hu : u ≠ t) (m' : M) :
    (v.lock m t).holder m' = some u ↔ v.holder m' = some u := by
  by_cases heq : m' = m
  · rw [heq, View.lock_self, hm]
    simp [Ne.symm hu]
  · rw [View.lock_of_ne v heq]

theorem holder_unlock {v : View σ M} (hm : v.holder m = some t) (hu : u ≠ t) (m' : M) :
    (v.unlock m).holder m' = some u ↔ v.holder m' = some u := by
  by_cases heq : m' = m
  · rw [heq, View.unlock_self, hm]
    simp [Ne.symm hu]
  · rw [View.unlock_of_ne v heq]

theorem Ordered.step (hp : p.Ordered rank) (hcode : ∀ c, (code c).Locks rank [] [])
    (hs : p.Step code p') : p'.Ordered rank := by
  cases hs with
  | start t c ht =>
    refine hp.moved (hcode c) .nil (fun m => ?_) (fun _ _ _ => Iff.rfl) _
    constructor
    · intro hm
      exact absurd ht (hp.owner m t hm)
    · intro hm
      cases hm
  | move t c prog prog' v' ls ht hm =>
    obtain ⟨held, hl, hheld, hmem⟩ := hp.held t c prog ht
    cases hm with
    | act f k =>
      refine hp.moved (hl _) hheld ?_ (fun u _ m => ?_) []
      · exact hmem
      · exact Iff.rfl
    | acquire m _ hfree =>
      refine hp.moved hl.2 (List.pairwise_cons.2 ⟨hl.1, hheld⟩) (fun m' => ?_)
        (fun u hu m' => holder_lock hfree hu m') _
      by_cases heq : m' = m
      · simp [heq]
      · rw [View.lock_of_ne _ heq, hmem, List.mem_cons, or_iff_right heq]
    | release m =>
      obtain ⟨rest, rfl, hrest⟩ := hl
      have hsorted := List.pairwise_cons.1 hheld
      have hnot : m ∉ rest := fun hin => Nat.lt_irrefl _ (hsorted.1 m hin)
      refine hp.moved hrest hsorted.2 (fun m' => ?_)
        (fun u hu m' => holder_unlock ((hmem m).2 List.mem_cons_self) hu m') _
      by_cases heq : m' = m
      · simp [heq, hnot]
      · rw [View.unlock_of_ne _ heq, hmem, List.mem_cons, or_iff_right heq]
    | note l =>
      refine hp.moved ?_ hheld hmem (fun u _ m => Iff.rfl) [l]
      exact hl

theorem Ordered.run (hp : p.Ordered rank) (hcode : ∀ c, (code c).Locks rank [] [])
    (hr : p.Run code p') : p'.Ordered rank := by
  induction hr with
  | refl => exact hp
  | tail _ hs ih => exact ih.step hcode hs

/-- The thread that holds `m` can be run until it gives `m` back. It may have to wait for
mutexes of a lower rank, whose holders are run first. -/
theorem Ordered.drop (hcode : ∀ c, (code c).Locks rank [] []) (m : M) :
    ∀ (p : Pool σ M Λ C α) (u : Nat), p.Ordered rank → p.view.holder m = some u →
      ∃ p', p.Run code p' ∧ p'.view.holder m = none ∧ Above rank m p p' := by
  induction hn : rank m using Nat.strongRecOn generalizing m with
  | ind n lower =>
    subst hn
    intro p u hp hm
    obtain ⟨⟨c, prog⟩, ht⟩ := Option.ne_none_iff_exists'.1 (hp.owner m u hm)
    induction prog generalizing p with
    | ret a =>
      obtain ⟨held, hl, -, hmem⟩ := hp.held u c _ ht
      cases (hl : held = [])
      cases (hmem m).1 hm
    | act f k ih =>
      have hs : p.Step code _ := .move u c _ _ _ _ ht (.act ..)
      obtain ⟨p', hrun, hnone, habove⟩ := ih _ _ (hp.step hcode hs) hm (p.moved_self ..)
      exact ⟨p', hrun.head hs, hnone,
        (Above.moved hm (fun _ _ _ => Iff.rfl) []).trans (Nat.le_refl _) habove⟩
    | acquire m' k ih =>
      obtain ⟨held, hl, -, hmem⟩ := hp.held u c _ ht
      have hrank : rank m' < rank m := hl.1 m ((hmem m).1 hm)
      have hne : m ≠ m' := by
        rintro rfl
        exact Nat.lt_irrefl _ hrank
      -- once `m'` is free, `u` takes it and goes on
      have hgo : ∀ p₁ : Pool σ M Λ C α, p₁.Ordered rank → p₁.view.holder m' = none →
          p₁.view.holder m = some u → p₁.threads u = some (c, .acquire m' k) →
          ∃ p', p₁.Run code p' ∧ p'.view.holder m = none ∧ Above rank m p₁ p' := by
        intro p₁ hp₁ hfree hm₁ ht₁
        have hs : p₁.Step code _ := .move u c _ _ _ _ ht₁ (.acquire _ _ _ hfree)
        obtain ⟨p', hrun, hnone, habove⟩ := ih _ (hp₁.step hcode hs)
          ((View.lock_of_ne _ hne u).trans hm₁) (p₁.moved_self ..)
        exact ⟨p', hrun.head hs, hnone,
          (Above.moved hm₁ (fun t hne' m₁ => holder_lock hfree hne' m₁) []).trans (Nat.le_refl _) habove⟩
      cases hw : p.view.holder m' with
      | none => exact hgo p hp hw hm ht
      | some w =>
        obtain ⟨p₁, hrun₁, hfree, habove₁⟩ := lower (rank m') hrank m' rfl p w hp hw
        obtain ⟨hsame, hiff⟩ := habove₁ u fun m₁ hm₁ => hl.1 m₁ ((hmem m₁).1 hm₁)
        obtain ⟨p', hrun, hnone, habove⟩ := hgo p₁ (hp.run hcode hrun₁) hfree ((hiff m).2 hm)
          (hsame.trans ht)
        exact ⟨p', hrun₁.trans hrun, hnone, habove₁.trans (Nat.le_of_lt hrank) habove⟩
    | release m' k ih =>
      obtain ⟨held, hl, -, hmem⟩ := hp.held u c _ ht
      obtain ⟨rest, rfl, -⟩ := hl
      have hs : p.Step code _ := .move u c _ _ _ _ ht (.release ..)
      have hstep : Above rank m p (p.moved u c (p.view.unlock m') k []) := Above.moved hm
        (fun t hne m₁ => holder_unlock ((hmem m').2 List.mem_cons_self) hne m₁) []
      by_cases heq : m = m'
      · subst heq
        exact ⟨_, .single hs, View.unlock_self .., hstep⟩
      · obtain ⟨p', hrun, hnone, habove⟩ := ih _ (hp.step hcode hs)
          ((View.unlock_of_ne _ heq).trans hm) (p.moved_self ..)
        exact ⟨p', hrun.head hs, hnone, hstep.trans (Nat.le_refl _) habove⟩
    | note l k ih =>
      have hs : p.Step code _ := .move u c _ _ _ _ ht (.note ..)
      obtain ⟨p', hrun, hnone, habove⟩ := ih _ (hp.step hcode hs) hm (p.moved_self ..)
      exact ⟨p', hrun.head hs, hnone,
        (Above.moved hm (fun _ _ _ => Iff.rfl) [l]).trans (Nat.le_refl _) habove⟩

/-- Every call that has begun can be run to its end. -/
theorem Ordered.finish (hp : p.Ordered rank) (hcode : ∀ c, (code c).Locks rank [] [])
    (ht : p.threads t = some (c, prog)) : ∃ p' a, p.Run code p' ∧ p'.Returned t c a := by
  induction prog generalizing p with
  | ret a => exact ⟨p, a, .refl, ht⟩
  | act f k ih =>
    have hs : p.Step code _ := .move t c _ _ _ _ ht (.act ..)
    obtain ⟨p', a, hrun, hret⟩ := ih _ (hp.step hcode hs) (p.moved_self ..)
    exact ⟨p', a, hrun.head hs, hret⟩
  | acquire m k ih =>
    obtain ⟨held, hl, -, hmem⟩ := hp.held t c _ ht
    have hgo : ∀ p₁ : Pool σ M Λ C α, p₁.Ordered rank → p₁.view.holder m = none →
        p₁.threads t = some (c, .acquire m k) → ∃ p' a, p₁.Run code p' ∧ p'.Returned t c a := by
      intro p₁ hp₁ hfree ht₁
      have hs : p₁.Step code _ := .move t c _ _ _ _ ht₁ (.acquire _ _ _ hfree)
      obtain ⟨p', a, hrun, hret⟩ := ih (hp₁.step hcode hs) (p₁.moved_self ..)
      exact ⟨p', a, hrun.head hs, hret⟩
    cases hw : p.view.holder m with
    | none => exact hgo p hp hw ht
    | some w =>
      obtain ⟨p₁, hrun₁, hfree, habove⟩ := Ordered.drop hcode m p w hp hw
      obtain ⟨hsame, -⟩ := habove t fun m' hm' => hl.1 m' ((hmem m').1 hm')
      obtain ⟨p', a, hrun, hret⟩ := hgo p₁ (hp.run hcode hrun₁) hfree (hsame.trans ht)
      exact ⟨p', a, hrun₁.trans hrun, hret⟩
  | release m k ih =>
    have hs : p.Step code _ := .move t c _ _ _ _ ht (.release ..)
    obtain ⟨p', a, hrun, hret⟩ := ih (hp.step hcode hs) (p.moved_self ..)
    exact ⟨p', a, hrun.head hs, hret⟩
  | note l k ih =>
    have hs : p.Step code _ := .move t c _ _ _ _ ht (.note ..)
    obtain ⟨p', a, hrun, hret⟩ := ih (hp.step hcode hs) (p.moved_self ..)
    exact ⟨p', a, hrun.head hs, hret⟩

end Pool
end Threads
