import Stx.Lib.Threads

/-! Rely and guarantee for the threads of a pool. `G t v v'` is what the thread `t` may
do to the shared state in one step, and `N l v` is what has to hold whenever `l` was
noted. A program is correct at `v` if its own steps stay within `G` and its result
satisfies the postcondition, whatever the other threads do within their `G`. -/
namespace Threads
variable {σ M Λ C α β : Type}

section
variable (G : Nat → View σ M → View σ M → Prop) (N : Λ → View σ M → Prop)

/-- A step of a thread other than `t`; it neither takes nor gives back a mutex of `t`. -/
def Foreign (t : Nat) (v v' : View σ M) : Prop :=
  ∃ u ≠ t, G u v v' ∧ ∀ m, v'.holder m = some t ↔ v.holder m = some t

def Rely (t : Nat) : View σ M → View σ M → Prop := Relation.ReflTransGen (Foreign G t)

/-- The weakest precondition of a program of the thread `t`. -/
def wp [DecidableEq M] (t : Nat) (Q : α → View σ M → Prop) : Prog σ M Λ α → View σ M → Prop
  | .ret a, v => ∀ v', Rely G t v v' → Q a v'
  | .act f k, v => ∀ v', Rely G t v v' →
    G t v' (v'.put (f v'.state)) ∧ wp t Q (k v'.state) (v'.put (f v'.state))
  | .acquire m k, v => ∀ v', Rely G t v v' → v'.holder m = none →
    G t v' (v'.lock m t) ∧ wp t Q k (v'.lock m t)
  | .release m k, v => ∀ v', Rely G t v v' →
    v'.holder m = some t ∧ G t v' (v'.unlock m) ∧ wp t Q k (v'.unlock m)
  | .note l k, v => ∀ v', Rely G t v v' → N l v' ∧ wp t Q k v'

end

variable {G : Nat → View σ M → View σ M → Prop} {N : Λ → View σ M → Prop}
variable {t : Nat} {v v' : View σ M} {Q : α → View σ M → Prop}

theorem Rely.refl (v : View σ M) : Rely G t v v := Relation.ReflTransGen.refl

theorem Rely.trans {v₁ v₂ v₃ : View σ M} (h₁ : Rely G t v₁ v₂) (h₂ : Rely G t v₂ v₃) :
    Rely G t v₁ v₃ := Relation.ReflTransGen.trans h₁ h₂

/-- An assertion that every foreign step keeps. -/
theorem Rely.keeps {P : View σ M → Prop} (h : Rely G t v v') (hv : P v)
    (hP : ∀ v v', Foreign G t v v' → P v → P v') : P v' := by
  induction h with
  | refl => exact hv
  | tail _ hstep ih => exact hP _ _ hstep ih

theorem Rely.holder_iff (h : Rely G t v v') (m : M) :
    v'.holder m = some t ↔ v.holder m = some t := by
  induction h with
  | refl => exact Iff.rfl
  | tail _ hstep ih =>
    obtain ⟨_, _, _, hlocks⟩ := hstep
    exact (hlocks m).trans ih

variable [DecidableEq M]

/-- A precondition allows for what the others do before the next step. -/
theorem wp.rely {p : Prog σ M Λ α} (h : wp G N t Q p v) (hr : Rely G t v v') :
    wp G N t Q p v' := by
  cases p with
  | ret a => exact fun v'' hr' => h v'' (hr.trans hr')
  | act f k => exact fun v'' hr' => h v'' (hr.trans hr')
  | acquire m k => exact fun v'' hr' => h v'' (hr.trans hr')
  | release m k => exact fun v'' hr' => h v'' (hr.trans hr')
  | note l k => exact fun v'' hr' => h v'' (hr.trans hr')

theorem wp_bind {Q : β → View σ M → Prop} {p : Prog σ M Λ α} {g : α → Prog σ M Λ β}
    (h : wp G N t (fun a v => wp G N t Q (g a) v) p v) : wp G N t Q (p.bind g) v := by
  induction p generalizing v with
  | ret a => exact h v (Rely.refl v)
  | act f k ih => exact fun v' hr => ⟨(h v' hr).1, ih _ (h v' hr).2⟩
  | acquire m k ih => exact fun v' hr hm => ⟨(h v' hr hm).1, ih (h v' hr hm).2⟩
  | release m k ih => exact fun v' hr => ⟨(h v' hr).1, (h v' hr).2.1, ih (h v' hr).2.2⟩
  | note l k ih => exact fun v' hr => ⟨(h v' hr).1, ih (h v' hr).2⟩

theorem wp.mono {Q' : α → View σ M → Prop} {p : Prog σ M Λ α} (h : wp G N t Q p v)
    (hQ : ∀ a v, Q a v → Q' a v) : wp G N t Q' p v := by
  induction p generalizing v with
  | ret a => exact fun v' hr => hQ a v' (h v' hr)
  | act f k ih => exact fun v' hr => ⟨(h v' hr).1, ih _ (h v' hr).2⟩
  | acquire m k ih => exact fun v' hr hm => ⟨(h v' hr hm).1, ih (h v' hr hm).2⟩
  | release m k ih => exact fun v' hr => ⟨(h v' hr).1, (h v' hr).2.1, ih (h v' hr).2.2⟩
  | note l k ih => exact fun v' hr => ⟨(h v' hr).1, ih (h v' hr).2⟩

/-- A program that only reads a state which nobody else changes returns what it returns
when it runs alone. -/
theorem wp_of_readOnly {p : Prog σ M Λ α} (hp : p.ReadOnly) (hG : ∀ v, G t v v)
    (hsame : ∀ v', Rely G t v v' → v'.state = v.state)
    (hQ : ∀ v', Rely G t v v' → Q (p.run v.state).1 v') : wp G N t Q p v := by
  induction p generalizing v with
  | ret a => exact hQ
  | act f k ih =>
    intro v' hr
    have hput : v'.put (f v'.state) = v' := by rw [hp.1]; rfl
    rw [hput]
    refine ⟨hG v', ih v'.state (hp.2 _) (fun v'' h => ?_) fun v'' h => ?_⟩
    · rw [hsame v'' (hr.trans h), hsame v' hr]
    · have hrun := hQ v'' (hr.trans h)
      rw [hsame v' hr]
      rwa [Prog.run, hp.1] at hrun
  | acquire m k => exact hp.elim
  | release m k => exact hp.elim
  | note l k => exact hp.elim

/-- A program that only reads, if nothing is asked of its result. -/
theorem wp_of_readOnly_any {p : Prog σ M Λ α} (hp : p.ReadOnly) (hG : ∀ v, G t v v)
    (hQ : ∀ a v', Rely G t v v' → Q a v') : wp G N t Q p v := by
  induction p generalizing v with
  | ret a => exact hQ a
  | act f k ih =>
    intro v' hr
    have hput : v'.put (f v'.state) = v' := by rw [hp.1]; rfl
    rw [hput]
    exact ⟨hG v', ih v'.state (hp.2 _) fun a v'' h => hQ a v'' (hr.trans h)⟩
  | acquire m k => exact hp.elim
  | release m k => exact hp.elim
  | note l k => exact hp.elim

/- Soundness. -/

/-- What a step of a correct program gives. -/
theorem wp.move {p p' : Prog σ M Λ α} {ls : List Λ} (h : wp G N t Q p v)
    (hm : Move t v p v' p' ls) :
    wp G N t Q p' v' ∧ (v' = v ∨ G t v v') ∧ (∀ l ∈ ls, N l v') ∧
      ∀ u ≠ t, ∀ m, v'.holder m = some u ↔ v.holder m = some u := by
  cases hm with
  | act f k =>
    have hstep := h v (Rely.refl v)
    exact ⟨hstep.2, .inr hstep.1, (by simp), fun _ _ _ => Iff.rfl⟩
  | acquire m _ hfree =>
    have hstep := h v (Rely.refl v) hfree
    refine ⟨hstep.2, .inr hstep.1, (by simp), fun u hu m' => ?_⟩
    by_cases hm : m' = m
    · subst hm
      rw [View.lock_self, hfree]
      constructor
      · intro heq
        exact absurd (Option.some.inj heq).symm hu
      · intro heq
        cases heq
    · rw [View.lock_of_ne v hm]
  | release m =>
    have hstep := h v (Rely.refl v)
    refine ⟨hstep.2.2, .inr hstep.2.1, (by simp), fun u hu m' => ?_⟩
    by_cases hm : m' = m
    · subst hm
      rw [View.unlock_self, hstep.1]
      constructor
      · intro heq
        cases heq
      · intro heq
        exact absurd (Option.some.inj heq).symm hu
    · rw [View.unlock_of_ne v hm]
  | note l =>
    have hstep := h v (Rely.refl v)
    refine ⟨hstep.2, .inl rfl, fun l' hl => ?_, fun _ _ _ => Iff.rfl⟩
    cases List.mem_singleton.1 hl
    exact hstep.1

/-- The thread holds no mutex. -/
def View.Idle (v : View σ M) (t : Nat) : Prop := ∀ m, v.holder m ≠ some t

/-- The code of the calls meets its specification: an invariant `I` of the shared state
and a postcondition for each call. -/
structure Contract (code : C → Prog σ M Λ α) (G : Nat → View σ M → View σ M → Prop)
    (N : Λ → View σ M → Prop) (I : View σ M → Prop) (post : C → α → View σ M → Prop) : Prop where
  keeps : ∀ t v v', G t v v' → I v → I v'
  noted : ∀ t v v' l, G t v v' → N l v → N l v'
  meets : ∀ t c v, I v → v.Idle t → wp G N t (post c) (code c) v

/-- The invariant of a pool. -/
structure Pool.Safe (G : Nat → View σ M → View σ M → Prop) (N : Λ → View σ M → Prop)
    (I : View σ M → Prop) (post : C → α → View σ M → Prop) (p : Pool σ M Λ C α) : Prop where
  inv : I p.view
  idle : ∀ t, p.threads t = none → p.view.Idle t
  notes : ∀ t l, (t, l) ∈ p.notes → N l p.view
  threads : ∀ t c prog, p.threads t = some (c, prog) → wp G N t (post c) prog p.view

variable {code : C → Prog σ M Λ α} {I : View σ M → Prop} {post : C → α → View σ M → Prop}
variable {p p' : Pool σ M Λ C α}

theorem Pool.Safe.init {s : σ} (hs : I ⟨s, fun _ => none⟩) :
    (Pool.init s : Pool σ M Λ C α).Safe G N I post where
  inv := hs
  idle _ _ _ hm := by cases hm
  notes _ _ hl := by cases hl
  threads _ _ _ ht := by cases ht

/-- A step of one thread as the others see it. -/
theorem rely_of_move {prog prog' : Prog σ M Λ α} {u : Nat} {ls : List Λ}
    (h : wp G N u Q prog v) (hm : Move u v prog v' prog' ls) (ht : t ≠ u) : Rely G t v v' := by
  obtain ⟨-, hG, -, hlocks⟩ := h.move hm
  cases hG with
  | inl heq => rw [heq]; exact Rely.refl v
  | inr hG => exact Relation.ReflTransGen.single ⟨u, ht.symm, hG, hlocks t ht⟩

/-- A thread that has begun stays correct, also for a postcondition of its own. -/
theorem Pool.Safe.follow (hp : p.Safe G N I post) (hs : p.Step code p')
    {c : C} {prog : Prog σ M Λ α} (ht : p.threads t = some (c, prog))
    (hw : wp G N t Q prog p.view) :
    ∃ prog', p'.threads t = some (c, prog') ∧ wp G N t Q prog' p'.view := by
  cases hs with
  | start u c' hu =>
    have hne : t ≠ u := by
      rintro rfl
      rw [hu] at ht
      cases ht
    exact ⟨prog, (p.moved_of_ne hne ..).trans ht, hw⟩
  | move u c' q q' v' ls hu hm =>
    by_cases hne : t = u
    · subst hne
      cases ht.symm.trans hu
      exact ⟨q', p.moved_self .., (hw.move hm).1⟩
    · exact ⟨prog, (p.moved_of_ne hne ..).trans ht,
        hw.rely (rely_of_move (hp.threads u c' q hu) hm hne)⟩

/-- A thread that appears in a step has just begun. -/
theorem Pool.Step.begun (hs : p.Step code p') (hp : p.threads t = none) {c : C}
    {prog : Prog σ M Λ α} (ht : p'.threads t = some (c, prog)) :
    prog = code c ∧ p'.view = p.view := by
  cases hs with
  | start u c' hu =>
    by_cases hne : t = u
    · subst hne
      cases (p.moved_self ..).symm.trans ht
      exact ⟨rfl, rfl⟩
    · have hold := (p.moved_of_ne hne ..).symm.trans ht
      rw [hp] at hold
      cases hold
  | move u c' q q' v' ls hu hm =>
    have hne : t ≠ u := by
      rintro rfl
      rw [hp] at hu
      cases hu
    have hold := (p.moved_of_ne hne ..).symm.trans ht
    rw [hp] at hold
    cases hold

/-- A property of the shared state that the threads keep. -/
theorem Pool.Safe.keeps (hp : p.Safe G N I post) (hs : p.Step code p') {P : View σ M → Prop}
    (hP : ∀ t v v', G t v v' → P v → P v') (h : P p.view) : P p'.view := by
  cases hs with
  | start => exact h
  | move u c q q' v' ls hu hm =>
    cases ((hp.threads u c q hu).move hm).2.1 with
    | inl heq => rw [heq]; exact h
    | inr hG => exact hP u _ _ hG h

theorem Contract.step (h : Contract code G N I post) (hp : p.Safe G N I post)
    (hs : p.Step code p') : p'.Safe G N I post where
  inv := hp.keeps hs h.keeps hp.inv
  idle t ht := by
    cases hs with
    | start u c hu =>
      have hne : t ≠ u := by
        rintro rfl
        rw [p.moved_self] at ht
        cases ht
      exact hp.idle t ((p.moved_of_ne hne ..).symm.trans ht)
    | move u c q q' v' ls hu hm =>
      have hne : t ≠ u := by
        rintro rfl
        rw [p.moved_self] at ht
        cases ht
      have hlocks := ((hp.threads u c q hu).move hm).2.2.2 t hne
      intro m hm
      exact hp.idle t ((p.moved_of_ne hne ..).symm.trans ht) m ((hlocks m).1 hm)
  notes t l hl := by
    cases hs with
    | start => exact hp.notes t l (by simpa [Pool.moved] using hl)
    | move u c q q' v' ls hu hm =>
      cases List.mem_append.1 hl with
      | inl hold =>
        have hs : p.Step code _ := .move u c q q' v' ls hu hm
        exact hp.keeps hs (fun t v v' => h.noted t v v' l) (hp.notes t l hold)
      | inr hnew =>
        obtain ⟨l', hl', heq⟩ := List.mem_map.1 hnew
        cases heq
        exact ((hp.threads _ _ _ hu).move hm).2.2.1 _ hl'
  threads t c prog ht := by
    cases hq : p.threads t with
    | none =>
      obtain ⟨rfl, hview⟩ := hs.begun hq ht
      rw [hview]
      exact h.meets t c p.view hp.inv (hp.idle t hq)
    | some cq =>
      obtain ⟨prog', ht', hw⟩ := hp.follow hs hq (hp.threads t cq.1 cq.2 hq)
      cases ht.symm.trans ht'
      exact hw

theorem Contract.run (h : Contract code G N I post) (hp : p.Safe G N I post)
    (hr : p.Run code p') : p'.Safe G N I post := by
  induction hr with
  | refl => exact hp
  | tail _ hs ih => exact h.step ih hs

/-- A property of the shared state that holds once holds in the rest of the run. -/
theorem Contract.keeps_run (h : Contract code G N I post) (hp : p.Safe G N I post)
    (hr : p.Run code p') {P : View σ M → Prop} (hP : ∀ t v v', G t v v' → P v → P v')
    (hv : P p.view) : P p'.view := by
  induction hr with
  | refl => exact hv
  | tail hr hs ih => exact (h.run hp hr).keeps hs hP ih

/-- A call that begins when `P` holds, and that is correct from there with the
postcondition `Q`, satisfies `Q` when it has ended. -/
theorem Contract.late (h : Contract code G N I post) (hp : p.Safe G N I post)
    (hr : p.Run code p') (ht : p.threads t = none) {P : View σ M → Prop} {c : C}
    (hP : ∀ t v v', G t v v' → P v → P v') (hv : P p.view)
    (hcode : ∀ v, I v → v.Idle t → P v → wp G N t Q (code c) v) :
    ∀ prog, p'.threads t = some (c, prog) → wp G N t Q prog p'.view := by
  induction hr with
  | refl =>
    intro prog hprog
    rw [ht] at hprog
    cases hprog
  | tail hr hs ih =>
    rename_i p₁ p₂
    have hsafe := h.run hp hr
    have hP₁ := h.keeps_run hp hr hP hv
    intro prog hprog
    cases hq : p₁.threads t with
    | none =>
      obtain ⟨rfl, hview⟩ := hs.begun hq hprog
      rw [hview]
      exact hcode p₁.view hsafe.inv (hsafe.idle t hq) hP₁
    | some cq =>
      have hc : cq.1 = c := by
        obtain ⟨prog', hprog', -⟩ := hsafe.follow hs hq (hsafe.threads t cq.1 cq.2 hq)
        cases hprog.symm.trans hprog'
        rfl
      subst hc
      obtain ⟨prog', hprog', hw⟩ := hsafe.follow hs hq (ih cq.2 hq)
      cases hprog.symm.trans hprog'
      exact hw

end Threads
