import Mathlib.Data.List.Basic

/-! Runs of a machine whose actions are not possible in every state. A run keeps the list of
its actions, and `ok` is a demand on each of them in the state that it meets. -/
namespace Runs
variable {σ α : Type} {step : σ → α → Option σ} {ok ok' : σ → α → Prop} {s u : σ} {as : List α}

/-- `s` comes to `u` by the actions `as`, each of which meets `ok`. -/
inductive Reaches (step : σ → α → Option σ) (ok : σ → α → Prop) (s : σ) : List α → σ → Prop
  | start : Reaches step ok s [] s
  | next {as : List α} {t u : σ} {a : α} (run : Reaches step ok s as t) (meets : ok t a)
      (takes : step t a = some u) : Reaches step ok s (as ++ [a]) u

/-- A run with nothing demanded of its actions. -/
abbrev Run (step : σ → α → Option σ) : σ → List α → σ → Prop := Reaches step fun _ _ => True

namespace Reaches

/-- What the first state has, and every action that meets the demand keeps, the last state has. -/
theorem invariant {P : σ → Prop} (h : Reaches step ok s as u) (init : P s)
    (keeps : ∀ t a u, P t → ok t a → step t a = some u → P u) : P u := by
  induction h with
  | start => exact init
  | next run meets takes ih => exact keeps _ _ _ ih meets takes

theorem mono (h : Reaches step ok s as u) (himp : ∀ t a, ok t a → ok' t a) :
    Reaches step ok' s as u := by
  induction h with
  | start => exact .start
  | next run meets takes ih => exact .next ih (himp _ _ meets) takes

theorem run (h : Reaches step ok s as u) : Run step s as u := h.mono fun _ _ _ => trivial

/-- Where a violation stays, the runs to a state without one are those whose actions all meet
the demand. -/
theorem of_run {P : σ → Prop} (h : Run step s as u) (hu : P u)
    (back : ∀ as t a u, Run step s as t → step t a = some u → P u → P t)
    (demand : ∀ as t a u, Reaches step ok s as t → step t a = some u → P u → ok t a) :
    Reaches step ok s as u := by
  induction h with
  | start => exact .start
  | next run meets takes ih =>
    have hrun := ih (back _ _ _ _ run takes hu)
    exact .next hrun (demand _ _ _ _ hrun takes hu) takes

theorem last {a : α} (h : Reaches step ok s (as ++ [a]) u) :
    ∃ t, Reaches step ok s as t ∧ ok t a ∧ step t a = some u := by
  generalize hbs : as ++ [a] = bs at h
  cases h with
  | start => simp at hbs
  | next run meets takes =>
    obtain ⟨rfl, hlast⟩ := List.append_inj' hbs rfl
    obtain rfl := List.singleton_inj.1 hlast
    exact ⟨_, run, meets, takes⟩

theorem unique {t : σ} (h : Reaches step ok s as t) (h' : Reaches step ok' s as u) : t = u := by
  induction h generalizing u with
  | start =>
    generalize hbs : [] = bs at h'
    cases h' with
    | start => rfl
    | next => simp at hbs
  | next run meets takes ih =>
    obtain ⟨v, hrun, -, htakes⟩ := h'.last
    obtain rfl := ih hrun
    exact Option.some.inj (takes.symm.trans htakes)

/-- Where one action keeps `P` if and only if it meets the demand, `P` holds all along a run if and
only if all of its actions do. -/
theorem throughout_iff {P : List α → σ → Prop} (h : Run step s as u) (init : P [] s)
    (keeps_iff : ∀ as t a u, Run step s as t → P as t → step t a = some u →
      (P (as ++ [a]) u ↔ ok t a)) :
    (∀ as' t, as' <+: as → Run step s as' t → P as' t) ↔ Reaches step ok s as u := by
  induction h with
  | start =>
    refine ⟨fun _ => .start, fun _ as' t has ht => ?_⟩
    obtain rfl := List.prefix_nil.1 has
    obtain rfl := ht.unique (.start : Run step s [] s)
    exact init
  | @next as t u a run meets takes ih =>
    constructor
    · intro hall
      have hrun := ih.1 fun as' t' has => hall as' t' (has.trans (List.prefix_append _ _))
      have ht : P as t := hall _ _ (List.prefix_append _ _) run
      have hu : P (as ++ [a]) u := hall _ _ (List.prefix_refl _) (.next run meets takes)
      exact .next hrun ((keeps_iff as t a u run ht takes).1 hu) takes
    · intro hok as' t' has ht'
      obtain ⟨v, hrun, hv, -⟩ := hok.last
      obtain rfl := hrun.unique run
      have hall := ih.2 hrun
      cases List.prefix_concat_iff.1 has with
      | inl heq =>
        subst heq
        obtain rfl := ht'.unique (.next run meets takes)
        have ht : P as v := hall _ _ (List.prefix_refl _) run
        exact (keeps_iff as v a t' run ht takes).2 hv
      | inr hbefore => exact hall as' t' hbefore ht'

end Reaches

/-- One action of a run that checks its demands. -/
def guarded (step : σ → α → Option σ) (ok : σ → α → Prop) [∀ s a, Decidable (ok s a)] (s : σ)
    (a : α) : Option σ :=
  if ok s a then step s a else none

theorem Reaches.of_foldlM [∀ s a, Decidable (ok s a)] {as' : List α} {t : σ}
    (h : Reaches step ok s as t) (hrun : as'.foldlM (guarded step ok) t = some u) :
    Reaches step ok s (as ++ as') u := by
  induction as' generalizing as t with
  | nil =>
    cases hrun
    simpa using h
  | cons a as' ih =>
    rw [List.foldlM_cons] at hrun
    obtain ⟨v, hv, hrest⟩ := Option.bind_eq_some_iff.1 hrun
    have hok : ok t a := by
      by_contra hnot
      rw [guarded, if_neg hnot] at hv
      cases hv
    rw [guarded, if_pos hok] at hv
    simpa using ih (h.next hok hv) hrest

/-- A run on a fixed input is found by evaluation. -/
theorem reaches_of_foldlM [∀ s a, Decidable (ok s a)]
    (hrun : as.foldlM (guarded step ok) s = some u) : Reaches step ok s as u := by
  simpa using Reaches.of_foldlM (.start : Reaches step ok s [] s) hrun

/-- The same where only something of the last state is known. -/
theorem exists_of_foldlM {β : Type} [∀ s a, Decidable (ok s a)] (f : σ → β) {b : β}
    (hrun : (as.foldlM (guarded step ok) s).map f = some b) :
    ∃ u, Reaches step ok s as u ∧ f u = b := by
  obtain ⟨u, hu, hb⟩ := Option.map_eq_some_iff.1 hrun
  exact ⟨u, reaches_of_foldlM hu, hb⟩

end Runs
