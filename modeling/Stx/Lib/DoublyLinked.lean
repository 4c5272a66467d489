import Mathlib.Data.List.Chain
import Mathlib.Data.List.Nodup

/-! A doubly linked list as a ring: its last node is linked to a sentinel, and that to the first. -/
namespace DoublyLinked
variable {κ : Type} {next prev next' prev' : κ → κ} {e w : κ} {l l₁ l₂ : List κ}

/-- A link both ways. -/
def Edge (next prev : κ → κ) (x y : κ) : Prop := next x = y ∧ prev y = x

/-- The nodes `l` are linked in this order, each of them once. -/
structure Circle (next prev : κ → κ) (e : κ) (l : List κ) : Prop where
  nodup : (e :: l).Nodup
  links : List.IsChain (Edge next prev) (e :: (l ++ [e]))

/-- Where two parts of the ring meet. -/
theorem meet_iff {R : κ → κ → Prop} : List.IsChain R (e :: (l₁ ++ l₂ ++ [e])) ↔
    List.IsChain R (e :: l₁) ∧ List.IsChain R (l₂ ++ [e]) ∧ R (l₁.getLastD e) (l₂.headD e) := by
  rw [List.append_assoc, ← List.cons_append, List.isChain_append]
  have hlast : (e :: l₁).getLast? = some (l₁.getLastD e) := by
    rw [List.getLast?_cons, List.getLastD_eq_getLast?]
  have hhead : (l₂ ++ [e]).head? = some (l₂.headD e) := by
    cases l₂ <;> rfl
  simp only [hlast, hhead, Option.mem_some_iff, forall_eq']

theorem headD_mem : l.headD e ∈ l ++ [e] := by
  cases l with
  | nil => exact List.mem_singleton_self _
  | cons v l => exact List.mem_cons_self

namespace Circle

theorem empty (hnext : next e = e) (hprev : prev e = e) : Circle next prev e [] :=
  ⟨List.nodup_singleton e, .cons_cons ⟨hnext, hprev⟩ (.singleton e)⟩

theorem at_node (h : Circle next prev e (l₁ ++ w :: l₂)) :
    prev w = l₁.getLastD e ∧ next w = l₂.headD e := by
  have hback := meet_iff.1 h.links
  have hahead : List.IsChain (Edge next prev) (e :: ((l₁ ++ [w]) ++ l₂ ++ [e])) := by
    simpa using h.links
  refine ⟨hback.2.2.2, ?_⟩
  have hedge := (meet_iff.1 hahead).2.2.1
  rwa [List.getLastD_concat] at hedge

theorem notMem (h : Circle next prev e (l₁ ++ w :: l₂)) : w ∉ e :: (l₁ ++ l₂) := by
  have hperm : (e :: (l₁ ++ w :: l₂)).Perm (w :: e :: (l₁ ++ l₂)) :=
    (List.perm_middle.cons e).trans (.swap _ _ _)
  exact (List.nodup_cons.1 (hperm.nodup_iff.1 h.nodup)).1

/-- No node is linked with itself. -/
theorem ne_self (h : Circle next prev e (l₁ ++ w :: l₂)) : prev w ≠ w ∧ next w ≠ w := by
  obtain ⟨hback, hahead⟩ := h.at_node
  have hw := h.notMem
  constructor
  · rw [hback]
    intro heq
    have hmem : l₁.getLastD e ∈ e :: l₁ := List.getLastD_mem_cons
    exact hw (List.cons_subset_cons e (List.subset_append_left l₁ l₂) (heq ▸ hmem))
  · rw [hahead]
    intro heq
    obtain hmem | hmem := List.mem_append.1 (heq ▸ headD_mem : w ∈ l₂ ++ [e])
    · exact hw (List.mem_cons_of_mem _ (List.mem_append_right _ hmem))
    · exact hw (List.mem_singleton.1 hmem ▸ List.mem_cons_self)

theorem at_sentinel (h : Circle next prev e l) : prev e = l.getLastD e ∧ next e = l.headD e := by
  have hend : List.IsChain (Edge next prev) (e :: (l ++ [] ++ [e])) := by
    rw [List.append_nil]
    exact h.links
  have hbegin : List.IsChain (Edge next prev) (e :: ([] ++ l ++ [e])) := h.links
  exact ⟨(meet_iff.1 hend).2.2.2, (meet_iff.1 hbegin).2.2.1⟩

/-- The links tell the nodes. -/
theorem unique (h : Circle next prev e l₁) (h' : Circle next prev e l₂) : l₁ = l₂ := by
  have hpath : ∀ (l₁ l₂ : List κ) (a : κ), e ∉ l₁ → e ∉ l₂ →
      List.IsChain (Edge next prev) (a :: (l₁ ++ [e])) →
      List.IsChain (Edge next prev) (a :: (l₂ ++ [e])) → l₁ = l₂ := by
    intro l₁
    induction l₁ with
    | nil =>
      intro l₂ a _ h₂ hpath hpath'
      cases l₂ with
      | nil => rfl
      | cons v l₂ =>
        have heq : e = v := hpath.rel.1.symm.trans hpath'.rel.1
        exact absurd (heq ▸ List.mem_cons_self) h₂
    | cons u l₁ ih =>
      intro l₂ a h₁ h₂ hpath hpath'
      cases l₂ with
      | nil =>
        have heq : e = u := hpath'.rel.1.symm.trans hpath.rel.1
        exact absurd (heq ▸ List.mem_cons_self) h₁
      | cons v l₂ =>
        obtain rfl : u = v := hpath.rel.1.symm.trans hpath'.rel.1
        have hrest := ih l₂ u (fun hmem => h₁ (List.mem_cons_of_mem _ hmem))
          (fun hmem => h₂ (List.mem_cons_of_mem _ hmem)) hpath.tail hpath'.tail
        rw [hrest]
  exact hpath l₁ l₂ e (List.nodup_cons.1 h.nodup).1 (List.nodup_cons.1 h'.nodup).1 h.links h'.links

/-- A node is taken out, and its neighbours are linked with each other. -/
theorem remove (h : Circle next prev e (l₁ ++ w :: l₂)) (hlink : Edge next' prev' (prev w) (next w))
    (hnext : ∀ x, x ≠ prev w → x ≠ w → next' x = next x)
    (hprev : ∀ y, y ≠ next w → y ≠ w → prev' y = prev y) : Circle next' prev' e (l₁ ++ l₂) := by
  obtain ⟨hbehind, hfront, hin⟩ := meet_iff.1 h.links
  obtain ⟨hout, hfront⟩ := List.isChain_cons.1 hfront
  obtain ⟨hback, hahead⟩ := h.at_node
  have hw := h.notMem
  have hnodup := h.nodup.sublist (((List.sublist_cons_self w l₂).append_left l₁).cons_cons e)
  have hin : next (prev w) = w := by
    rw [hback]
    exact hin.1
  have hout : prev (next w) = w := by
    rw [hahead]
    exact (hout _ (by cases l₂ <;> rfl)).2
  -- a link beside the node is neither the one into it nor the one out of it
  have hkept : ∀ l : List κ, w ∉ l → ∀ x y, x ∈ l → y ∈ l → Edge next prev x y →
      Edge next' prev' x y := by
    intro l hl x y hx hy hxy
    refine ⟨(hnext x ?_ ?_).trans hxy.1, (hprev y ?_ ?_).trans hxy.2⟩
    · rintro rfl
      exact hl (hin.symm.trans hxy.1 ▸ hy)
    · rintro rfl
      exact hl hx
    · rintro rfl
      exact hl (hout.symm.trans hxy.2 ▸ hx)
    · rintro rfl
      exact hl hy
  refine ⟨hnodup, meet_iff.2
    ⟨hbehind.imp_of_mem_imp (hkept _ ?_), hfront.imp_of_mem_imp (hkept _ ?_), ?_⟩⟩
  · exact fun hmem => hw (List.cons_subset_cons e (List.subset_append_left l₁ l₂) hmem)
  · intro hmem
    obtain hmem | hmem := List.mem_append.1 hmem
    · exact hw (List.mem_cons_of_mem _ (List.mem_append_right _ hmem))
    · exact hw (List.mem_singleton.1 hmem ▸ List.mem_cons_self)
  · rwa [hback, hahead] at hlink

/-- A node is put between two that were linked. -/
theorem insert (h : Circle next prev e (l₁ ++ l₂)) (hw : w ∉ e :: (l₁ ++ l₂))
    (hin : Edge next' prev' (l₁.getLastD e) w) (hout : Edge next' prev' w (l₂.headD e))
    (hnext : ∀ x, x ≠ l₁.getLastD e → x ≠ w → next' x = next x)
    (hprev : ∀ y, y ≠ l₂.headD e → y ≠ w → prev' y = prev y) :
    Circle next' prev' e (l₁ ++ w :: l₂) := by
  obtain ⟨hbehind, hfront, hmeet⟩ := meet_iff.1 h.links
  have hperm : (e :: (l₁ ++ w :: l₂)).Perm (w :: e :: (l₁ ++ l₂)) :=
    (List.perm_middle.cons e).trans (.swap _ _ _)
  have hperm' : (e :: (l₁ ++ l₂)).Perm (l₁ ++ (l₂ ++ [e])) := by
    rw [← List.append_assoc, ← List.singleton_append]
    exact List.perm_append_comm
  have hnodup := hperm'.nodup_iff.1 h.nodup
  -- a link that does not come to the second of the two does not start at the first
  have hkept : ∀ l : List κ, w ∉ l → l₂.headD e ∉ l.tail → ∀ x y, x ∈ l → y ∈ l.tail →
      Edge next prev x y → Edge next' prev' x y := by
    intro l hl hhead x y hx hy hxy
    have hy' : y ≠ l₂.headD e := fun heq => hhead (heq ▸ hy)
    refine ⟨(hnext x ?_ ?_).trans hxy.1, (hprev y hy' ?_).trans hxy.2⟩
    · rintro rfl
      exact hy' (hxy.1.symm.trans hmeet.1)
    · rintro rfl
      exact hl hx
    · rintro rfl
      exact hl (List.mem_of_mem_tail hy)
  have hwl : w ∉ l₁ ++ (l₂ ++ [e]) := fun hmem => hw (hperm'.mem_iff.2 hmem)
  refine ⟨hperm.nodup_iff.2 (List.nodup_cons.2 ⟨hw, h.nodup⟩), meet_iff.2
    ⟨hbehind.imp_of_mem_tail_imp (hkept _ ?_ ?_), ?_, hin⟩⟩
  · exact fun hmem => hw (List.cons_subset_cons e (List.subset_append_left l₁ l₂) hmem)
  · exact fun hmem => List.disjoint_of_nodup_append hnodup hmem headD_mem
  · refine List.isChain_cons.2 ⟨fun y hy => ?_, hfront.imp_of_mem_tail_imp (hkept _ ?_ ?_)⟩
    · have hy : y = l₂.headD e := by
        cases l₂ <;> exact (Option.some.inj hy).symm
      rwa [hy]
    · exact fun hmem => hwl (List.mem_append_right _ hmem)
    · have hnodup₂ := hnodup.of_append_right
      cases l₂ with
      | nil => exact List.not_mem_nil
      | cons v l₂ => exact (List.nodup_cons.1 hnodup₂).1

end Circle

end DoublyLinked
