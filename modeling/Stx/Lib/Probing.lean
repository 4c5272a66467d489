import Mathlib.Data.List.GetD
import Mathlib.Data.Nat.Find

/-! Tables with open addressing and linear probing. A table is a list of slots in which
the key `e` stands for an empty slot; `h` gives the slot at which the search for a key
starts. No key is ever removed. -/
namespace Probing
variable {κ : Type} (e : κ) (h : κ → Nat)

/-- The slot at distance `d` from `start`, going round at the end. -/
def slot (t : List κ) (start d : Nat) : κ := t.getD ((start+d) % t.length) e

/-- The keys of the slots in use, in the order of the slots. -/
def keys [DecidableEq κ] (t : List κ) : List κ := t.filter (· ≠ e)

def occupied [DecidableEq κ] (t : List κ) : Nat := (keys e t).length

/-- The slots at distance less than `d` from `start` are in use. -/
def Path (t : List κ) (start d : Nat) : Prop := ∀ j < d, slot e t start j ≠ e

/-- A key can be found: it lies at a distance below the size of the table, with no empty
slot before it. -/
def Findable (t : List κ) (x : κ) : Prop :=
  ∃ d < t.length, slot e t (h x) d = x ∧ Path e t (h x) d

/-- Every slot in use holds a key whose search passes there. -/
def WellPlaced (t : List κ) : Prop :=
  ∀ p, t.getD p e ≠ e →
    ∃ d < t.length, (h (t.getD p e)+d) % t.length = p ∧ Path e t (h (t.getD p e)) d

variable {e h} {t : List κ} {x y : κ} {start d p : Nat}

/-- Every position of the table is passed by a search that goes once round. -/
theorem exists_distance (start : Nat) (hp : p < t.length) :
    ∃ d < t.length, (start+d) % t.length = p := by
  have hn : 0 < t.length := by omega
  refine ⟨(p+(t.length-start % t.length)) % t.length, Nat.mod_lt _ hn, ?_⟩
  have hs : start % t.length < t.length := Nat.mod_lt _ hn
  rw [Nat.add_mod, Nat.mod_mod, ← Nat.add_mod, ← Nat.mod_add_mod]
  have hsum : start % t.length+(p+(t.length-start % t.length)) = p+t.length := by omega
  rw [hsum, Nat.add_mod_right, Nat.mod_eq_of_lt hp]

theorem exists_empty [DecidableEq κ] (hfull : occupied e t < t.length) : ∃ p < t.length, t.getD p e = e := by
  by_contra hno
  have hall : ∀ a ∈ t, decide (a ≠ e) = true := by
    intro a ha
    obtain ⟨i, hi, rfl⟩ := List.getElem_of_mem ha
    apply decide_eq_true
    intro he
    exact hno ⟨i, hi, by rw [List.getD_eq_getElem t e hi, he]⟩
  rw [occupied, keys, List.filter_eq_self.2 hall] at hfull
  exact Nat.lt_irrefl _ hfull

/-- In a table that is not full, the search for `x` stops: at `x` or at an empty slot,
whichever comes first. -/
theorem exists_stop [DecidableEq κ] (hfull : occupied e t < t.length) (start : Nat) (x : κ) :
    ∃ d < t.length, (slot e t start d = x ∨ slot e t start d = e) ∧
      ∀ j < d, slot e t start j ≠ x ∧ slot e t start j ≠ e := by
  obtain ⟨p, hp, hpe⟩ := exists_empty hfull
  obtain ⟨d, hd, hdp⟩ := exists_distance start hp
  have hex : ∃ d, slot e t start d = x ∨ slot e t start d = e := by
    refine ⟨d, .inr ?_⟩
    rw [slot, hdp, hpe]
  have hmin := Nat.find_spec hex
  refine ⟨Nat.find hex, ?_, hmin, fun j hj => not_or.1 (Nat.find_min hex hj)⟩
  apply Nat.lt_of_le_of_lt _ hd
  apply Nat.find_min'
  right
  rw [slot, hdp, hpe]

theorem mem_of_slot (hx : x ≠ e) (hs : slot e t start d = x) : x ∈ t := by
  rw [slot, List.getD_eq_getElem?_getD] at hs
  cases hg : t[(start+d) % t.length]? with
  | none => rw [hg] at hs; exact absurd hs.symm hx
  | some y =>
    rw [hg] at hs
    cases hs
    exact List.mem_of_getElem? hg

theorem WellPlaced.findable (ht : WellPlaced e h t) (hx : x ≠ e) (hmem : x ∈ t) :
    Findable e h t x := by
  obtain ⟨p, hp, rfl⟩ := List.getElem_of_mem hmem
  have hget : t.getD p e = t[p] := List.getD_eq_getElem t e hp
  obtain ⟨d, hd, hdp, hpath⟩ := ht p (by rwa [hget])
  rw [hget] at hdp hpath
  exact ⟨d, hd, by rw [slot, hdp, hget], hpath⟩

/-- The search for `x` stops at `x` exactly when `x` is in the table. -/
theorem WellPlaced.stop_eq_iff (ht : WellPlaced e h t) (hx : x ≠ e)
    (hstop : slot e t (h x) d = x ∨ slot e t (h x) d = e)
    (hbefore : ∀ j < d, slot e t (h x) j ≠ x ∧ slot e t (h x) j ≠ e) :
    slot e t (h x) d = x ↔ x ∈ t := by
  constructor
  · exact mem_of_slot hx
  · intro hmem
    obtain ⟨d', -, hd', hpath⟩ := ht.findable hx hmem
    cases hstop with
    | inl hs => exact hs
    | inr hs =>
      have hle : d' ≤ d := by
        by_contra hlt
        exact hpath d (by omega) hs
      cases Nat.lt_or_eq_of_le hle with
      | inl hlt => exact absurd hd' (hbefore d' hlt).1
      | inr heq => rw [← heq, hd']

/- Putting a key into the empty slot at which its search stops. -/

/-- Slots in use keep their keys. -/
structure Grows (e : κ) (t t' : List κ) : Prop where
  length_eq : t'.length = t.length
  keeps : ∀ p, t.getD p e ≠ e → t'.getD p e = t.getD p e

theorem Grows.refl (t : List κ) : Grows e t t := ⟨rfl, fun _ _ => rfl⟩

theorem Grows.trans {t₁ t₂ t₃ : List κ} (h₁ : Grows e t₁ t₂) (h₂ : Grows e t₂ t₃) :
    Grows e t₁ t₃ where
  length_eq := h₂.length_eq.trans h₁.length_eq
  keeps p hp := by
    have hp' := h₁.keeps p hp
    rw [h₂.keeps p (by rwa [hp']), hp']

theorem Grows.slot_eq {t' : List κ} (hg : Grows e t t') (hs : slot e t start d ≠ e) :
    slot e t' start d = slot e t start d := by
  rw [slot, hg.length_eq]
  exact hg.keeps _ hs

theorem Grows.path {t' : List κ} (hg : Grows e t t') (hpath : Path e t start d) :
    Path e t' start d := by
  intro j hj
  rw [hg.slot_eq (hpath j hj)]
  exact hpath j hj

theorem Grows.findable {t' : List κ} (hg : Grows e t t') (hx : x ≠ e) (hf : Findable e h t x) :
    Findable e h t' x := by
  obtain ⟨d, hd, hs, hpath⟩ := hf
  exact ⟨d, by rwa [hg.length_eq], by rw [hg.slot_eq (by rwa [hs]), hs], hg.path hpath⟩

theorem Grows.mem {t' : List κ} (hg : Grows e t t') (hx : x ≠ e) (hmem : x ∈ t) : x ∈ t' := by
  obtain ⟨p, hp, rfl⟩ := List.getElem_of_mem hmem
  have hget : t.getD p e = t[p] := List.getD_eq_getElem t e hp
  have hp' : p < t'.length := by rwa [hg.length_eq]
  have hkeep := hg.keeps p (by rwa [hget])
  rw [List.getD_eq_getElem t' e hp', hget] at hkeep
  rw [← hkeep]
  exact List.getElem_mem hp'

theorem grows_set (hp : t.getD p e = e) : Grows e t (t.set p x) where
  length_eq := List.length_set
  keeps q hq := by
    have hne : p ≠ q := by
      intro heq
      rw [heq] at hp
      exact hq hp
    rw [List.getD_eq_getElem?_getD, List.getElem?_set_ne hne, ← List.getD_eq_getElem?_getD]

theorem WellPlaced.set (ht : WellPlaced e h t) (hd : d < t.length)
    (hempty : slot e t (h x) d = e) (hpath : Path e t (h x) d) :
    WellPlaced e h (t.set ((h x+d) % t.length) x) := by
  have hg : Grows e t (t.set ((h x+d) % t.length) x) := grows_set hempty
  have hp : (h x+d) % t.length < t.length := Nat.mod_lt _ (by omega)
  intro q hq
  rw [List.length_set]
  by_cases heq : (h x+d) % t.length = q
  · subst heq
    have hget : (t.set ((h x+d) % t.length) x).getD ((h x+d) % t.length) e = x := by
      rw [List.getD_eq_getElem?_getD, List.getElem?_set_self hp]
      rfl
    rw [hget]
    exact ⟨d, hd, rfl, hg.path hpath⟩
  · have hget : (t.set ((h x+d) % t.length) x).getD q e = t.getD q e := by
      rw [List.getD_eq_getElem?_getD, List.getElem?_set_ne heq, ← List.getD_eq_getElem?_getD]
    rw [hget] at hq ⊢
    obtain ⟨d', hd', hdp, hpath'⟩ := ht q hq
    exact ⟨d', hd', hdp, hg.path hpath'⟩

theorem keys_set [DecidableEq κ] (hp : p < t.length) (hempty : t.getD p e = e) (hx : x ≠ e) :
    (keys e (t.set p x)).Perm (x :: keys e t) := by
  rw [List.getD_eq_getElem t e hp] at hempty
  have hold : keys e t = keys e (t.take p) ++ keys e (t.drop (p+1)) := by
    have hsplit : t = t.take p ++ e :: t.drop (p+1) := by
      rw [← hempty, ← List.drop_eq_getElem_cons hp, List.take_append_drop]
    calc keys e t = keys e (t.take p ++ e :: t.drop (p+1)) := congrArg (keys e) hsplit
      _ = keys e (t.take p) ++ keys e (t.drop (p+1)) := by simp [keys]
  have hnew : keys e (t.set p x) = keys e (t.take p) ++ x :: keys e (t.drop (p+1)) := by
    rw [List.set_eq_take_append_cons_drop, if_pos hp, keys, List.filter_append, List.filter_cons]
    simp [keys, hx]
  rw [hold, hnew]
  exact List.perm_middle

theorem mem_keys [DecidableEq κ] : x ∈ keys e t ↔ x ∈ t ∧ x ≠ e := by
  rw [keys, List.mem_filter, decide_eq_true_iff]

/- The empty table. -/

theorem getD_replicate (n p : Nat) : (List.replicate n e).getD p e = e := by
  rw [List.getD_eq_getElem?_getD, List.getElem?_replicate]
  split <;> rfl

theorem wellPlaced_replicate (n : Nat) : WellPlaced e h (List.replicate n e) :=
  fun p hp => absurd (getD_replicate n p) hp

theorem keys_replicate [DecidableEq κ] (n : Nat) : keys e (List.replicate n e) = [] := by
  simp [keys]

theorem occupied_le [DecidableEq κ] : occupied e t ≤ t.length := List.length_filter_le _ _

end Probing
