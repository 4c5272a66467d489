import Stx.Util.PersistentHashSet.Operations
import Mathlib.Data.Finset.Insert
import Mathlib.Data.Finset.Lattice.Lemmas

/-! Runs of a `PersistentHashSet` against a finite set of ids: every answer is the one
that the set gives, unless an empty file is opened again or a table of the largest size
has to grow. -/
namespace Stx.PersistentHashSet

/-- The calls of a run. The argument of `addRecordIDs` lists the elements of a `std::set`
in the order in which they are visited. -/
inductive Op where
  | addRecordID (id : SHA1Hash)
  | addRecordIDs (ids : List SHA1Hash)
  | hasRecordID (id : SHA1Hash)
  | fetchRecordIDs
  | reopen

/-- The ids are not zero, and a set has no element twice. -/
def Op.Valid : Op → Prop
  | .addRecordID id => id ≠ .zero
  | .addRecordIDs ids => ids.Nodup ∧ ∀ id ∈ ids, id ≠ .zero
  | .hasRecordID id => id ≠ .zero
  | .fetchRecordIDs => True
  | .reopen => True

/-- What a call returns; `addRecordIDs` returns its changed argument. -/
inductive Answer where
  | bool (b : Bool)
  | left (ids : List SHA1Hash)
  | ids (ids : Finset SHA1Hash)
  | done
  deriving DecidableEq

def step (env : Env) : Op → Sys World Answer
  | .addRecordID id => do return .bool (← addRecordID env id)
  | .addRecordIDs ids => do return .left (← addRecordIDs env ids)
  | .hasRecordID id => do return .bool (← hasRecordID env id)
  | .fetchRecordIDs => do return .ids (← fetchRecordIDs env)
  | .reopen => do
    reopen
    return .done

/-- A run; an exception ends it. -/
def run (env : Env) : List Op → Sys World (List Answer)
  | [] => return []
  | op :: ops => do
    let answer ← step env op
    let answers ← run env ops
    return answer :: answers

/- The abstract set. -/

def specStep (s : Finset SHA1Hash) : Op → Answer × Finset SHA1Hash
  | .addRecordID id => (.bool (id ∉ s), Insert.insert id s)
  | .addRecordIDs ids => (.left (ids.filter (· ∉ s)), ids.toFinset ∪ s)
  | .hasRecordID id => (.bool (id ∈ s), s)
  | .fetchRecordIDs => (.ids s, s)
  | .reopen => (.done, s)

def specRun (s : Finset SHA1Hash) : List Op → List Answer
  | [] => []
  | op :: ops => (specStep s op).1 :: specRun (specStep s op).2 ops

/-- The state before a call in which the call can do its work: the file is not an empty
one that is to be opened again, and no insert has to grow a table of 2^26 slots. -/
def Ready (env : Env) (w : World) : Op → Prop
  | .addRecordID _ => ¬GrowthBlocked w
  | .addRecordIDs ids => AllUnblocked env w ids
  | .hasRecordID _ => True
  | .fetchRecordIDs => True
  | .reopen => ¬EmptyFile w

def AllReady (env : Env) : World → List Op → Prop
  | _, [] => True
  | w, op :: ops => Ready env w op ∧
    ∀ answer w', step env op w = (.ok answer, w') → AllReady env w' ops

theorem idsOf_adds {t t' ids : List SHA1Hash} (h : Adds t t' ids) (hids : ∀ id ∈ ids, id ≠ .zero) :
    idsOf t' = ids.toFinset ∪ idsOf t := by
  ext id
  rw [Finset.mem_union, List.mem_toFinset, mem_idsOf, mem_idsOf]
  constructor
  · rintro ⟨hmem, hne⟩
    exact ((h id hne).1 hmem).imp_right (⟨·, hne⟩)
  · rintro (hmem | ⟨hmem, hne⟩)
    · exact ⟨(h id (hids id hmem)).2 (.inl hmem), hids id hmem⟩
    · exact ⟨(h id hne).2 (.inr hmem), hne⟩

/-- The answer of a call that only reads the table. -/
theorem ready_of_eq {env : Env} {w : World} {t : List SHA1Hash} (h : Good env w t) {op : Op}
    (hready : Ready env w op) (hids : (specStep (idsOf t) op).2 = idsOf t)
    (heq : step env op w = (.ok (specStep (idsOf t) op).1, w)) :
    Ready env w op ∧ ∃ w' t', step env op w = (.ok (specStep (idsOf t) op).1, w') ∧
      Good env w' t' ∧ idsOf t' = (specStep (idsOf t) op).2 :=
  ⟨hready, w, t, heq, h, hids.symm⟩

/-- One call: in a ready state it answers like the set, in any other it raises. -/
theorem step_spec {env : Env} {w : World} {t : List SHA1Hash} (h : Good env w t) {op : Op}
    (hop : op.Valid) :
    (Ready env w op ∧ ∃ w' t', step env op w = (.ok (specStep (idsOf t) op).1, w') ∧
      Good env w' t' ∧ idsOf t' = (specStep (idsOf t) op).2) ∨
    (¬Ready env w op ∧ ∃ e w', step env op w = (.raise e, w')) := by
  cases op with
  | addRecordID id =>
    have hid : id ≠ .zero := hop
    cases addRecordID_spec h id with
    | inl hb =>
      obtain ⟨hb, w', heq, -⟩ := hb
      exact .inr ⟨not_not_intro hb, _, w', Sys.bind_of_raise heq⟩
    | inr hok =>
      obtain ⟨hb, w', t', heq, hgood, hadds⟩ := hok
      have hnew : decide (id ≠ .zero ∧ id ∉ t) = decide (id ∉ idsOf t) := by
        rw [decide_eq_decide, mem_idsOf_of_ne hid, and_iff_right hid]
      refine .inl ⟨hb, w', t', ?_, hgood, ?_⟩
      · rw [step, Sys.bind_of_ok heq, hnew]
        rfl
      · rw [idsOf_adds hadds (by simpa using hid)]
        ext y
        simp [specStep]
  | addRecordIDs ids =>
    have hids : ids.Nodup ∧ ∀ id ∈ ids, id ≠ .zero := hop
    cases addRecordIDs_spec h ids with
    | inl hb =>
      obtain ⟨hb, w', t', heq, -⟩ := hb
      exact .inr ⟨hb, _, w', Sys.bind_of_raise heq⟩
    | inr hok =>
      obtain ⟨hb, left, w', t', heq, hgood, hadds, hleft⟩ := hok
      have hnew : ids.filter (· ∉ t) = ids.filter (· ∉ idsOf t) := by
        apply List.filter_congr
        intro id hid
        exact decide_eq_decide.2 (not_congr (mem_idsOf_of_ne (hids.2 id hid)).symm)
      refine .inl ⟨hb, w', t', ?_, hgood, idsOf_adds hadds hids.2⟩
      rw [step, Sys.bind_of_ok heq, hleft hids, hnew]
      rfl
  | hasRecordID id =>
    have hid : id ≠ .zero := hop
    refine .inl (ready_of_eq h trivial rfl ?_)
    rw [step, Sys.bind_of_ok (hasRecordID_of_ne h hid)]
    rfl
  | fetchRecordIDs =>
    refine .inl (ready_of_eq h trivial rfl ?_)
    rw [step, Sys.bind_of_ok (fetchRecordIDs_eq h)]
    rfl
  | reopen =>
    cases reopen_spec h with
    | inl he => exact .inr ⟨not_not_intro he.1, _, w, Sys.bind_of_raise he.2⟩
    | inr hok =>
      obtain ⟨he, w', heq, hgood, -⟩ := hok
      exact .inl ⟨he, w', t, Sys.bind_of_ok heq, hgood, rfl⟩

/-- A run answers like the set exactly when every call of it is made in a ready state. -/
theorem run_spec {env : Env} (ops : List Op) {w : World} {t : List SHA1Hash} (h : Good env w t)
    (hops : ∀ op ∈ ops, op.Valid) :
    (run env ops w).1 = .ok (specRun (idsOf t) ops) ↔ AllReady env w ops := by
  induction ops generalizing w t with
  | nil => exact iff_of_true rfl trivial
  | cons op ops ih =>
    have hrest : ∀ op ∈ ops, op.Valid := fun op hop => hops op (List.mem_cons_of_mem _ hop)
    cases step_spec h (hops op List.mem_cons_self) with
    | inl hok =>
      obtain ⟨hready, w', t', heq, hgood, hids⟩ := hok
      have hall : AllReady env w (op :: ops) ↔ AllReady env w' ops := by
        constructor
        · intro hall
          exact hall.2 _ _ heq
        · intro hall
          refine ⟨hready, fun answer w₁ heq₁ => ?_⟩
          rw [heq] at heq₁
          cases heq₁
          exact hall
      rw [hall, ← ih hgood hrest, run, Sys.bind_of_ok heq, specRun, hids]
      cases hrun : run env ops w' with
      | mk r w'' =>
        cases r with
        | ok answers =>
          rw [Sys.bind_of_ok hrun]
          simp
        | raise e =>
          rw [Sys.bind_of_raise hrun]
          simp
        | diverge =>
          rw [Sys.bind_of_diverge hrun]
          simp
    | inr hraise =>
      obtain ⟨hready, e, w', heq⟩ := hraise
      refine iff_of_false ?_ fun hall => hready hall.1
      rw [run, Sys.bind_of_raise heq]
      intro hok
      cases hok

/-- From a missing file, every answer of a run is the one that a set of ids gives, exactly
when no call opens an empty file again and no insert has to grow a table of 2^26 slots. -/
theorem run_eq_specRun_iff (env : Env) (fs : FileSystem) (fpath : Bytes)
    (hmissing : fs.names fpath = none) (ops : List Op) (hops : ∀ op ∈ ops, op.Valid) :
    (run env ops (missingWorld fs fpath)).1 = .ok (specRun ∅ ops) ↔
      AllReady env (missingWorld fs fpath) ops :=
  run_spec ops (good_missing env hmissing) hops

theorem run_add_has_fetch :
    (run .stx [.addRecordID sampleId, .hasRecordID sampleId, .fetchRecordIDs]
      (missingWorld .empty (lit "set"))).1 = .ok [.bool true, .bool true, .ids {sampleId}] := by
  have hvalid : ∀ op ∈ [Op.addRecordID sampleId, .hasRecordID sampleId, .fetchRecordIDs],
      op.Valid := by
    intro op hop
    simp only [List.mem_cons, List.not_mem_nil, or_false] at hop
    rcases hop with rfl | rfl | rfl
    · exact (by decide : sampleId ≠ .zero)
    · exact (by decide : sampleId ≠ .zero)
    · exact trivial
  have hblocked : ¬GrowthBlocked (missingWorld .empty (lit "set")) := by
    intro hb
    exact absurd hb.1 (by decide)
  exact (run_eq_specRun_iff .stx .empty (lit "set") rfl _ hvalid).2
    ⟨hblocked, fun _ _ _ => ⟨trivial, fun _ _ _ => ⟨trivial, fun _ _ _ => trivial⟩⟩⟩

/-- Adding no ids creates an empty file, which the constructor refuses. -/
theorem run_add_none_reopen :
    (run .stx [.addRecordIDs [], .reopen] (missingWorld .empty (lit "set"))).1 =
        .raise ⟨.runtimeError, lit "error while reading file header"⟩ ∧
      (run .stx [.addRecordIDs [], .reopen] (missingWorld .empty (lit "set"))).1 ≠
        .ok (specRun ∅ [.addRecordIDs [], .reopen]) := by
  have hrun : (run .stx [.addRecordIDs [], .reopen] (missingWorld .empty (lit "set"))).1 =
      .raise ⟨.runtimeError, lit "error while reading file header"⟩ := rfl
  refine ⟨hrun, ?_⟩
  rw [hrun]
  intro hok
  cases hok

end Stx.PersistentHashSet
