import Stx.Util.PersistentHashSet.Operations
import Mathlib.Data.Finset.Insert

/-! Crashes of `addRecordID`. Its changes to the file system are a list of atomic steps:
create the file, fill `fpath_~` in three steps, rename it, write the slot. A crash leaves
the changes up to some step, and the set is constructed again on what is there. -/
namespace Stx.PersistentHashSet
open Probing (slot keys occupied Path WellPlaced Grows)

/-- The changes that `addRecordID` makes in the state `w`, in order. -/
def effectsOf (env : Env) (id : SHA1Hash) (w : World) : List Effect :=
  (addRecordID env id w).2.disk.effects.drop w.disk.effects.length

/-- The file system after a crash behind the first `k` changes. -/
def crashed (env : Env) (id : SHA1Hash) (w : World) (k : Nat) : FileSystem :=
  w.disk.fs.applyAll ((effectsOf env id w).take k)

/-- The constructor accepts the file that the crash left, and the new set has the ids that
were stored before, plus at most `id`. -/
def Recovers (env : Env) (w : World) (id : SHA1Hash) (k : Nat) : Prop :=
  ∃ ids ids' set d, (fetchRecordIDs env w).1 = .ok ids ∧
    new w.set.fpath_ ⟨crashed env id w k, []⟩ = (.ok set, d) ∧
    (fetchRecordIDs env ⟨d, set⟩).1 = .ok ids' ∧
    (∀ y ≠ .zero, (hasRecordID env y ⟨d, set⟩).1 = .ok (decide (y ∈ ids'))) ∧
    (ids' = ids ∨ ids' = Insert.insert id ids)

/-- What the constructor needs of a table. -/
structure Sound (env : Env) (t : List SHA1Hash) : Prop where
  size : ValidSize t.length
  placed : WellPlaced .zero (hashOf env) t
  occupied_le : 64*occupied .zero t+12800 ≤ 57*t.length

theorem Sound.ne_nil {env : Env} {t : List SHA1Hash} (h : Sound env t) : t ≠ [] := by
  rintro rfl
  exact absurd h.size.ge (by decide)

theorem Good.sound {env : Env} {w : World} {t : List SHA1Hash} (h : Good env w t) (hne : t ≠ []) :
    Sound env t := by
  have hfilled := h.filled.resolve_left fun hnil => hne hnil.1
  exact ⟨hfilled.1, h.placed, hfilled.2.occupied_le⟩

theorem recovers_of_sound {env : Env} {w : World} {t t' : List SHA1Hash} {id : SHA1Hash} {k : Nat}
    (h : Good env w t) (hs : Stored (crashed env id w k) w.set.fpath_ t') (ht' : Sound env t')
    (hids : idsOf t' = idsOf t ∨ idsOf t' = Insert.insert id (idsOf t)) : Recovers env w id k := by
  have hs' : Stored (⟨crashed env id w k, []⟩ : Disk).fs w.set.fpath_ t' := hs
  obtain ⟨hnew, hgood⟩ := new_good hs' ht'.placed ht'.ne_nil ht'.size ht'.occupied_le
  exact ⟨idsOf t, idsOf t', _, _, by rw [fetchRecordIDs_eq h], hnew,
    by rw [fetchRecordIDs_eq hgood], fun y hy => by rw [hasRecordID_of_ne hgood hy], hids⟩

theorem recovers_of_missing {env : Env} {w : World} {id : SHA1Hash} {k : Nat} (h : Good env w [])
    (hn : (crashed env id w k).names w.set.fpath_ = none) : Recovers env w id k := by
  have hgood : Good env ⟨⟨crashed env id w k, []⟩, { fpath_ := w.set.fpath_ }⟩ [] :=
    good_missing env hn
  exact ⟨idsOf [], idsOf [], _, _, by rw [fetchRecordIDs_eq h], new_missing hn,
    by rw [fetchRecordIDs_eq hgood], fun y hy => by rw [hasRecordID_of_ne hgood hy], .inl rfl⟩

theorem not_recovers_of_empty {env : Env} {w : World} {id : SHA1Hash} {k i : Nat}
    (hn : (crashed env id w k).names w.set.fpath_ = some i)
    (hc : (crashed env id w k).content i = []) : ¬Recovers env w id k := by
  rintro ⟨ids, ids', set, d, -, hnew, -⟩
  rw [new_empty (d := ⟨crashed env id w k, []⟩) hn hc] at hnew
  cases hnew

/- The changes of an insert, step by step. -/

theorem effectsOf_eq {env : Env} {id : SHA1Hash} {w : World} {es : List Effect}
    (h : (addRecordID env id w).2.disk = w.disk.performAll es) : effectsOf env id w = es := by
  rw [effectsOf, h, Disk.performAll_effects, List.drop_left]

theorem names_take_build (fs : FileSystem) (fpath : Bytes) (new_data : List SHA1Hash) (k : Nat) :
    (fs.applyAll ((buildEffects fs fpath new_data).take k)).names fpath = fs.names fpath := by
  have hname := names_side_of_ne fs (tmpPath_ne fpath).symm
  match k with
  | 0 => rfl
  | 1 => exact hname
  | 2 => exact hname
  | k+3 =>
    rw [List.take_of_length_le (by simp [buildEffects])]
    exact hname

/-- Before the rename the old table is stored, after it the new one. -/
theorem Stored.take_grow {fs : FileSystem} {fpath : Bytes} {t t' : List SHA1Hash}
    (h : Stored fs fpath t) (hsize : ValidSize t'.length) (k : Nat) :
    Stored (fs.applyAll ((growEffects fs fpath t').take k)) fpath (if k < 4 then t else t') := by
  have hlen : (buildEffects fs fpath t').length = 3 := rfl
  split
  · next hk =>
    rw [growEffects, List.take_append_of_le_length (by omega)]
    exact h.take_build t' k
  · next hk =>
    rw [List.take_of_length_le (by simp [growEffects, hlen]; omega)]
    exact (Stored.grown fs fpath hsize).1

/-- What is stored after `k` changes of an insert: still the table `t`, or one that is not
empty. The first growth takes four changes. -/
structure After (env : Env) (fs fs' : FileSystem) (fpath : Bytes) (t t' : List SHA1Hash) (k : Nat) :
    Prop where
  stored : Stored fs' fpath t'
  cases : t' = t ∧ fs'.names fpath = fs.names fpath ∧ (t = [] → k < 4) ∨
    Sound env t' ∧ (t = [] → 4 ≤ k)

theorem Good.idsOf_roomTable {env : Env} {w : World} {t : List SHA1Hash} (h : Good env w t) :
    idsOf (roomTable env (counted w.set.nslots_used_ t) t) = idsOf t := by
  ext id
  rw [mem_idsOf, mem_idsOf]
  exact and_congr_left fun hid => h.mem_roomTable hid

theorem room_after {env : Env} {w : World} {t : List SHA1Hash} (h : Good env w t)
    (hb : ¬Blocked (counted w.set.nslots_used_ t) t) (k : Nat) :
    ∃ t', idsOf t' = idsOf t ∧ After env w.disk.fs
      (w.disk.fs.applyAll ((roomEffects env w.disk.fs w.set.fpath_
        (counted w.set.nslots_used_ t) t).take k)) w.set.fpath_ t t' k := by
  have hids := h.idsOf_roomTable
  obtain ⟨hsize, hplaced, hroom⟩ := h.room hb
  have hsound : Sound env (roomTable env (counted w.set.nslots_used_ t) t) :=
    ⟨hsize, hplaced, hroom.filled.occupied_le⟩
  unfold roomEffects
  unfold roomTable at hids hsound
  generalize counted w.set.nslots_used_ t = used at hb hids hsound ⊢
  by_cases hgrow : MustGrow used t
  · rw [if_pos hgrow] at hids hsound ⊢
    have hstored := h.stored.take_grow hsound.size k
    by_cases hk : k < 4
    · rw [if_pos hk] at hstored
      refine ⟨t, rfl, hstored, .inl ⟨rfl, ?_, fun _ => hk⟩⟩
      rw [growEffects, List.take_append_of_le_length (Nat.le_of_lt_succ hk)]
      exact names_take_build ..
    · rw [if_neg hk] at hstored
      exact ⟨_, hids, hstored, .inr ⟨hsound, fun _ => Nat.not_lt.1 hk⟩⟩
  · rw [if_neg hgrow] at hids hsound ⊢
    have hne : t ≠ [] := hsound.ne_nil
    rw [List.take_nil]
    exact ⟨t, rfl, h.stored, .inl ⟨rfl, rfl, fun hnil => absurd hnil hne⟩⟩

/-- The changes of an insert, and what each of them leaves behind. -/
theorem insert_effects {env : Env} {w : World} {t : List SHA1Hash} {file : File} (h : Good env w t)
    (hf : Opened w file) (id : SHA1Hash) :
    ∃ es, (insert env file id w).2.disk = w.disk.performAll es ∧ ∀ k, ∃ t',
      (idsOf t' = idsOf t ∨ idsOf t' = Insert.insert id (idsOf t)) ∧
      After env w.disk.fs (w.disk.fs.applyAll (es.take k)) w.set.fpath_ t t' k := by
  cases insert_cases h hf id with
  | blocked hb heq hgood =>
    rw [heq]
    refine ⟨_, rfl, fun k => ⟨t, .inl rfl, h.stored.take_build _ k, .inl ⟨rfl, ?_, ?_⟩⟩⟩
    · exact names_take_build ..
    · intro hnil
      rw [hnil] at hb
      exact absurd hb.1 (by decide)
  | present file' hb hid heq hgood hopen =>
    rw [heq]
    refine ⟨_, rfl, fun k => ?_⟩
    obtain ⟨t', hids, hafter⟩ := room_after h hb k
    exact ⟨t', .inl hids, hafter⟩
  | written file' file'' idx hb hzero hid hslot hopen hinode heq hgood =>
    rw [heq]
    have hdisk : (slotWorld (roomWorld env w t) file' id idx).disk =
        w.disk.performAll (roomEffects env w.disk.fs w.set.fpath_ (counted w.set.nslots_used_ t) t ++
          [.write file'.inode (headerSize+idx*SHA1Hash.kSize) id.hash]) := by
      rw [Disk.performAll, List.foldl_append]
      rfl
    refine ⟨_, hdisk, fun k => ?_⟩
    by_cases hk : k ≤ (roomEffects env w.disk.fs w.set.fpath_ (counted w.set.nslots_used_ t) t).length
    · rw [List.take_append_of_le_length hk]
      obtain ⟨t', hids, hafter⟩ := room_after h hb k
      exact ⟨t', .inl hids, hafter⟩
    · have hstored := hgood.stored
      rw [hdisk, Disk.performAll_fs] at hstored
      rw [List.take_of_length_le (by rw [List.length_append, List.length_singleton]; omega)]
      have hne : (roomTable env (counted w.set.nslots_used_ t) t).set idx id ≠ [] :=
        List.ne_nil_of_mem (List.mem_set hslot.lt id)
      refine ⟨_, .inr ?_, hstored, .inr ⟨hgood.sound hne, fun hnil => ?_⟩⟩
      · ext y
        have hkeys := (Probing.keys_set hslot.lt hslot.empty hzero).mem_iff (a := y)
        rw [List.mem_cons] at hkeys
        rw [← h.idsOf_roomTable, Finset.mem_insert, idsOf, idsOf, List.mem_toFinset,
          List.mem_toFinset, hkeys]
      · have hgrow : MustGrow (counted w.set.nslots_used_ t) t := by
          rw [hnil, MustGrow, List.length_nil]
          omega
        rw [roomEffects, if_pos hgrow] at hk
        exact Nat.le_of_lt (Nat.not_le.1 hk)

/-- The crash states of `addRecordID`: before the file is created, or behind some change of
the insert. -/
theorem crashed_cases {env : Env} {w : World} {t : List SHA1Hash} (h : Good env w t)
    (id : SHA1Hash) (k : Nat) :
    (k = 0 ∧ w.disk.fs.names w.set.fpath_ = none ∧ crashed env id w k = w.disk.fs) ∨
    ∃ j t' i, k = (openEffects w.disk.fs w.set.fpath_).length+j ∧
      (openWorld w).disk.fs.names w.set.fpath_ = some i ∧
      (idsOf t' = idsOf t ∨ idsOf t' = Insert.insert id (idsOf t)) ∧
      After env (openWorld w).disk.fs (crashed env id w k) w.set.fpath_ t t' j := by
  obtain ⟨file, hopen, hf, hg⟩ := openForWrite_eq h
  obtain ⟨es, hes, hafter⟩ := insert_effects hg hf id
  have hall : effectsOf env id w = openEffects w.disk.fs w.set.fpath_ ++ es := by
    apply effectsOf_eq
    rw [addRecordID_snd hopen, hes, Disk.performAll, Disk.performAll, List.foldl_append]
    rfl
  by_cases hk : k < (openEffects w.disk.fs w.set.fpath_).length
  · left
    have hname : w.disk.fs.names w.set.fpath_ = none := by
      by_contra hne
      rw [openEffects, if_pos (Option.isSome_iff_ne_none.2 hne)] at hk
      cases hk
    have hzero : k = 0 := by
      rw [openEffects, if_neg (by rw [hname]; decide), List.length_singleton] at hk
      omega
    refine ⟨hzero, hname, ?_⟩
    rw [crashed, hzero]
    rfl
  · right
    obtain ⟨t', hids, hstate⟩ := hafter (k-(openEffects w.disk.fs w.set.fpath_).length)
    refine ⟨k-(openEffects w.disk.fs w.set.fpath_).length, t', file.inode, by omega, hf, hids, ?_⟩
    have hcrash : crashed env id w k = (openWorld w).disk.fs.applyAll
        (es.take (k-(openEffects w.disk.fs w.set.fpath_).length)) := by
      rw [crashed, hall, List.take_append, List.take_of_length_le (Nat.not_lt.1 hk),
        FileSystem.applyAll, List.foldl_append]
      change _ = ((w.disk.performAll _).fs).applyAll _
      rw [Disk.performAll_fs]
      rfl
    rw [hcrash]
    exact hstate

/-- After a crash of `addRecordID` the set can be constructed again, with the ids stored
before plus at most the new one, exactly when the set already had a table, or the crash
came before the file was created, or after the rename. -/
theorem recovers_iff (env : Env) (w : World) (h : Reachable env w) (id : SHA1Hash) (k : Nat) :
    Recovers env w id k ↔
      w.set.nslots_ ≠ 0 ∨ k = 0 ∧ w.disk.fs.names w.set.fpath_ = none ∨
        (if w.disk.fs.names w.set.fpath_ = none then 5 else 4) ≤ k := by
  obtain ⟨t, ht⟩ := h.good
  have hslots : w.set.nslots_ ≠ 0 ↔ t ≠ [] := by
    rw [ht.nslots_eq, ne_eq, List.length_eq_zero_iff]
  have hopen : (if w.disk.fs.names w.set.fpath_ = none then 5 else 4) =
      (openEffects w.disk.fs w.set.fpath_).length+4 := by
    rw [openEffects]
    cases w.disk.fs.names w.set.fpath_ <;> rfl
  rw [hslots, hopen]
  cases crashed_cases ht id k with
  | inl hstart =>
    obtain ⟨hk, hname, hcrash⟩ := hstart
    have hnil : t = [] := by
      by_contra hne
      obtain ⟨i, hi⟩ := ht.stored.exists_of_ne hne
      rw [hname] at hi
      cases hi
    subst hnil
    exact iff_of_true (recovers_of_missing ht (by rw [hcrash, hname])) (.inr (.inl ⟨hk, hname⟩))
  | inr hlater =>
    obtain ⟨j, t', i, hk, hi, hids, hafter⟩ := hlater
    by_cases hnil : t = []
    · cases hafter.cases with
      | inl hold =>
        obtain ⟨htable, hname, hj⟩ := hold
        have hj := hj hnil
        have hname' := hname.trans hi
        have hcontent : (crashed env id w k).content i = [] := by
          rw [hafter.stored.content_eq i hname', htable, hnil]
          rfl
        refine iff_of_false (not_recovers_of_empty hname' hcontent) ?_
        rintro (hne | ⟨hzero, hmissing⟩ | hlate)
        · exact hne hnil
        · rw [openEffects, if_neg (by rw [hmissing]; decide), List.length_singleton] at hk
          omega
        · omega
      | inr hnew =>
        have hj := hnew.2 hnil
        exact iff_of_true (recovers_of_sound ht hafter.stored hnew.1 hids) (.inr (.inr (by omega)))
    · have hsound : Sound env t' := by
        cases hafter.cases with
        | inl hold =>
          rw [hold.1]
          exact ht.sound hnil
        | inr hnew => exact hnew.1
      exact iff_of_true (recovers_of_sound ht hafter.stored hsound hids) (.inl hnil)

theorem recovers_sample : Recovers .stx (missingWorld .empty (lit "set")) sampleId 5 :=
  (recovers_iff .stx _ (.missing .empty (lit "set") rfl) sampleId 5).2 (.inr (.inr (by decide)))

/-- A crash between the creation of the file and the rename, on the first insert. -/
theorem first_insert_not_recovered :
    Reachable .stx (missingWorld .empty (lit "set")) ∧
      ¬Recovers .stx (missingWorld .empty (lit "set")) sampleId 1 := by
  refine ⟨.missing .empty (lit "set") rfl, ?_⟩
  have hgood : Good .stx (missingWorld .empty (lit "set")) [] := good_missing .stx rfl
  cases crashed_cases hgood sampleId 1 with
  | inl hstart => exact absurd hstart.1 (by decide)
  | inr hlater =>
    obtain ⟨j, t', i, hk, hi, -, hafter⟩ := hlater
    have hj : j = 0 := by
      have hopen : (openEffects (missingWorld .empty (lit "set")).disk.fs
        (missingWorld .empty (lit "set")).set.fpath_).length = 1 := by decide
      omega
    cases hafter.cases with
    | inl hold =>
      obtain ⟨htable, hname, -⟩ := hold
      have hname' := hname.trans hi
      apply not_recovers_of_empty hname'
      rw [hafter.stored.content_eq i hname', htable]
      rfl
    | inr hnew =>
      have hj' := hnew.2 rfl
      omega

end Stx.PersistentHashSet
