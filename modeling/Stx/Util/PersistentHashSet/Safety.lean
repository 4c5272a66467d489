import Stx.Util.PersistentHashSet.Operations

/-! What holds in every reachable state of a `PersistentHashSet`, for ids of any value: the
set is never full, a growth loses no id, and lookup and enumeration agree on all ids
but the zero one. -/
namespace Stx.PersistentHashSet
open Probing (slot keys occupied Path WellPlaced Grows)

/-- The end of the probe loop in `lookup`. -/
def setIsFull {α : Type} : Result α := .RAISE .illegalStateError "set is full"

theorem ioError_ne_setIsFull {α : Type} (message : Bytes) :
    (File.ioError message : Result α) ≠ setIsFull := by
  intro h
  cases h

theorem Good.not_setIsFull {env : Env} {w : World} {t : List SHA1Hash} (h : Good env w t) :
    (∀ id, (hasRecordID env id w).1 ≠ setIsFull) ∧ (∀ id, (addRecordID env id w).1 ≠ setIsFull) ∧
      ∀ ids, (addRecordIDs env ids w).1 ≠ setIsFull := by
  refine ⟨fun id => ?_, fun id => ?_, fun ids => ?_⟩
  · rw [hasRecordID_eq h]
    intro heq
    cases heq
  · cases addRecordID_spec h id with
    | inl hb =>
      obtain ⟨-, w', heq, -⟩ := hb
      rw [heq]
      exact ioError_ne_setIsFull _
    | inr hok =>
      obtain ⟨-, w', t', heq, -⟩ := hok
      rw [heq]
      intro hfull
      cases hfull
  · cases addRecordIDs_spec h ids with
    | inl hb =>
      obtain ⟨-, w', t', heq, -⟩ := hb
      rw [heq]
      exact ioError_ne_setIsFull _
    | inr hok =>
      obtain ⟨-, left, w', t', heq, -⟩ := hok
      rw [heq]
      intro hfull
      cases hfull

/-- Every slot that `grow` visits finds an empty place among those placed before it. -/
theorem firstEmpty_rehash (env : Env) {t pre post : List SHA1Hash} {s : SHA1Hash}
    (h : t = [] ∨ ValidSize t.length) (hvisited : visited t = pre ++ s :: post) :
    firstEmpty env (rehash env (growthSize t.length) pre) s (growthSize t.length) 0 ≠ none := by
  have hfits := visited_fits h
  rw [hvisited, List.length_append, List.length_cons] at hfits
  have hpre : ∀ id ∈ pre, id ≠ .zero := by
    intro id hid
    have hmem : id ∈ visited t := by
      rw [hvisited]
      exact List.mem_append_left _ hid
    exact (mem_visited.1 hmem).2
  obtain ⟨hlen, -, hkeys⟩ := rehash_spec env (growthSize_dvd h) hpre (by omega)
  have hocc : occupied .zero (rehash env (growthSize t.length) pre) = pre.length :=
    hkeys.length_eq
  obtain ⟨d, -, -, -, hfirst, -⟩ := place_eq env (t := rehash env (growthSize t.length) pre)
    (by rw [hlen]; exact growthSize_dvd h) (by rw [hocc, hlen]; omega) s
  rw [hlen] at hfirst
  rw [hfirst]
  exact Option.some_ne_none _

/-- A growth that returns has put that table into the file of the set. -/
theorem table_grow {env : Env} {w w' : World} {t : List SHA1Hash} {file file' : File}
    (hg : Good env w t) (hf : Opened w file) (used : Nat)
    (hgrow : grow env file (withUsed w used) = (.ok file', w')) :
    table w' = rehash env (growthSize t.length) (visited t) := by
  have hscan : scanOwn env file (withUsed w used) = (.ok (visited t), withUsed w used) :=
    scanOwn_eq env hg.stored hg.nslots_eq hg.size hf
  have hdata : rehash env (growthSize (withUsed w used).set.nslots_) (visited t) =
      rehash env (growthSize t.length) (visited t) := by
    change rehash env (growthSize w.set.nslots_) _ = _
    rw [hg.nslots_eq]
  by_cases hb : t.length = 2^26
  · have hlong : File.maxTransfer <
        ((rehash env (growthSize t.length) (visited t)).flatMap SHA1Hash.hash).length := by
      rw [Records.length_flatMap SHA1Hash.size_eq, length_rehash, hb]
      decide
    rw [grow_raise hscan hdata hlong] at hgrow
    cases hgrow
  · have hsize : ValidSize (rehash env (growthSize t.length) (visited t)).length := by
      rw [length_rehash]
      exact growthSize_valid hg.size hb
    obtain ⟨pos, hok⟩ := grow_ok hscan hdata (table_fits hsize)
    rw [hok] at hgrow
    cases hgrow
    apply Stored.table_eq
    · rw [Disk.performAll_fs]
      exact (Stored.grown w.disk.fs w.set.fpath_ hsize).1
    · change growthSize w.set.nslots_ = _
      rw [length_rehash, hg.nslots_eq]

/-- In every reachable state the end of the probe loop is out of reach, and `grow`, called
with whatever count of used slots, finds a place for every slot it visits and keeps every
id of the file. -/
theorem never_full (env : Env) (w : World) (h : Reachable env w) :
    (∀ id, (hasRecordID env id w).1 ≠ setIsFull) ∧ (∀ id, (addRecordID env id w).1 ≠ setIsFull) ∧
    (∀ ids, (addRecordIDs env ids w).1 ≠ setIsFull) ∧
    ∀ file used, Opened w file →
      ∃ slots, scanOwn env file (withUsed w used) = (.ok slots, withUsed w used) ∧
        (∀ pre s post, slots = pre ++ s :: post →
          firstEmpty env (rehash env (growthSize w.set.nslots_) pre) s
            (growthSize w.set.nslots_) 0 ≠ none) ∧
        (∀ id ∈ table w, id ≠ .zero → id ∈ rehash env (growthSize w.set.nslots_) slots) ∧
        ∀ file' w', grow env file (withUsed w used) = (.ok file', w') →
          ∀ id ∈ table w, id ≠ .zero → id ∈ table w' := by
  obtain ⟨t, ht⟩ := h.good
  obtain ⟨hhas, hadd, hadds⟩ := ht.not_setIsFull
  refine ⟨hhas, hadd, hadds, fun file used hf => ⟨visited t, ?_, ?_, ?_, ?_⟩⟩
  · exact scanOwn_eq env ht.stored ht.nslots_eq ht.size hf
  · intro pre s post hvisited
    rw [ht.nslots_eq]
    exact firstEmpty_rehash env ht.size hvisited
  · intro id hmem hid
    rw [ht.table_eq] at hmem
    rw [ht.nslots_eq]
    exact (mem_rehash_visited env ht.size hid).2 hmem
  · intro file' w' hgrow id hmem hid
    rw [ht.table_eq] at hmem
    rw [table_grow ht hf used hgrow]
    exact (mem_rehash_visited env ht.size hid).2 hmem

/-- A table that is not yet of 2^26 slots grows. -/
theorem Good.grow_returns {env : Env} {w : World} {t : List SHA1Hash} (h : Good env w t)
    (hlen : t.length ≠ 2^26) {file : File} (hf : Opened w file) (used : Nat) :
    ∃ file' w', grow env file (withUsed w used) = (.ok file', w') := by
  have hscan : scanOwn env file (withUsed w used) = (.ok (visited t), withUsed w used) :=
    scanOwn_eq env h.stored h.nslots_eq h.size hf
  have hslots : (withUsed w used).set.nslots_ = t.length := h.nslots_eq
  have hsize : ValidSize (rehash env (growthSize (withUsed w used).set.nslots_) (visited t)).length := by
    rw [length_rehash, hslots]
    exact growthSize_valid h.size hlen
  obtain ⟨pos, hok⟩ := grow_ok hscan rfl (table_fits hsize)
  exact ⟨_, _, hok⟩

theorem reachable_sampleWorld : Reachable .stx sampleWorld :=
  .addRecordID sampleId (.missing .empty (lit "set") rfl)

/-- The set grows when it is told that 256 of its 512 slots are in use. -/
theorem never_full_sampleWorld :
    (hasRecordID .stx .zero sampleWorld).1 ≠ setIsFull ∧
    (addRecordID .stx .zero sampleWorld).1 ≠ setIsFull ∧
    ∃ file file' w', Opened sampleWorld file ∧
      grow .stx file (withUsed sampleWorld 256) = (.ok file', w') ∧ sampleId ∈ table w' := by
  obtain ⟨hhas, hadd, -, hgrow⟩ := never_full .stx sampleWorld reachable_sampleWorld
  have hgood := good_sampleWorld
  have hmem : sampleId ∈ table sampleWorld := by
    rw [hgood.table_eq]
    exact mem_sampleTable
  have hlen : sampleTable.length ≠ 2^26 := by
    rw [sampleTable, List.length_set, List.length_replicate]
    decide
  obtain ⟨i, hi⟩ := hgood.stored.exists_of_ne (List.ne_nil_of_mem mem_sampleTable)
  have hf : Opened sampleWorld ⟨i, 0⟩ := hi
  obtain ⟨file', w', hok⟩ := hgood.grow_returns hlen hf 256
  obtain ⟨slots, -, -, -, hkeeps⟩ := hgrow ⟨i, 0⟩ 256 hf
  exact ⟨hhas .zero, hadd .zero, ⟨i, 0⟩, file', w', hf, hok,
    hkeeps file' w' hok sampleId hmem (by decide)⟩

/-- Lookup and enumeration agree on `id` in the state `w`, and both have it after it
was added. -/
def Agrees (env : Env) (w : World) (id : SHA1Hash) : Prop :=
  (∃ has ids, (hasRecordID env id w).1 = .ok has ∧ (fetchRecordIDs env w).1 = .ok ids ∧
    (has = true ↔ id ∈ ids)) ∧
  ∃ isNew w' ids, addRecordID env id w = (.ok isNew, w') ∧
    (hasRecordID env id w').1 = .ok true ∧ (fetchRecordIDs env w').1 = .ok ids ∧ id ∈ ids

theorem Good.agrees_of_ne {env : Env} {w : World} {t : List SHA1Hash} (h : Good env w t)
    {id : SHA1Hash} (hid : id ≠ .zero) (hb : ¬GrowthBlocked w) : Agrees env w id := by
  constructor
  · exact ⟨_, _, by rw [hasRecordID_of_ne h hid], by rw [fetchRecordIDs_eq h], decide_eq_true_iff⟩
  · cases addRecordID_spec h id with
    | inl hblocked => exact absurd hblocked.1 hb
    | inr hok =>
      obtain ⟨-, w', t', heq, hgood, hadds⟩ := hok
      have hmem : id ∈ t' := (hadds id hid).2 (.inl List.mem_cons_self)
      have hids : id ∈ idsOf t' := mem_idsOf.2 ⟨hmem, hid⟩
      refine ⟨_, w', _, heq, ?_, by rw [fetchRecordIDs_eq hgood], hids⟩
      rw [hasRecordID_of_ne hgood hid, decide_eq_true hids]

/-- In a reachable state lookup and enumeration agree on an id, and adding it makes both
have it, exactly when the id is not zero and no table of 2^26 slots has to grow. -/
theorem agrees_iff (env : Env) (w : World) (h : Reachable env w) (id : SHA1Hash) :
    Agrees env w id ↔ id ≠ .zero ∧ ¬GrowthBlocked w := by
  obtain ⟨t, ht⟩ := h.good
  constructor
  · rintro ⟨-, isNew, w', ids, hadd, -, hfetch, hmem⟩
    cases addRecordID_spec ht id with
    | inl hblocked =>
      obtain ⟨-, w₁, heq, -⟩ := hblocked
      rw [heq] at hadd
      cases hadd
    | inr hok =>
      obtain ⟨hb, w₁, t', heq, hgood, -⟩ := hok
      rw [heq] at hadd
      cases hadd
      rw [fetchRecordIDs_eq hgood] at hfetch
      cases hfetch
      exact ⟨(mem_idsOf.1 hmem).2, hb⟩
  · rintro ⟨hid, hb⟩
    exact ht.agrees_of_ne hid hb

theorem not_growthBlocked_missing (fs : FileSystem) (fpath : Bytes) (h : fs.names fpath = none) :
    ¬GrowthBlocked (missingWorld fs fpath) := by
  rw [(good_missing .stx h).growthBlocked_iff]
  intro hb
  exact absurd hb.1 (by decide)

theorem agrees_sampleId : Agrees .stx (missingWorld .empty (lit "set")) sampleId :=
  (agrees_iff .stx _ (.missing .empty (lit "set") rfl) sampleId).2
    ⟨by decide, not_growthBlocked_missing .empty (lit "set") rfl⟩

/-- In a set with one id, lookup finds the zero id at the first empty slot, and the
enumeration never returns it. -/
theorem sampleWorld_disagrees_on_zero :
    (hasRecordID .stx .zero sampleWorld).1 = .ok true ∧
      (∃ ids, (fetchRecordIDs .stx sampleWorld).1 = .ok ids ∧ SHA1Hash.zero ∉ ids) ∧
      ¬Agrees .stx sampleWorld .zero := by
  have hne : sampleTable ≠ [] := List.ne_nil_of_mem mem_sampleTable
  have hhas : (hasRecordID .stx .zero sampleWorld).1 = .ok true := by
    rw [hasRecordID_eq good_sampleWorld, decide_eq_true ⟨hne, .inl rfl⟩]
  have hzero : SHA1Hash.zero ∉ idsOf sampleTable := fun hmem => (mem_idsOf.1 hmem).2 rfl
  have hfetch : (fetchRecordIDs .stx sampleWorld).1 = .ok (idsOf sampleTable) := by
    rw [fetchRecordIDs_eq good_sampleWorld]
  refine ⟨hhas, ⟨idsOf sampleTable, hfetch, hzero⟩, ?_⟩
  rintro ⟨⟨has, ids, hhas', hfetch', hiff⟩, -⟩
  rw [hhas] at hhas'
  rw [hfetch] at hfetch'
  cases hhas'
  cases hfetch'
  exact hzero (hiff.1 rfl)

end Stx.PersistentHashSet
