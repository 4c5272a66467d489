import Stx.Util.PersistentHashSet.Insert

/-! The public operations on a set that satisfies the invariant, the states that are
reachable from a missing file, and what holds in all of them. -/
namespace Stx.PersistentHashSet
open Probing (slot keys occupied Path WellPlaced Grows)

/-- The slots of the file of the set, as many as the set has. -/
def table (w : World) : List SHA1Hash :=
  match w.disk.fs.names w.set.fpath_ with
  | none => []
  | some i =>
    (List.range w.set.nslots_).map (slotAt ((w.disk.fs.content i).drop headerSize))

/-- The next insert has to grow a table of 2^26 slots, which `File::write` cannot do. The
count is `nslots_used_`, or what the scan of the file visits if that is not known yet. -/
def GrowthBlocked (w : World) : Prop := Blocked (counted w.set.nslots_used_ (table w)) (table w)

theorem Stored.table_eq {w : World} {t : List SHA1Hash} (h : Stored w.disk.fs w.set.fpath_ t)
    (hn : w.set.nslots_ = t.length) : table w = t := by
  unfold table
  cases hname : w.disk.fs.names w.set.fpath_ with
  | none =>
    by_contra hne
    obtain ⟨i, hi⟩ := h.exists_of_ne (Ne.symm hne)
    rw [hname] at hi
    cases hi
  | some i =>
    change (List.range w.set.nslots_).map (slotAt ((w.disk.fs.content i).drop headerSize)) = t
    rw [hn, h.content_eq i hname]
    by_cases hne : t = []
    · rw [hne]
      rfl
    · rw [contents_of_ne hne, show headerSize = headerSize+20*0 from rfl, drop_image, List.drop_zero]
      apply List.ext_getElem
      · rw [List.length_map, List.length_range]
      · intro j _ hj
        rw [List.getElem_map, List.getElem_range]
        simpa using slotAt_flatMap hj []

theorem Good.table_eq {env : Env} {w : World} {t : List SHA1Hash} (h : Good env w t) :
    table w = t := h.stored.table_eq h.nslots_eq

theorem Good.growthBlocked_iff {env : Env} {w : World} {t : List SHA1Hash} (h : Good env w t) :
    GrowthBlocked w ↔ Blocked (counted w.set.nslots_used_ t) t := by
  rw [GrowthBlocked, h.table_eq]

/- Opening the file. -/

def openEffects (fs : FileSystem) (fpath : Bytes) : List Effect :=
  if (fs.names fpath).isSome then [] else [.create fpath]

def openWorld (w : World) : World :=
  { w with disk := w.disk.performAll (openEffects w.disk.fs w.set.fpath_) }

theorem openForWrite_eq {env : Env} {w : World} {t : List SHA1Hash} (h : Good env w t) :
    ∃ file, openForWrite w = (.ok file, openWorld w) ∧ Opened (openWorld w) file ∧
      Good env (openWorld w) t := by
  unfold openForWrite openWorld openEffects
  rw [Sys.get_bind]
  cases hn : w.disk.fs.names w.set.fpath_ with
  | none =>
    have hnil : t = [] := by
      by_contra hne
      obtain ⟨i, hi⟩ := h.stored.exists_of_ne hne
      rw [hn] at hi
      cases hi
    have hopen : File.openFd w.set.fpath_ { write := true, read := true, createOrOpen := true }
        w.disk = (.ok ⟨w.disk.fs.next, 0⟩, w.disk.perform (.create w.set.fpath_)) := by
      rw [File.openFd, hn]
      rfl
    obtain ⟨hstored, hname⟩ := Stored.create w.disk.fs w.set.fpath_
    refine ⟨⟨w.disk.fs.next, 0⟩, onDisk_ok (Sys.bind_of_ok hopen), hname, ?_⟩
    exact ⟨hnil ▸ hstored, h.nslots_eq, h.placed, h.filled⟩
  | some i =>
    have hopen : File.openFd w.set.fpath_ { write := true, read := true, createOrOpen := true }
        w.disk = (.ok ⟨i, 0⟩, w.disk) := by
      rw [File.openFd, hn]
      rfl
    exact ⟨⟨i, 0⟩, onDisk_ok (Sys.bind_of_ok hopen), hn, h⟩

theorem openForRead_eq {w : World} {i : Nat} (h : w.disk.fs.names w.set.fpath_ = some i) :
    openForRead w = (.ok ⟨i, 0⟩, w) := by
  rw [openForRead, Sys.get_bind]
  exact onDisk_ok (openFile_read h)

/- Reading. -/

theorem Good.not_full {env : Env} {w : World} {t : List SHA1Hash} (h : Good env w t)
    (hne : t ≠ []) : ValidSize t.length ∧ occupied .zero t < t.length := by
  have hfilled := h.filled.resolve_left fun hnil => hne hnil.1
  have hocc := hfilled.2.occupied_le
  have hge := hfilled.1.ge
  exact ⟨hfilled.1, by omega⟩

theorem hasRecordID_eq {env : Env} {w : World} {t : List SHA1Hash} (h : Good env w t)
    (id : SHA1Hash) :
    hasRecordID env id w = (.ok (decide (t ≠ [] ∧ (id = .zero ∨ id ∈ t))), w) := by
  rw [hasRecordID, Sys.get_bind]
  by_cases hne : t = []
  · subst hne
    rw [h.nslots_eq]
    rfl
  · obtain ⟨hsize, hfull⟩ := h.not_full hne
    obtain ⟨i, hi⟩ := h.stored.exists_of_ne hne
    have hge := hsize.ge
    rw [h.nslots_eq, if_neg (by omega), Sys.bind_of_ok (openForRead_eq hi)]
    have hholds : Holds w.disk.fs (⟨i, 0⟩ : File).inode t := h.stored.holds hi hsize
    cases lookup_room hholds h.placed hfull id with
    | inl hyes =>
      rw [Sys.reads_bind (f := fun w : World => lookup env w.disk.fs ⟨i, 0⟩ _ _) (s := w) hyes.2, decide_eq_true ⟨hne, hyes.1⟩]
      rfl
    | inr hno =>
      obtain ⟨hzero, hmem, idx, -, hno⟩ := hno
      rw [Sys.reads_bind (f := fun w : World => lookup env w.disk.fs ⟨i, 0⟩ _ _) (s := w) hno, decide_eq_false]
      · rfl
      · rintro ⟨-, hz | hm⟩
        · exact hzero hz
        · exact hmem hm

/-- The ids that are stored in a table. -/
def idsOf (t : List SHA1Hash) : Finset SHA1Hash := (keys .zero t).toFinset

theorem mem_idsOf {t : List SHA1Hash} {id : SHA1Hash} : id ∈ idsOf t ↔ id ∈ t ∧ id ≠ .zero := by
  rw [idsOf, List.mem_toFinset, Probing.mem_keys]

theorem mem_idsOf_of_ne {t : List SHA1Hash} {id : SHA1Hash} (h : id ≠ .zero) :
    id ∈ idsOf t ↔ id ∈ t := mem_idsOf.trans (and_iff_left h)

/-- On an id that is not zero, lookup answers what is stored. -/
theorem hasRecordID_of_ne {env : Env} {w : World} {t : List SHA1Hash} (h : Good env w t)
    {id : SHA1Hash} (hid : id ≠ .zero) :
    hasRecordID env id w = (.ok (decide (id ∈ idsOf t)), w) := by
  have hiff : (t ≠ [] ∧ (id = .zero ∨ id ∈ t)) ↔ id ∈ idsOf t := by
    rw [mem_idsOf_of_ne hid, or_iff_right hid]
    exact and_iff_right_of_imp List.ne_nil_of_mem
  rw [hasRecordID_eq h, decide_eq_decide.2 hiff]

theorem fetchRecordIDs_eq {env : Env} {w : World} {t : List SHA1Hash} (h : Good env w t) :
    fetchRecordIDs env w = (.ok (idsOf t), w) := by
  rw [fetchRecordIDs, Sys.get_bind]
  by_cases hne : t = []
  · subst hne
    rw [h.nslots_eq]
    rfl
  · obtain ⟨hsize, -⟩ := h.not_full hne
    obtain ⟨i, hi⟩ := h.stored.exists_of_ne hne
    have hge := hsize.ge
    have hscan : scan env w.disk.fs ⟨i, 0⟩ t.length = .ok (visited t) :=
      scan_eq env (h.stored.holds hi hsize)
    have hids : (visited t).toFinset = idsOf t := by
      ext id
      rw [List.mem_toFinset, mem_visited, mem_idsOf]
    rw [h.nslots_eq, if_neg (by omega), Sys.bind_of_ok (openForRead_eq hi),
      Sys.reads_bind (f := fun w : World => scan env w.disk.fs ⟨i, 0⟩ _) (s := w) hscan]
    exact congrArg (fun ids => (Result.ok ids, w)) hids

/- Adding. -/

/-- `t'` is the table after the ids of `ids` were added to the table `t`. -/
def Adds (t t' : List SHA1Hash) (ids : List SHA1Hash) : Prop :=
  ∀ id ≠ .zero, id ∈ t' ↔ id ∈ ids ∨ id ∈ t

theorem Adds.refl (t : List SHA1Hash) : Adds t t [] := fun id _ => by simp

theorem Adds.cons {t₁ t₂ t₃ : List SHA1Hash} {x : SHA1Hash} {ids : List SHA1Hash}
    (h₁ : Adds t₁ t₂ [x]) (h₂ : Adds t₂ t₃ ids) : Adds t₁ t₃ (x :: ids) := by
  intro id hid
  rw [h₂ id hid, h₁ id hid, List.mem_singleton, List.mem_cons]
  tauto

/-- The outcome of an insert in terms of the ids. -/
theorem insert_spec {env : Env} {w : World} {t : List SHA1Hash} {file : File} (h : Good env w t)
    (hf : Opened w file) (id : SHA1Hash) :
    (GrowthBlocked w ∧ ∃ w', insert env file id w = (File.ioError (lit "write() failed"), w') ∧
      Good env w' t) ∨
    (¬GrowthBlocked w ∧ ∃ file' w' t',
      insert env file id w = (.ok (file', decide (id ≠ .zero ∧ id ∉ t)), w') ∧
      Opened w' file' ∧ Good env w' t' ∧ Adds t t' [id]) := by
  rw [h.growthBlocked_iff]
  cases insert_cases h hf id with
  | blocked hb heq hgood => exact .inl ⟨hb, _, heq, hgood⟩
  | present file' hb hid heq hgood hopen =>
    refine .inr ⟨hb, file', _, _, ?_, hopen, hgood, fun y hy => ?_⟩
    · rw [heq, decide_eq_false]
      rintro ⟨hzero, hmem⟩
      exact hid.elim hzero hmem
    · rw [h.mem_roomTable hy, List.mem_singleton]
      constructor
      · exact .inr
      · rintro (rfl | hmem)
        · exact hid.resolve_left hy
        · exact hmem
  | written file' file'' idx hb hzero hid hslot hopen hinode heq hgood =>
    refine .inr ⟨hb, file'', _, _, ?_, ?_, hgood, fun y hy => ?_⟩
    · rw [heq, decide_eq_true ⟨hzero, hid⟩]
    · rw [Opened, hinode]
      exact hopen
    · rw [← h.mem_roomTable hy, List.mem_singleton]
      have hkeys := (Probing.keys_set hslot.lt hslot.empty hzero).mem_iff (a := y)
      rw [Probing.mem_keys, List.mem_cons, Probing.mem_keys] at hkeys
      simpa [hy] using hkeys

/-- Behind the open, `addRecordID` changes what the insert changes. -/
theorem addRecordID_snd {env : Env} {id : SHA1Hash} {w w' : World} {file : File}
    (hopen : openForWrite w = (.ok file, w')) :
    (addRecordID env id w).2 = (insert env file id w').2 := by
  rw [addRecordID, Sys.bind_of_ok hopen]
  exact Sys.bind_pure_snd ..

theorem addRecordID_spec {env : Env} {w : World} {t : List SHA1Hash} (h : Good env w t)
    (id : SHA1Hash) :
    (GrowthBlocked w ∧ ∃ w', addRecordID env id w = (File.ioError (lit "write() failed"), w') ∧
      Good env w' t) ∨
    (¬GrowthBlocked w ∧ ∃ w' t',
      addRecordID env id w = (.ok (decide (id ≠ .zero ∧ id ∉ t)), w') ∧
      Good env w' t' ∧ Adds t t' [id]) := by
  obtain ⟨file, hopen, hf, hg⟩ := openForWrite_eq h
  have hb : GrowthBlocked (openWorld w) ↔ GrowthBlocked w := by
    rw [hg.growthBlocked_iff, h.growthBlocked_iff]
    rfl
  rw [addRecordID, Sys.bind_of_ok hopen, ← hb]
  cases insert_spec hg hf id with
  | inl hblocked =>
    obtain ⟨hb', w', heq, hgood⟩ := hblocked
    exact .inl ⟨hb', w', Sys.bind_of_raise heq, hgood⟩
  | inr hok =>
    obtain ⟨hb', file', w', t', heq, -, hgood, hadds⟩ := hok
    exact .inr ⟨hb', w', t', Sys.bind_of_ok heq, hgood, hadds⟩

/-- None of the inserts of the loop of `addRecordIDs` is blocked. -/
def Unblocked (env : Env) : World → File → List SHA1Hash → Prop
  | _, _, [] => True
  | w, file, id :: rest => ¬GrowthBlocked w ∧
    ∀ file' isNew w', insert env file id w = (.ok (file', isNew), w') → Unblocked env w' file' rest

/-- What the loop leaves in the set, one id at a time. -/
theorem filter_adds {t t' ids : List SHA1Hash} {x : SHA1Hash} (h : Adds t t' [x])
    (hx : x ∉ ids) (hids : ∀ id ∈ ids, id ≠ .zero) :
    ids.filter (· ∉ t') = ids.filter (· ∉ t) := by
  apply List.filter_congr
  intro id hid
  have hne : id ≠ x := fun heq => hx (heq ▸ hid)
  have hiff := h id (hids id hid)
  rw [List.mem_singleton, or_iff_right hne] at hiff
  exact decide_eq_decide.2 (not_congr hiff)

/-- The loop ends with the ids that were new, or it stops at a blocked insert. -/
theorem insertAll_spec (env : Env) (ids : List SHA1Hash) {w : World} {t : List SHA1Hash}
    {file : File} (h : Good env w t) (hf : Opened w file) :
    (¬Unblocked env w file ids ∧ ∃ w' t',
      insertAll env file ids w = (File.ioError (lit "write() failed"), w') ∧ Good env w' t') ∨
    (Unblocked env w file ids ∧ ∃ left w' t', insertAll env file ids w = (.ok left, w') ∧
      Good env w' t' ∧ Adds t t' ids ∧
      ((ids.Nodup ∧ ∀ id ∈ ids, id ≠ .zero) → left = ids.filter (· ∉ t))) := by
  induction ids generalizing w t file with
  | nil => exact .inr ⟨trivial, [], w, t, rfl, h, .refl t, fun _ => rfl⟩
  | cons x ids ih =>
    cases insert_spec h hf x with
    | inl hblocked =>
      obtain ⟨hb, w', heq, hgood⟩ := hblocked
      refine .inl ⟨fun hu => hu.1 hb, w', t, ?_, hgood⟩
      rw [insertAll, Sys.bind_of_raise heq]
      rfl
    | inr hok =>
      obtain ⟨hb, file', w', t', heq, hf', hgood, hadds⟩ := hok
      cases ih hgood hf' with
      | inl hstop =>
        obtain ⟨hu, w'', t'', hrest, hgood'⟩ := hstop
        refine .inl ⟨fun hall => hu (hall.2 _ _ _ heq), w'', t'', ?_, hgood'⟩
        rw [insertAll, Sys.bind_of_ok heq]
        exact Sys.bind_of_raise hrest
      | inr hall =>
        obtain ⟨hu, left, w'', t'', hrest, hgood', hadds', hleft⟩ := hall
        refine .inr ⟨⟨hb, fun file₁ isNew w₁ heq₁ => ?_⟩,
          if decide (x ≠ .zero ∧ x ∉ t) then x :: left else left, w'', t'', ?_, hgood',
          hadds.cons hadds', fun hids => ?_⟩
        · rw [heq] at heq₁
          cases heq₁
          exact hu
        · rw [insertAll, Sys.bind_of_ok heq]
          exact Sys.bind_of_ok hrest
        · have hx := List.nodup_cons.1 hids.1
          have hrest₀ : ∀ id ∈ ids, id ≠ .zero := fun id hid => hids.2 id (List.mem_cons_of_mem _ hid)
          rw [hleft ⟨hx.2, hrest₀⟩, filter_adds hadds hx.1 hrest₀, List.filter_cons]
          simp [hids.2 x List.mem_cons_self]

/-- None of the inserts of `addRecordIDs` is blocked. -/
def AllUnblocked (env : Env) (w : World) (ids : List SHA1Hash) : Prop :=
  ∀ file w', openForWrite w = (.ok file, w') → Unblocked env w' file ids

theorem addRecordIDs_spec {env : Env} {w : World} {t : List SHA1Hash} (h : Good env w t)
    (ids : List SHA1Hash) :
    (¬AllUnblocked env w ids ∧ ∃ w' t',
      addRecordIDs env ids w = (File.ioError (lit "write() failed"), w') ∧ Good env w' t') ∨
    (AllUnblocked env w ids ∧ ∃ left w' t', addRecordIDs env ids w = (.ok left, w') ∧
      Good env w' t' ∧ Adds t t' ids ∧
      ((ids.Nodup ∧ ∀ id ∈ ids, id ≠ .zero) → left = ids.filter (· ∉ t))) := by
  obtain ⟨file, hopen, hf, hg⟩ := openForWrite_eq h
  have hadd : addRecordIDs env ids w = insertAll env file ids (openWorld w) := by
    rw [addRecordIDs, Sys.bind_of_ok hopen]
  have hu : AllUnblocked env w ids ↔ Unblocked env (openWorld w) file ids := by
    constructor
    · intro hall
      exact hall file _ hopen
    · intro hall file' w' hopen'
      rw [hopen] at hopen'
      cases hopen'
      exact hall
  rw [hadd, hu]
  exact insertAll_spec env ids hg hf

/- Opening the set again. -/

/-- The file exists and has no bytes: it was created, but no table was written. -/
def EmptyFile (w : World) : Prop :=
  ∃ i, w.disk.fs.names w.set.fpath_ = some i ∧ w.disk.fs.content i = []

/-- Close the set and construct it again on the same path. -/
def reopen : Sys World Unit := fun w =>
  match new w.set.fpath_ w.disk with
  | (.ok set, d) => (.ok (), ⟨d, set⟩)
  | (.raise e, d) => (.raise e, { w with disk := d })
  | (.diverge, d) => (.diverge, { w with disk := d })

/-- A stored table is accepted by the constructor, and the new set satisfies the invariant. -/
theorem new_good {env : Env} {d : Disk} {fpath : Bytes} {t : List SHA1Hash}
    (hs : Stored d.fs fpath t) (hplaced : WellPlaced .zero (hashOf env) t) (hne : t ≠ [])
    (hsize : ValidSize t.length) (hocc : 64*occupied .zero t+12800 ≤ 57*t.length) :
    new fpath d = (.ok { fpath_ := fpath, nslots_ := t.length }, d) ∧
      Good env ⟨d, { fpath_ := fpath, nslots_ := t.length }⟩ t :=
  ⟨new_image hs hne hsize, hs, rfl, hplaced, .inr ⟨hsize, hocc, .inl rfl⟩⟩

theorem Good.not_emptyFile {env : Env} {w : World} {t : List SHA1Hash} (h : Good env w t)
    (hne : t ≠ []) : ¬EmptyFile w := by
  rintro ⟨i, hi, hc⟩
  rw [h.stored.content_eq i hi, contents_of_ne hne] at hc
  have hlen := congrArg List.length hc
  rw [length_image] at hlen
  exact absurd hlen (by simp [headerSize])

theorem reopen_spec {env : Env} {w : World} {t : List SHA1Hash} (h : Good env w t) :
    (EmptyFile w ∧
      reopen w = (.raise ⟨.runtimeError, lit "error while reading file header"⟩, w)) ∨
    (¬EmptyFile w ∧ ∃ w', reopen w = (.ok (), w') ∧ Good env w' t ∧
      w'.set.nslots_used_ = 2^64-1) := by
  by_cases hne : t = []
  · cases hn : w.disk.fs.names w.set.fpath_ with
    | none =>
      refine .inr ⟨?_, ⟨w.disk, { fpath_ := w.set.fpath_ }⟩, ?_, ?_, rfl⟩
      · rintro ⟨i, hi, -⟩
        rw [hn] at hi
        cases hi
      · rw [reopen, new_missing hn]
      · subst hne
        exact ⟨h.stored, rfl, h.placed, .inl ⟨rfl, rfl⟩⟩
    | some i =>
      have hc : w.disk.fs.content i = [] := by
        rw [h.stored.content_eq i hn, hne]
        rfl
      exact .inl ⟨⟨i, hn, hc⟩, by rw [reopen, new_empty hn hc]⟩
  · have hfilled := h.filled.resolve_left fun hnil => hne hnil.1
    obtain ⟨hnew, hgood⟩ := new_good h.stored h.placed hne hfilled.1 hfilled.2.occupied_le
    exact .inr ⟨h.not_emptyFile hne, _, by rw [reopen, hnew], hgood, rfl⟩

/- The reachable states. -/

/-- A set on a path at which there is no file, as the constructor returns it
(`new_missing`). -/
def missingWorld (fs : FileSystem) (fpath : Bytes) : World := ⟨⟨fs, []⟩, { fpath_ := fpath }⟩

/-- The states that are reached from a missing file, also by calls that raise. -/
inductive Reachable (env : Env) : World → Prop
  | missing (fs : FileSystem) (fpath : Bytes) (h : fs.names fpath = none) :
    Reachable env (missingWorld fs fpath)
  | addRecordID {w : World} (id : SHA1Hash) (h : Reachable env w) :
    Reachable env (addRecordID env id w).2
  | addRecordIDs {w : World} (ids : List SHA1Hash) (h : Reachable env w) :
    Reachable env (addRecordIDs env ids w).2
  | reopen {w w' : World} (h : Reachable env w) (hok : reopen w = (.ok (), w')) : Reachable env w'

theorem good_missing (env : Env) {fs : FileSystem} {fpath : Bytes} (h : fs.names fpath = none) :
    Good env (missingWorld fs fpath) [] :=
  ⟨.of_missing h, rfl, Probing.wellPlaced_replicate 0, .inl ⟨rfl, rfl⟩⟩

/-- The id of twenty bytes 0x2a. -/
def sampleId : SHA1Hash := ⟨List.replicate 20 0x2a, rfl⟩

/-- A set with one id in it. -/
def sampleWorld : World := (addRecordID .stx sampleId (missingWorld .empty (lit "set"))).2

theorem Reachable.good {env : Env} {w : World} (h : Reachable env w) : ∃ t, Good env w t := by
  induction h with
  | missing fs fpath h => exact ⟨[], good_missing env h⟩
  | addRecordID id _ ih =>
    obtain ⟨t, ht⟩ := ih
    cases addRecordID_spec ht id with
    | inl h =>
      obtain ⟨-, w', heq, hgood⟩ := h
      exact ⟨t, by rwa [heq]⟩
    | inr h =>
      obtain ⟨-, w', t', heq, hgood, -⟩ := h
      exact ⟨t', by rwa [heq]⟩
  | addRecordIDs ids _ ih =>
    obtain ⟨t, ht⟩ := ih
    cases addRecordIDs_spec ht ids with
    | inl h =>
      obtain ⟨-, w', t', heq, hgood⟩ := h
      exact ⟨t', by rwa [heq]⟩
    | inr h =>
      obtain ⟨-, left, w', t', heq, hgood, -⟩ := h
      exact ⟨t', by rwa [heq]⟩
  | reopen _ hok ih =>
    obtain ⟨t, ht⟩ := ih
    cases reopen_spec ht with
    | inl h =>
      rw [h.2] at hok
      cases hok
    | inr h =>
      obtain ⟨-, w', heq, hgood, -⟩ := h
      rw [heq] at hok
      cases hok
      exact ⟨t, hgood⟩

/-- In an empty table an id goes to the slot at which its search starts. -/
theorem Slot.idx_eq {env : Env} {n idx : Nat} {id : SHA1Hash}
    (h : Slot env (List.replicate n .zero) id idx) : idx = hashOf env id % n := by
  obtain ⟨d, hidx, hpath⟩ := h.path
  have hd : d = 0 := by
    by_contra hne
    exact hpath 0 (by omega) (Probing.getD_replicate n _)
  rw [hidx, hd, List.length_replicate, Nat.add_zero]

theorem good_first (env : Env) {fs : FileSystem} {fpath : Bytes} (h : fs.names fpath = none)
    {id : SHA1Hash} (hid : id ≠ .zero) :
    Good env (addRecordID env id (missingWorld fs fpath)).2
      ((List.replicate 512 .zero).set (hashOf env id % 512) id) := by
  have hg := good_missing env h
  obtain ⟨file, hopen, hf, hg'⟩ := openForWrite_eq hg
  rw [addRecordID_snd hopen]
  cases insert_cases hg' hf id with
  | blocked hb => exact absurd hb.1 (by decide)
  | present file' hb hmem => exact absurd (hmem.resolve_left hid) List.not_mem_nil
  | written file' file'' idx hb hzero hmem hslot hopen' hinode heq hgood =>
    have hidx : idx = hashOf env id % 512 := hslot.idx_eq
    rw [heq, ← hidx]
    exact hgood

/-- Slot 133 is where the search for the id starts. -/
def sampleTable : List SHA1Hash := (List.replicate 512 .zero).set 133 sampleId

theorem mem_sampleTable : sampleId ∈ sampleTable :=
  List.mem_set (by rw [List.length_replicate]; decide) _

theorem good_sampleWorld : Good .stx sampleWorld sampleTable := by
  have hslot : hashOf .stx sampleId % 512 = 133 := by decide +kernel
  rw [sampleTable, ← hslot]
  exact good_first .stx rfl (by decide)

end Stx.PersistentHashSet
