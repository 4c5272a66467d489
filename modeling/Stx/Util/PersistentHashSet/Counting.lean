import Stx.Util.PersistentHashSet.Operations

/-! Whether `nslots_used_` counts the slots in use, and each id has one slot. Both rest on
`scan`, which meets the stale slots of its buffer a second time. -/
namespace Stx.PersistentHashSet
open Probing (slot keys occupied Path WellPlaced Grows)

/-- Each id has at most one slot of the table, and `used`, once it is computed, is the
number of slots in use. -/
structure Exact (used : Nat) (t : List SHA1Hash) : Prop where
  nodup : (keys .zero t).Nodup
  used_eq : used ≠ 2^64-1 → used = occupied .zero t

/-- If the insert counts the slots or grows the table, the stale slots are empty. -/
def StaleFree (used : Nat) (t : List SHA1Hash) : Prop :=
  used = 2^64-1 ∨ MustGrow (counted used t) t ∧ t.length ≠ 2^26 → staleUsed t = 0

theorem visited_of_stale {t : List SHA1Hash} (h : staleUsed t = 0) : visited t = keys .zero t := by
  have hnil : keys .zero (stale t) = [] := List.length_eq_zero_iff.1 h
  rw [visited, hnil, List.append_nil]

theorem Exact.counted_eq {used : Nat} {t : List SHA1Hash} (h : Exact used t)
    (hs : StaleFree used t) : counted used t = occupied .zero t := by
  unfold counted
  split
  · next hused => rw [visited_of_stale (hs (.inl hused)), occupied]
  · next hused => exact h.used_eq hused

theorem Exact.keys_roomTable {env : Env} {w : World} {t : List SHA1Hash} (hg : Good env w t)
    (hs : StaleFree w.set.nslots_used_ t) (hb : ¬Blocked (counted w.set.nslots_used_ t) t) :
    (keys .zero (roomTable env (counted w.set.nslots_used_ t) t)).Perm (keys .zero t) := by
  unfold roomTable
  split
  · next hgrow =>
    have hne : t.length ≠ 2^26 := fun heq => hb ⟨heq, hgrow⟩
    have hkeys := (rehash_visited env hg.size).2
    rwa [visited_of_stale (hs (.inr ⟨hgrow, hne⟩))] at hkeys ⊢
  · exact .refl _

theorem Exact.insert {env : Env} {w : World} {t : List SHA1Hash} {file : File}
    (hg : Good env w t) (hf : Opened w file) (h : Exact w.set.nslots_used_ t)
    (hs : StaleFree w.set.nslots_used_ t) (id : SHA1Hash) :
    ∃ t', Good env (insert env file id w).2 t' ∧
      Exact (insert env file id w).2.set.nslots_used_ t' := by
  have hcount := h.counted_eq hs
  cases insert_cases hg hf id with
  | blocked hb heq hgood =>
    rw [heq]
    exact ⟨t, hgood, h.nodup, fun _ => hcount⟩
  | present file' hb hid heq hgood hopen =>
    have hkeys := Exact.keys_roomTable hg hs hb
    rw [heq]
    exact ⟨_, hgood, hkeys.nodup_iff.2 h.nodup, fun _ => hcount.trans hkeys.length_eq.symm⟩
  | written file' file'' idx hb hzero hid hslot hopen hinode heq hgood =>
    have hkeys := Exact.keys_roomTable hg hs hb
    have hset := (Probing.keys_set hslot.lt hslot.empty hzero).trans (hkeys.cons id)
    have hnew : id ∉ keys .zero t := fun hmem => hid (Probing.mem_keys.1 hmem).1
    have hlt := hg.counted_lt
    rw [heq]
    refine ⟨_, hgood, hset.nodup_iff.2 (List.nodup_cons.2 ⟨hnew, h.nodup⟩), fun _ => ?_⟩
    change (counted w.set.nslots_used_ t+1) % 2^64 = _
    rw [Nat.mod_eq_of_lt (by omega)]
    exact (congrArg (·+1) hcount).trans hset.length_eq.symm

/- Runs. -/

/-- The insert in this state is free of stale slots. -/
def Clean (w : World) : Prop := StaleFree w.set.nslots_used_ (table w)

def CleanLoop (env : Env) : World → File → List SHA1Hash → Prop
  | _, _, [] => True
  | w, file, id :: rest => Clean w ∧
    ∀ file' isNew w', insert env file id w = (.ok (file', isNew), w') → CleanLoop env w' file' rest

def AllClean (env : Env) (w : World) (ids : List SHA1Hash) : Prop :=
  ∀ file w', openForWrite w = (.ok file, w') → CleanLoop env w' file ids

/-- The states of the runs from a missing file in which every insert, of ids that are not
zero, is free of stale slots. -/
inductive CleanlyReachable (env : Env) : World → Prop
  | missing (fs : FileSystem) (fpath : Bytes) (h : fs.names fpath = none) :
    CleanlyReachable env (missingWorld fs fpath)
  | addRecordID {w : World} {id : SHA1Hash} (h : CleanlyReachable env w) (hid : id ≠ .zero)
    (hc : Clean w) : CleanlyReachable env (addRecordID env id w).2
  | addRecordIDs {w : World} {ids : List SHA1Hash} (h : CleanlyReachable env w)
    (hids : ∀ id ∈ ids, id ≠ .zero) (hc : AllClean env w ids) :
    CleanlyReachable env (addRecordIDs env ids w).2
  | reopen {w w' : World} (h : CleanlyReachable env w) (hok : reopen w = (.ok (), w')) :
    CleanlyReachable env w'

theorem Exact.insertAll (env : Env) (ids : List SHA1Hash) {w : World} {t : List SHA1Hash}
    {file : File} (hg : Good env w t) (hf : Opened w file) (h : Exact w.set.nslots_used_ t)
    (hc : CleanLoop env w file ids) :
    ∃ t', Good env (insertAll env file ids w).2 t' ∧
      Exact (insertAll env file ids w).2.set.nslots_used_ t' := by
  induction ids generalizing w t file with
  | nil => exact ⟨t, hg, h⟩
  | cons x ids ih =>
    have hs : StaleFree w.set.nslots_used_ t := by
      have hclean : Clean w := hc.1
      rwa [Clean, hg.table_eq] at hclean
    obtain ⟨t', hgood, hexact⟩ := h.insert hg hf hs x
    cases insert_spec hg hf x with
    | inl hb =>
      obtain ⟨-, w', heq, -⟩ := hb
      rw [heq] at hgood hexact
      rw [PersistentHashSet.insertAll, Sys.bind_of_raise heq]
      exact ⟨t', hgood, hexact⟩
    | inr hok =>
      obtain ⟨-, file', w', -, heq, hf', -⟩ := hok
      have hrest := hc.2 _ _ _ heq
      rw [heq] at hgood hexact
      have hsnd : (PersistentHashSet.insertAll env file (x :: ids) w).2 =
          (PersistentHashSet.insertAll env file' ids w').2 := by
        rw [PersistentHashSet.insertAll, Sys.bind_of_ok heq]
        exact Sys.bind_pure_snd ..
      rw [hsnd]
      exact ih hgood hf' hexact hrest

theorem CleanlyReachable.exact_good {env : Env} {w : World} (h : CleanlyReachable env w) :
    ∃ t, Good env w t ∧ Exact w.set.nslots_used_ t := by
  induction h with
  | missing fs fpath h =>
    exact ⟨[], good_missing env h, List.nodup_nil, fun hne => absurd rfl hne⟩
  | @addRecordID w id _ _ hc ih =>
    obtain ⟨t, hg, hexact⟩ := ih
    obtain ⟨file, hopen, hf, hg'⟩ := openForWrite_eq hg
    rw [Clean, hg.table_eq] at hc
    rw [addRecordID_snd hopen]
    exact hexact.insert hg' hf hc id
  | @addRecordIDs w ids _ _ hc ih =>
    obtain ⟨t, hg, hexact⟩ := ih
    obtain ⟨file, hopen, hf, hg'⟩ := openForWrite_eq hg
    rw [PersistentHashSet.addRecordIDs, Sys.bind_of_ok hopen]
    exact Exact.insertAll env ids hg' hf hexact (hc file _ hopen)
  | reopen _ hok ih =>
    obtain ⟨t, hg, hexact⟩ := ih
    cases reopen_spec hg with
    | inl h =>
      rw [h.2] at hok
      cases hok
    | inr h =>
      obtain ⟨-, w', heq, hgood, hused⟩ := h
      rw [heq] at hok
      cases hok
      exact ⟨t, hgood, hexact.nodup, fun hne => absurd hused hne⟩

/-- In every state of such a run each id has at most one slot of the file, and
`nslots_used_`, once it is computed, is the number of slots in use. -/
theorem exact_of_cleanlyReachable (env : Env) (w : World) (h : CleanlyReachable env w) :
    Exact w.set.nslots_used_ (table w) := by
  obtain ⟨t, hg, hexact⟩ := h.exact_good
  rwa [hg.table_eq]

/- A set with one id, in a slot that a scan of 512 slots visits twice. -/

/-- The id of twenty bytes 0xff: its search starts at slot 385. -/
def staleId : SHA1Hash := ⟨List.replicate 20 0xff, rfl⟩

def addReopenAdd (env : Env) (id : SHA1Hash) (w : World) : World :=
  (addRecordID env id (reopen (addRecordID env id w).2).2).2

theorem addReopenAdd_eq {env : Env} {id : SHA1Hash} {w w' : World}
    (h : reopen (addRecordID env id w).2 = (.ok (), w')) :
    addReopenAdd env id w = (addRecordID env id w').2 := by
  rw [addReopenAdd, h]

def countedTwice : World := addReopenAdd .stx staleId (missingWorld .empty (lit "set"))

theorem good_again {env : Env} {w : World} {t : List SHA1Hash} (hg : Good env w t)
    (hused : w.set.nslots_used_ = 2^64-1) {id : SHA1Hash} (hid : id ∈ t)
    (hroom : ¬MustGrow (visited t).length t) :
    Good env (addRecordID env id w).2 t ∧
      (addRecordID env id w).2.set.nslots_used_ = (visited t).length := by
  obtain ⟨file, hopen, hf, hg'⟩ := openForWrite_eq hg
  have hcount : counted (openWorld w).set.nslots_used_ t = (visited t).length := if_pos hused
  rw [addRecordID_snd hopen]
  cases insert_cases hg' hf id with
  | blocked hb =>
    rw [hcount] at hb
    exact absurd hb.2 hroom
  | present file' hb hmem heq hgood hopen' =>
    have htable : roomTable env (counted (openWorld w).set.nslots_used_ t) t = t := by
      rw [hcount]
      exact if_neg hroom
    rw [htable] at hgood
    rw [heq]
    exact ⟨hgood, hcount⟩
  | written file' file'' idx hb hzero hmem => exact absurd hid hmem

/-- An id that is added, and added again when the set was opened anew, is counted once. -/
theorem exact_sampleWorld : Exact sampleWorld.set.nslots_used_ (table sampleWorld) ∧
    ∃ w, reopen sampleWorld = (.ok (), w) ∧
      (addRecordID .stx sampleId w).2.set.nslots_used_ = 1 ∧
      Exact 1 (table (addRecordID .stx sampleId w).2) := by
  have hreach : CleanlyReachable .stx sampleWorld :=
    .addRecordID (.missing .empty (lit "set") rfl) (by decide) fun _ => by decide
  have hgood := good_sampleWorld
  have hvisited : (visited sampleTable).length = 1 := by decide +kernel
  have hstale : staleUsed sampleTable = 0 := by decide +kernel
  have hroom : ¬MustGrow (visited sampleTable).length sampleTable := by
    rw [hvisited, MustGrow, sampleTable, List.length_set, List.length_replicate]
    decide
  cases reopen_spec hgood with
  | inl he => exact absurd he.1 (hgood.not_emptyFile (List.ne_nil_of_mem mem_sampleTable))
  | inr hok =>
    obtain ⟨-, w, heq, hgood', hused⟩ := hok
    obtain ⟨-, hcount⟩ := good_again hgood' hused mem_sampleTable hroom
    have hclean : Clean w := by
      rw [Clean, hgood'.table_eq]
      exact fun _ => hstale
    have hid : sampleId ≠ .zero := by decide
    have hexact := exact_of_cleanlyReachable .stx _
      ((hreach.reopen heq).addRecordID hid hclean)
    rw [hcount, hvisited] at hexact
    exact ⟨exact_of_cleanlyReachable .stx sampleWorld hreach, w, heq, hcount.trans hvisited, hexact⟩

def staleTable : List SHA1Hash := (List.replicate 512 .zero).set 385 staleId

/-- One slot is in use and two are counted. -/
theorem countedTwice_not_exact :
    Reachable .stx countedTwice ∧ countedTwice.set.nslots_used_ = 2 ∧
      occupied .zero (table countedTwice) = 1 ∧
      ¬Exact countedTwice.set.nslots_used_ (table countedTwice) := by
  have hslot : hashOf .stx staleId % 512 = 385 := by decide +kernel
  have hfirst : Good .stx (addRecordID .stx staleId (missingWorld .empty (lit "set"))).2
      staleTable := by
    rw [staleTable, ← hslot]
    exact good_first .stx rfl (by decide)
  have hne : staleTable ≠ [] := by decide +kernel
  have hocc : occupied .zero staleTable = 1 := by decide +kernel
  have hvisited : (visited staleTable).length = 2 := by decide +kernel
  have hroom : ¬MustGrow (visited staleTable).length staleTable := by
    rw [hvisited, MustGrow, staleTable, List.length_set, List.length_replicate]
    decide
  have hmem : staleId ∈ staleTable := by decide +kernel
  cases reopen_spec hfirst with
  | inl he => exact absurd he.1 (hfirst.not_emptyFile hne)
  | inr hok =>
    obtain ⟨-, w', heq, hgood, hused⟩ := hok
    obtain ⟨hlast, hlastUsed⟩ := good_again hgood hused hmem hroom
    have hworld : countedTwice = (addRecordID .stx staleId w').2 := addReopenAdd_eq heq
    have hreach : Reachable .stx countedTwice := by
      rw [hworld]
      exact .addRecordID staleId (.reopen (.addRecordID staleId (.missing .empty (lit "set") rfl)) heq)
    have hcount : countedTwice.set.nslots_used_ = 2 := by rw [hworld, hlastUsed, hvisited]
    have htable : occupied .zero (table countedTwice) = 1 := by
      rw [hworld, hlast.table_eq, hocc]
    refine ⟨hreach, hcount, htable, fun hexact => ?_⟩
    have heq := hexact.used_eq (by rw [hcount]; decide)
    rw [hcount, htable] at heq
    cases heq

end Stx.PersistentHashSet
