import Stx.Util.PersistentHashSet.Guarantee

/-! The writers. Whoever holds `write_mutex_` works as if it were alone, and each of its
steps is one that the readers can live with. -/
namespace Stx.PersistentHashSet.Concurrent
open Threads (View wp Rely Prog)
open Probing (slot keys occupied Path WellPlaced Grows)
open Call
variable {α β : Type} {env : Env} {t : Nat} {v : View World Mutex}

/-- The thread `t`, running `x` from `v`, keeps its guarantee and ends with `Q`. -/
def Meets (env : Env) (t : Nat) (Q : Result α → View World Mutex → Prop) (x : Call α)
    (v : View World Mutex) : Prop := wp (Guarantee env) Noted t Q x v

theorem meets_bind {Q : Result β → View World Mutex → Prop} {x : Call α} {f : α → Call β}
    (h : Meets env t (fun r v => Meets env t Q (andThen f r) v) x v) : Meets env t Q (x >>= f) v :=
  Threads.wp_bind h

theorem meets_atomically {Q : Result α → View World Mutex → Prop} {x : Sys World α}
    (h : ∀ v', Rely (Guarantee env) t v v' → Guarantee env t v' (v'.put (x v'.state).2) ∧
      ∀ v'', Rely (Guarantee env) t (v'.put (x v'.state).2) v'' → Q (x v'.state).1 v'') :
    Meets env t Q (atomically x) v := h

theorem meets_withLock {Q : Result α → View World Mutex → Prop} {m : Mutex} {x : Call α}
    (h : ∀ v', Rely (Guarantee env) t v v' → v'.holder m = none →
      Guarantee env t v' (v'.lock m t) ∧
      Meets env t (fun r v₁ => ∀ v₂, Rely (Guarantee env) t v₁ v₂ → v₂.holder m = some t ∧
        Guarantee env t v₂ (v₂.unlock m) ∧ ∀ v₃, Rely (Guarantee env) t (v₂.unlock m) v₃ → Q r v₃)
        x (v'.lock m t)) : Meets env t Q (withLock m x) v :=
  fun v' hr hm => ⟨(h v' hr hm).1, Threads.wp_bind (h v' hr hm).2⟩

/-- The writer runs `x` on the set in the state `w` as if it were alone. -/
def RunsAs (env : Env) (x : Call α) (w : World) : Prop :=
  ∀ (t : Nat) (v : View World Mutex) (Q : Result α → View World Mutex → Prop), Owns t v w →
    (∀ v', Owns t v' (x.run w).2 → Q (x.run w).1 v') → Meets env t Q x v

variable {w w' : World}

theorem runsAs_ofResult {r : Result α} : RunsAs env (ofResult r) w :=
  fun _ _ _ ho hQ v' hr => hQ v' (ho.rely hr)

theorem runsAs_pure {a : α} : RunsAs env (pure a) w := runsAs_ofResult

theorem runsAs_readOnly {x : Call α} (hx : x.ReadOnly) : RunsAs env x w := by
  intro t v Q ho hQ
  apply Threads.wp_of_readOnly hx (guarantee_refl env t)
  · intro v' hr
    exact frame_rely hr ho.write
  · intro v' hr
    have howns := ho.rely hr
    rw [ho.state]
    apply hQ v'
    have hsame : (x.run w).2 = w := Prog.ReadOnly.run_snd hx w
    rwa [hsame]

theorem runsAs_atomically {x : Sys World α} (h : WriterStep env w (x w).2) :
    RunsAs env (atomically x) w := by
  intro t v Q ho hQ
  refine meets_atomically fun v' hr => ?_
  have howns := ho.rely hr
  rw [howns.state]
  exact ⟨h.guarantee howns, fun v'' hr' => hQ v'' ((howns.put _).rely hr')⟩

theorem runsAs_bind {x : Call α} {f : α → Call β} (hx : RunsAs env x w)
    (hf : ∀ a w', x.run w = (.ok a, w') → RunsAs env (f a) w') : RunsAs env (x >>= f) w := by
  intro t v Q ho hQ
  rw [run_bind] at hQ
  refine meets_bind (hx t v _ ho fun v' ho' => ?_)
  cases hrun : x.run w with
  | mk r w' =>
    rw [hrun] at ho'
    cases r with
    | ok a =>
      rw [Sys.bind_of_ok hrun] at hQ
      exact hf a w' hrun t v' Q ho' hQ
    | raise e =>
      rw [Sys.bind_of_raise hrun] at hQ
      exact fun v'' hr => hQ v'' (ho'.rely hr)
    | diverge =>
      rw [Sys.bind_of_diverge hrun] at hQ
      exact fun v'' hr => hQ v'' (ho'.rely hr)

theorem runsAs_step {x : Sys World α} {r : Result α} (hx : x w = (r, w')) (h : WriterStep env w w') :
    RunsAs env (atomically x) w := by
  apply runsAs_atomically
  rwa [hx]

/-- A part of a call with a known result. -/
theorem runsAs_bind_ok {x : Call α} {f : α → Call β} {a : α} (hx : RunsAs env x w)
    (hrun : x.run w = (.ok a, w')) (hf : RunsAs env (f a) w') : RunsAs env (x >>= f) w := by
  refine runsAs_bind hx fun a₁ w₁ hrun₁ => ?_
  cases hrun.symm.trans hrun₁
  exact hf

/- The steps. -/

variable {tbl : List SHA1Hash}

theorem writerStep_of_current (hev : Evolves w w')
    (hn : w.set.nslots_ = tbl.length) (hn' : w'.set.nslots_ = w.set.nslots_)
    (hc : Current env w tbl) (hc' : Current env w' tbl) : WriterStep env w w' :=
  ⟨hev, hn', tbl, tbl, hc, hc', hn'.trans hn, fun _ _ hid => hid⟩

theorem writerStep_used (hc : Current env w tbl)
    (hn : w.set.nslots_ = tbl.length) (used : Nat) : WriterStep env w (withUsed w used) :=
  writerStep_of_current (evolves_members rfl) hn rfl hc ⟨hc.stored, hc.size, hc.placed⟩

/-- The world with one more change on its disk. -/
def withEffect (w : World) (e : Effect) : World := { w with disk := w.disk.perform e }

theorem Current.side (hc : Current env w tbl) :
    Current env (withEffect w (sideEffect w.disk.fs (tmpPath w.set.fpath_))) tbl :=
  ⟨hc.stored.side, hc.size, hc.placed⟩

theorem Current.write_side {j : Nat} (hc : Current env w tbl)
    (hj : w.disk.fs.names (tmpPath w.set.fpath_) = some j) (pos : Nat) (data : Bytes) :
    Current env (withEffect w (.write j pos data)) tbl :=
  ⟨hc.stored.write_side hj pos data, hc.size, hc.placed⟩

theorem writerStep_write_side {j : Nat} (hc : Current env w tbl) (hn : w.set.nslots_ = tbl.length)
    (hj : w.disk.fs.names (tmpPath w.set.fpath_) = some j) (pos : Nat) (data : Bytes) :
    WriterStep env w (withEffect w (.write j pos data)) :=
  writerStep_of_current (evolves_write_side hj pos data) hn rfl hc (hc.write_side hj pos data)

theorem runsAs_members_bind {f : PersistentHashSet → Call α}
    (hf : RunsAs env (f w.set) w) : RunsAs env (members >>= f) w :=
  runsAs_bind_ok (runsAs_readOnly readOnly_reads) rfl hf

theorem scanOwn_run {file : File} (hc : Current env w tbl)
    (hn : w.set.nslots_ = tbl.length) (hf : Opened w file) :
    (scanOwn env file).run w = (.ok (visited tbl), w) := by
  rw [run_scanOwn]
  exact scanOwn_eq env hc.stored hn hc.size hf

theorem runsAs_countUsed {file : File} (hc : Current env w tbl)
    (hn : w.set.nslots_ = tbl.length) (hf : Opened w file) : RunsAs env (countUsed env file) w := by
  refine runsAs_members_bind ?_
  split
  · refine runsAs_bind_ok (runsAs_atomically (writerStep_used hc hn 0)) rfl ?_
    have hc₀ : Current env (withUsed w 0) tbl := ⟨hc.stored, hc.size, hc.placed⟩
    have hscan : (scanOwn env file).run (withUsed w 0) = (.ok (visited tbl), withUsed w 0) :=
      scanOwn_run hc₀ hn hf
    refine runsAs_bind_ok (runsAs_readOnly (scanOwn_readOnly env file)) hscan ?_
    exact runsAs_atomically (writerStep_used hc₀ hn _)
  · exact runsAs_pure

/- The end of `grow`. -/

/-- The writer holds both mutexes. -/
structure OwnsBoth (t : Nat) (v : View World Mutex) (w : World) : Prop where
  write : v.holder .write_mutex_ = some t
  read : v.holder .read_mutex_ = some t
  state : v.state = w

theorem OwnsBoth.rely {v' : View World Mutex} (h : OwnsBoth t v w)
    (hr : Rely (Guarantee env) t v v') : OwnsBoth t v' w where
  write := (hr.holder_iff _).2 h.write
  read := (hr.holder_iff _).2 h.read
  state := (frame_rely hr h.write).trans h.state

theorem OwnsBoth.put (h : OwnsBoth t v w) (w' : World) : OwnsBoth t (v.put w') w' :=
  ⟨h.write, h.read, rfl⟩

theorem OwnsBoth.not_free (h : OwnsBoth t v w) : ¬v.holder .write_mutex_ = none := by
  rw [h.write]
  exact Option.some_ne_none t

/-- A table that can take the place of the current one lies in the side file. -/
structure Built (env : Env) (w : World) (tbl : List SHA1Hash) : Prop where
  side : ∃ j, w.disk.fs.names (tmpPath w.set.fpath_) = some j ∧ w.disk.fs.content j = contents tbl
  size : ValidSize tbl.length
  placed : WellPlaced .zero (hashOf env) tbl

theorem Built.current {tbl' : List SHA1Hash} (h : Built env w tbl') :
    Current env (withEffect w (.rename (tmpPath w.set.fpath_) w.set.fpath_)) tbl' := by
  obtain ⟨j, hj, hcontent⟩ := h.side
  exact ⟨(Stored.rename hj hcontent).1, .inr h.size, h.placed⟩

/-- The two worlds of the end of `grow`. -/
def renamed (w : World) : World := withEffect w (.rename (tmpPath w.set.fpath_) w.set.fpath_)

def published (w : World) (new_nslots : Nat) : World :=
  { renamed w with set := { w.set with nslots_ := new_nslots } }

theorem Current.published {tbl' : List SHA1Hash} (h : Current env (renamed w) tbl') (n : Nat) :
    Current env (published w n) tbl' := ⟨h.stored, h.size, h.placed⟩

/-- A change under both mutexes. -/
theorem OwnsBoth.guarantee {tbl' : List SHA1Hash} (h : OwnsBoth t v w) (hev : Evolves w w')
    (hc : Current env w tbl) (hc' : Current env w' tbl') (hmem : ∀ id ≠ .zero, id ∈ tbl → id ∈ tbl') :
    Guarantee env t v (v.put w') := by
  cases h.state
  refine ⟨fun hne => absurd h.write hne, fun hne => absurd h.read hne, hev, fun _ => ?_, fun id hid =>
    contains_of_current hc hc' hmem hid⟩
  exact ⟨⟨tbl', hc', .inr ⟨t, h.write, h.read⟩⟩, fun hnone => absurd hnone h.not_free⟩

/-- Taking and giving back `read_mutex_` with the right `nslots_`. -/
theorem guarantee_read_mutex {v' : View World Mutex}
    (hw' : v'.holder .write_mutex_ = some t) (hstate : v'.state = v.state)
    (hc : Current env v.state tbl) (hn : v.state.set.nslots_ = tbl.length) :
    Guarantee env t v v' := by
  refine guarantee_of_state hstate fun _ => ⟨⟨tbl, ?_, .inl ?_⟩, fun hnone => ?_⟩
  · rwa [hstate]
  · rwa [hstate]
  · rw [hw'] at hnone
    cases hnone

theorem runsAs_publish {tbl' : List SHA1Hash} (hc : Current env w tbl)
    (hn : w.set.nslots_ = tbl.length) (hb : Built env w tbl')
    (hmem : ∀ id ≠ .zero, id ∈ tbl → id ∈ tbl') :
    RunsAs env (publish w.set.fpath_ tbl'.length) w := by
  obtain ⟨j, hj, -⟩ := hb.side
  have hmv : onDisk (FileUtil.mv (tmpPath w.set.fpath_) w.set.fpath_) w = (.ok (), renamed w) :=
    onDisk_ok (mv_ok hj)
  have hset : setSlots tbl'.length (renamed w) = (.ok (), published w tbl'.length) := rfl
  intro t v Q ho hQ
  have hrun : (publish w.set.fpath_ tbl'.length).run w = (.ok (), published w tbl'.length) := by
    rw [publish, run_withLock, run_bind, run_atomically, run_atomically, Sys.bind_of_ok hmv, hset]
  rw [hrun] at hQ
  refine meets_withLock fun v₁ hr₁ hfree => ?_
  have ho₁ := ho.rely hr₁
  have hw₁ : (v₁.lock .read_mutex_ t).holder .write_mutex_ = some t :=
    (View.lock_of_ne _ (by decide) t).trans ho₁.write
  have hboth : OwnsBoth t (v₁.lock .read_mutex_ t) w := ⟨hw₁, View.lock_self .., ho₁.state⟩
  refine ⟨guarantee_read_mutex hw₁ rfl (ho₁.state.symm ▸ hc) (ho₁.state.symm ▸ hn), ?_⟩
  -- the rename
  refine meets_bind (meets_atomically fun v₂ hr₂ => ?_)
  have ho₂ := hboth.rely hr₂
  rw [ho₂.state, hmv]
  refine ⟨ho₂.guarantee (evolves_rename w) hc hb.current hmem, fun v₃ hr₃ => ?_⟩
  have ho₃ : OwnsBoth t v₃ (renamed w) := (ho₂.put _).rely hr₃
  -- `nslots_`
  refine meets_atomically fun v₄ hr₄ => ?_
  have ho₄ := ho₃.rely hr₄
  rw [ho₄.state, hset]
  refine ⟨ho₄.guarantee (evolves_members rfl) hb.current (hb.current.published _)
    (fun _ _ hid => hid), fun v₅ hr₅ v₆ hr₆ => ?_⟩
  have ho₆ : OwnsBoth t v₆ (published w tbl'.length) := (ho₄.put _).rely (hr₅.trans hr₆)
  have hw₆ : (v₆.unlock .read_mutex_).holder .write_mutex_ = some t :=
    (View.unlock_of_ne _ (by decide)).trans ho₆.write
  have hcur : Current env v₆.state tbl' := ho₆.state.symm ▸ hb.current.published _
  have hlen : v₆.state.set.nslots_ = tbl'.length := by rw [ho₆.state]; rfl
  refine ⟨ho₆.read, guarantee_read_mutex hw₆ rfl hcur hlen, fun v₇ hr₇ => ?_⟩
  have ho₇ : Owns t (v₆.unlock .read_mutex_) (published w tbl'.length) := by
    refine ⟨hw₆, ?_, ho₆.state⟩
    rw [View.unlock_self]
    exact (Option.some_ne_none t).symm
  exact hQ v₇ (ho₇.rely hr₇)

/- `grow`. -/

theorem write_header (j n : Nat) (d : Disk) :
    (⟨j, 0⟩ : File).write (header n) d = (.ok ⟨j, headerSize⟩, d.perform (.write j 0 (header n))) := by
  have hfits : (header n).length ≤ File.maxTransfer := by
    rw [length_header]
    decide
  rw [write_ok _ hfits, header_take, length_header, Nat.zero_add]

theorem growthSize_valid_of_fits (hsize : tbl = [] ∨ ValidSize tbl.length)
    (hfits : ((rehash env (growthSize tbl.length) (visited tbl)).flatMap SHA1Hash.hash).length ≤
      File.maxTransfer) : ValidSize (growthSize tbl.length) := by
  apply growthSize_valid hsize
  intro hmax
  rw [Records.length_flatMap SHA1Hash.size_eq, length_rehash, hmax] at hfits
  exact absurd hfits (by decide)

/-- The part of `grow` with the open side file. -/
theorem runsAs_fill (data : List SHA1Hash) {j : Nat} (hc : Current env w tbl)
    (hn : w.set.nslots_ = tbl.length) (hj : w.disk.fs.names (tmpPath w.set.fpath_) = some j)
    (hempty : w.disk.fs.content j = [])
    (hdata : (data.flatMap SHA1Hash.hash).length ≤ File.maxTransfer →
      ValidSize data.length ∧ WellPlaced .zero (hashOf env) data ∧
      ∀ id ≠ .zero, id ∈ tbl → id ∈ data) :
    RunsAs env (do
      let new_file ← atomically (onDisk ((⟨j, 0⟩ : File).write (header data.length)))
      let new_file ← atomically (onDisk (new_file.write (data.flatMap SHA1Hash.hash)))
      publish w.set.fpath_ data.length
      return new_file) w := by
  have hheader := onDisk_ok (write_header j data.length w.disk)
  have hc₁ := hc.write_side hj 0 (header data.length)
  refine runsAs_bind_ok (runsAs_step hheader (writerStep_write_side hc hn hj _ _)) hheader ?_
  have hstep := writerStep_write_side hc₁ hn hj headerSize
    ((data.flatMap SHA1Hash.hash).take File.maxTransfer)
  by_cases hfits : (data.flatMap SHA1Hash.hash).length ≤ File.maxTransfer
  · obtain ⟨hsize, hplaced, hmem⟩ := hdata hfits
    have hbody := onDisk_ok (w := withEffect w (.write j 0 (header data.length)))
      (write_ok ⟨j, headerSize⟩ hfits _)
    have hcontent : (withEffect (withEffect w (.write j 0 (header data.length)))
        (.write j headerSize ((data.flatMap SHA1Hash.hash).take File.maxTransfer))).disk.fs.content j =
        image data := by
      simp only [withEffect, Disk.perform, FileSystem.apply, Function.update_self, hempty]
      rw [splice_nil, splice_end (length_header _), List.take_of_length_le hfits]
      rfl
    have hne : data ≠ [] := by
      rintro rfl
      exact absurd hsize.ge (by decide)
    have hbuilt : Built env (withEffect (withEffect w (.write j 0 (header data.length)))
        (.write j headerSize ((data.flatMap SHA1Hash.hash).take File.maxTransfer))) data :=
      ⟨⟨j, hj, hcontent.trans (contents_of_ne hne).symm⟩, hsize, hplaced⟩
    refine runsAs_bind_ok (runsAs_step hbody hstep) hbody ?_
    exact runsAs_bind (runsAs_publish (hc₁.write_side hj ..) hn hbuilt hmem) fun _ _ _ => runsAs_pure
  · have hbody := onDisk_raise (w := withEffect w (.write j 0 (header data.length)))
      (write_raise ⟨j, headerSize⟩ (Nat.lt_of_not_le hfits) _)
    refine runsAs_bind (runsAs_step hbody hstep) fun a w' hrun => ?_
    cases hbody.symm.trans hrun

theorem runsAs_grow {file : File} (hc : Current env w tbl) (hn : w.set.nslots_ = tbl.length)
    (hf : Opened w file) : RunsAs env (grow env file) w := by
  refine runsAs_members_bind ?_
  refine runsAs_bind_ok (runsAs_readOnly (scanOwn_readOnly env file)) (scanOwn_run hc hn hf) ?_
  have hopen : onDisk (File.openFile (tmpPath w.set.fpath_)
      { createOrOpen := true, write := true, read := true, truncate := true }) w =
      (.ok ⟨sideInode w.disk.fs (tmpPath w.set.fpath_), 0⟩,
        withEffect w (sideEffect w.disk.fs (tmpPath w.set.fpath_))) := onDisk_ok (openFile_side _ _)
  refine runsAs_bind_ok (runsAs_step hopen
    (writerStep_of_current (evolves_side w) hn rfl hc hc.side)) hopen ?_
  have hfill := runsAs_fill (rehash env (growthSize tbl.length) (visited tbl)) hc.side hn
    (names_side ..) (content_side ..) fun hfits => ?_
  · rw [length_rehash] at hfill
    rw [hn]
    exact hfill
  · have hvalid := growthSize_valid_of_fits hc.size hfits
    exact ⟨by rwa [length_rehash], (rehash_visited env hc.size).1,
      fun id hid hin => (mem_rehash_visited env hc.size hid).2 hin⟩

theorem runsAs_ensureRoom {file : File} (hc : Current env w tbl)
    (hn : w.set.nslots_ = tbl.length) (hf : Opened w file) : RunsAs env (ensureRoom env file) w := by
  refine runsAs_members_bind ?_
  split
  · exact runsAs_grow hc hn hf
  · exact runsAs_pure

/- `insert`. -/

theorem Current.slot {file : File} {id : SHA1Hash} {idx : Nat} (hc : Current env w tbl)
    (hf : Opened w file) (hslot : Slot env tbl id idx) :
    Current env (withEffect w (.write file.inode (headerSize+idx*SHA1Hash.kSize) id.hash))
      (tbl.set idx id) where
  stored := hc.stored.write_slot hf hslot.lt id
  size := by
    cases hc.size with
    | inl hnil =>
      have hlt := hslot.lt
      rw [hnil] at hlt
      cases hlt
    | inr hsize =>
      rw [List.length_set]
      exact .inr hsize
  placed := hslot.placed

theorem runsAs_writeSlot {file : File} {id : SHA1Hash} {idx : Nat} (hc : Current env w tbl)
    (hn : w.set.nslots_ = tbl.length) (hf : Opened w file) (hsize : ValidSize tbl.length)
    (hslot : Slot env tbl id idx) : RunsAs env (writeSlot file id idx) w := by
  have hlt := hslot.lt
  have hle := hsize.le
  have hseek : file.seekTo (headerSize+idx*SHA1Hash.kSize) =
      .ok { file with pos := headerSize+idx*SHA1Hash.kSize } :=
    seekTo_eq file (by simp only [headerSize, SHA1Hash.kSize]; omega)
  have hfits : id.hash.length ≤ File.maxTransfer := by
    rw [id.size_eq]
    decide
  have hwrite := onDisk_ok (write_ok { file with pos := headerSize+idx*SHA1Hash.kSize } hfits w.disk)
  rw [List.take_of_length_le hfits] at hwrite
  have hc' := hc.slot hf hslot
  have hgrows : Grows .zero tbl (tbl.set idx id) := Probing.grows_set hslot.empty
  have hn' : w.set.nslots_ = (tbl.set idx id).length := by rwa [List.length_set]
  have hstep : WriterStep env w
      (withEffect w (.write file.inode (headerSize+idx*SHA1Hash.kSize) id.hash)) :=
    ⟨evolves_slot (hc.stored.holds hf hsize) hlt hslot.empty id, rfl, tbl, tbl.set idx id, hc, hc',
      hn', fun _ hid hin => hgrows.mem hid hin⟩
  refine runsAs_bind_ok runsAs_ofResult (congrArg (·, w) hseek) ?_
  refine runsAs_bind_ok (runsAs_step hwrite hstep) hwrite (runsAs_members_bind ?_)
  exact runsAs_bind (runsAs_atomically (writerStep_used hc' hn' _)) fun _ _ _ => runsAs_pure

theorem runsAs_insert {file : File} (h : Good env w tbl) (hf : Opened w file) (id : SHA1Hash) :
    RunsAs env (insert env file id) w := by
  have hc := current_of_good h
  have hcount : (countUsed env file).run w = (.ok (), withUsed w (counted w.set.nslots_used_ tbl)) := by
    rw [run_countUsed]
    exact countUsed_eq h hf
  have hc₁ : Current env (withUsed w (counted w.set.nslots_used_ tbl)) tbl :=
    ⟨hc.stored, hc.size, hc.placed⟩
  refine runsAs_bind_ok (runsAs_countUsed hc h.nslots_eq hf) hcount ?_
  by_cases hb : Blocked (counted w.set.nslots_used_ tbl) tbl
  · refine runsAs_bind (runsAs_ensureRoom hc₁ h.nslots_eq hf) fun file' w' hrun => ?_
    rw [run_ensureRoom, (ensureRoom_raise h hf hb).1] at hrun
    cases hrun
  · obtain ⟨file', hroom, hopen, hstored⟩ := ensureRoom_ok h hf hb
    obtain ⟨hsize, hplaced, hnum⟩ := h.room hb
    have hc₂ : Current env (roomWorld env w tbl) (roomTable env (counted w.set.nslots_used_ tbl) tbl) :=
      ⟨hstored, .inr hsize, hplaced⟩
    rw [← run_ensureRoom] at hroom
    refine runsAs_bind_ok (runsAs_ensureRoom hc₁ h.nslots_eq hf) hroom ?_
    refine runsAs_bind (runsAs_readOnly (lookupOwn_readOnly env file' id)) fun found w₃ hrun => ?_
    rw [run_lookupOwn] at hrun
    cases lookup_room (hstored.holds hopen hsize) hplaced hnum.not_full id with
    | inl hyes =>
      cases (congrArg (·, roomWorld env w tbl) hyes.2).symm.trans hrun
      exact runsAs_pure
    | inr hno =>
      obtain ⟨-, -, idx, hslot, hlookup⟩ := hno
      cases (congrArg (·, roomWorld env w tbl) hlookup).symm.trans hrun
      exact runsAs_bind (runsAs_writeSlot hc₂ rfl hopen hsize hslot) fun _ _ _ => runsAs_pure

theorem runsAs_insertAll {file : File} (h : Good env w tbl) (hf : Opened w file)
    (ids : List SHA1Hash) : RunsAs env (insertAll env file ids) w := by
  induction ids generalizing w tbl file with
  | nil => exact runsAs_pure
  | cons id ids ih =>
    refine runsAs_bind (runsAs_insert h hf id) fun r w' hrun => ?_
    rw [run_insert] at hrun
    cases insert_spec h hf id with
    | inl hblocked =>
      obtain ⟨-, w₁, heq, -⟩ := hblocked
      cases heq.symm.trans hrun
    | inr hok =>
      obtain ⟨-, file', w₁, tbl', heq, hf', hgood, -⟩ := hok
      cases heq.symm.trans hrun
      exact runsAs_bind (ih hgood hf') fun _ _ _ => runsAs_pure

/- The calls. -/

theorem runsAs_openForWrite (h : Good env w tbl) : RunsAs env (atomically openForWrite) w := by
  obtain ⟨file, hopen, -, hgood⟩ := openForWrite_eq h
  refine runsAs_step hopen (writerStep_of_current ?_ h.nslots_eq rfl (current_of_good h)
    (current_of_good hgood))
  unfold openWorld openEffects
  split
  · exact .refl w
  · exact evolves_create w

theorem inv_rely {v' : View World Mutex} (h : Rely (Guarantee env) t v v') (hI : Inv env v) :
    Inv env v' := by
  refine h.keeps hI ?_
  rintro v₁ v₂ ⟨u, -, hg, -⟩ hI₁
  exact hg.inv hI₁

theorem contains_rely {v' : View World Mutex} {id : SHA1Hash} (h : Rely (Guarantee env) t v v')
    (hid : id ≠ .zero) (hc : Contains env v.state id) : Contains env v'.state id := by
  refine h.keeps (P := fun v => Contains env v.state id) hc ?_
  rintro v₁ v₂ ⟨u, -, hg, -⟩ hc₁
  exact hg.contains id hid hc₁

/-- A call that runs under `write_mutex_`. -/
theorem meets_write_mutex {body : Call α} {Q : Result α → View World Mutex → Prop}
    (hI : Inv env v) (hidle : v.Idle t)
    (hbody : ∀ w tbl, Good env w tbl →
      RunsAs env body w ∧ ∃ tbl', Good env (body.run w).2 tbl')
    (hQ : ∀ w tbl v', Good env w tbl → v'.state = (body.run w).2 →
      ∀ v'', Rely (Guarantee env) t v' v'' → Q (body.run w).1 v'') :
    Meets env t Q (withLock .write_mutex_ body) v := by
  refine meets_withLock fun v₁ hr₁ hfree => ?_
  obtain ⟨tbl, hg⟩ := (inv_rely hr₁ hI).good hfree
  obtain ⟨hruns, tbl', hg'⟩ := hbody v₁.state tbl hg
  have ho : Owns t (v₁.lock .write_mutex_ t) v₁.state := by
    refine ⟨View.lock_self .., fun hread => ?_, rfl⟩
    rw [View.lock_of_ne _ (by decide)] at hread
    exact hidle _ ((hr₁.holder_iff _).1 hread)
  refine ⟨guarantee_of_state rfl fun _ => ⟨⟨tbl, current_of_good hg, .inl hg.nslots_eq⟩, ?_⟩, ?_⟩
  · intro hnone
    rw [View.lock_self] at hnone
    cases hnone
  · refine hruns t _ _ ho fun v₂ ho₂ v₃ hr₃ => ?_
    have ho₃ := ho₂.rely hr₃
    have hg₃ : Good env (v₃.unlock .write_mutex_).state tbl' := ho₃.state.symm ▸ hg'
    refine ⟨ho₃.write, guarantee_of_state rfl fun _ => ?_, hQ v₁.state tbl _ hg ho₃.state⟩
    exact ⟨⟨tbl', current_of_good hg₃, .inl hg₃.nslots_eq⟩, fun _ => ⟨tbl', hg₃⟩⟩

/-- What the caller knows when an id has been added. -/
theorem contains_of_adds {tbl' ids : List SHA1Hash} {id : SHA1Hash} (h : Good env w tbl')
    (hadds : Adds tbl tbl' ids) (hmem : id ∈ ids) (hid : id ≠ .zero) : Contains env w id :=
  ⟨tbl', current_of_good h, (hadds id hid).2 (.inl hmem)⟩

theorem meets_addRecordID (hI : Inv env v) (hidle : v.Idle t) (id : SHA1Hash) :
    Meets env t (fun r v => (∃ b, r = .ok b) → id ≠ .zero → Contains env v.state id)
      (addRecordID env id) v := by
  have hrun : ∀ w, (do
      let file ← atomically openForWrite
      let r ← insert env file id
      return r.2 : Call Bool).run w = PersistentHashSet.addRecordID env id w := by
    intro w
    rw [← run_addRecordID, addRecordID, run_withLock]
  refine meets_write_mutex hI hidle (fun w tbl hg => ⟨?_, ?_⟩) fun w tbl v' hg hstate v'' hr => ?_
  · obtain ⟨file, hopen, hf, hgood⟩ := openForWrite_eq hg
    refine runsAs_bind_ok (runsAs_openForWrite hg) hopen ?_
    exact runsAs_bind (runsAs_insert hgood hf id) fun _ _ _ => runsAs_pure
  · rw [hrun]
    cases addRecordID_spec hg id with
    | inl hblocked =>
      obtain ⟨-, w', heq, hgood⟩ := hblocked
      exact ⟨tbl, by rwa [heq]⟩
    | inr hok =>
      obtain ⟨-, w', tbl', heq, hgood, -⟩ := hok
      exact ⟨tbl', by rwa [heq]⟩
  · rw [hrun] at hstate ⊢
    rintro ⟨b, hb⟩ hid
    cases addRecordID_spec hg id with
    | inl hblocked =>
      obtain ⟨-, w', heq, -⟩ := hblocked
      rw [heq] at hb
      cases hb
    | inr hok =>
      obtain ⟨-, w', tbl', heq, hgood, hadds⟩ := hok
      rw [heq] at hstate
      apply contains_rely hr hid
      rw [hstate]
      exact contains_of_adds hgood hadds List.mem_cons_self hid

theorem meets_addRecordIDs (hI : Inv env v) (hidle : v.Idle t) (ids : List SHA1Hash) :
    Meets env t (fun r v => (∃ l, r = .ok l) → ∀ id ∈ ids, id ≠ .zero → Contains env v.state id)
      (addRecordIDs env ids) v := by
  have hrun : ∀ w, (do
      let file ← atomically openForWrite
      insertAll env file ids : Call (List SHA1Hash)).run w =
      PersistentHashSet.addRecordIDs env ids w := by
    intro w
    rw [← run_addRecordIDs, addRecordIDs, run_withLock]
  refine meets_write_mutex hI hidle (fun w tbl hg => ⟨?_, ?_⟩) fun w tbl v' hg hstate v'' hr => ?_
  · obtain ⟨file, hopen, hf, hgood⟩ := openForWrite_eq hg
    exact runsAs_bind_ok (runsAs_openForWrite hg) hopen (runsAs_insertAll hgood hf ids)
  · rw [hrun]
    cases addRecordIDs_spec hg ids with
    | inl hblocked =>
      obtain ⟨-, w', tbl', heq, hgood⟩ := hblocked
      exact ⟨tbl', by rwa [heq]⟩
    | inr hok =>
      obtain ⟨-, left, w', tbl', heq, hgood, -⟩ := hok
      exact ⟨tbl', by rwa [heq]⟩
  · rw [hrun] at hstate ⊢
    rintro ⟨l, hl⟩ id hmem hid
    cases addRecordIDs_spec hg ids with
    | inl hblocked =>
      obtain ⟨-, w', tbl', heq, -⟩ := hblocked
      rw [heq] at hl
      cases hl
    | inr hok =>
      obtain ⟨-, left, w', tbl', heq, hgood, hadds, -⟩ := hok
      rw [heq] at hstate
      apply contains_rely hr hid
      rw [hstate]
      exact contains_of_adds hgood hadds hmem hid

end Stx.PersistentHashSet.Concurrent
