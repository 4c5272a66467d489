import Stx.Util.PersistentHashSet.Writer

/-! The readers, and what readers and writers agree on in every interleaving. A reader
searches a table that writers may add to or replace meanwhile; slots are never emptied,
so a search for an id that was there when it began does not stop before it. -/
namespace Stx.PersistentHashSet.Concurrent
open Threads (View wp Rely Prog)
open Probing (slot keys occupied Path Findable WellPlaced Grows)
open Call
variable {α β : Type} {env : Env} {t : Nat} {v v' : View World Mutex}

/- The captured pair. -/

structure Reading (t : Nat) (v : View World Mutex) : Prop where
  read : v.holder .read_mutex_ = some t
  write : v.holder .write_mutex_ ≠ some t

theorem Reading.rely (h : Reading t v) (hr : Rely (Guarantee env) t v v') : Reading t v' where
  read := (hr.holder_iff _).2 h.read
  write := fun hwrite => h.write ((hr.holder_iff _).1 hwrite)

/-- Nobody sets `nslots_` while a reader holds `read_mutex_`. -/
theorem Reading.nslots_eq (h : Reading t v) (hr : Rely (Guarantee env) t v v') :
    v'.state.set.nslots_ = v.state.set.nslots_ := by
  refine (hr.keeps (P := fun v₁ => v₁.state.set.nslots_ = v.state.set.nslots_ ∧
    v₁.holder .read_mutex_ = some t) ⟨rfl, h.read⟩ ?_).1
  rintro v₁ v₂ ⟨u, hu, hg, hlocks⟩ ⟨hslots, hread⟩
  have hne : v₁.holder .read_mutex_ ≠ some u := by
    rw [hread]
    exact fun heq => hu (Option.some.inj heq).symm
  exact ⟨(hg.nslots hne).trans hslots, (hlocks _).2 hread⟩

theorem Inv.of_not_renaming (hI : Inv env v) (h : ¬Renaming v) :
    ∃ tbl, Current env v.state tbl ∧ v.state.set.nslots_ = tbl.length := by
  obtain ⟨tbl, hc, hn⟩ := hI.current
  exact ⟨tbl, hc, hn.resolve_right h⟩

theorem Reading.not_renaming (h : Reading t v) : ¬Renaming v := by
  rintro ⟨u, hwrite, hread⟩
  rw [h.read] at hread
  cases hread
  exact h.write hwrite

theorem guarantee_lock_read (hfree : v.holder .read_mutex_ = none) :
    Guarantee env t v (v.lock .read_mutex_ t) := by
  refine guarantee_of_state rfl fun hI => ?_
  have hnot : ¬Renaming v := by
    rintro ⟨u, -, hread⟩
    rw [hfree] at hread
    cases hread
  obtain ⟨tbl, hc, hn⟩ := hI.of_not_renaming hnot
  refine ⟨⟨tbl, hc, .inl hn⟩, fun hnone => hI.good ?_⟩
  rwa [View.lock_of_ne _ (by decide)] at hnone

theorem Reading.guarantee_unlock (h : Reading t v) :
    Guarantee env t v (v.unlock .read_mutex_) := by
  refine guarantee_of_state rfl fun hI => ?_
  obtain ⟨tbl, hc, hn⟩ := hI.of_not_renaming h.not_renaming
  refine ⟨⟨tbl, hc, .inl hn⟩, fun hnone => hI.good ?_⟩
  rwa [View.unlock_of_ne _ (by decide)] at hnone

/-- A captured pair. If the search is `late`, the id can be found in that file. -/
def Captured (env : Env) (late : Prop) (id : SHA1Hash) (nslots : Nat) (file : File)
    (v : View World Mutex) : Prop :=
  Public v.state file.inode ∧ ∃ tbl, Holds v.state.disk.fs file.inode tbl ∧ tbl.length = nslots ∧
    (late → id ≠ .zero ∧ Findable .zero (hashOf env) tbl id)

/-- The file of a reader while the others go on. -/
theorem holds_rely {i : Nat} {tbl : List SHA1Hash} (hr : Rely (Guarantee env) t v v')
    (hp : Public v.state i) (hh : Holds v.state.disk.fs i tbl) :
    Public v'.state i ∧ ∃ tbl', Holds v'.state.disk.fs i tbl' ∧ Grows .zero tbl tbl' := by
  refine hr.keeps (P := fun v => Public v.state i ∧
    ∃ tbl', Holds v.state.disk.fs i tbl' ∧ Grows .zero tbl tbl') ⟨hp, tbl, hh, .refl tbl⟩ ?_
  rintro v₁ v₂ ⟨u, -, hg, -⟩ ⟨hp₁, tbl₁, hh₁, hg₁⟩
  obtain ⟨hp₂, hgrow⟩ := hg.evolves i hp₁
  obtain ⟨tbl₂, hh₂, hg₂⟩ := hgrow tbl₁ hh₁
  exact ⟨hp₂, tbl₂, hh₂, hg₁.trans hg₂⟩

variable {late : Prop} {id : SHA1Hash} {nslots : Nat} {file : File}

theorem Captured.rely (h : Captured env late id nslots file v)
    (hr : Rely (Guarantee env) t v v') : Captured env late id nslots file v' := by
  obtain ⟨hp, tbl, hh, hlen, hfind⟩ := h
  obtain ⟨hp', tbl', hh', hg⟩ := holds_rely hr hp hh
  exact ⟨hp', tbl', hh', hg.length_eq.trans hlen,
    fun hl => ⟨(hfind hl).1, hg.findable (hfind hl).1 (hfind hl).2⟩⟩

theorem Captured.noted (h : Captured env late id nslots file v) : Noted (nslots, file) v := by
  obtain ⟨hp, tbl, hh, hlen, -⟩ := h
  exact ⟨hp, tbl, hh, hlen⟩

/-- Opening the current file while `nslots_` cannot change. -/
theorem Reading.captured (h : Reading t v) (hI : Inv env v) (hne : v.state.set.nslots_ ≠ 0)
    (hlate : late → id ≠ .zero ∧ Contains env v.state id) :
    ∃ file, openForRead v.state = (.ok file, v.state) ∧
      Captured env late id v.state.set.nslots_ file v := by
  obtain ⟨tbl, hc, hn⟩ := hI.of_not_renaming h.not_renaming
  have hnil : tbl ≠ [] := by
    rintro rfl
    exact hne hn
  have hsize := hc.size.resolve_left hnil
  obtain ⟨i, hi⟩ := hc.stored.exists_of_ne hnil
  refine ⟨⟨i, 0⟩, openForRead_eq hi, ⟨v.state.disk.fs.names_lt _ _ hi, hc.stored.tmp_ne i hi⟩, tbl,
    hc.stored.holds hi hsize, hn.symm, fun hl => ?_⟩
  obtain ⟨hid, tbl₁, hc₁, hmem⟩ := hlate hl
  cases stored_unique hc₁.stored hc.stored
  exact ⟨hid, hc.placed.findable hid hmem⟩

theorem meets_capture (late : Prop) (id : SHA1Hash)
    {Q : Result (Option (Nat × File)) → View World Mutex → Prop} (hI : Inv env v)
    (hidle : v.Idle t) (hlate : late → id ≠ .zero ∧ Contains env v.state id)
    (hnone : ¬late → ∀ v', Q (.ok none) v')
    (hsome : ∀ v' nslots file, Captured env late id nslots file v' →
      Q (.ok (some (nslots, file))) v') : Meets env t Q capture v := by
  refine meets_withLock fun v₁ hr₁ hfree => ⟨guarantee_lock_read hfree, ?_⟩
  have hI₁ : Inv env (v₁.lock .read_mutex_ t) := (guarantee_lock_read hfree).inv (inv_rely hr₁ hI)
  have hreading : Reading t (v₁.lock .read_mutex_ t) := by
    refine ⟨View.lock_self .., fun hwrite => ?_⟩
    rw [View.lock_of_ne _ (by decide)] at hwrite
    exact hidle _ ((hr₁.holder_iff _).1 hwrite)
  have hlate₁ : late → id ≠ .zero ∧ Contains env v₁.state id :=
    fun hl => ⟨(hlate hl).1, contains_rely hr₁ (hlate hl).1 (hlate hl).2⟩
  -- `nslots_`
  refine meets_bind (meets_atomically fun v₂ hr₂ => ⟨guarantee_refl env t v₂, fun v₃ hr₃ => ?_⟩)
  have hr₂₃ := hr₂.trans hr₃
  have hreading₃ := hreading.rely hr₂₃
  have hI₃ := inv_rely hr₂₃ hI₁
  have hlate₃ : late → id ≠ .zero ∧ Contains env v₃.state id :=
    fun hl => ⟨(hlate₁ hl).1, contains_rely hr₂₃ (hlate₁ hl).1 (hlate₁ hl).2⟩
  have hslots : v₃.state.set.nslots_ = v₂.state.set.nslots_ := (hreading.rely hr₂).nslots_eq hr₃
  change Meets env t _ (if v₂.state.set.nslots_ = 0 then pure none
    else atomically openForRead >>= fun file => pure (some (v₂.state.set.nslots_, file))) v₃
  rw [← hslots]
  by_cases hzero : v₃.state.set.nslots_ = 0
  · rw [if_pos hzero]
    intro v₄ hr₄ v₅ hr₅
    have hreading₅ := hreading₃.rely (hr₄.trans hr₅)
    refine ⟨hreading₅.read, hreading₅.guarantee_unlock, fun v₆ _ => hnone (fun hl => ?_) v₆⟩
    obtain ⟨tbl, hc, hmem⟩ := (hlate₃ hl).2
    obtain ⟨tbl₁, hc₁, hn⟩ := hI₃.of_not_renaming hreading₃.not_renaming
    cases stored_unique hc₁.stored hc.stored
    rw [hzero] at hn
    cases List.length_eq_zero_iff.1 hn.symm
    cases hmem
  · rw [if_neg hzero]
    -- the current file
    refine meets_bind (meets_atomically fun v₄ hr₄ => ?_)
    have hreading₄ := hreading₃.rely hr₄
    have hslots₄ := hreading₃.nslots_eq hr₄
    obtain ⟨file, hopen, hcapt⟩ := hreading₄.captured (inv_rely hr₄ hI₃) (by rwa [hslots₄])
      fun hl => ⟨(hlate₃ hl).1, contains_rely hr₄ (hlate₃ hl).1 (hlate₃ hl).2⟩
    rw [hopen, hslots₄] at *
    refine ⟨guarantee_refl env t v₄, fun v₅ hr₅ v₆ hr₆ v₇ hr₇ => ?_⟩
    have hr₄₇ := (Rely.trans hr₅ hr₆).trans hr₇
    have hreading₇ := hreading₄.rely hr₄₇
    refine ⟨hreading₇.read, hreading₇.guarantee_unlock, fun v₈ hr₈ => hsome v₈ _ file ?_⟩
    have hcapt₇ : Captured env late id v₃.state.set.nslots_ file v₇ := hcapt.rely hr₄₇
    exact Captured.rely (v := v₇.unlock .read_mutex_) hcapt₇ hr₈

/- The search. -/

/-- The variables of a search that began on the table `tbl₀`. If it is `late`, the id was
at the distance `d` then, which the search has not passed yet. -/
def Searching (env : Env) (late : Prop) (id : SHA1Hash) (nslots : Nat) (p : Probe)
    (v : View World Mutex) : Prop :=
  ∃ tbl₀ tbl, Public v.state p.file.inode ∧ Holds v.state.disk.fs p.file.inode tbl ∧
    tbl.length = nslots ∧ Grows .zero tbl₀ tbl ∧ p.Sound p.file.inode tbl₀ tbl ∧
    (late → id ≠ .zero ∧ ∃ d < nslots, p.i ≤ d ∧ slot .zero tbl₀ (hashOf env id) d = id ∧
      Path .zero tbl₀ (hashOf env id) d)

theorem Captured.searching (h : Captured env late id nslots file v) :
    Searching env late id nslots (.new env file) v := by
  obtain ⟨hp, tbl, hh, hlen, hlate⟩ := h
  refine ⟨tbl, tbl, hp, hh, hlen, .refl tbl, Probe.sound_new env file tbl tbl, fun hl => ?_⟩
  obtain ⟨hid, d, hd, hslot, hpath⟩ := hlate hl
  exact ⟨hid, d, by rwa [← hlen], Nat.zero_le d, hslot, hpath⟩

theorem Searching.rely {p : Probe} (h : Searching env late id nslots p v)
    (hr : Rely (Guarantee env) t v v') : Searching env late id nslots p v' := by
  obtain ⟨tbl₀, tbl, hp, hh, hlen, hg, hsound, hlate⟩ := h
  obtain ⟨hp', tbl', hh', hg'⟩ := holds_rely hr hp hh
  exact ⟨tbl₀, tbl', hp', hh', hg'.length_eq.trans hlen, hg.trans hg', hsound.mono hg', hlate⟩

/-- One pass: a late search finds the id or goes on. -/
theorem Searching.step {p : Probe} (h : Searching env late id nslots p v) :
    lookupStep env v.state.disk.fs nslots id p = .ok (.inl .yes) ∨
    (¬late ∧ ∃ idx, lookupStep env v.state.disk.fs nslots id p = .ok (.inl (.no idx))) ∨
    ∃ p', lookupStep env v.state.disk.fs nslots id p = .ok (.inr p') ∧ p'.i = p.i+1 ∧
      Searching env late id nslots p' v := by
  obtain ⟨tbl₀, tbl, hp, hh, rfl, hg, hsound, hlate⟩ := h
  obtain ⟨s, p', hbetween, hsound', hi, hstep⟩ := lookupStep_eq env hh.readable hg hsound id
  rw [hstep]
  -- the slot at distance `p.i` of the table at the start
  have hslot : slot .zero tbl₀ (hashOf env id) p.i ≠ .zero →
      s = slot .zero tbl₀ (hashOf env id) p.i := by
    intro hne
    rw [slot, ← hg.length_eq] at hne ⊢
    exact hbetween.1 hne
  by_cases hs : s = id
  · rw [if_pos hs]
    exact .inl rfl
  · rw [if_neg hs]
    by_cases hzero : s = .zero
    · rw [if_pos hzero]
      refine .inr (.inl ⟨fun hl => ?_, _, rfl⟩)
      obtain ⟨hid, d, -, hle, hd, hpath⟩ := hlate hl
      cases Nat.lt_or_eq_of_le hle with
      | inl hlt => exact hpath p.i hlt ((hslot (hpath p.i hlt)).symm.trans hzero)
      | inr heq =>
        rw [← heq] at hd
        rw [hd] at hslot
        exact hs (hslot hid)
    · rw [if_neg hzero]
      have hinode : p'.file.inode = p.file.inode := hsound'.inode_eq
      refine .inr (.inr ⟨p', rfl, hi, tbl₀, tbl, ?_, ?_, rfl, hg, ?_, fun hl => ?_⟩)
      · rwa [hinode]
      · rwa [hinode]
      · rwa [hinode]
      · obtain ⟨hid, d, hd, hle, hd', hpath⟩ := hlate hl
        refine ⟨hid, d, hd, ?_, hd', hpath⟩
        rw [hi]
        apply Nat.lt_of_le_of_ne hle
        intro heq
        rw [← heq] at hd'
        rw [hd'] at hslot
        exact hs (hslot hid)

/-- The loop: a late search ends at the id. -/
theorem meets_lookupLoop (fuel : Nat) {p : Probe} (h : Searching env late id nslots p v)
    (hfuel : p.i+fuel = nslots) :
    Meets env t (fun r _ => late → r = .ok .yes) (lookupLoop env nslots id fuel p) v := by
  induction fuel generalizing p v with
  | zero =>
    intro v' hr hl
    obtain ⟨tbl₀, tbl, -, -, -, -, -, hlate⟩ := h
    obtain ⟨-, d, hd, hle, -⟩ := hlate hl
    omega
  | succ fuel ih =>
    refine meets_bind (meets_atomically fun v₁ hr₁ => ⟨guarantee_refl env t v₁, fun v₂ hr₂ => ?_⟩)
    have hsearch := h.rely hr₁
    rw [Sys.reads_apply]
    cases hsearch.step with
    | inl hyes =>
      rw [hyes]
      exact fun _ _ _ => rfl
    | inr hrest =>
      cases hrest with
      | inl hno =>
        obtain ⟨hl, idx, hno⟩ := hno
        rw [hno]
        exact fun _ _ hl' => absurd hl' hl
      | inr hnext =>
        obtain ⟨p', hnext, hi, hsearch'⟩ := hnext
        rw [hnext]
        exact ih (hsearch'.rely hr₂) (by omega)

theorem meets_lookup (h : Captured env late id nslots file v) :
    Meets env t (fun r _ => late → r = .ok .yes) (lookup env file nslots id) v :=
  meets_lookupLoop nslots h.searching (Nat.zero_add nslots)

theorem meets_note {Q : Result α → View World Mutex → Prop} {x : Call α}
    (h : Captured env late id nslots file v)
    (hx : ∀ v', Captured env late id nslots file v' → Meets env t Q x v') :
    Meets env t Q (note (nslots, file) >>= fun _ => x) v := by
  refine meets_bind fun v₁ hr₁ => ⟨(h.rely hr₁).noted, fun v₂ hr₂ => ?_⟩
  exact hx v₂ (h.rely (hr₁.trans hr₂))

theorem meets_hasRecordID (late : Prop) (hI : Inv env v) (hidle : v.Idle t)
    (hlate : late → id ≠ .zero ∧ Contains env v.state id) :
    Meets env t (fun r _ => late → r = .ok true) (hasRecordID env id) v := by
  refine meets_bind (meets_capture late id hI hidle hlate ?_ ?_)
  · intro hl v₁ v₂ _ hl'
    exact absurd hl' hl
  · intro v₁ nslots file hcapt
    refine meets_note hcapt fun v₂ hcapt₂ => meets_bind ?_
    refine Threads.wp.mono (meets_lookup hcapt₂) fun r v₃ hr => ?_
    cases r with
    | ok found =>
      cases found with
      | yes => exact fun _ _ _ => rfl
      | no idx => exact fun _ _ hl => absurd (hr hl) (by simp)
    | raise e => exact fun _ _ hl => absurd (hr hl) (by simp)
    | diverge => exact fun _ _ hl => absurd (hr hl) (by simp)

theorem meets_fetchRecordIDs (hI : Inv env v) (hidle : v.Idle t) :
    Meets env t (fun _ _ => True) (fetchRecordIDs env) v := by
  refine meets_bind (meets_capture False .zero hI hidle False.elim ?_ ?_)
  · exact fun _ _ _ _ => trivial
  · intro v₁ nslots file hcapt
    refine meets_note hcapt fun v₂ _ => meets_bind ?_
    refine Threads.wp_of_readOnly_any (scan_readOnly env file nslots) (guarantee_refl env t) ?_
    intro r v₃ _
    cases r with
    | ok ids => exact fun _ _ => trivial
    | raise e => exact fun _ _ => trivial
    | diverge => exact fun _ _ => trivial

/- The system. -/

/-- What holds from the return of a call on. -/
def post (env : Env) : Request → Result Answer → View World Mutex → Prop
  | .addRecordID id, r, v => (∃ a, r = .ok a) → id ≠ .zero → Contains env v.state id
  | .addRecordIDs ids, r, v => (∃ a, r = .ok a) → ∀ id ∈ ids, id ≠ .zero → Contains env v.state id
  | .hasRecordID _, _, _ => True
  | .fetchRecordIDs, _, _ => True

/-- A call with its answer. -/
theorem meets_answer {x : Call α} {f : α → β} {Q : Result α → View World Mutex → Prop}
    {Q' : Result β → View World Mutex → Prop} (h : Meets env t Q x v)
    (hQ : ∀ r v v', Q r v → Rely (Guarantee env) t v v' → Q' (r >>= fun a => pure (f a)) v') :
    Meets env t Q' (x >>= fun a => pure (f a)) v := by
  refine meets_bind (Threads.wp.mono h fun r v₁ hr => ?_)
  cases r with
  | ok a => exact fun v₂ hr₂ => hQ _ v₁ v₂ hr hr₂
  | raise e => exact fun v₂ hr₂ => hQ _ v₁ v₂ hr hr₂
  | diverge => exact fun v₂ hr₂ => hQ _ v₁ v₂ hr hr₂

theorem meets_late (id : SHA1Hash) (hI : Inv env v) (hidle : v.Idle t) (hid : id ≠ .zero)
    (hc : Contains env v.state id) :
    Meets env t (fun r _ => r = .ok (.flag true)) (code env (.hasRecordID id)) v := by
  refine meets_answer (meets_hasRecordID True hI hidle fun _ => ⟨hid, hc⟩) ?_
  intro r v₁ v₂ hr _
  rw [hr trivial]
  rfl

theorem contract (env : Env) :
    Threads.Contract (code env) (Guarantee env) Noted (Inv env) (post env) where
  keeps _ _ _ hg := hg.inv
  noted _ _ _ _ hg := hg.noted
  meets t c v hI hidle := by
    cases c with
    | addRecordID id =>
      refine meets_answer (meets_addRecordID hI hidle id) fun r v₁ v₂ hadd hr hok hid => ?_
      obtain ⟨a, ha⟩ := hok
      obtain ⟨b, hb, -⟩ := Result.bind_eq_ok ha
      exact contains_rely hr hid (hadd ⟨b, hb⟩ hid)
    | addRecordIDs ids =>
      refine meets_answer (meets_addRecordIDs hI hidle ids) fun r v₁ v₂ hadd hr hok id hmem hid => ?_
      obtain ⟨a, ha⟩ := hok
      obtain ⟨l, hl, -⟩ := Result.bind_eq_ok ha
      exact contains_rely hr hid (hadd ⟨l, hl⟩ id hmem hid)
    | hasRecordID id =>
      exact meets_answer (meets_hasRecordID False hI hidle False.elim) fun _ _ _ _ _ => trivial
    | fetchRecordIDs => exact meets_answer (meets_fetchRecordIDs hI hidle) fun _ _ _ _ _ => trivial

theorem safe_of_reaches {w : World} {p : Pool} (hw : Reachable env w) (hp : Reaches env w p) :
    p.Safe (Guarantee env) Noted (Inv env) (post env) := by
  obtain ⟨tbl, hg⟩ := hw.good
  refine (contract env).run (.init ?_) hp
  exact ⟨⟨tbl, current_of_good hg, .inl hg.nslots_eq⟩, fun _ => ⟨tbl, hg⟩⟩

/-- The id was given to a call of `addRecordID`, or of `addRecordIDs`, that has returned. -/
def Added (p : Pool) (id : SHA1Hash) : Prop :=
  ∃ t a, p.Returned t (.addRecordID id) (.ok a) ∨
    ∃ ids, id ∈ ids ∧ p.Returned t (.addRecordIDs ids) (.ok a)

theorem Added.contains {p : Pool} {id : SHA1Hash} (h : Added p id) (hid : id ≠ .zero)
    (hp : p.Safe (Guarantee env) Noted (Inv env) (post env)) : Contains env p.view.state id := by
  obtain ⟨t, a, h⟩ := h
  cases h with
  | inl hret => exact hp.threads t _ _ hret p.view (.refl _) ⟨a, rfl⟩ hid
  | inr hrets =>
    obtain ⟨ids, hmem, hret⟩ := hrets
    exact hp.threads t _ _ hret p.view (.refl _) ⟨a, rfl⟩ id hmem hid

/-- In every interleaving, a captured file always has the size for the captured `nslots`.
A lookup of an id that begins after the id was added can only return `true`; whatever the
other calls have done meanwhile, it can be run to its end. -/
theorem readers_agree (env : Env) (w : World) (hw : Reachable env w) (p : Pool)
    (hp : Reaches env w p) :
    (∀ t nslots file, (t, nslots, file) ∈ p.notes →
      file.size p.view.state.disk.fs = headerSize+20*nslots) ∧
    ∀ id ≠ .zero, Added p id → ∀ r, p.threads r = none → ∀ p' prog, p.Run (code env) p' →
      p'.threads r = some (.hasRecordID id, prog) →
      (∀ result, prog = .ret result → result = .ok (.flag true)) ∧
      ∃ p'', p'.Run (code env) p'' ∧ p''.Returned r (.hasRecordID id) (.ok (.flag true)) := by
  have hsafe := safe_of_reaches hw hp
  refine ⟨fun t nslots file hnote => ?_, fun id hid hadded r hr p' prog hrun hprog => ?_⟩
  · obtain ⟨-, tbl, hholds, hlen⟩ := hsafe.notes t (nslots, file) hnote
    rw [File.size, hholds.content_eq, length_image, hlen]
  · have hcontains := hadded.contains hid hsafe
    -- the call satisfies its postcondition wherever it is in the rest of the run
    have hlate : ∀ p₁ prog₁, p.Run (code env) p₁ → p₁.threads r = some (.hasRecordID id, prog₁) →
        wp (Guarantee env) Noted r (fun r _ => r = .ok (.flag true)) prog₁ p₁.view :=
      fun p₁ prog₁ hrun₁ => (contract env).late hsafe hrun₁ hr
        (fun _ _ _ hg => hg.contains id hid) hcontains
        (fun v hI hidle hc => meets_late id hI hidle hid hc) prog₁
    refine ⟨?_, ?_⟩
    · rintro result rfl
      exact hlate p' _ hrun hprog p'.view (.refl _)
    · have hordered : p'.Ordered Mutex.rank :=
        (Threads.Pool.Ordered.init w).run (code_keeps env) (hp.trans hrun)
      obtain ⟨p'', result, hrun', hret⟩ := hordered.finish (code_keeps env) hprog
      have hresult := hlate p'' _ (hrun.trans hrun') hret p''.view (.refl _)
      exact ⟨p'', hrun', hresult ▸ hret⟩

theorem perform_addRecordID {w w' : World} {id : SHA1Hash} {b : Bool}
    (h : PersistentHashSet.addRecordID env id w = (.ok b, w')) :
    perform env (.addRecordID id) w = (.ok (.flag b), w') := Sys.bind_of_ok h

/-- The first insert of all. -/
theorem perform_sampleId :
    perform .stx (.addRecordID sampleId) (missingWorld .empty (lit "set")) =
      (.ok (.flag true), sampleWorld) ∧ ∃ tbl, Good .stx sampleWorld tbl ∧ sampleId ∈ tbl := by
  have hgood : Good .stx (missingWorld .empty (lit "set")) [] := good_missing .stx rfl
  cases addRecordID_spec hgood sampleId with
  | inl hblocked =>
    have hb := hgood.growthBlocked_iff.1 hblocked.1
    exact absurd hb.1 (by decide)
  | inr hok =>
    obtain ⟨-, w', tbl, heq, hgood', hadds⟩ := hok
    have hworld : sampleWorld = w' := by rw [sampleWorld, heq]
    rw [hworld, perform_addRecordID heq, decide_eq_true ⟨by decide, List.not_mem_nil⟩]
    exact ⟨rfl, tbl, hgood', (hadds sampleId (by decide)).2 (.inl List.mem_cons_self)⟩

/-- A reader that runs alone notes the pair it captures. -/
theorem noted_hasRecordID {w : World} {id : SHA1Hash} {file : File} (hn : w.set.nslots_ ≠ 0)
    (hopen : openForRead w = (.ok file, w)) :
    (w.set.nslots_, file) ∈ (code env (.hasRecordID id)).noted w := by
  have hcapture : capture.run w = (.ok (some (w.set.nslots_, file)), w) := by
    rw [capture, run_withLock, run_members_bind]
    dsimp only
    rw [if_neg hn, run_bind, run_atomically, Sys.bind_of_ok hopen]
    rfl
  have hnoted : (w.set.nslots_, file) ∈ (hasRecordID env id).noted w := by
    rw [hasRecordID, noted_bind hcapture]
    exact List.mem_append_right _ List.mem_cons_self
  have hcode : ∃ rest, (code env (.hasRecordID id)).noted w = (hasRecordID env id).noted w ++ rest :=
    ⟨_, Prog.noted_bind ..⟩
  obtain ⟨rest, hrest⟩ := hcode
  rw [hrest]
  exact List.mem_append_left _ hnoted

theorem noted_sampleWorld :
    ∃ nslots file, (nslots, file) ∈ (code .stx (.hasRecordID sampleId)).noted sampleWorld := by
  obtain ⟨tbl, hg, hmem⟩ := perform_sampleId.2
  have hnil := List.ne_nil_of_mem hmem
  obtain ⟨i, hi⟩ := hg.stored.exists_of_ne hnil
  refine ⟨_, ⟨i, 0⟩, noted_hasRecordID ?_ (openForRead_eq hi)⟩
  rw [hg.nslots_eq]
  exact (List.length_pos_iff.2 hnil).ne'

/-- One writer, then one reader. -/
theorem readers_agree_sampleId : ∃ (p p' : Pool) (nslots : Nat) (file : File),
    Reaches .stx (missingWorld .empty (lit "set")) p ∧
    p.Returned 0 (.addRecordID sampleId) (.ok (.flag true)) ∧ p.Run (code .stx) p' ∧
    p'.Returned 1 (.hasRecordID sampleId) (.ok (.flag true)) ∧ (1, nslots, file) ∈ p'.notes ∧
    file.size p'.view.state.disk.fs = headerSize+20*nslots := by
  have hw : Reachable .stx (missingWorld .empty (lit "set")) := .missing _ _ rfl
  obtain ⟨p, hp, hadded, hview, hothers, -⟩ := runs_alone .stx (.addRecordID sampleId)
    (p := .init (missingWorld .empty (lit "set"))) (t := 0) rfl fun _ => rfl
  have hfirst : perform .stx (.addRecordID sampleId)
      (Threads.Pool.init (missingWorld .empty (lit "set")) : Pool).view.state =
      (.ok (.flag true), sampleWorld) := perform_sampleId.1
  rw [hfirst] at hadded hview
  have hreader : p.threads 1 = none := hothers 1 (by decide)
  obtain ⟨p', hrun, hret, -, -, hnotes⟩ := runs_alone .stx (.hasRecordID sampleId) hreader
    fun m => by rw [hview]
  obtain ⟨nslots, file, hnoted⟩ := noted_sampleWorld
  have hstate : p.view.state = sampleWorld := by rw [hview]
  rw [hstate] at hnotes
  have hmem : (1, nslots, file) ∈ p'.notes := by
    rw [hnotes, List.mem_append]
    exact .inr (List.mem_map.2 ⟨(nslots, file), hnoted, rfl⟩)
  have hid : sampleId ≠ .zero := by decide
  have hagree := readers_agree .stx _ hw p hp
  have hresult := (hagree.2 sampleId hid ⟨0, _, .inl hadded⟩ 1 hreader p' _ hrun hret).1 _ rfl
  exact ⟨p, p', nslots, file, hp, hadded, hrun, hresult ▸ hret, hmem,
    (readers_agree .stx _ hw p' (hp.trans hrun)).1 1 nslots file hmem⟩

end Stx.PersistentHashSet.Concurrent
