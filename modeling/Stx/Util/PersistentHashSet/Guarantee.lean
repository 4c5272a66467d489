import Stx.Util.PersistentHashSet.Concurrent
import Stx.Util.PersistentHashSet.Operations
import Stx.Lib.RelyGuarantee

/-! What a thread may do to a set that other threads use as well, and that the writers keep
to it: only the holder of `write_mutex_` changes anything, `nslots_` changes only under
`read_mutex_`, and the table in a file that a reader may have open only grows. -/
namespace Stx.PersistentHashSet.Concurrent
open Threads (View wp Rely Foreign)
open Probing (slot keys occupied Path WellPlaced Grows)

/- The stored table is determined by the file. -/

theorem image_injective {t t' : List SHA1Hash} (h : image t = image t') : t = t' := by
  have hlen : t.length = t'.length := by
    have hbytes := congrArg List.length h
    rw [length_image, length_image] at hbytes
    omega
  have hslots : t.flatMap SHA1Hash.hash = t'.flatMap SHA1Hash.hash := by
    simpa only [image, hlen, List.append_cancel_left_eq] using h
  apply List.ext_getElem hlen
  intro i hi hi'
  have hslot := slotAt_flatMap hi []
  rw [hslots, slotAt_flatMap hi' []] at hslot
  exact hslot.symm

theorem holds_unique {fs : FileSystem} {i : Nat} {t t' : List SHA1Hash} (h : Holds fs i t)
    (h' : Holds fs i t') : t = t' := image_injective (h.content_eq.symm.trans h'.content_eq)

theorem contents_injective {t t' : List SHA1Hash} (h : contents t = contents t') : t = t' := by
  have himage : ∀ t, image t ≠ [] := fun t hnil => by
    have hlen := congrArg List.length hnil
    rw [length_image] at hlen
    exact absurd hlen (by simp [headerSize])
  unfold contents at h
  by_cases hnil : t = []
  · by_cases hnil' : t' = []
    · rw [hnil, hnil']
    · rw [if_pos hnil, if_neg hnil'] at h
      exact absurd h.symm (himage t')
  · by_cases hnil' : t' = []
    · rw [if_neg hnil, if_pos hnil'] at h
      exact absurd h (himage t)
    · rw [if_neg hnil, if_neg hnil'] at h
      exact image_injective h

theorem stored_unique {fs : FileSystem} {fpath : Bytes} {t t' : List SHA1Hash}
    (h : Stored fs fpath t) (h' : Stored fs fpath t') : t = t' := by
  cases hname : fs.names fpath with
  | none =>
    have hnil : ∀ s : List SHA1Hash, Stored fs fpath s → s = [] := by
      intro s hs
      by_contra hne
      obtain ⟨i, hi⟩ := hs.exists_of_ne hne
      rw [hname] at hi
      cases hi
    rw [hnil t h, hnil t' h']
  | some i =>
    exact contents_injective ((h.content_eq i hname).symm.trans (h'.content_eq i hname))

/- The files that readers have open. -/

/-- The inode was in use before now, and it is not the one of the side file. -/
def Public (w : World) (i : Nat) : Prop :=
  i < w.disk.fs.next ∧ w.disk.fs.names (tmpPath w.set.fpath_) ≠ some i

/-- A reader that has one of the public files open can go on. -/
def Evolves (w w' : World) : Prop :=
  ∀ i, Public w i → Public w' i ∧
    ∀ t, Holds w.disk.fs i t → ∃ t', Holds w'.disk.fs i t' ∧ Grows .zero t t'

theorem Evolves.refl (w : World) : Evolves w w := fun _ hi => ⟨hi, fun t ht => ⟨t, ht, .refl t⟩⟩

/-- A change that leaves the public files as they are. -/
theorem Evolves.of_content {w : World} {fs' : FileSystem} {set' : PersistentHashSet}
    (hpath : set'.fpath_ = w.set.fpath_) {effects : List Effect}
    (hpublic : ∀ i, Public w i → i < fs'.next ∧ fs'.names (tmpPath w.set.fpath_) ≠ some i)
    (hcontent : ∀ i, Public w i → fs'.content i = w.disk.fs.content i) :
    Evolves w ⟨⟨fs', effects⟩, set'⟩ := by
  intro i hi
  refine ⟨?_, fun t ht => ⟨t, ⟨(hcontent i hi).trans ht.content_eq, ht.size⟩, .refl t⟩⟩
  unfold Public
  rw [hpath]
  exact hpublic i hi

theorem evolves_members {w : World} {set' : PersistentHashSet} (hpath : set'.fpath_ = w.set.fpath_) :
    Evolves w { w with set := set' } :=
  .of_content hpath (fun _ hi => hi) fun _ _ => rfl

theorem ne_sideInode {w : World} {i : Nat} (hi : Public w i) :
    i ≠ sideInode w.disk.fs (tmpPath w.set.fpath_) := by
  unfold sideInode
  cases hn : w.disk.fs.names (tmpPath w.set.fpath_) with
  | none => exact Nat.ne_of_lt hi.1
  | some j =>
    intro heq
    exact hi.2 (by rw [hn]; exact congrArg some heq.symm)

theorem next_side (fs : FileSystem) (path : Bytes) :
    fs.next ≤ (fs.apply (sideEffect fs path)).next := by
  unfold sideEffect
  cases fs.names path with
  | none => exact Nat.le_succ _
  | some i => exact Nat.le_refl _

theorem evolves_side (w : World) : Evolves w
    { w with disk := w.disk.perform (sideEffect w.disk.fs (tmpPath w.set.fpath_)) } := by
  refine .of_content rfl (fun i hi => ⟨?_, ?_⟩) fun i hi => content_side_of_ne _ (ne_sideInode hi)
  · exact Nat.lt_of_lt_of_le hi.1 (next_side ..)
  · rw [names_side]
    exact fun heq => ne_sideInode hi (Option.some.inj heq).symm

theorem evolves_write_side {w : World} {j : Nat}
    (hj : w.disk.fs.names (tmpPath w.set.fpath_) = some j) (pos : Nat) (data : Bytes) :
    Evolves w { w with disk := w.disk.perform (.write j pos data) } := by
  refine .of_content rfl (fun i hi => hi) fun i hi => Function.update_of_ne ?_ ..
  rintro rfl
  exact hi.2 hj

theorem evolves_rename (w : World) : Evolves w
    { w with disk := w.disk.perform (.rename (tmpPath w.set.fpath_) w.set.fpath_) } := by
  refine .of_content rfl (fun i hi => ⟨hi.1, ?_⟩) fun i hi => rfl
  simp only [FileSystem.apply, if_neg (tmpPath_ne w.set.fpath_), Function.update_self]
  exact Option.some_ne_none i ∘ Eq.symm

theorem evolves_create (w : World) : Evolves w
    { w with disk := w.disk.perform (.create w.set.fpath_) } := by
  refine .of_content rfl (fun i hi => ⟨Nat.lt_succ_of_lt hi.1, ?_⟩) fun i hi =>
    Function.update_of_ne (Nat.ne_of_lt hi.1) ..
  change Function.update w.disk.fs.names w.set.fpath_ _ (tmpPath w.set.fpath_) ≠ some i
  rw [Function.update_of_ne (tmpPath_ne _)]
  exact hi.2

/-- The write of a slot that was empty. -/
theorem evolves_slot {w : World} {i idx : Nat} {t : List SHA1Hash} (ht : Holds w.disk.fs i t)
    (hidx : idx < t.length) (hempty : t.getD idx .zero = .zero) (id : SHA1Hash) :
    Evolves w { w with
      disk := w.disk.perform (.write i (headerSize+idx*SHA1Hash.kSize) id.hash) } := by
  intro j hj
  refine ⟨hj, fun t' ht' => ?_⟩
  by_cases heq : j = i
  · subst heq
    cases holds_unique ht' ht
    refine ⟨t.set idx id, ⟨?_, by rw [List.length_set]; exact ht.size⟩, Probing.grows_set hempty⟩
    change Function.update w.disk.fs.content j _ j = _
    rw [Function.update_self, ht.content_eq, splice_image hidx]
  · exact ⟨t', ⟨(Function.update_of_ne heq ..).trans ht'.content_eq, ht'.size⟩, .refl t'⟩

/- The invariant and the guarantee. -/

/-- `t` is the table under the name of the set. -/
structure Current (env : Env) (w : World) (t : List SHA1Hash) : Prop where
  stored : Stored w.disk.fs w.set.fpath_ t
  size : t = [] ∨ ValidSize t.length
  placed : WellPlaced .zero (hashOf env) t

theorem current_of_good {env : Env} {w : World} {t : List SHA1Hash} (h : Good env w t) :
    Current env w t := ⟨h.stored, h.size, h.placed⟩

def Contains (env : Env) (w : World) (id : SHA1Hash) : Prop := ∃ t, Current env w t ∧ id ∈ t

/-- A writer has renamed the new table and not set `nslots_` yet; it holds both mutexes. -/
def Renaming (v : View World Mutex) : Prop :=
  ∃ u, v.holder .write_mutex_ = some u ∧ v.holder .read_mutex_ = some u

structure Inv (env : Env) (v : View World Mutex) : Prop where
  current : ∃ t, Current env v.state t ∧ (v.state.set.nslots_ = t.length ∨ Renaming v)
  good : v.holder .write_mutex_ = none → ∃ t, Good env v.state t

/-- What the thread `t` may do in one step. -/
structure Guarantee (env : Env) (t : Nat) (v v' : View World Mutex) : Prop where
  frame : v.holder .write_mutex_ ≠ some t → v'.state = v.state
  nslots : v.holder .read_mutex_ ≠ some t → v'.state.set.nslots_ = v.state.set.nslots_
  evolves : Evolves v.state v'.state
  inv : Inv env v → Inv env v'
  contains : ∀ id ≠ .zero, Contains env v.state id → Contains env v'.state id

/-- A captured pair: the file is a table of `nslots` slots. -/
def Noted (capture : Nat × File) (v : View World Mutex) : Prop :=
  Public v.state capture.2.inode ∧
    ∃ t, Holds v.state.disk.fs capture.2.inode t ∧ t.length = capture.1

variable {env : Env} {t : Nat} {v v' : View World Mutex}

theorem Guarantee.noted {capture : Nat × File} (h : Guarantee env t v v') (hn : Noted capture v) :
    Noted capture v' := by
  obtain ⟨hpublic, tbl, htbl, hlen⟩ := hn
  obtain ⟨hpublic', hgrow⟩ := h.evolves _ hpublic
  obtain ⟨tbl', htbl', hg⟩ := hgrow tbl htbl
  exact ⟨hpublic', tbl', htbl', hg.length_eq.trans hlen⟩

theorem guarantee_of_state (hstate : v'.state = v.state) (hinv : Inv env v → Inv env v') :
    Guarantee env t v v' where
  frame _ := hstate
  nslots _ := by rw [hstate]
  evolves := by rw [hstate]; exact .refl _
  inv := hinv
  contains id _ h := by rwa [hstate]

theorem guarantee_refl (env : Env) (t : Nat) (v : View World Mutex) : Guarantee env t v v :=
  guarantee_of_state rfl id

/- The writer. -/

/-- The thread `t` is the writer, outside of the end of `grow`, and the set is in the state `w`. -/
structure Owns (t : Nat) (v : View World Mutex) (w : World) : Prop where
  write : v.holder .write_mutex_ = some t
  read : v.holder .read_mutex_ ≠ some t
  state : v.state = w

/-- Nobody else changes what the writer works on. -/
theorem frame_rely (h : Rely (Guarantee env) t v v') (hw : v.holder .write_mutex_ = some t) :
    v'.state = v.state := by
  refine (h.keeps (P := fun v₁ => v₁.state = v.state ∧ v₁.holder .write_mutex_ = some t) ⟨rfl, hw⟩ ?_).1
  rintro v₁ v₂ ⟨u, hu, hg, hlocks⟩ ⟨hstate, hw₁⟩
  have hne : v₁.holder .write_mutex_ ≠ some u := by
    rw [hw₁]
    exact fun heq => hu (Option.some.inj heq).symm
  exact ⟨(hg.frame hne).trans hstate, (hlocks _).2 hw₁⟩

theorem Owns.rely {w : World} (h : Owns t v w) (hr : Rely (Guarantee env) t v v') :
    Owns t v' w where
  write := (hr.holder_iff _).2 h.write
  read := fun hread => h.read ((hr.holder_iff _).1 hread)
  state := (frame_rely hr h.write).trans h.state

/-- A change that the writer makes outside of the end of `grow`. -/
structure WriterStep (env : Env) (w w' : World) : Prop where
  evolves : Evolves w w'
  nslots_eq : w'.set.nslots_ = w.set.nslots_
  current : ∃ t t', Current env w t ∧ Current env w' t' ∧ w'.set.nslots_ = t'.length ∧
    ∀ id ≠ .zero, id ∈ t → id ∈ t'

theorem contains_of_current {w w' : World} {t t' : List SHA1Hash} (ht : Current env w t)
    (ht' : Current env w' t') (hmem : ∀ id ≠ .zero, id ∈ t → id ∈ t') {id : SHA1Hash}
    (hid : id ≠ .zero) (h : Contains env w id) : Contains env w' id := by
  obtain ⟨t₁, ht₁, hin⟩ := h
  cases stored_unique ht₁.stored ht.stored
  exact ⟨t', ht', hmem id hid hin⟩

theorem WriterStep.guarantee {w w' : World} (h : WriterStep env w w') (ho : Owns t v w) :
    Guarantee env t v (v.put w') := by
  obtain ⟨tbl, tbl', hcur, hcur', hlen, hmem⟩ := h.current
  cases ho.state
  refine ⟨fun hne => absurd ho.write hne, fun _ => h.nslots_eq, h.evolves, fun _ => ?_, fun id hid =>
    contains_of_current hcur hcur' hmem hid⟩
  refine ⟨⟨tbl', hcur', .inl hlen⟩, fun hnone => ?_⟩
  rw [View.put_holder, ho.write] at hnone
  cases hnone

theorem Owns.put {w : World} (h : Owns t v w) (w' : World) : Owns t (v.put w') w' :=
  ⟨h.write, h.read, rfl⟩

end Stx.PersistentHashSet.Concurrent
