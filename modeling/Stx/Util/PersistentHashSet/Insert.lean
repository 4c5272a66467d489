import Stx.Util.PersistentHashSet.Storage

/-! The invariant of a set on its disk, and what `insert` does to it: the lazy count, the
growth of the table, the search and the write of the slot. -/
namespace Stx

def Disk.performAll (d : Disk) (effects : List Effect) : Disk := effects.foldl Disk.perform d

theorem Disk.performAll_fs (d : Disk) (effects : List Effect) :
    (d.performAll effects).fs = d.fs.applyAll effects := by
  induction effects generalizing d with
  | nil => rfl
  | cons e effects ih => exact ih (d.perform e)

theorem Disk.performAll_effects (d : Disk) (effects : List Effect) :
    (d.performAll effects).effects = d.effects ++ effects := by
  induction effects generalizing d with
  | nil => exact (List.append_nil _).symm
  | cons e effects ih =>
    have hnext : (d.perform e).effects = d.effects ++ [e] := rfl
    rw [Disk.performAll, List.foldl_cons, ← Disk.performAll, ih, hnext, List.append_assoc,
      List.singleton_append]

namespace PersistentHashSet
open Probing (slot keys occupied Path WellPlaced Grows)

/- How full tables get. A growth leaves `nslots_used_` alone, although the stale slots may
   make up to 199 more slots of the new table used than are counted. The numbers below
   survive any number of growths, because each of them doubles the table. -/

/-- `used` is `nslots_used_` of a set with the table `t`. -/
structure Filled (used : Nat) (t : List SHA1Hash) : Prop where
  occupied_le : 64*occupied .zero t+12800 ≤ 57*t.length
  counted : used = 2^64-1 ∨
    used ≤ t.length+200 ∧ 64*occupied .zero t+12800 ≤ 64*used+25*t.length

/-- There is room for one more id, and the slots are counted. -/
structure Room (used : Nat) (t : List SHA1Hash) : Prop where
  occupied_le : 64*(occupied .zero t+1)+12800 ≤ 57*t.length
  used_le : used+1 ≤ t.length+200
  counted : 64*occupied .zero t+12800 ≤ 64*used+25*t.length

theorem Room.filled {used : Nat} {t : List SHA1Hash} (h : Room used t) : Filled used t := by
  have h₁ := h.occupied_le
  have h₂ := h.used_le
  exact ⟨by omega, .inr ⟨by omega, h.counted⟩⟩

theorem Room.filled_succ {used : Nat} {t t' : List SHA1Hash} (h : Room used t)
    (hlen : t'.length = t.length) (hocc : occupied .zero t' = occupied .zero t+1) :
    Filled (used+1) t' := by
  have h₁ := h.occupied_le
  have h₂ := h.used_le
  have h₃ := h.counted
  exact ⟨by omega, .inr ⟨by omega, by omega⟩⟩

/-- The invariant: `t` is the table in the file of the set, `[]` if there is none yet. -/
structure Good (env : Env) (w : World) (t : List SHA1Hash) : Prop where
  stored : Stored w.disk.fs w.set.fpath_ t
  nslots_eq : w.set.nslots_ = t.length
  placed : WellPlaced .zero (hashOf env) t
  filled : t = [] ∧ w.set.nslots_used_ = 2^64-1 ∨ ValidSize t.length ∧ Filled w.set.nslots_used_ t

/-- The descriptor is open on the file of the set. -/
def Opened (w : World) (file : File) : Prop :=
  w.disk.fs.names w.set.fpath_ = some file.inode

theorem Good.ne_nil {env : Env} {w : World} {t : List SHA1Hash} (h : Good env w t)
    (hsize : ValidSize t.length) : t ≠ [] := by
  rintro rfl
  exact absurd hsize.ge (by decide)

theorem Stored.holds {fs : FileSystem} {fpath : Bytes} {t : List SHA1Hash} {i : Nat}
    (h : Stored fs fpath t) (hi : fs.names fpath = some i) (hsize : ValidSize t.length) :
    Holds fs i t := by
  have hne : t ≠ [] := by
    rintro rfl
    exact absurd hsize.ge (by decide)
  exact ⟨(h.content_eq i hi).trans (contents_of_ne hne), hsize⟩

/- The lazy count. -/

theorem scanOwn_eq (env : Env) {w : World} {t : List SHA1Hash} {file : File}
    (hs : Stored w.disk.fs w.set.fpath_ t) (hn : w.set.nslots_ = t.length)
    (hsize : t = [] ∨ ValidSize t.length) (hf : Opened w file) :
    scanOwn env file w = (.ok (visited t), w) := by
  rw [scanOwn, Sys.reads_apply, hn]
  cases hsize with
  | inl h =>
    rw [h]
    rfl
  | inr h => rw [if_pos (Nat.lt_of_lt_of_le (by decide) h.ge), scan_eq env (hs.holds hf h)]

/-- `nslots_used_` after the count at the start of `insert`. -/
def counted (used : Nat) (t : List SHA1Hash) : Nat :=
  if used = 2^64-1 then (visited t).length else used

def withUsed (w : World) (used : Nat) : World :=
  { w with set := { w.set with nslots_used_ := used } }

theorem length_visited_lt {t : List SHA1Hash} (h : t = [] ∨ ValidSize t.length) :
    (visited t).length < 2^64 := by
  cases h with
  | inl h => rw [h]; decide
  | inr h =>
    have hocc : occupied .zero t ≤ t.length := Probing.occupied_le
    have hstale := staleUsed_lt h
    have hle := h.le
    rw [length_visited]
    omega

theorem Good.size {env : Env} {w : World} {t : List SHA1Hash} (h : Good env w t) :
    t = [] ∨ ValidSize t.length := h.filled.imp And.left And.left

theorem countUsed_eq {env : Env} {w : World} {t : List SHA1Hash} {file : File} (hg : Good env w t)
    (hf : Opened w file) :
    countUsed env file w = (.ok (), withUsed w (counted w.set.nslots_used_ t)) := by
  unfold countUsed counted
  rw [Sys.get_bind]
  by_cases hused : w.set.nslots_used_ = 2^64-1
  · rw [if_pos hused, if_pos hused]
    have hscan : scanOwn env file (withUsed w 0) = (.ok (visited t), withUsed w 0) :=
      scanOwn_eq env hg.stored hg.nslots_eq hg.size hf
    have hset : setUsed 0 w = (.ok (), withUsed w 0) := rfl
    rw [Sys.bind_of_ok hset, Sys.bind_of_ok hscan, Nat.mod_eq_of_lt (length_visited_lt hg.size)]
    rfl
  · rw [if_neg hused, if_neg hused]
    rfl

/- `grow`. -/

theorem length_rehash (env : Env) (n : Nat) (ids : List SHA1Hash) :
    (rehash env n ids).length = n := by
  have hfold : ∀ t : List SHA1Hash, (ids.foldl (place env) t).length = t.length := by
    induction ids with
    | nil => exact fun _ => rfl
    | cons x ids ih =>
      intro t
      rw [List.foldl_cons, ih, place]
      split
      · exact List.length_set
      · rfl
  rw [rehash, hfold, List.length_replicate]

/-- The changes up to the two writes into the side file; the second one stops at the most
that one call can write. -/
def buildEffects (fs : FileSystem) (fpath : Bytes) (new_data : List SHA1Hash) : List Effect :=
  [sideEffect fs (tmpPath fpath),
    .write (sideInode fs (tmpPath fpath)) 0 (header new_data.length),
    .write (sideInode fs (tmpPath fpath)) headerSize
      ((new_data.flatMap SHA1Hash.hash).take File.maxTransfer)]

/-- The changes of a growth. -/
def growEffects (fs : FileSystem) (fpath : Bytes) (new_data : List SHA1Hash) : List Effect :=
  buildEffects fs fpath new_data ++ [.rename (tmpPath fpath) fpath]

theorem names_buildEffects (fs : FileSystem) (fpath : Bytes) (new_data : List SHA1Hash) :
    (fs.applyAll (buildEffects fs fpath new_data)).names (tmpPath fpath) =
      some (sideInode fs (tmpPath fpath)) := names_side fs (tmpPath fpath)

theorem splice_nil (data : Bytes) : splice [] 0 data = data := by
  simp [splice]

theorem splice_end {old : Bytes} {pos : Nat} (h : old.length = pos) (data : Bytes) :
    splice old pos data = old ++ data := by
  subst h
  rw [splice, List.take_length, Nat.sub_self, List.replicate_zero, List.append_nil,
    List.drop_of_length_le (Nat.le_add_right _ _), List.append_nil]

/-- The side file is the image of the new table. -/
theorem content_buildEffects (fs : FileSystem) (fpath : Bytes) {new_data : List SHA1Hash}
    (h : (new_data.flatMap SHA1Hash.hash).length ≤ File.maxTransfer) :
    (fs.applyAll (buildEffects fs fpath new_data)).content (sideInode fs (tmpPath fpath)) =
      image new_data := by
  have hside := content_side fs (tmpPath fpath)
  simp only [buildEffects, FileSystem.applyAll, List.foldl_cons, List.foldl_nil]
  generalize fs.apply (sideEffect fs (tmpPath fpath)) = fs₁ at hside ⊢
  simp only [FileSystem.apply, Function.update_self, hside]
  rw [splice_nil, splice_end (length_header _), List.take_of_length_le h]
  rfl

theorem Stored.take_build {fs : FileSystem} {fpath : Bytes} {t : List SHA1Hash}
    (h : Stored fs fpath t) (new_data : List SHA1Hash) (k : Nat) :
    Stored (fs.applyAll ((buildEffects fs fpath new_data).take k)) fpath t := by
  have hname := names_side fs (tmpPath fpath)
  match k with
  | 0 => exact h
  | 1 => exact h.side
  | 2 => exact h.side.write_side hname _ _
  | k+3 =>
    rw [List.take_of_length_le (by simp [buildEffects])]
    exact (h.side.write_side hname _ _).write_side hname _ _

theorem onDisk_ok {α : Type} {x : Sys Disk α} {w : World} {a : α} {d : Disk}
    (h : x w.disk = (.ok a, d)) : onDisk x w = (.ok a, { w with disk := d }) := by
  rw [onDisk, h]

theorem onDisk_raise {α : Type} {x : Sys Disk α} {w : World} {e : Exception} {d : Disk}
    (h : x w.disk = (.raise e, d)) : onDisk x w = (.raise e, { w with disk := d }) := by
  rw [onDisk, h]

theorem write_ok (file : File) {data : Bytes} (h : data.length ≤ File.maxTransfer) (d : Disk) :
    file.write data d = (.ok { file with pos := file.pos+data.length },
      d.perform (.write file.inode file.pos (data.take File.maxTransfer))) := if_pos h

theorem write_raise (file : File) {data : Bytes} (h : File.maxTransfer < data.length) (d : Disk) :
    file.write data d = (File.ioError (lit "write() failed"),
      d.perform (.write file.inode file.pos (data.take File.maxTransfer))) :=
  if_neg (Nat.not_le.2 h)

theorem header_take (n : Nat) : (header n).take File.maxTransfer = header n :=
  List.take_of_length_le (by rw [length_header]; decide)

theorem mv_ok {src dst : Bytes} {d : Disk} {i : Nat} (h : d.fs.names src = some i) :
    FileUtil.mv src dst d = (.ok (), d.perform (.rename src dst)) := by
  rw [FileUtil.mv, h]
  rfl

theorem grow_ok {env : Env} {w : World} {file : File} {ids new_data : List SHA1Hash}
    (hscan : scanOwn env file w = (.ok ids, w))
    (hdata : rehash env (growthSize w.set.nslots_) ids = new_data)
    (hfits : (new_data.flatMap SHA1Hash.hash).length ≤ File.maxTransfer) :
    ∃ pos, grow env file w = (.ok ⟨sideInode w.disk.fs (tmpPath w.set.fpath_), pos⟩,
      { disk := w.disk.performAll (growEffects w.disk.fs w.set.fpath_ new_data)
        set := { w.set with nslots_ := growthSize w.set.nslots_ } }) := by
  have hlen : new_data.length = growthSize w.set.nslots_ := by rw [← hdata, length_rehash]
  have hheader : (header (growthSize w.set.nslots_)).length ≤ File.maxTransfer := by
    rw [length_header]
    decide
  refine ⟨headerSize+(new_data.flatMap SHA1Hash.hash).length, ?_⟩
  rw [grow, Sys.get_bind]
  dsimp only
  rw [Sys.bind_of_ok hscan, hdata, Sys.bind_of_ok (onDisk_ok (openFile_side _ _)),
    Sys.bind_of_ok (onDisk_ok (write_ok _ hheader _)), header_take,
    Sys.bind_of_ok (onDisk_ok (write_ok _ hfits _)), Sys.bind_of_ok (onDisk_ok (mv_ok (names_side _ _)))]
  rw [growEffects, buildEffects, hlen, length_header]
  rfl

/-- A table that one call cannot write: the side file is left behind. -/
theorem grow_raise {env : Env} {w : World} {file : File} {ids new_data : List SHA1Hash}
    (hscan : scanOwn env file w = (.ok ids, w))
    (hdata : rehash env (growthSize w.set.nslots_) ids = new_data)
    (hfits : File.maxTransfer < (new_data.flatMap SHA1Hash.hash).length) :
    grow env file w = (File.ioError (lit "write() failed"),
      { w with disk := w.disk.performAll (buildEffects w.disk.fs w.set.fpath_ new_data) }) := by
  have hlen : new_data.length = growthSize w.set.nslots_ := by rw [← hdata, length_rehash]
  have hheader : (header (growthSize w.set.nslots_)).length ≤ File.maxTransfer := by
    rw [length_header]
    decide
  rw [grow, Sys.get_bind]
  dsimp only
  rw [Sys.bind_of_ok hscan, hdata, Sys.bind_of_ok (onDisk_ok (openFile_side _ _)),
    Sys.bind_of_ok (onDisk_ok (write_ok _ hheader _)), header_take,
    Sys.bind_of_raise (onDisk_raise (write_raise _ hfits _)), buildEffects, hlen, length_header]
  rfl

/- Making room. -/

def MustGrow (used : Nat) (t : List SHA1Hash) : Prop := t.length < 2*(used+1)

instance (used : Nat) (t : List SHA1Hash) : Decidable (MustGrow used t) :=
  inferInstanceAs (Decidable (t.length < 2*(used+1)))

/-- The insert has to grow a table of the largest size that can be written. -/
def Blocked (used : Nat) (t : List SHA1Hash) : Prop := t.length = 2^26 ∧ MustGrow used t

/-- The table in which the id is looked for, and the changes that lead to it. -/
def roomTable (env : Env) (used : Nat) (t : List SHA1Hash) : List SHA1Hash :=
  if MustGrow used t then rehash env (growthSize t.length) (visited t) else t

def roomEffects (env : Env) (fs : FileSystem) (fpath : Bytes) (used : Nat) (t : List SHA1Hash) :
    List Effect :=
  if MustGrow used t then growEffects fs fpath (rehash env (growthSize t.length) (visited t))
  else []

theorem growthSize_valid {t : List SHA1Hash} (h : t = [] ∨ ValidSize t.length)
    (hne : t.length ≠ 2^26) : ValidSize (growthSize t.length) := by
  cases h with
  | inl h =>
    rw [h]
    exact .initial
  | inr h =>
    rw [growthSize, if_neg (Nat.ne_of_gt (Nat.lt_of_lt_of_le (by decide) h.ge))]
    exact h.double hne

theorem growthSize_dvd {t : List SHA1Hash} (h : t = [] ∨ ValidSize t.length) :
    growthSize t.length ∣ 2^64 := by
  cases h with
  | inl h =>
    rw [h]
    exact ValidSize.initial.dvd
  | inr h =>
    obtain ⟨k, hk, hlen⟩ := h
    have hpow : growthSize t.length = 2^(9+k+1) := by
      have hpos : t.length ≠ 0 := by
        rw [hlen]
        exact (Nat.mul_pos (by decide) (Nat.two_pow_pos k)).ne'
      rw [growthSize, if_neg hpos, hlen, Nat.pow_succ, Nat.pow_add]
    rw [hpow]
    exact Nat.pow_dvd_pow 2 (by omega)

/-- The slots that `grow` visits fit into the new table, with room to spare. -/
theorem visited_fits {t : List SHA1Hash} (h : t = [] ∨ ValidSize t.length) :
    (visited t).length < growthSize t.length := by
  cases h with
  | inl h =>
    rw [h]
    decide
  | inr h =>
    have hocc : occupied .zero t ≤ t.length := Probing.occupied_le
    have hstale := staleUsed_lt h
    have hge := h.ge
    rw [growthSize, if_neg (by omega), length_visited]
    omega

/-- The grown table. -/
theorem rehash_visited (env : Env) {t : List SHA1Hash} (h : t = [] ∨ ValidSize t.length) :
    WellPlaced .zero (hashOf env) (rehash env (growthSize t.length) (visited t)) ∧
      (keys .zero (rehash env (growthSize t.length) (visited t))).Perm (visited t) :=
  (rehash_spec env (growthSize_dvd h) (fun _ hid => (mem_visited.1 hid).2) (visited_fits h).le).2

/-- It has the ids of the old one. -/
theorem mem_rehash_visited (env : Env) {t : List SHA1Hash} (h : t = [] ∨ ValidSize t.length)
    {id : SHA1Hash} (hid : id ≠ .zero) :
    id ∈ rehash env (growthSize t.length) (visited t) ↔ id ∈ t := by
  have hkeys := (rehash_visited env h).2
  have hmem := (Probing.mem_keys (e := SHA1Hash.zero)).symm.trans (hkeys.mem_iff (a := id))
  rw [mem_visited] at hmem
  simpa [hid] using hmem

/-- The count is right up to what the stale slots add and growths have left out. -/
theorem Good.counted_bounds {env : Env} {w : World} {t : List SHA1Hash} (h : Good env w t) :
    counted w.set.nslots_used_ t ≤ t.length+200 ∧
      (t = [] ∨ 64*occupied .zero t+12800 ≤ 64*counted w.set.nslots_used_ t+25*t.length) := by
  cases h.filled with
  | inl hnil =>
    rw [hnil.2, hnil.1]
    exact ⟨by decide, .inl rfl⟩
  | inr htable =>
    have hocc : occupied .zero t ≤ t.length := Probing.occupied_le
    have hge := htable.1.ge
    have hstale := staleUsed_lt htable.1
    unfold counted
    split
    · rw [length_visited]
      exact ⟨by omega, .inr (by omega)⟩
    · next hne =>
      have hc := htable.2.counted.resolve_left hne
      exact ⟨hc.1, .inr hc.2⟩

theorem Good.room {env : Env} {w : World} {t : List SHA1Hash} (h : Good env w t)
    (hb : ¬Blocked (counted w.set.nslots_used_ t) t) :
    ValidSize (roomTable env (counted w.set.nslots_used_ t) t).length ∧
    WellPlaced .zero (hashOf env) (roomTable env (counted w.set.nslots_used_ t) t) ∧
    Room (counted w.set.nslots_used_ t) (roomTable env (counted w.set.nslots_used_ t) t) := by
  obtain ⟨hused, hcount⟩ := h.counted_bounds
  generalize hu : counted w.set.nslots_used_ t = u at hb hused hcount ⊢
  unfold roomTable
  by_cases hgrow : MustGrow u t
  · have hne : t.length ≠ 2^26 := fun heq => hb ⟨heq, hgrow⟩
    have hsize := growthSize_valid h.size hne
    obtain ⟨hplaced, hkeys⟩ := rehash_visited env h.size
    have hocc : occupied .zero (rehash env (growthSize t.length) (visited t)) = (visited t).length :=
      hkeys.length_eq
    rw [if_pos hgrow]
    refine ⟨by rwa [length_rehash], hplaced, ?_⟩
    cases h.filled with
    | inl hnil =>
      have hu0 : u = 0 := by
        rw [← hu, hnil.2, hnil.1]
        rfl
      rw [hnil.1] at hocc ⊢
      have hlen : (rehash env (growthSize ([] : List SHA1Hash).length) (visited [])).length = 512 :=
        length_rehash ..
      have hzero : (visited []).length = 0 := rfl
      exact ⟨by omega, by omega, by omega⟩
    | inr htable =>
      have hge := htable.1.ge
      have hstale := staleUsed_lt htable.1
      have hfill := htable.2.occupied_le
      have hlen : (rehash env (growthSize t.length) (visited t)).length = t.length*2 := by
        rw [length_rehash, growthSize, if_neg (by omega)]
      have hcount' := hcount.resolve_left (h.ne_nil htable.1)
      rw [length_visited] at hocc
      exact ⟨by omega, by omega, by omega⟩
  · rw [if_neg hgrow]
    unfold MustGrow at hgrow
    cases h.filled with
    | inl hnil =>
      rw [hnil.1, List.length_nil] at hgrow
      omega
    | inr htable =>
      have hcount' := hcount.resolve_left (h.ne_nil htable.1)
      exact ⟨htable.1, h.placed, by omega, by omega, hcount'⟩

/-- The nonzero ids of the table do not change when room is made. -/
theorem Good.mem_roomTable {env : Env} {w : World} {t : List SHA1Hash} (h : Good env w t)
    {id : SHA1Hash} (hid : id ≠ .zero) :
    id ∈ roomTable env (counted w.set.nslots_used_ t) t ↔ id ∈ t := by
  unfold roomTable
  split
  · exact mem_rehash_visited env h.size hid
  · rfl

def roomWorld (env : Env) (w : World) (t : List SHA1Hash) : World :=
  let used := counted w.set.nslots_used_ t
  { disk := w.disk.performAll (roomEffects env w.disk.fs w.set.fpath_ used t)
    set := { w.set with
      nslots_used_ := used, nslots_ := (roomTable env used t).length } }

theorem table_fits {t : List SHA1Hash} (h : ValidSize t.length) :
    (t.flatMap SHA1Hash.hash).length ≤ File.maxTransfer := by
  have hle := h.le
  rw [Records.length_flatMap SHA1Hash.size_eq]
  unfold File.maxTransfer
  omega

/-- After a growth the renamed side file holds the new table. -/
theorem Stored.grown (fs : FileSystem) (fpath : Bytes) {new_data : List SHA1Hash}
    (hsize : ValidSize new_data.length) :
    Stored (fs.applyAll (growEffects fs fpath new_data)) fpath new_data ∧
      (fs.applyAll (growEffects fs fpath new_data)).names fpath =
        some (sideInode fs (tmpPath fpath)) := by
  have hne : new_data ≠ [] := by
    rintro rfl
    exact absurd hsize.ge (by decide)
  have hname := names_buildEffects fs fpath new_data
  have hcontent := content_buildEffects fs fpath (table_fits hsize)
  rw [growEffects, FileSystem.applyAll, List.foldl_append]
  exact Stored.rename hname (hcontent.trans (contents_of_ne hne).symm)

theorem mustGrow_iff {w : World} {t : List SHA1Hash} (hn : w.set.nslots_ = t.length) {used : Nat}
    (hused : used < 2^64-1) : mustGrow (withUsed w used).set = true ↔ MustGrow used t := by
  have hmod : (used+1) % 2^64 = used+1 := Nat.mod_eq_of_lt (by omega)
  rw [mustGrow, decide_eq_true_iff]
  change w.set.nslots_ < 2*((used+1) % 2^64) ↔ _
  rw [hmod, hn]
  rfl

theorem Good.counted_lt {env : Env} {w : World} {t : List SHA1Hash} (h : Good env w t) :
    counted w.set.nslots_used_ t < 2^64-1 := by
  have hbound := h.counted_bounds.1
  cases h.size with
  | inl hnil =>
    rw [hnil, List.length_nil] at hbound
    rw [hnil]
    omega
  | inr hsize =>
    have hle := hsize.le
    omega

theorem ensureRoom_ok {env : Env} {w : World} {t : List SHA1Hash} {file : File} (h : Good env w t)
    (hf : Opened w file) (hb : ¬Blocked (counted w.set.nslots_used_ t) t) :
    ∃ file', ensureRoom env file (withUsed w (counted w.set.nslots_used_ t)) =
      (.ok file', roomWorld env w t) ∧ Opened (roomWorld env w t) file' ∧
      Stored (roomWorld env w t).disk.fs w.set.fpath_
        (roomTable env (counted w.set.nslots_used_ t) t) := by
  have hmust := mustGrow_iff h.nslots_eq h.counted_lt
  have hroom := h.room hb
  unfold ensureRoom roomWorld
  rw [Sys.get_bind]
  unfold Opened roomTable roomEffects at *
  generalize counted w.set.nslots_used_ t = used at *
  dsimp only
  rw [Disk.performAll_fs]
  by_cases hgrow : MustGrow used t
  · simp only [if_pos hgrow, if_pos (hmust.2 hgrow)] at hroom ⊢
    have hscan : scanOwn env file (withUsed w used) = (.ok (visited t), withUsed w used) :=
      scanOwn_eq env h.stored h.nslots_eq h.size hf
    have hdata : rehash env (growthSize (withUsed w used).set.nslots_) (visited t) =
        rehash env (growthSize t.length) (visited t) := by
      change rehash env (growthSize w.set.nslots_) _ = _
      rw [h.nslots_eq]
    obtain ⟨pos, hok⟩ := grow_ok hscan hdata (table_fits hroom.1)
    obtain ⟨hstored, hname⟩ := Stored.grown w.disk.fs w.set.fpath_ hroom.1
    refine ⟨⟨sideInode w.disk.fs (tmpPath w.set.fpath_), pos⟩, ?_, hname, hstored⟩
    rw [hok, length_rehash, ← h.nslots_eq]
    rfl
  · have hfalse : ¬mustGrow (withUsed w used).set = true := fun hm => hgrow (hmust.1 hm)
    simp only [if_neg hgrow, if_neg hfalse]
    refine ⟨file, ?_, hf, h.stored⟩
    rw [← h.nslots_eq]
    rfl

theorem Good.filled_counted {env : Env} {w : World} {t : List SHA1Hash} (h : Good env w t)
    (hne : t ≠ []) : ValidSize t.length ∧ Filled (counted w.set.nslots_used_ t) t := by
  cases h.filled with
  | inl hnil => exact absurd hnil.1 hne
  | inr htable =>
    have hbounds := h.counted_bounds
    exact ⟨htable.1, htable.2.occupied_le, .inr ⟨hbounds.1, hbounds.2.resolve_left hne⟩⟩

def blockedWorld (env : Env) (w : World) (t : List SHA1Hash) : World :=
  { disk := w.disk.performAll
      (buildEffects w.disk.fs w.set.fpath_ (rehash env (growthSize t.length) (visited t)))
    set := { w.set with nslots_used_ := counted w.set.nslots_used_ t } }

/-- A blocked insert ends in `grow`; the table in the file is as before. -/
theorem ensureRoom_raise {env : Env} {w : World} {t : List SHA1Hash} {file : File}
    (h : Good env w t) (hf : Opened w file) (hb : Blocked (counted w.set.nslots_used_ t) t) :
    ensureRoom env file (withUsed w (counted w.set.nslots_used_ t)) =
      (File.ioError (lit "write() failed"), blockedWorld env w t) ∧
      Good env (blockedWorld env w t) t := by
  have hmust := mustGrow_iff h.nslots_eq h.counted_lt
  have hne : t ≠ [] := by
    rintro rfl
    exact absurd hb.1 (by decide)
  have hgood : Good env (blockedWorld env w t) t := by
    refine ⟨?_, h.nslots_eq, h.placed, .inr (h.filled_counted hne)⟩
    change Stored (w.disk.performAll _).fs w.set.fpath_ t
    rw [Disk.performAll_fs]
    exact h.stored.take_build (rehash env (growthSize t.length) (visited t)) 3
  refine ⟨?_, hgood⟩
  have hscan : scanOwn env file (withUsed w (counted w.set.nslots_used_ t)) =
      (.ok (visited t), withUsed w (counted w.set.nslots_used_ t)) :=
    scanOwn_eq env h.stored h.nslots_eq h.size hf
  have hdata : rehash env (growthSize (withUsed w (counted w.set.nslots_used_ t)).set.nslots_)
      (visited t) = rehash env (growthSize t.length) (visited t) := by
    change rehash env (growthSize w.set.nslots_) _ = _
    rw [h.nslots_eq]
  have hlong : File.maxTransfer <
      ((rehash env (growthSize t.length) (visited t)).flatMap SHA1Hash.hash).length := by
    rw [Records.length_flatMap SHA1Hash.size_eq, length_rehash, hb.1]
    decide
  rw [ensureRoom, Sys.get_bind, if_pos (hmust.2 hb.2), grow_raise hscan hdata hlong]
  rfl

/- `insert`. -/

/-- Where an id that is not there is written: at the first empty slot of its path. -/
structure Slot (env : Env) (t : List SHA1Hash) (id : SHA1Hash) (idx : Nat) : Prop where
  lt : idx < t.length
  empty : t.getD idx .zero = .zero
  path : ∃ d, idx = (hashOf env id+d) % t.length ∧ Path .zero t (hashOf env id) d
  placed : WellPlaced .zero (hashOf env) (t.set idx id)

/-- `lookup` on a table with room. -/
theorem lookup_room {env : Env} {fs : FileSystem} {file : File} {t : List SHA1Hash}
    (ht : Holds fs file.inode t) (hplaced : WellPlaced .zero (hashOf env) t)
    (hfull : occupied .zero t < t.length) (id : SHA1Hash) :
    (id = .zero ∨ id ∈ t) ∧ lookup env fs file t.length id = .ok .yes ∨
    id ≠ .zero ∧ id ∉ t ∧
      ∃ idx, Slot env t id idx ∧ lookup env fs file t.length id = .ok (.no idx) := by
  obtain ⟨d, hd, hstop, hbefore, hlookup⟩ := lookup_eq env ht hfull id
  by_cases hzero : id = .zero
  · refine .inl ⟨.inl hzero, ?_⟩
    rw [hlookup, if_pos]
    cases hstop with
    | inl hs => exact hs
    | inr hs => rw [hs, hzero]
  · have hiff := hplaced.stop_eq_iff hzero hstop hbefore
    by_cases hmem : id ∈ t
    · exact .inl ⟨.inr hmem, by rw [hlookup, if_pos (hiff.2 hmem)]⟩
    · have hne : ¬slot .zero t (hashOf env id) d = id := fun heq => hmem (hiff.1 heq)
      have hempty := hstop.resolve_left hne
      have hpath : Path .zero t (hashOf env id) d := fun j hj => (hbefore j hj).2
      exact .inr ⟨hzero, hmem, _, ⟨Nat.mod_lt _ (by omega), hempty, ⟨d, rfl, hpath⟩,
        hplaced.set hd hempty hpath⟩, by rw [hlookup, if_neg hne]⟩

def slotWorld (w : World) (file : File) (id : SHA1Hash) (idx : Nat) : World :=
  { disk := w.disk.perform (.write file.inode (headerSize+idx*SHA1Hash.kSize) id.hash)
    set := { w.set with nslots_used_ := (w.set.nslots_used_+1) % 2^64 } }

/-- The three ways in which `insert` can end. -/
inductive InsertCase (env : Env) (w : World) (t : List SHA1Hash) (file : File) (id : SHA1Hash) : Prop
  | blocked (hb : Blocked (counted w.set.nslots_used_ t) t)
    (heq : insert env file id w = (File.ioError (lit "write() failed"), blockedWorld env w t))
    (hgood : Good env (blockedWorld env w t) t)
  | present (file' : File) (hb : ¬Blocked (counted w.set.nslots_used_ t) t)
    (hid : id = .zero ∨ id ∈ t)
    (heq : insert env file id w = (.ok (file', false), roomWorld env w t))
    (hgood : Good env (roomWorld env w t) (roomTable env (counted w.set.nslots_used_ t) t))
    (hopen : Opened (roomWorld env w t) file')
  | written (file' file'' : File) (idx : Nat) (hb : ¬Blocked (counted w.set.nslots_used_ t) t)
    (hzero : id ≠ .zero) (hid : id ∉ t)
    (hslot : Slot env (roomTable env (counted w.set.nslots_used_ t) t) id idx)
    (hopen : Opened (roomWorld env w t) file') (hinode : file''.inode = file'.inode)
    (heq : insert env file id w = (.ok (file'', true), slotWorld (roomWorld env w t) file' id idx))
    (hgood : Good env (slotWorld (roomWorld env w t) file' id idx)
      ((roomTable env (counted w.set.nslots_used_ t) t).set idx id))

theorem Room.not_full {used : Nat} {t : List SHA1Hash} (h : Room used t) :
    occupied .zero t < t.length := by
  have hocc := h.occupied_le
  omega

theorem writeSlot_eq {w : World} (file : File) (id : SHA1Hash) {idx : Nat} (hidx : idx < 2^26) :
    ∃ file' : File, file'.inode = file.inode ∧
      writeSlot file id idx w = (.ok file', slotWorld w file id idx) := by
  have hseek : file.seekTo (headerSize+idx*SHA1Hash.kSize) =
      .ok { file with pos := headerSize+idx*SHA1Hash.kSize } :=
    seekTo_eq file (by simp only [headerSize, SHA1Hash.kSize]; omega)
  have hlen : id.hash.length ≤ File.maxTransfer := by
    rw [id.size_eq]
    decide
  refine ⟨⟨file.inode, headerSize+idx*SHA1Hash.kSize+id.hash.length⟩, rfl, ?_⟩
  rw [writeSlot, Sys.reads_bind (f := fun _ => file.seekTo _) (s := w) hseek,
    Sys.bind_of_ok (onDisk_ok (write_ok _ hlen _)), List.take_of_length_le hlen]
  rfl

/-- The invariant after the write of a slot. -/
theorem Good.slotWorld {env : Env} {w : World} {t : List SHA1Hash} {file : File} {id : SHA1Hash}
    {idx : Nat} (h : Good env w t) (hf : Opened w file) (hsize : ValidSize t.length)
    (hroom : Room w.set.nslots_used_ t) (hslot : Slot env t id idx) (hid : id ≠ .zero) :
    Good env (slotWorld w file id idx) (t.set idx id) where
  stored := h.stored.write_slot hf hslot.lt id
  nslots_eq := by
    rw [List.length_set]
    exact h.nslots_eq
  placed := hslot.placed
  filled := by
    have hlen : (t.set idx id).length = t.length := List.length_set
    have hocc : occupied .zero (t.set idx id) = occupied .zero t+1 :=
      (Probing.keys_set hslot.lt hslot.empty hid).length_eq
    have hused := hroom.used_le
    have hle := hsize.le
    refine .inr ⟨by rwa [hlen], ?_⟩
    change Filled ((w.set.nslots_used_+1) % 2^64) _
    rw [Nat.mod_eq_of_lt (by omega)]
    exact hroom.filled_succ hlen hocc

theorem insert_cases {env : Env} {w : World} {t : List SHA1Hash} {file : File} (h : Good env w t)
    (hf : Opened w file) (id : SHA1Hash) : InsertCase env w t file id := by
  have hcount := countUsed_eq h hf
  by_cases hb : Blocked (counted w.set.nslots_used_ t) t
  · obtain ⟨hraise, hgood⟩ := ensureRoom_raise h hf hb
    refine .blocked hb ?_ hgood
    rw [insert, Sys.bind_of_ok hcount, Sys.bind_of_raise hraise]
    rfl
  · obtain ⟨file', hroom, hopen, hstored⟩ := ensureRoom_ok h hf hb
    obtain ⟨hsize, hplaced, hnum⟩ := h.room hb
    have hgood : Good env (roomWorld env w t) (roomTable env (counted w.set.nslots_used_ t) t) :=
      ⟨hstored, rfl, hplaced, .inr ⟨hsize, hnum.filled⟩⟩
    cases lookup_room (hstored.holds hopen hsize) hplaced hnum.not_full id with
    | inl hyes =>
      have hlookup : lookupOwn env file' id (roomWorld env w t) = (.ok .yes, roomWorld env w t) :=
        congrArg (·, roomWorld env w t) hyes.2
      refine .present file' hb ?_ ?_ hgood hopen
      · by_cases hzero : id = .zero
        · exact .inl hzero
        · exact .inr ((h.mem_roomTable hzero).1 (hyes.1.resolve_left hzero))
      · rw [insert, Sys.bind_of_ok hcount, Sys.bind_of_ok hroom, Sys.bind_of_ok hlookup]
        rfl
    | inr hno =>
      obtain ⟨hzero, hmem, idx, hslot, hno⟩ := hno
      have hlookup : lookupOwn env file' id (roomWorld env w t) =
          (.ok (.no idx), roomWorld env w t) := congrArg (·, roomWorld env w t) hno
      have hidx := hslot.lt
      have hle := hsize.le
      obtain ⟨file'', hinode, hwrite⟩ := writeSlot_eq (w := roomWorld env w t) file' id
        (Nat.lt_of_lt_of_le hidx hle)
      refine .written file' file'' idx hb hzero (mt (h.mem_roomTable hzero).2 hmem) hslot hopen
        hinode ?_ (hgood.slotWorld hopen hsize hnum hslot hzero)
      rw [insert, Sys.bind_of_ok hcount, Sys.bind_of_ok hroom, Sys.bind_of_ok hlookup]
      dsimp only
      rw [Sys.bind_of_ok hwrite]
      rfl

end PersistentHashSet
end Stx
