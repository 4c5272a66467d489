import Stx.Util.PersistentHashSet.Table

/-! The file of a set and its side file `fpath_~` on the disk: what each of the changes
that `addRecordID` makes does to the table that is stored. -/
namespace Stx.PersistentHashSet
open Probing (slot occupied Path WellPlaced Grows)

theorem tmpPath_ne (fpath : Bytes) : tmpPath fpath ≠ fpath := by
  intro h
  have hlen := congrArg List.length h
  rw [tmpPath, List.length_append] at hlen
  exact absurd hlen (by simp [lit])

/-- The contents of the file for the table `t`; before the first growth there is no table,
and the file, if it was created at all, is empty. -/
def contents (t : List SHA1Hash) : Bytes := if t = [] then [] else image t

theorem contents_of_ne {t : List SHA1Hash} (h : t ≠ []) : contents t = image t := if_neg h

/-- The file system has the table `t` under the name of the set, and the side file is
another file. -/
structure Stored (fs : FileSystem) (fpath : Bytes) (t : List SHA1Hash) : Prop where
  content_eq : ∀ i, fs.names fpath = some i → fs.content i = contents t
  exists_of_ne : t ≠ [] → ∃ i, fs.names fpath = some i
  tmp_ne : ∀ i, fs.names fpath = some i → fs.names (tmpPath fpath) ≠ some i

theorem Stored.of_missing {fs : FileSystem} {fpath : Bytes} (h : fs.names fpath = none) :
    Stored fs fpath [] where
  content_eq i hi := by rw [h] at hi; cases hi
  exists_of_ne hne := absurd rfl hne
  tmp_ne i hi := by rw [h] at hi; cases hi

/- Opening the side file. -/

/-- The inode that the side file gets, and how. -/
def sideInode (fs : FileSystem) (path : Bytes) : Nat := (fs.names path).getD fs.next

def sideEffect (fs : FileSystem) (path : Bytes) : Effect :=
  match fs.names path with
  | none => .create path
  | some i => .truncate i

theorem openFile_side (path : Bytes) (d : Disk) :
    File.openFile path { createOrOpen := true, write := true, read := true, truncate := true } d =
      (.ok ⟨sideInode d.fs path, 0⟩, d.perform (sideEffect d.fs path)) := by
  have hopen : File.openFd path
      { createOrOpen := true, write := true, read := true, truncate := true } d =
      (.ok ⟨sideInode d.fs path, 0⟩, d.perform (sideEffect d.fs path)) := by
    unfold File.openFd sideInode sideEffect
    cases d.fs.names path <;> rfl
  exact Sys.bind_of_ok hopen

theorem names_side (fs : FileSystem) (path : Bytes) :
    (fs.apply (sideEffect fs path)).names path = some (sideInode fs path) := by
  unfold sideEffect sideInode
  cases hn : fs.names path with
  | none => exact Function.update_self ..
  | some i => exact hn

theorem names_side_of_ne (fs : FileSystem) {path p : Bytes} (h : p ≠ path) :
    (fs.apply (sideEffect fs path)).names p = fs.names p := by
  unfold sideEffect
  cases fs.names path with
  | none => exact Function.update_of_ne h ..
  | some i => rfl

theorem content_side (fs : FileSystem) (path : Bytes) :
    (fs.apply (sideEffect fs path)).content (sideInode fs path) = [] := by
  unfold sideEffect sideInode
  cases fs.names path with
  | none => exact Function.update_self ..
  | some i => exact Function.update_self ..

theorem content_side_of_ne (fs : FileSystem) {path : Bytes} {i : Nat} (h : i ≠ sideInode fs path) :
    (fs.apply (sideEffect fs path)).content i = fs.content i := by
  unfold sideEffect sideInode at *
  cases hn : fs.names path with
  | none => rw [hn] at h; exact Function.update_of_ne h ..
  | some j => rw [hn] at h; exact Function.update_of_ne h ..

/-- The inode of the side file is not the one of the set. -/
theorem Stored.ne_sideInode {fs : FileSystem} {fpath : Bytes} {t : List SHA1Hash}
    (h : Stored fs fpath t) {i : Nat} (hi : fs.names fpath = some i) :
    i ≠ sideInode fs (tmpPath fpath) := by
  unfold sideInode
  cases hn : fs.names (tmpPath fpath) with
  | none => exact Nat.ne_of_lt (fs.names_lt fpath i hi)
  | some j =>
    rintro rfl
    exact h.tmp_ne _ hi hn

/- What each change does to the stored table. -/

theorem Stored.side {fs : FileSystem} {fpath : Bytes} {t : List SHA1Hash}
    (h : Stored fs fpath t) : Stored (fs.apply (sideEffect fs (tmpPath fpath))) fpath t := by
  have hname := names_side_of_ne fs (tmpPath_ne fpath).symm
  refine ⟨fun i hi => ?_, fun hne => ?_, fun i hi => ?_⟩
  · rw [hname] at hi
    rw [content_side_of_ne fs (h.ne_sideInode hi)]
    exact h.content_eq i hi
  · rw [hname]
    exact h.exists_of_ne hne
  · rw [hname] at hi
    rw [names_side]
    exact fun heq => h.ne_sideInode hi (Option.some.inj heq).symm

theorem Stored.write_side {fs : FileSystem} {fpath : Bytes} {t : List SHA1Hash} {j : Nat}
    (h : Stored fs fpath t) (hj : fs.names (tmpPath fpath) = some j) (pos : Nat) (data : Bytes) :
    Stored (fs.apply (.write j pos data)) fpath t where
  content_eq i hi := by
    have hne : i ≠ j := by
      rintro rfl
      exact h.tmp_ne i hi hj
    exact (Function.update_of_ne hne ..).trans (h.content_eq i hi)
  exists_of_ne := h.exists_of_ne
  tmp_ne := h.tmp_ne

/-- The side file takes the place of the file. -/
theorem Stored.rename {fs : FileSystem} {fpath : Bytes} {t : List SHA1Hash} {j : Nat}
    (hj : fs.names (tmpPath fpath) = some j) (hc : fs.content j = contents t) :
    Stored (fs.apply (.rename (tmpPath fpath) fpath)) fpath t ∧
      (fs.apply (.rename (tmpPath fpath) fpath)).names fpath = some j := by
  have hname : (fs.apply (.rename (tmpPath fpath) fpath)).names fpath = some j := by
    simp only [FileSystem.apply, if_neg (tmpPath_ne fpath)]
    rw [Function.update_of_ne (tmpPath_ne fpath).symm, Function.update_self, hj]
  have htmp : (fs.apply (.rename (tmpPath fpath) fpath)).names (tmpPath fpath) = none := by
    simp only [FileSystem.apply, if_neg (tmpPath_ne fpath), Function.update_self]
  refine ⟨⟨fun i hi => ?_, fun _ => ⟨j, hname⟩, fun i _ hi => ?_⟩, hname⟩
  · cases hname.symm.trans hi
    exact hc
  · rw [htmp] at hi
    cases hi

theorem Stored.create (fs : FileSystem) (fpath : Bytes) :
    Stored (fs.apply (.create fpath)) fpath [] ∧
      (fs.apply (.create fpath)).names fpath = some fs.next := by
  have hname : (fs.apply (.create fpath)).names fpath = some fs.next := Function.update_self ..
  refine ⟨⟨fun i hi => ?_, fun hne => absurd rfl hne, fun i hi => ?_⟩, hname⟩
  · cases hname.symm.trans hi
    exact Function.update_self ..
  · cases hname.symm.trans hi
    change Function.update fs.names fpath (some fs.next) (tmpPath fpath) ≠ some fs.next
    rw [Function.update_of_ne (tmpPath_ne fpath)]
    intro heq
    exact Nat.lt_irrefl _ (fs.names_lt _ _ heq)

theorem Stored.write_slot {fs : FileSystem} {fpath : Bytes} {t : List SHA1Hash} {i idx : Nat}
    (h : Stored fs fpath t) (hi : fs.names fpath = some i) (hidx : idx < t.length) (id : SHA1Hash) :
    Stored (fs.apply (.write i (headerSize+idx*SHA1Hash.kSize) id.hash)) fpath (t.set idx id) := by
  have hne : t ≠ [] := by
    rintro rfl
    cases hidx
  have hset : t.set idx id ≠ [] := by
    intro heq
    have hlen := congrArg List.length heq
    rw [List.length_set] at hlen
    rw [hlen] at hidx
    cases hidx
  refine ⟨fun j hj => ?_, fun _ => ⟨i, hi⟩, h.tmp_ne⟩
  cases Option.some.inj (hi.symm.trans hj)
  change Function.update fs.content i _ i = _
  rw [Function.update_self, h.content_eq i hi, contents_of_ne hne, contents_of_ne hset,
    splice_image hidx]

/- The constructor. -/

theorem openFile_read {path : Bytes} {d : Disk} {i : Nat} (h : d.fs.names path = some i) :
    File.openFile path { read := true } d = (.ok ⟨i, 0⟩, d) := by
  have hopen : File.openFd path { read := true } d = (.ok ⟨i, 0⟩, d) := by
    rw [File.openFd, h]
    rfl
  exact Sys.bind_of_ok hopen

theorem new_missing {fpath : Bytes} {d : Disk} (h : d.fs.names fpath = none) :
    new fpath d = (.ok { fpath_ := fpath }, d) := by
  unfold new
  rw [Sys.get_bind, if_neg (by rw [FileUtil.exists_, h]; decide)]
  rfl

theorem new_image {fpath : Bytes} {d : Disk} {t : List SHA1Hash} (h : Stored d.fs fpath t)
    (hne : t ≠ []) (ht : ValidSize t.length) :
    new fpath d = (.ok { fpath_ := fpath, nslots_ := t.length }, d) := by
  obtain ⟨i, hi⟩ := h.exists_of_ne hne
  have hcontent : d.fs.content i = image t := (h.content_eq i hi).trans (contents_of_ne hne)
  have hle := ht.le
  have hread : (⟨i, 0⟩ : File).read d.fs headerSize = (header t.length, ⟨i, headerSize⟩) := by
    have htake : ((d.fs.content i).drop 0).take headerSize = header t.length := by
      rw [hcontent, List.drop_zero, image, ← length_header t.length, List.take_left]
    simp only [File.read, htake, length_header, Nat.zero_add]
  have hnslots : LittleEndian.decode (((header t.length).drop 4).take 8) = t.length := by
    have hdrop : ((header t.length).drop 4).take 8 = LittleEndian.encode 8 t.length :=
      List.take_of_length_le (by rw [List.length_drop, length_header]; decide)
    rw [hdrop, LittleEndian.decode_encode_of_lt (by omega)]
  have hsize : (⟨i, headerSize⟩ : File).size d.fs = headerSize+SHA1Hash.kSize*t.length := by
    rw [File.size, hcontent, length_image]
    rfl
  unfold new
  rw [Sys.get_bind, if_pos (by rw [FileUtil.exists_, hi]; rfl), Sys.bind_of_ok (openFile_read hi)]
  simp only [hread, length_header, hnslots, hsize]
  rw [if_neg (by simp), if_neg (by simp [header]), if_neg]
  · rfl
  · rw [Nat.mod_eq_of_lt (by simp only [headerSize, SHA1Hash.kSize]; omega)]
    exact fun hne => hne rfl

/-- An empty file is refused. -/
theorem new_empty {fpath : Bytes} {d : Disk} {i : Nat} (hi : d.fs.names fpath = some i)
    (hc : d.fs.content i = []) :
    new fpath d =
      (.raise ⟨.runtimeError, lit "error while reading file header"⟩, d) := by
  unfold new
  rw [Sys.get_bind, if_pos (by rw [FileUtil.exists_, hi]; rfl), Sys.bind_of_ok (openFile_read hi)]
  simp only [File.read, hc]
  rfl

end Stx.PersistentHashSet
