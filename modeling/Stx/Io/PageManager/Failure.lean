import Stx.Io.PageManager.Mapping

/-! A call of `getPage` that raises: which ones do, and the state that they leave. -/
namespace Stx.Io.MmapPageManager

/-- `FileUtil::truncate` raises. -/
def TruncateFails (faults : Faults) (new_size : UInt64) : Prop :=
  faults.truncate ≠ none ∨ 2^63 ≤ new_size.toNat

/-- The file has to grow for the page, and cannot. -/
def GrowFails (faults : Faults) (last_byte : UInt64) (allow_padding : Bool)
    (m : MmapPageManager) : Prop :=
  last_byte > m.file_size_ ∧ TruncateFails faults (m.new_size last_byte allow_padding)

def grown (last_byte : UInt64) (allow_padding : Bool) (m : MmapPageManager) : MmapPageManager :=
  if last_byte > m.file_size_ then
    { m with
      length := m.new_size last_byte allow_padding
      file_size_ := m.new_size last_byte allow_padding }
  else m

/-- The file has to be mapped for the page, and cannot be. -/
def MapFails (faults : Faults) (last_byte : UInt64) (m : MmapPageManager) : Prop :=
  (∀ mapping, m.current_mapping_ = some mapping → last_byte > mapping.size) ∧
    (faults.open_ ≠ none ∨ faults.fstat ≠ none ∨ faults.mmap ≠ none ∧ m.length > 0)

/-- A call that the mutex does not stop comes to a system call that fails. -/
def GetPageFails (faults : Faults) (page : Page) (allow_padding : Bool) (m : MmapPageManager) :
    Prop :=
  m.mmap_mutex_ = false ∧
    (GrowFails faults (page.offset+page.size) allow_padding m ∨
      MapFails faults (page.offset+page.size) (grown (page.offset+page.size) allow_padding m))

section
variable {faults : Faults} {m : MmapPageManager} {last new_size : UInt64} {allow_padding : Bool}
  {page : Page}

theorem truncate_raises (h : TruncateFails faults new_size) :
    ∃ e, truncate faults new_size m = (.raise e, m) := by
  unfold truncate
  dsimp only
  cases hfault : faults.truncate with
  | some strerror => exact ⟨_, rfl⟩
  | none =>
    simp only
    rw [if_pos (h.resolve_left (not_not.2 hfault))]
    exact ⟨_, rfl⟩

theorem truncate_returns (h : ¬TruncateFails faults new_size) :
    truncate faults new_size m = (.ok (), { m with length := new_size }) := by
  obtain ⟨hnone, hsize⟩ := not_or.1 h
  unfold truncate
  dsimp only
  rw [not_not.1 hnone]
  simp only
  rw [if_neg hsize]

theorem grow_raises (h : GrowFails faults last allow_padding m) :
    ∃ e, grow faults last allow_padding m = (.raise e, m) := by
  obtain ⟨e, he⟩ := truncate_raises (m := m) h.2
  refine ⟨e, ?_⟩
  rw [grow, Sys.get_bind, if_pos h.1]
  exact Sys.bind_of_raise he

theorem grow_returns (h : ¬GrowFails faults last allow_padding m) :
    grow faults last allow_padding m = (.ok (), grown last allow_padding m) := by
  rw [grow, Sys.get_bind, grown]
  split
  · next hlast =>
    have hok : ¬TruncateFails faults (m.new_size last allow_padding) := fun hfail => h ⟨hlast, hfail⟩
    exact Sys.bind_of_ok (truncate_returns hok)
  · rfl

theorem mapFile_raises (h : faults.open_ ≠ none ∨ faults.fstat ≠ none ∨
    faults.mmap ≠ none ∧ m.length > 0) : ∃ e, mapFile faults m = (.raise e, m) := by
  rw [mapFile]
  cases hopen : faults.open_ with
  | some strerror =>
    have hraise : openedSize faults m = RAISE_ERRNO .ioError
        (lit "openFile('" ++ m.filename_ ++ lit "'): open() failed") strerror := by
      simp only [openedSize, hopen]
    exact ⟨_, Sys.bind_of_raise (by rw [Sys.reads_apply, hraise]; rfl)⟩
  | none =>
    cases hfstat : faults.fstat with
    | some failure =>
      have hraise : openedSize faults m = RAISE_ERRNO .ioError
          (lit "fstat(" ++ StringUtil.toString failure.1 ++ lit ") failed") failure.2 := by
        simp only [openedSize, hopen, hfstat]
      exact ⟨_, Sys.bind_of_raise (by rw [Sys.reads_apply, hraise]; rfl)⟩
    | none =>
      obtain ⟨hmmap, hlength⟩ := (h.resolve_left (not_not.2 hopen)).resolve_left (not_not.2 hfstat)
      obtain ⟨strerror, hstrerror⟩ := Option.ne_none_iff_exists'.1 hmmap
      have hsize : openedSize faults m = .ok m.length := by
        simp only [openedSize, hopen, hfstat]
      have hraise : mapped faults m.length =
          RAISE_ERRNO .mallocError (lit "mmap() failed") strerror := by
        simp only [mapped, hstrerror]
        exact if_pos hlength
      rw [Sys.reads_bind hsize]
      exact ⟨_, Sys.bind_of_raise (by rw [Sys.reads_apply, hraise]; rfl)⟩

theorem mapFile_returns (h : ¬(faults.open_ ≠ none ∨ faults.fstat ≠ none ∨
    faults.mmap ≠ none ∧ m.length > 0)) : ∃ mapping m', mapFile faults m = (.ok mapping, m') := by
  obtain ⟨hopen, h⟩ := not_or.1 h
  obtain ⟨hfstat, hmmap⟩ := not_or.1 h
  have hsize : openedSize faults m = .ok m.length := by
    simp only [openedSize, not_not.1 hopen, not_not.1 hfstat]
  have hmapped : mapped faults m.length = .ok ⟨m.length⟩ := by
    cases hfault : faults.mmap with
    | none => simp only [mapped, hfault]
    | some strerror =>
      have hlength : ¬m.length > 0 := fun hpos => hmmap ⟨by simp [hfault], hpos⟩
      simp only [mapped, hfault]
      exact if_neg hlength
  have hmap : (Sys.reads fun _ => mapped faults m.length : Sys MmapPageManager _) m =
      (.ok ⟨m.length⟩, m) := by
    rw [Sys.reads_apply, hmapped]
  rw [mapFile, Sys.reads_bind hsize, Sys.bind_of_ok hmap]
  exact ⟨_, _, rfl⟩

theorem getMmappedFile_raises (h : MapFails faults last m) :
    ∃ e, getMmappedFile faults last m = (.raise e, m) := by
  unfold getMmappedFile
  split
  · exact mapFile_raises h.2
  · next mapping hmapping =>
    rw [if_pos (h.1 mapping hmapping)]
    exact mapFile_raises h.2

theorem getMmappedFile_returns (h : ¬MapFails faults last m) :
    ∃ mapping m', getMmappedFile faults last m = (.ok mapping, m') := by
  unfold getMmappedFile
  split
  · next hnone =>
    refine mapFile_returns fun hfail => h ⟨fun mapping hmapping => ?_, hfail⟩
    rw [hnone] at hmapping
    cases hmapping
  · next mapping hmapping =>
    split
    · next hlast =>
      refine mapFile_returns fun hfail => h ⟨fun mapping' hmapping' => ?_, hfail⟩
      rw [hmapping] at hmapping'
      cases hmapping'
      exact hlast
    · exact ⟨mapping, m, rfl⟩

/-- The manager behind the lines that the call begins with. -/
def entered (page : Page) (m : MmapPageManager) : MmapPageManager :=
  use (page.offset+page.size) { m with mmap_mutex_ := true }

/-- Only the counter of the used bytes and the mutex are set before the file is grown. -/
theorem entered_eq (page : Page) (m : MmapPageManager) : ∃ used,
    entered page m = { m with mmap_mutex_ := true, used_bytes_ := used } := by
  obtain ⟨used, huse, -⟩ := Mappings.use_eq (page.offset+page.size) { m with mmap_mutex_ := true }
  exact ⟨used, huse⟩

theorem growFails_entered : GrowFails faults last allow_padding (entered page m) ↔
    GrowFails faults last allow_padding m := by
  obtain ⟨used, hused⟩ := entered_eq page m
  rw [hused]
  exact Iff.rfl

theorem mapFails_entered : MapFails faults last (grown last allow_padding (entered page m)) ↔
    MapFails faults last (grown last allow_padding m) := by
  obtain ⟨used, hused⟩ := entered_eq page m
  rw [hused]
  unfold grown
  by_cases hlast : last > m.file_size_
  · rw [if_pos hlast, if_pos hlast]
    exact Iff.rfl
  · rw [if_neg hlast, if_neg hlast]
    exact Iff.rfl

theorem mutex_grown (last : UInt64) (allow_padding : Bool) (m : MmapPageManager) :
    (grown last allow_padding m).mmap_mutex_ = m.mmap_mutex_ := by
  unfold grown
  split <;> rfl

theorem mutex_entered (page : Page) (m : MmapPageManager) : (entered page m).mmap_mutex_ = true := by
  obtain ⟨used, hused⟩ := entered_eq page m
  rw [hused]

theorem getPageImpl_entered (h : m.mmap_mutex_ = false) :
    getPageImpl faults page allow_padding m = (do
      grow faults (page.offset+page.size) allow_padding
      let file ← getMmappedFile faults (page.offset+page.size)
      let m ← Sys.get
      unlock
      pure ⟨page, file, m.sys_page_size_⟩ : Sys MmapPageManager MmappedPageRef)
        (entered page m) := by
  have hlock : lock m = (.ok (), { m with mmap_mutex_ := true }) := by
    rw [lock, h]
    rfl
  rw [getPageImpl, Sys.bind_of_ok hlock]
  rfl

/-- A call that raises leaves the mutex locked. -/
theorem getPageImpl_raises (h : GetPageFails faults page allow_padding m) :
    ∃ e m', getPageImpl faults page allow_padding m = (.raise e, m') ∧ m'.mmap_mutex_ = true := by
  rw [getPageImpl_entered h.1]
  by_cases hgrow : GrowFails faults (page.offset+page.size) allow_padding m
  · obtain ⟨e, he⟩ := grow_raises (growFails_entered.2 hgrow)
    exact ⟨e, _, Sys.bind_of_raise he, mutex_entered page m⟩
  · obtain ⟨e, he⟩ := getMmappedFile_raises (mapFails_entered.2 (h.2.resolve_left hgrow))
    refine ⟨e, _, (Sys.bind_of_ok (grow_returns (mt growFails_entered.1 hgrow))).trans
      (Sys.bind_of_raise he), ?_⟩
    rw [mutex_grown, mutex_entered]

theorem getPageImpl_not_raises (h : ¬GetPageFails faults page allow_padding m) {e : Exception}
    {m' : MmapPageManager} : getPageImpl faults page allow_padding m ≠ (.raise e, m') := by
  intro hraise
  by_cases hmutex : m.mmap_mutex_ = false
  · obtain ⟨hgrow, hmap⟩ := not_or.1 fun hfail => h ⟨hmutex, hfail⟩
    obtain ⟨mapping, u, hmapping⟩ := getMmappedFile_returns (mt mapFails_entered.1 hmap)
    rw [getPageImpl_entered hmutex,
      Sys.bind_of_ok (grow_returns (mt growFails_entered.1 hgrow)), Sys.bind_of_ok hmapping] at hraise
    cases hraise
  · have hlock : lock m = (.diverge, m) := by
      rw [lock, if_pos (Bool.not_eq_false _ ▸ hmutex)]
    rw [getPageImpl, Sys.bind_of_diverge hlock] at hraise
    cases hraise

end

/-- The manager can be used as before the call, apart from a file that has grown. -/
structure Usable (m m' : MmapPageManager) : Prop where
  mmap_mutex_ : m'.mmap_mutex_ = false
  used_le : m'.used_bytes_ ≤ m'.file_size_
  used_bytes_ : m'.used_bytes_ = m.used_bytes_
  current_mapping_ : m'.current_mapping_ = m.current_mapping_
  file_size_ : m'.file_size_ = m.file_size_ ∨ m'.file_size_ = m'.length

/-- A call that raises never leaves the manager usable: it is so only of calls in which no system call
fails. -/
theorem usable_iff (faults : Faults) (page : Page) (allow_padding : Bool) (m : MmapPageManager) :
    (∀ e m', getPageImpl faults page allow_padding m = (.raise e, m') → Usable m m') ↔
      ¬GetPageFails faults page allow_padding m := by
  constructor
  · intro h hfails
    obtain ⟨e, m', hraise, hmutex⟩ := getPageImpl_raises hfails
    have husable := (h e m' hraise).mmap_mutex_
    rw [hmutex] at husable
    cases husable
  · exact fun h e m' hraise => absurd hraise (getPageImpl_not_raises h)

/-- The file cannot be grown by a page. -/
theorem full_disk_not_usable :
    ¬∀ (faults : Faults) (page : Page) (allow_padding : Bool) (m : MmapPageManager),
      m.used_bytes_ ≤ m.file_size_ → m.mmap_mutex_ = false → ∀ e m',
        getPageImpl faults page allow_padding m = (.raise e, m') → Usable m m' := by
  intro h
  have husable := h { truncate := some (lit "No space left on device") } ⟨0, 1⟩ true
    (new (lit "f") 0 4096 0) (by decide) rfl _ _ rfl
  exact absurd husable.mmap_mutex_ (by decide)

end Stx.Io.MmapPageManager
