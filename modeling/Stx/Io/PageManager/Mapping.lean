import Stx.Io.PageManager
import Stx.Lib.Runs

/-! The pages of an `MmapPageManager` against the file and the mappings behind them. -/
namespace Stx.Io

/-- A manager with the references that it has returned. -/
structure Mappings where
  manager : MmapPageManager
  refs : List MmappedPageRef := []

namespace Mappings
open MmapPageManager

/-- The calls, with the system calls that fail in them. -/
inductive Action where
  | getPage (page : Page) (allow_padding : Bool) (faults : Faults)
  | shrinkFile (faults : Faults)

def new (filename : Bytes) (file_size sys_page_size : UInt64) : Mappings :=
  { manager := MmapPageManager.new filename file_size sys_page_size file_size }

/-- Only calls that return are steps. -/
def step (s : Mappings) : Action → Option Mappings
  | .getPage page allow_padding faults =>
    match getPageImpl faults page allow_padding s.manager with
    | (.ok ref, manager) => some { manager := manager, refs := s.refs ++ [ref] }
    | _ => none
  | .shrinkFile faults =>
    match MmapPageManager.shrinkFile faults s.manager with
    | (.ok _, manager) => some { s with manager := manager }
    | _ => none

def last_byte (page : Page) : Nat := page.offset.toNat+page.size.toNat

/-- Pages end below 2^63. -/
def Fits (_ : Mappings) : Action → Prop
  | .getPage page _ _ => last_byte page < 2^63
  | .shrinkFile _ => True

instance (s : Mappings) : (a : Action) → Decidable (s.Fits a)
  | .getPage _ _ _ => inferInstanceAs (Decidable (_ < _))
  | .shrinkFile _ => inferInstanceAs (Decidable True)

structure Good (sys_page_size : UInt64) (s : Mappings) : Prop where
  sys_page_size_ : s.manager.sys_page_size_ = sys_page_size
  used_bytes_ : s.manager.used_bytes_ ≤ s.manager.file_size_
  file_size_ : s.manager.file_size_ = s.manager.length
  used : ∀ ref ∈ s.refs, last_byte ref.page_ ≤ s.manager.used_bytes_.toNat
  mapped : ∀ ref ∈ s.refs, last_byte ref.page_ ≤ ref.file_.size.toNat

section calls
variable {m m' : MmapPageManager} {faults : Faults} {last size : UInt64} {allow_padding : Bool}
  {page : Page} {ref : MmappedPageRef} {mapping : MmappedFile} {sys_page_size : UInt64}
  {s u : Mappings}

theorem truncate_ok (h : truncate faults size m = (.ok (), m')) : m' = { m with length := size } := by
  unfold truncate at h
  dsimp only at h
  split at h
  · cases h
  · split at h
    · cases h
    · cases h
      rfl

theorem shrinkFile_ok (h : MmapPageManager.shrinkFile faults m = (.ok (), m')) :
    m' = { m with length := m.used_bytes_, file_size_ := m.used_bytes_ } := by
  obtain ⟨_, m₁, hget, h⟩ := Sys.bind_eq_ok h
  cases hget
  obtain ⟨_, m₂, htruncate, h⟩ := Sys.bind_eq_ok h
  obtain rfl := truncate_ok htruncate
  cases h
  rfl

theorem grow_ok (h : grow faults last allow_padding m = (.ok (), m')) :
    (last ≤ m.file_size_ ∧ m' = m) ∨
    m.file_size_ < last ∧ m' = { m with
      length := m.new_size last allow_padding, file_size_ := m.new_size last allow_padding } := by
  obtain ⟨_, m₁, hget, h⟩ := Sys.bind_eq_ok h
  cases hget
  split at h
  · next hlt =>
    obtain ⟨_, m₂, htruncate, h⟩ := Sys.bind_eq_ok h
    obtain rfl := truncate_ok htruncate
    cases h
    exact .inr ⟨hlt, rfl⟩
  · next hle =>
    cases h
    exact .inl ⟨UInt64.not_lt.1 hle, rfl⟩

theorem mapFile_ok (h : mapFile faults m = (.ok mapping, m')) :
    mapping.size = m.length ∧ m' = { m with current_mapping_ := some mapping } := by
  obtain ⟨mmap_size, m₁, hsize, h⟩ := Sys.bind_eq_ok h
  obtain ⟨mapping', m₂, hmapped, h⟩ := Sys.bind_eq_ok h
  have hlength : mmap_size = m.length ∧ m₁ = m := by
    simp only [Sys.reads_apply, openedSize, RAISE_ERRNO] at hsize
    split at hsize <;> cases hsize
    exact ⟨rfl, rfl⟩
  obtain ⟨rfl, rfl⟩ := hlength
  have hmapping : mapping' = ⟨m₁.length⟩ ∧ m₂ = m₁ := by
    simp only [Sys.reads_apply, MmapPageManager.mapped, RAISE_ERRNO] at hmapped
    split at hmapped
    · split at hmapped <;> cases hmapped
      exact ⟨rfl, rfl⟩
    · cases hmapped
      exact ⟨rfl, rfl⟩
  obtain ⟨rfl, rfl⟩ := hmapping
  cases h
  exact ⟨rfl, rfl⟩

/-- The mapping that is used reaches the end of the page, or is new and reaches the end of the file. -/
theorem getMmappedFile_ok (h : getMmappedFile faults last m = (.ok mapping, m')) :
    (last ≤ mapping.size ∨ mapping.size = m.length) ∧
      ∃ current, m' = { m with current_mapping_ := current } := by
  unfold getMmappedFile at h
  split at h
  · obtain ⟨hsize, rfl⟩ := mapFile_ok h
    exact ⟨.inr hsize, _, rfl⟩
  · split at h
    · obtain ⟨hsize, rfl⟩ := mapFile_ok h
      exact ⟨.inr hsize, _, rfl⟩
    · next hle =>
      cases h
      exact ⟨.inl (UInt64.not_lt.1 hle), _, rfl⟩

/-- The padded size is the next multiple of a positive block size behind the page. -/
theorem le_new_size (hpos : 0 < m.sys_page_size_.toNat)
    (hsmall : m.sys_page_size_.toNat*128 < 2^63) (hlast : last.toNat < 2^63) :
    last ≤ m.new_size last allow_padding := by
  rw [UInt64.le_iff_toNat_le, new_size]
  split
  · have hblock : (m.sys_page_size_*kMmapSizeMultiplier).toNat = m.sys_page_size_.toNat*128 := by
      rw [UInt64.toNat_mul]
      exact Nat.mod_eq_of_lt (Nat.lt_trans hsmall (by decide))
    let n := last.toNat
    let b := m.sys_page_size_.toNat*128
    have hb : 0 < b := Nat.mul_pos hpos (by decide)
    have hle : n/b*b ≤ n := Nat.div_mul_le_self n b
    have hlt : n < (n/b+1)*b := Nat.lt_mul_of_div_lt (Nat.lt_succ_self _) hb
    have hsum : (n/b+1)*b = n/b*b+b := Nat.succ_mul _ _
    have hquot : n/b ≤ n := Nat.div_le_self n b
    have hsucc : (last/(m.sys_page_size_*kMmapSizeMultiplier)+1).toNat = n/b+1 := by
      rw [UInt64.toNat_add, UInt64.toNat_div, hblock, UInt64.toNat_one]
      exact Nat.mod_eq_of_lt (by change n/b+1 < 2^64; omega)
    dsimp only
    rw [UInt64.toNat_mul, hsucc, hblock, Nat.mod_eq_of_lt (by change (n/b+1)*b < 2^64; omega)]
    exact Nat.le_of_lt hlt
  · exact Nat.le_refl _

theorem use_eq (last : UInt64) (m : MmapPageManager) : ∃ used, use last m = { m with used_bytes_ := used } ∧
    m.used_bytes_ ≤ used ∧ last ≤ used ∧ (used = m.used_bytes_ ∨ used = last) := by
  unfold use
  split
  · next hlt => exact ⟨last, rfl, UInt64.le_of_lt hlt, UInt64.le_refl _, .inr rfl⟩
  · next hle => exact ⟨m.used_bytes_, rfl, UInt64.le_refl _, UInt64.not_lt.1 hle, .inl rfl⟩

/-- What a call of `getPage` that returns leaves behind, where the sizes were in order before it. -/
theorem getPageImpl_ok (hpos : 0 < m.sys_page_size_.toNat)
    (hsmall : m.sys_page_size_.toNat*128 < 2^63) (hlast : last_byte page < 2^63)
    (hused : m.used_bytes_ ≤ m.file_size_) (hfile : m.file_size_ = m.length)
    (h : getPageImpl faults page allow_padding m = (.ok ref, m')) :
    (m'.sys_page_size_ = m.sys_page_size_ ∧ m'.used_bytes_ ≤ m'.file_size_ ∧
      m'.file_size_ = m'.length ∧ m.used_bytes_ ≤ m'.used_bytes_) ∧
    ref.page_ = page ∧ last_byte page ≤ m'.used_bytes_.toNat ∧
      last_byte page ≤ ref.file_.size.toNat := by
  have hsum : (page.offset+page.size).toNat = last_byte page := by
    rw [UInt64.toNat_add]
    exact Nat.mod_eq_of_lt (Nat.lt_trans hlast (by decide))
  rw [← hsum] at hlast ⊢
  obtain ⟨_, m₁, hlock, h⟩ := Sys.bind_eq_ok h
  obtain ⟨_, m₂, huse, h⟩ := Sys.bind_eq_ok h
  obtain ⟨_, m₃, hgrow, h⟩ := Sys.bind_eq_ok h
  obtain ⟨file, m₄, hmap, h⟩ := Sys.bind_eq_ok h
  obtain ⟨_, m₅, hget, h⟩ := Sys.bind_eq_ok h
  cases hget
  obtain ⟨_, m₆, hunlock, h⟩ := Sys.bind_eq_ok h
  cases hunlock
  cases h
  have hlocked : m₁ = { m with mmap_mutex_ := true } := by
    unfold lock at hlock
    split at hlock <;> cases hlock
    rfl
  subst hlocked
  cases huse
  obtain ⟨used, huse, hle, hlast', hor⟩ := use_eq (page.offset+page.size) { m with mmap_mutex_ := true }
  rw [huse] at hgrow
  obtain ⟨hsize, current, rfl⟩ := getMmappedFile_ok hmap
  -- the file reaches the end of the page, and all that was used
  have hm₃ : m₃.sys_page_size_ = m.sys_page_size_ ∧ m₃.used_bytes_ = used ∧
      m₃.file_size_ = m₃.length ∧ used ≤ m₃.file_size_ ∧ page.offset+page.size ≤ m₃.length := by
    rcases grow_ok hgrow with ⟨hfits, rfl⟩ | ⟨hlt, rfl⟩
    · refine ⟨rfl, rfl, hfile, ?_, hfile ▸ hfits⟩
      rcases hor with rfl | rfl
      · exact hused
      · exact hfits
    · have hnew : page.offset+page.size ≤ new_size { m with mmap_mutex_ := true, used_bytes_ := used }
          (page.offset+page.size) allow_padding := le_new_size hpos hsmall hlast
      refine ⟨rfl, rfl, rfl, ?_, hnew⟩
      rcases hor with rfl | rfl
      · exact UInt64.le_trans (UInt64.le_trans hused (UInt64.le_of_lt hlt)) hnew
      · exact hnew
  obtain ⟨hsys, hused₃, hfile₃, hle₃, hlast₃⟩ := hm₃
  refine ⟨⟨hsys, ?_, hfile₃, ?_⟩, rfl, ?_, ?_⟩
  · change m₃.used_bytes_ ≤ m₃.file_size_
    rw [hused₃]
    exact hle₃
  · change m.used_bytes_ ≤ m₃.used_bytes_
    rw [hused₃]
    exact hle
  · change _ ≤ m₃.used_bytes_.toNat
    rw [hused₃]
    exact UInt64.le_iff_toNat_le.1 hlast'
  · rcases hsize with hmapped | hmapped
    · exact UInt64.le_iff_toNat_le.1 hmapped
    · change _ ≤ file.size.toNat
      rw [hmapped]
      exact UInt64.le_iff_toNat_le.1 hlast₃

theorem Good.step (hs : s.Good sys_page_size) (hpos : 0 < sys_page_size.toNat)
    (hsmall : sys_page_size.toNat*128 < 2^63) {a : Action} (hfits : s.Fits a)
    (h : s.step a = some u) : u.Good sys_page_size := by
  rw [← hs.sys_page_size_] at hpos hsmall
  cases a with
  | getPage page allow_padding faults =>
    rw [Mappings.step] at h
    split at h
    · next ref m' hcall =>
      cases h
      obtain ⟨⟨hsys, hused, hfile, hmono⟩, rfl, hlast, hmapped⟩ :=
        getPageImpl_ok hpos hsmall hfits hs.used_bytes_ hs.file_size_ hcall
      refine ⟨hsys.trans hs.sys_page_size_, hused, hfile, fun ref' href => ?_, fun ref' href => ?_⟩
      · cases List.mem_append.1 href with
        | inl hold => exact Nat.le_trans (hs.used ref' hold) (UInt64.le_iff_toNat_le.1 hmono)
        | inr hnew =>
          obtain rfl := List.mem_singleton.1 hnew
          exact hlast
      · cases List.mem_append.1 href with
        | inl hold => exact hs.mapped ref' hold
        | inr hnew =>
          obtain rfl := List.mem_singleton.1 hnew
          exact hmapped
    · cases h
  | shrinkFile faults =>
    rw [Mappings.step] at h
    split at h
    · next hcall =>
      cases h
      obtain rfl := shrinkFile_ok hcall
      exact ⟨hs.sys_page_size_, UInt64.le_refl _, rfl, hs.used, hs.mapped⟩
    · cases h

/-- The file is as long as the manager takes it to be, and no page that was ever returned ends behind
the file or behind its mapping. `sysconf` gives a positive page size, of which 128 make an `off_t`. -/
theorem pages_stay_backed {filename : Bytes} {file_size : UInt64} {as : List Action}
    (hpos : 0 < sys_page_size.toNat) (hsmall : sys_page_size.toNat*128 < 2^63)
    (h : Runs.Reaches Mappings.step Fits (new filename file_size sys_page_size) as s) :
    s.manager.used_bytes_ ≤ s.manager.file_size_ ∧ s.manager.file_size_ = s.manager.length ∧
      ∀ ref ∈ s.refs, last_byte ref.page_ ≤ s.manager.length.toNat ∧
        last_byte ref.page_ ≤ ref.file_.size.toNat := by
  have hgood : s.Good sys_page_size := by
    refine h.invariant (P := Good sys_page_size) ?_ fun s a u hs hfits hstep =>
      hs.step hpos hsmall hfits hstep
    exact ⟨rfl, UInt64.le_refl _, rfl, fun _ href => (by cases href), fun _ href => (by cases href)⟩
  refine ⟨hgood.used_bytes_, hgood.file_size_, fun ref href => ⟨?_, hgood.mapped ref href⟩⟩
  have hle := UInt64.le_iff_toNat_le.1 hgood.used_bytes_
  rw [hgood.file_size_] at hle
  exact Nat.le_trans (hgood.used ref href) hle

/-- The file grows with padding, shrinks below the mapping, and grows again without padding. -/
theorem pages_stay_backed_shrunk :
    ∃ s, Runs.Reaches Mappings.step Fits (new (lit "data") 100 4096) [.getPage ⟨50, 3000⟩ true {},
        .shrinkFile {}, .getPage ⟨524200, 400⟩ false {}, .getPage ⟨3000, 100⟩ true {}] s ∧
      (s.refs.map fun ref => ref.file_.size) = [524288, 524600, 524600] ∧
      s.manager.used_bytes_ ≤ s.manager.file_size_ ∧ s.manager.file_size_ = s.manager.length ∧
      ∀ ref ∈ s.refs, last_byte ref.page_ ≤ s.manager.length.toNat ∧
        last_byte ref.page_ ≤ ref.file_.size.toNat := by
  have hruns : (([.getPage ⟨50, 3000⟩ true {}, .shrinkFile {}, .getPage ⟨524200, 400⟩ false {},
      .getPage ⟨3000, 100⟩ true {}] : List Action).foldlM (Runs.guarded Mappings.step Fits)
      (new (lit "data") 100 4096)).map (fun s => s.refs.map fun ref => ref.file_.size) =
      some [524288, 524600, 524600] := by decide +kernel
  obtain ⟨s, hrun, hsizes⟩ := Runs.exists_of_foldlM _ hruns
  exact ⟨s, hrun, hsizes, pages_stay_backed (by decide) (by decide) hrun⟩

end calls

end Mappings
end Stx.Io
