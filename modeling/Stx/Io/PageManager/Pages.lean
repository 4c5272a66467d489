import Stx.Io.PageManager
import Stx.Lib.Runs
import Stx.Lib.Tilings

/-! The pages of a `PageManager`, allocated and free, share out what lies before `end_pos_`. -/
namespace Stx.Io

/-- A manager with the pages that were allocated and not freed since. -/
structure Pages where
  manager : PageManager
  allocated : List Page := []

namespace Pages
open Tilings
open scoped List

inductive Action where
  | allocPage (min_size : UInt64)
  | freePage (page : Page)

def new (block_size end_pos : UInt64) : Pages :=
  { manager := { block_size_ := block_size, end_pos_ := end_pos } }

/-- Only a page that is allocated is freed. -/
def step (s : Pages) : Action → Option Pages
  | .allocPage min_size =>
    let (page, manager) := s.manager.allocPage min_size
    some { manager := manager, allocated := s.allocated ++ [page] }
  | .freePage page =>
    if page ∈ s.allocated then
      some { manager := s.manager.freePage page, allocated := s.allocated.erase page }
    else none

/-- The sums of a call are below 2^64: the one that is aligned, and that of a new page with `end_pos_`. -/
def Fits (s : Pages) : Action → Prop
  | .allocPage min_size =>
    min_size.toNat+s.manager.block_size_.toNat-1 < 2^64 ∧
      (s.manager.findFreePage (s.manager.align min_size) = none →
        s.manager.end_pos_.toNat+(s.manager.align min_size).toNat < 2^64)
  | .freePage _ => True

def free (s : Pages) : List Page := s.manager.freelist_.map fun entry => ⟨entry.2, entry.1⟩

def all (s : Pages) : List Page := s.allocated ++ s.free

abbrev first (page : Page) : Nat := page.offset.toNat

abbrev size (page : Page) : Nat := page.size.toNat

instance (s : Pages) : (a : Action) → Decidable (s.Fits a)
  | .allocPage _ => inferInstanceAs (Decidable (_ ∧ _))
  | .freePage _ => inferInstanceAs (Decidable True)

/-- In the order in which they were created, the pages tile what lies behind `start`. -/
structure Good (block_size : UInt64) (start : Nat) (s : Pages) : Prop where
  block_size_ : s.manager.block_size_ = block_size
  tiles : ∃ created : List Page, s.all.Perm created ∧
    Tiles first size start created s.manager.end_pos_.toNat
  multiple : ∀ page ∈ s.all, block_size.toNat ∣ page.size.toNat

section pages
variable {block_size end_pos : UInt64} {start : Nat} {s u : Pages} {min_size : UInt64}

theorem findFreeIn_perm {l rest : List (UInt64 × UInt64)} {page : Page}
    (h : PageManager.findFreeIn min_size l = some (page, rest)) :
    l.Perm ((page.size, page.offset) :: rest) ∧ min_size ≤ page.size := by
  induction l generalizing rest with
  | nil => cases h
  | cons entry l ih =>
    rw [PageManager.findFreeIn] at h
    split at h
    · next hsize =>
      cases h
      exact ⟨.refl _, hsize⟩
    · obtain ⟨found, hfound, heq⟩ := Option.map_eq_some_iff.1 h
      cases heq
      obtain ⟨hperm, hle⟩ := ih hfound
      exact ⟨(hperm.cons entry).trans (.swap _ _ _), hle⟩

theorem le_div_mul (n : Nat) {b : Nat} (hb : 0 < b) : n ≤ (n+b-1)/b*b := by
  have hmod := Nat.div_add_mod (n+b-1) b
  have hlt := Nat.mod_lt (n+b-1) hb
  rw [Nat.mul_comm] at hmod
  omega

theorem toNat_align {m : PageManager} (hblock : 0 < m.block_size_)
    (hsum : min_size.toNat+m.block_size_.toNat-1 < 2^64) :
    m.block_size_.toNat ∣ (m.align min_size).toNat ∧
      min_size.toNat ≤ (m.align min_size).toNat := by
  have hpos : 0 < m.block_size_.toNat := UInt64.lt_iff_toNat_lt.1 hblock
  have hsub : (min_size+m.block_size_-1).toNat = min_size.toNat+m.block_size_.toNat-1 := by
    rw [UInt64.toNat_sub, UInt64.toNat_add, UInt64.toNat_one]
    omega
  have heq : (m.align min_size).toNat =
      (min_size.toNat+m.block_size_.toNat-1)/m.block_size_.toNat*m.block_size_.toNat := by
    rw [PageManager.align, UInt64.toNat_mul, UInt64.toNat_div, hsub]
    exact Nat.mod_eq_of_lt (Nat.lt_of_le_of_lt (Nat.div_mul_le_self _ _) hsum)
  rw [heq]
  exact ⟨Nat.dvd_mul_left _ _, le_div_mul _ hpos⟩

/-- An allocation takes a page from the free list, or makes one at the end. -/
theorem allocPage_cases (m : PageManager) (min_size : UInt64) :
    (∃ page rest, m.allocPage min_size = (page, { m with freelist_ := rest }) ∧
      m.freelist_.Perm ((page.size, page.offset) :: rest) ∧ m.align min_size ≤ page.size) ∨
    (m.findFreePage (m.align min_size) = none ∧
      m.allocPage min_size = (⟨m.end_pos_, m.align min_size⟩,
        { m with end_pos_ := m.end_pos_+m.align min_size })) := by
  cases hfind : PageManager.findFreeIn (m.align min_size) m.freelist_ with
  | none =>
    have hnone : m.findFreePage (m.align min_size) = none := by
      rw [PageManager.findFreePage, hfind]
      rfl
    exact .inr ⟨hnone, by rw [PageManager.allocPage, hnone]⟩
  | some found =>
    obtain ⟨page, rest⟩ := found
    obtain ⟨hperm, hsize⟩ := findFreeIn_perm hfind
    have hsome : m.findFreePage (m.align min_size) = some (page, { m with freelist_ := rest }) := by
      rw [PageManager.findFreePage, hfind]
      rfl
    exact .inl ⟨page, rest, by rw [PageManager.allocPage, hsome], hperm, hsize⟩

theorem Good.allocPage (hs : s.Good block_size start) (hblock : 0 < block_size)
    (hfits : s.Fits (.allocPage min_size)) (h : s.step (.allocPage min_size) = some u) :
    u.Good block_size start := by
  obtain ⟨hsize, ⟨created, hperm, htiles⟩, hmultiple⟩ := hs
  rw [← hsize] at hblock
  rw [step] at h
  dsimp only at h
  cases h
  rcases allocPage_cases s.manager min_size with
    ⟨page, rest, halloc, hrest, -⟩ | ⟨hnone, halloc⟩
  · rw [halloc]
    -- the page moves from the free list to the allocated ones
    have hall : all ⟨{ s.manager with freelist_ := rest }, s.allocated ++ [page]⟩ ~ s.all := by
      rw [all, all, List.append_assoc]
      exact (hrest.map fun entry => (⟨entry.2, entry.1⟩ : Page)).symm.append_left _
    refine ⟨hsize, ⟨created, hall.trans hperm, htiles⟩, fun p hp => ?_⟩
    exact hmultiple p (hall.mem_iff.1 hp)
  · rw [halloc]
    obtain ⟨hdvd, -⟩ := toNat_align hblock hfits.1
    have hend : (s.manager.end_pos_+s.manager.align min_size).toNat =
        s.manager.end_pos_.toNat+(s.manager.align min_size).toNat := by
      rw [UInt64.toNat_add]
      exact Nat.mod_eq_of_lt (hfits.2 hnone)
    let page : Page := ⟨s.manager.end_pos_, s.manager.align min_size⟩
    have hall : all ⟨{ s.manager with end_pos_ := s.manager.end_pos_+s.manager.align min_size },
        s.allocated ++ [page]⟩ ~ s.all ++ [page] := by
      rw [all, all, List.append_assoc, List.append_assoc]
      exact List.perm_append_comm.append_left _
    refine ⟨hsize, ⟨created ++ [page], hall.trans (hperm.append_right _), ?_⟩, fun p hp => ?_⟩
    · rw [hend]
      exact htiles.append_singleton rfl
    · cases List.mem_append.1 (hall.mem_iff.1 hp) with
      | inl hold => exact hmultiple p hold
      | inr hnew =>
        obtain rfl := List.mem_singleton.1 hnew
        rw [← hsize]
        exact hdvd

theorem Good.freePage {page : Page} (hs : s.Good block_size start)
    (h : s.step (.freePage page) = some u) : u.Good block_size start := by
  obtain ⟨hsize, ⟨created, hperm, htiles⟩, hmultiple⟩ := hs
  rw [step] at h
  split at h
  · next hmem =>
    cases h
    -- the page moves from the allocated ones to the free list
    have hall : all ⟨s.manager.freePage page, s.allocated.erase page⟩ ~ s.all := by
      rw [all, all, free, PageManager.freePage, List.map_append, ← List.append_assoc]
      refine List.perm_append_comm.trans ?_
      rw [← List.append_assoc]
      exact (List.perm_cons_erase hmem).symm.append_right _
    refine ⟨hsize, ⟨created, hall.trans hperm, htiles⟩, fun p hp => ?_⟩
    exact hmultiple p (hall.mem_iff.1 hp)
  · cases h

theorem good_of_run {as : List Action} (hblock : 0 < block_size)
    (h : Runs.Reaches step Fits (new block_size end_pos) as s) :
    s.Good block_size end_pos.toNat := by
  refine h.invariant (P := Good block_size end_pos.toNat) ?_ ?_
  · exact ⟨rfl, ⟨[], .refl _, rfl⟩, fun _ hp => by cases hp⟩
  · intro s a u hs hfits hstep
    cases a with
    | allocPage min_size => exact hs.allocPage hblock hfits hstep
    | freePage page => exact hs.freePage hstep

/-- The pages that are allocated and those that are free divide what lies before `end_pos_`, and a page
that is allocated next is large enough and made of whole blocks. -/
theorem pages_never_overlap {as : List Action} (hblock : 0 < block_size)
    (h : Runs.Reaches step Fits (new block_size end_pos) as s) :
    Partition first size end_pos.toNat (s.allocated ++ s.free) s.manager.end_pos_.toNat ∧
      ∀ min_size, s.Fits (.allocPage min_size) →
        min_size ≤ (s.manager.allocPage min_size).1.size ∧
          block_size.toNat ∣ (s.manager.allocPage min_size).1.size.toNat := by
  have hgood := good_of_run hblock h
  obtain ⟨created, hperm, htiles⟩ := hgood.tiles
  refine ⟨htiles.partition hperm, fun min_size hfits => ⟨?_, ?_⟩⟩
  · obtain ⟨-, hle⟩ := toNat_align (hgood.block_size_ ▸ hblock) hfits.1
    rcases allocPage_cases s.manager min_size with ⟨page, rest, halloc, -, hsize⟩ | ⟨-, halloc⟩
    · rw [halloc]
      exact UInt64.le_trans (UInt64.le_iff_toNat_le.2 hle) hsize
    · rw [halloc]
      exact UInt64.le_iff_toNat_le.2 hle
  · -- the page is one of the next state's
    have hnext := hgood.allocPage hblock hfits rfl
    exact hnext.multiple _ (List.mem_append_left _ (List.mem_append_right _ (List.mem_singleton_self _)))

/-- Blocks of 4096 bytes behind a start of 10; a large free page is reused for a small request, and an
empty page is allocated. -/
theorem pages_never_overlap_reuse :
    ∃ s, Runs.Reaches step Fits (new 4096 10) [.allocPage 3000, .allocPage 8000,
        .freePage ⟨4106, 8192⟩, .allocPage 1, .allocPage 0] s ∧
      s.allocated = [⟨10, 4096⟩, ⟨4106, 8192⟩, ⟨12298, 0⟩] ∧
      Partition first size 10 (s.allocated ++ s.free) s.manager.end_pos_.toNat ∧
      ∀ min_size, s.Fits (.allocPage min_size) →
        min_size ≤ (s.manager.allocPage min_size).1.size ∧
          4096 ∣ (s.manager.allocPage min_size).1.size.toNat := by
  have hruns : (([.allocPage 3000, .allocPage 8000, .freePage ⟨4106, 8192⟩, .allocPage 1,
      .allocPage 0] : List Action).foldlM (Runs.guarded step Fits) (new 4096 10)).map
      (fun s => s.allocated) = some [⟨10, 4096⟩, ⟨4106, 8192⟩, ⟨12298, 0⟩] := by decide +kernel
  obtain ⟨s, hrun, hallocated⟩ := Runs.exists_of_foldlM _ hruns
  exact ⟨s, hrun, hallocated, pages_never_overlap (by decide) hrun⟩

end pages

end Pages
end Stx.Io
