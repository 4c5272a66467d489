import Stx.Base

/-! `io/pagemanager.{h,cc}`. Both mutexes make a call one step. -/
namespace Stx.Io

structure Page where
  offset : UInt64 := 0
  size : UInt64 := 0
  deriving DecidableEq

/-- The entries of `freelist_` are sizes with offsets. -/
structure PageManager where
  end_pos_ : UInt64 := 0
  block_size_ : UInt64
  freelist_ : List (UInt64 × UInt64) := []

namespace PageManager

/-- The loop of `findFreePage`: the first entry that is large enough, and the list without it. -/
def findFreeIn (min_size : UInt64) :
    List (UInt64 × UInt64) → Option (Page × List (UInt64 × UInt64))
  | [] => none
  | (size, offset) :: rest =>
    if size ≥ min_size then some (⟨offset, size⟩, rest)
    else (findFreeIn min_size rest).map fun found => (found.1, (size, offset) :: found.2)

def findFreePage (m : PageManager) (min_size : UInt64) : Option (Page × PageManager) :=
  (findFreeIn min_size m.freelist_).map fun found => (found.1, { m with freelist_ := found.2 })

/-- The request up to the next block boundary. -/
def align (m : PageManager) (min_size : UInt64) : UInt64 :=
  ((min_size+m.block_size_-1) / m.block_size_) * m.block_size_

def allocPage (m : PageManager) (min_size : UInt64) : Page × PageManager :=
  match m.findFreePage (m.align min_size) with
  | some found => found
  | none =>
    let page : Page := ⟨m.end_pos_, m.align min_size⟩
    (page, { m with end_pos_ := m.end_pos_+page.size })

def freePage (m : PageManager) (page : Page) : PageManager :=
  { m with freelist_ := m.freelist_ ++ [(page.size, page.offset)] }

end PageManager

def RAISE_ERRNO {α : Type} (type : ErrorType) (message strerror : Bytes) : Result α :=
  .raise (.printf type (message ++ lit ": " ++ strerror))

/-- A mapping of the file from its start; `data` is left out. -/
structure MmappedFile where
  size : UInt64
  deriving DecidableEq

structure MmappedPageRef where
  page_ : Page
  file_ : MmappedFile
  sys_page_size_ : UInt64
  deriving DecidableEq

/-- A manager with the file `filename_`, of which `length` is the number of bytes. -/
structure MmapPageManager extends PageManager where
  filename_ : Bytes
  used_bytes_ : UInt64
  file_size_ : UInt64
  current_mapping_ : Option MmappedFile := none
  mmap_mutex_ : Bool := false
  sys_page_size_ : UInt64
  length : UInt64

/-- The system calls that fail, by what `strerror` says of them. -/
structure Faults where
  truncate : Option Bytes := none
  open_ : Option Bytes := none
  /-- With the number of the descriptor. -/
  fstat : Option (Nat × Bytes) := none
  mmap : Option Bytes := none

namespace MmapPageManager

def kMmapSizeMultiplier : UInt64 := 128

/-- A new manager of a file; `sys_page_size` is what `sysconf` gives. -/
def new (filename : Bytes) (file_size sys_page_size length : UInt64) : MmapPageManager :=
  { block_size_ := 1, end_pos_ := file_size, filename_ := filename, used_bytes_ := file_size,
    file_size_ := file_size, sys_page_size_ := sys_page_size, length := length }

/-- `FileUtil::truncate(filename_, new_size)`. The system call takes a signed size. -/
def truncate (faults : Faults) (new_size : UInt64) : Sys MmapPageManager Unit := fun m =>
  let message := lit "truncate(" ++ m.filename_ ++ lit ") failed"
  match faults.truncate with
  | some strerror => (RAISE_ERRNO .ioError message strerror, m)
  | none =>
    if 2^63 ≤ new_size.toNat then (RAISE_ERRNO .ioError message (lit "Invalid argument"), m)
    else (.ok (), { m with length := new_size })

def shrinkFile (faults : Faults) : Sys MmapPageManager Unit := do
  let m ← Sys.get
  truncate faults m.used_bytes_
  Sys.modify fun m => { m with file_size_ := m.used_bytes_ }

/-- `File::openFile` and `file.size()`. -/
def openedSize (faults : Faults) (m : MmapPageManager) : Result UInt64 :=
  match faults.open_, faults.fstat with
  | some strerror, _ =>
    RAISE_ERRNO .ioError (lit "openFile('" ++ m.filename_ ++ lit "'): open() failed") strerror
  | none, some (fd, strerror) =>
    RAISE_ERRNO .ioError (lit "fstat(" ++ StringUtil.toString fd ++ lit ") failed") strerror
  | none, none => .ok m.length

/-- `mmap`, of a file that is not empty. -/
def mapped (faults : Faults) (mmap_size : UInt64) : Result MmappedFile :=
  match faults.mmap with
  | some strerror =>
    if mmap_size > 0 then RAISE_ERRNO .mallocError (lit "mmap() failed") strerror
    else .ok ⟨mmap_size⟩
  | none => .ok ⟨mmap_size⟩

/-- The file as it is now becomes the current mapping. -/
def mapFile (faults : Faults) : Sys MmapPageManager MmappedFile := do
  let mmap_size ← Sys.reads (openedSize faults)
  let mapping ← Sys.reads fun _ => mapped faults mmap_size
  Sys.modify fun m => { m with current_mapping_ := some mapping }
  pure mapping

def getMmappedFile (faults : Faults) (last_byte : UInt64) : Sys MmapPageManager MmappedFile :=
  fun m =>
    match m.current_mapping_ with
    | none => mapFile faults m
    | some mapping => if last_byte > mapping.size then mapFile faults m else (.ok mapping, m)

/-- A mutex that is locked already is waited for, for ever. -/
def lock : Sys MmapPageManager Unit := fun m =>
  if m.mmap_mutex_ then (.diverge, m) else (.ok (), { m with mmap_mutex_ := true })

def unlock : Sys MmapPageManager Unit := Sys.modify fun m => { m with mmap_mutex_ := false }

def use (last_byte : UInt64) (m : MmapPageManager) : MmapPageManager :=
  if last_byte > m.used_bytes_ then { m with used_bytes_ := last_byte } else m

def new_size (m : MmapPageManager) (last_byte : UInt64) (allow_padding : Bool) : UInt64 :=
  if allow_padding then
    let mmap_block_size := m.sys_page_size_ * kMmapSizeMultiplier
    ((last_byte / mmap_block_size)+1) * mmap_block_size
  else last_byte

/-- The file grows where the page ends behind it. -/
def grow (faults : Faults) (last_byte : UInt64) (allow_padding : Bool) :
    Sys MmapPageManager Unit := do
  let m ← Sys.get
  if last_byte > m.file_size_ then
    let new_size := m.new_size last_byte allow_padding
    truncate faults new_size
    Sys.modify fun m => { m with file_size_ := new_size }
  else pure ()

def getPageImpl (faults : Faults) (page : Page) (allow_padding : Bool) :
    Sys MmapPageManager MmappedPageRef := do
  let last_byte := page.offset+page.size
  lock
  Sys.modify (use last_byte)
  grow faults last_byte allow_padding
  let file ← getMmappedFile faults last_byte
  let m ← Sys.get
  unlock
  pure ⟨page, file, m.sys_page_size_⟩

end MmapPageManager
end Stx.Io
