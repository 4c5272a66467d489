import Stx.Digest
import Stx.Io.File
import Stx.Lib.LittleEndian
import Mathlib.Data.Finset.Dedup
import Mathlib.Data.Finset.Empty

/-! `util/PersistentHashSet.{h,cc}`: a set of record ids in a file. The file is a header
and a table of 20-byte slots with linear probing; an all-zero slot is empty, and a table
that would be more than half full is rebuilt at twice its size in `fpath_~` and renamed. -/
namespace Stx

/-- What the code takes from outside the class: the hash function (`FNV<uint64_t>` of the
bytes of an id) and the bytes that `malloc` leaves in a new buffer. -/
structure Env where
  hash : Bytes → BitVec 64
  malloc : Nat → Bytes
  length_malloc : ∀ n, (malloc n).length = n

/-- The environment of the library, with fresh memory zeroed. -/
def Env.stx : Env where
  hash data := (FNV.new64.hash data).get
  malloc n := List.replicate n 0
  length_malloc _ := List.length_replicate

structure PersistentHashSet where
  fpath_ : Bytes
  nslots_ : Nat := 0
  nslots_used_ : Nat := 2^64-1

namespace PersistentHashSet

def kVersion : UInt8 := 1
def kInitialSlots : Nat := 512
def kFetchIOBatchSize : Nat := 200
def kProbeIOBatchSize : Nat := 25

/-- `sizeof(FileHeader)`: version, three unused bytes, `nslots`. -/
def headerSize : Nat := 12

def header (nslots : Nat) : Bytes := kVersion :: 0 :: 0 :: 0 :: LittleEndian.encode 8 nslots

/-- `IS_SLOT_EMPTY`: the first eight bytes are zero and the bytes repeat with period eight. -/
def isSlotEmpty (slot : SHA1Hash) : Bool :=
  LittleEndian.decode (slot.hash.take 8) == 0 && slot.hash.take 12 == (slot.hash.drop 8).take 12

/-- The slot with index `idx` of a buffer of slots. -/
def slotAt (buf : Bytes) (idx : Nat) : SHA1Hash := .ofMemory buf (idx*SHA1Hash.kSize)

/-- `read` into a buffer: bytes behind those that were read stay as they were. -/
def overwrite (buf data : Bytes) : Bytes := data ++ buf.drop data.length

/- `lookup`. -/

/-- `true`, or `false` and the slot at which the id would be inserted. -/
inductive Found where
  | yes
  | no (insert_idx : Nat)
  deriving DecidableEq

/-- The local variables of `lookup`. -/
structure Probe where
  file : File
  i : Nat := 0
  buf : Bytes
  buf_offset : Nat := 2^64-1
  buf_size : Nat := 0

def Probe.new (env : Env) (file : File) : Probe :=
  { file, buf := env.malloc (kProbeIOBatchSize*SHA1Hash.kSize) }

def probeIdx (env : Env) (nslots : Nat) (record_id : SHA1Hash) (i : Nat) : Nat :=
  ((env.hash record_id.hash).toNat+i) % 2^64 % nslots

/-- The slot is not in the buffer. -/
def Probe.misses (p : Probe) (idx : Nat) : Bool :=
  p.buf_size == 0 || (p.buf_offset+p.buf_size) % 2^64 ≤ idx || idx < p.buf_offset

def Probe.refill (p : Probe) (fs : FileSystem) (idx : Nat) : Result Probe := do
  let file ← p.file.seekTo (headerSize+idx*SHA1Hash.kSize)
  let (data, file) := file.read fs (kProbeIOBatchSize*SHA1Hash.kSize)
  if data.length < SHA1Hash.kSize then
    .RAISE .runtimeError "error while reading from file"
  else
    return { p with
      file, buf := overwrite p.buf data, buf_offset := idx, buf_size := data.length/SHA1Hash.kSize }

def Probe.fetch (p : Probe) (fs : FileSystem) (idx : Nat) : Result Probe :=
  if p.misses idx then p.refill fs idx else pure p

/-- One pass of the probe loop: the answer, or the variables for the next pass. -/
def lookupStep (env : Env) (fs : FileSystem) (nslots : Nat) (record_id : SHA1Hash) (p : Probe) :
    Result (Found ⊕ Probe) := do
  let idx := probeIdx env nslots record_id p.i
  let p ← p.fetch fs idx
  let slot := slotAt p.buf (idx-p.buf_offset)
  if slot = record_id then return .inl .yes
  else if isSlotEmpty slot then return .inl (.no idx)
  else return .inr { p with i := p.i+1 }

/-- The probe loop with `fuel` passes left. -/
def lookupLoop (env : Env) (fs : FileSystem) (nslots : Nat) (record_id : SHA1Hash) :
    Nat → Probe → Result Found
  | 0, _ => .RAISE .illegalStateError "set is full"
  | fuel+1, p => do
    match ← lookupStep env fs nslots record_id p with
    | .inl found => return found
    | .inr p => lookupLoop env fs nslots record_id fuel p

def lookup (env : Env) (fs : FileSystem) (file : File) (nslots : Nat) (record_id : SHA1Hash) :
    Result Found :=
  lookupLoop env fs nslots record_id nslots (.new env file)

/- `scan`: the slots on which `fn` is called, in order. The callbacks do not touch the
   file, so they run over the list afterwards. -/

def batchSlots (buf : Bytes) : List SHA1Hash :=
  ((List.range kFetchIOBatchSize).map (slotAt buf)).filter (!isSlotEmpty ·)

def scanLoop (fs : FileSystem) : Nat → File → Bytes → List SHA1Hash
  | 0, _, _ => []
  | nbatches+1, file, buf =>
    let (data, file) := file.read fs (kFetchIOBatchSize*SHA1Hash.kSize)
    let buf := overwrite buf data
    batchSlots buf ++ scanLoop fs nbatches file buf

def scan (env : Env) (fs : FileSystem) (file : File) (nslots : Nat) : Result (List SHA1Hash) := do
  let file ← file.seekTo headerSize
  let nbatches := (nslots+kFetchIOBatchSize-1) % 2^64/kFetchIOBatchSize
  return scanLoop fs nbatches file (env.malloc (kFetchIOBatchSize*SHA1Hash.kSize))

/- `grow`. -/

/-- The search for an empty slot of `new_data` with `fuel` passes left. -/
def firstEmpty (env : Env) (new_data : List SHA1Hash) (old_slot : SHA1Hash) : Nat → Nat → Option Nat
  | 0, _ => none
  | fuel+1, i =>
    let idx := probeIdx env new_data.length old_slot i
    if isSlotEmpty (new_data.getD idx .zero) then some idx
    else firstEmpty env new_data old_slot fuel (i+1)

/-- The callback of `grow`. A slot that finds no empty place is dropped. -/
def place (env : Env) (new_data : List SHA1Hash) (old_slot : SHA1Hash) : List SHA1Hash :=
  match firstEmpty env new_data old_slot new_data.length 0 with
  | some idx => new_data.set idx old_slot
  | none => new_data

/-- `new_data` as an array of slots: zeroed, then filled from the old file. -/
def rehash (env : Env) (new_nslots : Nat) (visited : List SHA1Hash) : List SHA1Hash :=
  visited.foldl (place env) (List.replicate new_nslots .zero)

/-- `nslots_ * kGrowthFactor`; the product with 2.0 is exact below 2^53. -/
def growthSize (nslots : Nat) : Nat := if nslots = 0 then kInitialSlots else nslots*2

end PersistentHashSet

/-- An open set and the disk it lives on. -/
structure World where
  disk : Disk
  set : PersistentHashSet

namespace PersistentHashSet

/-- A call that only concerns the disk. -/
def onDisk {α : Type} (x : Sys Disk α) : Sys World α := fun w =>
  ((x w.disk).1, { w with disk := (x w.disk).2 })

def setUsed (n : Nat) : Sys World Unit :=
  Sys.modify fun w => { w with set := { w.set with nslots_used_ := n } }

def setSlots (n : Nat) : Sys World Unit :=
  Sys.modify fun w => { w with set := { w.set with nslots_ := n } }

def tmpPath (fpath : Bytes) : Bytes := fpath ++ lit "~"

/-- `if (nslots_ > 0) scan(file, nslots_, ...)`. -/
def scanOwn (env : Env) (file : File) : Sys World (List SHA1Hash) :=
  Sys.reads fun w => if 0 < w.set.nslots_ then scan env w.disk.fs file w.set.nslots_ else .ok []

def grow (env : Env) (file : File) : Sys World File := do
  let w ← Sys.get
  let new_nslots := growthSize w.set.nslots_
  let visited ← scanOwn env file
  let new_data := rehash env new_nslots visited
  let new_file ← onDisk (File.openFile (tmpPath w.set.fpath_)
    { createOrOpen := true, write := true, read := true, truncate := true })
  let new_file ← onDisk (new_file.write (header new_nslots))
  let new_file ← onDisk (new_file.write (new_data.flatMap SHA1Hash.hash))
  onDisk (FileUtil.mv (tmpPath w.set.fpath_) w.set.fpath_)
  setSlots new_nslots
  return new_file

/-- The lazy count at the start of `insert`. -/
def countUsed (env : Env) (file : File) : Sys World Unit := do
  let w ← Sys.get
  if w.set.nslots_used_ = 2^64-1 then
    setUsed 0
    let visited ← scanOwn env file
    setUsed (visited.length % 2^64)

/-- `nslots_used_ + 1 > nslots_ * kMaxFillFactor`; the product with 0.5 is exact below 2^53. -/
def mustGrow (set : PersistentHashSet) : Bool := set.nslots_ < 2*((set.nslots_used_+1) % 2^64)

def ensureRoom (env : Env) (file : File) : Sys World File := do
  let w ← Sys.get
  if mustGrow w.set then grow env file else return file

/-- `lookup(file, nslots_, record_id, &insert_idx)`. -/
def lookupOwn (env : Env) (file : File) (record_id : SHA1Hash) : Sys World Found :=
  Sys.reads fun w => lookup env w.disk.fs file w.set.nslots_ record_id

def writeSlot (file : File) (record_id : SHA1Hash) (insert_idx : Nat) : Sys World File := do
  let file ← Sys.reads fun _ => file.seekTo (headerSize+insert_idx*SHA1Hash.kSize)
  let file ← onDisk (file.write record_id.hash)
  let w ← Sys.get
  setUsed ((w.set.nslots_used_+1) % 2^64)
  return file

def insert (env : Env) (file : File) (record_id : SHA1Hash) : Sys World (File × Bool) := do
  countUsed env file
  let file ← ensureRoom env file
  match ← lookupOwn env file record_id with
  | .yes => return (file, false)
  | .no insert_idx =>
    let file ← writeSlot file record_id insert_idx
    return (file, true)

/-- The file of a writer. -/
def openForWrite : Sys World File := do
  let w ← Sys.get
  onDisk (File.openFile w.set.fpath_ { write := true, read := true, createOrOpen := true })

def addRecordID (env : Env) (record_id : SHA1Hash) : Sys World Bool := do
  let file ← openForWrite
  let (_, isNew) ← insert env file record_id
  return isNew

/-- The loop of `addRecordIDs` over the elements of the `std::set`: those that stay. -/
def insertAll (env : Env) : File → List SHA1Hash → Sys World (List SHA1Hash)
  | _, [] => return []
  | file, record_id :: rest => do
    let (file, isNew) ← insert env file record_id
    let left ← insertAll env file rest
    return if isNew then record_id :: left else left

def addRecordIDs (env : Env) (record_ids : List SHA1Hash) : Sys World (List SHA1Hash) := do
  let file ← openForWrite
  insertAll env file record_ids

/-- The file of a reader. -/
def openForRead : Sys World File := do
  let w ← Sys.get
  onDisk (File.openFile w.set.fpath_ { read := true })

def hasRecordID (env : Env) (record_id : SHA1Hash) : Sys World Bool := do
  let w ← Sys.get
  let nslots := w.set.nslots_
  if nslots = 0 then return false
  else
    let file ← openForRead
    match ← Sys.reads fun w => lookup env w.disk.fs file nslots record_id with
    | .yes => return true
    | .no _ => return false

def fetchRecordIDs (env : Env) : Sys World (Finset SHA1Hash) := do
  let w ← Sys.get
  let nslots := w.set.nslots_
  if nslots = 0 then return ∅
  else
    let file ← openForRead
    let visited ← Sys.reads fun w => scan env w.disk.fs file nslots
    return visited.toFinset

/-- The constructor. -/
def new (fpath : Bytes) : Sys Disk PersistentHashSet := do
  let d ← Sys.get
  if FileUtil.exists_ fpath d.fs then
    let file ← File.openFile fpath { read := true }
    let (hdr, file) := file.read d.fs headerSize
    if hdr.length ≠ headerSize then
      Sys.reads fun _ => .RAISE .runtimeError "error while reading file header"
    else
      let version := hdr.getD 0 0
      let nslots := LittleEndian.decode ((hdr.drop 4).take 8)
      if version ≠ kVersion then
        Sys.reads fun _ => .RAISEF .runtimeError "invalid version $0" [StringUtil.toString version.toNat]
      else if file.size d.fs ≠ (headerSize+SHA1Hash.kSize*nslots) % 2^64 then
        Sys.reads fun _ => .RAISE .runtimeError "invalid file size"
      else return { fpath_ := fpath, nslots_ := nslots }
  else return { fpath_ := fpath }

end PersistentHashSet
end Stx
