import Stx.Base
import Mathlib.Logic.Function.Basic

/-! `io/file.{h,cc}` and the parts of `io/fileutil.cc` that deal with names: files over a
directory of names and the inodes behind them. A descriptor keeps its inode when the name
is given to another one, and every change is recorded, so that a crash between two
changes can be replayed. -/
namespace Stx

structure FileSystem where
  names : Bytes → Option Nat
  content : Nat → Bytes
  /-- The inode of the next file that is created. -/
  next : Nat
  names_lt : ∀ path i, names path = some i → i < next

/-- `write` at a position: a gap after the end of the file reads as zeros. -/
def splice (old : Bytes) (pos : Nat) (data : Bytes) : Bytes :=
  old.take pos ++ List.replicate (pos-old.length) 0 ++ data ++ old.drop (pos+data.length)

/-- The atomic changes of a file system. -/
inductive Effect where
  | create (path : Bytes)
  | truncate (inode : Nat)
  | write (inode pos : Nat) (data : Bytes)
  | rename (src dst : Bytes)
  | unlink (path : Bytes)

namespace FileSystem

def empty : FileSystem where
  names _ := none
  content _ := []
  next := 0
  names_lt _ _ h := by cases h

theorem update_names_lt {names : Bytes → Option Nat} {next next' : Nat} {path : Bytes}
    {target : Option Nat} (h : ∀ p i, names p = some i → i < next) (hn : next ≤ next')
    (ht : ∀ i, target = some i → i < next') :
    ∀ p i, Function.update names path target p = some i → i < next' := by
  intro p i hp
  by_cases heq : p = path
  · subst heq
    rw [Function.update_self] at hp
    exact ht i hp
  · rw [Function.update_of_ne heq] at hp
    exact Nat.lt_of_lt_of_le (h p i hp) hn

def apply (fs : FileSystem) : Effect → FileSystem
  | .create path =>
    { names := Function.update fs.names path (some fs.next)
      content := Function.update fs.content fs.next []
      next := fs.next+1
      names_lt := update_names_lt fs.names_lt (Nat.le_succ _) (by rintro _ ⟨⟩; exact Nat.lt_succ_self _) }
  | .truncate i => { fs with content := Function.update fs.content i [] }
  | .write i pos data =>
    { fs with content := Function.update fs.content i (splice (fs.content i) pos data) }
  | .rename src dst =>
    { fs with
      names := if src = dst then fs.names
        else Function.update (Function.update fs.names dst (fs.names src)) src none
      names_lt := by
        split
        · exact fs.names_lt
        · exact update_names_lt (update_names_lt fs.names_lt (Nat.le_refl _) (fs.names_lt src))
            (Nat.le_refl _) (by rintro _ ⟨⟩) }
  | .unlink path =>
    { fs with
      names := Function.update fs.names path none
      names_lt := update_names_lt fs.names_lt (Nat.le_refl _) (by rintro _ ⟨⟩) }

def applyAll (fs : FileSystem) (effects : List Effect) : FileSystem := effects.foldl apply fs

end FileSystem

/-- The file system and the changes made so far. -/
structure Disk where
  fs : FileSystem
  effects : List Effect := []

def Disk.perform (d : Disk) (e : Effect) : Disk := ⟨d.fs.apply e, d.effects ++ [e]⟩

/-- `stx::File`: an open descriptor. -/
structure File where
  inode : Nat
  pos : Nat := 0
  deriving DecidableEq

/-- The `File::O_...` flags. -/
structure OpenFlags where
  read : Bool := false
  write : Bool := false
  create : Bool := false
  createOrOpen : Bool := false
  append : Bool := false
  truncate : Bool := false
  autodelete : Bool := false

namespace File

/-- The text of an errno and the number of a descriptor are left out of the messages. -/
def ioError {α : Type} (message : Bytes) : Result α := .raise (.printf .ioError message)

/- The `open` call: the descriptor and the disk afterwards. -/
def openFd (path : Bytes) (flags : OpenFlags) : Sys Disk File := fun d =>
  match d.fs.names path with
  | none =>
    if flags.createOrOpen || flags.create then (.ok ⟨d.fs.next, 0⟩, d.perform (.create path))
    else (ioError (lit "openFile('" ++ cStr path ++ lit "'): open() failed"), d)
  | some i =>
    if flags.create && !flags.createOrOpen then
      (ioError (lit "openFile('" ++ cStr path ++ lit "'): open() failed"), d)
    else (.ok ⟨i, 0⟩, if flags.truncate then d.perform (.truncate i) else d)

/- What `openFile` does with a new descriptor. -/
def afterOpen (path : Bytes) (flags : OpenFlags) (file : File) : Sys Disk File := fun d =>
  let d := if flags.autodelete then d.perform (.unlink path) else d
  (.ok (if flags.append then { file with pos := (d.fs.content file.inode).length } else file), d)

def openFile (path : Bytes) (flags : OpenFlags) : Sys Disk File :=
  if !flags.read && !flags.write then
    Sys.reads fun _ => .raise (.printf .illegalArgumentError
      (lit "openFile('" ++ cStr path ++ lit "'): at least one of O_READ | O_WRITE must be set"))
  else openFd path flags >>= afterOpen path flags

def size (file : File) (fs : FileSystem) : Nat := (fs.content file.inode).length

/-- `lseek` takes a signed offset. -/
def seekTo (file : File) (pos : Nat) : Result File :=
  if pos % 2^64 < 2^63 then .ok { file with pos := pos % 2^64 } else ioError (lit "lseek() failed")

/-- The bytes read, at most `buf_len` of them, and the moved descriptor. -/
def read (file : File) (fs : FileSystem) (buf_len : Nat) : Bytes × File :=
  let data := ((fs.content file.inode).drop file.pos).take buf_len
  (data, { file with pos := file.pos+data.length })

/-- One `write` call moves at most this many bytes, so that its result fits in an `int`. -/
def maxTransfer : Nat := 0x7ffff000

def write (file : File) (data : Bytes) : Sys Disk File := fun d =>
  let d := d.perform (.write file.inode file.pos (data.take maxTransfer))
  if data.length ≤ maxTransfer then (.ok { file with pos := file.pos+data.length }, d)
  else (ioError (lit "write() failed"), d)

end File

namespace FileUtil

def exists_ (path : Bytes) (fs : FileSystem) : Bool := (fs.names path).isSome

def mv (src dst : Bytes) : Sys Disk Unit := fun d =>
  if (d.fs.names src).isSome then (.ok (), d.perform (.rename src dst))
  else (File.ioError (lit "rename(" ++ src ++ lit ", " ++ dst ++ lit ") failed"), d)

end FileUtil
end Stx
