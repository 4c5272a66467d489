import Stx.Util.PersistentHashSet
import Stx.Lib.LockOrder

/-! The operations of `util/PersistentHashSet.cc` as the threads run them: with both
mutexes, and with one step for each access to a member or to a file. Run alone, each of
them does what its sequential model does. -/
namespace Stx.PersistentHashSet
open Threads (Prog)

inductive Mutex where
  | read_mutex_
  | write_mutex_
  deriving DecidableEq

/-- A writer that grows the table takes `read_mutex_` while it holds `write_mutex_`. -/
def Mutex.rank : Mutex → Nat
  | .read_mutex_ => 0
  | .write_mutex_ => 1

/-- A call in progress. A reader notes the `nslots` and the file that it captures. -/
def Call (α : Type) : Type := Prog World Mutex (Nat × File) (Result α)

namespace Call
variable {α β : Type}

def andThen (f : α → Call β) : Result α → Call β
  | .ok a => f a
  | .raise e => Prog.ret (.raise e)
  | .diverge => Prog.ret .diverge

instance : Monad Call where
  pure a := Prog.ret (.ok a)
  bind x f := Prog.bind x (andThen f)

def ofResult (r : Result α) : Call α := Prog.ret r

/-- One step. -/
def atomically (x : Sys World α) : Call α := Prog.atomic x

/-- The scope of a `std::unique_lock`; it ends also with an exception. -/
def withLock (m : Mutex) (x : Call α) : Call α := Prog.holding m x

def note (capture : Nat × File) : Call Unit := Prog.note capture (Prog.ret (.ok ()))

/-- The call without other threads, and the notes it makes then. -/
def run (x : Call α) : Sys World α := Prog.run x

def noted (x : Call α) (w : World) : List (Nat × File) := Prog.noted x w

@[simp] theorem run_pure (a : α) : (pure a : Call α).run = pure a := rfl
@[simp] theorem run_ofResult (r : Result α) : (ofResult r).run = Sys.reads fun _ => r := rfl
@[simp] theorem run_atomically (x : Sys World α) : (atomically x).run = x := rfl
@[simp] theorem run_note (capture : Nat × File) : (note capture).run = pure () := rfl

@[simp] theorem run_withLock (m : Mutex) (x : Call α) : (withLock m x).run = x.run :=
  funext fun w => Prog.run_holding m x w

@[simp] theorem run_bind (x : Call α) (f : α → Call β) :
    (x >>= f).run = x.run >>= fun a => (f a).run := by
  funext w
  have hbind : (x >>= f).run w = Prog.run (andThen f (x.run w).1) (x.run w).2 := Prog.run_bind ..
  rw [hbind]
  cases hx : x.run w with
  | mk r w' =>
    cases r with
    | ok a => exact (Sys.bind_of_ok (f := fun a => (f a).run) hx).symm
    | raise e => exact (Sys.bind_of_raise hx).symm
    | diverge => exact (Sys.bind_of_diverge hx).symm

theorem noted_bind {x : Call α} {f : α → Call β} {w w' : World} {a : α}
    (h : x.run w = (.ok a, w')) : (x >>= f).noted w = x.noted w ++ (f a).noted w' := by
  have hbind : (x >>= f).noted w = x.noted w ++ Prog.noted (andThen f (x.run w).1) (x.run w).2 :=
    Prog.noted_bind ..
  rw [hbind, h]
  rfl

def ReadOnly (x : Call α) : Prop := Prog.ReadOnly x

theorem readOnly_bind {x : Call α} {f : α → Call β} (hx : x.ReadOnly) (hf : ∀ a, (f a).ReadOnly) :
    (x >>= f).ReadOnly := by
  refine Prog.ReadOnly.bind hx fun r => ?_
  cases r with
  | ok a => exact hf a
  | raise e => exact trivial
  | diverge => exact trivial

theorem readOnly_reads {f : World → Result α} : (atomically (Sys.reads f)).ReadOnly :=
  ⟨fun _ => rfl, fun _ => trivial⟩

/-- A call, or a part of one, that holds `held` before and afterwards. -/
def Keeps (held : List Mutex) (x : Call α) : Prop := Prog.Locks Mutex.rank held x held

variable {held : List Mutex}

theorem ReadOnly.keeps {x : Call α} (hx : x.ReadOnly) : Keeps held x := Prog.ReadOnly.locks hx

theorem keeps_pure {a : α} : Keeps held (pure a) := rfl

theorem keeps_ofResult {r : Result α} : Keeps held (ofResult r) := rfl

theorem keeps_atomically {x : Sys World α} : Keeps held (atomically x) := fun _ => rfl

theorem keeps_note {capture : Nat × File} : Keeps held (note capture) := rfl

theorem keeps_bind {x : Call α} {f : α → Call β} (hx : Keeps held x)
    (hf : ∀ a, Keeps held (f a)) : Keeps held (x >>= f) := by
  refine Prog.Locks.bind hx fun r => ?_
  cases r with
  | ok a => exact hf a
  | raise e => rfl
  | diverge => rfl

theorem keeps_withLock {m : Mutex} {x : Call α}
    (hm : ∀ m' ∈ held, m.rank < m'.rank) (hx : Keeps (m :: held) x) :
    Keeps held (withLock m x) := Prog.Locks.holding hm hx

end Call

namespace Concurrent
open Call

/-- The members of the set. -/
def members : Call PersistentHashSet := atomically (Sys.reads fun w => .ok w.set)

/-- `lookup`, with one step for each pass of its loop. -/
def lookupLoop (env : Env) (nslots : Nat) (record_id : SHA1Hash) : Nat → Probe → Call Found
  | 0, _ => ofResult (.RAISE .illegalStateError "set is full")
  | fuel+1, p => do
    match ← atomically (Sys.reads fun w => lookupStep env w.disk.fs nslots record_id p) with
    | .inl found => return found
    | .inr p => lookupLoop env nslots record_id fuel p

def lookup (env : Env) (file : File) (nslots : Nat) (record_id : SHA1Hash) : Call Found :=
  lookupLoop env nslots record_id nslots (.new env file)

/-- `scan`, with one step for each batch. -/
def scanLoop : Nat → File → Bytes → Call (List SHA1Hash)
  | 0, _, _ => return []
  | nbatches+1, file, buf => do
    let (data, file) ← atomically
      (Sys.reads fun w => .ok (file.read w.disk.fs (kFetchIOBatchSize*SHA1Hash.kSize)))
    let buf := overwrite buf data
    let rest ← scanLoop nbatches file buf
    return batchSlots buf ++ rest

def scan (env : Env) (file : File) (nslots : Nat) : Call (List SHA1Hash) := do
  let file ← ofResult (file.seekTo headerSize)
  let nbatches := (nslots+kFetchIOBatchSize-1) % 2^64/kFetchIOBatchSize
  scanLoop nbatches file (env.malloc (kFetchIOBatchSize*SHA1Hash.kSize))

def scanOwn (env : Env) (file : File) : Call (List SHA1Hash) := do
  let set ← members
  if 0 < set.nslots_ then scan env file set.nslots_ else return []

/-- The end of `grow`, under `read_mutex_`. -/
def publish (fpath : Bytes) (new_nslots : Nat) : Call Unit :=
  withLock .read_mutex_ do
    atomically (onDisk (FileUtil.mv (tmpPath fpath) fpath))
    atomically (setSlots new_nslots)

def grow (env : Env) (file : File) : Call File := do
  let set ← members
  let new_nslots := growthSize set.nslots_
  let visited ← scanOwn env file
  let new_data := rehash env new_nslots visited
  let new_file ← atomically (onDisk (File.openFile (tmpPath set.fpath_)
    { createOrOpen := true, write := true, read := true, truncate := true }))
  let new_file ← atomically (onDisk (new_file.write (header new_nslots)))
  let new_file ← atomically (onDisk (new_file.write (new_data.flatMap SHA1Hash.hash)))
  publish set.fpath_ new_nslots
  return new_file

def countUsed (env : Env) (file : File) : Call Unit := do
  let set ← members
  if set.nslots_used_ = 2^64-1 then
    atomically (setUsed 0)
    let visited ← scanOwn env file
    atomically (setUsed (visited.length % 2^64))

def ensureRoom (env : Env) (file : File) : Call File := do
  let set ← members
  if mustGrow set then grow env file else return file

def lookupOwn (env : Env) (file : File) (record_id : SHA1Hash) : Call Found := do
  let set ← members
  lookup env file set.nslots_ record_id

def writeSlot (file : File) (record_id : SHA1Hash) (insert_idx : Nat) : Call File := do
  let file ← ofResult (file.seekTo (headerSize+insert_idx*SHA1Hash.kSize))
  let file ← atomically (onDisk (file.write record_id.hash))
  let set ← members
  atomically (setUsed ((set.nslots_used_+1) % 2^64))
  return file

def insert (env : Env) (file : File) (record_id : SHA1Hash) : Call (File × Bool) := do
  countUsed env file
  let file ← ensureRoom env file
  match ← lookupOwn env file record_id with
  | .yes => return (file, false)
  | .no insert_idx =>
    let file ← writeSlot file record_id insert_idx
    return (file, true)

def addRecordID (env : Env) (record_id : SHA1Hash) : Call Bool :=
  withLock .write_mutex_ do
    let file ← atomically openForWrite
    let (_, isNew) ← insert env file record_id
    return isNew

def insertAll (env : Env) : File → List SHA1Hash → Call (List SHA1Hash)
  | _, [] => return []
  | file, record_id :: rest => do
    let (file, isNew) ← insert env file record_id
    let left ← insertAll env file rest
    return if isNew then record_id :: left else left

def addRecordIDs (env : Env) (record_ids : List SHA1Hash) : Call (List SHA1Hash) :=
  withLock .write_mutex_ do
    let file ← atomically openForWrite
    insertAll env file record_ids

/-- What a reader does under `read_mutex_`: it captures `nslots_` and the current file. -/
def capture : Call (Option (Nat × File)) :=
  withLock .read_mutex_ do
    let set ← members
    let nslots := set.nslots_
    if nslots = 0 then return none
    else
      let file ← atomically openForRead
      return some (nslots, file)

def hasRecordID (env : Env) (record_id : SHA1Hash) : Call Bool := do
  match ← capture with
  | none => return false
  | some (nslots, file) =>
    note (nslots, file)
    match ← lookup env file nslots record_id with
    | .yes => return true
    | .no _ => return false

def fetchRecordIDs (env : Env) : Call (Finset SHA1Hash) := do
  match ← capture with
  | none => return ∅
  | some (nslots, file) =>
    note (nslots, file)
    let visited ← scan env file nslots
    return visited.toFinset

/- Run alone, the calls are those of the sequential model. -/

theorem run_members_bind {α : Type} (f : PersistentHashSet → Call α) (w : World) :
    (members >>= f).run w = (f w.set).run w := rfl

theorem run_lookupLoop (env : Env) (nslots : Nat) (id : SHA1Hash) (fuel : Nat) (p : Probe)
    (w : World) :
    (lookupLoop env nslots id fuel p).run w =
      (PersistentHashSet.lookupLoop env w.disk.fs nslots id fuel p, w) := by
  induction fuel generalizing p with
  | zero => rfl
  | succ fuel ih =>
    rw [lookupLoop, run_bind, run_atomically, PersistentHashSet.lookupLoop]
    cases hstep : lookupStep env w.disk.fs nslots id p with
    | ok r =>
      rw [Sys.reads_bind (f := fun w : World => lookupStep env w.disk.fs nslots id p) (s := w) hstep]
      cases r with
      | inl found => rfl
      | inr p' => exact ih p'
    | raise e => exact Sys.bind_of_raise (by rw [Sys.reads_apply, hstep])
    | diverge => exact Sys.bind_of_diverge (by rw [Sys.reads_apply, hstep])

theorem run_lookup (env : Env) (file : File) (nslots : Nat) (id : SHA1Hash) :
    (lookup env file nslots id).run =
      Sys.reads fun w => PersistentHashSet.lookup env w.disk.fs file nslots id :=
  funext fun w => run_lookupLoop env nslots id nslots (.new env file) w

theorem run_scanLoop (nbatches : Nat) (file : File) (buf : Bytes) (w : World) :
    (scanLoop nbatches file buf).run w =
      (.ok (PersistentHashSet.scanLoop w.disk.fs nbatches file buf), w) := by
  induction nbatches generalizing file buf with
  | zero => rfl
  | succ nbatches ih =>
    have hrest := ih (file.read w.disk.fs (kFetchIOBatchSize*SHA1Hash.kSize)).2
      (overwrite buf (file.read w.disk.fs (kFetchIOBatchSize*SHA1Hash.kSize)).1)
    rw [scanLoop, run_bind, run_atomically]
    change (scanLoop nbatches _ _ >>= fun rest => pure (_ ++ rest)).run w = _
    rw [run_bind]
    exact Sys.bind_of_ok hrest

theorem run_scan (env : Env) (file : File) (nslots : Nat) :
    (scan env file nslots).run =
      Sys.reads fun w => PersistentHashSet.scan env w.disk.fs file nslots := by
  funext w
  rw [scan, run_bind, run_ofResult, Sys.reads_apply, PersistentHashSet.scan]
  cases hseek : file.seekTo headerSize with
  | ok file' => exact run_scanLoop ..
  | raise e => exact Sys.bind_of_raise (by rw [Sys.reads_apply])
  | diverge => exact Sys.bind_of_diverge (by rw [Sys.reads_apply])

theorem run_scanOwn (env : Env) (file : File) :
    (scanOwn env file).run = PersistentHashSet.scanOwn env file := by
  funext w
  rw [scanOwn, run_members_bind, PersistentHashSet.scanOwn, Sys.reads_apply]
  split
  · rw [run_scan, Sys.reads_apply]
  · rfl

theorem run_grow (env : Env) (file : File) :
    (grow env file).run = PersistentHashSet.grow env file := by
  funext w
  rw [grow, run_members_bind, PersistentHashSet.grow, Sys.get_bind]
  simp only [publish, run_bind, run_atomically, run_scanOwn, run_withLock, run_pure, Sys.bind_assoc]

theorem run_countUsed (env : Env) (file : File) :
    (countUsed env file).run = PersistentHashSet.countUsed env file := by
  funext w
  rw [countUsed, run_members_bind, PersistentHashSet.countUsed, Sys.get_bind]
  split
  · simp only [run_bind, run_atomically, run_scanOwn]
  · rfl

theorem run_ensureRoom (env : Env) (file : File) :
    (ensureRoom env file).run = PersistentHashSet.ensureRoom env file := by
  funext w
  rw [ensureRoom, run_members_bind, PersistentHashSet.ensureRoom, Sys.get_bind]
  split
  · rw [run_grow]
  · rfl

theorem run_lookupOwn (env : Env) (file : File) (id : SHA1Hash) :
    (lookupOwn env file id).run = PersistentHashSet.lookupOwn env file id := by
  funext w
  rw [lookupOwn, run_members_bind, run_lookup]
  rfl

theorem run_writeSlot (file : File) (id : SHA1Hash) (idx : Nat) :
    (writeSlot file id idx).run = PersistentHashSet.writeSlot file id idx := by
  simp only [writeSlot, members, run_bind, run_atomically, run_ofResult]
  rfl

theorem run_insert (env : Env) (file : File) (id : SHA1Hash) :
    (insert env file id).run = PersistentHashSet.insert env file id := by
  have hrest : ∀ (file : File) (r : Found),
      (match r with
        | .yes => pure (file, false)
        | .no insert_idx => do
          let file ← writeSlot file id insert_idx
          return (file, true) : Call (File × Bool)).run =
      match r with
        | .yes => pure (file, false)
        | .no insert_idx => do
          let file ← PersistentHashSet.writeSlot file id insert_idx
          return (file, true) := by
    intro file r
    cases r with
    | yes => rfl
    | no idx => simp only [run_bind, run_writeSlot, run_pure]
  simp only [insert, run_bind, run_countUsed, run_ensureRoom, run_lookupOwn, hrest]
  rfl

theorem run_addRecordID (env : Env) (id : SHA1Hash) :
    (addRecordID env id).run = PersistentHashSet.addRecordID env id := by
  simp only [addRecordID, run_withLock, run_bind, run_atomically, run_insert, run_pure]
  rfl

theorem run_insertAll (env : Env) (file : File) (ids : List SHA1Hash) :
    (insertAll env file ids).run = PersistentHashSet.insertAll env file ids := by
  induction ids generalizing file with
  | nil => rfl
  | cons id ids ih => simp only [insertAll, run_bind, run_insert, ih, run_pure,
      PersistentHashSet.insertAll]

theorem run_addRecordIDs (env : Env) (ids : List SHA1Hash) :
    (addRecordIDs env ids).run = PersistentHashSet.addRecordIDs env ids := by
  simp only [addRecordIDs, run_withLock, run_bind, run_atomically, run_insertAll]
  rfl

theorem run_capture_bind {α : Type} (f : Option (Nat × File) → Call α) (w : World) :
    (capture >>= f).run w =
      if w.set.nslots_ = 0 then (f none).run w
      else (openForRead >>= fun file => (f (some (w.set.nslots_, file))).run) w := by
  rw [run_bind, capture, run_withLock]
  by_cases hzero : w.set.nslots_ = 0
  · rw [if_pos hzero]
    apply Sys.bind_of_ok
    rw [run_members_bind, if_pos hzero, run_pure, Sys.pure_apply]
  · rw [if_neg hzero]
    have hrun : (members >>= fun set =>
        if set.nslots_ = 0 then pure none
        else atomically openForRead >>= fun file => pure (some (set.nslots_, file)) : Call _).run w =
        (openForRead >>= fun file => pure (some (w.set.nslots_, file))) w := by
      rw [run_members_bind, if_neg hzero, run_bind, run_atomically]
      rfl
    cases hopen : openForRead w with
    | mk r w' =>
      cases r with
      | ok file =>
        rw [Sys.bind_of_ok hopen] at hrun ⊢
        exact Sys.bind_of_ok hrun
      | raise e =>
        rw [Sys.bind_of_raise hopen] at hrun ⊢
        exact Sys.bind_of_raise hrun
      | diverge =>
        rw [Sys.bind_of_diverge hopen] at hrun ⊢
        exact Sys.bind_of_diverge hrun

theorem run_hasRecordID (env : Env) (id : SHA1Hash) :
    (hasRecordID env id).run = PersistentHashSet.hasRecordID env id := by
  funext w
  rw [hasRecordID, run_capture_bind, PersistentHashSet.hasRecordID, Sys.get_bind]
  by_cases hzero : w.set.nslots_ = 0
  · rw [if_pos hzero, if_pos hzero]
    rfl
  · have hanswer : ∀ r : Found,
        (match r with
          | .yes => pure true
          | .no _ => pure false : Call Bool).run =
        match r with
          | .yes => pure true
          | .no _ => pure false := by
      intro r
      cases r <;> rfl
    rw [if_neg hzero, if_neg hzero]
    simp only [run_bind, run_note, run_lookup, hanswer]
    rfl

theorem run_fetchRecordIDs (env : Env) :
    (fetchRecordIDs env).run = PersistentHashSet.fetchRecordIDs env := by
  funext w
  rw [fetchRecordIDs, run_capture_bind, PersistentHashSet.fetchRecordIDs, Sys.get_bind]
  by_cases hzero : w.set.nslots_ = 0
  · rw [if_pos hzero, if_pos hzero]
    rfl
  · rw [if_neg hzero, if_neg hzero]
    simp only [run_bind, run_note, run_scan, run_pure]
    rfl

/- The mutexes. -/

theorem lookup_readOnly (env : Env) (file : File) (nslots : Nat) (id : SHA1Hash) :
    (lookup env file nslots id).ReadOnly := by
  have hloop : ∀ fuel p, (lookupLoop env nslots id fuel p).ReadOnly := by
    intro fuel
    induction fuel with
    | zero => exact fun _ => trivial
    | succ fuel ih =>
      intro p
      refine readOnly_bind readOnly_reads fun r => ?_
      cases r with
      | inl found => exact trivial
      | inr p' => exact ih p'
  exact hloop nslots _

theorem scan_readOnly (env : Env) (file : File) (nslots : Nat) :
    (scan env file nslots).ReadOnly := by
  have hloop : ∀ nbatches file buf, (scanLoop nbatches file buf).ReadOnly := by
    intro nbatches
    induction nbatches with
    | zero => exact fun _ _ => trivial
    | succ nbatches ih =>
      intro file buf
      exact readOnly_bind readOnly_reads fun _ => readOnly_bind (ih ..) fun _ => trivial
  refine readOnly_bind ?_ fun _ => hloop ..
  exact trivial

theorem scanOwn_readOnly (env : Env) (file : File) : (scanOwn env file).ReadOnly := by
  refine readOnly_bind readOnly_reads fun set => ?_
  split
  · exact scan_readOnly ..
  · exact trivial

theorem lookupOwn_readOnly (env : Env) (file : File) (id : SHA1Hash) :
    (lookupOwn env file id).ReadOnly :=
  readOnly_bind readOnly_reads fun _ => lookup_readOnly ..

theorem publish_keeps (fpath : Bytes) (new_nslots : Nat) :
    Keeps [.write_mutex_] (publish fpath new_nslots) := by
  refine keeps_withLock (by decide) ?_
  exact keeps_bind keeps_atomically fun _ => keeps_atomically

theorem grow_keeps (env : Env) (file : File) : Keeps [.write_mutex_] (grow env file) := by
  refine keeps_bind keeps_atomically fun set => ?_
  refine keeps_bind (scanOwn_readOnly env file).keeps fun visited => ?_
  refine keeps_bind keeps_atomically fun _ => keeps_bind keeps_atomically fun _ => ?_
  refine keeps_bind keeps_atomically fun _ => keeps_bind (publish_keeps ..) fun _ => ?_
  exact keeps_pure

theorem countUsed_keeps (env : Env) (file : File) : Keeps [.write_mutex_] (countUsed env file) := by
  refine keeps_bind keeps_atomically fun set => ?_
  split
  · refine keeps_bind keeps_atomically fun _ => ?_
    exact keeps_bind (scanOwn_readOnly env file).keeps fun _ => keeps_atomically
  · exact keeps_pure

theorem insert_keeps (env : Env) (file : File) (id : SHA1Hash) :
    Keeps [.write_mutex_] (insert env file id) := by
  refine keeps_bind (countUsed_keeps env file) fun _ => ?_
  refine keeps_bind (keeps_bind keeps_atomically fun set => ?_) fun file => ?_
  · split
    · exact grow_keeps env file
    · exact keeps_pure
  · refine keeps_bind (lookupOwn_readOnly env file id).keeps fun r => ?_
    cases r with
    | yes => exact keeps_pure
    | no idx =>
      refine keeps_bind (keeps_bind keeps_ofResult fun _ => ?_) fun _ => keeps_pure
      refine keeps_bind keeps_atomically fun _ => keeps_bind keeps_atomically fun _ => ?_
      exact keeps_bind keeps_atomically fun _ => keeps_pure

theorem insertAll_keeps (env : Env) (file : File) (ids : List SHA1Hash) :
    Keeps [.write_mutex_] (insertAll env file ids) := by
  induction ids generalizing file with
  | nil => exact keeps_pure
  | cons id ids ih =>
    exact keeps_bind (insert_keeps env _ id) fun _ => keeps_bind (ih _) fun _ => keeps_pure

theorem capture_keeps : Keeps [] capture := by
  refine keeps_withLock (by decide) (keeps_bind keeps_atomically fun set => ?_)
  dsimp only
  split
  · exact keeps_pure
  · exact keeps_bind keeps_atomically fun _ => keeps_pure

/- The system. -/

/-- The calls that the threads make. -/
inductive Request where
  | addRecordID (record_id : SHA1Hash)
  | addRecordIDs (record_ids : List SHA1Hash)
  | hasRecordID (record_id : SHA1Hash)
  | fetchRecordIDs

/-- What they return; `addRecordIDs` leaves its answer in the set it was given. -/
inductive Answer where
  | flag (value : Bool)
  | ids (value : List SHA1Hash)
  | set (value : Finset SHA1Hash)

def code (env : Env) : Request → Call Answer
  | .addRecordID id => return .flag (← addRecordID env id)
  | .addRecordIDs ids => return .ids (← addRecordIDs env ids)
  | .hasRecordID id => return .flag (← hasRecordID env id)
  | .fetchRecordIDs => return .set (← fetchRecordIDs env)

/-- The sequential model of the calls. -/
def perform (env : Env) : Request → Sys World Answer
  | .addRecordID id => return .flag (← PersistentHashSet.addRecordID env id)
  | .addRecordIDs ids => return .ids (← PersistentHashSet.addRecordIDs env ids)
  | .hasRecordID id => return .flag (← PersistentHashSet.hasRecordID env id)
  | .fetchRecordIDs => return .set (← PersistentHashSet.fetchRecordIDs env)

theorem run_code (env : Env) (c : Request) : (code env c).run = perform env c := by
  cases c with
  | addRecordID id => simp only [code, perform, run_bind, run_addRecordID, run_pure]
  | addRecordIDs ids => simp only [code, perform, run_bind, run_addRecordIDs, run_pure]
  | hasRecordID id => simp only [code, perform, run_bind, run_hasRecordID, run_pure]
  | fetchRecordIDs => simp only [code, perform, run_bind, run_fetchRecordIDs, run_pure]

/-- Every call gives back what it takes, and takes `read_mutex_` last. -/
theorem code_keeps (env : Env) (c : Request) : Keeps [] (code env c) := by
  cases c with
  | addRecordID id =>
    refine keeps_bind (keeps_withLock (by decide) ?_) fun _ => keeps_pure
    exact keeps_bind keeps_atomically fun _ => keeps_bind (insert_keeps env _ id) fun _ => keeps_pure
  | addRecordIDs ids =>
    refine keeps_bind (keeps_withLock (by decide) ?_) fun _ => keeps_pure
    exact keeps_bind keeps_atomically fun _ => insertAll_keeps ..
  | hasRecordID id =>
    refine keeps_bind (keeps_bind capture_keeps fun captured => ?_) fun _ => keeps_pure
    cases captured with
    | none => exact keeps_pure
    | some pair =>
      refine keeps_bind keeps_note fun _ => keeps_bind (lookup_readOnly ..).keeps fun r => ?_
      cases r with
      | yes => exact keeps_pure
      | no idx => exact keeps_pure
  | fetchRecordIDs =>
    refine keeps_bind (keeps_bind capture_keeps fun captured => ?_) fun _ => keeps_pure
    cases captured with
    | none => exact keeps_pure
    | some pair =>
      refine keeps_bind keeps_note fun _ => ?_
      exact keeps_bind (scan_readOnly ..).keeps fun _ => keeps_pure

/-- Any number of calls on one set, in any interleaving of their steps. -/
abbrev Pool := Threads.Pool World Mutex (Nat × File) Request (Result Answer)

/-- The states that are reached from a set that was opened, and used, before the threads
began. -/
def Reaches (env : Env) (w : World) (p : Pool) : Prop := (Threads.Pool.init w).Run (code env) p

/-- A call that begins while no mutex is held, and that the others let run, does to the set
what its sequential model does. -/
theorem runs_alone (env : Env) (c : Request) {p : Pool} {t : Nat} (ht : p.threads t = none)
    (hfree : ∀ m, p.view.holder m = none) :
    ∃ p' : Pool, p.Run (code env) p' ∧ p'.Returned t c (perform env c p.view.state).1 ∧
      p'.view = ⟨(perform env c p.view.state).2, fun _ => none⟩ ∧
      (∀ u ≠ t, p'.threads u = p.threads u) ∧
      p'.notes = p.notes ++ ((code env c).noted p.view.state).map (t, ·) := by
  rw [← run_code]
  obtain ⟨p', hrun, hret, hview, hothers, hnotes⟩ := Threads.Pool.solo (code env)
    (p := p.moved t c p.view (code env c) []) (code_keeps env c) .nil (p.moved_self ..) hfree
  exact ⟨p', hrun.head (.start t c ht), hret, hview,
    fun u hu => (hothers u hu).trans (p.moved_of_ne hu ..), by simpa [Threads.Pool.moved, Call.noted] using hnotes⟩

end Concurrent
end Stx.PersistentHashSet
