import Stx.Http.HTTPServerConnection.RequestBody
import Stx.Thread.ThreadPool
import Mathlib.Data.List.ReduceOption

/-! The tasks of a request body in a thread pool. A thread takes the front of the queue, but
nothing keeps it from calling what it took behind a thread that took its task later. -/
namespace Stx.Http.HTTPServerConnection
open Stx.Thread
variable {κ : Type}

/-- Where the handler is in `readRequestBody`. -/
inductive Handler where
  | before
  | registered
  | flushed
  deriving DecidableEq

/-- A connection in the body of a request, of which `rest` is still to come, with the pool that it
schedules its tasks in. The pool has them by their number, and tasks of others without one;
`observed` are the tasks that the pool has called. -/
structure Upload (κ : Type) where
  conn : HTTPServerConnection κ
  rest : Bytes
  handler : Handler := .before
  pool : ThreadPool (Option Nat)
  observed : List Nat := []

inductive UploadAction where
  | read (data : Bytes)
  | readRequestBody
  | read_body_chunk_fn
  | other
  | thread (i : Nat)

namespace Upload

def start (conn : HTTPServerConnection κ) (rest : Bytes) (max_cached_threads : UInt64) : Upload κ where
  conn := conn
  rest := rest
  pool := { max_cached_threads_ := max_cached_threads }

/-- A section of the connection, with the new tasks passed to the pool. -/
def runSection (u : Upload κ) (s : Section κ) : Upload κ :=
  let conn := exec [s] u.conn
  let fresh := List.range' u.conn.tasks.length (conn.tasks.length - u.conn.tasks.length)
  { u with conn := conn, pool := fresh.foldl (fun pool n => pool.run (some n)) u.pool }

def step (callback on_error : κ) (u : Upload κ) : UploadAction → Option (Upload κ)
  | .read data =>
    if data ≠ [] ∧ data <+: u.rest then
      some { u.runSection (.read (.ok data)) with rest := u.rest.drop data.length }
    else none
  | .readRequestBody =>
    match u.handler with
    | .before => some { u.runSection (.readRequestBody callback on_error) with handler := .registered }
    | _ => none
  | .read_body_chunk_fn =>
    match u.handler with
    | .registered => some { u.runSection (.read_body_chunk_fn callback []) with handler := .flushed }
    | _ => none
  | .other => some { u with pool := u.pool.run none }
  | .thread i =>
    match u.pool.advance i with
    | none => none
    | some (called, pool) =>
      some { u with pool := pool, observed := u.observed ++ called.join.toList }

/-- What the callback has seen. -/
def calls (u : Upload κ) : List (Task κ) := u.observed.filterMap fun n => u.conn.tasks[n]?

/-- The callback has seen the tasks in the order of the body, nothing comes behind the end of it,
and in the end it has seen the whole of it. -/
structure InOrder (callback : κ) (body : Bytes) (u : Upload κ) : Prop where
  order : u.observed = List.range u.observed.length
  chunks : u.calls.flatMap Task.chunk <+: body
  last : ∀ n, u.conn.marks[n]? = some true → n + 1 = u.conn.marks.length
  whole : u.handler = .flushed → u.rest = [] → u.observed.length = u.conn.tasks.length →
    Delivers callback body u.calls

/-- A thread calls its task when no thread holds an earlier one, and the end of the body is not
read between the two sections of `readRequestBody`. -/
def Ordered (u : Upload κ) : UploadAction → Prop
  | .thread i => ∀ n, u.pool.heldBy i = some (some n) → ∀ m, some m ∈ u.pool.inHand → n ≤ m
  | .read_body_chunk_fn => u.conn.parser_.state_ = .done → u.conn.tasks = []
  | _ => True

/-- Every task is in the queue, in hand or called, and the queue has the last ones in order. -/
def Accounts (u : Upload κ) : Prop :=
  ∃ taken ≤ u.conn.tasks.length,
    u.pool.runq_.reduceOption = List.range' taken (u.conn.tasks.length - taken) ∧
      (u.observed ++ u.pool.inHand.reduceOption).Perm (List.range taken)

/-- What the connection has read of the body is where `readRequestBody` left it. -/
structure Receives (callback : κ) (got : Bytes) (u : Upload κ) : Prop where
  before : u.handler = .before → u.conn.Buffering got u.rest
  registered : u.handler ≠ .before → u.conn.Registered callback got u.rest
  unmarked : u.handler ≠ .before → u.rest ≠ [] → true ∉ u.conn.marks
  marked : u.handler ≠ .before → u.rest = [] → u.handler = .flushed ∨ u.conn.marks ≠ [] →
    true ∈ u.conn.marks
  flushed : u.handler = .flushed → u.conn.body_buf_ = []

section pool
variable {u : Upload κ} {pool : ThreadPool (Option Nat)} {ns : List Nat}

theorem runq_foldl_run :
    (ns.foldl (fun pool n => pool.run (some n)) pool).runq_ = pool.runq_ ++ ns.map some := by
  induction ns generalizing pool with
  | nil => simp
  | cons n ns ih => simp [ih]

theorem inHand_foldl_run :
    (ns.foldl (fun pool n => pool.run (some n)) pool).inHand = pool.inHand := by
  induction ns generalizing pool with
  | nil => rfl
  | cons n ns ih => simp [ih]

theorem reduceOption_map_some : (ns.map some).reduceOption = ns := by
  induction ns with
  | nil => rfl
  | cons n ns ih => rw [List.map_cons, List.reduceOption_cons_of_some, ih]

theorem accounts_start (conn : HTTPServerConnection κ) (rest : Bytes) (max_cached_threads : UInt64)
    (h : conn.tasks = []) : (start conn rest max_cached_threads).Accounts := by
  refine ⟨0, Nat.zero_le _, ?_, .refl _⟩
  simp [start, h]

theorem Accounts.runSection (h : u.Accounts) (s : Section κ)
    (hle : u.conn.tasks.length ≤ (exec [s] u.conn).tasks.length) : (u.runSection s).Accounts := by
  obtain ⟨taken, htaken, hrunq, hperm⟩ := h
  refine ⟨taken, htaken.trans hle, ?_, ?_⟩
  · have hfresh : u.conn.tasks.length = taken + (u.conn.tasks.length - taken) := by omega
    simp only [Upload.runSection, runq_foldl_run, List.reduceOption_append, hrunq,
      reduceOption_map_some]
    nth_rewrite 2 [hfresh]
    rw [List.range'_append_1]
    congr 1
    omega
  · simpa only [Upload.runSection, inHand_foldl_run] using hperm

theorem Accounts.other (h : u.Accounts) : Accounts { u with pool := u.pool.run none } := by
  obtain ⟨taken, htaken, hrunq, hperm⟩ := h
  refine ⟨taken, htaken, ?_, ?_⟩
  · simpa [List.reduceOption_append] using hrunq
  · simpa using hperm

theorem Accounts.thread {i : Nat} {called : Option (Option Nat)} (h : u.Accounts)
    (hstep : u.pool.Advances i called pool) :
    Accounts { u with pool := pool, observed := u.observed ++ called.join.toList } := by
  obtain ⟨taken, htaken, hrunq, hperm⟩ := h
  obtain ⟨next, hnext, hhands⟩ := hstep.hands
  have hids : ∀ o : Option (Option Nat), o.toList.reduceOption = o.join.toList := by
    intro o
    cases o with
    | none => rfl
    | some o => cases o <;> rfl
  have hhands := hhands.filterMap id
  rw [List.filterMap_append, List.filterMap_append] at hhands
  change (called.toList.reduceOption ++ pool.inHand.reduceOption).Perm
    (next.toList.reduceOption ++ u.pool.inHand.reduceOption) at hhands
  rw [hnext, List.reduceOption_append] at hrunq
  rw [hids] at hrunq hhands
  rw [hids] at hhands
  have hmoved : (u.observed ++ called.join.toList ++ pool.inHand.reduceOption).Perm
      (List.range taken ++ next.join.toList) := by
    rw [List.append_assoc]
    refine (hhands.append_left u.observed).trans ?_
    refine (List.perm_append_comm.append_left _).trans ?_
    rw [← List.append_assoc]
    exact hperm.append_right _
  cases hnext : next.join with
  | none =>
    rw [hnext] at hrunq hmoved
    refine ⟨taken, htaken, hrunq, ?_⟩
    simpa using hmoved
  | some n =>
    rw [hnext] at hrunq hmoved
    have hlt : taken < u.conn.tasks.length := by
      have hpos := congrArg List.length hrunq
      simp only [Option.toList_some, List.length_append, List.length_singleton,
        List.length_range'] at hpos
      omega
    have hleft : u.conn.tasks.length - taken = u.conn.tasks.length - (taken + 1) + 1 := by omega
    rw [hleft, List.range'_succ] at hrunq
    obtain ⟨hn, hrest⟩ := List.cons.inj hrunq
    refine ⟨taken + 1, hlt, hrest, ?_⟩
    rw [hn] at hmoved
    rw [List.range_succ]
    exact hmoved

/-- What is in hand or in the queue of the pool comes behind what was called, if that is in order. -/
theorem Accounts.order_iff {n : Nat} (h : u.Accounts)
    (horder : u.observed = List.range u.observed.length) (hn : some n ∈ u.pool.inHand) :
    u.observed ++ [n] = List.range (u.observed ++ [n]).length ↔
      ∀ m, some m ∈ u.pool.inHand → n ≤ m := by
  obtain ⟨taken, -, -, hperm⟩ := h
  generalize hk : u.observed.length = k at horder
  rw [horder] at hperm
  have hnodup := hperm.nodup_iff.2 List.nodup_range
  have hmem : ∀ m, some m ∈ u.pool.inHand ↔ k ≤ m ∧ m < taken := by
    intro m
    have hiff := hperm.mem_iff (a := m)
    rw [List.mem_append, List.mem_range, List.mem_range, List.reduceOption_mem_iff] at hiff
    have hdisjoint := List.disjoint_of_nodup_append hnodup
    constructor
    · intro hin
      refine ⟨?_, hiff.1 (.inr hin)⟩
      by_contra hlt
      exact hdisjoint (List.mem_range.2 (by omega)) (List.reduceOption_mem_iff.2 hin)
    · intro hlt
      exact (hiff.2 hlt.2).resolve_left (by omega)
  have hlast : u.observed ++ [n] = List.range (u.observed ++ [n]).length ↔ n = k := by
    rw [List.length_append, hk, List.length_singleton, List.range_succ, horder,
      List.append_cancel_left_eq, List.singleton_inj]
  rw [hlast]
  have hbounds := (hmem n).1 hn
  constructor
  · intro heq m hm
    exact heq ▸ ((hmem m).1 hm).1
  · intro hmin
    have hle := hmin k ((hmem k).2 ⟨Nat.le_refl k, by omega⟩)
    omega

end pool

section marks
variable {l : List Bool} {b : Bool}

theorem last_of_not_mem (h : true ∉ l) (n : Nat) (hn : l[n]? = some true) : n + 1 = l.length :=
  absurd (List.mem_of_getElem? hn) h

theorem last_concat (h : true ∉ l) (n : Nat) (hn : (l ++ [b])[n]? = some true) :
    n + 1 = (l ++ [b]).length := by
  by_cases hlt : n < l.length
  · rw [List.getElem?_append_left hlt] at hn
    exact absurd (List.mem_of_getElem? hn) h
  · obtain ⟨hn, -⟩ := List.getElem?_eq_some_iff.1 hn
    rw [List.length_append, List.length_singleton] at hn ⊢
    omega

theorem not_mem_of_last (h : ∀ n, (l ++ [b])[n]? = some true → n + 1 = (l ++ [b]).length) :
    true ∉ l := by
  intro hmem
  obtain ⟨n, hn⟩ := List.mem_iff_getElem?.1 hmem
  have hlt := (List.getElem?_eq_some_iff.1 hn).1
  have hlast := h n (by rw [List.getElem?_append_left hlt, hn])
  rw [List.length_append, List.length_singleton] at hlast
  omega

/-- The end is told once, by the last mark. -/
theorem ends_of_last (h : ∀ n, l[n]? = some true → n + 1 = l.length) (hmem : true ∈ l) :
    ∃ n, l = List.replicate n false ++ [true] := by
  cases List.eq_nil_or_concat l with
  | inl hnil => simp [hnil] at hmem
  | inr hconcat =>
    obtain ⟨init, b, rfl⟩ := hconcat
    rw [List.concat_eq_append] at h hmem
    have hinit := not_mem_of_last h
    have hb : b = true := by
      have hor := List.mem_append.1 hmem
      exact (List.mem_singleton.1 (hor.resolve_left hinit)).symm
    refine ⟨init.length, ?_⟩
    rw [List.concat_eq_append, hb]
    congr 1
    refine List.eq_replicate_iff.2 ⟨rfl, fun c hc => ?_⟩
    cases c with
    | false => rfl
    | true => exact absurd hc hinit

end marks

section receiving
variable {callback : κ} {got body : Bytes} {u : Upload κ}

theorem length_marks (c : HTTPServerConnection κ) : c.marks.length = c.tasks.length :=
  List.length_map _

theorem receives_start {conn : HTTPServerConnection κ} {rest : Bytes} (max_cached_threads : UInt64)
    (h : conn.Buffering got rest) : (start conn rest max_cached_threads).Receives callback got where
  before _ := h
  registered hne := absurd rfl hne
  unmarked hne := absurd rfl hne
  marked hne := absurd rfl hne
  flushed heq := by cases heq

theorem Receives.read {data rest : Bytes} (h : u.Receives callback got) (hne : data ≠ [])
    (hrest : u.rest = data ++ rest) :
    Receives callback (got ++ data) { u.runSection (.read (.ok data)) with rest := rest } := by
  have hmore : u.rest ≠ [] := by
    rw [hrest]
    exact List.append_ne_nil_of_left_ne_nil hne rest
  have hread : u.handler ≠ .before → _ := fun hreg =>
    (hrest ▸ h.registered hreg : u.conn.Registered callback got (data ++ rest)).read hne
  constructor
  · intro hbefore
    exact (hrest ▸ h.before hbefore : u.conn.Buffering got (data ++ rest)).read hne
  · exact fun hreg => (hread hreg).1
  · intro hreg hne
    have hmarks : (exec [.read (.ok data)] u.conn).marks = _ := (hread hreg).2.2
    change true ∉ (exec [.read (.ok data)] u.conn).marks
    rw [hmarks, List.mem_append, not_or]
    exact ⟨h.unmarked hreg hmore, by simpa using hne⟩
  · intro hreg hnil _
    have hmarks : (exec [.read (.ok data)] u.conn).marks = _ := (hread hreg).2.2
    change true ∈ (exec [.read (.ok data)] u.conn).marks
    rw [hmarks]
    simpa using .inr hnil
  · intro hflushed
    have hreg : u.handler ≠ .before := fun heq => by cases heq.symm.trans hflushed
    exact (hread hreg).2.1

theorem Receives.register (h : u.Receives callback got) (hbefore : u.handler = .before)
    (on_error : κ) :
    Receives callback got
      { u.runSection (.readRequestBody callback on_error) with handler := .registered } := by
  obtain ⟨hreg, hmarks⟩ := (h.before hbefore).register callback on_error
  constructor
  · exact fun heq => by cases heq
  · exact fun _ => hreg
  · intro _ _
    change true ∉ (exec [.readRequestBody callback on_error] u.conn).marks
    rw [hmarks]
    exact List.not_mem_nil
  · intro _ _ hor
    exact absurd hmarks (hor.resolve_left fun heq => by cases heq)
  · exact fun heq => by cases heq

theorem Receives.flush (h : u.Receives callback got) (hreg : u.handler = .registered) :
    Receives callback got
      { u.runSection (.read_body_chunk_fn callback []) with handler := .flushed } := by
  have hne : u.handler ≠ .before := fun heq => by cases heq.symm.trans hreg
  obtain ⟨hflush, hbuf, k, hmarks⟩ := (h.registered hne).flush
  constructor
  · exact fun heq => by cases heq
  · exact fun _ => hflush
  · intro _ hrest
    have hrest : u.rest ≠ [] := hrest
    change true ∉ (exec [.read_body_chunk_fn callback []] u.conn).marks
    rw [hmarks, if_neg hrest, List.mem_append, not_or]
    exact ⟨h.unmarked hne hrest, by simp⟩
  · intro _ hrest _
    have hrest : u.rest = [] := hrest
    change true ∈ (exec [.read_body_chunk_fn callback []] u.conn).marks
    rw [hmarks, if_pos hrest]
    simp
  · exact fun _ => hbuf

theorem filterMap_range_getElem? {α : Type} (l : List α) (k : Nat) :
    (List.range k).filterMap (fun n => l[n]?) = l.take k := by
  induction k with
  | zero => rfl
  | succ k ih =>
    rw [List.range_succ, List.filterMap_append, ih, List.take_add_one, List.filterMap_cons]
    cases l[k]? <;> rfl

/-- What the callback has seen follows from the order of the calls and from what the connection has
passed on. -/
theorem inOrder_iff (h : u.Receives callback got) (hbody : got ++ u.rest = body) :
    u.InOrder callback body ↔
      u.observed = List.range u.observed.length ∧
        ∀ n, u.conn.marks[n]? = some true → n + 1 = u.conn.marks.length := by
  refine ⟨fun hin => ⟨hin.order, hin.last⟩, fun hboth => ?_⟩
  obtain ⟨horder, hlast⟩ := hboth
  have hcalls : u.calls = u.conn.tasks.take u.observed.length := by
    rw [calls, horder, filterMap_range_getElem?, List.length_range]
  have htasks : u.conn.tasks.flatMap Task.chunk <+: got := by
    by_cases hbefore : u.handler = .before
    · rw [(h.before hbefore).tasks_eq]
      exact List.nil_prefix
    · exact ⟨u.conn.body_buf_, (h.registered hbefore).all_eq⟩
  refine ⟨horder, ?_, hlast, fun hflushed hrest hall => ?_⟩
  · have htake : (u.conn.tasks.take u.observed.length).flatMap Task.chunk <+:
        u.conn.tasks.flatMap Task.chunk := by
      nth_rewrite 2 [← List.take_append_drop u.observed.length u.conn.tasks]
      rw [List.flatMap_append]
      exact List.prefix_append _ _
    rw [hcalls, ← hbody]
    exact (htake.trans htasks).trans (List.prefix_append _ _)
  · have hne : u.handler ≠ .before := fun heq => by cases heq.symm.trans hflushed
    have hreg := h.registered hne
    have hgot := hreg.all_eq
    rw [h.flushed hflushed, Pipes.Pipe.all, List.append_nil] at hgot
    rw [hcalls, hall, List.take_length, ← hbody, hrest, List.append_nil]
    exact ⟨hreg.callbacks, hgot, ends_of_last hlast (h.marked hne hrest (.inl hflushed))⟩

end receiving

section runs
variable {callback on_error : κ} {body : Bytes} {u v : Upload κ} {a : UploadAction}

/-- What every run keeps, in whatever order the pool calls the tasks. -/
structure Sound (callback : κ) (body : Bytes) (u : Upload κ) : Prop where
  accounts : u.Accounts
  receives : ∃ got, u.Receives callback got ∧ got ++ u.rest = body

/-- A section keeps the order if and only if no end of the body is behind the end of it. -/
theorem Sound.section (hs : u.Sound callback body) {s : Section κ} {got rest : Bytes}
    {handler : Handler} (hmarks : ∃ ms, (exec [s] u.conn).marks = u.conn.marks ++ ms)
    (hreceives : Receives callback got { u.runSection s with rest := rest, handler := handler })
    (hbody : got ++ rest = body) :
    Sound callback body { u.runSection s with rest := rest, handler := handler } ∧
      (u.InOrder callback body →
        (InOrder callback body { u.runSection s with rest := rest, handler := handler } ↔
          ∀ n, (exec [s] u.conn).marks[n]? = some true →
            n + 1 = (exec [s] u.conn).marks.length)) := by
  obtain ⟨ms, hms⟩ := hmarks
  have hle : u.conn.tasks.length ≤ (exec [s] u.conn).tasks.length := by
    rw [← length_marks, ← length_marks, hms, List.length_append]
    omega
  refine ⟨⟨hs.accounts.runSection s hle, got, hreceives, hbody⟩, fun hin => ?_⟩
  rw [inOrder_iff hreceives hbody]
  exact and_iff_right hin.order

theorem marks_read {data rest got : Bytes} (h : u.Receives callback got) (hne : data ≠ [])
    (hrest : u.rest = data ++ rest) :
    (∃ ms, (exec [.read (.ok data)] u.conn).marks = u.conn.marks ++ ms) ∧
      ∀ n, (exec [.read (.ok data)] u.conn).marks[n]? = some true →
        n + 1 = (exec [.read (.ok data)] u.conn).marks.length := by
  by_cases hbefore : u.handler = .before
  · have hread := (hrest ▸ h.before hbefore : u.conn.Buffering got (data ++ rest)).read hne
    have hmarks : (exec [.read (.ok data)] u.conn).marks = [] := by rw [marks, hread.tasks_eq]; rfl
    have hnone : u.conn.marks = [] := by rw [marks, (h.before hbefore).tasks_eq]; rfl
    rw [hmarks, hnone]
    exact ⟨⟨[], rfl⟩, last_of_not_mem List.not_mem_nil⟩
  · obtain ⟨-, -, hmarks⟩ :=
      (hrest ▸ h.registered hbefore : u.conn.Registered callback got (data ++ rest)).read hne
    have hmore : u.rest ≠ [] := by
      rw [hrest]
      exact List.append_ne_nil_of_left_ne_nil hne rest
    rw [hmarks]
    exact ⟨⟨_, rfl⟩, last_concat (h.unmarked hbefore hmore)⟩

theorem marks_flush {got : Bytes} (h : u.Receives callback got) (hreg : u.handler = .registered) :
    (∃ ms, (exec [.read_body_chunk_fn callback []] u.conn).marks = u.conn.marks ++ ms) ∧
      ((∀ n, (exec [.read_body_chunk_fn callback []] u.conn).marks[n]? = some true →
          n + 1 = (exec [.read_body_chunk_fn callback []] u.conn).marks.length) ↔
        (u.conn.parser_.state_ = .done → u.conn.tasks = [])) := by
  have hne : u.handler ≠ .before := fun heq => by cases heq.symm.trans hreg
  have hregistered := h.registered hne
  obtain ⟨-, -, k, hmarks⟩ := hregistered.flush
  rw [hmarks, hregistered.inBody.done_iff]
  refine ⟨⟨_, rfl⟩, ?_⟩
  by_cases hrest : u.rest = []
  · have hempty : true ∉ u.conn.marks ↔ u.conn.tasks = [] := by
      rw [← List.length_eq_zero_iff, ← length_marks, List.length_eq_zero_iff]
      refine ⟨fun hnot => ?_, fun hnil => hnil ▸ List.not_mem_nil⟩
      by_contra hsome
      exact hnot (h.marked hne hrest (.inr hsome))
    rw [if_pos hrest]
    constructor
    · exact fun hlast _ => hempty.1 (not_mem_of_last hlast)
    · exact fun htasks => last_concat (hempty.2 (htasks hrest))
  · rw [if_neg hrest]
    refine ⟨fun _ heq => absurd heq hrest, fun _ => last_of_not_mem ?_⟩
    rw [List.mem_append, not_or]
    exact ⟨h.unmarked hne hrest, by simp⟩

theorem Sound.thread {i : Nat} {called : Option (Option Nat)} {pool : ThreadPool (Option Nat)}
    (hs : u.Sound callback body) (hstep : u.pool.Advances i called pool) :
    Sound callback body { u with pool := pool, observed := u.observed ++ called.join.toList } ∧
      (u.InOrder callback body →
        (InOrder callback body
            { u with pool := pool, observed := u.observed ++ called.join.toList } ↔
          u.Ordered (.thread i))) := by
  obtain ⟨got, hreceives, hbody⟩ := hs.receives
  have hsame : Receives callback got
      { u with pool := pool, observed := u.observed ++ called.join.toList } :=
    ⟨hreceives.before, hreceives.registered, hreceives.unmarked, hreceives.marked,
      hreceives.flushed⟩
  refine ⟨⟨hs.accounts.thread hstep, got, hsame, hbody⟩, fun hin => ?_⟩
  rw [inOrder_iff hsame hbody, and_iff_left hin.last]
  have hheld := hstep.called_eq
  cases hcalled : called.join with
  | none =>
    rw [Option.toList_none, List.append_nil]
    refine ⟨fun _ n hn => ?_, fun _ => hin.order⟩
    rw [hheld, hn] at hcalled
    cases hcalled
  | some n =>
    have hn : u.pool.heldBy i = some (some n) := by
      rw [← hheld]
      exact Option.join_eq_some_iff.1 hcalled
    rw [Option.toList_some,
      hs.accounts.order_iff hin.order (ThreadPool.mem_inHand_of_heldBy hn)]
    constructor
    · intro hmin n' hn'
      rw [hn, Option.some_inj, Option.some_inj] at hn'
      exact hn' ▸ hmin
    · exact fun hmin => hmin n hn

theorem Sound.step (hs : u.Sound callback body) (h : u.step callback on_error a = some v) :
    v.Sound callback body ∧
      (u.InOrder callback body → (v.InOrder callback body ↔ u.Ordered a)) := by
  obtain ⟨got, hreceives, hbody⟩ := hs.receives
  cases a with
  | read data =>
    simp only [Upload.step] at h
    split at h
    · next hdata =>
      obtain ⟨rest, hrest⟩ := hdata.2
      have hdrop : u.rest.drop data.length = rest := by rw [← hrest, List.drop_left]
      have hbody' : got ++ data ++ rest = body := by rw [List.append_assoc, hrest, hbody]
      cases h
      rw [hdrop]
      obtain ⟨hms, hlast⟩ := marks_read hreceives hdata.1 hrest.symm
      obtain ⟨hsound, hiff⟩ := hs.section hms (hreceives.read hdata.1 hrest.symm) hbody'
      exact ⟨hsound, fun hin => ⟨fun _ => trivial, fun _ => (hiff hin).2 hlast⟩⟩
    · cases h
  | readRequestBody =>
    simp only [Upload.step] at h
    split at h
    · next hbefore =>
      cases h
      have hmarks := ((hreceives.before hbefore).register callback on_error).2
      have hnone : u.conn.marks = [] := by
        rw [marks, (hreceives.before hbefore).tasks_eq]
        rfl
      obtain ⟨hsound, hiff⟩ := hs.section ⟨[], by rw [hmarks, hnone]; rfl⟩
        (hreceives.register hbefore on_error) hbody
      refine ⟨hsound, fun hin => ⟨fun _ => trivial, fun _ => (hiff hin).2 ?_⟩⟩
      rw [hmarks]
      exact last_of_not_mem List.not_mem_nil
    · cases h
  | read_body_chunk_fn =>
    simp only [Upload.step] at h
    split at h
    · next hregistered =>
      cases h
      obtain ⟨hms, hlast⟩ := marks_flush hreceives hregistered
      obtain ⟨hsound, hiff⟩ := hs.section hms (hreceives.flush hregistered) hbody
      exact ⟨hsound, fun hin => (hiff hin).trans hlast⟩
    · cases h
  | other =>
    cases h
    refine ⟨⟨hs.accounts.other, got, ?_, hbody⟩, fun hin => ⟨fun _ => trivial, fun _ => ?_⟩⟩
    · exact ⟨hreceives.before, hreceives.registered, hreceives.unmarked, hreceives.marked,
        hreceives.flushed⟩
    · exact ⟨hin.order, hin.chunks, hin.last, hin.whole⟩
  | thread i =>
    simp only [Upload.step] at h
    split at h
    · cases h
    · next called pool hadvance =>
      cases h
      exact hs.thread (ThreadPool.advances_of_advance hadvance)

theorem sound_of_run {conn : HTTPServerConnection κ} {got rest : Bytes}
    {max_cached_threads : UInt64} {as : List UploadAction} (h : conn.Buffering got rest)
    (hrun : Runs.Run (step callback on_error) (start conn rest max_cached_threads) as u) :
    u.Sound callback (got ++ rest) :=
  hrun.invariant
    ⟨accounts_start conn rest max_cached_threads h.tasks_eq, got,
      receives_start max_cached_threads h, rfl⟩
    fun _ _ _ hs _ hstep => (hs.step hstep).1

/-- The callback sees the body in order all along a run if and only if no thread calls its task
while another one holds an earlier task, and the body does not end between the two sections of
`readRequestBody`. -/
theorem chunks_in_order_iff {conn : HTTPServerConnection κ} {got rest : Bytes}
    (h : conn.Buffering got rest) (max_cached_threads : UInt64) {as : List UploadAction}
    (hrun : Runs.Run (step callback on_error) (start conn rest max_cached_threads) as u) :
    (∀ as' v, as' <+: as →
        Runs.Run (step callback on_error) (start conn rest max_cached_threads) as' v →
        v.InOrder callback (got ++ rest)) ↔
      Runs.Reaches (step callback on_error) Ordered (start conn rest max_cached_threads) as u := by
  have hstart : (start conn rest max_cached_threads).InOrder callback (got ++ rest) := by
    have hbody : got ++ (start conn rest max_cached_threads).rest = got ++ rest := rfl
    rw [inOrder_iff (receives_start max_cached_threads h) hbody]
    refine ⟨rfl, last_of_not_mem ?_⟩
    have hnone : (start conn rest max_cached_threads).conn.marks = [] := by
      rw [marks, show (start conn rest max_cached_threads).conn.tasks = [] from h.tasks_eq]
      rfl
    rw [hnone]
    exact List.not_mem_nil
  exact hrun.throughout_iff hstart fun _ _ _ _ hbefore hin hstep =>
    ((sound_of_run h hbefore).step hstep).2 hin

/-- The upload of three bytes, to a pool that keeps one thread. -/
def sample : Upload Nat := start sampleConnection (lit "abc") 1

def sampleRun (as : List UploadAction) : Option (Upload Nat) :=
  as.foldlM (Runs.guarded (step 0 1) fun _ _ => True) sample

theorem chunks_in_order_sample :
    ∃ u, Runs.Run (step 0 1) sample
        [.readRequestBody, .read_body_chunk_fn, .read (lit "abc"), .thread 0, .thread 0] u ∧
      ((∀ as' v,
          as' <+: [.readRequestBody, .read_body_chunk_fn, .read (lit "abc"), .thread 0, .thread 0] →
          Runs.Run (step 0 1) sample as' v → v.InOrder 0 ([] ++ lit "abc")) ↔
        Runs.Reaches (step 0 1) Ordered sample
          [.readRequestBody, .read_body_chunk_fn, .read (lit "abc"), .thread 0, .thread 0] u) := by
  have hsample : (sampleRun [.readRequestBody, .read_body_chunk_fn, .read (lit "abc"), .thread 0,
      .thread 0]).map observed = some [0] := by decide +kernel
  obtain ⟨u, hrun, -⟩ := Runs.exists_of_foldlM observed hsample
  exact ⟨u, hrun, chunks_in_order_iff sampleConnection_buffering 1 hrun⟩

/-- Two threads take a task each, and the second one calls its task first. -/
theorem overtaken_not_in_order :
    ∃ u, Runs.Run (step 0 1) sample
        [.readRequestBody, .read_body_chunk_fn, .read (lit "a"), .read (lit "bc"), .thread 0,
          .thread 1, .thread 1, .thread 0] u ∧
      u.calls = [⟨0, lit "bc", true⟩, ⟨0, lit "a", false⟩] ∧ ¬u.InOrder 0 (lit "abc") := by
  have hsample : (sampleRun [.readRequestBody, .read_body_chunk_fn, .read (lit "a"),
      .read (lit "bc"), .thread 0, .thread 1, .thread 1, .thread 0]).map
        (fun u => (u.observed, u.calls)) =
      some ([1, 0], [⟨0, lit "bc", true⟩, ⟨0, lit "a", false⟩]) := by decide +kernel
  obtain ⟨u, hrun, hu⟩ := Runs.exists_of_foldlM (fun u : Upload Nat => (u.observed, u.calls)) hsample
  rw [Prod.mk.injEq] at hu
  refine ⟨u, hrun, hu.2, fun hin => ?_⟩
  have horder := hin.order
  rw [hu.1] at horder
  exact absurd horder (by decide)

end runs

end Upload
end Stx.Http.HTTPServerConnection
