import Stx.Http.HTTPServerConnection
import Stx.Http.HTTPParser.Completion
import Stx.Lib.Runs
import Mathlib.Data.List.Perm.Basic
import Mathlib.Algebra.BigOperators.Group.List.Basic

/-! `current_requests` of a server against the requests that its connections are about. -/
namespace Stx.Http.HTTPServerConnection
open Runs
variable {κ : Type}

/-- The requests that a section dispatches. -/
def dispatches (c : HTTPServerConnection κ) : Section κ → Nat
  | .read (.ok data) => (HTTPParser.parse data (clearCalls c.parser_)).2.completions
  | _ => 0

/-- A connection of a server; `outstanding` are its requests that were dispatched and not finished,
and `closing` the threads that are about to call `close()`. -/
structure Slot (κ : Type) where
  conn : HTTPServerConnection κ
  outstanding : Nat := 0
  closing : Nat := 0

/-- The requests on a connection that is open. -/
def Slot.live (slot : Slot κ) : Nat := if slot.conn.closed_ then 0 else slot.outstanding

/-- The connections share `stats_`: what one of them has of it is what it was in its last section. -/
structure Server (κ : Type) where
  stats_ : HTTPServerStats := {}
  slots : List (Slot κ) := []

inductive ServerAction (κ : Type) where
  | accept
  | run (i : Nat) (s : Section κ)
  | close (i : Nat)

namespace Server

def live (server : Server κ) : Nat := (server.slots.map Slot.live).sum

/-- Whether a section goes on to `close()`. -/
def closes : Result (Next κ) → Bool
  | .ok (.close _) => true
  | _ => false

/-- A section of the connection `i`, which then has these other members. -/
def runSection (server : Server κ) (i : Nat) (slot : Slot κ) (s : Section κ)
    (outstanding closing : Nat) : Server κ :=
  let conn := (s.run { slot.conn with stats_ := server.stats_ }).2
  { stats_ := conn.stats_, slots := server.slots.set i { conn, outstanding, closing } }

/-- Only error paths and `finishResponse` call `close()`. -/
def step (server : Server κ) : ServerAction κ → Option (Server κ)
  | .accept => some { server with slots := server.slots ++ [{ conn := start server.stats_ }] }
  | .run i s =>
    match server.slots[i]?, s with
    | none, _ => none
    | some _, .close => none
    | some slot, .finishResponse =>
      some (server.runSection i slot .finishResponse (slot.outstanding - 1) slot.closing)
    | some slot, s =>
      let next := (s.run { slot.conn with stats_ := server.stats_ }).1
      some (server.runSection i slot s (slot.outstanding + slot.conn.dispatches s)
        (slot.closing + (closes next).toNat))
  | .close i =>
    match server.slots[i]? with
    | none => none
    | some slot =>
      if 0 < slot.closing then
        some (server.runSection i slot .close slot.outstanding (slot.closing - 1))
      else none

/-- What the gauge is for. -/
structure Balanced (server : Server κ) : Prop where
  current_requests : server.stats_.current_requests.toNat = server.live
  idle : (∀ slot ∈ server.slots, slot.conn.closed_ = true) → server.stats_.current_requests = 0

/-- The steps that keep the gauge right: no connection is closed with a request outstanding but by the
end of its response, which comes once, and a closed connection reads no request any more. -/
def Settles (server : Server κ) : ServerAction κ → Prop
  | .accept => True
  | .run i .finishResponse =>
    ∀ slot, server.slots[i]? = some slot → slot.conn.closed_ = false ∧ slot.outstanding = 1
  | .run i s =>
    ∀ slot, server.slots[i]? = some slot → slot.conn.dispatches s ≠ 0 →
      slot.conn.closed_ = false ∧ server.live + 1 < 2^64
  | .close i =>
    ∀ slot, server.slots[i]? = some slot → slot.conn.closed_ = false → slot.outstanding = 0

end Server

/-- A section leaves the connection as open as it was, and counts what it dispatches. -/
structure Counts (n : Nat) (c d : HTTPServerConnection κ) : Prop where
  closed_eq : d.closed_ = c.closed_
  current_eq : d.stats_.current_requests = c.stats_.current_requests + n.toUInt64

namespace Counts

theorem same {c d : HTTPServerConnection κ} (hclosed : d.closed_ = c.closed_)
    (hcurrent : d.stats_.current_requests = c.stats_.current_requests) : Counts 0 c d :=
  ⟨hclosed, hcurrent.trans (UInt64.add_zero _).symm⟩

theorem refl (c : HTTPServerConnection κ) : Counts 0 c c := same rfl rfl

theorem add {n m : Nat} {c d e : HTTPServerConnection κ} (h : Counts n c d) (h' : Counts m d e) :
    Counts (n + m) c e where
  closed_eq := h'.closed_eq.trans h.closed_eq
  current_eq := by
    rw [h'.current_eq, h.current_eq, UInt64.add_assoc]
    congr 1
    exact (UInt64.ofNat_add n m).symm

theorem trans (c d e : HTTPServerConnection κ) (h : Counts 0 c d) (h' : Counts 0 d e) :
    Counts 0 c e := h.add h'

theorem modify {f : HTTPServerConnection κ → HTTPServerConnection κ}
    (h : ∀ c, (f c).closed_ = c.closed_ ∧
      (f c).stats_.current_requests = c.stats_.current_requests) :
    (Sys.modify f).Keeps (Counts 0) :=
  fun c => same (h c).1 (h c).2

theorem bind {α β : Type} {x : Sys (HTTPServerConnection κ) α}
    {f : α → Sys (HTTPServerConnection κ) β} (hx : x.Keeps (Counts 0))
    (hf : ∀ a, (f a).Keeps (Counts 0)) : (x >>= f).Keeps (Counts 0) := hx.bind trans hf

theorem reads {α : Type} (f : HTTPServerConnection κ → Result α) :
    (Sys.reads f).Keeps (Counts 0) := Sys.keeps_reads refl f

theorem pure {α : Type} (a : α) : (Pure.pure a : Sys (HTTPServerConnection κ) α).Keeps (Counts 0) :=
  Sys.keeps_pure refl a

theorem get : (Sys.get : Sys (HTTPServerConnection κ) _).Keeps (Counts 0) := refl

theorem awaitRead : (awaitRead : Sys (HTTPServerConnection κ) Unit).Keeps (Counts 0) :=
  bind (reads _) fun _ => modify fun _ => ⟨rfl, rfl⟩

theorem awaitWrite : (awaitWrite : Sys (HTTPServerConnection κ) Unit).Keeps (Counts 0) :=
  bind (reads _) fun _ => modify fun _ => ⟨rfl, rfl⟩

theorem writeMore : (writeMore : Sys (HTTPServerConnection κ) (Next κ)).Keeps (Counts 0) := by
  apply bind get
  intro c
  split
  · exact bind awaitWrite fun _ => pure _
  · exact bind (modify fun _ => ⟨rfl, rfl⟩) fun _ => pure _

theorem write (res : Result Nat) :
    (write res : Sys (HTTPServerConnection κ) (Next κ)).Keeps (Counts 0) := by
  apply keeps_tryCatch trans (reads _)
  · exact fun len => bind (modify fun _ => ⟨rfl, rfl⟩) fun _ => writeMore
  · intro e
    split
    · exact bind awaitWrite fun _ => pure _
    · exact reads _

theorem readRequestBody (callback on_error : κ) :
    (readRequestBody callback on_error).Keeps (Counts 0) :=
  bind (reads _) fun _ => modify fun _ => ⟨rfl, rfl⟩

theorem read_body_chunk_fn (callback : κ) (data : Bytes) (c : HTTPServerConnection κ) :
    Counts 0 c (read_body_chunk_fn callback data c) := by
  unfold HTTPServerConnection.read_body_chunk_fn
  dsimp only
  split
  · exact same rfl rfl
  · exact same rfl rfl

theorem setCallbacks (ready_callback on_error : κ) :
    (setCallbacks ready_callback on_error).Keeps (Counts 0) := modify fun _ => ⟨rfl, rfl⟩

theorem writeResponse (resp : HTTPResponse) (ready_callback on_error : κ) :
    (writeResponse resp ready_callback on_error).Keeps (Counts 0) := by
  apply bind (reads _)
  intro _
  apply bind
  · exact fun c => same rfl rfl
  · exact fun _ => bind (setCallbacks _ _) fun _ => awaitWrite

theorem writeResponseBody (data : Bytes) (ready_callback on_error : κ) :
    (writeResponseBody data ready_callback on_error).Keeps (Counts 0) := by
  apply bind (reads _)
  intro _
  apply bind
  · exact modify fun _ => ⟨rfl, rfl⟩
  · exact fun _ => bind (setCallbacks _ _) fun _ => awaitWrite

theorem onEvent (c : HTTPServerConnection κ) (event : Event) :
    Counts ([event].count .headersComplete) c (onEvent c event) := by
  cases event with
  | headersComplete => exact ⟨rfl, rfl⟩
  | bodyChunk data =>
    unfold HTTPServerConnection.onEvent
    cases c.on_body_chunk_cb_ with
    | none => exact same rfl rfl
    | some callback => exact read_body_chunk_fn callback data c
  | _ => exact same rfl rfl

theorem foldl_onEvent (events : List Event) (c : HTTPServerConnection κ) :
    Counts (events.count .headersComplete) c (events.foldl HTTPServerConnection.onEvent c) := by
  induction events generalizing c with
  | nil => exact refl c
  | cons event events ih =>
    rw [← List.singleton_append, List.count_append, List.foldl_append]
    exact (onEvent c event).add (ih _)

theorem readMore : (readMore : Sys (HTTPServerConnection κ) (Next κ)).Keeps (Counts 0) := by
  apply bind get
  intro c
  split
  · exact pure _
  · exact bind awaitRead fun _ => pure _

/-- What `read` does behind a `parse` that has dispatched what was complete. -/
theorem readData (data : Bytes) (c : HTTPServerConnection κ) :
    Counts (c.dispatches (.read (.ok data))) c (readData data c).2 := by
  cases data with
  | nil =>
    have heof : (eof : Sys (HTTPServerConnection κ) Unit).Keeps (Counts 0) := fun c => same rfl rfl
    exact keeps_tryCatch trans heof (fun _ => reads _) (fun _ => reads _) c
  | cons b data =>
    have hparser : Counts 0 c
        { c with parser_ := (HTTPParser.parse (b :: data) (clearCalls c.parser_)).2 } := same rfl rfl
    have hparse : Counts (c.dispatches (.read (.ok (b :: data)))) c (parse (b :: data) c).2 := by
      have hadd := hparser.add
        (foldl_onEvent (HTTPParser.parse (b :: data) (clearCalls c.parser_)).2.calls _)
      rwa [Nat.zero_add] at hadd
    have hdata : HTTPServerConnection.readData (b :: data) c = tryCatch (parse (b :: data))
      (fun _ => HTTPServerConnection.readMore) (fun _ => giveUp) c := rfl
    rw [hdata, tryCatch]
    cases hrun : parse (b :: data) c with
    | mk r d =>
      rw [hrun] at hparse
      cases r with
      | ok a => exact hparse.add (readMore d)
      | raise e => exact hparse.add (refl d)
      | diverge => exact hparse

theorem read (res : Result Bytes) (c : HTTPServerConnection κ) :
    Counts (c.dispatches (.read res)) c (HTTPServerConnection.read res c).2 := by
  cases res with
  | ok data =>
    have hreceived : Counts 0 c (countReceived data.length c) := same rfl rfl
    have hcount := hreceived.add (readData data (countReceived data.length c))
    rwa [Nat.zero_add] at hcount
  | raise e =>
    have hrun : HTTPServerConnection.read (.raise e) c =
        (if e.type = .wouldBlockError then do
          HTTPServerConnection.awaitRead
          return .nothing
        else giveUp : Sys (HTTPServerConnection κ) (Next κ)) c := rfl
    rw [hrun]
    split
    · exact bind awaitRead (fun _ => pure _) c
    · exact refl c
  | diverge => exact refl c

end Counts

/-- The sections that neither finish a response nor close. -/
theorem counts_run {s : Section κ} (hfinish : s ≠ .finishResponse) (hclose : s ≠ .close)
    (c : HTTPServerConnection κ) : Counts (c.dispatches s) c (s.run c).2 := by
  cases s with
  | read res => exact Counts.read res c
  | write res => exact Counts.write res c
  | readRequestBody callback on_error =>
    exact Counts.bind (Counts.readRequestBody callback on_error) (fun _ => Counts.pure _) c
  | read_body_chunk_fn callback data => exact Counts.read_body_chunk_fn callback data c
  | writeResponse resp ready_callback on_error =>
    exact Counts.bind (Counts.writeResponse resp ready_callback on_error) (fun _ => Counts.pure _) c
  | writeResponseBody data ready_callback on_error =>
    exact Counts.bind (Counts.writeResponseBody data ready_callback on_error)
      (fun _ => Counts.pure _) c
  | finishResponse => exact absurd rfl hfinish
  | close => exact absurd rfl hclose

theorem dispatches_le (c : HTTPServerConnection κ) (s : Section κ) : c.dispatches s ≤ 1 := by
  unfold dispatches
  split
  · exact HTTPParser.parse_completions_le _ _
  · exact Nat.zero_le 1

theorem close_of_open {c : HTTPServerConnection κ} (h : c.closed_ = false) :
    (Section.run .close c).2 =
      { c with closed_ := true, scheduler_ := c.scheduler_ ++ [.cancelFD] } := by
  have hclose : close c =
      (.ok (), { c with closed_ := true, scheduler_ := c.scheduler_ ++ [.cancelFD] }) :=
    Sys.bind_of_ok (checkOpen_of_open h _)
  exact congrArg Prod.snd (Sys.bind_of_ok hclose)

theorem close_of_closed {c : HTTPServerConnection κ} (h : c.closed_ = true) :
    (Section.run .close c).2 = c := by
  have hclose : close c = (.raise ⟨.illegalStateError, lit "HTTP connection is already closed"⟩, c) :=
    Sys.bind_of_raise (checkOpen_of_closed h _)
  exact congrArg Prod.snd (Sys.bind_of_raise hclose)

/-- The end of a response is counted before the connection is closed. -/
theorem finishResponse_run (c : HTTPServerConnection κ) :
    (Section.run .finishResponse c).2 =
      (Section.run .close
        { c with
          stats_ := { c.stats_ with
            current_requests := c.stats_.current_requests - 1 } }).2 :=
  (Sys.bind_pure_snd finishResponse _ _).trans (Sys.bind_pure_snd close _ _).symm

namespace Server
variable {server next : Server κ} {slot : Slot κ} {i : Nat} {s : Section κ} {a : ServerAction κ}

theorem live_eq (h : server.slots[i]? = some slot) :
    server.live = slot.live + ((server.slots.eraseIdx i).map Slot.live).sum := by
  obtain ⟨hi, rfl⟩ := List.getElem?_eq_some_iff.1 h
  have hperm := ((List.getElem_cons_eraseIdx_perm hi).map Slot.live).sum_eq
  rw [List.map_cons, List.sum_cons] at hperm
  exact hperm.symm

theorem live_set {slot' : Slot κ} {stats : HTTPServerStats} (h : server.slots[i]? = some slot) :
    live { stats_ := stats, slots := server.slots.set i slot' } + slot.live =
      server.live + slot'.live := by
  have hset : (server.slots.set i slot')[i]? = some slot' :=
    List.getElem?_set_self (List.getElem?_eq_some_iff.1 h).1
  have hafter : live { stats_ := stats, slots := server.slots.set i slot' } = _ := live_eq hset
  rw [List.eraseIdx_set_eq] at hafter
  have hbefore := live_eq h
  omega

theorem live_le (h : server.slots[i]? = some slot) : slot.live ≤ server.live := by
  rw [live_eq h]
  exact Nat.le_add_right _ _

theorem balanced_iff : server.Balanced ↔ server.stats_.current_requests.toNat = server.live := by
  refine ⟨fun h => h.current_requests, fun h => ⟨h, fun hclosed => ?_⟩⟩
  have hzero : server.live = 0 := by
    refine List.sum_eq_zero fun n hn => ?_
    obtain ⟨slot, hslot, rfl⟩ := List.mem_map.1 hn
    rw [Slot.live, if_pos (hclosed slot hslot)]
  exact UInt64.toNat_inj.1 (h.trans hzero)

/-- A section changes the gauge and what one connection has to do with it. -/
theorem balanced_runSection_iff (hslot : server.slots[i]? = some slot) (outstanding closing : Nat)
    {d : HTTPServerConnection κ} (hd : (s.run { slot.conn with stats_ := server.stats_ }).2 = d) :
    (server.runSection i slot s outstanding closing).Balanced ↔
      d.stats_.current_requests.toNat + slot.live =
        server.live + if d.closed_ then 0 else outstanding := by
  have hset : (server.runSection i slot s outstanding closing).live + slot.live =
      server.live + if d.closed_ then 0 else outstanding := by
    rw [runSection, hd]
    exact live_set hslot
  have hstats : (server.runSection i slot s outstanding closing).stats_ = d.stats_ := by
    rw [runSection, hd]
  rw [balanced_iff, hstats]
  omega

section sections
variable (hlive : server.stats_.current_requests.toNat = server.live)
  (hslot : server.slots[i]? = some slot)
include hlive hslot

theorem balanced_close_iff (closing : Nat) :
    (server.runSection i slot .close slot.outstanding closing).Balanced ↔
      (slot.conn.closed_ = false → slot.outstanding = 0) := by
  cases hclosed : slot.conn.closed_ with
  | true =>
    rw [balanced_runSection_iff hslot _ _ (close_of_closed hclosed)]
    simp [hlive, hclosed, Slot.live]
  | false =>
    rw [balanced_runSection_iff hslot _ _ (close_of_open hclosed)]
    simp [hlive, hclosed, Slot.live]

theorem balanced_finishResponse_iff (closing : Nat) :
    (server.runSection i slot .finishResponse (slot.outstanding - 1) closing).Balanced ↔
      slot.conn.closed_ = false ∧ slot.outstanding = 1 := by
  have hlt := server.stats_.current_requests.toNat_lt
  have hsub : (server.stats_.current_requests - 1).toNat =
      (2^64 - 1 + server.stats_.current_requests.toNat) % 2^64 := UInt64.toNat_sub _ _
  cases hclosed : slot.conn.closed_ with
  | true =>
    rw [balanced_runSection_iff hslot _ _ ((finishResponse_run _).trans (close_of_closed hclosed))]
    simp only [hclosed, Slot.live, if_true, hsub]
    refine iff_of_false ?_ fun h => absurd h.1 (by simp)
    omega
  | false =>
    have hle := live_le hslot
    rw [balanced_runSection_iff hslot _ _ ((finishResponse_run _).trans (close_of_open hclosed))]
    simp only [hclosed, Slot.live, if_true, if_false, hsub, Bool.false_eq_true] at hle ⊢
    rw [true_and]
    omega

theorem balanced_run_iff (hfinish : s ≠ .finishResponse) (hclose : s ≠ .close) (closing : Nat) :
    (server.runSection i slot s (slot.outstanding + slot.conn.dispatches s) closing).Balanced ↔
      (slot.conn.dispatches s ≠ 0 → slot.conn.closed_ = false ∧ server.live + 1 < 2^64) := by
  have hcounts := counts_run hfinish hclose { slot.conn with stats_ := server.stats_ }
  have hsame : dispatches { slot.conn with stats_ := server.stats_ } s = slot.conn.dispatches s :=
    rfl
  have hle := dispatches_le slot.conn s
  have hlt := server.stats_.current_requests.toNat_lt
  rw [balanced_runSection_iff hslot _ _ rfl, hcounts.closed_eq, hcounts.current_eq, hsame]
  rw [UInt64.toNat_add, hlive]
  generalize slot.conn.dispatches s = n at hle ⊢
  have hn : n.toUInt64.toNat = n := Nat.mod_eq_of_lt (by omega)
  rw [hlive] at hlt
  cases hclosed : slot.conn.closed_ with
  | true =>
    simp only [hclosed, Slot.live, if_true, hn, Bool.true_eq_false, false_and,
      imp_false, ne_eq, not_not]
    omega
  | false =>
    simp only [hclosed, Slot.live, if_false, hn, Bool.false_eq_true, true_and]
    by_cases hzero : n = 0
    · simp only [hzero, ne_eq, not_true, false_imp_iff, iff_true]
      omega
    · simp only [hzero, ne_eq, not_false_iff, true_imp_iff]
      omega

end sections

theorem settles_run (hfinish : s ≠ .finishResponse) :
    server.Settles (.run i s) ↔
      ∀ slot, server.slots[i]? = some slot → slot.conn.dispatches s ≠ 0 →
        slot.conn.closed_ = false ∧ server.live + 1 < 2^64 := by
  cases s with
  | finishResponse => exact absurd rfl hfinish
  | read | write | readRequestBody | read_body_chunk_fn | writeResponse | writeResponseBody | close =>
    exact Iff.rfl

theorem forall_slot {P : Slot κ → Prop} (hslot : server.slots[i]? = some slot) :
    (∀ slot', server.slots[i]? = some slot' → P slot') ↔ P slot :=
  ⟨fun h => h slot hslot, fun h _ heq => Option.some.inj (hslot.symm.trans heq) ▸ h⟩

theorem step_run (hslot : server.slots[i]? = some slot) (hfinish : s ≠ .finishResponse)
    (hclose : s ≠ .close) :
    server.step (.run i s) =
      some (server.runSection i slot s (slot.outstanding + slot.conn.dispatches s)
        (slot.closing + (closes (s.run { slot.conn with stats_ := server.stats_ }).1).toNat)) := by
  simp only [step, hslot]

theorem balanced_step_iff (hs : server.Balanced) (h : server.step a = some next) :
    next.Balanced ↔ server.Settles a := by
  have hlive := hs.current_requests
  cases a with
  | accept =>
    cases h
    refine iff_of_true (balanced_iff.2 ?_) trivial
    have hnew : Slot.live { conn := (start server.stats_ : HTTPServerConnection κ) } = 0 := ite_self 0
    rw [hlive, live, live, List.map_append, List.sum_append, List.map_singleton, hnew,
      List.sum_singleton, Nat.add_zero]
  | run i s =>
    cases hslot : server.slots[i]? with
    | none =>
      simp only [step, hslot] at h
      cases h
    | some slot =>
      by_cases hclose : s = .close
      · simp only [hclose, step, hslot] at h
        cases h
      · by_cases hfinish : s = .finishResponse
        · subst hfinish
          simp only [step, hslot, Option.some.injEq] at h
          rw [← h, balanced_finishResponse_iff hlive hslot]
          exact (forall_slot (P := fun slot => slot.conn.closed_ = false ∧ slot.outstanding = 1)
            hslot).symm
        · rw [step_run hslot hfinish hclose, Option.some.injEq] at h
          rw [← h, balanced_run_iff hlive hslot hfinish hclose, settles_run hfinish]
          exact (forall_slot (P := fun slot => slot.conn.dispatches s ≠ 0 →
            slot.conn.closed_ = false ∧ server.live + 1 < 2^64) hslot).symm
  | close i =>
    simp only [step] at h
    split at h
    · cases h
    · next slot hslot =>
      split at h
      · cases h
        rw [balanced_close_iff hlive hslot]
        exact (forall_slot (P := fun slot => slot.conn.closed_ = false → slot.outstanding = 0)
          hslot).symm
      · cases h

/-- The gauge is right all along a run of the connections if and only if every step of it keeps it
right. -/
theorem gauges_balance_iff {as : List (ServerAction κ)} (h : Run step {} as server) :
    (∀ as' server', as' <+: as → Run step ({} : Server κ) as' server' → server'.Balanced) ↔
      Reaches step Settles {} as server :=
  h.throughout_iff (balanced_iff.2 rfl) fun _ _ _ _ _ hs hstep => balanced_step_iff hs hstep

/-- A client that sends a request with a body and hangs up before the body. -/
def hangsUp : List (ServerAction Nat) :=
  [.accept, .run 0 (.read (.ok (lit "POST / HTTP/1.1\r\nContent-Length: 3\r\n\r\n"))),
    .run 0 (.read (.ok [])), .close 0]

theorem gauges_balance_hangsUp :
    ∃ server, Run step {} hangsUp server ∧
      ((∀ as' server', as' <+: hangsUp → Run step ({} : Server Nat) as' server' →
          server'.Balanced) ↔
        Reaches step Settles {} hangsUp server) := by
  have hrun : (hangsUp.foldlM (guarded step fun _ _ => True) {}).map (fun _ => ()) = some () := by
    decide +kernel
  obtain ⟨server, hserver, -⟩ := exists_of_foldlM (fun _ => ()) hrun
  exact ⟨server, hserver, gauges_balance_iff hserver⟩

/-- The request is counted for ever. -/
theorem hangsUp_not_balanced :
    ∃ server, Run step {} hangsUp server ∧ (∀ slot ∈ server.slots, slot.conn.closed_ = true) ∧
      server.stats_.current_requests = 1 ∧ ¬server.Balanced := by
  have hrun : (hangsUp.foldlM (guarded step fun _ _ => True) {}).map
      (fun server => (server.slots.map fun slot => slot.conn.closed_,
        server.stats_.current_requests)) = some ([true], 1) := by decide +kernel
  obtain ⟨server, hserver, hend⟩ := exists_of_foldlM _ hrun
  obtain ⟨hclosed, hcurrent⟩ := Prod.mk.inj hend
  have hall : ∀ slot ∈ server.slots, slot.conn.closed_ = true := by
    intro slot hslot
    have hmem := List.mem_map_of_mem (f := fun slot => slot.conn.closed_) hslot
    rw [hclosed] at hmem
    exact List.mem_singleton.1 hmem
  refine ⟨server, hserver, hall, hcurrent, fun hbalanced => ?_⟩
  exact absurd (hcurrent.symm.trans (hbalanced.idle hall)) (by decide)

end Server
end Stx.Http.HTTPServerConnection
