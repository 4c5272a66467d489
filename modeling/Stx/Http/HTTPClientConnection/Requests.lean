import Stx.Http.HTTPClientConnection.Exchange
import Stx.Lib.Places
import Stx.Lib.Runs

/-! The requests of a pool, and its connections, over all runs of the event loop. -/
namespace Stx.Http.HTTPConnectionPool
open HTTPClientConnection

variable {α : Type}

/-- Where the requests are: at a connection that is not established yet, on one that is, or
answered. -/
def whereabouts (pool : HTTPConnectionPool α) : List Nat :=
  pool.connecting.map Connecting.handler ++
    (pool.connections.flatMap underway ++ answers pool.shared.calls)

structure Inv (pool : HTTPConnectionPool α) : Prop where
  cache : pool.shared.connection_cache_ = []
  safe : pool.shared.misused = false
  whereabouts : pool.whereabouts.Perm (List.range pool.requests.length)
  stage : ∀ i conn, pool.connections[i]? = some conn → Stage pool.requests pool.shared i conn
  connecting : ∀ r ∈ pool.connecting,
    pool.requests[r.handler]? = some r.request ∧ callsOf pool.shared.calls r.handler = []
  handlers : (pool.connections.flatMap fun conn => conn.cur_handler_.toList).Nodup
  orderly : Orderly pool.shared.calls
  known : ∀ call ∈ pool.shared.calls, call.1 < pool.requests.length
  completing : ∀ h, (h, .responseComplete) ∈ pool.shared.calls →
    ∃ conn ∈ pool.connections, conn.cur_handler_ = some h ∧ conn.state_ = .closed
  current_requests : pool.shared.stats_.current_requests =
    UInt64.ofNat (pool.connections.flatMap underway).length
  current_connections : pool.shared.stats_.current_connections =
    UInt64.ofNat (pool.connections.countP live)

variable {pool pool' : HTTPConnectionPool α} {i j h : Nat} {addr : α} {request : HTTPRequest}
  {conn conn' : HTTPClientConnection α}

namespace Inv

theorem nodup (hinv : pool.Inv) : pool.whereabouts.Nodup :=
  hinv.whereabouts.nodup_iff.2 List.nodup_range

theorem lt_of_mem (hinv : pool.Inv) (hh : h ∈ pool.whereabouts) : h < pool.requests.length :=
  List.mem_range.1 (hinv.whereabouts.mem_iff.1 hh)

/-- A handler of a connection: its request is under way there, or answered. -/
theorem handler_cases (hinv : pool.Inv) (hget : pool.connections[i]? = some conn)
    (hh : conn.cur_handler_ = some h) : h ∈ conn.underway ∨ h ∈ answers pool.shared.calls := by
  cases hinv.stage i conn hget with
  | unused _ hnone =>
    rw [hnone] at hh
    cases hh
  | sending _ hbusy =>
    obtain rfl := Option.some.inj (hbusy.handler.symm.trans hh)
    exact .inl (by simp [underway_busy hbusy])
  | receiving _ hbusy =>
    obtain rfl := Option.some.inj (hbusy.handler.symm.trans hh)
    exact .inl (by simp [underway_busy hbusy])
  | completed _ _ hhandler _ _ _ hcalls =>
    obtain rfl := Option.some.inj (hhandler.symm.trans hh)
    exact .inr (mem_answers.2 ⟨.responseComplete, by simp [hcalls], rfl⟩)

theorem not_connecting (hinv : pool.Inv) {r : Connecting α} (hr : r ∈ pool.connecting) :
    r.handler ∉ pool.connections.flatMap underway ++ answers pool.shared.calls :=
  (List.nodup_append.1 hinv.nodup).2.2 _ (List.mem_map_of_mem hr) |> fun hne hmem => hne _ hmem rfl

/-- The handler of a connection does not wait for one any more. -/
theorem handler_ne_connecting (hinv : pool.Inv) {r : Connecting α} (hr : r ∈ pool.connecting)
    (hget : pool.connections[i]? = some conn) : conn.cur_handler_ ≠ some r.handler := by
  intro hh
  apply hinv.not_connecting hr
  cases hinv.handler_cases hget hh with
  | inl hmem =>
    exact List.mem_append_left _ (List.mem_flatMap.2 ⟨conn, List.mem_of_getElem? hget, hmem⟩)
  | inr hmem => exact List.mem_append_right _ hmem

/-- The request of a busy connection is nowhere else. -/
theorem handler_ne (hinv : pool.Inv) (hget : pool.connections[i]? = some conn)
    (hbusy : Busy conn i h) (hget' : pool.connections[j]? = some conn') (hne : j ≠ i) :
    conn'.cur_handler_ ≠ some h := by
  intro hh
  have hnodup := (List.nodup_append.1 hinv.nodup).2.1
  have hunderway : h ∈ conn.underway := by simp [underway_busy hbusy]
  cases hinv.handler_cases hget' hh with
  | inl hmem =>
    have hperm := Places.flatMap_eraseIdx_perm underway hget
    have hdisjoint := List.nodup_append.1 (hperm.nodup_iff.2 (List.nodup_append.1 hnodup).1)
    have hmem' : conn' ∈ pool.connections.eraseIdx i :=
      List.mem_eraseIdx_iff_getElem?.2 ⟨j, hne, hget'⟩
    exact hdisjoint.2.2 h hunderway h (List.mem_flatMap.2 ⟨conn', hmem', hmem⟩) rfl
  | inr hmem =>
    have hat : h ∈ pool.connections.flatMap underway :=
      List.mem_flatMap.2 ⟨conn, List.mem_of_getElem? hget, hunderway⟩
    exact (List.nodup_append.1 hnodup).2.2 h hat h hmem rfl

end Inv

theorem inv_start : Inv ({} : HTTPConnectionPool α) where
  cache := rfl
  safe := rfl
  whereabouts := List.Perm.refl _
  stage i conn hget := by simp at hget
  connecting r hr := by simp at hr
  handlers := List.Pairwise.nil
  orderly := List.Pairwise.nil
  known call hcall := by simp at hcall
  completing h hor := by simp at hor
  current_requests := rfl
  current_connections := rfl

/- A call of a connection that executes a request. -/

section turned
variable {waiting : HTTPClientConnection α} {c : Client α} {told : List HandlerCall}

/-- The pool behind the call. -/
def turned (pool : HTTPConnectionPool α) (i : Nat) (c : Client α) : HTTPConnectionPool α :=
  { pool with connections := pool.connections.set i c.conn, shared := c.shared }

theorem Inv.underway_mem (hget : pool.connections[i]? = some conn) (hbusy : Busy conn i h) :
    h ∈ pool.connections.flatMap underway :=
  List.mem_flatMap.2 ⟨conn, List.mem_of_getElem? hget, by simp [underway_busy hbusy]⟩

theorem whereabouts_turned (hget : pool.connections[i]? = some conn) (hbusy : Busy conn i h)
    (hturn : Turn pool.requests i h ⟨waiting, pool.shared⟩ c told) :
    (pool.turned i c).whereabouts.Perm pool.whereabouts := by
  have hset := Places.flatMap_set_perm underway hget c.conn
  rw [underway_busy hbusy] at hset
  refine List.perm_iff_count.2 fun a => ?_
  have hcount := hset.count_eq a
  have htold := hturn.whereabouts.count_eq a
  simp only [turned, whereabouts, hturn.calls, answers_append, List.count_append]
    at hcount htold ⊢
  omega

/-- The other connections, and the requests that wait for one, do not see the call. -/
theorem callsOf_turned (hturn : Turn pool.requests i h ⟨waiting, pool.shared⟩ c told)
    {h' : Nat} (hne : h ≠ h') :
    callsOf c.shared.calls h' = callsOf pool.shared.calls h' := by
  rw [hturn.calls, callsOf_append, callsOf_map_of_ne hne, List.append_nil]

theorem stage_turned (hinv : pool.Inv) (hget : pool.connections[i]? = some conn)
    (hbusy : Busy conn i h) (hturn : Turn pool.requests i h ⟨waiting, pool.shared⟩ c told)
    (hj : (pool.turned i c).connections[j]? = some conn') :
    Stage (pool.turned i c).requests (pool.turned i c).shared j conn' := by
  have hj' : (pool.connections.set i c.conn)[j]? = some conn' := hj
  by_cases hji : j = i
  · subst hji
    rw [List.getElem?_set_self (List.getElem?_eq_some_iff.1 hget).1] at hj'
    cases hj'
    exact hturn.stage
  · rw [List.getElem?_set_ne (Ne.symm hji)] at hj'
    have hne := hinv.handler_ne hget hbusy hj' hji
    refine (hinv.stage j conn' hj').frame (List.prefix_refl _) fun h' hh' => ?_
    exact callsOf_turned hturn fun heq => hne (heq ▸ hh')

theorem completing_turned (hinv : pool.Inv) (hget : pool.connections[i]? = some conn)
    (hbusy : Busy conn i h) (hturn : Turn pool.requests i h ⟨waiting, pool.shared⟩ c told)
    {h' : Nat} (hcall : (h', .responseComplete) ∈ c.shared.calls) :
    ∃ conn ∈ (pool.turned i c).connections,
      conn.cur_handler_ = some h' ∧ conn.state_ = .closed := by
  rw [hturn.calls] at hcall
  obtain hold | hnow := List.mem_append.1 hcall
  · obtain ⟨conn', hmem, hhandler, hclosed⟩ := hinv.completing h' hold
    obtain ⟨j, hj⟩ := List.getElem?_of_mem hmem
    have hji : i ≠ j := by
      rintro rfl
      obtain rfl := Option.some.inj (hget.symm.trans hj)
      simp [hbusy.state] at hclosed
    exact ⟨conn', List.mem_of_getElem? ((List.getElem?_set_ne hji).trans hj), hhandler, hclosed⟩
  · obtain ⟨call, hmem, heq⟩ := List.mem_map.1 hnow
    cases heq
    exact ⟨c.conn, List.mem_set (List.getElem?_eq_some_iff.1 hget).1 _, hturn.handler,
      hturn.completing hmem⟩

theorem current_requests_turned (hinv : pool.Inv) (hget : pool.connections[i]? = some conn)
    (hbusy : Busy conn i h) (hturn : Turn pool.requests i h ⟨waiting, pool.shared⟩ c told) :
    c.shared.stats_.current_requests =
      UInt64.ofNat ((pool.turned i c).connections.flatMap underway).length := by
  have hlength := (Places.flatMap_set_perm underway hget c.conn).length_eq
  simp only [underway_busy hbusy, List.length_append, List.length_singleton] at hlength
  have hcount : UInt64.ofNat (pool.connections.flatMap underway).length +
      UInt64.ofNat c.conn.underway.length =
      UInt64.ofNat ((pool.connections.set i c.conn).flatMap underway).length + 1 := by
    rw [← UInt64.ofNat_add, Nat.add_comm, ← hlength, Nat.add_comm, UInt64.ofNat_add]
    rfl
  have hstats := hturn.current_requests
  rw [hinv.current_requests, hcount] at hstats
  exact add_right_cancel hstats

theorem current_connections_turned (hinv : pool.Inv) (hget : pool.connections[i]? = some conn)
    (hbusy : Busy conn i h) (hturn : Turn pool.requests i h ⟨waiting, pool.shared⟩ c told) :
    c.shared.stats_.current_connections =
      UInt64.ofNat ((pool.turned i c).connections.countP live) := by
  have hcountP := Places.countP_set_add live hget c.conn
  rw [live_busy hbusy, Bool.toNat_true] at hcountP
  have hcount : UInt64.ofNat (pool.connections.countP live) + UInt64.ofNat c.conn.live.toNat =
      UInt64.ofNat ((pool.connections.set i c.conn).countP live) + 1 := by
    rw [← UInt64.ofNat_add, ← hcountP, UInt64.ofNat_add]
    rfl
  have hstats := hturn.current_connections
  rw [hinv.current_connections, hcount] at hstats
  exact add_right_cancel hstats

theorem inv_turned (hinv : pool.Inv) (hget : pool.connections[i]? = some conn)
    (hbusy : Busy conn i h) (hturn : Turn pool.requests i h ⟨waiting, pool.shared⟩ c told) :
    (pool.turned i c).Inv where
  cache := hturn.cache.trans hinv.cache
  safe := hturn.safe.trans hinv.safe
  whereabouts := (whereabouts_turned hget hbusy hturn).trans hinv.whereabouts
  stage _ _ hj := stage_turned hinv hget hbusy hturn hj
  connecting r hr := by
    have hne : h ≠ r.handler := by
      rintro rfl
      exact hinv.handler_ne_connecting hr hget hbusy.handler
    exact ⟨(hinv.connecting r hr).1, (callsOf_turned hturn hne).trans (hinv.connecting r hr).2⟩
  handlers := by
    have hperm := Places.flatMap_set_perm (fun conn => conn.cur_handler_.toList) hget c.conn
    simp only [hbusy.handler, hturn.handler] at hperm
    exact ((List.perm_append_left_iff _).1 hperm).nodup_iff.2 hinv.handlers
  orderly := by
    have hnew : h ∉ answers pool.shared.calls := by
      have hnodup := List.nodup_append.1 (List.nodup_append.1 hinv.nodup).2.1
      exact fun hmem => hnodup.2.2 h (Inv.underway_mem hget hbusy) h hmem rfl
    have hcalls : (pool.turned i c).shared.calls = pool.shared.calls ++ told.map (h, ·) :=
      hturn.calls
    rw [hcalls]
    exact hinv.orderly.append hnew hturn.orderly
  known call hcall := by
    have hlt : h < pool.requests.length :=
      hinv.lt_of_mem (by simp [whereabouts, Inv.underway_mem hget hbusy])
    have hcall' : call ∈ c.shared.calls := hcall
    rw [hturn.calls] at hcall'
    obtain hold | hnow := List.mem_append.1 hcall'
    · exact hinv.known call hold
    · obtain ⟨_, -, rfl⟩ := List.mem_map.1 hnow
      exact hlt
  completing _ hcall := completing_turned hinv hget hbusy hturn hcall
  current_requests := current_requests_turned hinv hget hbusy hturn
  current_connections := current_connections_turned hinv hget hbusy hturn

end turned

theorem inv_requested (hinv : pool.Inv) (request : HTTPRequest) (addr : α) :
    Inv { pool with
      requests := pool.requests ++ [request]
      connecting := pool.connecting ++ [⟨pool.requests.length, addr, request⟩] } where
  cache := hinv.cache
  safe := hinv.safe
  whereabouts := by
    rw [List.length_append, List.length_singleton, List.range_succ]
    refine List.Perm.trans (List.perm_iff_count.2 fun a => ?_)
      (hinv.whereabouts.append_right [pool.requests.length])
    simp only [whereabouts, List.map_append, List.map_cons, List.map_nil, List.count_append]
    omega
  stage i conn hget := (hinv.stage i conn hget).frame (List.prefix_append _ _) fun _ _ => rfl
  connecting := by
    intro r hr
    obtain hr | hr := List.mem_append.1 hr
    · obtain ⟨hrequest, hcalls⟩ := hinv.connecting r hr
      exact ⟨List.getElem?_append_left (List.getElem?_eq_some_iff.1 hrequest).1 |>.trans hrequest,
        hcalls⟩
    · obtain rfl := List.mem_singleton.1 hr
      exact ⟨List.getElem?_concat_length, callsOf_eq_nil hinv.known⟩
  handlers := hinv.handlers
  orderly := hinv.orderly
  known call hcall := by
    rw [List.length_append, List.length_singleton]
    exact Nat.lt_succ_of_lt (hinv.known call hcall)
  completing := hinv.completing
  current_requests := hinv.current_requests
  current_connections := hinv.current_connections

/-- What comes of a request whose connection is established or not: a connection that is fresh, and
calls of the handler. -/
structure Opened (pool : HTTPConnectionPool α) (h : Nat) (stats : HTTPClientStats)
    (fresh : List (HTTPClientConnection α)) (told : List HandlerCall) : Prop where
  whereabouts : (fresh.flatMap underway ++ answers (told.map (h, ·))).Perm [h]
  stage : ∀ shared : Shared α, callsOf shared.calls h = told → ∀ i conn, fresh[i]? = some conn →
    Stage pool.requests shared (pool.connections.length+i) conn
  handlers : (fresh.flatMap fun conn => conn.cur_handler_.toList).Sublist [h]
  orderly : told.Pairwise fun call _ => call.isFinal = false
  incomplete : .responseComplete ∉ told
  current_requests : stats.current_requests =
    pool.shared.stats_.current_requests+UInt64.ofNat (fresh.flatMap underway).length
  current_connections : stats.current_connections =
    pool.shared.stats_.current_connections+UInt64.ofNat (fresh.countP live)

section opened
variable {k : Nat} {r : Connecting α} {stats : HTTPClientStats}
  {fresh : List (HTTPClientConnection α)} {told : List HandlerCall}

/-- The pool with what came of its request number `k`. -/
def opened (pool : HTTPConnectionPool α) (k : Nat) (r : Connecting α) (stats : HTTPClientStats)
    (fresh : List (HTTPClientConnection α)) (told : List HandlerCall) : HTTPConnectionPool α :=
  { pool with
    connecting := pool.connecting.eraseIdx k
    connections := pool.connections ++ fresh
    shared :=
      { pool.shared with
        stats_ := stats, calls := pool.shared.calls ++ told.map (r.handler, ·) } }

theorem handlers_opened (hget : pool.connecting[k]? = some r) :
    (r.handler :: (pool.connecting.eraseIdx k).map Connecting.handler).Perm
      (pool.connecting.map Connecting.handler) := by
  obtain ⟨hk, rfl⟩ := List.getElem?_eq_some_iff.1 hget
  exact (List.getElem_cons_eraseIdx_perm hk).map Connecting.handler

theorem whereabouts_opened (hget : pool.connecting[k]? = some r)
    (hopened : Opened pool r.handler stats fresh told) :
    (pool.opened k r stats fresh told).whereabouts.Perm pool.whereabouts := by
  refine List.perm_iff_count.2 fun a => ?_
  have hcount := (handlers_opened hget).count_eq a
  have htold := hopened.whereabouts.count_eq a
  have hcons : List.count a (r.handler :: (pool.connecting.eraseIdx k).map Connecting.handler) =
      List.count a [r.handler] +
        List.count a ((pool.connecting.eraseIdx k).map Connecting.handler) := by
    rw [← List.singleton_append, List.count_append]
  rw [List.count_append] at htold
  simp only [opened, whereabouts, List.flatMap_append, answers_append, List.count_append]
  omega

theorem callsOf_opened {h' : Nat} (hne : r.handler ≠ h') :
    callsOf (pool.opened k r stats fresh told).shared.calls h' = callsOf pool.shared.calls h' := by
  rw [opened, callsOf_append, callsOf_map_of_ne hne, List.append_nil]

theorem stage_opened (hinv : pool.Inv) (hget : pool.connecting[k]? = some r)
    (hopened : Opened pool r.handler stats fresh told)
    (hi : (pool.opened k r stats fresh told).connections[i]? = some conn) :
    Stage (pool.opened k r stats fresh told).requests (pool.opened k r stats fresh told).shared i conn := by
  have hr : r ∈ pool.connecting := List.mem_of_getElem? hget
  have hi' : (pool.connections ++ fresh)[i]? = some conn := hi
  by_cases hlt : i < pool.connections.length
  · rw [List.getElem?_append_left hlt] at hi'
    refine (hinv.stage i conn hi').frame (List.prefix_refl _) fun h' hh' => callsOf_opened ?_
    rintro rfl
    exact hinv.handler_ne_connecting hr hi' hh'
  · have hle := Nat.not_lt.1 hlt
    rw [List.getElem?_append_right hle] at hi'
    have hcalls : callsOf (pool.opened k r stats fresh told).shared.calls r.handler = told := by
      rw [opened, callsOf_append, callsOf_map, (hinv.connecting r hr).2, List.nil_append]
    have hstage := hopened.stage _ hcalls _ _ hi'
    rwa [Nat.add_sub_cancel' hle] at hstage

theorem nodup_opened (hinv : pool.Inv) (hget : pool.connecting[k]? = some r)
    (hopened : Opened pool r.handler stats fresh told) :
    ((pool.opened k r stats fresh told).connections.flatMap
      fun conn => conn.cur_handler_.toList).Nodup := by
  have hr : r ∈ pool.connecting := List.mem_of_getElem? hget
  rw [opened, List.flatMap_append]
  refine List.nodup_append.2 ⟨hinv.handlers, hopened.handlers.nodup (List.nodup_singleton _),
    fun h' hold h'' hfresh => ?_⟩
  rintro rfl
  obtain ⟨conn, hmem, hh⟩ := List.mem_flatMap.1 hold
  obtain ⟨i, hi⟩ := List.getElem?_of_mem hmem
  obtain rfl : h' = r.handler := List.mem_singleton.1 (hopened.handlers.subset hfresh)
  exact hinv.handler_ne_connecting hr hi (Option.mem_toList.1 hh)

theorem inv_opened (hinv : pool.Inv) (hget : pool.connecting[k]? = some r)
    (hopened : Opened pool r.handler stats fresh told) :
    (pool.opened k r stats fresh told).Inv where
  cache := hinv.cache
  safe := hinv.safe
  whereabouts := (whereabouts_opened hget hopened).trans hinv.whereabouts
  stage _ _ hi := stage_opened hinv hget hopened hi
  connecting r' hr' := by
    have hold := hinv.connecting r' (List.mem_of_mem_eraseIdx hr')
    have hne : r.handler ≠ r'.handler := by
      intro heq
      have hnodup := (handlers_opened hget).nodup_iff.2 (List.nodup_append.1 hinv.nodup).1
      exact (List.nodup_cons.1 hnodup).1 (heq ▸ List.mem_map_of_mem hr')
    exact ⟨hold.1, (callsOf_opened hne).trans hold.2⟩
  handlers := nodup_opened hinv hget hopened
  orderly := by
    have hnot := hinv.not_connecting (List.mem_of_getElem? hget)
    exact hinv.orderly.append (fun hmem => hnot (List.mem_append_right _ hmem)) hopened.orderly
  known call hcall := by
    obtain hold | hnow := List.mem_append.1 hcall
    · exact hinv.known call hold
    · obtain ⟨_, -, rfl⟩ := List.mem_map.1 hnow
      have hrequest := (hinv.connecting r (List.mem_of_getElem? hget)).1
      exact (List.getElem?_eq_some_iff.1 hrequest).1
  completing h' hcall := by
    obtain hold | hnow := List.mem_append.1 hcall
    · obtain ⟨conn, hmem, hclosed⟩ := hinv.completing h' hold
      exact ⟨conn, List.mem_append_left _ hmem, hclosed⟩
    · obtain ⟨_, hcall, heq⟩ := List.mem_map.1 hnow
      obtain rfl := congrArg Prod.snd heq
      exact absurd hcall hopened.incomplete
  current_requests := by
    have hstats : (pool.opened k r stats fresh told).shared.stats_ = stats := rfl
    rw [hstats, hopened.current_requests, hinv.current_requests, opened, List.flatMap_append,
      List.length_append, UInt64.ofNat_add]
  current_connections := by
    have hstats : (pool.opened k r stats fresh told).shared.stats_ = stats := rfl
    rw [hstats, hopened.current_connections, hinv.current_connections, opened, List.countP_append,
      UInt64.ofNat_add]

end opened

/-- A call of a connection that is not deleted. -/
theorem onConnection_eq (hlive : conn.deleted = 0) (call : Sys (Client α) Unit) :
    pool.onConnection i conn call =
      ((call ⟨conn, pool.shared⟩).1, pool.turned i (call ⟨conn, pool.shared⟩).2) := by
  have huse := @use_bind α ⟨conn, pool.shared⟩ Unit hlive fun _ => call
  rw [onConnection, huse]
  rfl

/-- What the event loop calls for a connection of which it waits for nothing else. -/
theorem onReady_eq (hget : pool.connections[i]? = some conn) (hlive : conn.deleted = 0)
    {interest : Interest} (hscheduler : conn.scheduler_ = [interest])
    (call : Sys (Client α) Unit) :
    pool.onReady i interest call =
      some (pool.turned i (call ⟨{ conn with scheduler_ := [] }, pool.shared⟩).2) := by
  have hlive' : ({ conn with scheduler_ := [] } : HTTPClientConnection α).deleted = 0 := hlive
  simp only [onReady, hget, Option.bind_eq_bind, Option.bind_some, hscheduler, List.mem_singleton,
    if_true, List.erase_cons_head, onConnection_eq hlive']

/-- A new connection that is leased. -/
def leased (i : Nat) (addr : α) : HTTPClientConnection α :=
  { (new : HTTPClientConnection α) with on_ready_ := [.parkConnection i addr] }

/-- It is given a request, where the text of that comes to an end. -/
theorem onLease_new (hlease : pool.onLease i addr .new request h = some pool') :
    (∃ text, HTTPGenerator.generate request = .ok text ∧ pool' =
      { pool with
        connections :=
          pool.connections.set i (started request h text ⟨leased i addr, pool.shared⟩).conn
        shared := (started request h text ⟨leased i addr, pool.shared⟩).shared }) ∨
    ∃ e, pool' =
      { pool with
        connections := pool.connections.set i (unused request ⟨leased i addr, pool.shared⟩).conn
        shared := { pool.shared with calls := pool.shared.calls ++ [(h, .error e)] } } := by
  have hcall : ((do
      runOnNextWakeup (.parkConnection i addr)
      HTTPClientConnection.executeRequest request h) : Sys (Client α) Unit) ⟨new, pool.shared⟩ =
      HTTPClientConnection.executeRequest request h ⟨leased i addr, pool.shared⟩ := by
    rw [runOnNextWakeup, modify_bind]
    rfl
  rw [onLease, onConnection_eq rfl, hcall] at hlease
  obtain ⟨text, hgenerate, hstarted⟩ | ⟨e, -, hunused⟩ | hdiverge :=
    executeRequest_new request (c := ⟨leased i addr, pool.shared⟩) (h := h) rfl
  · rw [hstarted] at hlease
    exact .inl ⟨text, hgenerate, (Option.some.inj hlease).symm⟩
  · rw [hunused] at hlease
    exact .inr ⟨e, (Option.some.inj hlease).symm⟩
  · cases hexecute : HTTPClientConnection.executeRequest request h ⟨leased i addr, pool.shared⟩ with
    | mk res c =>
      rw [hexecute] at hdiverge hlease
      obtain rfl : res = .diverge := hdiverge
      cases hlease

/-- The pool with a connection that is established. -/
def established (pool : HTTPConnectionPool α) : HTTPConnectionPool α where
  connections := pool.connections ++ [new]
  connecting := pool.connecting
  requests := pool.requests
  shared.stats_ :=
    { pool.shared.stats_ with
      current_connections := pool.shared.stats_.current_connections+1
      total_connections := pool.shared.stats_.total_connections+1 }
  shared.connection_cache_ := pool.shared.connection_cache_
  shared.calls := pool.shared.calls
  shared.misused := pool.shared.misused

theorem onConnected_ok (r : Connecting α) : pool.onConnected r (.ok ()) =
    pool.established.onLease pool.connections.length r.addr .new r.request r.handler := rfl

theorem stage_singleton {requests : List HTTPRequest} {shared : Shared α} {n : Nat}
    {conn : HTTPClientConnection α} (hstage : Stage requests shared n conn) (i : Nat)
    (conn' : HTTPClientConnection α) (hi : [conn][i]? = some conn') :
    Stage requests shared (n+i) conn' := by
  cases i with
  | zero =>
    cases hi
    exact hstage
  | succ i => cases hi

theorem opened_started (addr : α) {text : Bytes} (hrequest : pool.requests[h]? = some request)
    (hgenerate : HTTPGenerator.generate request = .ok text) (shared : Shared α) :
    Opened pool h
      { pool.shared.stats_ with
        current_connections := pool.shared.stats_.current_connections+1
        total_connections := pool.shared.stats_.total_connections+1
        current_requests := pool.shared.stats_.current_requests+1
        total_requests := pool.shared.stats_.total_requests+1 }
      [(started request h text ⟨leased pool.connections.length addr, shared⟩).conn] [] where
  whereabouts := List.Perm.refl _
  stage _ hshared := stage_singleton
    (.sending hrequest ⟨rfl, rfl, rfl, rfl, ⟨addr, rfl⟩⟩ rfl hgenerate rfl rfl hshared)
  handlers := List.Sublist.refl _
  orderly := List.Pairwise.nil
  incomplete := List.not_mem_nil
  current_requests := rfl
  current_connections := rfl

theorem opened_unused (addr : α) (request : HTTPRequest) (e : Exception) (shared : Shared α) :
    Opened pool h
      { pool.shared.stats_ with
        current_connections := pool.shared.stats_.current_connections+1
        total_connections := pool.shared.stats_.total_connections+1 }
      [(unused request ⟨leased pool.connections.length addr, shared⟩).conn] [.error e] where
  whereabouts := List.Perm.refl _
  stage _ _ := stage_singleton (.unused rfl rfl rfl rfl)
  handlers := List.nil_sublist _
  orderly := List.pairwise_singleton _ _
  incomplete := by simp
  current_requests := (add_zero _).symm
  current_connections := rfl

theorem opened_refused (e : Exception) : Opened pool h pool.shared.stats_ [] [.error e] where
  whereabouts := List.Perm.refl _
  stage _ _ i conn hi := by simp at hi
  handlers := List.nil_sublist _
  orderly := List.pairwise_singleton _ _
  incomplete := by simp
  current_requests := (add_zero _).symm
  current_connections := (add_zero _).symm

theorem inv_connected (hinv : pool.Inv) {k : Nat} {r : Connecting α}
    (hget : pool.connecting[k]? = some r) {res : Result Unit}
    (hstep : { pool with connecting := pool.connecting.eraseIdx k }.onConnected r res =
      some pool') : pool'.Inv := by
  have hset (conn : HTTPClientConnection α) :
      (pool.connections ++ [new]).set pool.connections.length conn =
        pool.connections ++ [conn] := by
    simp
  cases res with
  | ok =>
    rw [onConnected_ok] at hstep
    obtain ⟨text, hgenerate, rfl⟩ | ⟨e, rfl⟩ := onLease_new hstep
    · have hrequest := (hinv.connecting r (List.mem_of_getElem? hget)).1
      have hopened := inv_opened hinv hget (opened_started r.addr hrequest hgenerate
        pool.shared)
      rw [opened, List.map_nil, List.append_nil] at hopened
      simp only [established, hset]
      exact hopened
    · have hopened := inv_opened hinv hget
        (opened_unused r.addr r.request e pool.shared)
      simp only [established, hset]
      exact hopened
  | raise e =>
    cases hstep
    have hopened := inv_opened hinv hget (opened_refused e)
    rwa [opened, List.append_nil] at hopened
  | diverge => cases hstep

/-- A connection is deleted behind the end of its request, and nothing waits for it then. -/
theorem Inv.deleted_cases (hinv : pool.Inv) (hget : pool.connections[i]? = some conn) :
    conn.deleted = 0 ∨ conn.deleted = 1 ∧ conn.state_ = .closed ∧ conn.scheduler_ = [] ∧
      conn.on_ready_ = [] := by
  cases hinv.stage i conn hget with
  | unused _ _ hlive => exact .inl hlive
  | sending _ hbusy => exact .inl hbusy.live
  | receiving _ hbusy => exact .inl hbusy.live
  | completed _ hstate _ hdeleted htask hscheduler =>
    exact .inr ⟨hdeleted, hstate, hscheduler, htask⟩

theorem Inv.completed (hinv : pool.Inv) (hcall : (h, .responseComplete) ∈ pool.shared.calls) :
    ∃ conn ∈ pool.connections, conn.cur_handler_ = some h ∧ ∃ request,
      pool.requests[h]? = some request ∧ Exchanged request conn ∧
        callsOf pool.shared.calls h = conn.parser_.calls.map .event ++ [.responseComplete] := by
  obtain ⟨conn, hmem, hhandler, hstate⟩ := hinv.completing h hcall
  obtain ⟨i, hget⟩ := List.getElem?_of_mem hmem
  cases hinv.stage i conn hget with
  | unused hidle => simp [hidle] at hstate
  | sending _ hbusy => simp [hbusy.state] at hstate
  | receiving _ hbusy => simp [hbusy.state] at hstate
  | completed hrequest _ hhandler' _ _ _ hcalls hexchanged =>
    obtain rfl := Option.some.inj (hhandler'.symm.trans hhandler)
    exact ⟨conn, hmem, hhandler, _, hrequest, hexchanged, hcalls⟩

/-- No connection fails in the step: nothing is raised by its socket, but that a call would block,
and its parser refuses nothing. -/
def Sound (pool : HTTPConnectionPool α) : Action α → Prop
  | .readable i res => ∀ conn, pool.connections[i]? = some conn → conn.Readable res
  | .writable _ res => Writable res
  | _ => True

/-- What is read comes to a connection that waits for its response. -/
theorem step_readable (hinv : pool.Inv) {res : Result Bytes} (hres : res ≠ .diverge)
    (hstep : pool.onReady i .readable (HTTPClientConnection.read res) = some pool') :
    ∃ conn, pool.connections[i]? = some conn ∧
      (pool'.shared.misused = false ↔ conn.Readable res) ∧ (conn.Readable res → pool'.Inv) := by
  obtain ⟨conn, hget, hready⟩ := Option.bind_eq_some_iff.1 hstep
  cases hinv.stage i conn hget with
  | unused _ _ _ hscheduler => simp [hscheduler] at hready
  | sending _ _ hscheduler => simp [hscheduler] at hready
  | receiving hrequest hbusy hscheduler hsent hreceived hunended hstate hcalls =>
    rw [onReady_eq hget hbusy.live hscheduler] at hstep
    cases hstep
    refine ⟨conn, hget, misused_read_iff hbusy.unscheduled hinv.safe hres, fun hsafe => ?_⟩
    obtain ⟨told, hturn⟩ := read_turns hrequest hbusy.unscheduled rfl hsent hreceived hunended
      hstate hcalls hres hsafe
    exact inv_turned hinv hget hbusy hturn
  | completed _ _ _ _ _ hscheduler => simp [hscheduler] at hready

/-- What is written comes from a connection that sends its request. -/
theorem step_writable (hinv : pool.Inv) {res : Result Nat} (hres : res ≠ .diverge)
    (hstep : pool.onReady i .writable (HTTPClientConnection.write res) = some pool') :
    (pool'.shared.misused = false ↔ Writable res) ∧ (Writable res → pool'.Inv) := by
  obtain ⟨conn, hget, hready⟩ := Option.bind_eq_some_iff.1 hstep
  cases hinv.stage i conn hget with
  | unused _ _ _ hscheduler => simp [hscheduler] at hready
  | sending hrequest hbusy hscheduler hsent hreceived hparser hcalls =>
    rw [onReady_eq hget hbusy.live hscheduler] at hstep
    cases hstep
    refine ⟨misused_write_iff hbusy.unscheduled hinv.safe hres, fun hsafe => ?_⟩
    obtain ⟨told, hturn⟩ := write_turns hrequest hbusy.unscheduled rfl hsent hreceived hparser
      hcalls hres hsafe
    exact inv_turned hinv hget hbusy hturn
  | receiving _ _ hscheduler => simp [hscheduler] at hready
  | completed _ _ _ _ _ hscheduler => simp [hscheduler] at hready

/-- A step in which a connection fails uses it behind its deletion, and no other does. -/
theorem inv_step [DecidableEq α] (hinv : pool.Inv) (action : Action α)
    (hstep : pool.step action = some pool') :
    (pool'.shared.misused = false ↔ pool.Sound action) ∧ (pool.Sound action → pool'.Inv) := by
  rw [step, hinv.safe, if_neg Bool.false_ne_true] at hstep
  cases action with
  | executeRequest request addr =>
    have hrequested := inv_requested hinv request addr
    rw [act, executeRequest, hinv.cache] at hstep
    cases hstep
    exact ⟨iff_of_true hrequested.safe trivial, fun _ => hrequested⟩
  | connected k res =>
    obtain ⟨r, hget, hstep⟩ := Option.bind_eq_some_iff.1 hstep
    have hconnected := inv_connected hinv hget hstep
    exact ⟨iff_of_true hconnected.safe trivial, fun _ => hconnected⟩
  | readable i res =>
    by_cases hres : res = .diverge
    · rw [act, if_pos hres] at hstep
      cases hstep
    · rw [act, if_neg hres] at hstep
      obtain ⟨conn, hget, hiff, hsafe⟩ := step_readable hinv hres hstep
      have hsound : pool.Sound (.readable i res) ↔ conn.Readable res := by
        constructor
        · exact fun hall => hall conn hget
        · intro hread conn' hget'
          obtain rfl := Option.some.inj (hget.symm.trans hget')
          exact hread
      rw [hsound]
      exact ⟨hiff, hsafe⟩
  | writable i res =>
    by_cases htakes : pool.takes i res
    · have hres : res ≠ .diverge := by
        rintro rfl
        cases htakes
      rw [act, if_pos htakes] at hstep
      exact step_writable hinv hres hstep
    · rw [act, if_neg htakes] at hstep
      cases hstep

variable [DecidableEq α] {as : List (Action α)}

theorem inv_reaches (hrun : Runs.Reaches step Sound {} as pool) : pool.Inv :=
  hrun.invariant inv_start fun _ action _ hinv hsound hstep => (inv_step hinv action hstep).2 hsound

/-- No connection is used behind its deletion in a run if and only if none fails in it. -/
theorem misused_iff (hrun : Runs.Run step {} as pool) :
    pool.shared.misused = false ↔ Runs.Reaches step Sound {} as pool := by
  constructor
  · intro hsafe
    refine hrun.of_run (P := fun pool => pool.shared.misused = false) hsafe ?_ ?_
    · intro _ t a u _ hstep _
      by_contra hmisused
      rw [step, if_pos (by simpa using hmisused)] at hstep
      cases hstep
    · exact fun _ t a u hreaches hstep hu => (inv_step (inv_reaches hreaches) a hstep).1.1 hu
  · exact fun hreaches => (inv_reaches hreaches).safe

theorem inv_run (hrun : Runs.Run step {} as pool) (hsafe : pool.shared.misused = false) :
    pool.Inv := inv_reaches ((misused_iff hrun).1 hsafe)

structure Quiet (pool : HTTPConnectionPool α) : Prop where
  connecting : pool.connecting = []
  scheduler : ∀ conn ∈ pool.connections, conn.scheduler_ = []

omit [DecidableEq α] in
/-- A connection that waits for nothing has no request, or is deleted behind it. -/
theorem idle_of_scheduler (hinv : pool.Inv) {conn : HTTPClientConnection α}
    (hmem : conn ∈ pool.connections) (hscheduler : conn.scheduler_ = []) :
    conn.underway = [] ∧ (conn.cur_handler_ = none ∨ conn.deleted = 1) := by
  obtain ⟨i, hget⟩ := List.getElem?_of_mem hmem
  cases hinv.stage i conn hget with
  | unused hstate hnone => exact ⟨by simp [underway, hstate], .inl hnone⟩
  | sending _ _ hwaits => simp [hscheduler] at hwaits
  | receiving _ _ hwaits => simp [hscheduler] at hwaits
  | completed _ hstate _ hdeleted => exact ⟨underway_closed hstate, .inr hdeleted⟩

/-- A request that is sent in two writes, and answered in two reads. -/
def exchange : List (Action Unit) :=
  [.executeRequest { url_ := lit "/", version_ := lit "HTTP/1.1" } (), .connected 0 (.ok ()),
    .writable 0 (.ok 10), .writable 0 (.ok 8), .readable 0 (.ok (lit "HTTP/1.1 204 N")),
    .readable 0 (.ok (lit "o\r\nContent-Length: 0\r\n\r\n"))]

/-- What is left to do, the number of the handler that was called last, and whether a connection was
used behind its deletion. -/
def left (pool : HTTPConnectionPool Unit) :
    ((List Nat × List Interest) × Option (Nat × HandlerCall)) × Bool :=
  (((pool.connecting.map Connecting.handler,
    pool.connections.flatMap HTTPClientConnection.scheduler_), pool.shared.calls.getLast?),
    pool.shared.misused)

theorem exchange_left : (exchange.foldlM (Runs.guarded step fun _ _ => True) {}).map left =
    some ((([], []), some (0, .responseComplete)), false) := by decide +kernel

theorem exchange_quiet : ∃ pool, Runs.Run step {} exchange pool ∧ pool.shared.misused = false ∧
    Quiet pool ∧ (0, .responseComplete) ∈ pool.shared.calls := by
  obtain ⟨pool, hrun, hleft⟩ := Runs.exists_of_foldlM left exchange_left
  obtain ⟨⟨⟨hconnecting, hscheduler⟩, hlast⟩, hsafe⟩ := by simpa [left] using hleft
  exact ⟨pool, hrun, hsafe, ⟨hconnecting, hscheduler⟩, List.mem_of_getLast? hlast⟩

/-- A request is in one place at a time, and on one connection at most. Its handler is not called
behind the call that ends it; that call has come for all of them when the event loop is quiet. -/
theorem requests_answered (hrun : Runs.Run step {} as pool) (hsafe : pool.shared.misused = false) :
    pool.whereabouts.Perm (List.range pool.requests.length) ∧
    (pool.connections.flatMap fun conn => conn.cur_handler_.toList).Nodup ∧
    Orderly pool.shared.calls ∧
    (Quiet pool → (answers pool.shared.calls).Perm (List.range pool.requests.length)) := by
  have hinv := inv_run hrun hsafe
  refine ⟨hinv.whereabouts, hinv.handlers, hinv.orderly, fun hquiet => ?_⟩
  have hidle : pool.connections.flatMap underway = [] := List.flatMap_eq_nil_iff.2 fun conn hmem =>
    (idle_of_scheduler hinv hmem (hquiet.scheduler conn hmem)).1
  have hall := hinv.whereabouts
  rw [whereabouts, hquiet.connecting, hidle] at hall
  exact hall

theorem requests_answered_exchange : ∃ pool, Runs.Run step {} exchange pool ∧
    (answers pool.shared.calls).Perm (List.range pool.requests.length) := by
  obtain ⟨pool, hrun, hsafe, hquiet, -⟩ := exchange_quiet
  exact ⟨pool, hrun, (requests_answered hrun hsafe).2.2.2 hquiet⟩

/-- The request of a connection is sent from its start on, and nothing is read before the end of it.
A response is complete only where the parser, given all that was read, is done; its handler was
called with what the parser found, and with nothing else. -/
theorem responses_complete (hrun : Runs.Run step {} as pool)
    (hsafe : pool.shared.misused = false) :
    (∀ conn ∈ pool.connections, ∀ h, conn.cur_handler_ = some h →
      ∃ request, pool.requests[h]? = some request ∧ SendsFirst request conn ∧
        conn.parser_.calls.map .event <+: callsOf pool.shared.calls h) ∧
    ∀ h, (h, .responseComplete) ∈ pool.shared.calls →
      ∃ conn ∈ pool.connections, conn.cur_handler_ = some h ∧ ∃ request,
        pool.requests[h]? = some request ∧ Exchanged request conn ∧
          callsOf pool.shared.calls h = conn.parser_.calls.map .event ++ [.responseComplete] := by
  have hinv := inv_run hrun hsafe
  constructor
  · intro conn hmem h hh
    obtain ⟨i, hget⟩ := List.getElem?_of_mem hmem
    cases hinv.stage i conn hget with
    | unused _ hnone =>
      rw [hnone] at hh
      cases hh
    | sending hrequest hbusy _ hsent hreceived hparser hcalls =>
      obtain rfl := Option.some.inj (hbusy.handler.symm.trans hh)
      refine ⟨_, hrequest, ⟨_, hsent, fun hne => absurd hreceived hne⟩, ?_⟩
      rw [hparser, startParser_calls]
      exact List.nil_prefix
    | receiving hrequest hbusy _ hsent _ _ _ hcalls =>
      obtain rfl := Option.some.inj (hbusy.handler.symm.trans hh)
      refine ⟨_, hrequest, ⟨[], by rw [List.append_nil]; exact hsent, fun _ => rfl⟩, ?_⟩
      rw [hcalls]
    | completed hrequest _ hhandler _ _ _ hcalls hexchanged =>
      obtain rfl := Option.some.inj (hhandler.symm.trans hh)
      refine ⟨_, hrequest, ⟨[], by rw [List.append_nil]; exact hexchanged.sent, fun _ => rfl⟩, ?_⟩
      rw [hcalls]
      exact List.prefix_append _ _
  · exact fun h hcall => hinv.completed hcall

theorem responses_complete_exchange : ∃ pool, Runs.Run step {} exchange pool ∧
    ∃ conn ∈ pool.connections, conn.cur_handler_ = some 0 ∧ ∃ request,
      pool.requests[0]? = some request ∧ Exchanged request conn ∧
        callsOf pool.shared.calls 0 = conn.parser_.calls.map .event ++ [.responseComplete] := by
  obtain ⟨pool, hrun, hsafe, -, hlast⟩ := exchange_quiet
  exact ⟨pool, hrun, (responses_complete hrun hsafe).2 0 hlast⟩

/-- A connection is used behind its deletion exactly if one fails. Otherwise nothing comes into the
cache, a connection is deleted once, and not while it is waited for; when the event loop is quiet,
all that had a request are deleted. The gauges count what is there. -/
theorem connections_deleted (hrun : Runs.Run step {} as pool) :
    (pool.shared.misused = false ↔ Runs.Reaches step Sound {} as pool) ∧
    (pool.shared.misused = false →
      pool.shared.connection_cache_ = [] ∧
      (∀ conn ∈ pool.connections, conn.deleted = 0 ∨ conn.deleted = 1 ∧ conn.state_ = .closed ∧
        conn.scheduler_ = [] ∧ conn.on_ready_ = []) ∧
      (Quiet pool → ∀ conn ∈ pool.connections, conn.cur_handler_.isSome → conn.deleted = 1) ∧
      pool.shared.stats_.current_requests =
        UInt64.ofNat (pool.connections.flatMap underway).length ∧
      pool.shared.stats_.current_connections =
        UInt64.ofNat (pool.connections.countP fun conn => conn.deleted = 0)) := by
  refine ⟨misused_iff hrun, fun hsafe => ?_⟩
  have hinv := inv_run hrun hsafe
  refine ⟨hinv.cache, fun conn hmem => ?_, fun hquiet conn hmem hh => ?_, hinv.current_requests,
    hinv.current_connections⟩
  · obtain ⟨i, hget⟩ := List.getElem?_of_mem hmem
    exact hinv.deleted_cases hget
  · refine (idle_of_scheduler hinv hmem (hquiet.scheduler conn hmem)).2.resolve_left fun hnone => ?_
    simp [hnone] at hh

theorem connections_deleted_exchange : ∃ pool, Runs.Run step {} exchange pool ∧
    Runs.Reaches step Sound {} exchange pool ∧
    ∀ conn ∈ pool.connections, conn.cur_handler_.isSome → conn.deleted = 1 := by
  obtain ⟨pool, hrun, hsafe, hquiet, -⟩ := exchange_quiet
  obtain ⟨hiff, hdeleted⟩ := connections_deleted hrun
  exact ⟨pool, hrun, hiff.1 hsafe, (hdeleted hsafe).2.2.1 hquiet⟩

end Stx.Http.HTTPConnectionPool
