import SharedBike.Chronicles

/-!
# Every step of the platform keeps the chronicle

A step of the server adds at most one entry about one session, whose item in
flight says what stands before it. A step of the handler adds entries of one
call, which some worker is in.
-/

set_option autoImplicit false

namespace SharedBike.ChronicleSteps
open GuardedRuns Histories Slots
open SharedBike.BikeProtocol SharedBike.Events SharedBike.DispatchMsgService
open SharedBike.NetworkInterface SharedBike.ConnectionFraming
open SharedBike.Server (Work Worker)
open SharedBike.ServerView SharedBike.ServerInvariant SharedBike.CallHistory
open SharedBike.Conversations SharedBike.Platform SharedBike.Chronicles

variable {pb : Protobuf} {hd : Handler} {s : State}

theorem take_task_workers (s : Server.State) (w : ℕ) (tp : ThreadPool.Pool Work) :
    ∃ y, (s.takeTask w tp).workers = s.workers.set w y := by
  unfold Server.State.takeTask
  split <;> exact ⟨_,rfl⟩

/-- Only `svc` ends what a running worker does. -/
theorem next_workers {s s' : Server.State} {act : Server.Action}
    (other : ∀ w answer, act ≠ .svc w answer) (hn : (Server.machine pb).Next s act s') :
    s'.workers = s.workers ∨ ∃ w x y, s.workers[w]? = some x ∧ (∀ t, x ≠ .running t) ∧
      s'.workers = s.workers.set w y := by
  unfold Machine.Next Server.machine Server.step at hn
  cases act <;> simp only at hn
  case accept => split at hn <;> simp at hn; subst hn; exact Or.inl rfl
  case arrive a bytes =>
    split at hn
    · simp at hn
    · obtain ⟨c,-,hn⟩ := Option.map_eq_some_iff.mp hn
      split at hn
      · simp at hn
      · obtain rfl := Except.ok.inj hn
        exact Or.inl rfl
      · obtain rfl := Except.ok.inj hn
        exact Or.inl (enqueue_places _ _).1
      · obtain rfl := Except.ok.inj hn
        exact Or.inl rfl
  case handleError =>
    split at hn
    · simp at hn
    · obtain ⟨c,-,hn⟩ := Option.map_eq_some_iff.mp hn
      obtain rfl := Except.ok.inj hn
      exact Or.inl rfl
  case enter w =>
    split at hn <;> simp at hn
    rename_i hw
    subst hn
    obtain ⟨y,hy⟩ := take_task_workers s w (ThreadPool.cycleEnter s.tp)
    exact Or.inr ⟨w,_,y,hw,by simp,hy⟩
  case wake w =>
    split at hn <;> simp at hn
    rename_i hw
    subst hn
    obtain ⟨y,hy⟩ := take_task_workers s w s.tp
    exact Or.inr ⟨w,_,y,hw,by simp,hy⟩
  case svc w answer => exact absurd rfl (other w answer)
  case push w =>
    split at hn <;> simp at hn
    rename_i hw
    subst hn
    exact Or.inr ⟨w,_,_,hw,by simp,rfl⟩
  case drain => split at hn <;> simp at hn; subst hn; exact Or.inl rfl
  case handleResponse =>
    split at hn
    · split at hn
      · obtain rfl := Except.ok.inj (Option.some.inj hn)
        exact Or.inl rfl
      · have hn := Option.some.inj hn
        split at hn
        · simp at hn
        · obtain rfl := Except.ok.inj hn
          exact Or.inl rfl
        · obtain rfl := Except.ok.inj hn
          exact Or.inl (sent_places _ _ _).2.1
    · simp at hn

theorem next_running {s s' : Server.State} {act : Server.Action} {w : ℕ} {t : Work}
    (other : ∀ w answer, act ≠ .svc w answer) (hn : (Server.machine pb).Next s act s')
    (hw : s.workers[w]? = some (.running t)) : s'.workers[w]? = some (.running t) := by
  rcases next_workers other hn with he | ⟨v,x,y,hv,hx,he⟩
  · rw [he, hw]
  · have hne : v ≠ w := by
      rintro rfl
      exact hx t (Option.some.inj (hv.symm.trans hw))
    rw [he, List.getElem?_set, if_neg hne, hw]

/-- `svc` leaves the other workers where they are. -/
theorem svc_running {s s' : Server.State} {w v : ℕ} {answer : Handler → Option IEvent} {t : Work}
    (hn : (Server.machine pb).Next s (.svc w answer) s') (hne : v ≠ w)
    (hv : s.workers[v]? = some (.running t)) : s'.workers[v]? = some (.running t) := by
  simp only [Machine.Next, Server.machine, Server.step] at hn
  split at hn
  · obtain rfl := Except.ok.inj (Option.some.inj hn)
    split <;> simpa [List.getElem?_set, hne.symm] using hv
  · simp at hn

theorem running_request {s : Server.State} {w : ℕ} {t : Work}
    (hw : s.workers[w]? = some (.running t)) : t ∈ (view s).requests := by
  obtain ⟨rest,h,-⟩ := total_split Worker.requests hw
  simp only [view, Server.State.requests, h, Worker.requests]
  exact Multiset.mem_add.mpr (Or.inr (mem_snoc.mpr (Or.inr rfl)))

/-- Two workers never run items of one session. -/
theorem running_distinct {s : Server.State} (h : Tidy (view s)) {v w : ℕ} {t u : Work}
    (hvw : v ≠ w) (hv : s.workers[v]? = some (.running t))
    (hw : s.workers[w]? = some (.running u)) : t.sid ≠ u.sid := by
  obtain ⟨rest,hrest⟩ := total_two Worker.requests hvw hv hw
  have hsplit : (view s).inFlight =
      (s.tp.queue : Multiset Work)+rest+{t}+(view s).responses+{u} := by
    simp only [View.inFlight, view, Server.State.requests, hrest, Worker.requests]
    abel
  have hnd := h.single
  rw [hsplit] at hnd
  exact (nodup_map_snoc.mp hnd).2 t
    (Multiset.mem_add.mpr (Or.inl (mem_snoc.mpr (Or.inr rfl))))

/-- An entry is about an item in flight only if it is about the item's session. -/
theorem item_eq {v : View} (h : Tidy v) {t u : Work} (ht : t ∈ v.inFlight)
    (hu : u ∈ v.inFlight) (hs : t.sid = u.sid) : t = u :=
  Multiset.inj_on_of_nodup_map h.single t ht u hu hs

theorem known_call (h : Chronicled pb hd s) {e : UserEventHandler.Entry}
    (he : .inr e ∈ s.log) : e.call < s.served.length := by
  obtain ⟨table,as,hr⟩ := h.reached
  have hlen := congrArg List.length h.calls
  rw [List.length_map, List.length_map] at hlen
  have := (run_orderly hr).known e (by rw [← h.handler]; exact mem_rights.mpr he)
  omega

theorem request_in {v : View} {t : Work} (ht : t ∈ v.requests) : t ∈ v.inFlight :=
  Multiset.mem_add.mpr (Or.inl ht)

theorem response_in {v : View} {t : Work} (ht : t ∈ v.responses) : t ∈ v.inFlight :=
  Multiset.mem_add.mpr (Or.inr ht)

/-- A session with a call that a worker is in has a request in flight. -/
theorem busy_request (h : Chronicled pb hd s) {sid i : ℕ} (hb : Busy s sid i) :
    ∃ t ∈ (view s.srv).requests, t.sid = sid := by
  obtain ⟨w,ev,hw,hi⟩ := hb
  obtain ⟨t,ht,hrun⟩ := h.busy w i hw
  obtain rfl := Option.some.inj (hi.symm.trans ht)
  exact ⟨_,running_request hrun,rfl⟩

/-- The log after a step of the server. -/
theorem with_server_log {srv : Server.State} {es : List Server.Entry}
    (h : srv.log = s.srv.log++es) : (s.withServer srv).log = s.log++es.map .inl := by
  simp [State.withServer, h]

theorem with_users_log {users : UserEventHandler.State} {es : List UserEventHandler.Entry}
    (h : users.log = s.users.log++es) : (s.withUsers users).log = s.log++es.map .inr := by
  simp [State.withUsers, h]

/-- Old requests and responses stay what they are when entries of other sessions
follow. -/
theorem old_asking (h : Chronicled pb hd s) {t : Work} (ht : t ∈ (view s.srv).requests)
    {es : List Server.Entry} (hes : ∀ e ∈ es, entrySid e ≠ t.sid) :
    ∃ o, Asking s.served t o (s.log++es.map .inl) ∧ ∀ i, Busy s t.sid i ↔ o = some i := by
  obtain ⟨o,hask,hbusy⟩ := h.asking t ht
  refine ⟨o,asking_append hask (fun e he => ?_) (fun e ev he => by simp at he),hbusy⟩
  obtain ⟨x,hx,hxe⟩ := List.mem_map.mp he
  rw [← Sum.inl.inj hxe]
  exact hes x hx

theorem old_answering (h : Chronicled pb hd s) {t : Work} (ht : t ∈ (view s.srv).responses)
    {es : List Server.Entry} (hes : ∀ e ∈ es, entrySid e ≠ t.sid) :
    Answering t (s.log++es.map .inl) := by
  refine answering_append (h.answering t ht) (fun e he => ?_)
  obtain ⟨x,hx,hxe⟩ := List.mem_map.mp he
  rw [← Sum.inl.inj hxe]
  exact hes x hx

/-- A step of the server, with the entries that it adds. -/
theorem server_chronicled {srv : Server.State} {es : List Server.Entry}
    (h : Chronicled pb hd s) (hconv : Conversing pb (view srv))
    (hset : settings srv = settings s.srv) (hlog : srv.log = s.srv.log++es)
    (hrun : ∀ (w : ℕ) (t : Work), s.srv.workers[w]? = some (.running t) →
      srv.workers[w]? = some (.running t))
    (hask : ∀ t ∈ (view srv).requests, ∃ o, Asking s.served t o (s.log++es.map .inl) ∧
      ∀ i, Busy s t.sid i ↔ o = some i)
    (hans : ∀ t ∈ (view srv).responses, Answering t (s.log++es.map .inl))
    (hsound : ∀ pre e post, es = pre++e::post →
      Sound pb s.served (s.log++pre.map .inl) (.inl e)) :
    Chronicled pb hd (s.withServer srv) := by
  have hwith := with_server_log hlog
  refine ⟨hconv,hset.trans h.setup,h.reached,?_,?_,h.calls,
    fun w i hi => ?_,?_,?_,?_⟩
  · rw [hwith, lefts_append, lefts_inl, h.server]
    exact hlog.symm
  · rw [hwith, rights_append, rights_inl, List.append_nil]
    exact h.handler
  · obtain ⟨t,ht,hw⟩ := h.busy w i hi
    exact ⟨t,ht,hrun w t hw⟩
  · rw [hwith]
    exact hask
  · rw [hwith]
    exact hans
  · rw [hwith]
    refine historic_append h.sound fun pre e post hes => ?_
    obtain ⟨pre',rest,rfl,hpre,hrest⟩ := List.map_eq_append_iff.mp hes
    obtain ⟨x,post',rfl,hx,-⟩ := List.map_eq_cons_iff.mp hrest
    rw [← hpre, ← hx]
    exact hsound pre' x post' rfl

/-- Nothing in flight belongs to a session that reads a request. -/
theorem reading_idle (h : Chronicled pb hd s) {a : Addr} {c : Conn}
    (conn : (view s.srv).conns a = some c) (reading : c.cs.sessionStat = .ssRequest) (i : ℕ) :
    ¬ Busy s c.sid i := by
  intro hb
  obtain ⟨t,ht,hs⟩ := busy_request h hb
  exact (reading_unreferenced h.conversing.toTidy conn reading (request_in ht)).2 hs

theorem single_sound {served : List Work} {log : List Event} {e : Server.Entry}
    (h : Sound pb served log (.inl e)) (pre : List Server.Entry) (x : Server.Entry)
    (post : List Server.Entry) (hes : [e] = pre++x::post) :
    Sound pb served (log++pre.map .inl) (.inl x) := by
  obtain ⟨rfl,rfl,-⟩ | ⟨rest,-,hnil⟩ := concat_split (show []++[e] = pre++x::post from hes)
  · simpa using h
  · simp at hnil

/-- A step that adds no entry, and no item. -/
theorem silent_chronicled {srv : Server.State} (h : Chronicled pb hd s)
    (hconv : Conversing pb (view srv)) (hset : settings srv = settings s.srv)
    (hlog : srv.log = s.srv.log)
    (hrun : ∀ (w : ℕ) (t : Work), s.srv.workers[w]? = some (.running t) →
      srv.workers[w]? = some (.running t))
    (hreq : ∀ t ∈ (view srv).requests, t ∈ (view s.srv).requests)
    (hrsp : ∀ t ∈ (view srv).responses, t ∈ (view s.srv).responses) :
    Chronicled pb hd (s.withServer srv) :=
  @server_chronicled _ _ _ _ [] h hconv hset (hlog.trans (List.append_nil _).symm) hrun
    (fun t ht => old_asking h (hreq t ht) (by simp))
    (fun t ht => old_answering h (hrsp t ht) (by simp)) (by simp)

theorem dispatched_other (h : Chronicled pb hd s) {a : Addr} {bytes : LittleEndian.Bytes}
    {c c' : Conn} {ev : IEvent} (conn : (view s.srv).conns a = some c)
    (sent : Dispatched pb a c c' bytes ev) {t : Work} (ht : t ∈ (view s.srv).inFlight) :
    ∀ e ∈ [Server.Entry.dispatched c.sid ev], entrySid e ≠ t.sid := by
  intro e he
  obtain rfl := List.mem_singleton.mp he
  exact (reading_unreferenced h.conversing.toTidy conn sent.before ht).2.symm

/-- The session of the next response gets its frame, the others get nothing. -/
theorem reply_chronicled {srv : Server.State} {t : Work} {a : Addr} {c : Conn}
    {rest : Multiset Work} (h : Chronicled pb hd s) (hconv : Conversing pb (view srv))
    (hset : settings srv = settings s.srv)
    (hrun : ∀ (w : ℕ) (t : Work), s.srv.workers[w]? = some (.running t) →
      srv.workers[w]? = some (.running t))
    (hlog : srv.log = s.srv.log++[.wrote c.sid (responseFrame pb t.ev t.ev.eid)])
    (hreq : (view srv).requests = (view s.srv).requests) (hrsp : (view srv).responses = rest)
    (held : (view s.srv).responses = rest+{t}) (args : t.ev.args = some a)
    (conn : (view s.srv).conns a = some c) : Chronicled pb hd (s.withServer srv) := by
  have htidy := h.conversing.toTidy
  have ht : t ∈ (view s.srv).responses := by
    rw [held]
    exact mem_snoc.mpr (Or.inr rfl)
  have hsid := (owned_sid htidy (response_in ht) args conn).1
  have hsingle := htidy.single
  rw [in_flight_split held] at hsingle
  have hne : ∀ u ∈ (view s.srv).requests+rest, ∀ e ∈
      [Server.Entry.wrote c.sid (responseFrame pb t.ev t.ev.eid)], entrySid e ≠ u.sid := by
    intro u hu e he
    obtain rfl := List.mem_singleton.mp he
    rw [entrySid, hsid]
    exact ((nodup_map_snoc.mp hsingle).2 u hu).symm
  obtain ⟨req,before,after,hans,hquiet⟩ := h.answering t ht
  refine server_chronicled h hconv hset hlog hrun (fun u hu => ?_) (fun u hu => ?_)
    (single_sound ⟨req,t.ev,before,after,?_,?_,rfl⟩)
  · rw [hreq] at hu
    exact old_asking h hu (hne u (Multiset.mem_add.mpr (Or.inl hu)))
  · rw [hrsp] at hu
    refine old_answering h ?_ (hne u (Multiset.mem_add.mpr (Or.inr hu)))
    rw [held]
    exact mem_snoc.mpr (Or.inl hu)
  · rw [hsid]
    exact hans
  · rw [hsid]
    exact hquiet

/-- Every step of the server but `svc` keeps the chronicle. -/
theorem net_chronicled {srv : Server.State} {act : Server.Action} (h : Chronicled pb hd s)
    (hg : Reuses s (.net act)) (other : ∀ w answer, act ≠ .svc w answer)
    (hn : (Server.machine pb).Next s.srv act srv) : Chronicled pb hd (s.withServer srv) := by
  have htidy := h.conversing.toTidy
  have hview := next_view h.conversing.readable hn
  have hreuse : Reusable (view s.srv) act := fun a ha t ht => hg a (by rw [ha]) t ht
  obtain ⟨hexit,hsubs⟩ := Prod.mk.inj h.setup
  have hconv := step_conversing_tidy hview h.conversing (step_tidy hview htidy hreuse)
    hexit hsubs (fun w answer _ hx => absurd hx (other w answer))
  have hrun := fun w t hw => @next_running _ _ _ _ w t other hn hw
  have hset := next_settings hn
  generalize hv : view srv = v' at hview
  have hlog : srv.log = v'.log := by rw [← hv]; rfl
  cases hview with
  | accept a free =>
    have hne : ∀ t ∈ (view s.srv).inFlight, ∀ e ∈ [Server.Entry.accepted s.srv.nextSid a],
        entrySid e ≠ t.sid := by
      intro t ht e he
      obtain rfl := List.mem_singleton.mp he
      exact (Nat.ne_of_lt (htidy.workSid t ht)).symm
    refine server_chronicled h hconv hset hlog hrun ?_ ?_ (single_sound trivial) <;> rw [hv]
    · exact fun t ht => old_asking h ht (hne t (request_in ht))
    · exact fun t ht => old_answering h ht (hne t (response_in ht))
  | keep conn kept =>
    apply silent_chronicled h hconv hset hlog hrun <;> rw [hv] <;> exact fun _ ht => ht
  | @dispatch a bytes c c' ev conn sent room =>
    have hne := fun t => @dispatched_other pb hd s h _ _ _ _ _ conn sent t
    refine server_chronicled h hconv hset hlog hrun ?_ ?_ (single_sound (dispatched_request sent))
      <;> rw [hv]
    · intro t ht
      rcases mem_snoc.mp ht with ht | rfl
      · exact old_asking h ht (hne t (request_in ht))
      · refine ⟨none,⟨s.log,[],rfl,by simp [Quiet],by simp,by simp⟩,fun i => ?_⟩
        simp [reading_idle h conn sent.before i]
    · exact fun t ht => old_answering h ht (hne t (response_in ht))
  | @refuse a bytes c c' ev conn sent full =>
    have hne := fun t => @dispatched_other pb hd s h _ _ _ _ _ conn sent t
    refine server_chronicled h hconv hset hlog hrun ?_ ?_ (single_sound (dispatched_request sent))
      <;> rw [hv]
    · exact fun t ht => old_asking h ht (hne t (request_in ht))
    · exact fun t ht => old_answering h ht (hne t (response_in ht))
  | close conn reading nothing =>
    apply silent_chronicled h hconv hset hlog hrun <;> rw [hv] <;> exact fun _ ht => ht
  | handleError a =>
    apply silent_chronicled h hconv hset hlog hrun <;> rw [hv] <;> exact fun _ ht => ht
  | still internal =>
    apply silent_chronicled h hconv hset hlog hrun <;> rw [hv] <;> exact fun _ ht => ht
  | @answer w answer t rsp rest at_ held computed => exact absurd rfl (other w answer)
  | @abandon w answer t rest held closed => exact absurd rfl (other w answer)
  | @reply t a c rest held args conn framed =>
    exact reply_chronicled h hconv hset hrun hlog (by rw [hv]; rfl) (by rw [hv]) held args conn
  | @drop t rest head held unknown =>
    apply silent_chronicled h hconv hset hlog hrun <;> rw [hv]
    · exact fun _ ht => ht
    · intro u hu
      rw [held]
      exact mem_snoc.mpr (Or.inl hu)

theorem calls_length (h : Chronicled pb hd s) : s.users.calls.length = s.served.length := by
  have hlen := congrArg List.length h.calls
  rwa [List.length_map, List.length_map] at hlen

/-- The request that the worker of a call is serving. -/
theorem busy_asking (h : Chronicled pb hd s) {w i : ℕ} (hw : s.calling w = some i) :
    ∃ t, s.served[i]? = some t ∧ s.srv.workers[w]? = some (.running t) ∧
      t ∈ (view s.srv).requests ∧ Asking s.served t (some i) s.log := by
  obtain ⟨t,ht,hrun⟩ := h.busy w i hw
  obtain ⟨o,hask,hbusy⟩ := h.asking t (running_request hrun)
  have ho := (hbusy i).mp ⟨w,t.ev,hw,ht⟩
  exact ⟨t,ht,hrun,running_request hrun,ho ▸ hask⟩

theorem served_call (h : Chronicled pb hd s) {i : ℕ} {t : Work} {call : UserEventHandler.Call}
    (ht : s.served[i]? = some t) (hcall : s.users.calls[i]? = some call) : call.ev = t.ev := by
  have := congrArg (fun l => l[i]?) h.calls
  simpa [hcall, ht] using this

/-- The result that a worker hands in is one that the handler returns. -/
theorem finish_returns (h : Chronicled pb hd s) {w i : ℕ} {ev : IEvent} {rsp : Option IEvent}
    {t : Work} (hw : s.calling w = some i) (hdone : s.users.calls[i]? = some ⟨ev, .returned rsp⟩)
    (hrun : s.srv.workers[w]? = some (.running t)) : Returns t.ev rsp := by
  obtain ⟨u,hu,hrun',-⟩ := busy_asking h hw
  obtain rfl := Worker.running.inj (Option.some.inj (hrun'.symm.trans hrun))
  obtain ⟨table,as,hr⟩ := h.reached
  exact ⟨table,as,s.users,i,hr,by rw [hdone, ← served_call h hu hdone]⟩

/-- The handler is subscribed for whatever a worker runs. -/
theorem never_skips (h : Chronicled pb hd s) {w : ℕ} {t : Work}
    (hrun : s.srv.workers[w]? = some (.running t))
    (nobody : s.srv.svrExit = true ∨ callees s.srv.subscribers t.ev = []) : False := by
  obtain ⟨hexit,hsubs⟩ := Prod.mk.inj h.setup
  obtain ⟨hsub,hun⟩ := main_subscribers_request hd (h.conversing.asks t (running_request hrun))
  rw [hexit, hsubs, callees, if_neg hun, hsub] at nobody
  simp at nobody

/-- A move of a call keeps the event that the call was made with. -/
theorem moved_events {s u : UserEventHandler.State} {i : ℕ} {env : UserEventHandler.Environment}
    {ev : IEvent} {p q : UserEventHandler.Point} (hcall : s.calls[i]? = some ⟨ev, p⟩)
    (hm : UserEventHandler.Moves s i env p q u) :
    (u.goto i ev q).calls.map UserEventHandler.Call.ev =
      s.calls.map UserEventHandler.Call.ev := by
  have hlen := (List.getElem?_eq_some_iff.mp hcall).1
  apply List.ext_getElem?
  intro j
  rw [List.getElem?_map, List.getElem?_map,
    goto_calls (show i < u.calls.length by rwa [UserEventHandler.moves_calls hm]),
    UserEventHandler.moves_calls hm]
  split
  · rename_i hij
    rw [hij, hcall]
    rfl
  · rfl

/-- A move of a call adds entries of that call, and some worker is in it. -/
theorem advance_chronicled {users : UserEventHandler.State} {w i : ℕ}
    {env : UserEventHandler.Environment} (h : Chronicled pb hd s) (hw : s.calling w = some i)
    (hn : UserEventHandler.machine.Next s.users (.advance i env) users) :
    Chronicled pb hd (s.withUsers users) := by
  obtain ⟨t,ht,hrun,hreq,hask⟩ := busy_asking h hw
  rcases UserEventHandler.next_cases hn with ⟨ev,p,hx,-,-⟩ | ⟨i',env',ev,p,q,u,hact,hcall,hm,rfl⟩
  · simp at hx
  obtain ⟨rfl,-⟩ := UserEventHandler.Action.advance.inj hact
  obtain ⟨es,hes,hmine⟩ := UserEventHandler.moves_log hm
  have hlog := @with_users_log s (u.goto i ev q) es hes
  have honly : ∀ (sid : ℕ) (o : Option ℕ), (Busy s sid i → o = some i) →
      ∀ pre ⊆ es, ∀ e ev, .inr e ∈ pre.map (@Sum.inr Server.Entry _) →
        s.served[e.call]? = some ⟨ev, sid⟩ → o = some e.call := by
    intro sid o ho pre hpre e ev' he hev
    obtain ⟨x,hx,hxe⟩ := List.mem_map.mp he
    obtain rfl := Sum.inr.inj hxe
    rw [hmine x (hpre hx)] at hev ⊢
    exact ho ⟨w,ev',hw,hev⟩
  refine ⟨h.conversing,h.setup,?_,?_,?_,?_,h.busy,fun u' hu' => ?_,fun u' hu' => ?_,?_⟩
  · obtain ⟨table,as,hr⟩ := h.reached
    exact ⟨table,_,hr.snoc trivial hn⟩
  · rw [hlog, lefts_append, lefts_inr, List.append_nil]
    exact h.server
  · rw [hlog, rights_append, rights_inr, h.handler]
    exact hes.symm
  · exact (moved_events hcall hm).trans h.calls
  · obtain ⟨o,hask',hbusy⟩ := h.asking u' hu'
    refine ⟨o,?_,hbusy⟩
    rw [hlog]
    exact asking_append hask' (quiet_rights _ _)
      (honly u'.sid o (fun hb => (hbusy i).mp hb) es (List.Subset.refl _))
  · rw [hlog]
    exact answering_append (h.answering u' hu') (quiet_rights _ _)
  · rw [hlog]
    refine historic_append h.sound fun pre e post hsplit => ?_
    obtain ⟨pre',rest,rfl,hpre,hrest⟩ := List.map_eq_append_iff.mp hsplit
    obtain ⟨x,post',rfl,hx,-⟩ := List.map_eq_cons_iff.mp hrest
    obtain ⟨before,after,hb,hs⟩ := asking_append hask (quiet_rights t.sid pre')
      (honly t.sid (some i) (fun _ => rfl) pre' (by simp))
    rw [← hpre, ← hx]
    have hcall : x.call = i := hmine x (by simp)
    refine ⟨t,before,after,hb,?_⟩
    rw [hcall]
    exact hs

/-- A call is made for a request that no call serves yet. -/
theorem handle_chronicled {users : UserEventHandler.State} {w : ℕ} {t : Work}
    (h : Chronicled pb hd s) (hat : s.srv.workers[w]? = some (.running t))
    (hidle : s.calling w = none) (hn : UserEventHandler.machine.Next s.users (.call t.ev) users) :
    Chronicled pb hd (s.enterCall w t users) := by
  have htidy := h.conversing.toTidy
  have hlen := calls_length h
  rcases UserEventHandler.next_cases hn with ⟨ev,p,hact,hp,rfl⟩ | ⟨i,env,ev,p,q,u,hx,-,-,-⟩
  swap
  · simp at hx
  obtain rfl := UserEventHandler.Action.call.inj hact
  have hlog : (s.enterCall w t { s.users with calls := s.users.calls++[⟨t.ev, p⟩] }).log = s.log :=
    (with_users_log (List.append_nil _).symm).trans (List.append_nil _)
  have hnew : (s.served++[t])[s.users.calls.length]? = some t := by
    rw [hlen, List.getElem?_append_right le_rfl, Nat.sub_self]
    rfl
  -- a call of the same session would be in another worker, with the same item
  have hnobody : ∀ i, ¬ Busy s t.sid i := by
    rintro i ⟨v,ev,hv,hi⟩
    obtain ⟨u,hu,hrun⟩ := h.busy v i hv
    obtain rfl := Option.some.inj (hi.symm.trans hu)
    have hvw : v ≠ w := by
      rintro rfl
      rw [hidle] at hv
      simp at hv
    exact running_distinct htidy hvw hrun hat rfl
  have hold : ∀ sid i, Busy s sid i → i < s.served.length := by
    rintro sid i ⟨v,ev,-,hi⟩
    exact (List.getElem?_eq_some_iff.mp hi).1
  have hbusy : ∀ sid i,
      Busy (s.enterCall w t { s.users with calls := s.users.calls++[⟨t.ev, p⟩] }) sid i ↔
        Busy s sid i ∨ (sid = t.sid ∧ i = s.users.calls.length) := by
    intro sid i
    constructor
    · rintro ⟨v,ev,hv,hi⟩
      rcases Heaps.update_cases hv with ⟨rfl,hx⟩ | ⟨-,hv⟩
      · obtain rfl := Option.some.inj hx
        exact Or.inr ⟨congrArg Work.sid (Option.some.inj (hi.symm.trans hnew)),rfl⟩
      · obtain ⟨u,hu,-⟩ := h.busy v i hv
        exact Or.inl ⟨v,ev,hv,served_get (List.getElem?_eq_some_iff.mp hu).1 hi⟩
    · rintro (⟨v,ev,hv,hi⟩ | ⟨rfl,rfl⟩)
      · have hvw : v ≠ w := by
          rintro rfl
          rw [hidle] at hv
          simp at hv
        exact ⟨v,ev,(Function.update_of_ne hvw _ _).trans hv,get_served hi⟩
      · exact ⟨w,t.ev,Function.update_self _ _ _,hnew⟩
  refine ⟨h.conversing,h.setup,?_,?_,?_,?_,fun v i hv => ?_,fun u hu => ?_,fun u hu => ?_,?_⟩
  · obtain ⟨table,as,hr⟩ := h.reached
    exact ⟨table,_,hr.snoc trivial hn⟩
  · rw [hlog]
    exact h.server
  · rw [hlog]
    exact h.handler
  · simp [State.enterCall, State.withUsers, h.calls]
  · rcases Heaps.update_cases hv with ⟨rfl,hi⟩ | ⟨-,hv⟩
    · obtain rfl := Option.some.inj hi
      exact ⟨t,hnew,hat⟩
    · obtain ⟨u,hu,hrun⟩ := h.busy v i hv
      exact ⟨u,get_served hu,hrun⟩
  · obtain ⟨o,hask,ho⟩ := h.asking u hu
    have hknown := fun e => @known_call pb hd s h e
    rw [hlog]
    by_cases hs : u.sid = t.sid
    · obtain rfl := item_eq htidy (request_in hu) (request_in (running_request hat)) hs
      have hnone : o = none := by
        cases o with
        | none => rfl
        | some i => exact absurd ((ho i).mpr rfl) (hnobody i)
      obtain ⟨before,after,hb,hsince⟩ := hask
      refine ⟨some s.users.calls.length,⟨before,after,hb,hsince.quiet,?_,?_⟩,fun i => ?_⟩
      · intro e ev he hev
        have hcall := hknown e (by rw [hb]; simp [he])
        have := hsince.only e ev he (served_get hcall hev)
        rw [hnone] at this
        simp at this
      · intro i hi
        obtain rfl := Option.some.inj hi
        refine ⟨hnew,fun e he => ?_⟩
        have hcall := hknown e (by rw [hb]; simp [he])
        omega
      · rw [hbusy]
        simp [hnobody i, eq_comm]
    · refine ⟨o,?_,fun i => ?_⟩
      · obtain ⟨before,after,hb,hsince⟩ := hask
        exact ⟨before,after,hb,since_served hsince fun e he => hknown e (by rw [hb]; simp [he])⟩
      · rw [hbusy, ho]
        simp [hs]
  · rw [hlog]
    exact h.answering u hu
  · rw [hlog]
    refine h.sound.mono fun pre e post hs hsound => sound_served hsound fun x hx => ?_
    exact known_call h (by rw [hs]; simp [hx])

theorem svc_result {i : ℕ} {ev rsp' : IEvent} {rsp : Option IEvent}
    {log : List UserEventHandler.Entry} (hr : Request ev) (hc : Completed i ev rsp log)
    (hs : svc false (mainSubscribers hd) (fun _ => rsp) ev = some rsp') :
    ∃ r, rsp = some r ∧ rsp' = r.setArgs ev.args := by
  obtain ⟨r,rfl⟩ : ∃ r, rsp = some r := by
    cases hc with
    | code m c request result history => exact ⟨_,result⟩
    | login m c e request result history => exact ⟨_,result⟩
    | ignored request result history =>
      rcases hr with ⟨m,hm⟩ | ⟨m,c,hl⟩
      · exact absurd hm.1 request.1
      · exact absurd hl.1 request.2
  obtain ⟨hsub,hun⟩ := main_subscribers_request hd hr
  rw [svc, if_neg (by simp), process_eq _ _ _ hun, hsub] at hs
  exact ⟨r,rfl,(Option.some.inj hs).symm⟩

/-- All entries of a call stand behind the dispatch of its request. -/
theorem own_after {served : List Work} {t : Work} {i : ℕ} {log before after : List Event}
    (hlog : log = before++.inl (.dispatched t.sid t.ev)::after)
    (hs : Since served t (some i) before after) : own i (rights log) = own i (rights after) := by
  have hnone : own i (rights before) = [] :=
    own_none fun e he => (hs.fresh i rfl).2 e (mem_rights.mp he)
  rw [hlog, rights_append, own_append, hnone]
  rfl

/-- A worker hands in the result of its call, which is complete. -/
theorem finish_chronicled {srv : Server.State} {w i : ℕ} {ev : IEvent} {rsp : Option IEvent}
    (h : Chronicled pb hd s) (hw : s.calling w = some i)
    (hdone : s.users.calls[i]? = some ⟨ev, .returned rsp⟩)
    (hn : (Server.machine pb).Next s.srv (.svc w fun _ => rsp) srv) :
    Chronicled pb hd (s.leaveCall w srv) := by
  have htidy := h.conversing.toTidy
  obtain ⟨t,ht,hrun,hreq,hask⟩ := busy_asking h hw
  obtain ⟨hexit,hsubs⟩ := Prod.mk.inj h.setup
  obtain rfl : ev = t.ev := served_call h ht hdone
  obtain ⟨table,as,hr⟩ := h.reached
  have hview := next_view h.conversing.readable hn
  have hconv := step_conversing_tidy hview h.conversing
    (step_tidy hview htidy (fun a hx => by simp at hx)) hexit hsubs (fun v answer u hx hu => by
      obtain ⟨rfl,rfl⟩ := Server.Action.svc.inj hx
      exact finish_returns h hw hdone hu)
  have hset := next_settings hn
  generalize hv : view srv = v' at hview
  have hlog : srv.log = v'.log := by rw [← hv]; rfl
  cases hview with
  | still internal => exact internal.elim
  | abandon held closed => rw [hexit] at closed; simp at closed
  | @answer _ _ t' rsp' rest at_ held computed =>
    obtain rfl := Worker.running.inj (Option.some.inj (at_.symm.trans hrun))
    have hcomp := (run_orderly hr).path i t'.ev _ hdone
    rw [hexit, hsubs] at computed
    obtain ⟨r,rfl,hr'⟩ := svc_result (h.conversing.asks t' hreq) hcomp computed
    have hwith := @with_server_log s srv _ hlog
    have hsingle := htidy.single
    rw [requests_split held] at hsingle
    have hne : ∀ u ∈ rest+(view s.srv).responses, u.sid ≠ t'.sid := (nodup_map_snoc.mp hsingle).2
    have hes : ∀ u ∈ rest+(view s.srv).responses,
        ∀ e ∈ [Server.Entry.answered t'.sid t'.ev rsp'], entrySid e ≠ u.sid := by
      intro u hu e he
      obtain rfl := List.mem_singleton.mp he
      exact (hne u hu).symm
    refine ⟨hconv,hset.trans h.setup,⟨table,as,hr⟩,?_,?_,h.calls,fun v j hj => ?_,?_,?_,?_⟩
    · show lefts (s.withServer srv).log = srv.log
      rw [hwith, lefts_append, lefts_inl, h.server]
      exact hlog.symm
    · show rights (s.withServer srv).log = s.users.log
      rw [hwith, rights_append, rights_inl, List.append_nil]
      exact h.handler
    · rcases Heaps.update_cases hj with ⟨-,hx⟩ | ⟨hvw,hj⟩
      · simp at hx
      · obtain ⟨u,hu,hrun'⟩ := h.busy v j hj
        exact ⟨u,hu,svc_running hn hvw hrun'⟩
    · show ∀ u ∈ (view srv).requests, _
      rw [hv]
      intro u hu
      have hmem : u ∈ rest+(view s.srv).responses := Multiset.mem_add.mpr (Or.inl hu)
      obtain ⟨o,hask',ho⟩ := old_asking h (held ▸ mem_snoc.mpr (Or.inl hu)) (hes u hmem)
      refine ⟨o,hwith ▸ hask',fun j => (Iff.trans ?_ (ho j))⟩
      -- the worker that is done was in no call for another session
      constructor
      · rintro ⟨v,ev,hj,hi⟩
        rcases Heaps.update_cases hj with ⟨-,hx⟩ | ⟨-,hj⟩
        · simp at hx
        · exact ⟨v,ev,hj,hi⟩
      · rintro ⟨v,ev,hj,hi⟩
        have hvw : v ≠ w := by
          rintro rfl
          obtain rfl := Option.some.inj (hj.symm.trans hw)
          obtain rfl := Option.some.inj (hi.symm.trans ht)
          exact hne u hmem rfl
        exact ⟨v,ev,(Function.update_of_ne hvw _ _).trans hj,hi⟩
    · show ∀ u ∈ (view srv).responses, Answering u (s.withServer srv).log
      rw [hv, hwith]
      intro u hu
      rcases mem_snoc.mp hu with hu | rfl
      · exact old_answering h hu (hes u (Multiset.mem_add.mpr (Or.inr hu)))
      · exact ⟨t'.ev,s.log,[],rfl,by simp [Quiet]⟩
    · show Historic (Sound pb s.served) (s.withServer srv).log
      rw [hwith]
      obtain ⟨before,after,hb,hs⟩ := hask
      refine historic_snoc h.sound ⟨i,before,after,hb,hs,r,?_,hr'⟩
      rw [← own_after hb hs, h.handler]
      exact hcomp

/-- Every step of the platform keeps the chronicle. -/
theorem next_chronicled {s' : State} {act : Action} (h : Chronicled pb hd s)
    (hg : Reuses s act) (hn : (machine pb).Next s act s') : Chronicled pb hd s' := by
  cases next_moved hn with
  | net other next => exact net_chronicled h hg other next
  | handle at_ idle next => exact handle_chronicled h at_ idle next
  | advance busy next => exact advance_chronicled h busy next
  | finish busy done next => exact finish_chronicled h busy done next
  | skip at_ idle nobody next => exact (never_skips h at_ nobody).elim

theorem start_chronicled (pb : Protobuf) (hd : Handler) (threads : ℕ) (maxQueue : ℤ)
    (table : UserService.UserInfo) :
    Chronicled pb hd (State.start hd threads maxQueue table) := by
  have hconv := start_conversing pb (mainSubscribers hd) threads maxQueue
  have hempty := start_empty (mainSubscribers hd) threads maxQueue
  have hnone : ∀ t, t ∉ (view (State.start hd threads maxQueue table).srv).inFlight := by
    intro t ht
    rw [show (view (State.start hd threads maxQueue table).srv).inFlight = 0 from hempty] at ht
    simp at ht
  exact ⟨hconv,rfl,⟨table,[],.nil⟩,rfl,rfl,rfl,by simp [State.start],
    fun t ht => absurd (request_in ht) (hnone t),fun t ht => absurd (response_in ht) (hnone t),
    historic_nil⟩

theorem run_chronicled {threads : ℕ} {maxQueue : ℤ} {table : UserService.UserInfo}
    {as : List Action}
    (hr : (machine pb).Run Reuses (State.start hd threads maxQueue table) as s) :
    Chronicled pb hd s :=
  hr.invariant (start_chronicled pb hd threads maxQueue table)
    (fun _ _ _ hi hg hn => next_chronicled hi hg hn)

end SharedBike.ChronicleSteps
