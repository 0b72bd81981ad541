import SharedBike.PooledProgress
import SharedBike.EndToEnd
import SharedBike.DrainLoop

/-!
# Every accepted request is answered in the end

While anything is in flight some useful step is possible: a call that waits for the
mutex of the handler waits for a call that another worker is in, and when all workers
sleep on a queue with a task, the pool has woken one. If requests find room in the task
queue and connections stay up while they wait, no step faults that needs nothing from
the network, and the useful ones end with every session answered.
-/

set_option autoImplicit false

namespace SharedBike.Quiescence
open GuardedRuns Slots
open SharedBike.Globals SharedBike.BikeProtocol SharedBike.Events SharedBike.DispatchMsgService
open SharedBike.NetworkInterface SharedBike.ConnectionFraming
open SharedBike.Server (Work Worker)
open SharedBike.UserEventHandler (Point)
open SharedBike.ServerView SharedBike.ServerInvariant SharedBike.CallHistory
open SharedBike.Conversations SharedBike.Platform SharedBike.Chronicles SharedBike.ChronicleSteps
open SharedBike.Progress

variable {pb : Protobuf} {hd : Handler} {s : State} {threads : ℕ}

/-- No worker is lost, and each call that has not returned has one in it. -/
structure Staffed (threads : ℕ) (s : State) : Prop where
  workers : s.srv.workers.length = threads
  manned : ∀ i ev p, s.users.calls[i]? = some ⟨ev, p⟩ →
    (∃ w, s.calling w = some i) ∨ ∃ rsp, p = .returned rsp

theorem net_length {srv r : Server.State} {act : Server.Action}
    (other : ∀ w answer, act ≠ .svc w answer) (hn : (Server.machine pb).Next r act srv) :
    srv.workers.length = r.workers.length := by
  rcases next_workers other hn with he | ⟨w,x,y,-,-,he⟩
  · rw [he]
  · rw [he, List.length_set]

theorem next_staffed {u : State} {act : Action} (h : Staffed threads s)
    (hc : Chronicled pb hd s) (hn : (machine pb).Next s act u) : Staffed threads u := by
  cases next_moved hn with
  | net other next => exact ⟨(net_length other next).trans h.workers,h.manned⟩
  | skip at_ idle nobody next => exact (never_skips hc at_ nobody).elim
  | @handle w t users at_ idle next =>
    rcases UserEventHandler.next_cases next with ⟨ev,p,hact,hp,rfl⟩ | ⟨i,env,ev,p,q,v,hx,-,-,-⟩
    swap
    · simp at hx
    refine ⟨h.workers,fun i ev' p' hcall => ?_⟩
    rcases Nat.lt_or_ge i s.users.calls.length with hi | hi
    · rcases h.manned i ev' p' (by
        simpa [State.enterCall, State.withUsers, List.getElem?_append_left hi] using hcall) with
        ⟨v,hv⟩ | hdone
      · have hvw : v ≠ w := by
          rintro rfl
          rw [idle] at hv
          simp at hv
        exact Or.inl ⟨v,(Function.update_of_ne hvw _ _).trans hv⟩
      · exact Or.inr hdone
    · obtain rfl : i = s.users.calls.length := by
        have := (List.getElem?_eq_some_iff.mp hcall).1
        simp [State.enterCall, State.withUsers] at this
        omega
      exact Or.inl ⟨w,Function.update_self _ _ _⟩
  | @advance w i env users busy next =>
    rcases UserEventHandler.next_cases next with
      ⟨ev,p,hx,-,-⟩ | ⟨i',env',ev,p,q,v,hact,hcall,hm,rfl⟩
    · simp at hx
    obtain ⟨rfl,-⟩ := UserEventHandler.Action.advance.inj hact
    refine ⟨h.workers,fun j ev' p' hj => ?_⟩
    by_cases hij : j = i
    · exact Or.inl ⟨w,hij ▸ busy⟩
    · have hlen : i < v.calls.length := by
        rw [UserEventHandler.moves_calls hm]
        exact (List.getElem?_eq_some_iff.mp hcall).1
      refine h.manned j ev' p' ?_
      rw [← UserEventHandler.moves_calls hm, ← hj]
      exact ((goto_calls hlen).trans (if_neg hij)).symm
  | @finish w i ev rsp srv busy done next =>
    obtain ⟨-,-,-,y,hset,-⟩ := svc_places next
    refine ⟨?_,fun j ev' p' hj => ?_⟩
    · show srv.workers.length = threads
      rw [hset, List.length_set]
      exact h.workers
    · rcases h.manned j ev' p' hj with ⟨v,hv⟩ | hdone
      · by_cases hvw : v = w
        · subst hvw
          obtain rfl := Option.some.inj (hv.symm.trans busy)
          exact Or.inr ⟨rsp,(UserEventHandler.Call.mk.inj (Option.some.inj (hj.symm.trans done))).2⟩
        · exact Or.inl ⟨v,(Function.update_of_ne hvw _ _).trans hv⟩
      · exact Or.inr hdone

theorem start_staffed (hd : Handler) (threads : ℕ) (maxQueue : ℤ) (table : UserService.UserInfo) :
    Staffed threads (State.start hd threads maxQueue table) :=
  ⟨List.length_replicate,fun i ev p h => by simp [State.start, UserEventHandler.State.start] at h⟩

/-- A step of a thread that is awake, and not for nothing. -/
def Awake (s : State) : Action → Prop
  | .net (.accept _) => False
  | .net (.arrive _ _) => False
  | .net (.handleError _) => False
  | .net (.wake _) => False
  | .net .drain => s.srv.responseEvents ≠ []
  | _ => True

/-- Some thread that is awake can step, if only to fault. -/
def Enabled (pb : Protobuf) (s : State) : Prop :=
  ∃ act, Awake s act ∧ (machine pb).step s act ≠ none

theorem mapped_some {σ τ : Type} {x : Option (Except Fault σ)} {f : σ → τ} (h : x ≠ none) :
    (x.map fun r => r.map f) ≠ none := by
  rwa [ne_eq, Option.map_eq_none_iff]

/-- The points at which a call takes the mutex. -/
def Locking : Point → Prop
  | .storeLock _ _ => True
  | .verifyLock _ _ => True
  | _ => False

theorem advance_enabled {u : UserEventHandler.State} {i : ℕ} {ev : IEvent} {p : Point}
    (env : UserEventHandler.Environment) (hp : ∀ rsp, p ≠ .returned rsp)
    (hlock : Locking p → u.pm = none) : UserEventHandler.advance u i ev env p ≠ none := by
  cases p with
  | returned rsp => exact absurd rfl (hp rsp)
  | storeLock m c => simp [UserEventHandler.advance, hlock trivial]
  | verifyLock m c => simp [UserEventHandler.advance, hlock trivial]
  | _ => simp [UserEventHandler.advance]

theorem call_enabled {w i : ℕ} {ev : IEvent} {p : Point} (hw : s.calling w = some i)
    (hcall : s.users.calls[i]? = some ⟨ev, p⟩) (hp : ∀ rsp, p ≠ .returned rsp)
    (hlock : Locking p → s.users.pm = none) : Enabled pb s := by
  refine ⟨.advance w (EndToEnd.up 0),trivial,?_⟩
  simp only [machine, step, hw]
  apply mapped_some
  simp only [UserEventHandler.step, hcall]
  exact advance_enabled _ hp hlock

/-- The holder of the mutex can move, and some worker is in it. -/
theorem holder_enabled (h : Chronicled pb hd s) (hst : Staffed threads s) {i : ℕ}
    (hpm : s.users.pm = some i) : Enabled pb s := by
  obtain ⟨ho,-⟩ := EndToEnd.handler_orderly h
  obtain ⟨ev,p,hcall,hhold⟩ := (ho.lock i).mp hpm
  have hp : ∀ rsp, p ≠ .returned rsp := by
    rintro rsp rfl
    exact hhold
  obtain ⟨w,hw⟩ | ⟨rsp,hx⟩ := hst.manned i ev p hcall
  · refine call_enabled hw hcall hp (fun hl => ?_)
    cases p <;> first
      | exact hhold.elim
      | exact hl.elim
  · exact absurd hx (hp rsp)

theorem running_enabled (h : Chronicled pb hd s) (hst : Staffed threads s) {w : ℕ} {t : Work}
    (hrun : s.srv.workers[w]? = some (.running t)) : Enabled pb s := by
  have hsvc : ∀ answer, Server.step pb s.srv (.svc w answer) ≠ none := fun answer => by
    simp [Server.step, hrun]
  cases hw : s.calling w with
  | none =>
    refine ⟨.handle w,trivial,?_⟩
    simp only [machine, step, hrun, hw]
    split
    · exact mapped_some (hsvc _)
    · exact mapped_some (by simp [UserEventHandler.step])
  | some i =>
    obtain ⟨u,hu,-⟩ := h.busy w i hw
    have hlt : i < s.users.calls.length := by
      rw [calls_length h]
      exact (List.getElem?_eq_some_iff.mp hu).1
    obtain ⟨ev,p,hcall⟩ : ∃ ev p, s.users.calls[i]? = some ⟨ev, p⟩ :=
      ⟨_,_,List.getElem?_eq_getElem hlt⟩
    by_cases hp : ∃ rsp, p = .returned rsp
    · obtain ⟨rsp,rfl⟩ := hp
      refine ⟨.finish w,trivial,?_⟩
      simp only [machine, step, hw, hcall]
      exact mapped_some (hsvc _)
    · cases hpm : s.users.pm with
      | none => exact call_enabled hw hcall (fun rsp hx => hp ⟨rsp,hx⟩) (fun _ => hpm)
      | some j => exact holder_enabled h hst hpm

/-- While anything is in flight, something can be done about it, unless all workers
sleep. -/
theorem work_enabled (h : Chronicled pb hd s) (hst : Staffed threads s)
    (hf : s.srv.inFlight ≠ 0) :
    Enabled pb s ∨ (s.srv.tp.queue ≠ [] ∧ ∀ x ∈ s.srv.workers, x = .blocked) := by
  by_cases hr : s.srv.responseEvents = []
  swap
  · left
    by_cases hdr : s.srv.draining = true
    · refine ⟨.net .handleResponse,trivial,?_⟩
      simp only [machine, step]
      exact mapped_some (DrainLoop.iteration_enabled pb hdr)
    · refine ⟨.net .drain,hr,?_⟩
      simp only [machine, step]
      exact mapped_some (by simp [Server.step, hdr])
  by_cases hw : ∃ (w : ℕ) (t : Work), s.srv.workers[w]? = some (.running t)
  · obtain ⟨w,t,hw⟩ := hw
    exact Or.inl (running_enabled h hst hw)
  by_cases hp : ∃ (w : ℕ) (t : Work), s.srv.workers[w]? = some (.pushing t)
  · obtain ⟨w,t,hp⟩ := hp
    refine Or.inl ⟨.net (.push w),trivial,?_⟩
    simp only [machine, step]
    exact mapped_some (by simp [Server.step, hp])
  by_cases hi : ∃ w : ℕ, s.srv.workers[w]? = some .idle
  · obtain ⟨w,hi⟩ := hi
    refine Or.inl ⟨.net (.enter w),trivial,?_⟩
    simp only [machine, step]
    exact mapped_some (by simp [Server.step, hi])
  -- no worker has an item, so the queue does
  have hall : ∀ x ∈ s.srv.workers, x = .blocked := by
    intro x hx
    obtain ⟨w,hw'⟩ := List.mem_iff_getElem?.mp hx
    cases x with
    | idle => exact absurd ⟨w,hw'⟩ hi
    | blocked => rfl
    | running t => exact absurd ⟨w,t,hw'⟩ hw
    | pushing t => exact absurd ⟨w,t,hw'⟩ hp
  have hzero : ∀ f : Worker → Multiset Work, f .blocked = 0 → total f s.srv.workers = 0 := by
    intro f hblocked
    refine List.sum_eq_zero fun m hm => ?_
    obtain ⟨x,hx,rfl⟩ := List.mem_map.mp hm
    rw [hall x hx]
    exact hblocked
  refine Or.inr ⟨fun hq => hf ?_,hall⟩
  simp [Server.State.inFlight, Server.State.requests, Server.State.responses, hq, hr,
    hzero Worker.requests rfl, hzero Worker.responses rfl]

/-- Both statements for the mobile of the event fit their buffer. -/
def Fits (ev : IEvent) : Prop :=
  ∀ m c, LoginAttempt ev m c → (UserService.insertSql m).length+1 ≤ UserService.sqlContentLen

/-- Requests find room in the task queue and mobiles fit the statement buffer;
an address is reused, and a connection lost, only when no item points at it. -/
structure Tended (pb : Protobuf) (s : State) (act : Action) : Prop where
  reuse : Reuses s act
  room : ∀ a bytes c ev, act = .net (.arrive a bytes) → s.srv.conns a = some c →
    c.cs.sessionStat = .ssRequest → Carries pb c bytes ev → ¬ Full s.srv ∧ Fits ev
  held : ∀ a, act = .net (.handleError a) → ∀ t ∈ s.srv.inFlight, t.ev.args ≠ some a

/-- Each item has its session, and each session that waits has its item. -/
structure Kept (pb : Protobuf) (v : View) : Prop where
  alive : ∀ t ∈ v.inFlight, ∀ a, t.ev.args = some a → ∃ c, v.conns a = some c
  fits : ∀ t ∈ v.requests, Fits t.ev
  waiting : ∀ sid, (exchange v.log sid).Idle pb ∨ ∃ t ∈ v.inFlight, t.sid = sid

theorem alive_update {conns : Heap} {items : Multiset Work} {a : Addr} {c : Option Conn}
    (h : ∀ t ∈ items, ∀ b, t.ev.args = some b → ∃ d, conns b = some d)
    (hc : c = none → ∀ t ∈ items, t.ev.args ≠ some a) :
    ∀ t ∈ items, ∀ b, t.ev.args = some b → ∃ d, Function.update conns a c b = some d := by
  intro t ht b hb
  by_cases hba : b = a
  · subst hba
    rw [Function.update_self]
    cases c with
    | none => exact absurd hb (hc rfl t ht)
    | some d => exact ⟨d,rfl⟩
  · rw [Function.update_of_ne hba]
    exact h t ht b hb

/-- An entry about one session changes what is waited for on that session only. -/
theorem waiting_entry {v v' : View} {e : Server.Entry}
    (h : ∀ sid, (exchange v.log sid).Idle pb ∨ ∃ t ∈ v.inFlight, t.sid = sid)
    (hlog : v'.log = v.log++[e])
    (hold : ∀ t ∈ v.inFlight, t.sid ≠ entrySid e → ∃ u ∈ v'.inFlight, u.sid = t.sid)
    (hown : (exchange v'.log (entrySid e)).Idle pb ∨ ∃ u ∈ v'.inFlight, u.sid = entrySid e) :
    ∀ sid, (exchange v'.log sid).Idle pb ∨ ∃ t ∈ v'.inFlight, t.sid = sid := by
  intro sid
  by_cases hs : entrySid e = sid
  · exact hs ▸ hown
  · rw [hlog, exchange_other _ hs]
    rcases h sid with hidle | ⟨t,ht,rfl⟩
    · exact Or.inl hidle
    · exact Or.inr (hold t ht (Ne.symm hs))

/-- A response in flight was answered, and so has a frame. -/
theorem response_frame (h : Conversing pb (view s.srv)) {t : Work}
    (ht : t ∈ (view s.srv).responses) : HasFrame t.ev := by
  obtain ⟨-,earlier,req,hans,-⟩ := h.ready t ht
  have hfit := h.kinds t.sid (req, t.ev) (by rw [hans]; simp)
  cases hfit with
  | code m icode request response =>
    have hev : t.ev = _ := response
    rw [hev]
    exact Or.inl rfl
  | login m icode e request response =>
    have hev : t.ev = _ := response
    rw [hev]
    exact Or.inr rfl

/-- What a step of the server keeps. -/
theorem step_kept {act : Server.Action} {v' : View}
    (hs : ViewStep pb s.srv (view s.srv) act v') (h : Kept pb (view s.srv))
    (hc : Conversing pb (view s.srv)) (hopen : s.srv.svrExit = false)
    (hg : Tended pb s (.net act)) : Kept pb v' := by
  have htidy := hc.toTidy
  cases hs with
  | accept a free =>
    refine ⟨alive_update h.alive (by simp),h.fits,fun sid => ?_⟩
    rw [exchange_accepted]
    exact h.waiting sid
  | keep conn kept => exact ⟨alive_update h.alive (by simp),h.fits,h.waiting⟩
  | @dispatch a bytes c c' ev conn sent room =>
    obtain ⟨f,hf,-,req,hparse,hev⟩ := sent.call
    have hin : ∀ t, t ∈ (view s.srv).inFlight ∨ t = ⟨ev, c.sid⟩ →
        t ∈ (view s.srv).requests+{⟨ev, c.sid⟩}+(view s.srv).responses := by
      intro t ht
      rw [add_right_comm, Multiset.mem_add, Multiset.mem_singleton]
      exact ht
    refine ⟨fun t ht => ?_,fun t ht => ?_,?_⟩
    · have ht : t ∈ (view s.srv).requests+{⟨ev, c.sid⟩}+(view s.srv).responses := ht
      rw [add_right_comm, Multiset.mem_add, Multiset.mem_singleton] at ht
      rcases ht with ht | rfl
      · exact alive_update h.alive (by simp) t ht
      · intro b hb
        have hba : a = b := by
          rw [hev] at hb
          exact Option.some.inj hb
        exact ⟨c',hba ▸ Function.update_self _ _ _⟩
    · rcases mem_snoc.mp ht with ht | rfl
      · exact h.fits t ht
      · have hfit := (hg.room a bytes c req rfl conn sent.before ⟨f,_,hf,hparse⟩).2
        intro m icode hl
        refine hfit m icode ?_
        obtain ⟨h1,h2⟩ := hl
        have hev' : (⟨ev, c.sid⟩ : Work).ev = req.setArgs (some a) := hev
        rw [hev'] at h1 h2
        exact ⟨h1,h2⟩
    · exact waiting_entry h.waiting rfl (fun t ht _ => ⟨t,hin t (Or.inl ht),rfl⟩)
        (Or.inr ⟨_,hin _ (Or.inr rfl),rfl⟩)
  | @refuse a bytes c c' ev conn sent full =>
    obtain ⟨f,hf,-,req,hparse,-⟩ := sent.call
    exact absurd full (hg.room a bytes c req rfl conn sent.before ⟨f,_,hf,hparse⟩).1
  | close conn reading nothing =>
    exact ⟨alive_update h.alive fun _ t ht => (reading_unreferenced htidy conn reading ht).1,
      h.fits,h.waiting⟩
  | handleError a => exact ⟨alive_update h.alive fun _ => hg.held a rfl,h.fits,h.waiting⟩
  | still internal => exact h
  | @answer w answer t rsp rest at_ held computed =>
    have hargs := svc_args computed
    have hsplit := requests_split held
    refine ⟨fun u hu b hb => ?_,fun u hu => h.fits u (held ▸ mem_snoc.mpr (Or.inl hu)),
      waiting_entry h.waiting rfl (fun u hu hne => ⟨u,?_,rfl⟩)
        (Or.inr ⟨⟨rsp, t.sid⟩,?_,rfl⟩)⟩
    · rcases Multiset.mem_add.mp hu with hu | hu
      · exact h.alive u (hsplit ▸ mem_snoc.mpr (Or.inl (Multiset.mem_add.mpr (Or.inl hu)))) b hb
      · rcases mem_snoc.mp hu with hu | rfl
        · exact h.alive u (response_in hu) b hb
        · exact h.alive t (hsplit ▸ mem_snoc.mpr (Or.inr rfl)) b (hargs.symm.trans hb)
    · have hu : u ∈ (view s.srv).inFlight := hu
      rw [hsplit] at hu
      rcases mem_snoc.mp hu with hu | rfl
      · rcases Multiset.mem_add.mp hu with hu | hu
        · exact Multiset.mem_add.mpr (Or.inl hu)
        · exact Multiset.mem_add.mpr (Or.inr (mem_snoc.mpr (Or.inl hu)))
      · exact absurd rfl hne
    · exact Multiset.mem_add.mpr (Or.inr (mem_snoc.mpr (Or.inr rfl)))
  | abandon held closed => rw [hopen] at closed; simp at closed
  | @reply t a c rest held args conn framed =>
    have hsplit := in_flight_split held
    have ht : t ∈ (view s.srv).responses := held ▸ mem_snoc.mpr (Or.inr rfl)
    have hsid := (owned_sid htidy (response_in ht) args conn).1
    refine ⟨alive_update (fun u hu => h.alive u (hsplit ▸ mem_snoc.mpr (Or.inl hu))) (by simp),
      h.fits,waiting_entry h.waiting rfl (fun u hu hne => ⟨u,?_,rfl⟩) (Or.inl ?_)⟩
    · rw [hsplit] at hu
      rcases mem_snoc.mp hu with hu | rfl
      · exact hu
      · exact absurd hsid.symm hne
    · exact exchange_wrote (hsid ▸ hc.ready t ht)
  | @drop t rest head held unknown =>
    exact absurd (Or.inl (response_frame hc (held ▸ mem_snoc.mpr (Or.inr rfl)))) unknown

theorem unprompted_tended {act : Action} (hg : Unprompted act) : Tended pb s act where
  reuse := unprompted_reuses hg
  room a bytes c ev ha := by subst ha; exact hg.elim
  held a ha := by subst ha; exact hg.elim

theorem next_kept {u : State} {act : Action} (h : Kept pb (view s.srv)) (hc : Chronicled pb hd s)
    (hg : Tended pb s act) (hn : (machine pb).Next s act u) : Kept pb (view u.srv) := by
  have hopen := (Prod.mk.inj hc.setup).1
  cases next_moved hn with
  | net other next =>
    exact step_kept (next_view hc.conversing.readable next) h hc.conversing hopen hg
  | handle at_ idle next => exact h
  | advance busy next => exact h
  | finish busy done next =>
    exact step_kept (next_view hc.conversing.readable next) h hc.conversing hopen
      ⟨fun a hx => by simp at hx,fun a bytes c ev hx => by simp at hx,fun a hx => by simp at hx⟩
  | skip at_ idle nobody next => exact (never_skips hc at_ nobody).elim

theorem start_kept (pb : Protobuf) (hd : Handler) (threads : ℕ) (maxQueue : ℤ)
    (table : UserService.UserInfo) :
    Kept pb (view (State.start hd threads maxQueue table).srv) := by
  have hnone : ∀ t, t ∉ (view (State.start hd threads maxQueue table).srv).inFlight := by
    intro t ht
    rw [show (view (State.start hd threads maxQueue table).srv).inFlight = 0 from
      start_empty _ _ _] at ht
    simp at ht
  exact ⟨fun t ht => absurd ht (hnone t),fun t ht => absurd (request_in ht) (hnone t),
    fun sid => Or.inl ⟨rfl,rfl⟩⟩

theorem mapped_fault {σ τ : Type} {x : Option (Except Fault σ)} {f : σ → τ} {e : Fault}
    (h : (x.map fun r => r.map f) = some (.error e)) : x = some (.error e) := by
  obtain ⟨r,rfl,hx⟩ := Option.map_eq_some_iff.mp h
  cases r with
  | error e' => obtain rfl := Except.error.inj hx; rfl
  | ok u => simp [Except.map] at hx

theorem session_alive (h : Conversing pb (view s.srv)) (hk : Kept pb (view s.srv)) {t : Work}
    (ht : t ∈ (view s.srv).inFlight) : ∃ c, s.srv.session t.ev = .ok c := by
  obtain ⟨a,ha,-⟩ := h.owned t ht
  obtain ⟨c,hc⟩ := hk.alive t ht a ha
  exact ⟨c,by simp only [Server.State.session, ha, show s.srv.conns a = some c from hc]⟩

theorem net_safe {act : Server.Action} {f : Fault} (h : Conversing pb (view s.srv))
    (hk : Kept pb (view s.srv)) (hg : Unprompted (.net act)) :
    Server.step pb s.srv act ≠ some (.error f) := by
  intro hf
  cases act with
  | accept a => exact hg.elim
  | arrive a bytes => exact hg.elim
  | handleError a => exact hg.elim
  | enter w => simp only [Server.step] at hf; split at hf <;> simp at hf
  | wake w => simp only [Server.step] at hf; split at hf <;> simp at hf
  | svc w answer => simp only [Server.step] at hf; split at hf <;> simp at hf
  | push w => simp only [Server.step] at hf; split at hf <;> simp at hf
  | drain => simp only [Server.step] at hf; split at hf <;> simp at hf
  | handleResponse =>
    simp only [Server.step] at hf
    split at hf
    · split at hf
      · simp at hf
      · rename_i t rest hq
        have ht : t ∈ (view s.srv).responses := by
          simp only [view, Server.State.responses, hq]
          exact Multiset.mem_add.mpr (Or.inr (by simp))
        obtain ⟨c,hc⟩ := session_alive h hk (response_in ht)
        rw [hc, show Except.map Conn.cs (.ok c : Except Fault Conn) = .ok c.cs from rfl,
          handle_response_frame pb (response_frame h ht)] at hf
        simp at hf
    · simp at hf

/-- A call whose mobile fits the statement buffer makes no fault. -/
theorem advance_safe {u : UserEventHandler.State} {i : ℕ} {ev : IEvent} {p : Point}
    {env : UserEventHandler.Environment} {f : Fault} {log : List UserEventHandler.Entry}
    (hp : Follows i ev log p) (hfit : Fits ev) :
    UserEventHandler.advance u i ev env p ≠ some (.error f) := by
  have hlen := UserService.exist_sql_length
  have hlen' := UserService.insert_sql_length
  intro hf
  cases p with
  | exist m c =>
    simp only [UserEventHandler.advance, Option.some.injEq] at hf
    split at hf <;> simp at hf
    rename_i hx
    have hmax := (UserService.exist_error.mp hx).2
    have hle := hfit m c hp.1
    rw [hlen] at hmax
    rw [hlen'] at hle
    omega
  | insert m c =>
    simp only [UserEventHandler.advance, Option.some.injEq] at hf
    split at hf <;> simp at hf
    rename_i hx
    have hmax := (UserService.insert_error.mp hx).2
    have hle := hfit m c hp.1
    omega
  | storeLock m c => simp only [UserEventHandler.advance] at hf; split at hf <;> simp at hf
  | verifyLock m c => simp only [UserEventHandler.advance] at hf; split at hf <;> simp at hf
  | init m c =>
    simp only [UserEventHandler.advance, Option.some.injEq] at hf
    split at hf <;> simp at hf
  | verifyUnlock m c loginEv => cases loginEv <;> simp [UserEventHandler.advance] at hf
  | _ => simp [UserEventHandler.advance] at hf

theorem request_handled {ev : IEvent} (h : Request ev) :
    ∃ p, UserEventHandler.handle ev = .ok p := by
  rcases h with ⟨m,heid,hmsg⟩ | ⟨m,c,heid,hmsg⟩
  · exact ⟨.codeGen m,by rw [UserEventHandler.handle, if_pos heid, hmsg]⟩
  · refine ⟨.verifyLock m c,?_⟩
    rw [UserEventHandler.handle, if_neg (by rw [heid]; decide), if_pos heid, hmsg]

/-- No unprompted step is a fault while each item has its session and each mobile fits. -/
theorem unprompted_safe {act : Action} {f : Fault} (h : Chronicled pb hd s)
    (hk : Kept pb (view s.srv)) (hg : Unprompted act) : ¬ (machine pb).Fails s act f := by
  intro hf
  simp only [Machine.Fails, machine, step] at hf
  cases act with
  | net act =>
    cases act with
    | svc w answer => simp at hf
    | _ => exact net_safe h.conversing hk hg (mapped_fault hf)
  | handle w =>
    simp only at hf
    split at hf
    · rename_i t hrun hidle
      split at hf
      · rename_i hnobody
        exact never_skips h hrun hnobody
      · have hx := mapped_fault hf
        obtain ⟨p,hp⟩ := request_handled (h.conversing.asks t (running_request hrun))
        simp [UserEventHandler.step, hp] at hx
    · simp at hf
  | advance w env =>
    simp only at hf
    split at hf
    · rename_i i hw
      have hx := mapped_fault hf
      simp only [UserEventHandler.step] at hx
      split at hx
      · rename_i call hcall
        obtain ⟨t,ht,hrun,-⟩ := busy_asking h hw
        obtain ⟨ho,-⟩ := EndToEnd.handler_orderly h
        have hev := served_call h ht hcall
        exact advance_safe (ho.path i call.ev call.point hcall)
          (hev ▸ hk.fits t (running_request hrun)) hx
      · simp at hx
    · simp at hf
  | finish w =>
    simp only at hf
    split at hf
    · split at hf
      · have hx := mapped_fault hf
        simp only [Server.step] at hx
        split at hx <;> simp at hx
      · simp at hf
    · simp at hf

section Pooled

open SharedBike.PooledPlatform (OnPlatform Pooled platformPart next_stepped next_keeps start_pooled
  step_next pooled_faults)
open SharedBike.PooledProgress

variable {r : PooledPlatform.State} {act : PooledPlatform.Action}

theorem undisturbed_tended (hg : Undisturbed r act) : OnPlatform (Tended pb) r act := by
  cases act with
  | step a n woken => exact unprompted_tended hg.1
  | poll => exact unprompted_tended trivial
  | spurious w => trivial

theorem tended_reuses (hg : OnPlatform (Tended pb) r act) : OnPlatform Reuses r act := by
  cases act with
  | spurious w => trivial
  | _ => exact hg.reuse

/-- The platform and its pool in a run: nothing is lost, and the two agree. -/
structure Going (pb : Protobuf) (hd : Handler) (threads : ℕ) (r : PooledPlatform.State) : Prop where
  chronicled : Chronicled pb hd r.1
  staffed : Staffed threads r.1
  pooled : Pooled r

theorem start_going (pb : Protobuf) (hd : Handler) (threads : ℕ) (maxQueue : ℤ)
    (table : UserService.UserInfo) :
    Going pb hd threads (PooledPlatform.start hd threads maxQueue table) :=
  ⟨start_chronicled pb hd threads maxQueue table,start_staffed hd threads maxQueue table,
    start_pooled hd threads maxQueue table⟩

theorem next_going {r u : PooledPlatform.State} {act : PooledPlatform.Action}
    (h : Going pb hd threads r) (hg : OnPlatform Reuses r act)
    (hn : (PooledPlatform.machine pb).Next r act u) : Going pb hd threads u := by
  obtain ⟨⟨hc,hst⟩,hp⟩ := next_keeps (I := fun s => Chronicled pb hd s ∧ Staffed threads s)
    ⟨⟨h.chronicled,h.staffed⟩,h.pooled⟩ hg hn
    fun _ _ _ hi hg hn => ⟨next_chronicled hi.1 hg hn,next_staffed hi.2 hi.1 hn⟩
  exact ⟨hc,hst,hp⟩

/-- The load bounds the useful steps of an undisturbed run, but for one for each idle step. -/
theorem undisturbed_run {r t : PooledPlatform.State} {bs : List PooledPlatform.Action}
    (h : Going pb hd threads r) (hb : (PooledPlatform.machine pb).Run Undisturbed r bs t) :
    Going pb hd threads t ∧ bs.countP (!idle ·)+load t ≤ load r+bs.countP idle := by
  have hstep : ∀ r act u, Going pb hd threads r → Undisturbed r act →
      (PooledPlatform.machine pb).Next r act u → Going pb hd threads u ∧
        (!idle act).toNat+load u ≤ load r+(idle act).toNat := fun _ _ _ hi hg hn =>
    have ht : OnPlatform (Tended pb) _ _ := undisturbed_tended hg
    ⟨next_going hi (tended_reuses ht) hn,next_load hi.chronicled hi.pooled hg hn⟩
  obtain ⟨ht,hle⟩ := hb.balanced h hstep
  rw [countP_eq_total, countP_eq_total]
  exact ⟨ht,hle⟩

theorem going_load (h : Going pb hd threads r) :
    load r ≤ 14*r.1.srv.inFlight.card+threads+2 :=
  h.staffed.workers ▸ load_le h.pooled

/-- Moreover each item keeps its session. -/
structure Cared (pb : Protobuf) (hd : Handler) (threads : ℕ) (r : PooledPlatform.State) : Prop
    extends Going pb hd threads r where
  kept : Kept pb (view r.1.srv)

theorem next_cared {r u : PooledPlatform.State} {act : PooledPlatform.Action}
    (h : Cared pb hd threads r) (hg : OnPlatform (Tended pb) r act)
    (hn : (PooledPlatform.machine pb).Next r act u) :
    Cared pb hd threads u := by
  obtain ⟨⟨hc,hk⟩,-⟩ := next_keeps (I := fun s => Chronicled pb hd s ∧ Kept pb (view s.srv))
    ⟨⟨h.chronicled,h.kept⟩,h.pooled⟩ hg hn
    fun _ _ _ hi hg hn => ⟨next_chronicled hi.1 hg.reuse hn,next_kept hi.2 hi.1 hg hn⟩
  exact ⟨next_going h.toGoing (tended_reuses hg) hn,hk⟩

theorem run_cared {maxQueue : ℤ} {table : UserService.UserInfo}
    {as : List PooledPlatform.Action}
    (hr : (PooledPlatform.machine pb).Run (OnPlatform (Tended pb))
      (PooledPlatform.start hd threads maxQueue table) as r) :
    Cared pb hd threads r :=
  hr.invariant ⟨start_going pb hd threads maxQueue table,start_kept pb hd threads maxQueue table⟩
    fun _ _ _ => next_cared

theorem undisturbed_run_cared {t : PooledPlatform.State} {bs : List PooledPlatform.Action}
    (h : Cared pb hd threads r)
    (hb : (PooledPlatform.machine pb).Run Undisturbed r bs t) :
    Cared pb hd threads t :=
  hb.invariant h fun _ _ _ hi hg hn => next_cared hi (undisturbed_tended hg) hn

theorem undisturbed_safe {f : Fault ⊕ PoolMachine.Fault} (h : Cared pb hd threads r)
    (hg : Undisturbed r act) :
    ¬ (PooledPlatform.machine pb).Fails r act f := by
  have hone : ∀ {a e}, Unprompted a →
      (machine pb).steps r.1 [a] ≠ some (.error e) := by
    intro a e hu hf
    simp only [Machine.steps] at hf
    split at hf
    · simp at hf
    · exact unprompted_safe h.chronicled h.kept hu hf
  intro hf
  obtain ⟨e,-,he⟩ := pooled_faults h.pooled hf
  cases act with
  | step a n woken => exact hone hg.1 he
  | poll => exact hone (a := .net .drain) trivial he
  | spurious w => simp [platformPart, Machine.steps] at he

/-- While anything is in flight, something useful can be done. -/
theorem useful_possible (h : Cared pb hd threads r) (hn : 0 < threads)
    (hf : r.1.srv.inFlight ≠ 0) :
    ∃ act u, Useful r act ∧ (PooledPlatform.machine pb).Next r act u := by
  rcases work_enabled h.chronicled h.staffed hf with ⟨a,hawake,hx⟩ | ⟨hq,hall⟩
  · have hu : Unprompted a := by
      cases a with
      | net act => cases act <;> first
        | exact hawake.elim
        | trivial
      | _ => trivial
    have hwake : ∀ w, a ≠ .net (.wake w) := by
      rintro w rfl
      exact hawake
    have hdrain : a = .net .drain → r.1.srv.responseEvents ≠ [] := by
      rintro rfl
      exact hawake
    cases hs : (machine pb).step r.1 a with
    | none => exact absurd hs hx
    | some res =>
      cases res with
      | error f => exact absurd hs (unprompted_safe h.chronicled h.kept hu)
      | ok v =>
        obtain ⟨n,woken,q,hnext⟩ := step_next h.pooled hs fun w he => absurd he (hwake w)
        exact ⟨.step a n woken,(v, q),⟨⟨hu,hdrain⟩,rfl⟩,hnext⟩
  · have hlen : r.1.srv.workers ≠ [] := by
      rw [ne_eq, ← List.length_eq_zero_iff, h.staffed.workers]
      omega
    obtain ⟨w,hwoken,hblocked⟩ := PooledServer.woken_worker h.pooled hlen hq hall
    have hs : (machine pb).Next r.1 (.net (.wake w))
        (r.1.withServer (r.1.srv.takeTask w r.1.srv.tp)) := by
      simp [Machine.Next, machine, step, Server.step, hblocked, Except.map]
    obtain ⟨n,woken,q,hnext⟩ := step_next h.pooled hs fun v he => by
      obtain rfl := Server.Action.wake.inj (Action.net.inj he)
      simp [hwoken]
    exact ⟨.step (.net (.wake w)) n woken,(_, q),⟨⟨trivial,fun he => by simp at he⟩,rfl⟩,hnext⟩

/-- A useful step keeps all that and lowers the load. -/
theorem useful_load {r u : PooledPlatform.State} {act : PooledPlatform.Action}
    (h : Cared pb hd threads r) (hg : Useful r act)
    (hn : (PooledPlatform.machine pb).Next r act u) :
    Cared pb hd threads u ∧ load u < load r := by
  refine ⟨next_cared h (undisturbed_tended hg.1) hn,?_⟩
  have hle := next_load h.chronicled h.pooled hg.1 hn
  rw [hg.2] at hle
  simp only [Bool.not_false, Bool.toNat_true, Bool.toNat_false] at hle
  omega

end Pooled

section Results

open SharedBike.PooledPlatform (OnPlatform)
open SharedBike.PooledProgress

/-- Left alone, the platform makes at most fourteen useful steps for each item in
flight, one for each worker and two more, and one for each poll and each spurious
wake-up. If requests found room and connections stayed up while they waited, it
does not stop before nothing is in flight: until then some useful step can be made
without a fault, by a thread that is awake. -/
theorem unprompted_bounded (pb : Protobuf) (hd : Handler) (threads : ℕ) (maxQueue : ℤ)
    (table : UserService.UserInfo) (as bs : List PooledPlatform.Action)
    (s t : PooledPlatform.State)
    (hr : (PooledPlatform.machine pb).Run (OnPlatform Reuses)
      (PooledPlatform.start hd threads maxQueue table) as s)
    (hb : (PooledPlatform.machine pb).Run Undisturbed s bs t) :
    bs.countP (!idle ·) ≤ 14*s.1.srv.inFlight.card+threads+2+bs.countP idle ∧
      ((PooledPlatform.machine pb).Run (OnPlatform (Tended pb))
          (PooledPlatform.start hd threads maxQueue table) as s →
        0 < threads → t.1.srv.inFlight ≠ 0 →
        ∃ act u, Useful t act ∧ (PooledPlatform.machine pb).Next t act u) := by
  have hs : Going pb hd threads s :=
    hr.invariant (start_going pb hd threads maxQueue table) fun _ _ _ => next_going
  obtain ⟨-,hle⟩ := undisturbed_run hs hb
  have hload := going_load hs
  refine ⟨by omega,fun htended hn hf => ?_⟩
  exact useful_possible (undisturbed_run_cared (run_cared htended) hb) hn hf

/-- A worker goes to sleep, and the post of a request wakes it. -/
def oneRequest : List PooledPlatform.Action :=
  [.step (.net (.enter 0)) 0 [], .step (.net (.accept 8)) 0 [],
    .step (.net (.arrive 8 SessionLifetime.mobileFrame)) 1 [0]]

/-- The network thread polls, a sleeper looks up for nothing, and the worker that
was woken serves the request up to its push. -/
def serving : List PooledPlatform.Action :=
  [.poll, .step (.net .handleResponse) 0 [], .step (.net (.wake 0)) 0 [], .step (.handle 0) 0 [],
    .step (.net (.enter 1)) 0 [], .spurious 1, .step (.advance 0 (EndToEnd.up 7)) 0 [],
    .step (.advance 0 (EndToEnd.up 7)) 0 [], .step (.net (.wake 1)) 0 [],
    .step (.advance 0 (EndToEnd.up 7)) 0 [], .step (.advance 0 (EndToEnd.up 7)) 0 [],
    .step (.finish 0) 0 []]

theorem one_request_tended : ∃ s t,
    (PooledPlatform.machine proto2).Run (OnPlatform (Tended proto2))
      (PooledPlatform.start 0 4 65535 []) oneRequest s ∧
    (PooledPlatform.machine proto2).replay s serving = some t ∧
    s.1.srv.inFlight.card = 1 ∧ t.1.srv.inFlight.card = 1 := by
  have hquiet : ∀ (s : State) (act : Action), (∀ a, act ≠ .net (.accept a)) →
      (∀ a bytes, act ≠ .net (.arrive a bytes)) → (∀ a, act ≠ .net (.handleError a)) →
      Tended proto2 s act := fun s act h1 h2 h3 =>
    ⟨fun a hx => absurd hx (h1 a),fun a bytes c ev hx => absurd hx (h2 a bytes),
      fun a hx => absurd hx (h3 a)⟩
  refine ⟨_,_,.cons (hquiet _ _ (by simp) (by simp) (by simp)) rfl
    (.cons ⟨?_,fun a bytes c ev hx => by simp at hx,fun a hx => by simp at hx⟩ rfl
    (.cons ⟨fun a hx => by simp at hx,?_,fun a hx => by simp at hx⟩ rfl .nil)),rfl,rfl,rfl⟩
  · intro a _ t ht
    exact absurd (Multiset.card_pos_iff_exists_mem.mpr ⟨t,ht⟩) (Nat.lt_irrefl 0)
  · intro a bytes c ev hact hconn _ hcarries
    obtain ⟨rfl,rfl⟩ := Server.Action.arrive.inj (Action.net.inj hact)
    obtain rfl := Option.some.inj hconn
    obtain ⟨f,rest,hf,hparse⟩ := hcarries
    obtain ⟨rfl,-⟩ := LengthFrames.Reading.complete.inj hf
    obtain rfl : mobileCodeReqEv [49] = ev := Option.some.inj (Except.ok.inj hparse)
    refine ⟨show ¬ (65535 : ℤ) ≤ _ by decide,fun m c hl => ?_⟩
    exact absurd hl.1 (by decide)

theorem serving_undisturbed {s t : PooledPlatform.State}
    (h : (PooledPlatform.machine proto2).replay s serving = some t) :
    (PooledPlatform.machine proto2).Run Undisturbed s serving t :=
  Machine.run_of_replay (by simp [serving, Undisturbed, Unprompted]) h

theorem unprompted_bounded_one : ∃ s t,
    (PooledPlatform.machine proto2).Run (OnPlatform (Tended proto2))
      (PooledPlatform.start 0 4 65535 []) oneRequest s ∧
    (PooledPlatform.machine proto2).Run Undisturbed s serving t ∧ s.1.srv.inFlight.card = 1 ∧
    serving.countP (!idle ·) ≤ 14*s.1.srv.inFlight.card+4+2+serving.countP idle ∧
    ∃ act u, Useful t act ∧ (PooledPlatform.machine proto2).Next t act u := by
  obtain ⟨s,t,hr,hs,hcard,hone⟩ := one_request_tended
  have hb := serving_undisturbed hs
  obtain ⟨hle,hmore⟩ := unprompted_bounded proto2 0 4 65535 [] oneRequest serving s t
    (hr.guarded_at fun _ _ _ _ _ hg => tended_reuses hg) hb
  refine ⟨s,t,hr,hb,hcard,hle,hmore hr (by decide) fun hzero => ?_⟩
  rw [hzero] at hone
  simp at hone

/-- Nothing is in flight, and every request that was dispatched has its answer and
its frame, in order. -/
def Answered (pb : Protobuf) (s : PooledPlatform.State) : Prop :=
  s.1.srv.inFlight = 0 ∧ ∀ sid, (exchange s.1.srv.log sid).Idle pb

theorem none_answered {r : PooledPlatform.State} (hk : Kept pb (view r.1.srv))
    (hf : r.1.srv.inFlight = 0) : Answered pb r := by
  refine ⟨hf,fun sid => ?_⟩
  rcases hk.waiting sid with hidle | ⟨u,hu,-⟩
  · exact hidle
  · rw [show (view r.1.srv).inFlight = 0 from hf] at hu
    simp at hu

/-- If requests always find room and connections stay up while they wait, then
whatever the threads do without the network they never fault, the useful steps
lead from there to a state in which every request is answered, and they do not
come to an end before. -/
theorem accepted_answered (pb : Protobuf) (hd : Handler) (threads : ℕ) (maxQueue : ℤ)
    (table : UserService.UserInfo) (as bs : List PooledPlatform.Action)
    (s t : PooledPlatform.State) (hthreads : 0 < threads)
    (hr : (PooledPlatform.machine pb).Run (OnPlatform (Tended pb))
      (PooledPlatform.start hd threads maxQueue table) as s)
    (hb : (PooledPlatform.machine pb).Run Undisturbed s bs t) :
    (∀ act f, Undisturbed t act → ¬ (PooledPlatform.machine pb).Fails t act f) ∧
    (∃ cs u, (PooledPlatform.machine pb).Run Useful t cs u ∧
      cs.length ≤ 14*t.1.srv.inFlight.card+threads+2 ∧ Answered pb u) ∧
    ((∀ act u, Useful t act → ¬ (PooledPlatform.machine pb).Next t act u) → Answered pb t) := by
  have hstopped : ∀ r, Cared pb hd threads r →
      (∀ act u, Useful r act → ¬ (PooledPlatform.machine pb).Next r act u) →
      Answered pb r := by
    intro r h hstop
    refine none_answered h.kept (by_contra fun hf => ?_)
    obtain ⟨act,u,hu,hn⟩ := useful_possible h hthreads hf
    exact hstop act u hu hn
  have ht := undisturbed_run_cared (run_cared hr) hb
  refine ⟨fun act f hg => undisturbed_safe ht hg,?_,hstopped t ht⟩
  obtain ⟨cs,u,hc,hu,hlast⟩ := Machine.maximal_run ht fun _ _ _ => useful_load
  have hlen := (hc.length_le ht fun _ _ _ => useful_load).2
  have hle := going_load ht.toGoing
  exact ⟨cs,u,hc,by omega,hstopped u hu fun act v hg => hlast act hg v⟩

theorem accepted_answered_one : ∃ s t,
    (PooledPlatform.machine proto2).Run (OnPlatform (Tended proto2))
      (PooledPlatform.start 0 4 65535 []) oneRequest s ∧
    (PooledPlatform.machine proto2).Run Undisturbed s serving t ∧ t.1.srv.inFlight.card = 1 ∧
    ∃ cs u, (PooledPlatform.machine proto2).Run Useful t cs u ∧ cs.length ≤ 20 ∧
      Answered proto2 u := by
  obtain ⟨s,t,hr,hs,-,hone⟩ := one_request_tended
  have hb := serving_undisturbed hs
  obtain ⟨-,⟨cs,u,hc,hle,hu⟩,-⟩ := accepted_answered proto2 0 4 65535 [] oneRequest serving s t
    (by decide) hr hb
  rw [hone] at hle
  exact ⟨s,t,hr,hb,hone,cs,u,hc,hle,hu⟩

end Results

end SharedBike.Quiescence
