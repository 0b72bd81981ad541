import SharedBike.SessionOwnership
import SharedBike.ReadBounds
import SharedBike.SessionLifetime

/-!
# The server with the memory of its network thread

Each callback of the server runs on the pointers too. The memory machine faults
exactly where the server does, with the same fault, and it keeps just what the
open sessions use. A pointer to what was deleted is followed only by a response
whose session an error callback has freed.
-/

set_option autoImplicit false

namespace SharedBike.NetworkMemory
open LittleEndian GuardedRuns Ownership
open SharedBike.Globals SharedBike.BikeProtocol SharedBike.Events SharedBike.DispatchMsgService
open SharedBike.NetworkInterface (ConnectSession)
open SharedBike.RequestReader SharedBike.ConnectionFraming SharedBike.ServerView
open SharedBike.SessionLifetime SharedBike.SessionMemory SharedBike.SessionOwnership

abbrev State := Server.State × Memory

/-- The callback that an action of the server is, or none. -/
def callback (s : Server.State) : Server.Action → Option SessionMemory.Action
  | .accept a => some (.accept a)
  | .arrive a bytes => some (.arrive a bytes)
  | .handleError a => some (.handleError a)
  | .handleResponse => s.responseEvents.head?.map fun t => .respond t.ev
  | _ => none

def step (pb : Protobuf) (alloc : Allocator) (s : State) (act : Server.Action) :
    Option (Except Fault State) :=
  match Server.step pb s.1 act, callback s.1 act with
  | none, _ => none
  | some r, none => some (r.map fun t => (t, s.2))
  | some r, some c => (SessionMemory.step pb alloc s.2 c).map fun q =>
    q.bind fun m => r.map fun t => (t, m)

def machine (pb : Protobuf) (alloc : Allocator) : Machine State Server.Action Fault :=
  ⟨step pb alloc⟩

/-- The sessions in memory are the open sessions. -/
structure Mirrors (s : Server.State) (m : Memory) : Prop where
  good : Good m
  conns : ∀ a, conn m a = (s.conns a).map fun c => (c.cs, c.input)

/-- The memory goes on with the server, or meets the same fault. -/
def Mirrored (pb : Protobuf) (alloc : Allocator) (s : Server.State) (m : Memory)
    (act : Server.Action) : Except Fault Server.State → Prop
  | .ok t => ∃ n, (machine pb alloc).Next (s, m) act (t, n) ∧ Mirrors t n
  | .error f => (machine pb alloc).Fails (s, m) act f

section Steps

variable {pb : Protobuf} {alloc : Allocator} {s t : Server.State} {m n : Memory} {a : Addr}
variable {act : Server.Action} {f : Fault} {r : Except Fault Server.State}

theorem no_callback (hc : callback s act = none) (hn : (Server.machine pb).Next s act t) :
    (machine pb alloc).Next (s, m) act (t, m) := by
  have hs : Server.step pb s act = some (.ok t) := hn
  simp only [Machine.Next, machine, step, hs, hc]
  rfl

theorem with_callback {c : SessionMemory.Action} (hc : callback s act = some c)
    (hn : (Server.machine pb).Next s act t)
    (hm : SessionMemory.step pb alloc m c = some (.ok n)) :
    (machine pb alloc).Next (s, m) act (t, n) := by
  have hs : Server.step pb s act = some (.ok t) := hn
  simp only [Machine.Next, machine, step, hs, hc, hm]
  rfl

theorem with_fault {c : SessionMemory.Action} (hc : callback s act = some c)
    (hf : (Server.machine pb).Fails s act f)
    (hm : SessionMemory.step pb alloc m c = some (.error f)) :
    (machine pb alloc).Fails (s, m) act f := by
  have hs : Server.step pb s act = some (.error f) := hf
  simp only [Machine.Fails, machine, step, hs, hc, hm]
  rfl

theorem next_server {s' : State} (hn : (machine pb alloc).Next (s, m) act s') :
    (Server.machine pb).Next s act s'.1 := by
  simp only [Machine.Next, machine, step] at hn
  cases hr : Server.step pb s act with
  | none => simp [hr] at hn
  | some r =>
    cases hc : callback s act with
    | none =>
      simp only [hr, hc, Option.some.injEq] at hn
      cases r with
      | error f => simp [Except.map] at hn
      | ok t =>
        obtain rfl := Except.ok.inj hn
        exact hr
    | some c =>
      simp only [hr, hc] at hn
      obtain ⟨q,-,hq⟩ := Option.map_eq_some_iff.mp hn
      cases q with
      | error f => simp [Except.bind] at hq
      | ok n =>
        cases r with
        | error f => simp [Except.bind, Except.map] at hq
        | ok t =>
          obtain rfl := Except.ok.inj hq
          exact hr

theorem mirrors_set {c : Option Conn} (h : Mirrors s m)
    (hm : Moves a m n (c.map fun c => (c.cs, c.input)))
    (ht : t.conns = Function.update s.conns a c) : Mirrors t n := by
  refine ⟨hm.good,fun b => ?_⟩
  rw [ht]
  by_cases hb : b = a
  · rw [hb, hm.here, Function.update_self]
  · rw [hm.frame b hb, h.conns b, Function.update_of_ne hb]

theorem mirrors_same (h : Mirrors s m) (ht : t.conns = s.conns) : Mirrors t m :=
  ⟨h.good,fun a => by rw [ht]; exact h.conns a⟩

theorem mirrored {c : Conn} (h : Mirrors s m) (hc : s.conns a = some c) :
    conn m a = some (c.cs, c.input) := by
  rw [h.conns a, hc]
  rfl

theorem mirrored_none (h : Mirrors s m) (hc : s.conns a = none) : m.sessions a = none := by
  have hnone := h.conns a
  rw [hc] at hnone
  cases hs : m.sessions a with
  | none => rfl
  | some cs =>
    obtain ⟨input,hi⟩ := Option.isSome_iff_exists.mp
      (h.good.bevs.live a cs cs.bev hs (List.mem_singleton.mpr rfl))
    simp [conn, hs, hi] at hnone

theorem header_buffer {v : ConnectSession} (h : ReadState v) (hs : v.sessionStat = .ssRequest)
    (hr : v.reqStat = .msReadHeader) : v.readBuf = none := by
  rcases h.request hs with ⟨-,hh⟩ | ⟨hbody,-⟩
  · exact hh.buffer
  · rw [hr] at hbody
    simp at hbody

theorem accept_memory (h : Mirrors s m) (hn : Server.step pb s (.accept a) = some r) :
    Mirrored pb alloc s m (.accept a) r := by
  have hnext := hn
  simp only [Server.step, Option.ite_none_left_eq_some, not_or, not_not] at hn
  obtain ⟨⟨-,hfree⟩,hn⟩ := hn
  obtain rfl := Option.some.inj hn
  have hnone := mirrored_none h hfree
  refine ⟨_,with_callback rfl hnext (by rw [SessionMemory.step, hnone]),?_⟩
  exact @mirrors_set _ _ _ _ a (some (Conn.accepted s.nextSid)) h
    (accept_moves h.good hnone (alloc.socket_free m h.good.bounded)) rfl

theorem error_memory (h : Mirrors s m) (hn : Server.step pb s (.handleError a) = some r) :
    Mirrored pb alloc s m (.handleError a) r := by
  have hnext := hn
  simp only [Server.step, Option.ite_none_left_eq_some, Option.map_eq_some_iff] at hn
  obtain ⟨-,c,hc,rfl⟩ := hn
  have hconn := mirrored h hc
  obtain ⟨cs,hs,-,-⟩ := conn_some hconn
  obtain ⟨n,hclose,hmoves⟩ := close_moves h.good hconn
  exact ⟨n,with_callback rfl hnext (by rw [SessionMemory.step, hs, Option.map_some, hclose]),
    mirrors_set h hmoves rfl⟩

theorem arrive_memory {bytes : Bytes} (hr : Readable s) (h : Mirrors s m)
    (hn : Server.step pb s (.arrive a bytes) = some r) :
    Mirrored pb alloc s m (.arrive a bytes) r := by
  have hnext := hn
  simp only [Server.step, Option.ite_none_left_eq_some, Option.map_eq_some_iff] at hn
  obtain ⟨-,c,hc,rfl⟩ := hn
  obtain ⟨cs,hs,hi,hv⟩ := conn_some (mirrored h hc)
  have happend := @append_moves m a c.input cs h.good hs bytes
  rw [← hv] at happend
  have hfree := alloc.buffer_free _ happend.good.bounded
  have hstep : SessionMemory.step pb alloc m (.arrive a bytes) =
      some ((handleRequest pb (m.setInput cs.bev (some (c.input++bytes))) a
        (alloc.buffer (m.setInput cs.bev (some (c.input++bytes))))).map Callback.memory) := by
    simp only [SessionMemory.step, hs, Option.map_some, bind_ok (input_ok hi)]
  have hfollows := (@handle_request_follows _ a _ _ _ pb happend.good happend.here
    (header_buffer (hr a c hc)) hfree).after happend
  cases hvalue : NetworkInterface.handleRequest pb a c.cs (c.input++bytes) with
  | error f =>
    rw [hvalue] at hfollows
    simp only [Conn.arrive, hvalue] at hnext ⊢
    exact with_fault rfl hnext (by rw [hstep, show handleRequest _ _ _ _ = _ from hfollows]; rfl)
  | ok x =>
    rw [hvalue] at hfollows
    cases x with
    | keep v input =>
      simp only [Conn.arrive, hvalue] at hnext ⊢
      obtain ⟨n,hreq,hmoved⟩ := hfollows
      exact ⟨n,with_callback rfl hnext (by rw [hstep, hreq]; rfl),mirrors_set h
        (c := some { c with cs := v, input := input, received := c.received++bytes }) hmoved rfl⟩
    | enqueue v input call ev =>
      simp only [Conn.arrive, hvalue] at hnext ⊢
      obtain ⟨n,hreq,hmoved⟩ := hfollows
      refine ⟨n,with_callback rfl hnext (by rw [hstep, hreq]; rfl),mirrors_set h
        (c := some { c with
          cs := v, input := input, received := c.received++bytes, calls := c.calls++[call] })
        hmoved ?_⟩
      rw [(enqueue_places _ _).2.2]
      rfl
    | free call =>
      simp only [Conn.arrive, hvalue] at hnext ⊢
      obtain ⟨n,hreq,hmoved⟩ := hfollows
      exact ⟨n,with_callback rfl hnext (by rw [hstep, hreq]; rfl),mirrors_set h hmoved rfl⟩

theorem session_some {ev : IEvent} {c : Conn} (h : s.session ev = .ok c) :
    ∃ a, ev.args = some a ∧ s.conns a = some c := by
  unfold Server.State.session at h
  split at h
  · simp at h
  · rename_i a ha
    split at h
    · simp at h
    · rename_i d hd
      obtain rfl := Except.ok.inj h
      exact ⟨a,ha,hd⟩

theorem sent_conns {ev : IEvent} {c : Conn} (ha : ev.args = some a) (hc : s.conns a = some c)
    (r : NetworkInterface.Sent) : (s.sent ev r).conns = Function.update s.conns a (match r with
      | .wrote cs _ => some { c with cs := cs }
      | .freed _ => none) := by
  cases r <;> simp only [Server.State.sent, ha, hc] <;> rfl

/-- A pointer that is stale for the server is stale in memory. -/
theorem stale_session {ev : IEvent} (h : Mirrors s m) (hs : s.session ev = .error f) :
    (argsOf ev).bind m.session = .error f := by
  unfold Server.State.session at hs
  unfold argsOf
  split at hs
  · obtain rfl := Except.error.inj hs
    rename_i hnone
    rw [hnone]
    rfl
  · rename_i a ha
    rw [ha]
    split at hs
    · rename_i hfree
      obtain rfl := Except.error.inj hs
      rw [bind_ok rfl, Memory.session, mirrored_none h hfree]
    · simp at hs

/-- What a response does on an open session, to the values and in memory. -/
theorem live_respond {w : Server.Work} {rest : List Server.Work} {c : Conn} (hr : Readable s)
    (h : Mirrors s m) (hrec : NetworkInterface.Recognised w.ev) (hs : s.session w.ev = .ok c)
    (hc : callback s .handleResponse = some (.respond w.ev))
    (hn : Server.step pb s .handleResponse = some (match NetworkInterface.handleResponseEvent pb
        w.ev (.ok c.cs) with
      | .error f => .error f
      | .ok none => .ok { s with responseEvents := rest }
      | .ok (some x) => .ok ({ s with responseEvents := rest }.sent w.ev x))) :
    Mirrored pb alloc s m .handleResponse (match NetworkInterface.handleResponseEvent pb
        w.ev (.ok c.cs) with
      | .error f => .error f
      | .ok none => .ok { s with responseEvents := rest }
      | .ok (some x) => .ok ({ s with responseEvents := rest }.sent w.ev x)) := by
  obtain ⟨a,ha,hconn⟩ := session_some hs
  obtain ⟨x,hx⟩ := NetworkInterface.handle_response_sent pb hrec c.cs
  have hreplies := handle_response_replies h.good ha (mirrored h hconn) (hr a c hconn).write
    (alloc.buffer_free m h.good.bounded) hx
  rw [hx] at hn ⊢
  cases x with
  | error f =>
    exact with_fault hc hn (by
      rw [SessionMemory.step, show handleResponseEvent _ _ _ _ = _ from hreplies]
      rfl)
  | ok x =>
    have hsame : ({ s with responseEvents := rest }.sent w.ev x).conns = _ :=
      @sent_conns { s with responseEvents := rest } a w.ev c ha hconn x
    cases x with
    | wrote v bytes =>
      obtain ⟨n,hn',hmoves⟩ := hreplies
      exact ⟨n,with_callback hc hn (by rw [SessionMemory.step, hn']; rfl),
        mirrors_set h (c := some { c with cs := v }) hmoves hsame⟩
    | freed request =>
      obtain ⟨n,hn',hmoves⟩ := hreplies
      exact ⟨n,with_callback hc hn (by rw [SessionMemory.step, hn']; rfl),
        mirrors_set h hmoves hsame⟩

theorem respond_memory (hr : Readable s) (h : Mirrors s m)
    (hn : Server.step pb s .handleResponse = some r) :
    Mirrored pb alloc s m .handleResponse r := by
  have hnext := hn
  simp only [Server.step] at hn
  split at hn
  · split at hn
    · rename_i hq
      obtain rfl := Option.some.inj hn
      exact ⟨m,no_callback (by rw [callback, hq]; rfl) hnext,mirrors_same h rfl⟩
    · rename_i w rest hq
      have hc : callback s .handleResponse = some (.respond w.ev) := by rw [callback, hq]; rfl
      obtain rfl := Option.some.inj hn
      by_cases hrec : NetworkInterface.Recognised w.ev
      · cases hs : s.session w.ev with
        | error f =>
          rw [hs] at hnext
          rw [show Except.map Conn.cs (.error f : Except Fault Conn) = .error f from rfl,
            NetworkInterface.handle_response_fault pb hrec] at hnext ⊢
          exact with_fault hc hnext (by
            rw [SessionMemory.step, handle_response_stale hrec (stale_session h hs)]
            rfl)
        | ok c =>
          rw [hs] at hnext
          exact live_respond hr h hrec hs hc hnext
      · rw [NetworkInterface.handle_response_dropped pb hrec] at hnext ⊢
        exact ⟨m,with_callback hc hnext (by
          rw [SessionMemory.step, handle_response_dropped hrec]; rfl),mirrors_same h rfl⟩
  · simp at hn

/-- Only the callbacks and the drain loop touch a session. -/
theorem view_conns {v v' : View} (hs : ViewStep pb s v act v') (hc : callback s act = none)
    (hne : act ≠ .handleResponse) : v'.conns = v.conns := by
  cases hs with
  | still internal => rfl
  | answer at_ held computed => rfl
  | abandon held closed => rfl
  | reply held args conn framed => exact absurd rfl hne
  | drop head held unknown => exact absurd rfl hne
  | _ => simp [callback] at hc

/-- The step lemma: the memory mirrors what the server does, its faults too. -/
theorem step_memory (alloc : Allocator) (hr : Readable s) (h : Mirrors s m)
    (hn : Server.step pb s act = some r) : Mirrored pb alloc s m act r := by
  have hother : callback s act = none → act ≠ .handleResponse → Mirrored pb alloc s m act r := by
    intro hc hne
    cases r with
    | ok t => exact ⟨m,no_callback hc hn,mirrors_same h (view_conns (next_view hr hn) hc hne)⟩
    | error f =>
      show (machine pb alloc).Fails (s, m) act f
      simp only [Machine.Fails, machine, step, hn, hc]
      rfl
  cases act with
  | accept a => exact accept_memory h hn
  | arrive a bytes => exact arrive_memory hr h hn
  | handleError a => exact error_memory h hn
  | handleResponse => exact respond_memory hr h hn
  | _ => exact hother rfl nofun

theorem next_memory (alloc : Allocator) (hr : Readable s) (h : Mirrors s m)
    (hn : (Server.machine pb).Next s act t) :
    ∃ n, (machine pb alloc).Next (s, m) act (t, n) ∧ Mirrors t n :=
  step_memory alloc hr h hn

theorem fails_memory (hr : Readable s) (h : Mirrors s m) :
    (machine pb alloc).Fails (s, m) act f ↔ (Server.machine pb).Fails s act f := by
  refine ⟨fun hf => ?_,fun hf => step_memory alloc hr h hf⟩
  cases hs : Server.step pb s act with
  | none => simp [Machine.Fails, machine, step, hs] at hf
  | some r =>
    have hr := step_memory alloc hr h hs
    cases r with
    | ok t =>
      obtain ⟨n,hn,-⟩ := hr
      simpa using hf.symm.trans hn
    | error e =>
      obtain rfl := Except.error.inj (Option.some.inj (hf.symm.trans hr))
      exact hs

/-- The faults that are left while no response is stale: the missing return of
`parseEvent`, and the null buffer of the exit event. -/
theorem quiet_faults (hr : Readable s) (h : NoStale s) (hf : (Server.machine pb).Fails s act f) :
    (f = .missingReturn ∧ ∃ a bytes, act = .arrive a bytes) ∨
      (f = .nullPointer ∧ act = .handleResponse) := by
  simp only [Machine.Fails, Server.machine, Server.step] at hf
  cases act with
  | arrive a bytes =>
    simp only [Option.ite_none_left_eq_some, Option.map_eq_some_iff] at hf
    obtain ⟨-,c,hc,hf⟩ := hf
    cases hvalue : NetworkInterface.handleRequest pb a c.cs (c.input++bytes) with
    | error e =>
      simp only [Conn.arrive, hvalue, Except.error.injEq] at hf
      obtain rfl := hf
      exact Or.inl ⟨ReadBounds.request_faults (hr a c hc) hvalue,a,bytes,rfl⟩
    | ok x => cases x <;> simp [Conn.arrive, hvalue] at hf
  | handleResponse =>
    refine Or.inr ⟨?_,rfl⟩
    simp only at hf
    split at hf
    · split at hf
      · simp at hf
      · rename_i w rest hq
        obtain ⟨c,hc,-⟩ := h.answers w rest hq
        obtain ⟨a,-,hconn⟩ := session_some hc
        rw [hc, show Except.map Conn.cs (.ok c : Except Fault Conn) = .ok c.cs from rfl] at hf
        by_cases hrec : NetworkInterface.Recognised w.ev
        · rcases hrec with hframe | hexit
          · simp [NetworkInterface.handle_response_frame pb hframe] at hf
          · rw [NetworkInterface.handle_response_exit pb hexit (hr a c hconn).write] at hf
            exact (Except.error.inj (Option.some.inj hf)).symm
        · simp [NetworkInterface.handle_response_dropped pb hrec] at hf
    · simp at hf
  | accept a => simp at hf
  | handleError a => simp at hf
  | drain => simp at hf
  | _ => simp only at hf; split at hf <;> simp at hf

theorem start_mirrors (subscribers : EventHandlersMap) (threads : ℕ) (maxQueue : ℤ) :
    Mirrors (Server.State.start subscribers threads maxQueue) Memory.empty :=
  ⟨empty_good,fun _ => rfl⟩

theorem next_mirrors {u : State} (hr : Readable s) (h : Mirrors s m)
    (hn : (machine pb alloc).Next (s, m) act u) : Readable u.1 ∧ Mirrors u.1 u.2 := by
  have hserver := next_server hn
  obtain ⟨n,hn',hmirrors⟩ := next_memory alloc hr h hserver
  have hu : u = (u.1, n) := Except.ok.inj (Option.some.inj (hn.symm.trans hn'))
  rw [hu]
  exact ⟨next_readable hr hserver,hmirrors⟩

end Steps

section Runs

variable {pb : Protobuf} {alloc : Allocator} {subscribers : EventHandlersMap} {threads : ℕ}
variable {maxQueue : ℤ} {acts : List Server.Action} {m : Memory}

theorem run_mirrors {t : State} (hr : (machine pb alloc).Run Machine.Free
    (Server.State.start subscribers threads maxQueue, Memory.empty) acts t) :
    Readable t.1 ∧ Mirrors t.1 t.2 :=
  @Machine.Run.invariant _ _ _ _ _ _ _ _ (fun t : State => Readable t.1 ∧ Mirrors t.1 t.2) hr
    ⟨start_readable subscribers threads maxQueue,start_mirrors subscribers threads maxQueue⟩
    fun _ _ _ h _ hn => next_mirrors h.1 h.2 hn

/-- Every run of the server is a run with memory. -/
theorem run_lifts (alloc : Allocator) {t : Server.State} (hr : (Server.machine pb).Run Machine.Free
    (Server.State.start subscribers threads maxQueue) acts t) :
    ∃ m, (machine pb alloc).Run Machine.Free
      (Server.State.start subscribers threads maxQueue, Memory.empty) acts (t, m) := by
  have hstep : ∀ as t (u : State) a t', u.1 = t → (machine pb alloc).Run Machine.Free
      (Server.State.start subscribers threads maxQueue, Memory.empty) as u →
      Machine.Free t a → (Server.machine pb).Next t a t' →
      ∃ u', Machine.Free u a ∧ (machine pb alloc).Next u a u' ∧ u'.1 = t' := by
    rintro as _ ⟨t,m⟩ a t' rfl hrun - hn
    obtain ⟨hread,hmirrors⟩ := run_mirrors hrun
    obtain ⟨n,hn',-⟩ := next_memory alloc hread hmirrors hn
    exact ⟨(t', n),trivial,hn',rfl⟩
  obtain ⟨u,hrun,rfl⟩ := hr.simulate (R := fun t (u : State) => u.1 = t) rfl hstep
  exact ⟨u.2,hrun⟩

/-- Nothing dangles and nothing leaks: each buffer is the one into which one
session reads a message of the announced size, and each socket has one session. -/
structure Accounted (m : Memory) : Prop where
  buffers : ∀ q, (m.chars q).isSome ↔ ∃! a, ∃ cs, m.sessions a = some cs ∧ cs.readBuf = some q
  sockets : ∀ b, (m.bevs b).isSome ↔ ∃! a, ∃ cs, m.sessions a = some cs ∧ cs.bev = b
  reading : ∀ a cs q, m.sessions a = some cs → cs.readBuf = some q →
    cs.sessionStat = .ssRequest ∧ cs.reqStat = .msReadMessage ∧ ∃ buf, m.chars q = some buf ∧
      buf.length = cs.msgLen ∧ cs.msgLen ≤ maxMsgLen
  sent : ∀ a cs, m.sessions a = some cs → cs.writeBuf = none

theorem exact_unique {β C : Type} {refs : Session → List β} {cells : β → Option C} {x : β}
    (h : Exact refs m.sessions cells) :
    (cells x).isSome ↔ ∃! a, ∃ cs, m.sessions a = some cs ∧ x ∈ refs cs := by
  constructor
  · intro hx
    obtain ⟨a,cs,hs,hm⟩ := h.owned x hx
    exact ⟨a,⟨cs,hs,hm⟩,fun b ⟨ds,hd,hn⟩ => h.apart b a ds cs x hd hs hn hm⟩
  · rintro ⟨a,⟨cs,hs,hm⟩,-⟩
    exact h.live a cs x hs hm

/-- A read buffer belongs to a session in the middle of a message. -/
theorem buffer_read {v : ConnectSession} {buf : Bytes} (h : ReadState v)
    (hb : v.readBuf = some buf) : v.sessionStat = .ssRequest ∧ v.reqStat = .msReadMessage ∧
      buf.length = v.msgLen ∧ v.msgLen ≤ maxMsgLen := by
  cases hs : v.sessionStat with
  | ssResponse => simp [(h.response hs).1] at hb
  | ssRequest =>
    rcases h.request hs with ⟨-,hh⟩ | ⟨hbody,hm⟩
    · simp [hh.buffer] at hb
    · obtain ⟨buf',hb',hlen⟩ := hm.buffer
      obtain rfl := Option.some.inj (hb'.symm.trans hb)
      exact ⟨rfl,hbody,hlen,by rw [hm.len]; exact hm.good.2.2⟩

theorem accounted {s : Server.State} (hr : Readable s) (h : Mirrors s m) : Accounted m := by
  have hread : ∀ a cs, m.sessions a = some cs → ReadState (valueOf m.chars cs) := by
    intro a cs hs
    obtain ⟨input,hi⟩ := Option.isSome_iff_exists.mp
      (h.good.bevs.live a cs cs.bev hs (List.mem_singleton.mpr rfl))
    have hconn := h.conns a
    simp only [conn, hs, Option.bind_some, hi, Option.map_some] at hconn
    obtain ⟨c,hc,he⟩ := Option.map_eq_some_iff.mp hconn.symm
    obtain ⟨hv,-⟩ := Prod.mk.inj he
    exact hv ▸ hr a c hc
  have hsent : ∀ a cs, m.sessions a = some cs → cs.writeBuf = none :=
    fun a cs hs => null_write h.good hs (hread a cs hs).write
  have hrefs : ∀ a cs q, m.sessions a = some cs → (q ∈ charRefs cs ↔ cs.readBuf = some q) := by
    intro a cs q hs
    simp [charRefs, hsent a cs hs]
  refine ⟨fun q => ?_,fun b => ?_,fun a cs q hs hq => ?_,hsent⟩
  · rw [exact_unique h.good.chars]
    refine existsUnique_congr fun a => exists_congr fun cs => and_congr_right fun hs => ?_
    exact hrefs a cs q hs
  · rw [exact_unique h.good.bevs]
    refine existsUnique_congr fun a => exists_congr fun cs => and_congr_right fun _ => ?_
    rw [bevRefs, List.mem_singleton]
    exact eq_comm
  · obtain ⟨buf,hbuf⟩ := Option.isSome_iff_exists.mp
      (h.good.chars.live a cs q hs ((hrefs a cs q hs).mpr hq))
    have hvalue : (valueOf m.chars cs).readBuf = some buf := by simp [valueOf, hq, hbuf]
    obtain ⟨hstat,hreq,hlen,hmax⟩ := buffer_read (hread a cs hs) hvalue
    exact ⟨hstat,hreq,buf,hbuf,hlen,hmax⟩

/-- In every run the callbacks keep the memory that the open sessions use, and
no other, and they meet just the faults of the server. While the error callback
fires on idle sessions only, none of these is a pointer to what was deleted. -/
theorem memory_kept (pb : Protobuf) (alloc : Allocator) (subscribers : EventHandlersMap)
    (threads : ℕ) (maxQueue : ℤ) (acts : List Server.Action) (s : Server.State) (m : Memory)
    (hr : (machine pb alloc).Run Machine.Free
      (Server.State.start subscribers threads maxQueue, Memory.empty) acts (s, m)) :
    Accounted m ∧ (∀ a, conn m a = (s.conns a).map fun c => (c.cs, c.input)) ∧
      ((∀ a, s.conns a = none) → m = Memory.empty) ∧
      (∀ act t, (Server.machine pb).Next s act t ↔
        ∃ n, (machine pb alloc).Next (s, m) act (t, n)) ∧
      (∀ act f, (Server.machine pb).Fails s act f ↔ (machine pb alloc).Fails (s, m) act f) ∧
      ((machine pb alloc).Run (fun s act => ErrorsIdle s.1 act)
          (Server.State.start subscribers threads maxQueue, Memory.empty) acts (s, m) →
        ∀ act f, (machine pb alloc).Fails (s, m) act f →
          (f = .missingReturn ∧ ∃ a bytes, act = .arrive a bytes) ∨
            (f = .nullPointer ∧ act = .handleResponse)) := by
  obtain ⟨hread,hmirrors⟩ := run_mirrors hr
  have hacc := accounted hread hmirrors
  refine ⟨hacc,hmirrors.conns,fun hnone => ?_,fun act t => ⟨fun hn => ?_,fun ⟨n,hn⟩ => ?_⟩,
    fun act f => (fails_memory hread hmirrors).symm,fun hidle act f hf => ?_⟩
  · have hsessions : m.sessions = fun _ => none :=
      funext fun a => mirrored_none hmirrors (hnone a)
    have hchars : m.chars = fun _ => none := by
      funext q
      refine Option.not_isSome_iff_eq_none.mp fun hq => ?_
      obtain ⟨a,⟨cs,hs,-⟩,-⟩ := (hacc.buffers q).mp hq
      simp [hsessions] at hs
    have hbevs : m.bevs = fun _ => none := by
      funext b
      refine Option.not_isSome_iff_eq_none.mp fun hb => ?_
      obtain ⟨a,⟨cs,hs,-⟩,-⟩ := (hacc.sockets b).mp hb
      simp [hsessions] at hs
    cases m
    simp_all [Memory.empty]
  · obtain ⟨n,hn',-⟩ := next_memory alloc hread hmirrors hn
    exact ⟨n,hn'⟩
  · exact next_server hn
  · have hsafe : Safe (view s) := @Machine.Run.invariant _ _ _ _ _ _ _ _
      (fun t : State => Safe (view t.1)) hidle (start_safe subscribers threads maxQueue)
      fun _ _ _ h hg hn => next_safe h hg (next_server hn)
    exact quiet_faults hread (safe_no_stale hsafe) ((fails_memory hread hmirrors).mp hf)

open Classical in
/-- Allocation above everything that is in use. -/
noncomputable def aboveAll : Allocator where
  buffer m := if h : m.Bounded then h.choose else 0
  socket m := if h : m.Bounded then h.choose else 0
  buffer_free m h := by
    rw [dif_pos h]
    exact (h.choose_spec _ (le_refl _)).1
  socket_free m h := by
    rw [dif_pos h]
    exact (h.choose_spec _ (le_refl _)).2

/-- A session that has read a header and one byte of three. -/
theorem memory_kept_reading : ∃ s m q cs, m.sessions 8 = some cs ∧ cs.readBuf = some q ∧
    cs.msgLen = 3 ∧ m.chars q = some [10, 0, 0] ∧ Accounted m ∧
    ∀ act, ¬ (machine proto2 aboveAll).Fails (s, m) act .useAfterFree := by
  have hs : ∃ s, (Server.machine proto2).replay (Server.State.start (fun _ => none) 1 2)
      [.accept 8, .arrive 8 [70, 66, 69, 66, 1, 0, 3, 0, 0, 0, 10]] = some s ∧
      ∃ c, s.conns 8 = some c ∧ c.cs.readBuf = some [10, 0, 0] ∧ c.cs.msgLen = 3 :=
    ⟨_,rfl,_,rfl,rfl,rfl⟩
  obtain ⟨s,hs,c,hc,hbuf,hlen⟩ := hs
  obtain ⟨m,hm⟩ := run_lifts aboveAll (Machine.free_of_replay hs)
  have hidle := hm.guarded_at (H := fun s act => ErrorsIdle s.1 act)
    fun bs act t hb _ _ a ha => by
      have hin : act ∈ bs++[act] := by simp
      have := hb.subset hin
      simp [ha] at this
  obtain ⟨hacc,hconns,-,-,-,hquiet⟩ := memory_kept _ _ _ _ _ _ _ _ hm
  have hconn := hconns 8
  rw [hc] at hconn
  obtain ⟨cs,hcs,-,hv⟩ := conn_some hconn
  rw [hv] at hbuf hlen
  obtain ⟨q,hq,hqbuf⟩ := Option.bind_eq_some_iff.mp hbuf
  refine ⟨s,m,q,cs,hcs,hq,hlen,hqbuf,hacc,fun act hf => ?_⟩
  have := hquiet hidle act _ hf
  simp at this

end Runs

end SharedBike.NetworkMemory
