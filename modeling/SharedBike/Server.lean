import SharedBike.ConnectionFraming
import SharedBike.ThreadPool
import SharedBike.Library.Slots

/-!
# The server as a labelled machine

The network thread alternates between the event loop, in which libevent runs
callbacks, and the drain loop over the response queue. Pool workers step in
between at any time. Sessions live in a heap of addresses; an address that
was freed may be allocated again. A blocked worker may look again at any time here;
`PooledServer` lets it do so only when it has been woken. The `sid` of a work item and the log are
ghosts: they name the session that dispatched the item, and what was observed.
-/

set_option autoImplicit false

namespace SharedBike.Server
open LittleEndian LengthFrames GuardedRuns
open SharedBike.Globals SharedBike.BikeProtocol SharedBike.Events SharedBike.ThreadPool
open SharedBike.DispatchMsgService SharedBike.NetworkInterface SharedBike.ConnectionFraming

structure Work where
  ev : IEvent
  sid : ℕ
  deriving DecidableEq, Repr

/-- Program points of a pool worker. -/
inductive Worker where
  | idle
  | blocked
  | running (t : Work)
  | pushing (t : Work)
  deriving DecidableEq, Repr

inductive Entry where
  | accepted (sid : ℕ) (a : Addr)
  | dispatched (sid : ℕ) (ev : IEvent)
  | answered (sid : ℕ) (req rsp : IEvent)
  | wrote (sid : ℕ) (frame : Bytes)
  deriving DecidableEq, Repr

structure State where
  conns : Addr → Option Conn
  tp : Pool Work
  workers : List Worker
  responseEvents : List Work
  svrExit : Bool
  subscribers : EventHandlersMap
  draining : Bool
  nextSid : ℕ
  log : List Entry

def State.start (subscribers : EventHandlersMap) (threads : ℕ) (maxQueue : ℤ) : State where
  conns := fun _ => none
  tp := Pool.init maxQueue
  workers := List.replicate threads .idle
  responseEvents := []
  svrExit := false
  subscribers := subscribers
  draining := false
  nextSid := 0
  log := []

/-- The service once `open` has started the pool with its default sizes. -/
def State.opened (subscribers : EventHandlersMap) : State :=
  State.start subscribers defaultThreadsNum defaultQueueNum

inductive Action where
  | accept (a : Addr)
  | arrive (a : Addr) (bytes : Bytes)
  | handleError (a : Addr)
  | enter (w : ℕ)
  | wake (w : ℕ)
  | svc (w : ℕ) (answer : Handler → Option IEvent)
  | push (w : ℕ)
  | drain
  | handleResponse

def State.setConn (s : State) (a : Addr) (c : Option Conn) : State :=
  { s with conns := Function.update s.conns a c }

/-- The result of the post is ignored by the caller. -/
def State.enqueue (s : State) (t : Work) : State :=
  match threadTaskPost s.tp t with
  | some tp => { s with tp := tp, log := s.log++[.dispatched t.sid t.ev] }
  | none => { s with log := s.log++[.dispatched t.sid t.ev] }

def State.takeTask (s : State) (w : ℕ) (tp : Pool Work) : State :=
  match cycleTake tp with
  | some (t, tp) => { s with tp := tp, workers := s.workers.set w (.running t) }
  | none => { s with tp := tp, workers := s.workers.set w .blocked }

/-- The session behind the pointer of an event. -/
def State.session (s : State) (ev : IEvent) : Except Fault Conn :=
  match ev.args with
  | none => .error .wildPointer
  | some a => match s.conns a with
    | none => .error .useAfterFree
    | some c => .ok c

/-- The network thread stores what `send_response_msg` did to the session. -/
def State.sent (s : State) (ev : IEvent) (r : Sent) : State :=
  match ev.args with
  | none => s
  | some a => match s.conns a, r with
    | some c, .wrote cs bytes =>
      { s.setConn a (some { c with cs := cs }) with log := s.log++[.wrote c.sid bytes] }
    | some _, .freed _ => s.setConn a none
    | none, _ => s

def step (pb : Protobuf) (s : State) : Action → Option (Except Fault State)
  | .accept a =>
    if s.draining ∨ s.conns a ≠ none then none
    else some (.ok { s.setConn a (some (Conn.accepted s.nextSid)) with
      nextSid := s.nextSid+1, log := s.log++[.accepted s.nextSid a] })
  | .arrive a bytes =>
    if s.draining then none
    else (s.conns a).map fun c => match c.arrive pb a bytes with
      | .error f => .error f
      | .ok (.keep c) => .ok (s.setConn a (some c))
      | .ok (.enqueue c ev) => .ok ((s.setConn a (some c)).enqueue ⟨ev, c.sid⟩)
      | .ok (.free _) => .ok (s.setConn a none)
  | .handleError a =>
    if s.draining then none else (s.conns a).map fun _ => .ok (s.setConn a none)
  | .enter w => match s.workers[w]? with
    | some .idle => some (.ok (s.takeTask w (cycleEnter s.tp)))
    | _ => none
  | .wake w => match s.workers[w]? with
    | some .blocked => some (.ok (s.takeTask w s.tp))
    | _ => none
  | .svc w answer => match s.workers[w]? with
    | some (.running t) => some (.ok (match svc s.svrExit s.subscribers answer t.ev with
      | some rsp => { s with
          workers := s.workers.set w (.pushing ⟨rsp, t.sid⟩)
          log := s.log++[.answered t.sid t.ev rsp] }
      | none => { s with workers := s.workers.set w .idle }))
    | _ => none
  | .push w => match s.workers[w]? with
    | some (.pushing t) => some (.ok { s with
        workers := s.workers.set w .idle
        responseEvents := s.responseEvents++[t] })
    | _ => none
  | .drain => if s.draining then none else some (.ok { s with draining := true })
  | .handleResponse =>
    if s.draining then match s.responseEvents with
      | [] => some (.ok { s with draining := false })
      | t::rest => some (match handleResponseEvent pb t.ev ((s.session t.ev).map Conn.cs) with
        | .error f => .error f
        | .ok none => .ok { s with responseEvents := rest }
        | .ok (some r) => .ok ({ s with responseEvents := rest }.sent t.ev r))
    else none

def machine (pb : Protobuf) : Machine State Action Fault := ⟨step pb⟩

def Worker.requests : Worker → Multiset Work
  | .running t => {t}
  | _ => 0

def Worker.responses : Worker → Multiset Work
  | .pushing t => {t}
  | _ => 0

/-- Requests queued in the pool or being processed. -/
def State.requests (s : State) : Multiset Work :=
  (s.tp.queue : Multiset Work)+Slots.total Worker.requests s.workers

/-- Responses about to be pushed or in the response queue. -/
def State.responses (s : State) : Multiset Work :=
  Slots.total Worker.responses s.workers+(s.responseEvents : Multiset Work)

def State.inFlight (s : State) : Multiset Work := s.requests+s.responses

end SharedBike.Server
