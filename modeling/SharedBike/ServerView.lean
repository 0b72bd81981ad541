import SharedBike.Server
import SharedBike.Library.Heaps
import Mathlib.Tactic.Abel

/-!
# What one step of the server can do

The view of a state forgets which worker holds an item and where in a queue it
stands: it keeps the sessions, the requests and responses in flight, and the
log. Every step of the server is one of the listed steps of its view.
-/

set_option autoImplicit false

namespace SharedBike.ServerView
open LengthFrames GuardedRuns Slots Heaps
open SharedBike.Globals SharedBike.BikeProtocol SharedBike.Events SharedBike.ThreadPool
open SharedBike.DispatchMsgService SharedBike.NetworkInterface SharedBike.RequestReader
open SharedBike.ConnectionFraming SharedBike.Server

structure View where
  conns : Addr → Option Conn
  requests : Multiset Work
  responses : Multiset Work
  log : List Entry
  nextSid : ℕ

def View.inFlight (v : View) : Multiset Work := v.requests+v.responses

def view (s : State) : View := ⟨s.conns, s.requests, s.responses, s.log, s.nextSid⟩

def Full (s : State) : Prop := s.tp.maxQueue ≤ s.tp.waiting

def View.setConn (v : View) (a : Addr) (c : Option Conn) : View :=
  { v with conns := Function.update v.conns a c }

/-- Steps that may only move items between places of one kind. -/
def Internal : Action → Prop
  | .enter _ | .wake _ | .push _ | .drain | .handleResponse => True
  | _ => False

inductive ViewStep (pb : Protobuf) (s : State) (v : View) : Action → View → Prop
  | accept (a : Addr) (free : v.conns a = none) :
      ViewStep pb s v (.accept a) { v.setConn a (some (Conn.accepted v.nextSid)) with
        nextSid := v.nextSid+1, log := v.log++[.accepted v.nextSid a] }
  | keep {a : Addr} {bytes : LittleEndian.Bytes} {c c' : Conn} (conn : v.conns a = some c)
      (kept : Kept c c' bytes) : ViewStep pb s v (.arrive a bytes) (v.setConn a (some c'))
  | dispatch {a : Addr} {bytes : LittleEndian.Bytes} {c c' : Conn} {ev : IEvent}
      (conn : v.conns a = some c) (sent : Dispatched pb a c c' bytes ev) (room : ¬ Full s) :
      ViewStep pb s v (.arrive a bytes) { v.setConn a (some c') with
        requests := v.requests+{⟨ev, c.sid⟩}, log := v.log++[.dispatched c.sid ev] }
  | refuse {a : Addr} {bytes : LittleEndian.Bytes} {c c' : Conn} {ev : IEvent}
      (conn : v.conns a = some c) (sent : Dispatched pb a c c' bytes ev) (full : Full s) :
      ViewStep pb s v (.arrive a bytes) { v.setConn a (some c') with
        log := v.log++[.dispatched c.sid ev] }
  | close {a : Addr} {bytes : LittleEndian.Bytes} {c : Conn} (conn : v.conns a = some c)
      (reading : c.cs.sessionStat = .ssRequest) (nothing : ∀ ev, ¬ Carries pb c bytes ev) :
      ViewStep pb s v (.arrive a bytes) (v.setConn a none)
  | handleError (a : Addr) : ViewStep pb s v (.handleError a) (v.setConn a none)
  | still {act : Action} (internal : Internal act) : ViewStep pb s v act v
  | answer {w : ℕ} {answer : Handler → Option IEvent} {t : Work} {rsp : IEvent}
      {rest : Multiset Work} (at_ : s.workers[w]? = some (.running t))
      (held : v.requests = rest+{t})
      (computed : svc s.svrExit s.subscribers answer t.ev = some rsp) :
      ViewStep pb s v (.svc w answer) { v with
        requests := rest
        responses := v.responses+{⟨rsp, t.sid⟩}
        log := v.log++[.answered t.sid t.ev rsp] }
  | abandon {w : ℕ} {answer : Handler → Option IEvent} {t : Work} {rest : Multiset Work}
      (held : v.requests = rest+{t}) (closed : s.svrExit = true) :
      ViewStep pb s v (.svc w answer) { v with requests := rest }
  | reply {t : Work} {a : Addr} {c : Conn} {rest : Multiset Work}
      (held : v.responses = rest+{t}) (args : t.ev.args = some a) (conn : v.conns a = some c)
      (framed : HasFrame t.ev) :
      ViewStep pb s v .handleResponse { v.setConn a (some (c.replied t.ev)) with
        responses := rest
        log := v.log++[.wrote c.sid (responseFrame pb t.ev t.ev.eid)] }
  | drop {t : Work} {rest : Multiset Work} (head : ∃ later, s.responseEvents = t::later)
      (held : v.responses = rest+{t}) (unknown : ¬ Recognised t.ev) :
      ViewStep pb s v .handleResponse { v with responses := rest }

def Readable (s : State) : Prop := ∀ a c, s.conns a = some c → ReadState c.cs

theorem take_task_view {s : State} {w : ℕ} {worker : Worker}
    (hw : s.workers[w]? = some worker) (hq : worker.requests = 0) (hp : worker.responses = 0)
    {tp : Pool Work} (hqueue : tp.queue = s.tp.queue) : view (s.takeTask w tp) = view s := by
  obtain ⟨r1,h1,h1'⟩ := total_split Worker.requests hw
  obtain ⟨r2,h2,h2'⟩ := total_split Worker.responses hw
  unfold State.takeTask cycleTake
  cases hc : tp.queue with
  | nil =>
    simp only [view, State.requests, State.responses, h1, h2, h1', h2', hq, hp, ← hqueue]
    rfl
  | cons t rest =>
    simp only [view, State.requests, State.responses, h1, h2, h1', h2', hq, hp, ← hqueue, hc]
    congr 1
    rw [← Multiset.cons_coe, ← Multiset.singleton_add]
    simp only [Worker.requests, add_zero]
    abel

/-- A dispatched item touches nothing but the pool and the log. -/
theorem enqueue_places (s : State) (t : Work) :
    (s.enqueue t).workers = s.workers ∧ (s.enqueue t).responseEvents = s.responseEvents ∧
      (s.enqueue t).conns = s.conns := by
  unfold State.enqueue
  split <;> exact ⟨rfl,rfl,rfl⟩

/-- A response touches nothing but its session and the log. -/
theorem sent_places (s : State) (ev : IEvent) (r : Sent) :
    (s.sent ev r).tp = s.tp ∧ (s.sent ev r).workers = s.workers ∧
      (s.sent ev r).responseEvents = s.responseEvents ∧ (s.sent ev r).draining = s.draining := by
  unfold State.sent
  split
  · exact ⟨rfl,rfl,rfl,rfl⟩
  · split <;> exact ⟨rfl,rfl,rfl,rfl⟩

theorem enqueue_view (s : State) (t : Work) :
    (¬ Full s → view (s.enqueue t) = { view s with
      requests := s.requests+{t}, log := s.log++[.dispatched t.sid t.ev] }) ∧
    (Full s → view (s.enqueue t) = { view s with log := s.log++[.dispatched t.sid t.ev] }) := by
  constructor
  · intro h
    rw [Full] at h
    simp only [State.enqueue, threadTaskPost, if_neg h, view, State.requests, State.responses,
      ← Multiset.coe_add, Multiset.coe_singleton]
    congr 1
    abel
  · intro h
    rw [Full] at h
    simp only [State.enqueue, threadTaskPost, if_pos h, view, State.requests, State.responses]

theorem arrive_view {pb : Protobuf} {s s' : State} {a : Addr} {bytes : LittleEndian.Bytes}
    (hr : Readable s) (hn : (machine pb).Next s (.arrive a bytes) s') :
    ViewStep pb s (view s) (.arrive a bytes) (view s') := by
  simp only [Machine.Next, machine, step, Option.ite_none_left_eq_some,
    Option.map_eq_some_iff] at hn
  obtain ⟨-,c,hc,hn⟩ := hn
  have hread := hr a c hc
  split at hn
  · simp at hn
  · rename_i c' harr
    obtain rfl := Except.ok.inj hn
    rcases arrive_cases hread harr with ⟨d,hd,hk⟩ | ⟨d,ev,hd,-⟩ | ⟨call,hd,-⟩
    · obtain rfl := Arrival.keep.inj hd
      exact .keep hc hk
    · simp at hd
    · simp at hd
  · rename_i c' ev harr
    obtain rfl := Except.ok.inj hn
    rcases arrive_cases hread harr with ⟨d,hd,-⟩ | ⟨d,ev,hd,hk⟩ | ⟨call,hd,-⟩
    · simp at hd
    · obtain ⟨rfl,rfl⟩ := Arrival.enqueue.inj hd
      obtain ⟨hroom,hfull⟩ := enqueue_view (s.setConn a (some c')) ⟨ev, c'.sid⟩
      rw [hk.sid] at hroom hfull ⊢
      by_cases hf : Full s
      · rw [hfull hf]
        exact .refuse hc hk hf
      · rw [hroom hf]
        exact .dispatch hc hk hf
    · simp at hd
  · rename_i call harr
    obtain rfl := Except.ok.inj hn
    rcases arrive_cases hread harr with ⟨d,hd,-⟩ | ⟨d,ev,hd,-⟩ | ⟨call,-,hs,hno⟩
    · simp at hd
    · simp at hd
    · exact .close hc hs hno

theorem svc_view {pb : Protobuf} {s s' : State} {w : ℕ} {answer : Handler → Option IEvent}
    (hn : (machine pb).Next s (.svc w answer) s') :
    ViewStep pb s (view s) (.svc w answer) (view s') := by
  simp only [Machine.Next, machine, step] at hn
  split at hn
  · rename_i t hw
    obtain ⟨r1,h1,h1'⟩ := total_split Worker.requests hw
    obtain ⟨r2,h2,h2'⟩ := total_split Worker.responses hw
    have held : (view s).requests = (s.tp.queue : Multiset Work)+r1+{t} := by
      simp only [view, State.requests, h1, Worker.requests, add_assoc]
    have hn := Except.ok.inj (Option.some.inj hn)
    split at hn
    · rename_i rsp hsvc
      subst hn
      have := @ViewStep.answer pb _ _ _ _ _ _ _ hw held hsvc
      refine cast ?_ this
      congr 1
      simp only [view, State.requests, State.responses, h1', h2, h2', Worker.requests,
        Worker.responses, add_zero]
      congr 1
      abel
    · rename_i hsvc
      subst hn
      have hclosed : s.svrExit = true := by
        by_contra h
        rw [Bool.not_eq_true] at h
        obtain ⟨rsp,hrsp⟩ := svc_open s.subscribers answer t.ev
        rw [h, hrsp] at hsvc
        simp at hsvc
      have := @ViewStep.abandon pb s _ w answer _ _ held hclosed
      refine cast ?_ this
      congr 1
      simp only [view, State.requests, State.responses, h1', h2, h2', Worker.requests,
        Worker.responses, add_zero]
  · simp at hn

theorem push_view {pb : Protobuf} {s s' : State} {w : ℕ}
    (hn : (machine pb).Next s (.push w) s') : view s' = view s := by
  simp only [Machine.Next, machine, step] at hn
  split at hn
  · rename_i t hw
    obtain rfl := Except.ok.inj (Option.some.inj hn)
    obtain ⟨r1,h1,h1'⟩ := total_split Worker.requests hw
    obtain ⟨r2,h2,h2'⟩ := total_split Worker.responses hw
    simp only [view, State.requests, State.responses, h1, h1', h2, h2', Worker.requests,
      Worker.responses, add_zero, ← Multiset.coe_add, Multiset.coe_singleton]
    congr 1
    abel
  · simp at hn

theorem response_view {pb : Protobuf} {s s' : State} (hr : Readable s)
    (hn : (machine pb).Next s .handleResponse s') :
    ViewStep pb s (view s) .handleResponse (view s') := by
  simp only [Machine.Next, machine, step] at hn
  split at hn
  · split at hn
    · obtain rfl := Except.ok.inj (Option.some.inj hn)
      exact .still trivial
    · rename_i t rest hq
      have held : (view s).responses =
          Slots.total Worker.responses s.workers+(rest : Multiset Work)+{t} := by
        simp only [view, State.responses, hq, ← Multiset.cons_coe, ← Multiset.singleton_add]
        abel
      by_cases hrec : Recognised t.ev
      · cases hs : s.session t.ev with
        | error f =>
          rw [hs] at hn
          simp [Except.map, handle_response_fault pb hrec] at hn
        | ok c =>
          obtain ⟨a,ha,hc⟩ : ∃ a, t.ev.args = some a ∧ s.conns a = some c := by
            unfold State.session at hs
            split at hs
            · simp at hs
            · rename_i a ha
              split at hs
              · simp at hs
              · rename_i d hd
                obtain rfl := Except.ok.inj hs
                exact ⟨a,ha,hd⟩
          rw [hs] at hn
          simp only [Except.map] at hn
          by_cases hf : HasFrame t.ev
          · rw [handle_response_frame pb hf] at hn
            obtain rfl := Except.ok.inj (Option.some.inj hn)
            have := @ViewStep.reply pb s _ _ _ _ _ held ha hc hf
            refine cast ?_ this
            congr 1
            simp only [State.sent, ha, hc]
            rfl
          · have he := hrec.resolve_left hf
            rw [handle_response_exit pb he (hr a c hc).write] at hn
            simp at hn
      · rw [handle_response_dropped pb hrec] at hn
        obtain rfl := Except.ok.inj (Option.some.inj hn)
        exact .drop ⟨rest,hq⟩ held hrec
  · simp at hn

/-- Every step of the server is a step of its view. -/
theorem next_view {pb : Protobuf} {s s' : State} {act : Action} (hr : Readable s)
    (hn : (machine pb).Next s act s') : ViewStep pb s (view s) act (view s') := by
  cases act with
  | accept a =>
    simp only [Machine.Next, machine, step, Option.ite_none_left_eq_some, not_or,
      not_not] at hn
    obtain ⟨⟨-,hfree⟩,hn⟩ := hn
    obtain rfl := Except.ok.inj (Option.some.inj hn)
    exact .accept a hfree
  | arrive a bytes => exact arrive_view hr hn
  | handleError a =>
    simp only [Machine.Next, machine, step, Option.ite_none_left_eq_some,
      Option.map_eq_some_iff] at hn
    obtain ⟨-,c,hc,hn⟩ := hn
    obtain rfl := Except.ok.inj hn
    exact .handleError a
  | enter w =>
    simp only [Machine.Next, machine, step] at hn
    split at hn
    · rename_i hw
      obtain rfl := Except.ok.inj (Option.some.inj hn)
      rw [take_task_view hw rfl rfl (show (cycleEnter s.tp).queue = s.tp.queue from rfl)]
      exact .still trivial
    · simp at hn
  | wake w =>
    simp only [Machine.Next, machine, step] at hn
    split at hn
    · rename_i hw
      obtain rfl := Except.ok.inj (Option.some.inj hn)
      rw [take_task_view hw rfl rfl rfl]
      exact .still trivial
    · simp at hn
  | svc w answer => exact svc_view hn
  | push w =>
    rw [push_view hn]
    exact .still trivial
  | drain =>
    simp only [Machine.Next, machine, step, Option.ite_none_left_eq_some] at hn
    obtain ⟨-,hn⟩ := hn
    obtain rfl := Except.ok.inj (Option.some.inj hn)
    exact .still trivial
  | handleResponse => exact response_view hr hn

theorem step_readable {pb : Protobuf} {s : State} {v v' : View} {act : Action}
    (hs : ViewStep pb s v act v') (hr : ∀ a c, v.conns a = some c → ReadState c.cs) :
    ∀ a c, v'.conns a = some c → ReadState c.cs := by
  cases hs with
  | accept a => exact forall_set hr init_read_state
  | keep conn kept => exact forall_set hr kept.read
  | dispatch conn sent room => exact forall_set hr sent.read
  | refuse conn sent full => exact forall_set hr sent.read
  | @close a bytes c conn reading nothing => exact forall_erase hr a
  | handleError a => exact forall_erase hr a
  | still internal => exact hr
  | answer at_ held computed => exact hr
  | abandon held closed => exact hr
  | @reply t a c rest held args conn framed =>
    exact forall_set hr (replied_read_state t.ev (hr a c conn))
  | drop head held unknown => exact hr

theorem next_readable {pb : Protobuf} {s s' : State} {act : Action} (hr : Readable s)
    (hn : (machine pb).Next s act s') : Readable s' :=
  step_readable (next_view hr hn) hr

theorem start_readable (subscribers : EventHandlersMap) (threads : ℕ) (maxQueue : ℤ) :
    Readable (State.start subscribers threads maxQueue) :=
  fun a c hc => by simp [State.start] at hc

def settings (s : State) : Bool × EventHandlersMap := (s.svrExit, s.subscribers)

theorem enqueue_settings (s : State) (t : Work) : settings (s.enqueue t) = settings s := by
  unfold State.enqueue
  split <;> rfl

theorem take_task_settings (s : State) (w : ℕ) (tp : Pool Work) :
    settings (s.takeTask w tp) = settings s := by
  unfold State.takeTask
  split <;> rfl

theorem sent_settings (s : State) (ev : IEvent) (r : Sent) :
    settings (s.sent ev r) = settings s := by
  unfold State.sent
  split
  · rfl
  · split <;> rfl

/-- No step changes the subscriptions or closes the service. -/
theorem next_settings {pb : Protobuf} {s s' : State} {act : Action}
    (hn : (machine pb).Next s act s') : settings s' = settings s := by
  unfold Machine.Next machine step at hn
  cases act <;> simp only at hn
  case accept => split at hn <;> simp at hn; subst hn; rfl
  case arrive a bytes =>
    split at hn
    · simp at hn
    · obtain ⟨c,-,hn⟩ := Option.map_eq_some_iff.mp hn
      split at hn
      · simp at hn
      · obtain rfl := Except.ok.inj hn
        rfl
      · obtain rfl := Except.ok.inj hn
        exact enqueue_settings _ _
      · obtain rfl := Except.ok.inj hn
        rfl
  case handleError =>
    split at hn
    · simp at hn
    · obtain ⟨c,-,hn⟩ := Option.map_eq_some_iff.mp hn
      obtain rfl := Except.ok.inj hn
      rfl
  case enter w => split at hn <;> simp at hn; subst hn; exact take_task_settings _ _ _
  case wake w => split at hn <;> simp at hn; subst hn; exact take_task_settings _ _ _
  case svc w answer =>
    split at hn
    · obtain rfl := Except.ok.inj (Option.some.inj hn)
      split <;> rfl
    · simp at hn
  case push w => split at hn <;> simp at hn; subst hn; rfl
  case drain => split at hn <;> simp at hn; subst hn; rfl
  case handleResponse =>
    split at hn
    · split at hn
      · obtain rfl := Except.ok.inj (Option.some.inj hn)
        rfl
      · have hn := Option.some.inj hn
        split at hn
        · simp at hn
        · obtain rfl := Except.ok.inj hn
          rfl
        · obtain rfl := Except.ok.inj hn
          exact sent_settings _ _ _
    · simp at hn

end SharedBike.ServerView
