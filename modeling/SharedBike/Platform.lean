import SharedBike.Conversations
import SharedBike.Library.Histories

/-!
# The server with its handler

A pool worker that runs a request calls the handler that is subscribed for it,
moves through the call, and hands its result to `svc`. The two machines share
nothing else. The served items and the log are ghosts: the item for which each
call was made, and the entries of both logs in the order in which they were
made.
-/

set_option autoImplicit false

namespace SharedBike.Platform
open GuardedRuns Histories
open SharedBike.Globals SharedBike.BikeProtocol SharedBike.Events SharedBike.DispatchMsgService
open SharedBike.Server SharedBike.ServerView SharedBike.CallHistory SharedBike.Conversations

abbrev Event := Server.Entry ⊕ UserEventHandler.Entry

structure State where
  srv : Server.State
  users : UserEventHandler.State
  calling : ℕ → Option ℕ
  served : List Work
  log : List Event

/-- The service of `main`: one handler object, subscribed for both requests. -/
def State.start (h : Handler) (threads : ℕ) (maxQueue : ℤ) (table : UserService.UserInfo) :
    State where
  srv := Server.State.start (mainSubscribers h) threads maxQueue
  users := UserEventHandler.State.start table
  calling := fun _ => none
  served := []
  log := []

inductive Action where
  | net (act : Server.Action)
  | handle (w : ℕ)
  | advance (w : ℕ) (env : UserEventHandler.Environment)
  | finish (w : ℕ)

def State.withServer (s : State) (srv : Server.State) : State :=
  { s with srv := srv, log := s.log++(srv.log.drop s.srv.log.length).map .inl }

def State.withUsers (s : State) (users : UserEventHandler.State) : State :=
  { s with users := users, log := s.log++(users.log.drop s.users.log.length).map .inr }

def State.enterCall (s : State) (w : ℕ) (t : Work) (users : UserEventHandler.State) : State :=
  { s.withUsers users with
    calling := Function.update s.calling w (some s.users.calls.length)
    served := s.served++[t] }

def State.leaveCall (s : State) (w : ℕ) (srv : Server.State) : State :=
  { s.withServer srv with calling := Function.update s.calling w none }

/-- The handlers that `process` calls for an event, in order. -/
def callees (subscribers : EventHandlersMap) (ev : IEvent) : List Handler :=
  if ev.eid = EventId.unknown.code then [] else (subscribers ev.eid).getD []

/-- `svc` leaves at once when the service has exited, and answers by itself when
nobody is subscribed; otherwise the handler's result is the answer. -/
def step (pb : Protobuf) (s : State) : Action → Option (Except Fault State)
  | .net act => match act with
    | .svc _ _ => none
    | _ => (Server.step pb s.srv act).map fun r => r.map s.withServer
  | .handle w => match s.srv.workers[w]?, s.calling w with
    | some (.running t), none =>
      if s.srv.svrExit = true ∨ callees s.srv.subscribers t.ev = [] then
        (Server.step pb s.srv (.svc w fun _ => none)).map fun r => r.map s.withServer
      else (UserEventHandler.step s.users (.call t.ev)).map fun r => r.map (s.enterCall w t)
    | _, _ => none
  | .advance w env => match s.calling w with
    | some i => (UserEventHandler.step s.users (.advance i env)).map fun r => r.map s.withUsers
    | none => none
  | .finish w => match s.calling w with
    | some i => match s.users.calls[i]? with
      | some ⟨_, .returned rsp⟩ =>
        (Server.step pb s.srv (.svc w fun _ => rsp)).map fun r => r.map (s.leaveCall w)
      | _ => none
    | none => none

def machine (pb : Protobuf) : Machine State Action Fault := ⟨step pb⟩

/-- What one step of the platform can do. -/
inductive Moved (pb : Protobuf) (s : State) : Action → State → Prop
  | net {act : Server.Action} {srv : Server.State} (other : ∀ w answer, act ≠ .svc w answer)
      (next : (Server.machine pb).Next s.srv act srv) : Moved pb s (.net act) (s.withServer srv)
  | skip {w : ℕ} {t : Work} {srv : Server.State} (at_ : s.srv.workers[w]? = some (.running t))
      (idle : s.calling w = none)
      (nobody : s.srv.svrExit = true ∨ callees s.srv.subscribers t.ev = [])
      (next : (Server.machine pb).Next s.srv (.svc w fun _ => none) srv) :
      Moved pb s (.handle w) (s.withServer srv)
  | handle {w : ℕ} {t : Work} {users : UserEventHandler.State}
      (at_ : s.srv.workers[w]? = some (.running t)) (idle : s.calling w = none)
      (next : UserEventHandler.machine.Next s.users (.call t.ev) users) :
      Moved pb s (.handle w) (s.enterCall w t users)
  | advance {w i : ℕ} {env : UserEventHandler.Environment} {users : UserEventHandler.State}
      (busy : s.calling w = some i)
      (next : UserEventHandler.machine.Next s.users (.advance i env) users) :
      Moved pb s (.advance w env) (s.withUsers users)
  | finish {w i : ℕ} {ev : IEvent} {rsp : Option IEvent} {srv : Server.State}
      (busy : s.calling w = some i) (done : s.users.calls[i]? = some ⟨ev, .returned rsp⟩)
      (next : (Server.machine pb).Next s.srv (.svc w fun _ => rsp) srv) :
      Moved pb s (.finish w) (s.leaveCall w srv)

theorem mapped_next {σ τ : Type} {x : Option (Except Fault σ)} {f : σ → τ} {t : τ}
    (h : (x.map fun r => r.map f) = some (.ok t)) : ∃ u, x = some (.ok u) ∧ f u = t := by
  obtain ⟨r,hr,hx⟩ := Option.map_eq_some_iff.mp h
  cases r with
  | error e => simp [Except.map] at hx
  | ok u => exact ⟨u,hr,Except.ok.inj hx⟩

theorem next_moved {pb : Protobuf} {s s' : State} {act : Action}
    (hn : (machine pb).Next s act s') : Moved pb s act s' := by
  simp only [Machine.Next, machine, step] at hn
  cases act with
  | net act =>
    have hother : ∀ w answer, act ≠ .svc w answer := by
      rintro w answer rfl
      simp at hn
    have hn : ((Server.step pb s.srv act).map fun r => r.map s.withServer) = some (.ok s') := by
      cases act with
      | svc w answer => exact absurd rfl (hother w answer)
      | _ => exact hn
    obtain ⟨srv,hs,rfl⟩ := mapped_next hn
    exact .net hother hs
  | handle w =>
    simp only at hn
    split at hn
    · rename_i t hw hidle
      split at hn
      · rename_i hnobody
        obtain ⟨srv,hs,rfl⟩ := mapped_next hn
        exact .skip hw hidle hnobody hs
      · obtain ⟨users,hs,rfl⟩ := mapped_next hn
        exact .handle hw hidle hs
    · simp at hn
  | advance w env =>
    simp only at hn
    split at hn
    · rename_i i hbusy
      obtain ⟨users,hs,rfl⟩ := mapped_next hn
      exact .advance hbusy hs
    · simp at hn
  | finish w =>
    simp only at hn
    split at hn
    · rename_i i hbusy
      split at hn
      · rename_i ev rsp hdone
        obtain ⟨srv,hs,rfl⟩ := mapped_next hn
        exact .finish hbusy hdone hs
      · simp at hn
    · simp at hn

end SharedBike.Platform
