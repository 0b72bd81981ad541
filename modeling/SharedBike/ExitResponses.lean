import SharedBike.FrameOutcomes

/-!
# Requests that yield no response

`svc` queues an exit event for a request that no handler answers. The response
loop stores it in `cs->response` and calls `send_response_msg`, which takes a
session with a response to be one with a write buffer. A session between two
requests has none.
-/

set_option autoImplicit false

namespace SharedBike.ExitResponses
open GuardedRuns
open SharedBike.Globals SharedBike.BikeProtocol SharedBike.Events SharedBike.DispatchMsgService
open SharedBike.NetworkInterface SharedBike.ConnectionFraming SharedBike.Server
open SharedBike.ServerView SharedBike.SessionLifetime

/-- The exit response that answers a request. -/
def exitWork (t : Work) : Work := ⟨exitRspEv.setArgs t.ev.args, t.sid⟩

/-- The response loop takes the front event, frees the session behind it, and
writes nothing. -/
def ClosesCleanly (pb : Protobuf) (s : State) (a : Addr) : Prop :=
  ∃ s', (machine pb).Next s .handleResponse s' ∧ s'.conns a = none ∧ s'.log = s.log

/-- A request for which `process` returns null is answered with the exit event. -/
theorem svc_exit {pb : Protobuf} {s u : State} {w : ℕ} {answer : Handler → Option IEvent}
    {t : Work} (hw : s.workers[w]? = some (.running t)) (hopen : s.svrExit = false)
    (hnull : process s.subscribers answer t.ev = none)
    (hn : (machine pb).Next s (.svc w answer) u) :
    u.workers[w]? = some (.pushing (exitWork t)) := by
  have hsvc : svc s.svrExit s.subscribers answer t.ev = some (exitRspEv.setArgs t.ev.args) := by
    rw [svc, hopen, hnull]
    rfl
  simp only [Machine.Next, machine, step, hw, hsvc] at hn
  obtain rfl := Except.ok.inj (Option.some.inj hn)
  exact List.getElem?_set_self (List.getElem?_eq_some_iff.mp hw).1

/-- The exit event at the front of the responses makes the network thread read
the null write buffer of its live session. -/
theorem exit_fails {pb : Protobuf} {s : State} {t : Work} {later : List Work} {a : Addr}
    {c : Conn} (hr : Readable s) (hd : s.draining = true)
    (head : s.responseEvents = exitWork t::later) (hargs : t.ev.args = some a)
    (hc : s.conns a = some c) : (machine pb).Fails s .handleResponse .nullPointer := by
  have hargs : (exitWork t).ev.args = some a := hargs
  have hsession : s.session (exitWork t).ev = .ok c := by
    simp only [State.session, hargs, hc]
  have hexit := handle_response_exit pb (show (exitWork t).ev.eid = EventId.exitRsp.code from rfl)
    (hr a c hc).write
  simp only [Machine.Fails, machine, step, hd, if_true, head, hsession, Except.map, hexit]

/-- For every subscriber map, every request that `process` answers with null,
and every later state in which its exit event is taken while the session lives:
the response loop faults on the null buffer, and closes nothing. -/
theorem exit_never_clean (pb : Protobuf) (subscribers : EventHandlersMap) (threads : ℕ)
    (maxQueue : ℤ) (as bs : List Action) (s s' : State) (w : ℕ)
    (answer : Handler → Option IEvent) (t : Work) (later : List Work) (a : Addr) (c : Conn)
    (hr : (machine pb).Run Machine.Free (State.start subscribers threads maxQueue) as s)
    (hw : s.workers[w]? = some (.running t))
    (hnull : process s.subscribers answer t.ev = none)
    (hr' : (machine pb).Run Machine.Free s (.svc w answer::bs) s')
    (hd : s'.draining = true) (head : s'.responseEvents = exitWork t::later)
    (hargs : t.ev.args = some a) (hc : s'.conns a = some c) :
    (∃ u, (machine pb).Next s (.svc w answer) u ∧
      u.workers[w]? = some (.pushing (exitWork t))) ∧
    (machine pb).Fails s' .handleResponse .nullPointer ∧ ¬ ClosesCleanly pb s' a := by
  have hset : settings s = settings (State.start subscribers threads maxQueue) :=
    @Machine.Run.invariant _ _ _ (machine pb) Machine.Free _ _ _
      (fun t => settings t = settings (State.start subscribers threads maxQueue))
      hr rfl fun _ _ _ h _ hn => (next_settings hn).trans h
  have hread : Readable s' := (hr.append hr').invariant
    (start_readable subscribers threads maxQueue) fun _ _ _ h _ hn => next_readable h hn
  have hfail := @exit_fails pb s' t later a c hread hd head hargs hc
  refine ⟨?_,hfail,?_⟩
  · obtain ⟨u,hu,-⟩ :=
      (show (machine pb).Run Machine.Free s ([.svc w answer]++bs) s' from hr').split
    exact ⟨u,hu.one,svc_exit hw (Prod.mk.inj hset).1 hnull hu.one⟩
  · rintro ⟨v,hv,-⟩
    rw [Machine.Next, hfail] at hv
    simp at hv

/-- A request whose identifier nobody subscribed. -/
def unanswered : List Action :=
  [.accept 8, .arrive 8 mobileFrame, .enter 0, .svc 0 fun _ => none, .push 0, .drain]

def nobody : EventHandlersMap := fun _ => none

theorem unanswered_exit : ∃ s t later c,
    (machine proto2).Run Machine.Free (State.opened nobody) unanswered s ∧
      s.draining = true ∧ s.responseEvents = exitWork t::later ∧ t.ev.args = some 8 ∧
      s.conns 8 = some c ∧ (machine proto2).Fails s .handleResponse .nullPointer ∧
      ¬ ClosesCleanly proto2 s 8 := by
  obtain ⟨s,t,c,hs,hd,head,hargs,hc⟩ : ∃ s t c,
      (machine proto2).replay (State.opened nobody) unanswered = some s ∧ s.draining = true ∧
      s.responseEvents = [exitWork t] ∧ t.ev.args = some 8 ∧ s.conns 8 = some c :=
    ⟨_,⟨(mobileCodeReqEv [49]).setArgs (some 8), 0⟩,_,rfl,rfl,rfl,rfl,rfl⟩
  have hrun := Machine.free_of_replay hs
  have hread : Readable s := hrun.invariant (start_readable nobody _ _)
    fun _ _ _ h _ hn => next_readable h hn
  have hfail := @exit_fails proto2 s t [] 8 c hread hd head hargs hc
  refine ⟨s,t,[],c,hrun,hd,head,hargs,hc,hfail,?_⟩
  rintro ⟨v,hv,-⟩
  rw [Machine.Next, hfail] at hv
  simp at hv

theorem exit_never_clean_unanswered : ∃ s s' t,
    (machine proto2).Run Machine.Free (State.opened nobody) (unanswered.take 3) s ∧
      (machine proto2).Run Machine.Free s (unanswered.drop 3) s' ∧
      (∃ u, (machine proto2).Next s (.svc 0 fun _ => none) u ∧
        u.workers[0]? = some (.pushing (exitWork t))) ∧
      (machine proto2).Fails s' .handleResponse .nullPointer ∧
      ¬ ClosesCleanly proto2 s' 8 := by
  obtain ⟨s,t,hs,hw,hnull,ht⟩ : ∃ s t, (machine proto2).replay (State.opened nobody)
      (unanswered.take 3) = some s ∧ s.workers[0]? = some (.running t) ∧
      process s.subscribers (fun _ => none) t.ev = none ∧
      t = ⟨(mobileCodeReqEv [49]).setArgs (some 8), 0⟩ := ⟨_,_,rfl,rfl,rfl,rfl⟩
  obtain ⟨s',c,hs',hd,head,hc⟩ : ∃ s' c, (machine proto2).replay (State.opened nobody)
      unanswered = some s' ∧ s'.draining = true ∧
      s'.responseEvents = [exitWork ⟨(mobileCodeReqEv [49]).setArgs (some 8), 0⟩] ∧
      s'.conns 8 = some c := ⟨_,_,rfl,rfl,rfl,rfl⟩
  have hrun := Machine.free_of_replay hs
  obtain ⟨v,hv,hv'⟩ := (show (machine proto2).Run Machine.Free (State.opened nobody)
    (unanswered.take 3++unanswered.drop 3) s' from Machine.free_of_replay hs').split
  obtain rfl := hv.unique hrun
  rw [← ht] at head
  exact ⟨v,s',t,hrun,hv',exit_never_clean proto2 nobody _ _ _ _ v s' 0 _ t [] 8 c hrun hw hnull hv'
    hd head (by rw [ht]; rfl) hc⟩

end SharedBike.ExitResponses
