import SharedBike.Platform
import SharedBike.Library.Composition

/-!
# Where each entry of the platform's log comes from

The entries of a handler call stand between the dispatch of the request it was
made for and the answer, and nothing else of that session stands between these
two. This holds in every run in which an address is allocated only when no item
in flight points at it.
-/

set_option autoImplicit false

namespace SharedBike.Chronicles
open GuardedRuns Histories Slots
open SharedBike.Globals SharedBike.BikeProtocol SharedBike.Events SharedBike.DispatchMsgService
open SharedBike.NetworkInterface SharedBike.ConnectionFraming
open SharedBike.Server (Work Worker)
open SharedBike.ServerView SharedBike.ServerInvariant SharedBike.CallHistory
open SharedBike.Conversations SharedBike.Platform

/-- No entry of the server is about the session. -/
def Quiet (sid : ℕ) (l : List Event) : Prop := ∀ e, .inl e ∈ l → entrySid e ≠ sid

/-- What happened since `t` was dispatched: nothing else on its session, and of
the calls made for its session at most `o`, which made no entry before. -/
structure Since (served : List Work) (t : Work) (o : Option ℕ) (before after : List Event) :
    Prop where
  quiet : Quiet t.sid after
  only : ∀ e ev, .inr e ∈ after → served[e.call]? = some ⟨ev, t.sid⟩ → o = some e.call
  fresh : ∀ i, o = some i → served[i]? = some t ∧ ∀ e, .inr e ∈ before → e.call ≠ i

def Asking (served : List Work) (t : Work) (o : Option ℕ) (log : List Event) : Prop :=
  ∃ before after, log = before++.inl (.dispatched t.sid t.ev)::after ∧
    Since served t o before after

/-- The last entry of the session is the answer of `t`, which is not written yet. -/
def Answering (t : Work) (log : List Event) : Prop :=
  ∃ req before after, log = before++.inl (.answered t.sid req t.ev)::after ∧ Quiet t.sid after

/-- The call whose whole history stands between a request and its answer. -/
structure Served (served : List Work) (i sid : ℕ) (req rsp : IEvent)
    (before after : List Event) : Prop where
  since : Since served ⟨req, sid⟩ (some i) before after
  result : ∃ r, Completed i req (some r) (own i (rights after)) ∧ rsp = r.setArgs req.args

/-- What stands before an entry when it is made. -/
def Sound (pb : Protobuf) (served : List Work) (pre : List Event) : Event → Prop
  | .inr e => ∃ t before after, pre = before++.inl (.dispatched t.sid t.ev)::after ∧
      Since served t (some e.call) before after
  | .inl (.answered sid req rsp) => ∃ i before after,
      pre = before++.inl (.dispatched sid req)::after ∧ Served served i sid req rsp before after
  | .inl (.wrote sid frame) => ∃ req rsp before after,
      pre = before++.inl (.answered sid req rsp)::after ∧ Quiet sid after ∧
        frame = responseFrame pb rsp rsp.eid
  | .inl (.dispatched _ ev) => Request ev
  | .inl (.accepted _ _) => True

/-- A worker is in a call that was made for the session. -/
def Busy (s : State) (sid i : ℕ) : Prop :=
  ∃ w ev, s.calling w = some i ∧ s.served[i]? = some ⟨ev, sid⟩

structure Chronicled (pb : Protobuf) (h : Handler) (s : State) : Prop where
  conversing : Conversing pb (view s.srv)
  setup : settings s.srv = (false, mainSubscribers h)
  reached : ∃ table as, UserEventHandler.machine.Run Machine.Free
    (UserEventHandler.State.start table) as s.users
  server : lefts s.log = s.srv.log
  handler : rights s.log = s.users.log
  calls : s.users.calls.map UserEventHandler.Call.ev = s.served.map Work.ev
  busy : ∀ w i, s.calling w = some i →
    ∃ t, s.served[i]? = some t ∧ s.srv.workers[w]? = some (.running t)
  asking : ∀ t ∈ (view s.srv).requests, ∃ o, Asking s.served t o s.log ∧
    ∀ i, Busy s t.sid i ↔ o = some i
  answering : ∀ t ∈ (view s.srv).responses, Answering t s.log
  sound : Historic (Sound pb s.served) s.log

/-- An address is allocated only when no item in flight points at it. -/
def Reuses (s : State) (act : Action) : Prop :=
  ∀ a, act = .net (.accept a) → ∀ t ∈ s.srv.inFlight, t.ev.args ≠ some a

theorem quiet_append {sid : ℕ} {l es : List Event} (h : Quiet sid l) (hes : Quiet sid es) :
    Quiet sid (l++es) := by
  intro e he
  rcases List.mem_append.mp he with he | he
  · exact h e he
  · exact hes e he

theorem quiet_rights (sid : ℕ) (es : List UserEventHandler.Entry) :
    Quiet sid (es.map .inr) := by
  intro e he
  simp at he

/-- Entries of other sessions and of the session's own call may follow. -/
theorem since_append {served : List Work} {t : Work} {o : Option ℕ} {before after es : List Event}
    (h : Since served t o before after) (hq : Quiet t.sid es)
    (ho : ∀ e ev, .inr e ∈ es → served[e.call]? = some ⟨ev, t.sid⟩ → o = some e.call) :
    Since served t o before (after++es) := by
  refine ⟨quiet_append h.quiet hq,fun e ev he hev => ?_,h.fresh⟩
  rcases List.mem_append.mp he with he | he
  · exact h.only e ev he hev
  · exact ho e ev he hev

theorem asking_append {served : List Work} {t : Work} {o : Option ℕ} {log es : List Event}
    (h : Asking served t o log) (hq : Quiet t.sid es)
    (ho : ∀ e ev, .inr e ∈ es → served[e.call]? = some ⟨ev, t.sid⟩ → o = some e.call) :
    Asking served t o (log++es) := by
  obtain ⟨before,after,rfl,hs⟩ := h
  exact ⟨before,after++es,by simp,since_append hs hq ho⟩

theorem answering_append {t : Work} {log es : List Event} (h : Answering t log)
    (hq : Quiet t.sid es) : Answering t (log++es) := by
  obtain ⟨req,before,after,rfl,ha⟩ := h
  exact ⟨req,before,after++es,by simp,quiet_append ha hq⟩

theorem served_get {served : List Work} {t u : Work} {i : ℕ} (hi : i < served.length)
    (h : (served++[t])[i]? = some u) : served[i]? = some u := by
  rwa [List.getElem?_append_left hi] at h

theorem get_served {served : List Work} {t u : Work} {i : ℕ} (h : served[i]? = some u) :
    (served++[t])[i]? = some u := by
  rwa [List.getElem?_append_left (List.getElem?_eq_some_iff.mp h).1]

/-- A call made later changes nothing about the entries already made. -/
theorem since_served {served : List Work} {t u : Work} {o : Option ℕ} {before after : List Event}
    (h : Since served t o before after)
    (hknown : ∀ e, .inr e ∈ after → e.call < served.length) :
    Since (served++[u]) t o before after :=
  ⟨h.quiet,fun e ev he hev => h.only e ev he (served_get (hknown e he) hev),
    fun i hi => ⟨get_served (h.fresh i hi).1,(h.fresh i hi).2⟩⟩

theorem sound_served {pb : Protobuf} {served : List Work} {u : Work} {pre : List Event}
    {x : Event} (h : Sound pb served pre x)
    (hknown : ∀ e, .inr e ∈ pre → e.call < served.length) : Sound pb (served++[u]) pre x := by
  match x, h with
  | .inr e, h =>
    obtain ⟨t,before,after,rfl,hs⟩ := h
    exact ⟨t,before,after,rfl,since_served hs fun x hx => hknown x (by simp [hx])⟩
  | .inl (.answered sid req rsp), h =>
    obtain ⟨i,before,after,rfl,hs⟩ := h
    exact ⟨i,before,after,rfl,since_served hs.since fun x hx => hknown x (by simp [hx]),hs.result⟩
  | .inl (.wrote sid frame), h => exact h
  | .inl (.dispatched sid ev), h => exact h
  | .inl (.accepted sid a), _ => trivial

end SharedBike.Chronicles
