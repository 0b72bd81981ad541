import SharedBike.Events

/-!
# Message dispatch

From bytes to events, from an event to the subscribed handlers, and from the
handlers' result to the response that a pool task queues. What one handler
answers is an argument: the handlers are virtual.
-/

set_option autoImplicit false

namespace SharedBike.DispatchMsgService
open LittleEndian SharedBike.Globals SharedBike.BikeProtocol SharedBike.Events

/-- Identity of a handler object. -/
abbrev Handler := ℕ

abbrev EventHandlersMap := ℕ → Option (List Handler)

def subscribe (subscribers : EventHandlersMap) (eid : ℕ) (handler : Handler) :
    EventHandlersMap :=
  match subscribers eid with
  | some hs => if handler ∈ hs then subscribers
      else Function.update subscribers eid (some (hs++[handler]))
  | none => Function.update subscribers eid (some [handler])

def unsubscribe (subscribers : EventHandlersMap) (eid : ℕ) (handler : Handler) :
    EventHandlersMap :=
  match subscribers eid with
  | some hs => Function.update subscribers eid (some (hs.erase handler))
  | none => subscribers

/-- A payload that does not parse for one of the two known identifiers
reaches the end of the function without a value. -/
def parseEvent (pb : Protobuf) (msg : Option Bytes) (len eid : ℕ) :
    Except Fault (Option IEvent) :=
  match msg with
  | none => .ok none
  | some buf =>
    if eid = EventId.getMobileCodeReq.code then
      match pb.mobileRequest.parseFromArray (buf.take len) with
      | some mr => .ok (some (mobileCodeReqEv mr.mobile))
      | none => .error .missingReturn
    else if eid = EventId.loginReq.code then
      match pb.loginRequest.parseFromArray (buf.take len) with
      | some lr => .ok (some (loginReqEv lr.mobile lr.icode))
      | none => .error .missingReturn
    else .ok none

/-- Each subscriber's answer overwrites the one before it. -/
def process (subscribers : EventHandlersMap) (answer : Handler → Option IEvent)
    (ev : IEvent) : Option IEvent :=
  if ev.eid = EventId.unknown.code then none
  else match subscribers ev.eid with
    | none => none
    | some handlers => handlers.foldl (fun _ handler => answer handler) none

/-- The same loop over handlers that carry a state from one call to the next. -/
def processWith {σ : Type} (subscribers : EventHandlersMap)
    (handle : Handler → IEvent → σ → Option IEvent × σ) (ev : IEvent) (s : σ) :
    Option IEvent × σ :=
  if ev.eid = EventId.unknown.code then (none, s)
  else match subscribers ev.eid with
    | none => (none, s)
    | some handlers => handlers.foldl (fun r handler => handle handler ev r.2) (none, s)

/-- What a pool task pushes to the response queue, if it pushes at all. -/
def svc (svrExit : Bool) (subscribers : EventHandlersMap)
    (answer : Handler → Option IEvent) (ev : IEvent) : Option IEvent :=
  if svrExit then none
  else match process subscribers answer ev with
    | some rsp => some (rsp.setArgs ev.args)
    | none => some (exitRspEv.setArgs ev.args)

theorem foldl_last (answer : Handler → Option IEvent) (handlers : List Handler)
    (r : Option IEvent) :
    handlers.foldl (fun _ handler => answer handler) r =
      (handlers.getLast?.map answer).getD r := by
  induction handlers using List.reverseRecOn with
  | nil => rfl
  | append_singleton hs h ih => simp

/-- Only the last subscriber's answer survives. -/
theorem process_eq (subscribers : EventHandlersMap) (answer : Handler → Option IEvent)
    (ev : IEvent) (hu : ev.eid ≠ EventId.unknown.code) :
    process subscribers answer ev =
      ((subscribers ev.eid).bind List.getLast?).bind answer := by
  rw [process, if_neg hu]
  cases subscribers ev.eid with
  | none => rfl
  | some handlers =>
    simp only [foldl_last, Option.bind_some]
    cases handlers.getLast? <;> rfl

theorem svc_args {svrExit : Bool} {subscribers : EventHandlersMap}
    {answer : Handler → Option IEvent} {ev rsp : IEvent}
    (h : svc svrExit subscribers answer ev = some rsp) : rsp.args = ev.args := by
  unfold svc at h
  split at h
  · simp at h
  · split at h <;> obtain rfl := Option.some.inj h <;> rfl

/-- An open service answers every request. -/
theorem svc_open (subscribers : EventHandlersMap) (answer : Handler → Option IEvent)
    (ev : IEvent) : ∃ rsp, svc false subscribers answer ev = some rsp := by
  unfold svc
  simp only [Bool.false_eq_true, if_false]
  split <;> exact ⟨_,rfl⟩

/-- The events of the parser are requests that name no session yet. -/
theorem parse_event_cases {pb : Protobuf} {msg : Option Bytes} {len eid : ℕ} {ev : IEvent}
    (h : parseEvent pb msg len eid = .ok (some ev)) :
    ev.eid = eid ∧ ((∃ mobile, ev = mobileCodeReqEv mobile) ∨
      ∃ mobile icode, ev = loginReqEv mobile icode) := by
  cases msg with
  | none => simp [parseEvent] at h
  | some buf =>
    simp only [parseEvent] at h
    split_ifs at h with h1 h2
    · split at h
      · rename_i mr _
        obtain rfl := Option.some.inj (Except.ok.inj h)
        exact ⟨h1.symm,Or.inl ⟨_,rfl⟩⟩
      · simp at h
    · split at h
      · rename_i lr _
        obtain rfl := Option.some.inj (Except.ok.inj h)
        exact ⟨h2.symm,Or.inr ⟨_,_,rfl⟩⟩
      · simp at h
    · simp at h

end SharedBike.DispatchMsgService
