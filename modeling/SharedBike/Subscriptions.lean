import SharedBike.DispatchMsgService
import SharedBike.Library.OrderedSets

/-!
# Subscriptions

The subscriber map holds one list of handlers for each identifier. Whatever
calls were made, the list is the ordered set of the handlers that subscribed and
did not leave, and an event goes through it once, from the front to the back.
-/

set_option autoImplicit false

namespace SharedBike.Subscriptions
open OrderedSets
open SharedBike.Globals SharedBike.Events SharedBike.DispatchMsgService

/-- An `add` is a call of `subscribe`, a `remove` one of `unsubscribe`. -/
abbrev Call := OrderedSets.Call ℕ Handler

def invoke (subscribers : EventHandlersMap) : Call → EventHandlersMap
  | .add eid handler => subscribe subscribers eid handler
  | .remove eid handler => unsubscribe subscribers eid handler

def afterCalls (cs : List Call) : EventHandlersMap := cs.foldl invoke fun _ => none

/-- The handlers of an identifier; one that the map does not know has none. -/
def handlersOf (subscribers : EventHandlersMap) (eid : ℕ) : List Handler :=
  (subscribers eid).getD []

variable {subscribers : EventHandlersMap} {eid : ℕ} {handler : Handler}

section Dispatch
variable {σ : Type} {handle : Handler → IEvent → σ → Option IEvent × σ} {ev : IEvent}

/-- The handlers, with every call of `handle` written down. -/
def recorded (handle : Handler → IEvent → σ → Option IEvent × σ) (handler : Handler)
    (ev : IEvent) (s : σ × List (Handler × IEvent)) :
    Option IEvent × (σ × List (Handler × IEvent)) :=
  ((handle handler ev s.1).1, (handle handler ev s.1).2, s.2++[(handler, ev)])

theorem process_with_eq (hu : ev.eid ≠ EventId.unknown.code) (s : σ) :
    processWith subscribers handle ev s =
      (handlersOf subscribers ev.eid).foldl (fun r handler => handle handler ev r.2) (none, s) := by
  rw [processWith, if_neg hu, handlersOf]
  cases subscribers ev.eid <;> rfl

/-- Writing the calls down changes nothing, and the handlers are called in order. -/
theorem recorded_calls (hs : List Handler) (r : Option IEvent) (s : σ)
    (log : List (Handler × IEvent)) :
    hs.foldl (fun r handler => recorded handle handler ev r.2) (r, s, log) =
      ((hs.foldl (fun r handler => handle handler ev r.2) (r, s)).1,
        (hs.foldl (fun r handler => handle handler ev r.2) (r, s)).2,
        log++hs.map fun handler => (handler, ev)) := by
  induction hs generalizing r s log with
  | nil => simp
  | cons h hs ih =>
    rw [List.foldl_cons, List.foldl_cons, List.map_cons, ← List.singleton_append,
      ← List.append_assoc]
    exact ih _ _ _

theorem process_recorded (hu : ev.eid ≠ EventId.unknown.code) (s : σ) :
    processWith subscribers (recorded handle) ev (s, []) =
      ((processWith subscribers handle ev s).1, (processWith subscribers handle ev s).2,
        (handlersOf subscribers ev.eid).map fun handler => (handler, ev)) := by
  rw [process_with_eq hu, process_with_eq hu, recorded_calls, List.nil_append]

/-- Handlers without a state answer as in `process`. -/
theorem process_stateless (subscribers : EventHandlersMap) (answer : Handler → Option IEvent)
    (ev : IEvent) :
    (processWith subscribers (fun handler _ (u : Unit) => (answer handler, u)) ev ()).1 =
      process subscribers answer ev := by
  unfold processWith process
  split_ifs
  · rfl
  · cases subscribers ev.eid with
    | none => rfl
    | some hs =>
      induction hs using List.reverseRecOn with
      | nil => rfl
      | append_singleton hs h ih => simp [List.foldl_append]

/-- The calls behind an answer of `process`: each subscribed handler once, in order. -/
theorem process_calls (hu : ev.eid ≠ EventId.unknown.code) (subscribers : EventHandlersMap)
    (answer : Handler → Option IEvent) :
    processWith subscribers (recorded fun handler _ (u : Unit) => (answer handler, u)) ev ((), []) =
      (process subscribers answer ev, (),
        (handlersOf subscribers ev.eid).map fun handler => (handler, ev)) := by
  rw [process_recorded hu, process_stateless]

end Dispatch

end SharedBike.Subscriptions
