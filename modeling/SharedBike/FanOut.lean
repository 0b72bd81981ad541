import SharedBike.Subscriptions

/-!
# Responses in the fan-out

`process` gives the event to every subscriber and keeps one result, which each
subscriber overwrites, also with no response. What the last subscriber answers
is what the service answers.
-/

set_option autoImplicit false

namespace SharedBike.FanOut
open SharedBike.Globals SharedBike.Events SharedBike.DispatchMsgService SharedBike.Subscriptions

/-- If a subscriber of the event's identifier answers, some answer is what `process`
returns and what the pool task queues; with no answer, nobody gave one. -/
structure Kept (subscribers : EventHandlersMap) (answer : Handler → Option IEvent)
    (ev : IEvent) : Prop where
  kept : (∃ handler ∈ handlersOf subscribers ev.eid, answer handler ≠ none) →
    ∃ handler ∈ handlersOf subscribers ev.eid, ∃ rsp, answer handler = some rsp ∧
      process subscribers answer ev = some rsp ∧
      svc false subscribers answer ev = some (rsp.setArgs ev.args)
  silent : process subscribers answer ev = none →
    ∀ handler ∈ handlersOf subscribers ev.eid, answer handler = none

/-- The list ends with a subscriber that answers, and the event gets there. -/
def LastAnswers (subscribers : EventHandlersMap) (answer : Handler → Option IEvent)
    (ev : IEvent) : Prop :=
  ev.eid ≠ EventId.unknown.code ∧
    ∃ handler, (handlersOf subscribers ev.eid).getLast? = some handler ∧ answer handler ≠ none

variable {subscribers : EventHandlersMap} {answer : Handler → Option IEvent} {ev : IEvent}

theorem process_last (hu : ev.eid ≠ EventId.unknown.code) :
    process subscribers answer ev = (handlersOf subscribers ev.eid).getLast?.bind answer := by
  rw [process_eq _ _ _ hu, handlersOf]
  cases subscribers ev.eid <;> rfl

theorem svc_process {rsp : IEvent} (h : process subscribers answer ev = some rsp) :
    svc false subscribers answer ev = some (rsp.setArgs ev.args) := by
  simp only [svc, Bool.false_eq_true, if_false, h]

/-- Whatever `process` returns, the last subscriber answered. -/
theorem process_some {rsp : IEvent} (h : process subscribers answer ev = some rsp) :
    ev.eid ≠ EventId.unknown.code ∧ ∃ handler,
      (handlersOf subscribers ev.eid).getLast? = some handler ∧ answer handler = some rsp := by
  have hu : ev.eid ≠ EventId.unknown.code := by
    intro hu
    rw [process, if_pos hu] at h
    simp at h
  rw [process_last hu] at h
  exact ⟨hu,Option.bind_eq_some_iff.mp h⟩

/-- No response is lost exactly if the last subscriber answers, or nobody does. -/
theorem kept_iff_last (subscribers : EventHandlersMap) (answer : Handler → Option IEvent)
    (ev : IEvent) : Kept subscribers answer ev ↔ LastAnswers subscribers answer ev ∨
      ∀ handler ∈ handlersOf subscribers ev.eid, answer handler = none := by
  constructor
  · intro h
    cases hp : process subscribers answer ev with
    | none => exact Or.inr (h.silent hp)
    | some rsp =>
      obtain ⟨hu,handler,hlast,hans⟩ := process_some hp
      exact Or.inl ⟨hu,handler,hlast,by simp [hans]⟩
  · rintro (⟨hu,handler,hlast,hans⟩ | hnone)
    · obtain ⟨rsp,hrsp⟩ := Option.ne_none_iff_exists'.mp hans
      have hp : process subscribers answer ev = some rsp := by
        rw [process_last hu, hlast, Option.bind_some, hrsp]
      refine ⟨fun _ => ?_,fun h => ?_⟩
      · exact ⟨handler,List.mem_of_getLast? hlast,rsp,hrsp,hp,svc_process hp⟩
      · rw [hp] at h
        simp at h
    · exact ⟨fun ⟨handler,hm,hans⟩ => absurd (hnone handler hm) hans,fun _ => hnone⟩

/-- Two handlers subscribe to code requests; only the first one answers. -/
def twoHandlers : EventHandlersMap :=
  afterCalls [.add EventId.getMobileCodeReq.code 0, .add EventId.getMobileCodeReq.code 1]

def firstAnswers (handler : Handler) : Option IEvent :=
  if handler = 0 then some (mobileCodeRspEv EErrorCode.success.code 7) else none

/-- The silent second handler overwrites the response of the first, and the task
queues the exit event. -/
theorem response_overwritten :
    handlersOf twoHandlers EventId.getMobileCodeReq.code = [0, 1] ∧
      firstAnswers 0 = some (mobileCodeRspEv EErrorCode.success.code 7) ∧
      process twoHandlers firstAnswers (mobileCodeReqEv [49]) = none ∧
      svc false twoHandlers firstAnswers (mobileCodeReqEv [49]) = some exitRspEv ∧
      ¬ Kept twoHandlers firstAnswers (mobileCodeReqEv [49]) := by
  have hlist : handlersOf twoHandlers EventId.getMobileCodeReq.code = [0, 1] := rfl
  have hnone : process twoHandlers firstAnswers (mobileCodeReqEv [49]) = none := rfl
  refine ⟨hlist,rfl,hnone,rfl,fun h => ?_⟩
  have hmem : 0 ∈ handlersOf twoHandlers (mobileCodeReqEv [49]).eid := by
    show 0 ∈ [0, 1]
    simp
  have hsilent := h.silent hnone 0 hmem
  simp [firstAnswers] at hsilent

end SharedBike.FanOut
