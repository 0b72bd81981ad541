import SharedBike.SessionLifetime

/-!
# The outcome of a complete frame

A frame is answered with one event at the end of the task queue or with a closed
connection. Two paths do neither: a payload that does not parse for one of the two
known identifiers reaches the end of `parseEvent`, where no value is returned, and
an event that a full pool refuses is in no queue while its session waits.
-/

set_option autoImplicit false

namespace SharedBike.FrameOutcomes
open LittleEndian LengthFrames GuardedRuns
open SharedBike.Globals SharedBike.BikeProtocol SharedBike.Events
open SharedBike.DispatchMsgService SharedBike.RequestReader
open SharedBike.ConnectionFraming SharedBike.Server SharedBike.ServerView
open SharedBike.SessionLifetime

/-- The event that a frame asks for: the parsed fields under the frame's identifier. -/
def requested (pb : Protobuf) (f : Frame) : Option IEvent :=
  if f.tag = EventId.getMobileCodeReq.code then
    (pb.mobileRequest.parseFromArray f.payload).map fun mr => mobileCodeReqEv mr.mobile
  else if f.tag = EventId.loginReq.code then
    (pb.loginRequest.parseFromArray f.payload).map fun lr => loginReqEv lr.mobile lr.icode
  else none

/-- Either the event is returned and the task queue gets it as its one new item,
with the session as its argument, and the session is kept; or null is returned,
the queue stays as it is and the session is freed. -/
def Defined (pb : Protobuf) (s : State) (a : Addr) (bytes : Bytes) (c : Conn) (f : Frame) :
    Prop :=
  ∃ u, (machine pb).Next s (.arrive a bytes) u ∧ u.workers = s.workers ∧
    u.responseEvents = s.responseEvents ∧
    match requested pb f with
    | some ev => parseEvent pb (some f.payload) f.len f.tag = .ok (some ev) ∧ ev.eid = f.tag ∧
        u.tp.queue = s.tp.queue++[⟨ev.setArgs (some a), c.sid⟩] ∧
        ∃ c', c'.sid = c.sid ∧ c'.cs.sessionStat = .ssResponse ∧
          u.conns = Function.update s.conns a (some c')
    | none => parseEvent pb (some f.payload) f.len f.tag = .ok none ∧ u.tp = s.tp ∧
        u.conns = Function.update s.conns a none

/-- A payload under one of the two known identifiers parses as its message. -/
def Parses (pb : Protobuf) (f : Frame) : Prop :=
  (f.tag = EventId.getMobileCodeReq.code →
    (pb.mobileRequest.parseFromArray f.payload).isSome) ∧
  (f.tag = EventId.loginReq.code → (pb.loginRequest.parseFromArray f.payload).isSome)

/-- For the two known identifiers, the pool can take a task. -/
def Room (s : State) (f : Frame) : Prop :=
  f.tag = EventId.getMobileCodeReq.code ∨ f.tag = EventId.loginReq.code →
    s.tp.waiting < s.tp.maxQueue

/-- `parseEvent` in full: a null return only for an unknown identifier. -/
theorem parse_event_eq (pb : Protobuf) {f : Frame} (hl : f.payload.length = f.len) :
    (Parses pb f → parseEvent pb (some f.payload) f.len f.tag = .ok (requested pb f)) ∧
    (¬ Parses pb f →
      parseEvent pb (some f.payload) f.len f.tag = .error .missingReturn ∧
        requested pb f = none) := by
  have hne : EventId.getMobileCodeReq.code ≠ EventId.loginReq.code := by decide
  have htake : f.payload.take f.len = f.payload := List.take_of_length_le hl.le
  unfold parseEvent requested Parses
  simp only [htake]
  by_cases h1 : f.tag = EventId.getMobileCodeReq.code
  · have h2 : f.tag ≠ EventId.loginReq.code := fun he => hne (h1.symm.trans he)
    simp only [if_pos h1]
    cases pb.mobileRequest.parseFromArray f.payload with
    | none => simp [h1, hne]
    | some mr => simp [h1, hne]
  · by_cases h2 : f.tag = EventId.loginReq.code
    · simp only [if_neg h1, if_pos h2]
      cases pb.loginRequest.parseFromArray f.payload with
      | none => simp [h2]
      | some lr => simp [h2, hne.symm]
    · simp [h1, h2]

theorem requested_eid {pb : Protobuf} {f : Frame} {ev : IEvent} (h : requested pb f = some ev) :
    ev.eid = f.tag := by
  unfold requested at h
  split_ifs at h with h1 h2
  · obtain ⟨mr,-,rfl⟩ := Option.map_eq_some_iff.mp h
    exact h1.symm
  · obtain ⟨lr,-,rfl⟩ := Option.map_eq_some_iff.mp h
    exact h2.symm

theorem requested_known {pb : Protobuf} {f : Frame} (h : Parses pb f) :
    (requested pb f).isSome ↔
      f.tag = EventId.getMobileCodeReq.code ∨ f.tag = EventId.loginReq.code := by
  unfold requested
  split_ifs with h1 h2
  · simp [h1, h.1 h1]
  · simp [h2, h.2 h2]
  · simp [h1, h2]

/-- The queue gets the item if the pool has room, and else stays as it is. -/
theorem enqueue_queue (s : State) (t : Work) : (s.enqueue t).tp.queue =
    if s.tp.waiting < s.tp.maxQueue then s.tp.queue++[t] else s.tp.queue := by
  unfold State.enqueue ThreadPool.threadTaskPost
  by_cases hroom : s.tp.waiting < s.tp.maxQueue
  · rw [if_neg (not_le.mpr hroom), if_pos hroom]
  · rw [if_pos (not_lt.mp hroom), if_neg hroom]

/-- A complete frame is dispatched to `parseEvent`, and the arrival is what it answers. -/
theorem arrive_frame {pb : Protobuf} {a : Addr} {c : Conn} {bytes rest : Bytes} {f : Frame}
    (h : ReadState c.cs) (hs : c.cs.sessionStat = .ssRequest)
    (hf : readFrame wire (pendingBytes c.cs++c.input++bytes) = .complete f rest) :
    ∃ c', c'.sid = c.sid ∧ c'.cs.sessionStat = .ssResponse ∧
      c.arrive pb a bytes = match parseEvent pb (some f.payload) f.len f.tag with
        | .error e => .error e
        | .ok none => .ok (.free (some f))
        | .ok (some ev) => .ok (.enqueue c' (ev.setArgs (some a))) := by
  have href := handle_request_refines pb a h hs (c.input++bytes)
  rw [← List.append_assoc, Refines, hf] at href
  obtain ⟨cs,-,hst,hcs⟩ := href
  refine ⟨{ c with cs := cs, input := rest, received := c.received++bytes, calls := c.calls++[f] },
    rfl,hst,?_⟩
  rw [Conn.arrive, hcs, dispatchFrame]
  cases parseEvent pb (some f.payload) f.len f.tag with
  | error e => rfl
  | ok r => cases r <;> rfl

/-- What the arrival does to the server, in each case of `parseEvent`. -/
theorem arrive_step {pb : Protobuf} {s : State} {a : Addr} {c : Conn} {bytes : Bytes}
    (hd : s.draining = false) (hc : s.conns a = some c) :
    (machine pb).step s (.arrive a bytes) = some (match c.arrive pb a bytes with
      | .error f => .error f
      | .ok (.keep c) => .ok (s.setConn a (some c))
      | .ok (.enqueue c ev) => .ok ((s.setConn a (some c)).enqueue ⟨ev, c.sid⟩)
      | .ok (.free _) => .ok (s.setConn a none)) := by
  have hdrain : ¬ s.draining = true := by simp [hd]
  show (if s.draining = true then none else _) = _
  rw [if_neg hdrain, hc]
  rfl

/-- In every reachable state, an arrival that completes a frame has its defined
outcome if and only if, for the identifiers that are known, the payload parses
and the pool can take a task. -/
theorem defined_iff (pb : Protobuf) (subscribers : EventHandlersMap) (threads : ℕ)
    (maxQueue : ℤ) (as : List Action) (s : State)
    (hr : (machine pb).Run Machine.Free (State.start subscribers threads maxQueue) as s)
    (a : Addr) (c : Conn) (bytes rest : Bytes) (f : Frame) (hd : s.draining = false)
    (hc : s.conns a = some c) (hs : c.cs.sessionStat = .ssRequest)
    (hf : readFrame wire (pendingBytes c.cs++c.input++bytes) = .complete f rest) :
    Defined pb s a bytes c f ↔ Parses pb f ∧ Room s f := by
  have hread : Readable s := hr.invariant (start_readable subscribers threads maxQueue)
    fun _ _ _ h _ hn => next_readable h hn
  obtain ⟨hparses,hfails⟩ := parse_event_eq pb (read_inv wire hf).1.payload_length
  obtain ⟨c',hsid,hst,harr⟩ := @arrive_frame pb a c bytes rest f (hread a c hc) hs hf
  have hstep := @arrive_step pb s a c bytes hd hc
  rw [harr] at hstep
  constructor
  · rintro ⟨u,hn,-,-,h⟩
    have hp : Parses pb f := by
      by_contra hno
      obtain ⟨herr,hnone⟩ := hfails hno
      rw [hnone, herr] at h
      simp at h
    refine ⟨hp,fun hknown => ?_⟩
    obtain ⟨ev,hq⟩ := Option.isSome_iff_exists.mp ((requested_known hp).mpr hknown)
    rw [hparses hp, hq] at hstep
    rw [hq] at h
    obtain rfl := Except.ok.inj (Option.some.inj (hn.symm.trans hstep))
    obtain ⟨-,-,hqueue,-⟩ := h
    -- a refused post leaves the queue as it was, one item short
    by_contra hfull
    rw [enqueue_queue] at hqueue
    simp [State.setConn, hfull] at hqueue
  · rintro ⟨hp,hroom⟩
    have hev := hparses hp
    rw [hev] at hstep
    cases hq : requested pb f with
    | none =>
      rw [hq] at hev hstep
      refine ⟨_,hstep,rfl,rfl,?_⟩
      rw [hq]
      exact ⟨hev,rfl,rfl⟩
    | some ev =>
      rw [hq] at hev hstep
      have hknown := (requested_known hp).mp (by rw [hq]; rfl)
      obtain ⟨h1,h2,h3⟩ := enqueue_places (s.setConn a (some c')) ⟨ev.setArgs (some a), c'.sid⟩
      refine ⟨_,hstep,h1,h2,?_⟩
      rw [hq]
      refine ⟨hev,requested_eid hq,?_,c',hsid,hst,h3⟩
      rw [enqueue_queue, ← hsid]
      exact if_pos (hroom hknown)

/-- A request for a code with a one-byte payload that ends inside its first field. -/
def cutFrame : Bytes := [70, 66, 69, 66, 1, 0, 1, 0, 0, 0, 10]

theorem defined_iff_mobile : ∃ s c f,
    (machine proto2).Run Machine.Free (State.opened oneHandler) [.accept 8] s ∧
      (Defined proto2 s 8 mobileFrame c f ↔ Parses proto2 f ∧ Room s f) ∧
      Defined proto2 s 8 mobileFrame c f := by
  obtain ⟨s,c,f,hs,hd,hc,hst,hf,hp,hroom⟩ : ∃ s c f,
      (machine proto2).replay (State.opened oneHandler) [.accept 8] = some s ∧
      s.draining = false ∧ s.conns 8 = some c ∧ c.cs.sessionStat = .ssRequest ∧
      readFrame wire (pendingBytes c.cs++c.input++mobileFrame) = .complete f [] ∧
      Parses proto2 f ∧ Room s f :=
    ⟨_,_,⟨1, 3, [10, 1, 49]⟩,rfl,rfl,rfl,rfl,rfl,
      ⟨fun _ => rfl,fun h => absurd h (by decide)⟩,fun _ => by decide⟩
  have hrun := Machine.free_of_replay hs
  have hiff := defined_iff proto2 oneHandler _ _ _ s hrun 8 c mobileFrame [] f hd hc hst hf
  exact ⟨s,c,f,hrun,hiff,hiff.mpr ⟨hp,hroom⟩⟩

/-- A frame with a valid header on a fresh session, and no defined outcome: the
callback runs into the missing return. -/
theorem cut_frame_undefined : ∃ s c f,
    (machine proto2).Run Machine.Free (State.opened oneHandler) [.accept 8] s ∧
      s.conns 8 = some c ∧ readFrame wire (pendingBytes c.cs++c.input++cutFrame) =
        .complete f [] ∧
      (machine proto2).Fails s (.arrive 8 cutFrame) .missingReturn ∧
      ¬ Defined proto2 s 8 cutFrame c f := by
  obtain ⟨s,c,f,hs,hc,hf,hfail,hnone,hparse⟩ : ∃ s c f,
      (machine proto2).replay (State.opened oneHandler) [.accept 8] = some s ∧
      s.conns 8 = some c ∧
      readFrame wire (pendingBytes c.cs++c.input++cutFrame) = .complete f [] ∧
      (machine proto2).Fails s (.arrive 8 cutFrame) .missingReturn ∧
      requested proto2 f = none ∧
      parseEvent proto2 (some f.payload) f.len f.tag = .error .missingReturn :=
    ⟨_,_,⟨1, 1, [10]⟩,rfl,rfl,rfl,rfl,rfl,rfl⟩
  refine ⟨s,c,f,Machine.free_of_replay hs,hc,hf,hfail,?_⟩
  rintro ⟨u,-,-,-,h⟩
  rw [hnone, hparse] at h
  simp at h

end SharedBike.FrameOutcomes
