import SharedBike.SessionLifetime

/-!
# Bytes left in the input buffer

The read callback runs only when bytes arrive. Bytes that arrive while a
response is awaited, or behind the last byte of the dispatched frame, stay in
the buffer, and the path back to the reading state does not look at them.
-/

set_option autoImplicit false

namespace SharedBike.InputDrained
open LengthFrames GuardedRuns Heaps
open SharedBike.Globals SharedBike.BikeProtocol SharedBike.Events SharedBike.ThreadPool
open SharedBike.DispatchMsgService SharedBike.NetworkInterface SharedBike.RequestReader
open SharedBike.ConnectionFraming SharedBike.Server SharedBike.ServerView
open SharedBike.ServerInvariant SharedBike.SessionLifetime

/-- The session at `a` waits for a request and nothing in flight points at it. -/
structure Quiet (s : State) (a : Addr) (c : Conn) : Prop where
  conn : s.conns a = some c
  reading : c.cs.sessionStat = .ssRequest
  idle : ∀ t ∈ s.inFlight, t.ev.args ≠ some a

/-- The client sends no byte while it waits for a response, and an arrival that
completes a frame ends with that frame. -/
def OneAtATime (s : State) (act : Action) : Prop :=
  ∀ a bytes c, act = .arrive a bytes → s.conns a = some c →
    (c.cs.sessionStat = .ssResponse → bytes = []) ∧
    (c.cs.sessionStat = .ssRequest → ∀ f rest,
      readFrame wire (pendingBytes c.cs++c.input++bytes) = .complete f rest → rest = [])

def Drained (v : View) : Prop := ∀ a c, v.conns a = some c → c.input = []

theorem dispatched_drained {pb : Protobuf} {a : Addr} {bytes : LittleEndian.Bytes}
    {c c' : Conn} {ev : IEvent} (sent : Dispatched pb a c c' bytes ev)
    (hg : ∀ f rest, readFrame wire (pendingBytes c.cs++c.input++bytes) = .complete f rest →
      rest = []) : c'.input = [] := by
  obtain ⟨f,hf,-⟩ := sent.call
  exact hg f _ hf

theorem step_drained {pb : Protobuf} {s : State} {act : Action} {v' : View}
    (hs : ViewStep pb s (view s) act v') (h : Drained (view s)) (hg : OneAtATime s act) :
    Drained v' := by
  cases hs with
  | accept a free => exact forall_set h rfl
  | @keep a bytes c c' conn kept =>
    apply forall_set h
    rcases status_cases c.cs with hst | hst
    · exact (kept.drained hst).1
    · rw [kept.waiting hst, h a c conn, (hg a bytes c rfl conn).1 hst]
      rfl
  | @dispatch a bytes c c' ev conn sent room =>
    exact forall_set h (dispatched_drained sent ((hg a bytes c rfl conn).2 sent.before))
  | @refuse a bytes c c' ev conn sent full =>
    exact forall_set h (dispatched_drained sent ((hg a bytes c rfl conn).2 sent.before))
  | @close a bytes c conn reading nothing => exact forall_erase h a
  | handleError a => exact forall_erase h a
  | still internal => exact h
  | answer at_ held computed => exact h
  | abandon held closed => exact h
  | @reply t a c rest held args conn framed => exact forall_set h (h a c conn)
  | drop head held unknown => exact h

/-- No request is left behind in a run whose clients send one request at a time. -/
theorem nothing_left_behind (pb : Protobuf) (subscribers : EventHandlersMap) (threads : ℕ)
    (maxQueue : ℤ) (as : List Action) (s : State)
    (hr : (machine pb).Run OneAtATime (State.start subscribers threads maxQueue) as s)
    (a : Addr) (c : Conn) (hq : Quiet s a c) : c.input = [] := by
  have hi : Readable s ∧ Drained (view s) := by
    apply @Machine.Run.invariant _ _ _ _ _ _ _ _ (fun s => Readable s ∧ Drained (view s)) hr
    · exact ⟨start_readable subscribers threads maxQueue,fun b d hd => by
        simp [view, State.start] at hd⟩
    · intro t act u ht hg hn
      exact ⟨next_readable ht.1 hn,step_drained (next_view ht.1 hn) ht.2 hg⟩
  exact hi.2 a c hq.conn

def serve (frames : LittleEndian.Bytes) : List Action :=
  [.accept 8, .arrive 8 frames, .enter 0, .svc 0 (answerWith (mobileCodeRspEv 200 7)), .push 0,
    .drain, .handleResponse, .handleResponse]

theorem other_one_at_a_time {s : State} {act : Action} (h : ∀ a bytes, act ≠ .arrive a bytes) :
    OneAtATime s act := fun a bytes _ ha _ => absurd ha (h a bytes)

theorem frame_one_at_a_time {s : State} (h : s.conns 8 = some (Conn.accepted 0)) :
    OneAtATime s (.arrive 8 mobileFrame) := by
  rintro a bytes c ha hc
  obtain ⟨rfl,rfl⟩ := Action.arrive.inj ha
  obtain rfl := Option.some.inj (h.symm.trans hc)
  refine ⟨fun hx => by simp [Conn.accepted, sessionInit] at hx,fun _ f rest hf => ?_⟩
  have hwhole : readFrame wire (pendingBytes (Conn.accepted 0).cs++(Conn.accepted 0).input++
      mobileFrame) = .complete ⟨1, 3, [10, 1, 49]⟩ [] := rfl
  exact (Reading.complete.inj (hwhole.symm.trans hf)).2.symm

theorem nothing_left_behind_one : ∃ s c,
    (machine proto2).Run OneAtATime (State.opened oneHandler) (serve mobileFrame) s ∧
      s.log.length = 4 ∧ Quiet s 8 c ∧ c.input = [] := by
  obtain ⟨s,c,hs,hlog,hq⟩ : ∃ s c, (machine proto2).replay (State.opened oneHandler)
      (serve mobileFrame) = some s ∧ s.log.length = 4 ∧ Quiet s 8 c :=
    ⟨_,_,rfl,rfl,⟨rfl,rfl,fun t ht => absurd ht (Multiset.notMem_zero t)⟩⟩
  have hr : (machine proto2).Run OneAtATime (State.opened oneHandler)
      (serve mobileFrame) s := by
    apply (Machine.free_of_replay hs).guarded_at
    intro bs act t hb ht _
    obtain ⟨rest,hrest⟩ := hb
    match bs, act, hrest, ht with
    | [], act, hrest, _ =>
      obtain rfl := (List.cons.inj hrest).1
      exact other_one_at_a_time (by simp)
    | [x], act, hrest, ht =>
      obtain ⟨hx,htail⟩ := List.cons.inj hrest
      obtain rfl := (List.cons.inj htail).1
      subst hx
      have hacc := ht.replay_eq
      obtain rfl := Option.some.inj hacc
      exact frame_one_at_a_time rfl
    | x::y::bs, act, hrest, _ =>
      have hmem : act ∈ (serve mobileFrame).drop 2 := by
        rw [← hrest]
        simp
      apply other_one_at_a_time
      intro a bytes hact
      rw [hact] at hmem
      simp [serve] at hmem
  exact ⟨s,c,hr,hlog,hq,
    nothing_left_behind proto2 oneHandler defaultThreadsNum defaultQueueNum (serve mobileFrame) s
      hr 8 c hq⟩

/-- The second request arrives while the first is served. After the answer the
session is reading, nothing is in flight, and the request waits in the buffer. -/
def overlapping : List Action :=
  [.accept 8, .arrive 8 mobileFrame, .arrive 8 mobileFrame, .enter 0,
    .svc 0 (answerWith (mobileCodeRspEv 200 7)), .push 0, .drain, .handleResponse,
    .handleResponse]

theorem second_request_left : ∃ s c,
    (machine proto2).Run Machine.Free (State.opened oneHandler) overlapping s ∧
      Quiet s 8 c ∧ c.input = mobileFrame ∧
      readFrame wire c.input = .complete ⟨1, 3, [10, 1, 49]⟩ [] := by
  obtain ⟨s,c,hs,hq,hin⟩ : ∃ s c, (machine proto2).replay (State.opened oneHandler)
      overlapping = some s ∧ Quiet s 8 c ∧ c.input = mobileFrame :=
    ⟨_,_,rfl,⟨rfl,rfl,fun t ht => absurd ht (Multiset.notMem_zero t)⟩,rfl⟩
  exact ⟨s,c,Machine.free_of_replay hs,hq,hin,by rw [hin]; rfl⟩

end SharedBike.InputDrained
