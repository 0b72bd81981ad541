import SharedBike.SessionLifetime

/-!
# The drain loop ends

While the network thread is inside `handleAllResponseEvent` no session is
accepted or read, so nothing new is posted. The workers move the items that are
in flight towards the response queue, and each iteration takes one of them out,
or finds the queue empty and ends the loop.
-/

set_option autoImplicit false

namespace SharedBike.DrainLoop
open GuardedRuns
open SharedBike.BikeProtocol SharedBike.Events SharedBike.ThreadPool
open SharedBike.DispatchMsgService SharedBike.NetworkInterface SharedBike.Server
open SharedBike.ServerView SharedBike.SessionLifetime

/-- One iteration of the loop. -/
def iteration : Action → ℕ
  | .handleResponse => 1
  | _ => 0

def iterations (as : List Action) : ℕ := (as.map iteration).sum

/-- Steps are taken while the network thread is in the loop. -/
def InLoop (s : State) (_ : Action) : Prop := s.draining = true

/-- The iterations that are left: one for each item, and the last one. -/
def rank (s : State) : ℕ := if s.draining then s.inFlight.card+1 else 0

theorem take_task_draining (s : State) (w : ℕ) (tp : Pool Work) :
    (s.takeTask w tp).draining = s.draining := by
  unfold State.takeTask
  split <;> rfl

theorem sent_flight (s : State) (ev : IEvent) (r : Sent) : (s.sent ev r).inFlight = s.inFlight := by
  obtain ⟨htp,hworkers,hresponses,-⟩ := sent_places s ev r
  rw [State.inFlight, State.requests, State.responses, htp, hworkers, hresponses]
  rfl

theorem front_split (s : State) {t : Work} {rest : List Work} (h : s.responseEvents = t::rest) :
    s.inFlight = State.inFlight { s with responseEvents := rest }+{t} := by
  simp only [State.inFlight, State.requests, State.responses, h, ← Multiset.cons_coe,
    ← Multiset.singleton_add]
  abel

/-- An iteration takes the front item and goes on, or finds none and ends the loop. -/
theorem next_iteration {pb : Protobuf} {s s' : State} (hd : s.draining = true)
    (hn : (machine pb).Next s .handleResponse s') :
    s'.draining = false ∨ (s'.draining = true ∧ ∃ t, s.inFlight = s'.inFlight+{t}) := by
  simp only [Machine.Next, machine, step] at hn
  rw [if_pos hd] at hn
  split at hn
  · obtain rfl := Except.ok.inj (Option.some.inj hn)
    exact Or.inl rfl
  · rename_i t rest hq
    have hsplit := front_split s hq
    have hn := Option.some.inj hn
    split at hn
    · simp at hn
    · obtain rfl := Except.ok.inj hn
      exact Or.inr ⟨hd,t,hsplit⟩
    · rename_i r _
      obtain rfl := Except.ok.inj hn
      obtain ⟨-,-,-,hkeep⟩ := sent_places { s with responseEvents := rest } t.ev r
      exact Or.inr ⟨hkeep.trans hd,t,by rw [sent_flight, hsplit]⟩

/-- The other steps inside the loop are the workers'. -/
theorem next_worker {pb : Protobuf} {s s' : State} {act : Action} (hd : s.draining = true)
    (hn : (machine pb).Next s act s') (hact : act ≠ .handleResponse) : s'.draining = true := by
  cases act with
  | handleResponse => exact absurd rfl hact
  | accept a => simp [Machine.Next, machine, step, hd] at hn
  | arrive a bytes => simp [Machine.Next, machine, step, hd] at hn
  | handleError a => simp [Machine.Next, machine, step, hd] at hn
  | drain => simp [Machine.Next, machine, step, hd] at hn
  | enter w =>
    simp only [Machine.Next, machine, step] at hn
    split at hn
    · obtain rfl := Except.ok.inj (Option.some.inj hn)
      exact (take_task_draining _ _ _).trans hd
    · simp at hn
  | wake w =>
    simp only [Machine.Next, machine, step] at hn
    split at hn
    · obtain rfl := Except.ok.inj (Option.some.inj hn)
      exact (take_task_draining _ _ _).trans hd
    · simp at hn
  | svc w answer =>
    simp only [Machine.Next, machine, step] at hn
    split at hn
    · obtain rfl := Except.ok.inj (Option.some.inj hn)
      split <;> exact hd
    · simp at hn
  | push w =>
    simp only [Machine.Next, machine, step] at hn
    split at hn
    · obtain rfl := Except.ok.inj (Option.some.inj hn)
      exact hd
    · simp at hn

/-- Outside the read callback nothing is added to what is in flight. -/
theorem step_flight {pb : Protobuf} {s : State} {v v' : View} {act : Action}
    (hs : ViewStep pb s v act v') (hact : ∀ a bytes, act ≠ .arrive a bytes) :
    v'.inFlight.card ≤ v.inFlight.card := by
  cases hs with
  | @keep a bytes c c' conn kept => exact absurd rfl (hact a bytes)
  | @dispatch a bytes c c' ev conn sent room => exact absurd rfl (hact a bytes)
  | @refuse a bytes c c' ev conn sent full => exact absurd rfl (hact a bytes)
  | @close a bytes c conn reading nothing => exact absurd rfl (hact a bytes)
  | accept a free => exact le_rfl
  | handleError a => exact le_rfl
  | still internal => exact le_rfl
  | answer at_ held computed =>
    simp only [View.inFlight, held, Multiset.card_add, Multiset.card_singleton]
    omega
  | abandon held closed =>
    simp only [View.inFlight, held, Multiset.card_add]
    omega
  | @reply t a c rest held args conn framed =>
    show (v.requests+rest).card ≤ _
    simp only [View.inFlight, held, Multiset.card_add]
    omega
  | drop head held unknown =>
    simp only [View.inFlight, held, Multiset.card_add]
    omega

/-- Inside the loop nothing is read, so nothing is posted. -/
theorem loop_reads_nothing {pb : Protobuf} {s s' : State} {act : Action}
    (hd : s.draining = true) (hn : (machine pb).Next s act s') (a : Addr)
    (bytes : LittleEndian.Bytes) : act ≠ .arrive a bytes := by
  rintro rfl
  simp [Machine.Next, machine, step, hd] at hn

theorem next_rank {pb : Protobuf} {s s' : State} {act : Action} (hr : Readable s)
    (hl : InLoop s act) (hn : (machine pb).Next s act s') :
    iteration act+rank s' ≤ rank s := by
  have hd : s.draining = true := hl
  have hrank : rank s = s.inFlight.card+1 := if_pos hd
  by_cases hact : act = .handleResponse
  · subst hact
    have hone : iteration .handleResponse = 1 := rfl
    rcases next_iteration hd hn with hend | ⟨hgo,t,hsplit⟩
    · have hrank' : rank s' = 0 := by rw [rank, hend]; rfl
      omega
    · have hrank' : rank s' = s'.inFlight.card+1 := if_pos hgo
      have hcard := congrArg Multiset.card hsplit
      rw [Multiset.card_add, Multiset.card_singleton] at hcard
      omega
  · have hgo := next_worker hd hn hact
    have hrank' : rank s' = s'.inFlight.card+1 := if_pos hgo
    have hzero : iteration act = 0 := by
      cases act <;> first | rfl | exact absurd rfl hact
    have hflight : s'.inFlight.card ≤ s.inFlight.card :=
      step_flight (next_view hr hn) (loop_reads_nothing hd hn)
    omega

/-- The network thread is never held up in the loop. -/
theorem iteration_enabled (pb : Protobuf) {s : State} (hd : s.draining = true) :
    (machine pb).step s .handleResponse ≠ none := by
  simp only [machine, step]
  rw [if_pos hd]
  split <;> simp

/-- However the workers step, the loop runs at most one iteration for each item
in flight when it is entered, and one more; while it runs, the items that are
left bound the iterations that are left. -/
theorem drain_bounded (pb : Protobuf) (subscribers : EventHandlersMap) (threads : ℕ)
    (maxQueue : ℤ) (as bs : List Action) (s entered t : State)
    (hr : (machine pb).Run Machine.Free (State.start subscribers threads maxQueue) as s)
    (hd : (machine pb).Next s .drain entered)
    (hl : (machine pb).Run InLoop entered bs t) :
    iterations bs ≤ s.inFlight.card+1 ∧
      (t.draining = true → iterations bs+t.inFlight.card ≤ s.inFlight.card ∧
        (machine pb).step t .handleResponse ≠ none) := by
  have hread : Readable s := hr.invariant (start_readable subscribers threads maxQueue)
    fun _ _ _ h _ hn => next_readable h hn
  have hrank : rank entered = s.inFlight.card+1 := by
    simp only [Machine.Next, machine, step, Option.ite_none_left_eq_some] at hd
    obtain rfl := Except.ok.inj (Option.some.inj hd.2)
    exact if_pos rfl
  have hspent : iterations bs+rank t ≤ s.inFlight.card+1 := by
    rw [← hrank]
    exact (hl.ranked (next_readable hread hd) fun _ _ _ hi hg hn =>
      ⟨next_readable hi hn,next_rank hi hg hn⟩).2
  refine ⟨le_trans (Nat.le_add_right _ _) hspent,fun ht => ⟨?_,iteration_enabled pb ht⟩⟩
  have hrank' : rank t = t.inFlight.card+1 := if_pos ht
  omega

/-- Two requests are with the workers when the loop is entered; each response is
pushed after the one before it was sent. -/
def twoRequests : List Action :=
  [.accept 8, .arrive 8 mobileFrame, .accept 9, .arrive 9 mobileFrame, .enter 0, .enter 1]

def pushedInLoop (rsp : IEvent) : List Action :=
  [.svc 0 (answerWith rsp), .push 0, .handleResponse, .svc 1 (answerWith rsp), .push 1,
    .handleResponse, .handleResponse]

theorem drain_bounded_two : ∃ s entered t : State,
    (machine proto2).Run Machine.Free (State.opened oneHandler) twoRequests s ∧
      (machine proto2).Next s .drain entered ∧
      (machine proto2).Run InLoop entered (pushedInLoop (mobileCodeRspEv 200 7)) t ∧
      t.draining = false ∧
      iterations (pushedInLoop (mobileCodeRspEv 200 7)) ≤ s.inFlight.card+1 ∧
      iterations (pushedInLoop (mobileCodeRspEv 200 7)) = s.inFlight.card+1 := by
  obtain ⟨s,entered,t,hs,hcard,hd,hl,ht⟩ : ∃ s entered t,
      (machine proto2).replay (State.opened oneHandler) twoRequests = some s ∧
      s.inFlight.card = 2 ∧ (machine proto2).Next s .drain entered ∧
      (machine proto2).Run InLoop entered (pushedInLoop (mobileCodeRspEv 200 7)) t ∧
      t.draining = false :=
    ⟨_,_,_,rfl,rfl,rfl,.cons rfl rfl (.cons rfl rfl (.cons rfl rfl (.cons rfl rfl
      (.cons rfl rfl (.cons rfl rfl (.cons rfl rfl .nil)))))),rfl⟩
  have hrun := Machine.free_of_replay hs
  refine ⟨s,entered,t,hrun,hd,hl,ht,
    (drain_bounded proto2 oneHandler _ _ _ _ s entered t hrun hd hl).1,?_⟩
  rw [hcard]
  rfl

end SharedBike.DrainLoop
