import SharedBike.ServerInvariant

/-!
# The lifetime of sessions and of the items that point at them

An item in flight is live if its pointer leads to the session that dispatched
it. The error callback frees a session without asking whether an item still
points at it, and this is the only step that can leave a stale item behind.
-/

set_option autoImplicit false

namespace SharedBike.SessionLifetime
open LengthFrames GuardedRuns Slots
open SharedBike.Globals SharedBike.BikeProtocol SharedBike.Events SharedBike.ThreadPool
open SharedBike.DispatchMsgService SharedBike.NetworkInterface SharedBike.RequestReader
open SharedBike.ConnectionFraming SharedBike.Server SharedBike.ServerView
open SharedBike.ServerInvariant

def Live (conns : Heap) (t : Work) : Prop :=
  ∃ a c, t.ev.args = some a ∧ conns a = some c ∧ c.sid = t.sid

/-- No event outlives its session: every request and response in flight points
at the open session that dispatched it, and so does the event that the network
thread takes next. -/
structure NoStale (s : State) : Prop where
  live : ∀ t ∈ s.inFlight, Live s.conns t
  answers : ∀ t rest, s.responseEvents = t::rest →
    ∃ c, s.session t.ev = .ok c ∧ c.sid = t.sid

/-- The error callback fires only on sessions that no item in flight points at. -/
def ErrorsIdle (s : State) (act : Action) : Prop :=
  ∀ a, act = .handleError a → ∀ t ∈ s.inFlight, t.ev.args ≠ some a

structure Safe (v : View) : Prop extends Tidy v where
  live : ∀ t ∈ v.inFlight, Live v.conns t

theorem live_update {conns : Heap} {t : Work} {a : Addr} {c : Option Conn}
    (h : Live conns t) (ha : t.ev.args ≠ some a) : Live (Function.update conns a c) t := by
  obtain ⟨b,d,hb,hd,hs⟩ := h
  refine ⟨b,d,hb,?_,hs⟩
  have hba : b ≠ a := by
    rintro rfl
    exact ha hb
  rw [Function.update_of_ne hba, hd]

theorem live_replace {conns : Heap} {t : Work} {a : Addr} {c c' : Conn} (h : Live conns t)
    (hc : conns a = some c) (hs : c'.sid = c.sid) :
    Live (Function.update conns a (some c')) t := by
  obtain ⟨b,d,hb,hd,hsd⟩ := h
  by_cases hba : b = a
  · subst hba
    obtain rfl := Option.some.inj (hc.symm.trans hd)
    exact ⟨b,c',hb,by rw [Function.update_self],hs.trans hsd⟩
  · exact ⟨b,d,hb,by rw [Function.update_of_ne hba, hd],hsd⟩

/-- A free address has no live item, so allocation cannot revive a stale one. -/
theorem live_reusable {pb : Protobuf} {s : State} {v v' : View} {act : Action}
    (hs : ViewStep pb s v act v') (h : ∀ t ∈ v.inFlight, Live v.conns t) : Reusable v act := by
  rintro a rfl t ht hta
  obtain ⟨b,c,hb,hc,-⟩ := h t ht
  obtain rfl := Option.some.inj (hb.symm.trans hta)
  cases hs with
  | accept a free => rw [free] at hc; simp at hc
  | still internal => exact internal

theorem step_live {pb : Protobuf} {s : State} {v v' : View} {act : Action}
    (hs : ViewStep pb s v act v') (h : Safe v)
    (hg : ∀ a, act = .handleError a → ∀ t ∈ v.inFlight, t.ev.args ≠ some a) :
    ∀ t ∈ v'.inFlight, Live v'.conns t := by
  have hdrop : ∀ {items : Multiset Work} {t : Work}, v.inFlight = items+{t} →
      ∀ u ∈ items, Live v.conns u := by
    intro items t hsplit u hu
    apply h.live u
    rw [hsplit]
    exact mem_snoc.mpr (Or.inl hu)
  cases hs with
  | accept a free =>
    exact fun t ht => live_update (h.live t ht)
      (@live_reusable pb s _ _ _ (.accept a free) h.live a rfl t ht)
  | keep conn kept => exact fun t ht => live_replace (h.live t ht) conn kept.sid
  | @dispatch a bytes c c' ev conn sent room =>
    intro t ht
    have ht : t ∈ v.requests+{⟨ev, c.sid⟩}+v.responses := ht
    rw [add_right_comm] at ht
    rcases mem_snoc.mp ht with ht | rfl
    · exact live_replace (h.live t ht) conn sent.sid
    · obtain ⟨-,-,-,req,-,hev⟩ := sent.call
      exact ⟨a,c',by rw [hev]; rfl,Function.update_self _ _ _,sent.sid⟩
  | refuse conn sent full => exact fun t ht => live_replace (h.live t ht) conn sent.sid
  | close conn reading nothing =>
    exact fun t ht => live_update (h.live t ht)
      (reading_unreferenced h.toTidy conn reading ht).1
  | handleError a => exact fun t ht => live_update (h.live t ht) (hg a rfl t ht)
  | still internal => exact h.live
  | @answer w answer t rsp rest at_ held computed =>
    intro u hu
    have hu : u ∈ rest+(v.responses+{⟨rsp, t.sid⟩}) := hu
    rw [← add_assoc] at hu
    rcases mem_snoc.mp hu with hu | rfl
    · exact hdrop (requests_split held) u hu
    · obtain ⟨a,c,ha,hc,hsid⟩ := h.live t (by
        rw [requests_split held]; exact mem_snoc.mpr (Or.inr rfl))
      exact ⟨a,c,(svc_args computed).trans ha,hc,hsid⟩
  | abandon held closed => exact hdrop (requests_split held)
  | reply held args conn framed =>
    exact fun u hu => live_replace (hdrop (in_flight_split held) u hu) conn rfl
  | drop head held unknown => exact hdrop (in_flight_split held)

theorem next_safe {pb : Protobuf} {s s' : State} {act : Action} (h : Safe (view s))
    (hg : ErrorsIdle s act) (hn : (machine pb).Next s act s') : Safe (view s') := by
  have hv := next_view h.readable hn
  exact ⟨step_tidy hv h.toTidy (live_reusable hv h.live),step_live hv h hg⟩

theorem start_safe (subscribers : EventHandlersMap) (threads : ℕ) (maxQueue : ℤ) :
    Safe (view (State.start subscribers threads maxQueue)) := by
  refine ⟨start_tidy subscribers threads maxQueue,fun t ht => ?_⟩
  rw [start_empty] at ht
  simp at ht

theorem safe_no_stale {s : State} (h : Safe (view s)) : NoStale s where
  live := h.live
  answers t rest hq := by
    have ht : t ∈ (view s).inFlight := by
      refine Multiset.mem_add.mpr (Or.inr (Multiset.mem_add.mpr (Or.inr ?_)))
      rw [hq]
      simp
    obtain ⟨a,c,ha,hc,hs⟩ := h.live t ht
    have hc : s.conns a = some c := hc
    exact ⟨c,by simp only [State.session, ha, hc],hs⟩

/-- An error callback after which nothing is stale fired on an idle session. -/
theorem errors_idle_of_live {pb : Protobuf} {s s' : State} {act : Action}
    (h' : NoStale s') (hn : (machine pb).Next s act s') : ErrorsIdle s act := by
  rintro a rfl t ht hta
  simp only [Machine.Next, machine, step, Option.ite_none_left_eq_some,
    Option.map_eq_some_iff] at hn
  obtain ⟨-,c,-,hn⟩ := hn
  obtain rfl := Except.ok.inj hn
  obtain ⟨b,d,hb,hd,-⟩ := h'.live t ht
  obtain rfl := Option.some.inj (hb.symm.trans hta)
  simp [State.setConn] at hd

/-- A run leaves no stale event behind, in any of its states, exactly if the
error callback fires only on sessions without an item in flight. -/
theorem no_stale_iff (pb : Protobuf) (subscribers : EventHandlersMap) (threads : ℕ)
    (maxQueue : ℤ) (as : List Action) (s : State)
    (hr : (machine pb).Run Machine.Free (State.start subscribers threads maxQueue) as s) :
    (∀ bs t, bs <+: as →
      (machine pb).Run Machine.Free (State.start subscribers threads maxQueue) bs t →
      NoStale t) ↔
    (machine pb).Run ErrorsIdle (State.start subscribers threads maxQueue) as s := by
  constructor
  · intro h
    exact hr.guarded h (fun _ _ _ _ _ _ hv _ hn => errors_idle_of_live hv hn)
  · intro h bs t hb ht
    exact safe_no_stale (h.everywhere (fun s => Safe (view s))
      (start_safe subscribers threads maxQueue) (fun _ _ _ hi hg hn => next_safe hi hg hn) hb ht)

def mobileFrame : LittleEndian.Bytes := [70, 66, 69, 66, 1, 0, 3, 0, 0, 0, 10, 1, 49]

def answerWith (rsp : IEvent) : Handler → Option IEvent := fun _ => some rsp

def oneHandler : EventHandlersMap := subscribe (fun _ => none) EventId.getMobileCodeReq.code 0

/-- A session with its request answered, and an error once it is quiet again. -/
def quietError : List Action :=
  [.accept 8, .arrive 8 mobileFrame, .enter 0, .svc 0 (answerWith (mobileCodeRspEv 200 7)),
    .push 0, .drain, .handleResponse, .handleResponse, .handleError 8]

theorem no_stale_iff_quiet :
    (∀ bs t, bs <+: quietError →
      (machine proto2).Run Machine.Free (State.opened oneHandler) bs t → NoStale t) ↔
    ∃ s, (machine proto2).Run ErrorsIdle (State.opened oneHandler) quietError s := by
  have hr : ∃ s, (machine proto2).replay (State.opened oneHandler) quietError = some s :=
    ⟨_,rfl⟩
  obtain ⟨s,hs⟩ := hr
  have hf := Machine.free_of_replay hs
  have h := no_stale_iff proto2 oneHandler defaultThreadsNum defaultQueueNum quietError s hf
  refine ⟨fun hq => ⟨s,h.mp hq⟩,fun ⟨t,ht⟩ => h.mpr ?_⟩
  rw [hf.unique ht]
  exact ht

/-- The error callback frees the session while its request is being served; the
next client's session is allocated at the same address and is sent the answer. -/
def reusedAddress : List Action :=
  [.accept 8, .arrive 8 mobileFrame, .handleError 8, .accept 8, .enter 0,
    .svc 0 (answerWith (mobileCodeRspEv 200 7)), .push 0, .drain]

theorem stale_after_error : ∃ s t ev rsp frame,
    (machine proto2).Run Machine.Free (State.opened oneHandler) reusedAddress s ∧
      ¬ NoStale s ∧ (machine proto2).Next s .handleResponse t ∧
      t.log = [.accepted 0 8, .dispatched 0 ev, .accepted 1 8, .answered 0 ev rsp,
        .wrote 1 frame] := by
  refine ⟨_,_,_,_,_,Machine.free_of_replay rfl,fun h => ?_,rfl,rfl⟩
  obtain ⟨c,hc,hs⟩ := h.answers _ _ rfl
  obtain rfl := Except.ok.inj hc
  exact absurd hs (by decide)

end SharedBike.SessionLifetime
