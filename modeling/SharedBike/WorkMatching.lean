import SharedBike.InputDrained

/-!
# Waiting sessions and the work they wait for

A session waits for a response exactly while one item in flight points at it.
Three kinds of step break this: an address is allocated while an item still
points at it, a request meets a full task queue, and a response of an
unrecognised kind is dropped.
-/

set_option autoImplicit false

namespace SharedBike.WorkMatching
open LengthFrames GuardedRuns Slots Heaps
open SharedBike.Globals SharedBike.BikeProtocol SharedBike.Events SharedBike.ThreadPool
open SharedBike.DispatchMsgService SharedBike.NetworkInterface SharedBike.RequestReader
open SharedBike.ConnectionFraming SharedBike.Server SharedBike.ServerView
open SharedBike.ServerInvariant SharedBike.SessionLifetime

def args (t : Work) : Option Addr := t.ev.args

/-- An open session is in the response state exactly if one item refers to it. -/
def Matched (s : State) : Prop :=
  ∀ a c, s.conns a = some c →
    (c.cs.sessionStat = .ssResponse ↔ (s.inFlight.map args).count (some a) = 1)

structure Attended (pb : Protobuf) (s : State) (act : Action) : Prop where
  reuse : ∀ a, act = .accept a → ∀ t ∈ s.inFlight, t.ev.args ≠ some a
  room : ∀ a bytes c ev, act = .arrive a bytes → s.conns a = some c →
    c.cs.sessionStat = .ssRequest → Carries pb c bytes ev → ¬ Full s
  known : act = .handleResponse → ∀ t later a c, s.responseEvents = t::later →
    t.ev.args = some a → s.conns a = some c → Recognised t.ev

structure Paired (v : View) : Prop extends Tidy v where
  addrs : (v.inFlight.map args).Nodup
  awaited : ∀ a c, v.conns a = some c → c.cs.sessionStat = .ssResponse →
    ∃ t ∈ v.inFlight, t.ev.args = some a

theorem paired_count {v : View} (h : Paired v) (a : Addr) :
    (v.inFlight.map args).count (some a) = 1 ↔ ∃ t ∈ v.inFlight, t.ev.args = some a := by
  constructor
  · intro hc
    have hm : some a ∈ v.inFlight.map args := by
      rw [← Multiset.count_pos, hc]
      exact one_pos
    exact Multiset.mem_map.mp hm
  · rintro ⟨t,ht,hta⟩
    exact Multiset.count_eq_one_of_mem h.addrs (hta ▸ Multiset.mem_map_of_mem args ht)

theorem paired_matched {s : State} (h : Paired (view s)) : Matched s := by
  intro a c hc
  refine Iff.trans ⟨h.awaited a c hc,?_⟩ (paired_count h a).symm
  rintro ⟨t,ht,hta⟩
  exact (owned_sid h.toTidy ht hta hc).2

/-- Sessions that stay as they were keep their item if it is still in flight. -/
theorem awaited_update {conns : Heap} {items items' : Multiset Work} {a : Addr}
    {c : Option Conn}
    (h : ∀ b d, conns b = some d → d.cs.sessionStat = .ssResponse →
      ∃ t ∈ items, t.ev.args = some b)
    (hold : ∀ t ∈ items, t.ev.args ≠ some a → ∃ u ∈ items', u.ev.args = t.ev.args)
    (hc : ∀ d, c = some d → d.cs.sessionStat = .ssResponse → ∃ u ∈ items', u.ev.args = some a) :
    ∀ b d, Function.update conns a c b = some d → d.cs.sessionStat = .ssResponse →
      ∃ t ∈ items', t.ev.args = some b := by
  intro b d hd hst
  rcases update_cases hd with ⟨rfl,hx⟩ | ⟨hba,hx⟩
  · exact hc d hx hst
  · obtain ⟨t,ht,hta⟩ := h b d hx hst
    obtain ⟨u,hu,hua⟩ := hold t ht (by rw [hta]; exact fun he => hba (Option.some.inj he))
    exact ⟨u,hu,hua.trans hta⟩

theorem step_addrs {pb : Protobuf} {s : State} {v v' : View} {act : Action}
    (hs : ViewStep pb s v act v') (h : Paired v) : (v'.inFlight.map args).Nodup := by
  have hdrop : ∀ {items : Multiset Work} {t : Work}, v.inFlight = items+{t} →
      (items.map args).Nodup := by
    intro items t hsplit
    have hn := h.addrs
    rw [hsplit] at hn
    exact (nodup_map_snoc.mp hn).1
  cases hs with
  | accept a free => exact h.addrs
  | keep conn kept => exact h.addrs
  | @dispatch a bytes c c' ev conn sent room =>
    obtain ⟨-,-,-,req,-,hev⟩ := sent.call
    show ((v.requests+{⟨ev, c.sid⟩}+v.responses).map args).Nodup
    rw [add_right_comm]
    refine nodup_map_snoc.mpr ⟨h.addrs,fun t ht hta => ?_⟩
    refine (reading_unreferenced h.toTidy conn sent.before ht).1 (hta.trans ?_)
    rw [args, hev]
    rfl
  | refuse conn sent full => exact h.addrs
  | close conn reading nothing => exact h.addrs
  | handleError a => exact h.addrs
  | still internal => exact h.addrs
  | @answer w answer t rsp rest at_ held computed =>
    have hn := h.addrs
    rw [requests_split held] at hn
    obtain ⟨hrest,hne⟩ := nodup_map_snoc.mp hn
    show ((rest+(v.responses+{⟨rsp, t.sid⟩})).map args).Nodup
    rw [← add_assoc]
    refine nodup_map_snoc.mpr ⟨hrest,fun u hu hx => hne u hu (hx.trans ?_)⟩
    exact svc_args computed
  | abandon held closed => exact hdrop (requests_split held)
  | reply held hargs conn framed => exact hdrop (in_flight_split held)
  | drop head held unknown => exact hdrop (in_flight_split held)

theorem step_awaited {pb : Protobuf} {s : State} {act : Action} {v' : View}
    (hs : ViewStep pb s (view s) act v') (h : Paired (view s)) (ho : s.svrExit = false)
    (hg : Attended pb s act) : ∀ a c, v'.conns a = some c → c.cs.sessionStat = .ssResponse →
      ∃ t ∈ v'.inFlight, t.ev.args = some a := by
  cases hs with
  | accept a free =>
    apply awaited_update h.awaited (fun t ht _ => ⟨t,ht,rfl⟩)
    intro d hd hst
    obtain rfl := Option.some.inj hd
    simp [Conn.accepted, sessionInit] at hst
  | @keep a bytes c c' conn kept =>
    refine awaited_update h.awaited (fun t ht _ => ⟨t,ht,rfl⟩) (fun d hd hst => ?_)
    obtain rfl := Option.some.inj hd
    exact h.awaited a c conn (kept.status ▸ hst)
  | @dispatch a bytes c c' ev conn sent room =>
    obtain ⟨-,-,-,req,-,hev⟩ := sent.call
    have hin : ∀ t, t ∈ (view s).inFlight ∨ t = ⟨ev, c.sid⟩ →
        t ∈ (view s).requests+{⟨ev, c.sid⟩}+(view s).responses := by
      intro t ht
      rw [add_right_comm, Multiset.mem_add, Multiset.mem_singleton]
      exact ht
    refine awaited_update h.awaited (fun t ht _ => ⟨t,hin t (Or.inl ht),rfl⟩)
      (fun d hd _ => ⟨_,hin _ (Or.inr rfl),by rw [hev]; rfl⟩)
  | @refuse a bytes c c' ev conn sent full =>
    obtain ⟨f,hf,-,req,hparse,-⟩ := sent.call
    exact absurd full (hg.room a bytes c req rfl conn sent.before ⟨f,_,hf,hparse⟩)
  | close conn reading nothing =>
    exact awaited_update h.awaited (fun t ht _ => ⟨t,ht,rfl⟩) (fun d hd => by simp at hd)
  | handleError a =>
    exact awaited_update h.awaited (fun t ht _ => ⟨t,ht,rfl⟩) (fun d hd => by simp at hd)
  | still internal => exact h.awaited
  | @answer w answer t rsp rest at_ held computed =>
    intro a c hc hst
    obtain ⟨u,hu,hua⟩ := h.awaited a c hc hst
    show ∃ x ∈ rest+((view s).responses+{⟨rsp, t.sid⟩}), x.ev.args = some a
    rw [requests_split held] at hu
    rw [← add_assoc]
    rcases mem_snoc.mp hu with hu | rfl
    · exact ⟨u,mem_snoc.mpr (Or.inl hu),hua⟩
    · exact ⟨_,mem_snoc.mpr (Or.inr rfl),(svc_args computed).trans hua⟩
  | abandon held closed => rw [ho] at closed; simp at closed
  | @reply t a c rest held hargs conn framed =>
    refine awaited_update h.awaited (fun u hu hne => ?_) (fun d hd hst => ?_)
    · rw [in_flight_split held] at hu
      rcases mem_snoc.mp hu with hu | rfl
      · exact ⟨u,hu,rfl⟩
      · exact absurd hargs hne
    · obtain rfl := Option.some.inj hd
      simp [Conn.replied, sessionReset] at hst
  | @drop t rest head held unknown =>
    intro a c hc hst
    obtain ⟨later,hlater⟩ := head
    obtain ⟨u,hu,hua⟩ := h.awaited a c hc hst
    rw [in_flight_split held] at hu
    rcases mem_snoc.mp hu with hu | rfl
    · exact ⟨u,hu,hua⟩
    · exact absurd (hg.known rfl u later a c hlater hua hc) unknown

theorem step_paired {pb : Protobuf} {s s' : State} {act : Action} (h : Paired (view s))
    (ho : s.svrExit = false) (hg : Attended pb s act) (hn : (machine pb).Next s act s') :
    Paired (view s') := by
  have hv := next_view h.readable hn
  exact ⟨step_tidy hv h.toTidy hg.reuse,step_addrs hv h,step_awaited hv h ho hg⟩

theorem start_paired (subscribers : EventHandlersMap) (threads : ℕ) (maxQueue : ℤ) :
    Paired (view (State.start subscribers threads maxQueue)) := by
  refine ⟨start_tidy subscribers threads maxQueue,?_,fun a c hc => ?_⟩
  · rw [start_empty]
    simp
  · simp [view, State.start] at hc

/-- A session allocated under an item that points there is not waiting for it. -/
theorem reuse_of_matched {pb : Protobuf} {s : State} {v w : View} {a : Addr}
    (hv : ViewStep pb s v (.accept a) w) (h : Paired v)
    (hm : ∀ a c, w.conns a = some c →
      (c.cs.sessionStat = .ssResponse ↔ (w.inFlight.map args).count (some a) = 1)) :
    ∀ t ∈ v.inFlight, t.ev.args ≠ some a := by
  intro t ht hta
  cases hv with
  | accept a free =>
    have hst := (hm a _ (Function.update_self _ _ _)).mpr ((paired_count h a).mpr ⟨t,ht,hta⟩)
    simp [Conn.accepted, sessionInit] at hst
  | still internal => exact internal

/-- A request that meets a full queue leaves a session that waits for nothing. -/
theorem room_of_matched {pb : Protobuf} {s : State} {v w : View} {a : Addr}
    {bytes : LittleEndian.Bytes} {c : Conn} {ev : IEvent}
    (hv : ViewStep pb s v (.arrive a bytes) w) (h : Paired v)
    (hm : ∀ a c, w.conns a = some c →
      (c.cs.sessionStat = .ssResponse ↔ (w.inFlight.map args).count (some a) = 1))
    (hc : v.conns a = some c) (hst : c.cs.sessionStat = .ssRequest)
    (hcarries : Carries pb c bytes ev) : ¬ Full s := by
  intro hfull
  cases hv with
  | keep conn kept =>
    obtain rfl := Option.some.inj (hc.symm.trans conn)
    obtain ⟨f,rest,hf,-⟩ := hcarries
    rw [(kept.drained hst).2] at hf
    simp at hf
  | dispatch conn sent room => exact room hfull
  | refuse conn sent full =>
    obtain ⟨t,ht,hta⟩ := (paired_count h a).mp
      ((hm a _ (Function.update_self _ _ _)).mp sent.after)
    exact (reading_unreferenced h.toTidy conn sent.before ht).1 hta
  | close conn reading nothing =>
    obtain rfl := Option.some.inj (hc.symm.trans conn)
    exact nothing ev hcarries
  | still internal => exact internal

/-- A dropped response leaves its session waiting for nothing. -/
theorem known_of_matched {pb : Protobuf} {s s' : State} {t : Work} {later : List Work} {a : Addr}
    {c : Conn} (h : Paired (view s)) (h' : Matched s')
    (hn : (machine pb).Next s .handleResponse s') (hq : s.responseEvents = t::later)
    (hta : t.ev.args = some a) (hc : s.conns a = some c) : Recognised t.ev := by
  by_contra hun
  simp only [Machine.Next, machine, step, hq] at hn
  split at hn
  · rw [handle_response_dropped pb hun] at hn
    obtain rfl := Except.ok.inj (Option.some.inj hn)
    have hin : (view s).inFlight = State.inFlight { s with responseEvents := later }+{t} := by
      simp only [view, View.inFlight, State.inFlight, State.responses, State.requests, hq,
        ← Multiset.cons_coe, ← Multiset.singleton_add]
      abel
    have hnodup := h.addrs
    rw [hin] at hnodup
    have hlast : t ∈ (view s).inFlight := by
      rw [hin]
      exact mem_snoc.mpr (Or.inr rfl)
    have hone := (h' a c hc).mp (owned_sid h.toTidy hlast hta hc).2
    have hmem : some a ∈ (State.inFlight { s with responseEvents := later }).map args := by
      rw [← Multiset.count_pos, hone]
      exact one_pos
    obtain ⟨u,hu,hua⟩ := Multiset.mem_map.mp hmem
    exact (nodup_map_snoc.mp hnodup).2 u hu (hua.trans hta.symm)
  · simp at hn

/-- Each way of breaking the guard leaves a session that does not match its work. -/
theorem attended_of_matched {pb : Protobuf} {s s' : State} {act : Action}
    (h : Paired (view s)) (h' : Matched s') (hn : (machine pb).Next s act s') :
    Attended pb s act where
  reuse a ha := by
    subst ha
    exact reuse_of_matched (next_view h.readable hn) h h'
  room a bytes c ev ha hc hst hcarries := by
    subst ha
    exact room_of_matched (next_view h.readable hn) h h' hc hst hcarries
  known ha t later a c hq hta hc := by
    subst ha
    exact known_of_matched h h' hn hq hta hc

/-- In every state of a run an open session waits exactly for its one item of
work, if and only if every step of the run is attended. -/
theorem matched_iff (pb : Protobuf) (subscribers : EventHandlersMap) (threads : ℕ)
    (maxQueue : ℤ) (as : List Action) (s : State)
    (hr : (machine pb).Run Machine.Free (State.start subscribers threads maxQueue) as s) :
    (∀ bs t, bs <+: as →
      (machine pb).Run Machine.Free (State.start subscribers threads maxQueue) bs t →
      Matched t) ↔
    (machine pb).Run (Attended pb) (State.start subscribers threads maxQueue) as s := by
  have h0 : Paired (view (State.start subscribers threads maxQueue)) ∧
      (State.start subscribers threads maxQueue).svrExit = false :=
    ⟨start_paired subscribers threads maxQueue,rfl⟩
  have hstep : ∀ t act u, Paired (view t) ∧ t.svrExit = false → Attended pb t act →
      (machine pb).Next t act u → Paired (view u) ∧ u.svrExit = false :=
    fun t act u ht hg hn => ⟨step_paired ht.1 ht.2 hg hn,
      (Prod.mk.inj (next_settings hn)).1.trans ht.2⟩
  constructor
  · intro h
    apply hr.guarded h
    intro bs t act u hrun _ hu _ hn
    exact attended_of_matched (hrun.everywhere _ h0 hstep List.prefix_rfl hrun).1 hu hn
  · intro h bs t hb ht
    exact paired_matched (h.everywhere _ h0 hstep hb ht).1

def serveWith (rsp : IEvent) : List Action :=
  [.accept 8, .arrive 8 mobileFrame, .enter 0, .svc 0 (answerWith rsp), .push 0, .drain,
    .handleResponse]

theorem matched_iff_served :
    (∀ bs t, bs <+: serveWith (mobileCodeRspEv 200 7) →
      (machine proto2).Run Machine.Free (State.opened oneHandler) bs t → Matched t) ↔
    ∃ s, (machine proto2).Run (Attended proto2) (State.opened oneHandler)
      (serveWith (mobileCodeRspEv 200 7)) s := by
  obtain ⟨s,hs⟩ : ∃ s, (machine proto2).replay (State.opened oneHandler)
      (serveWith (mobileCodeRspEv 200 7)) = some s := ⟨_,rfl⟩
  have hf := Machine.free_of_replay hs
  have h := matched_iff proto2 oneHandler defaultThreadsNum defaultQueueNum _ s hf
  refine ⟨fun hq => ⟨s,h.mp hq⟩,fun ⟨t,ht⟩ => h.mpr ?_⟩
  rw [hf.unique ht]
  exact ht

def rechargeRspEv : IEvent := ⟨EventId.rechargeRsp.code, .none, none⟩

/-- The handler answers with an event of a kind that the response loop drops:
the session waits, and nothing is left that could answer it. -/
theorem stranded_after_drop : ∃ s c,
    (machine proto2).Run Machine.Free (State.opened oneHandler)
        (serveWith rechargeRspEv) s ∧
      s.conns 8 = some c ∧ c.cs.sessionStat = .ssResponse ∧ s.inFlight = 0 ∧ ¬ Matched s := by
  obtain ⟨s,c,hs,hc,hst,hnone⟩ : ∃ s c, (machine proto2).replay
      (State.opened oneHandler) (serveWith rechargeRspEv) = some s ∧
      s.conns 8 = some c ∧ c.cs.sessionStat = .ssResponse ∧ s.inFlight = 0 :=
    ⟨_,_,rfl,rfl,rfl,rfl⟩
  refine ⟨s,c,Machine.free_of_replay hs,hc,hst,hnone,fun h => ?_⟩
  have hone := (h 8 c hc).mp hst
  rw [hnone] at hone
  simp at hone

end SharedBike.WorkMatching
