import SharedBike.ServerView

/-!
# Ownership of the items in flight

Each session has at most one item in flight, the item points at the session
that dispatched it if that session is still open, and such a session waits in
the response state. This holds in every run in which an address is allocated
only when no item in flight points at it.
-/

set_option autoImplicit false

namespace SharedBike.ServerInvariant
open LengthFrames GuardedRuns Slots Heaps
open SharedBike.Globals SharedBike.BikeProtocol SharedBike.Events SharedBike.ThreadPool
open SharedBike.DispatchMsgService SharedBike.NetworkInterface SharedBike.RequestReader
open SharedBike.ConnectionFraming SharedBike.Server SharedBike.ServerView

abbrev Heap := Addr → Option Conn

/-- The item points at `a`; whoever lives at `a` is its session, waiting, and
its session lives nowhere else. -/
def Owned (conns : Heap) (t : Work) : Prop :=
  ∃ a, t.ev.args = some a ∧
    (∀ c, conns a = some c → c.sid = t.sid ∧ c.cs.sessionStat = .ssResponse) ∧
    ∀ b d, conns b = some d → d.sid = t.sid → b = a

def Distinct (conns : Heap) : Prop :=
  ∀ a b c d, conns a = some c → conns b = some d → c.sid = d.sid → a = b

structure Tidy (v : View) : Prop where
  readable : ∀ a c, v.conns a = some c → ReadState c.cs
  owned : ∀ t ∈ v.inFlight, Owned v.conns t
  single : (v.inFlight.map Work.sid).Nodup
  connSid : ∀ a c, v.conns a = some c → c.sid < v.nextSid
  workSid : ∀ t ∈ v.inFlight, t.sid < v.nextSid
  distinct : Distinct v.conns

theorem owned_update {conns : Heap} {t : Work} {a : Addr} {c : Option Conn}
    (h : Owned conns t) (ha : t.ev.args ≠ some a) (hc : ∀ d, c = some d → d.sid ≠ t.sid) :
    Owned (Function.update conns a c) t := by
  obtain ⟨b,hb,hlive,honly⟩ := h
  have hba : b ≠ a := fun hx => ha (hx ▸ hb)
  refine ⟨b,hb,fun d hd => ?_,fun e d hd hs => ?_⟩
  · rw [Function.update_of_ne hba] at hd
    exact hlive d hd
  · rcases update_cases hd with ⟨-,hcd⟩ | ⟨-,hd⟩
    · exact absurd hs (hc d hcd)
    · exact honly e d hd hs

theorem owned_erase {conns : Heap} {t : Work} (a : Addr) (h : Owned conns t) :
    Owned (Function.update conns a none) t := by
  obtain ⟨b,hb,hlive,honly⟩ := h
  exact ⟨b,hb,fun d hd => hlive d (of_erase hd),fun e d hd hs => honly e d (of_erase hd) hs⟩

/-- A session keeps its identity and its status. -/
theorem owned_replace {conns : Heap} {t : Work} {a : Addr} {c c' : Conn}
    (h : Owned conns t) (hc : conns a = some c) (hs : c'.sid = c.sid)
    (hst : c.cs.sessionStat = .ssResponse → c'.cs.sessionStat = .ssResponse) :
    Owned (Function.update conns a (some c')) t := by
  obtain ⟨b,hb,hlive,honly⟩ := h
  refine ⟨b,hb,fun d hd => ?_,fun e d hd hsd => ?_⟩
  · rcases update_cases hd with ⟨rfl,hx⟩ | ⟨-,hd⟩
    · obtain rfl := Option.some.inj hx
      obtain ⟨h1,h2⟩ := hlive c hc
      exact ⟨hs.trans h1,hst h2⟩
    · exact hlive d hd
  · rcases update_cases hd with ⟨rfl,hx⟩ | ⟨-,hd⟩
    · obtain rfl := Option.some.inj hx
      exact honly e c hc (hs.symm.trans hsd)
    · exact honly e d hd hsd

theorem distinct_erase {conns : Heap} (a : Addr) (h : Distinct conns) :
    Distinct (Function.update conns a none) :=
  fun x y c d hx hy hs => h x y c d (of_erase hx) (of_erase hy) hs

theorem distinct_replace {conns : Heap} {a : Addr} {c c' : Conn} (h : Distinct conns)
    (hc : conns a = some c) (hs : c'.sid = c.sid) :
    Distinct (Function.update conns a (some c')) := by
  have key : ∀ {x : Addr} {d : Conn}, Function.update conns a (some c') x = some d →
      ∃ d', conns x = some d' ∧ d'.sid = d.sid := by
    intro x d hx
    rcases update_cases hx with ⟨rfl,hd⟩ | ⟨-,hx⟩
    · obtain rfl := Option.some.inj hd
      exact ⟨c,hc,hs.symm⟩
    · exact ⟨d,hx,rfl⟩
  intro x y d e hx hy hde
  obtain ⟨d',hd,h1⟩ := key hx
  obtain ⟨e',he,h2⟩ := key hy
  exact h x y d' e' hd he (by rw [h1, h2, hde])

theorem distinct_insert {conns : Heap} {a : Addr} {c : Conn} (h : Distinct conns)
    (hnew : ∀ b d, conns b = some d → d.sid ≠ c.sid) :
    Distinct (Function.update conns a (some c)) := by
  intro x y d e hx hy hs
  rcases update_cases hx with ⟨hxa,hd⟩ | ⟨-,hd⟩ <;>
    rcases update_cases hy with ⟨hya,he⟩ | ⟨-,he⟩
  · rw [hxa, hya]
  · obtain rfl := Option.some.inj hd
    exact absurd hs.symm (hnew y e he)
  · obtain rfl := Option.some.inj he
    exact absurd hs (hnew x d hd)
  · exact h x y d e hd he hs

/-- Nothing in flight belongs to a session that is reading a request. -/
theorem reading_unreferenced {v : View} (h : Tidy v) {a : Addr} {c : Conn}
    (hc : v.conns a = some c) (hs : c.cs.sessionStat = .ssRequest) {t : Work}
    (ht : t ∈ v.inFlight) : t.ev.args ≠ some a ∧ t.sid ≠ c.sid := by
  obtain ⟨b,hb,hlive,honly⟩ := h.owned t ht
  have hne : b ≠ a := by
    rintro rfl
    have := (hlive c hc).2
    rw [hs] at this
    simp at this
  refine ⟨fun hx => hne (Option.some.inj (hb.symm.trans hx)),fun hx => ?_⟩
  exact hne (honly a c hc hx.symm).symm

/-- An address is reused only after the last item pointing at it is gone. -/
def Reusable (v : View) (act : Action) : Prop :=
  ∀ a, act = .accept a → ∀ t ∈ v.inFlight, t.ev.args ≠ some a

/-- The items of other sessions stay owned when a reading session is replaced. -/
theorem owned_reading {v : View} (h : Tidy v) {a : Addr} {c c' : Conn}
    (hc : v.conns a = some c) (hs : c.cs.sessionStat = .ssRequest) (hsid : c'.sid = c.sid)
    {t : Work} (ht : t ∈ v.inFlight) : Owned (Function.update v.conns a (some c')) t := by
  obtain ⟨hargs,hne⟩ := reading_unreferenced h hc hs ht
  apply owned_update (h.owned t ht) hargs
  intro d hd
  obtain rfl := Option.some.inj hd
  rw [hsid]
  exact hne.symm

theorem owned_dispatched {pb : Protobuf} {v : View} (h : Tidy v) {a : Addr}
    {bytes : LittleEndian.Bytes} {c c' : Conn} {ev : IEvent} (conn : v.conns a = some c)
    (sent : Dispatched pb a c c' bytes ev) :
    Owned (Function.update v.conns a (some c')) ⟨ev, c.sid⟩ := by
  obtain ⟨-,-,-,req,-,hev⟩ := sent.call
  refine ⟨a,by rw [hev]; rfl,fun d hd => ?_,fun b d hd hs => ?_⟩
  · rw [Function.update_self] at hd
    obtain rfl := Option.some.inj hd
    exact ⟨sent.sid,sent.after⟩
  · rcases update_cases hd with ⟨hx,-⟩ | ⟨-,hx⟩
    · exact hx
    · exact h.distinct b a d c hx conn hs

/-- One session is replaced and keeps its identity; the items are accounted for. -/
theorem tidy_replace {v v' : View} {a : Addr} {c c' : Conn} (h : Tidy v)
    (conn : v.conns a = some c) (hset : v'.conns = Function.update v.conns a (some c'))
    (hsid : c'.sid = c.sid) (hread : ReadState c'.cs) (hnext : v'.nextSid = v.nextSid)
    (howned : ∀ t ∈ v'.inFlight, Owned v'.conns t) (hnd : (v'.inFlight.map Work.sid).Nodup)
    (hwork : ∀ t ∈ v'.inFlight, t.sid < v.nextSid) : Tidy v' where
  readable := by
    rw [hset]
    exact forall_set h.readable hread
  owned := howned
  single := hnd
  connSid := by
    have hlt : c'.sid < v.nextSid := by
      rw [hsid]
      exact h.connSid a c conn
    rw [hset, hnext]
    exact forall_set h.connSid hlt
  workSid := by
    rw [hnext]
    exact hwork
  distinct := by
    rw [hset]
    exact distinct_replace h.distinct conn hsid

/-- A dispatch, with or without the item it would queue. -/
theorem tidy_dispatch {pb : Protobuf} {v : View} {a : Addr} {bytes : LittleEndian.Bytes}
    {c c' : Conn} {ev : IEvent} (h : Tidy v) (conn : v.conns a = some c)
    (sent : Dispatched pb a c c' bytes ev) {items : Multiset Work} {log : List Entry}
    {requests : Multiset Work} (hreq : requests+v.responses = v.inFlight+items)
    (hitems : items = 0 ∨ items = {⟨ev, c.sid⟩}) :
    Tidy { v.setConn a (some c') with requests := requests, log := log } := by
  have hfly : ∀ t ∈ requests+v.responses, t ∈ v.inFlight ∨ t = ⟨ev, c.sid⟩ := by
    intro t ht
    rw [hreq] at ht
    rcases hitems with hi | hi <;> rw [hi] at ht
    · exact Or.inl (by simpa using ht)
    · exact mem_snoc.mp ht
  refine tidy_replace h conn rfl sent.sid sent.read rfl (fun t ht => ?_) ?_ (fun t ht => ?_)
  · rcases hfly t ht with ht | rfl
    · exact owned_reading h conn sent.before sent.sid ht
    · exact owned_dispatched h conn sent
  · show ((requests+v.responses).map Work.sid).Nodup
    rw [hreq]
    rcases hitems with hi | hi <;> rw [hi]
    · rw [add_zero]
      exact h.single
    · exact nodup_map_snoc.mpr
        ⟨h.single,fun t ht => (reading_unreferenced h conn sent.before ht).2⟩
  · rcases hfly t ht with ht | rfl
    · exact h.workSid t ht
    · exact h.connSid a c conn

/-- Items may be dropped or replaced by items of the same session. -/
theorem tidy_items {v v' : View} (h : Tidy v) (hconns : v'.conns = v.conns)
    (hnext : v'.nextSid = v.nextSid) (hnd : (v'.inFlight.map Work.sid).Nodup)
    (hmem : ∀ t ∈ v'.inFlight, ∃ u ∈ v.inFlight, t.sid = u.sid ∧ t.ev.args = u.ev.args) :
    Tidy v' where
  readable := by rw [hconns]; exact h.readable
  owned t ht := by
    obtain ⟨u,hu,hs,ha⟩ := hmem t ht
    obtain ⟨a,h1,h2⟩ := h.owned u hu
    rw [hconns]
    exact ⟨a,ha.trans h1,by rw [hs]; exact h2⟩
  single := hnd
  connSid := by rw [hconns, hnext]; exact h.connSid
  workSid t ht := by
    obtain ⟨u,hu,hs,-⟩ := hmem t ht
    rw [hs, hnext]
    exact h.workSid u hu
  distinct := by rw [hconns]; exact h.distinct

theorem requests_split {v : View} {t : Work} {rest : Multiset Work}
    (held : v.requests = rest+{t}) : v.inFlight = rest+v.responses+{t} := by
  rw [View.inFlight, held, add_right_comm]

theorem in_flight_split {v : View} {t : Work} {rest : Multiset Work}
    (held : v.responses = rest+{t}) : v.inFlight = v.requests+rest+{t} := by
  rw [View.inFlight, held, add_assoc]

theorem tidy_drop {v v' : View} {t : Work} (h : Tidy v) (hsplit : v.inFlight = v'.inFlight+{t})
    (hconns : v'.conns = v.conns) (hnext : v'.nextSid = v.nextSid) : Tidy v' := by
  have hnd := h.single
  rw [hsplit] at hnd
  refine tidy_items h hconns hnext (nodup_map_snoc.mp hnd).1 (fun u hu => ⟨u,?_,rfl,rfl⟩)
  rw [hsplit]
  exact mem_snoc.mpr (Or.inl hu)

/-- The answer takes the place of its request. -/
theorem tidy_answer {v : View} {t : Work} {rsp : IEvent} {rest : Multiset Work}
    {log : List Entry} (h : Tidy v) (held : v.requests = rest+{t})
    (hargs : rsp.args = t.ev.args) :
    Tidy { v with requests := rest, responses := v.responses+{⟨rsp, t.sid⟩}, log := log } := by
  have hsplit := requests_split held
  have hnew : rest+(v.responses+{(⟨rsp, t.sid⟩ : Work)}) =
      rest+v.responses+{(⟨rsp, t.sid⟩ : Work)} := (add_assoc _ _ _).symm
  refine tidy_items h rfl rfl ?_ (fun u hu => ?_)
  · have hnd := h.single
    rw [hsplit] at hnd
    show ((rest+(v.responses+{(⟨rsp, t.sid⟩ : Work)})).map Work.sid).Nodup
    rw [hnew]
    obtain ⟨hrest,hne⟩ := nodup_map_snoc.mp hnd
    exact nodup_map_snoc.mpr ⟨hrest,hne⟩
  · rw [hsplit]
    rcases mem_snoc.mp (show u ∈ rest+v.responses+{(⟨rsp, t.sid⟩ : Work)} from hnew ▸ hu) with
      hu | rfl
    · exact ⟨u,mem_snoc.mpr (Or.inl hu),rfl,rfl⟩
    · exact ⟨t,mem_snoc.mpr (Or.inr rfl),rfl,hargs⟩

theorem tidy_close {v : View} (a : Addr) (h : Tidy v) : Tidy (v.setConn a none) where
  readable := forall_erase h.readable a
  owned t ht := owned_erase a (h.owned t ht)
  single := h.single
  connSid := forall_erase h.connSid a
  workSid := h.workSid
  distinct := distinct_erase a h.distinct

theorem tidy_keep {v : View} {a : Addr} {bytes : LittleEndian.Bytes} {c c' : Conn}
    (h : Tidy v) (conn : v.conns a = some c) (kept : Kept c c' bytes) :
    Tidy (v.setConn a (some c')) :=
  tidy_replace h conn rfl kept.sid kept.read rfl
    (fun t ht => owned_replace (h.owned t ht) conn kept.sid (fun hs => by rw [kept.status, hs]))
    h.single h.workSid

theorem tidy_accept {v : View} {a : Addr} {log : List Entry} (h : Tidy v)
    (hg : ∀ t ∈ v.inFlight, t.ev.args ≠ some a) :
    Tidy { v.setConn a (some (Conn.accepted v.nextSid)) with
      nextSid := v.nextSid+1, log := log } where
  readable := forall_set h.readable init_read_state
  owned t ht := by
    apply owned_update (h.owned t ht) (hg t ht)
    intro d hd
    obtain rfl := Option.some.inj hd
    exact (Nat.ne_of_lt (h.workSid t ht)).symm
  single := h.single
  connSid := forall_set (fun b d hd => (h.connSid b d hd).trans (Nat.lt_succ_self _))
    (Nat.lt_succ_self v.nextSid)
  workSid t ht := (h.workSid t ht).trans (Nat.lt_succ_self _)
  distinct := distinct_insert h.distinct
    (fun b d hd => Nat.ne_of_lt (h.connSid b d hd))

/-- The open session that an item in flight points at is the item's own. -/
theorem owned_sid {v : View} (h : Tidy v) {t : Work} (ht : t ∈ v.inFlight) {a : Addr} {c : Conn}
    (args : t.ev.args = some a) (conn : v.conns a = some c) :
    c.sid = t.sid ∧ c.cs.sessionStat = .ssResponse := by
  obtain ⟨b,hb,hlive,-⟩ := h.owned t ht
  obtain rfl := Option.some.inj (hb.symm.trans args)
  exact hlive c conn

theorem tidy_reply {v : View} {t : Work} {a : Addr} {c : Conn} {rest : Multiset Work}
    {log : List Entry} (h : Tidy v) (held : v.responses = rest+{t})
    (args : t.ev.args = some a) (conn : v.conns a = some c) :
    Tidy { v.setConn a (some (c.replied t.ev)) with responses := rest, log := log } := by
  have hsplit := in_flight_split held
  have hsingle := h.single
  rw [hsplit] at hsingle
  obtain ⟨hnd,hother⟩ := nodup_map_snoc.mp hsingle
  have hold : ∀ u ∈ v.requests+rest, u ∈ v.inFlight := by
    intro u hu
    rw [hsplit]
    exact mem_snoc.mpr (Or.inl hu)
  have htm : t ∈ v.inFlight := by
    rw [hsplit]
    exact mem_snoc.mpr (Or.inr rfl)
  have hsid := (owned_sid h htm args conn).1
  refine tidy_replace h conn rfl rfl (replied_read_state t.ev (h.readable a c conn)) rfl
    (fun u hu => ?_) hnd (fun u hu => h.workSid u (hold u hu))
  refine owned_update (h.owned u (hold u hu)) (fun hua => ?_) (fun d hd => ?_)
  · exact hother u hu ((owned_sid h (hold u hu) hua conn).1.symm.trans hsid)
  · obtain rfl := Option.some.inj hd
    exact fun hs => hother u hu (hs.symm.trans hsid)

theorem step_tidy {pb : Protobuf} {s : State} {v v' : View} {act : Action}
    (hs : ViewStep pb s v act v') (h : Tidy v) (hg : Reusable v act) : Tidy v' := by
  cases hs with
  | accept a free => exact tidy_accept h (hg a rfl)
  | keep conn kept => exact tidy_keep h conn kept
  | dispatch conn sent room =>
    exact tidy_dispatch h conn sent (add_right_comm _ _ _) (Or.inr rfl)
  | refuse conn sent full =>
    exact tidy_dispatch h conn sent (add_zero _).symm (Or.inl rfl)
  | @close a bytes c conn reading nothing => exact tidy_close a h
  | handleError a => exact tidy_close a h
  | still internal => exact h
  | answer at_ held computed => exact tidy_answer h held (svc_args computed)
  | abandon held closed => exact tidy_drop h (requests_split held) rfl rfl
  | reply held args conn framed => exact tidy_reply h held args conn
  | drop head held unknown => exact tidy_drop h (in_flight_split held) rfl rfl

theorem start_empty (subscribers : EventHandlersMap) (threads : ℕ) (maxQueue : ℤ) :
    (view (State.start subscribers threads maxQueue)).inFlight = 0 := by
  simp only [view, View.inFlight, State.requests, State.responses, State.start, Pool.init,
    total_replicate Worker.requests .idle rfl, total_replicate Worker.responses .idle rfl]
  rfl

theorem start_tidy (subscribers : EventHandlersMap) (threads : ℕ) (maxQueue : ℤ) :
    Tidy (view (State.start subscribers threads maxQueue)) := by
  have hempty := start_empty subscribers threads maxQueue
  have hnone : ∀ t, t ∉ (view (State.start subscribers threads maxQueue)).inFlight := by
    intro t ht
    rw [hempty] at ht
    simp at ht
  refine ⟨start_readable subscribers threads maxQueue,fun t ht => absurd ht (hnone t),?_,?_,
    fun t ht => absurd ht (hnone t),?_⟩
  · rw [hempty]
    simp
  · intro a c hc
    simp [view, State.start] at hc
  · intro a b c d hc
    simp [view, State.start] at hc

end SharedBike.ServerInvariant
