import SharedBike.SessionLifetime
import SharedBike.CallHistory

/-!
# Each session's requests and responses

Seen from one session, the log is a sequence of exchanges: a request is
dispatched, answered and its response written before the next request. The
item in flight says how far the last exchange has come.
-/

set_option autoImplicit false

namespace SharedBike.Conversations
open LittleEndian LengthFrames GuardedRuns Slots Heaps
open SharedBike.Globals SharedBike.BikeProtocol SharedBike.Events SharedBike.ThreadPool
open SharedBike.DispatchMsgService SharedBike.NetworkInterface SharedBike.RequestReader
open SharedBike.ConnectionFraming SharedBike.Server SharedBike.ServerView
open SharedBike.ServerInvariant SharedBike.SessionLifetime SharedBike.CallHistory

structure Exchange where
  dispatched : List IEvent
  answers : List (IEvent × IEvent)
  frames : List Bytes
  deriving DecidableEq, Repr

def Exchange.add (sid : ℕ) (x : Exchange) : Entry → Exchange
  | .accepted _ _ => x
  | .dispatched id ev => if id = sid then { x with dispatched := x.dispatched++[ev] } else x
  | .answered id req rsp =>
    if id = sid then { x with answers := x.answers++[(req, rsp)] } else x
  | .wrote id frame => if id = sid then { x with frames := x.frames++[frame] } else x

/-- What the log says about one session. -/
def exchange (log : List Entry) (sid : ℕ) : Exchange :=
  log.foldl (Exchange.add sid) ⟨[], [], []⟩

def frameOf (pb : Protobuf) (p : IEvent × IEvent) : Bytes := responseFrame pb p.2 p.2.eid

def Exchange.Idle (pb : Protobuf) (x : Exchange) : Prop :=
  x.dispatched = x.answers.map Prod.fst ∧ x.frames = x.answers.map (frameOf pb)

def Exchange.Asked (pb : Protobuf) (x : Exchange) (ev : IEvent) : Prop :=
  x.dispatched = x.answers.map Prod.fst++[ev] ∧ x.frames = x.answers.map (frameOf pb)

def Exchange.Ready (pb : Protobuf) (x : Exchange) (rsp : IEvent) : Prop :=
  x.dispatched = x.answers.map Prod.fst ∧ ∃ earlier req, x.answers = earlier++[(req, rsp)] ∧
    x.frames = earlier.map (frameOf pb)

def Exchange.InStep (pb : Protobuf) (x : Exchange) : Prop :=
  x.Idle pb ∨ (∃ ev, x.Asked pb ev) ∨ ∃ rsp, x.Ready pb rsp

def entrySid : Entry → ℕ
  | .accepted id _ => id
  | .dispatched id _ => id
  | .answered id _ _ => id
  | .wrote id _ => id

theorem exchange_snoc (log : List Entry) (e : Entry) (sid : ℕ) :
    exchange (log++[e]) sid = (exchange log sid).add sid e := by
  simp [exchange]

theorem exchange_other (log : List Entry) {e : Entry} {sid : ℕ} (h : entrySid e ≠ sid) :
    exchange (log++[e]) sid = exchange log sid := by
  rw [exchange_snoc]
  cases e <;> simp_all [Exchange.add, entrySid]

theorem exchange_accepted (log : List Entry) (id sid : ℕ) (a : Addr) :
    exchange (log++[.accepted id a]) sid = exchange log sid := by
  rw [exchange_snoc]
  rfl

theorem exchange_dispatched {pb : Protobuf} {log : List Entry} {sid : ℕ} (ev : IEvent)
    (h : (exchange log sid).Idle pb) :
    (exchange (log++[.dispatched sid ev]) sid).Asked pb ev := by
  rw [exchange_snoc, Exchange.add, if_pos rfl]
  exact ⟨by rw [h.1],h.2⟩

theorem exchange_answered {pb : Protobuf} {log : List Entry} {sid : ℕ} {req : IEvent}
    (rsp : IEvent) (h : (exchange log sid).Asked pb req) :
    (exchange (log++[.answered sid req rsp]) sid).Ready pb rsp := by
  rw [exchange_snoc, Exchange.add, if_pos rfl]
  exact ⟨by simpa using h.1,_,req,rfl,h.2⟩

theorem exchange_wrote {pb : Protobuf} {log : List Entry} {sid : ℕ} {rsp : IEvent}
    (h : (exchange log sid).Ready pb rsp) :
    (exchange (log++[.wrote sid (responseFrame pb rsp rsp.eid)]) sid).Idle pb := by
  obtain ⟨hd,earlier,req,ha,hf⟩ := h
  rw [exchange_snoc, Exchange.add, if_pos rfl]
  refine ⟨hd,?_⟩
  show (exchange log sid).frames++[_] = (exchange log sid).answers.map (frameOf pb)
  rw [ha, hf, List.map_append]
  rfl

/-- In step, the frames and the answers pair off with the requests in order. -/
theorem in_step_pairs {pb : Protobuf} {x : Exchange} (h : x.InStep pb) :
    x.answers.map Prod.fst <+: x.dispatched ∧ x.frames <+: x.answers.map (frameOf pb) ∧
      x.dispatched.length ≤ x.frames.length+1 := by
  rcases h with ⟨hd,hf⟩ | ⟨ev,hd,hf⟩ | ⟨rsp,hd,earlier,req,ha,hf⟩
  · rw [hd, hf]
    exact ⟨List.prefix_rfl,List.prefix_rfl,by simp⟩
  · rw [hd, hf]
    exact ⟨List.prefix_append _ _,List.prefix_rfl,by simp⟩
  · refine ⟨hd ▸ List.prefix_rfl,?_,?_⟩
    · rw [hf, ha, List.map_append]
      exact List.prefix_append _ _
    · rw [hd, hf, ha]
      simp

/-- The response is of the kind the request asks for, and for the same session. -/
inductive Fitting (req rsp : IEvent) : Prop
  | code (m : Bytes) (icode : Int32) (request : CodeRequest req m)
      (response : rsp = (mobileCodeRspEv EErrorCode.success.code icode).setArgs req.args)
  | login (m : Bytes) (icode : Int32) (e : EErrorCode) (request : LoginAttempt req m icode)
      (response : rsp = (loginRspEv e.code).setArgs req.args)

def Request (ev : IEvent) : Prop :=
  (∃ m, CodeRequest ev m) ∨ ∃ m c, LoginAttempt ev m c

/-- The subscriptions of the one handler that `main` creates. -/
def mainSubscribers (h : Handler) : EventHandlersMap :=
  subscribe (subscribe (fun _ => none) EventId.getMobileCodeReq.code h) EventId.loginReq.code h

/-- Each session is allocated at a new address, and the handler's answer is one
that `UserEventHandler::handle` can return for the event. -/
structure Served (h : Handler) (s : State) (act : Action) : Prop where
  distinct : ∀ a, act = .accept a → ∀ sid, Entry.accepted sid a ∉ s.log
  handled : ∀ w answer t, act = .svc w answer → s.workers[w]? = some (.running t) →
    Returns t.ev (answer h)

theorem main_subscribers_request (h : Handler) {ev : IEvent} (hr : Request ev) :
    mainSubscribers h ev.eid = some [h] ∧ ev.eid ≠ EventId.unknown.code := by
  have hcases : ev.eid = EventId.getMobileCodeReq.code ∨ ev.eid = EventId.loginReq.code := by
    rcases hr with ⟨m,hm⟩ | ⟨m,c,hl⟩
    · exact Or.inl hm.1
    · exact Or.inr hl.1
  rcases hcases with he | he <;> rw [he]
  · exact ⟨rfl,by decide⟩
  · exact ⟨rfl,by decide⟩

/-- What a worker computes with the one subscribed handler. -/
theorem svc_fitting {h : Handler} {answer : Handler → Option IEvent} {ev rsp : IEvent}
    (hr : Request ev) (hret : Returns ev (answer h))
    (hs : svc false (mainSubscribers h) answer ev = some rsp) : Fitting ev rsp := by
  obtain ⟨hsub,hun⟩ := main_subscribers_request h hr
  rw [svc, if_neg (by simp), process_eq _ _ _ hun, hsub] at hs
  obtain ⟨i,log,hc⟩ := returns_completed hret
  cases hc with
  | code m c request result history =>
    simp only [Option.bind_some, List.getLast?_singleton, result] at hs
    exact .code m c request (Option.some.inj hs).symm
  | login m c e request result history =>
    simp only [Option.bind_some, List.getLast?_singleton, result] at hs
    exact .login m c e request (Option.some.inj hs).symm
  | ignored request result history =>
    rcases hr with ⟨m,hm⟩ | ⟨m,c,hl⟩
    · exact absurd hm.1 request.1
    · exact absurd hl.1 request.2

structure Conversing (pb : Protobuf) (v : View) : Prop extends Tidy v where
  phase : ∀ sid, (exchange v.log sid).InStep pb
  unused : ∀ sid, v.nextSid ≤ sid → (exchange v.log sid).Idle pb
  reading : ∀ a c, v.conns a = some c → c.cs.sessionStat = .ssRequest →
    (exchange v.log c.sid).Idle pb
  asked : ∀ t ∈ v.requests, (exchange v.log t.sid).Asked pb t.ev
  ready : ∀ t ∈ v.responses, (exchange v.log t.sid).Ready pb t.ev
  kinds : ∀ sid, ∀ p ∈ (exchange v.log sid).answers, Fitting p.1 p.2
  asks : ∀ t ∈ v.requests, Request t.ev
  placed : ∀ a c, v.conns a = some c → .accepted c.sid a ∈ v.log
  pointed : ∀ t ∈ v.inFlight, ∀ a, t.ev.args = some a → .accepted t.sid a ∈ v.log

theorem dispatched_request {pb : Protobuf} {a : Addr} {bytes : Bytes} {c c' : Conn}
    {ev : IEvent} (sent : Dispatched pb a c c' bytes ev) : Request ev := by
  obtain ⟨f,-,-,req,hparse,rfl⟩ := sent.call
  rcases (parse_event_cases hparse).2 with ⟨m,rfl⟩ | ⟨m,c,rfl⟩
  · exact Or.inl ⟨m,rfl,rfl⟩
  · exact Or.inr ⟨m,c,rfl,rfl⟩

theorem answers_other {log : List Entry} {e : Entry} (h : ∀ id req rsp, e ≠ .answered id req rsp)
    (sid : ℕ) : (exchange (log++[e]) sid).answers = (exchange log sid).answers := by
  rw [exchange_snoc]
  cases e with
  | answered id req rsp => exact absurd rfl (h id req rsp)
  | accepted => rfl
  | _ => simp only [Exchange.add]; split <;> rfl

/-- An entry of one session leaves the exchanges of all others as they were; the
session itself, its items and its frames are accounted for by the hypotheses. -/
theorem conversing_entry {pb : Protobuf} {v v' : View} {e : Entry} {sid : ℕ}
    (h : Conversing pb v) (ht : Tidy v') (he : entrySid e = sid) (hused : sid < v.nextSid)
    (hlog : v'.log = v.log++[e]) (hnext : v'.nextSid = v.nextSid)
    (hphase : (exchange v'.log sid).InStep pb)
    (hkinds : ∀ p ∈ (exchange v'.log sid).answers, Fitting p.1 p.2)
    (hconns : ∀ a d, v'.conns a = some d → ∃ c, v.conns a = some c ∧ d.sid = c.sid ∧
      (d.sid ≠ sid → d.cs.sessionStat = c.cs.sessionStat))
    (hreading : ∀ a d, v'.conns a = some d → d.sid = sid → d.cs.sessionStat = .ssRequest →
      (exchange v'.log sid).Idle pb)
    (hreq : ∀ t ∈ v'.requests, (t ∈ v.requests ∧ t.sid ≠ sid) ∨
      (t.sid = sid ∧ (exchange v'.log sid).Asked pb t.ev ∧ Request t.ev))
    (hrsp : ∀ t ∈ v'.responses, (t ∈ v.responses ∧ t.sid ≠ sid) ∨
      (t.sid = sid ∧ (exchange v'.log sid).Ready pb t.ev))
    (hpoint : ∀ t ∈ v'.inFlight, t.sid = sid → ∀ a, t.ev.args = some a →
      .accepted sid a ∈ v.log) : Conversing pb v' := by
  have hother : ∀ id, id ≠ sid → exchange v'.log id = exchange v.log id := by
    intro id hne
    rw [hlog]
    exact exchange_other _ (by rw [he]; exact hne.symm)
  have hmem : ∀ x ∈ v.log, x ∈ v'.log := by
    intro x hx
    rw [hlog]
    exact List.mem_append.mpr (Or.inl hx)
  refine ⟨ht,fun id => ?_,fun id hs => ?_,fun a d hd hst => ?_,fun t hin => ?_,fun t hin => ?_,
    fun id => ?_,fun t hin => ?_,fun a d hd => ?_,fun t hin a ha => ?_⟩
  · by_cases hid : id = sid
    · rw [hid]
      exact hphase
    · rw [hother id hid]
      exact h.phase id
  · rw [hnext] at hs
    rw [hother id (by omega)]
    exact h.unused id hs
  · obtain ⟨c,hc,hs,hstat⟩ := hconns a d hd
    by_cases hid : d.sid = sid
    · rw [hid]
      exact hreading a d hd hid hst
    · rw [hother d.sid hid, hs]
      exact h.reading a c hc ((hstat hid).symm.trans hst)
  · rcases hreq t hin with ⟨hold,hne⟩ | ⟨hid,hasked,-⟩
    · rw [hother t.sid hne]
      exact h.asked t hold
    · rw [hid]
      exact hasked
  · rcases hrsp t hin with ⟨hold,hne⟩ | ⟨hid,hready⟩
    · rw [hother t.sid hne]
      exact h.ready t hold
    · rw [hid]
      exact hready
  · by_cases hid : id = sid
    · rw [hid]
      exact hkinds
    · rw [hother id hid]
      exact h.kinds id
  · rcases hreq t hin with ⟨hold,-⟩ | ⟨-,-,hrequest⟩
    · exact h.asks t hold
    · exact hrequest
  · obtain ⟨c,hc,hs,-⟩ := hconns a d hd
    rw [hs]
    exact hmem _ (h.placed a c hc)
  · by_cases hid : t.sid = sid
    · rw [hid]
      exact hmem _ (hpoint t hin hid a ha)
    · refine hmem _ (h.pointed t ?_ a ha)
      rcases Multiset.mem_add.mp hin with hin | hin
      · rcases hreq t hin with ⟨hold,-⟩ | ⟨hs,-⟩
        · exact Multiset.mem_add.mpr (Or.inl hold)
        · exact absurd hs hid
      · rcases hrsp t hin with ⟨hold,-⟩ | ⟨hs,-⟩
        · exact Multiset.mem_add.mpr (Or.inr hold)
        · exact absurd hs hid

/-- A dispatch, with or without the item it would queue. -/
theorem conversing_dispatch {pb : Protobuf} {v : View} {a : Addr} {bytes : Bytes}
    {c c' : Conn} {ev : IEvent} (h : Conversing pb v) (conn : v.conns a = some c)
    (sent : Dispatched pb a c c' bytes ev) {requests : Multiset Work}
    (hmem : ∀ t ∈ requests, t ∈ v.requests ∨ t = ⟨ev, c.sid⟩)
    (ht : Tidy { v.setConn a (some c') with
      requests := requests, log := v.log++[.dispatched c.sid ev] }) :
    Conversing pb { v.setConn a (some c') with
      requests := requests, log := v.log++[.dispatched c.sid ev] } := by
  have hasked := exchange_dispatched ev (h.reading a c conn sent.before)
  have hold : ∀ t ∈ v.inFlight, t.sid ≠ c.sid := fun t hin =>
    (reading_unreferenced h.toTidy conn sent.before hin).2
  obtain ⟨-,-,-,req,-,hev⟩ := sent.call
  refine @conversing_entry pb v _ (.dispatched c.sid ev) c.sid h ht rfl (h.connSid a c conn) rfl
    rfl (Or.inr (Or.inl ⟨ev,hasked⟩)) ?_ (fun b d hd => ?_) (fun b d hd hid hst => ?_)
    (fun t hin => ?_) (fun t hin => Or.inl ⟨hin,hold t (Multiset.mem_add.mpr (Or.inr hin))⟩)
    (fun t hin hid b hb => ?_)
  · show ∀ p ∈ (exchange (v.log++[.dispatched c.sid ev]) c.sid).answers, Fitting p.1 p.2
    rw [answers_other (by simp)]
    exact h.kinds c.sid
  · rcases update_cases hd with ⟨rfl,hx⟩ | ⟨-,hx⟩
    · obtain rfl := Option.some.inj hx
      exact ⟨c,conn,sent.sid,fun hne => absurd sent.sid hne⟩
    · exact ⟨d,hx,rfl,fun _ => rfl⟩
  · rcases update_cases hd with ⟨-,hx⟩ | ⟨hba,hx⟩
    · obtain rfl := Option.some.inj hx
      rw [sent.after] at hst
      simp at hst
    · exact absurd (h.distinct b a d c hx conn hid) hba
  · rcases hmem t hin with hin | rfl
    · exact Or.inl ⟨hin,hold t (Multiset.mem_add.mpr (Or.inl hin))⟩
    · exact Or.inr ⟨rfl,hasked,dispatched_request sent⟩
  · rcases Multiset.mem_add.mp (show t ∈ requests+v.responses from hin) with hin | hin
    · rcases hmem t hin with hin | rfl
      · exact absurd hid (hold t (Multiset.mem_add.mpr (Or.inl hin)))
      · rw [hev] at hb
        obtain rfl := Option.some.inj hb
        exact h.placed a c conn
    · exact absurd hid (hold t (Multiset.mem_add.mpr (Or.inr hin)))

/-- Sessions may go, and keep or lose bytes, and items may go. -/
theorem conversing_mono {pb : Protobuf} {v v' : View} (h : Conversing pb v) (ht : Tidy v')
    (hlog : v'.log = v.log) (hnext : v'.nextSid = v.nextSid)
    (hconns : ∀ a d, v'.conns a = some d → ∃ c, v.conns a = some c ∧ d.sid = c.sid ∧
      d.cs.sessionStat = c.cs.sessionStat)
    (hreq : ∀ t ∈ v'.requests, t ∈ v.requests) (hrsp : ∀ t ∈ v'.responses, t ∈ v.responses) :
    Conversing pb v' where
  toTidy := ht
  phase := by rw [hlog]; exact h.phase
  unused := by rw [hlog, hnext]; exact h.unused
  reading a d hd hst := by
    obtain ⟨c,hc,hs,hstat⟩ := hconns a d hd
    rw [hlog, hs]
    exact h.reading a c hc (hstat ▸ hst)
  asked t ht := by rw [hlog]; exact h.asked t (hreq t ht)
  ready t ht := by rw [hlog]; exact h.ready t (hrsp t ht)
  kinds := by rw [hlog]; exact h.kinds
  asks t ht := h.asks t (hreq t ht)
  placed a d hd := by
    obtain ⟨c,hc,hs,-⟩ := hconns a d hd
    rw [hlog, hs]
    exact h.placed a c hc
  pointed t ht a ha := by
    rw [hlog]
    refine h.pointed t ?_ a ha
    rcases Multiset.mem_add.mp ht with ht | ht
    · exact Multiset.mem_add.mpr (Or.inl (hreq t ht))
    · exact Multiset.mem_add.mpr (Or.inr (hrsp t ht))

theorem conversing_accept {pb : Protobuf} {v : View} {a : Addr} (h : Conversing pb v)
    (ht : Tidy { v.setConn a (some (Conn.accepted v.nextSid)) with
      nextSid := v.nextSid+1, log := v.log++[.accepted v.nextSid a] }) :
    Conversing pb { v.setConn a (some (Conn.accepted v.nextSid)) with
      nextSid := v.nextSid+1, log := v.log++[.accepted v.nextSid a] } where
  toTidy := ht
  phase sid := by rw [exchange_accepted]; exact h.phase sid
  unused sid hs := by
    rw [exchange_accepted]
    exact h.unused sid ((Nat.le_succ _).trans hs)
  reading b d hd hst := by
    rw [exchange_accepted]
    rcases update_cases hd with ⟨-,hx⟩ | ⟨-,hx⟩
    · obtain rfl := Option.some.inj hx
      exact h.unused _ le_rfl
    · exact h.reading b d hx hst
  asked t ht := by rw [exchange_accepted]; exact h.asked t ht
  ready t ht := by rw [exchange_accepted]; exact h.ready t ht
  kinds sid := by rw [exchange_accepted]; exact h.kinds sid
  asks := h.asks
  placed b d hd := by
    rcases update_cases hd with ⟨rfl,hx⟩ | ⟨-,hx⟩
    · obtain rfl := Option.some.inj hx
      exact List.mem_append.mpr (Or.inr (List.mem_singleton.mpr rfl))
    · exact List.mem_append.mpr (Or.inl (h.placed b d hx))
  pointed t ht b hb := List.mem_append.mpr (Or.inl (h.pointed t ht b hb))

theorem conversing_answer {pb : Protobuf} {v : View} {t : Work} {rsp : IEvent}
    {rest : Multiset Work} (h : Conversing pb v) (held : v.requests = rest+{t})
    (hf : Fitting t.ev rsp) (hargs : rsp.args = t.ev.args)
    (ht : Tidy { v with
      requests := rest, responses := v.responses+{⟨rsp, t.sid⟩},
      log := v.log++[.answered t.sid t.ev rsp] }) :
    Conversing pb { v with
      requests := rest, responses := v.responses+{⟨rsp, t.sid⟩},
      log := v.log++[.answered t.sid t.ev rsp] } := by
  have hsplit := requests_split held
  have htm : t ∈ v.requests := held ▸ mem_snoc.mpr (Or.inr rfl)
  have htfly : t ∈ v.inFlight := Multiset.mem_add.mpr (Or.inl htm)
  have hsingle := h.single
  rw [hsplit] at hsingle
  have hne := (nodup_map_snoc.mp hsingle).2
  have hready := exchange_answered rsp (h.asked t htm)
  refine @conversing_entry pb v _ (.answered t.sid t.ev rsp) t.sid h ht rfl (h.workSid t htfly)
    rfl rfl (Or.inr (Or.inr ⟨rsp,hready⟩)) (fun p hp => ?_)
    (fun a d hd => ⟨d,hd,rfl,fun _ => rfl⟩) (fun a d hd hid hst => ?_)
    (fun u hu => Or.inl ⟨?_,hne u (Multiset.mem_add.mpr (Or.inl hu))⟩) (fun u hu => ?_)
    (fun u hu hid a ha => ?_)
  · rw [show (exchange (v.log++[.answered t.sid t.ev rsp]) t.sid).answers =
      (exchange v.log t.sid).answers++[(t.ev, rsp)] by
        rw [exchange_snoc, Exchange.add, if_pos rfl]] at hp
    rcases List.mem_append.mp hp with hp | hp
    · exact h.kinds t.sid p hp
    · rw [List.mem_singleton.mp hp]
      exact hf
  · exact absurd hid.symm (reading_unreferenced h.toTidy hd hst htfly).2
  · rw [held]
    exact mem_snoc.mpr (Or.inl hu)
  · rcases mem_snoc.mp (show u ∈ v.responses+{⟨rsp, t.sid⟩} from hu) with hu | rfl
    · exact Or.inl ⟨hu,hne u (Multiset.mem_add.mpr (Or.inr hu))⟩
    · exact Or.inr ⟨rfl,hready⟩
  · have hu : u ∈ rest+(v.responses+{⟨rsp, t.sid⟩}) := hu
    rw [← add_assoc] at hu
    rcases mem_snoc.mp hu with hu | rfl
    · exact absurd hid (hne u hu)
    · exact h.pointed t htfly a (hargs.symm.trans ha)

theorem conversing_reply {pb : Protobuf} {v : View} {t : Work} {a : Addr} {c : Conn}
    {rest : Multiset Work} (h : Conversing pb v) (held : v.responses = rest+{t})
    (hargs : t.ev.args = some a) (conn : v.conns a = some c)
    (ht : Tidy { v.setConn a (some (c.replied t.ev)) with
      responses := rest, log := v.log++[.wrote c.sid (responseFrame pb t.ev t.ev.eid)] }) :
    Conversing pb { v.setConn a (some (c.replied t.ev)) with
      responses := rest, log := v.log++[.wrote c.sid (responseFrame pb t.ev t.ev.eid)] } := by
  have hsplit := in_flight_split held
  have htm : t ∈ v.responses := held ▸ mem_snoc.mpr (Or.inr rfl)
  have htfly : t ∈ v.inFlight := Multiset.mem_add.mpr (Or.inr htm)
  have hsid := (owned_sid h.toTidy htfly hargs conn).1
  have hsingle := h.single
  rw [hsplit] at hsingle
  have hne := (nodup_map_snoc.mp hsingle).2
  have hidle := exchange_wrote (h.ready t htm)
  rw [← hsid] at hidle hne
  refine @conversing_entry pb v _ (.wrote c.sid (responseFrame pb t.ev t.ev.eid)) c.sid h ht rfl
    (h.connSid a c conn) rfl rfl (Or.inl hidle) ?_
    (fun b d hd => ?_) (fun b d hd hid hst => hidle)
    (fun u hu => Or.inl ⟨hu,hne u (Multiset.mem_add.mpr (Or.inl hu))⟩)
    (fun u hu => Or.inl ⟨?_,hne u (Multiset.mem_add.mpr (Or.inr hu))⟩)
    (fun u hu hid b hb => absurd hid (hne u hu))
  · show ∀ p ∈ (exchange (v.log++[.wrote c.sid (responseFrame pb t.ev t.ev.eid)])
      c.sid).answers, Fitting p.1 p.2
    rw [answers_other (by simp)]
    exact h.kinds c.sid
  · rcases update_cases hd with ⟨rfl,hx⟩ | ⟨-,hx⟩
    · obtain rfl := Option.some.inj hx
      exact ⟨c,conn,rfl,fun hne => absurd rfl hne⟩
    · exact ⟨d,hx,rfl,fun _ => rfl⟩
  · rw [held]
    exact mem_snoc.mpr (Or.inl hu)

theorem conns_refl {conns : Heap} (a : Addr) (d : Conn) (h : conns a = some d) :
    ∃ c, conns a = some c ∧ d.sid = c.sid ∧ d.cs.sessionStat = c.cs.sessionStat :=
  ⟨d,h,rfl,rfl⟩

theorem conns_erase {conns : Heap} (a b : Addr) (d : Conn)
    (h : Function.update conns a none b = some d) :
    ∃ c, conns b = some c ∧ d.sid = c.sid ∧ d.cs.sessionStat = c.cs.sessionStat :=
  ⟨d,of_erase h,rfl,rfl⟩

/-- A step that keeps the ownership of the items keeps the conversations, if a
worker's answer is one that the handler can return. -/
theorem step_conversing_tidy {pb : Protobuf} {h : Handler} {s : State} {act : Action} {v' : View}
    (hs : ViewStep pb s (view s) act v') (hc : Conversing pb (view s)) (ht : Tidy v')
    (hopen : s.svrExit = false) (hsubs : s.subscribers = mainSubscribers h)
    (hret : ∀ w answer t, act = .svc w answer → s.workers[w]? = some (.running t) →
      Returns t.ev (answer h)) : Conversing pb v' := by
  cases hs with
  | accept a free => exact conversing_accept hc ht
  | @keep a bytes c c' conn kept =>
    refine conversing_mono hc ht rfl rfl (fun b d hd => ?_) (fun _ h => h) (fun _ h => h)
    rcases update_cases hd with ⟨rfl,hx⟩ | ⟨-,hx⟩
    · obtain rfl := Option.some.inj hx
      exact ⟨c,conn,kept.sid,kept.status⟩
    · exact ⟨d,hx,rfl,rfl⟩
  | dispatch conn sent room =>
    refine conversing_dispatch hc conn sent (fun t hin => ?_) ht
    exact mem_snoc.mp hin
  | refuse conn sent full => exact conversing_dispatch hc conn sent (fun t hin => Or.inl hin) ht
  | @close a bytes c conn reading nothing =>
    exact conversing_mono hc ht rfl rfl (conns_erase a) (fun _ h => h) (fun _ h => h)
  | handleError a =>
    exact conversing_mono hc ht rfl rfl (conns_erase a) (fun _ h => h) (fun _ h => h)
  | still internal => exact hc
  | @answer w answer t rsp rest at_ held computed =>
    have htm : t ∈ (view s).requests := held ▸ mem_snoc.mpr (Or.inr rfl)
    have hargs := svc_args computed
    rw [hopen, hsubs] at computed
    exact conversing_answer hc held
      (svc_fitting (hc.asks t htm) (hret w answer t rfl at_) computed) hargs ht
  | abandon held closed => rw [hopen] at closed; simp at closed
  | reply held args conn framed => exact conversing_reply hc held args conn ht
  | @drop t rest head held unknown =>
    apply conversing_mono hc ht rfl rfl conns_refl (fun _ h => h)
    intro u hu
    rw [held]
    exact mem_snoc.mpr (Or.inl hu)

theorem step_conversing {pb : Protobuf} {h : Handler} {s : State} {act : Action} {v' : View}
    (hs : ViewStep pb s (view s) act v') (hc : Conversing pb (view s))
    (hopen : s.svrExit = false) (hsubs : s.subscribers = mainSubscribers h)
    (hg : Served h s act) : Conversing pb v' := by
  have hreuse : Reusable (view s) act := by
    intro a ha t ht hta
    exact hg.distinct a ha t.sid (hc.pointed t ht a hta)
  exact step_conversing_tidy hs hc (step_tidy hs hc.toTidy hreuse) hopen hsubs hg.handled

theorem start_conversing (pb : Protobuf) (subscribers : EventHandlersMap) (threads : ℕ)
    (maxQueue : ℤ) : Conversing pb (view (State.start subscribers threads maxQueue)) := by
  have hidle : (exchange [] 0).Idle pb := ⟨rfl,rfl⟩
  have hnone : ∀ t, ¬ t ∈ (view (State.start subscribers threads maxQueue)).inFlight := by
    intro t ht
    rw [start_empty] at ht
    simp at ht
  refine ⟨start_tidy subscribers threads maxQueue,fun _ => Or.inl hidle,fun _ _ => hidle,
    fun a c hc => ?_,fun t ht => ?_,fun t ht => ?_,fun sid p hp => ?_,fun t ht => ?_,
    fun a c hc => ?_,fun t ht => absurd ht (hnone t)⟩
  · simp [view, State.start] at hc
  · exact absurd (Multiset.mem_add.mpr (Or.inl ht)) (hnone t)
  · exact absurd (Multiset.mem_add.mpr (Or.inr ht)) (hnone t)
  · simp [view, State.start, exchange] at hp
  · exact absurd (Multiset.mem_add.mpr (Or.inl ht)) (hnone t)
  · simp [view, State.start] at hc

theorem prefix_get {α : Type*} {l l' : List α} (h : l <+: l') {k : ℕ} {x : α}
    (hx : l[k]? = some x) : l'[k]? = some x := by
  obtain ⟨t,rfl⟩ := h
  rw [List.getElem?_append_left (List.getElem?_eq_some_iff.mp hx).1, hx]

/-- The k-th frame written on a session is the encoding of the response that a
worker computed from the k-th request dispatched by that session; there is one
response to each request, written before the next request is dispatched. -/
theorem responses_in_step (pb : Protobuf) (h : Handler) (threads : ℕ) (maxQueue : ℤ)
    (as : List Action) (s : State)
    (hr : (machine pb).Run (Served h) (State.start (mainSubscribers h) threads maxQueue) as s)
    (sid : ℕ) :
    (∀ (k : ℕ) (frame : Bytes), (exchange s.log sid).frames[k]? = some frame →
      ∃ req rsp, (exchange s.log sid).dispatched[k]? = some req ∧
        (exchange s.log sid).answers[k]? = some (req, rsp) ∧ Fitting req rsp ∧
        frame = responseFrame pb rsp rsp.eid) ∧
    (exchange s.log sid).dispatched.length ≤ (exchange s.log sid).frames.length+1 ∧
    (exchange s.log sid).frames.length ≤ (exchange s.log sid).answers.length ∧
    (exchange s.log sid).answers.length ≤ (exchange s.log sid).dispatched.length := by
  have hi : Conversing pb (view s) ∧ s.svrExit = false ∧ s.subscribers = mainSubscribers h := by
    refine hr.everywhere (fun s => Conversing pb (view s) ∧ s.svrExit = false ∧
      s.subscribers = mainSubscribers h) ⟨start_conversing pb _ _ _,rfl,rfl⟩ ?_
      List.prefix_rfl hr
    rintro t act u ⟨hc,hopen,hsubs⟩ hg hn
    obtain ⟨hexit,hsub⟩ := Prod.mk.inj (next_settings hn)
    exact ⟨step_conversing (next_view hc.readable hn) hc hopen hsubs hg,hexit.trans hopen,
      hsub.trans hsubs⟩
  obtain ⟨hans,hframes,hone⟩ := in_step_pairs (hi.1.phase sid)
  have hkinds := hi.1.kinds sid
  change ∀ p ∈ (exchange s.log sid).answers, Fitting p.1 p.2 at hkinds
  change (exchange s.log sid).answers.map Prod.fst <+: (exchange s.log sid).dispatched at hans
  change (exchange s.log sid).frames <+: (exchange s.log sid).answers.map (frameOf pb) at hframes
  refine ⟨fun k frame hk => ?_,hone,by simpa using hframes.length_le,
    by simpa using hans.length_le⟩
  have hfk := prefix_get hframes hk
  rw [List.getElem?_map, Option.map_eq_some_iff] at hfk
  obtain ⟨⟨req,rsp⟩,hp,hframe⟩ := hfk
  refine ⟨req,rsp,prefix_get hans ?_,hp,hkinds _ (List.mem_of_getElem? hp),hframe.symm⟩
  rw [List.getElem?_map, hp]
  rfl

/-- The request of the sample frame, as the session at address 8 queues it. -/
def sampleRequest : IEvent := (mobileCodeReqEv [49]).setArgs (some 8)

theorem returns_sample : Returns sampleRequest (some (mobileCodeRspEv 200 7)) :=
  ⟨[],[.call sampleRequest, .advance 0 ⟨7, true, .rows, true⟩,
    .advance 0 ⟨7, true, .rows, true⟩, .advance 0 ⟨7, true, .rows, true⟩,
    .advance 0 ⟨7, true, .rows, true⟩],_,0,Machine.free_of_replay rfl,rfl⟩

def sampleService : List Action :=
  [.accept 8, .arrive 8 mobileFrame, .enter 0, .svc 0 (answerWith (mobileCodeRspEv 200 7)),
    .push 0, .drain, .handleResponse]

theorem sample_served {s : State}
    (hs : (machine proto2).replay (State.opened (mainSubscribers 0)) sampleService =
      some s) :
    (machine proto2).Run (Served 0) (State.opened (mainSubscribers 0)) sampleService s := by
  have hother : ∀ (t : State) (act : Action), (∀ a, act ≠ .accept a) →
      (∀ w answer, act ≠ .svc w answer) → Served 0 t act := fun t act ha hw =>
    ⟨fun a hx => absurd hx (ha a),fun w answer _ hx => absurd hx (hw w answer)⟩
  apply (Machine.free_of_replay hs).guarded_at
  intro bs act t hb ht _
  obtain ⟨rest,hrest⟩ := hb
  match bs, act, hrest, ht with
  | [], act, hrest, ht =>
    obtain rfl := (List.cons.inj hrest).1
    obtain rfl := Option.some.inj ht.replay_eq
    exact ⟨fun a _ sid => by simp [State.opened, State.start],fun w answer _ hx => by simp at hx⟩
  | [x], act, hrest, _ =>
    obtain ⟨-,htail⟩ := List.cons.inj hrest
    obtain rfl := (List.cons.inj htail).1
    exact hother _ _ (by simp) (by simp)
  | [x, y], act, hrest, _ =>
    obtain ⟨-,htail⟩ := List.cons.inj hrest
    obtain ⟨-,htail⟩ := List.cons.inj htail
    obtain rfl := (List.cons.inj htail).1
    exact hother _ _ (by simp) (by simp)
  | [x, y, z], act, hrest, ht =>
    obtain ⟨hx,htail⟩ := List.cons.inj hrest
    obtain ⟨hy,htail⟩ := List.cons.inj htail
    obtain ⟨hz,htail⟩ := List.cons.inj htail
    obtain rfl := (List.cons.inj htail).1
    subst hx hy hz
    have heval := ht.replay_eq
    obtain rfl := Option.some.inj heval
    refine ⟨fun a hx => by simp at hx,fun w answer u hact hu => ?_⟩
    obtain ⟨rfl,rfl⟩ := Action.svc.inj hact
    obtain rfl := Worker.running.inj (Option.some.inj hu)
    exact returns_sample
  | x::y::z::u::bs, act, hrest, _ =>
    have hmem : act ∈ sampleService.drop 4 := by
      rw [← hrest]
      simp
    refine hother _ _ (fun a hact => ?_) (fun w answer hact => ?_) <;>
    · rw [hact] at hmem
      simp [sampleService] at hmem

theorem responses_in_step_sample : ∃ s,
    (machine proto2).replay (State.opened (mainSubscribers 0)) sampleService = some s ∧
    (exchange s.log 0).frames.length = 1 ∧
    (∀ (k : ℕ) (frame : Bytes), (exchange s.log 0).frames[k]? = some frame →
      ∃ req rsp, (exchange s.log 0).dispatched[k]? = some req ∧
        (exchange s.log 0).answers[k]? = some (req, rsp) ∧ Fitting req rsp ∧
        frame = responseFrame proto2 rsp rsp.eid) := by
  obtain ⟨s,hs,hlen⟩ : ∃ s, (machine proto2).replay (State.opened (mainSubscribers 0))
      sampleService = some s ∧ (exchange s.log 0).frames.length = 1 := ⟨_,rfl,rfl⟩
  exact ⟨s,hs,hlen,(responses_in_step proto2 0 defaultThreadsNum defaultQueueNum sampleService s
    (sample_served hs) 0).1⟩

end SharedBike.Conversations
