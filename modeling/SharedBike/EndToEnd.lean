import SharedBike.ChronicleSteps
import SharedBike.LoginCodes
import SharedBike.WireAgreement

/-!
# What a client can conclude from the frames it gets

The platform is the server of the earlier modules with the real handler in
place of the assumptions on its answers. Every frame on the wire is therefore
the result of one call, made for the request before it, and a login's verdict
follows from the requests that reached the server.
-/

set_option autoImplicit false

namespace SharedBike.EndToEnd
open GuardedRuns Histories
open SharedBike.Globals SharedBike.BikeProtocol SharedBike.Events SharedBike.DispatchMsgService
open SharedBike.NetworkInterface
open SharedBike.Server (Work Worker)
open SharedBike.ServerView SharedBike.ServerInvariant SharedBike.CallHistory
open SharedBike.LoginCodes SharedBike.Conversations SharedBike.Platform SharedBike.Chronicles
open SharedBike.ChronicleSteps

variable {pb : Protobuf} {hd : Handler} {s : State}

/-- Addresses are reused only when free of items, and each answer is one that
the handler returns. -/
structure Handled (hd : Handler) (s : Server.State) (act : Server.Action) : Prop where
  reuse : Reusable (view s) act
  handled : ∀ w answer t, act = .svc w answer → s.workers[w]? = some (.running t) →
    Returns t.ev (answer hd)

/-- A run of the platform is a run of the server in which every answer is the
handler's, together with a run of the handler. -/
theorem platform_refines {threads : ℕ} {maxQueue : ℤ} {table : UserService.UserInfo}
    {as : List Action}
    (hr : (machine pb).Run Reuses (State.start hd threads maxQueue table) as s) :
    (∃ bs, (Server.machine pb).Run (Handled hd)
      (Server.State.start (mainSubscribers hd) threads maxQueue) bs s.srv) ∧
    ∃ cs, UserEventHandler.machine.Run Machine.Free (UserEventHandler.State.start table) cs
      s.users := by
  have hstart := start_chronicled pb hd threads maxQueue table
  constructor
  · refine (@Machine.Run.project _ _ _ _ _ _ (machine pb) (Server.machine pb) _ (Handled hd) _ _ _
      (Chronicled pb hd) State.srv hr hstart ?_).2
    intro t a u hi hg hn
    refine ⟨next_chronicled hi hg hn,?_⟩
    have hreuse : ∀ (act : Server.Action), a = .net act → Reusable (view t.srv) act := by
      intro act ha b hb u hu
      exact hg b (by rw [ha, hb]) u hu
    cases next_moved hn with
    | @net act srv other next =>
      exact ⟨[act],.single ⟨hreuse act rfl,fun w answer _ hx => absurd hx (other w answer)⟩ next⟩
    | handle at_ idle next => exact ⟨[],.nil⟩
    | advance busy next => exact ⟨[],.nil⟩
    | @finish w i ev rsp srv busy done next =>
      refine ⟨[.svc w fun _ => rsp],.single ⟨fun b hb => by simp at hb,?_⟩ next⟩
      intro v answer u hx hu
      obtain ⟨rfl,rfl⟩ := Server.Action.svc.inj hx
      exact finish_returns hi busy done hu
    | skip at_ idle nobody next => exact (never_skips hi at_ nobody).elim
  · refine (@Machine.Run.project _ _ _ _ _ _ (machine pb) UserEventHandler.machine _ Machine.Free
      _ _ _ (fun _ => True) State.users hr trivial ?_).2
    intro t a u _ _ hn
    refine ⟨trivial,?_⟩
    cases next_moved hn with
    | net other next => exact ⟨[],.nil⟩
    | skip at_ idle nobody next => exact ⟨[],.nil⟩
    | handle at_ idle next => exact ⟨_,.single trivial next⟩
    | advance busy next => exact ⟨_,.single trivial next⟩
    | finish busy done next => exact ⟨[],.nil⟩

/-- An entry of a call stands behind the dispatch of the request it serves. -/
theorem entry_since (h : Chronicled pb hd s) {pre post : List Event}
    {e : UserEventHandler.Entry} (hlog : s.log = pre++.inr e::post) :
    ∃ t before after, pre = before++.inl (.dispatched t.sid t.ev)::after ∧
      Since s.served t (some e.call) before after :=
  h.sound _ _ _ hlog

theorem handler_orderly (h : Chronicled pb hd s) : Orderly s.users ∧ Coded s.users := by
  obtain ⟨table,as,hr⟩ := h.reached
  exact ⟨run_orderly hr,run_coded hr⟩

/-- The call that made an entry, as the handler has it. -/
theorem entry_path (h : Chronicled pb hd s) {e : UserEventHandler.Entry} {t : Work}
    (he : .inr e ∈ s.log) (ht : s.served[e.call]? = some t) :
    ∃ p, Follows e.call t.ev (own e.call s.users.log) p ∧ e ∈ own e.call s.users.log := by
  have hin : e ∈ s.users.log := by
    rw [← h.handler]
    exact mem_rights.mpr he
  obtain ⟨ho,-⟩ := handler_orderly h
  obtain ⟨call,hcall⟩ : ∃ call, s.users.calls[e.call]? = some call :=
    ⟨_,List.getElem?_eq_getElem (ho.known e hin)⟩
  refine ⟨call.point,?_,mem_own.mpr ⟨hin,rfl⟩⟩
  rw [← served_call h ht hcall]
  exact ho.path e.call call.ev call.point hcall

/-- What stands before a frame: its request, the answer, and between these two
the call that computed it. -/
theorem frame_source (h : Chronicled pb hd s) {pre post : List Event} {sid : ℕ}
    {frame : LittleEndian.Bytes} (hlog : s.log = pre++.inl (.wrote sid frame)::post) :
    ∃ req rsp i before between after,
      pre = before++.inl (.dispatched sid req)::(between++.inl (.answered sid req rsp)::after) ∧
        Quiet sid after ∧ Served s.served i sid req rsp before between ∧ Request req ∧
        frame = responseFrame pb rsp rsp.eid := by
  obtain ⟨req,rsp,front,after,rfl,hquiet,hframe⟩ := h.sound _ _ _ hlog
  obtain ⟨i,before,between,rfl,hserved⟩ := h.sound front (.inl (.answered sid req rsp))
    (after++.inl (.wrote sid frame)::post) (by rw [hlog]; simp)
  have hrequest := h.sound before (.inl (.dispatched sid req))
    (between++.inl (.answered sid req rsp)::(after++.inl (.wrote sid frame)::post))
    (by rw [hlog]; simp)
  exact ⟨req,rsp,i,before,between,after,by simp,hquiet,hserved,hrequest,hframe⟩

def up (icode : Int32) : UserEventHandler.Environment := ⟨icode, true, .rows, true⟩

def loginFrame : LittleEndian.Bytes := [70, 66, 69, 66, 3, 0, 5, 0, 0, 0, 10, 1, 49, 16, 7]

/-- One client asks for a code and logs in with it. -/
def sampleService : List Action :=
  [.net (.accept 8), .net (.arrive 8 SessionLifetime.mobileFrame), .net (.enter 0), .handle 0,
    .advance 0 (up 7), .advance 0 (up 7), .advance 0 (up 7), .advance 0 (up 7), .finish 0,
    .net (.push 0), .net .drain, .net .handleResponse, .net .handleResponse,
    .net (.arrive 8 loginFrame), .net (.enter 0), .handle 0, .advance 0 (up 7),
    .advance 0 (up 7), .advance 0 (up 7), .advance 0 (up 7), .advance 0 (up 7),
    .advance 0 (up 7), .finish 0, .net (.push 0), .net .drain, .net .handleResponse]

def sampleCode : IEvent := (mobileCodeReqEv [49]).setArgs (some 8)

def sampleLogin : IEvent := (loginReqEv [49] 7).setArgs (some 8)

def sampleLog : List Event :=
  [.inl (.accepted 0 8), .inl (.dispatched 0 sampleCode), .inr (.stored 0 [49] 7),
    .inl (.answered 0 sampleCode ((mobileCodeRspEv 200 7).setArgs (some 8))),
    .inl (.wrote 0 (responseFrame proto2 (mobileCodeRspEv 200 7) 2)),
    .inl (.dispatched 0 sampleLogin), .inr (.verified 1 [49] 7 true),
    .inr (.selected 1 [49] false), .inr (.inserted 1 [49] true),
    .inl (.answered 0 sampleLogin ((loginRspEv 200).setArgs (some 8))),
    .inl (.wrote 0 (responseFrame proto2 (loginRspEv 200) 4))]

/-- A run that allocates one address, before anything is in flight. -/
theorem reuses_first {s t : State} {a : Addr} {as : List Action} (h0 : s.srv.inFlight = 0)
    (hrest : ∀ b, .net (.accept b) ∉ as)
    (h : (machine pb).replay s (.net (.accept a)::as) = some t) :
    (machine pb).Run Reuses s (.net (.accept a)::as) t := by
  apply (Machine.free_of_replay h).guarded_at
  rintro bs act u ⟨rest,hb⟩ hu - b rfl t ht
  cases bs with
  | nil =>
    obtain rfl := Option.some.inj hu.replay_eq
    rw [h0] at ht
    simp at ht
  | cons x bs =>
    refine absurd ?_ (hrest b)
    rw [← (List.cons.inj hb).2]
    simp

theorem sample_run : ∃ s, (machine proto2).Run Reuses (State.start 0 4 65535 []) sampleService s ∧
    s.log = sampleLog ∧ s.users.table = [[49]] := by
  have heval : ((machine proto2).replay (State.start 0 4 65535 []) sampleService).map
      (fun s => (s.log, s.users.table)) = some (sampleLog, [[49]]) := by decide +kernel
  obtain ⟨s,hs,hx⟩ := Option.map_eq_some_iff.mp heval
  obtain ⟨hlog,htable⟩ := Prod.mk.inj hx
  exact ⟨s,reuses_first (start_empty _ _ _) (by simp) hs,hlog,htable⟩

/-- The code was stored for the mobile by the call for a request on the wire, and
no other code was stored for it since. -/
def Issued (served : List Work) (m : LittleEndian.Bytes) (c : Int32) (log : List Event) : Prop :=
  ∃ before sid ask between j after, log = before++.inl (.dispatched sid ask)::(between++
    .inr (.stored j m c)::after) ∧ served[j]? = some ⟨ask, sid⟩ ∧ CodeRequest ask m ∧
      codesFor m (rights after) = []

/-- A verification that passes is that of a login on the wire whose code has
been issued. -/
theorem verified_issued (h : Chronicled pb hd s) {pre post : List Event} {i : ℕ}
    {m : LittleEndian.Bytes} {c : Int32} (hlog : s.log = pre++.inr (.verified i m c true)::post) :
    Issued s.served m c pre := by
  obtain ⟨-,hcoded⟩ := handler_orderly h
  have husers : s.users.log = rights pre++.verified i m c true::rights post := by
    rw [← h.handler, hlog, rights_append]
    rfl
  obtain ⟨a,j,b,hpre,hnone⟩ := last_stored ((hcoded.verdicts _ _ _ _ _ _ husers).mp rfl)
  obtain ⟨front,after,rfl,-,rfl⟩ := rights_split hpre
  have hmem : (.inr (.stored j m c) : Event) ∈ s.log := by rw [hlog]; simp
  obtain ⟨t,before,between,rfl,hsince⟩ := @entry_since _ _ _ h front
    (after++.inr (.verified i m c true)::post) (.stored j m c) (by rw [hlog]; simp)
  obtain ⟨p,hfollows,hown⟩ := entry_path h hmem (hsince.fresh j rfl).1
  exact ⟨before,t.sid,t.ev,between,j,after,by simp,(hsince.fresh j rfl).1,
    follows_stored hfollows hown,hnone⟩

/-- What a client makes of a frame that it gets in one read. -/
def ReadsAs (pb : Protobuf) (frame : LittleEndian.Bytes) (response : Client.Response) : Prop :=
  ∀ msg icode, msg.length = Client.bufferLen → ∃ code eid len,
    Client.serverMsgCb pb msg icode frame = .ok (.next code (some ⟨eid, len, response⟩))

theorem reads_as {ev : IEvent} {response : Client.Response} {code : Int32 → Int32}
    (hf : HasFrame ev) (h : WireAgreement.ClientReads pb ev response code) :
    ReadsAs pb (responseFrame pb ev ev.eid) response := by
  intro msg icode hm
  obtain ⟨cs',frame,hframe,-,-,-,hread⟩ := h none sessionInit
  rw [@handle_response_frame pb (ev.setArgs none) hf] at hframe
  obtain ⟨-,rfl⟩ := Sent.wrote.inj (Option.some.inj (Except.ok.inj hframe))
  exact ⟨_,_,_,hread msg icode hm⟩

theorem reads_once {frame : LittleEndian.Bytes} {r r' : Client.Response}
    (h : ReadsAs pb frame r) (h' : ReadsAs pb frame r') : r = r' := by
  obtain ⟨code,eid,len,he⟩ := h (List.replicate Client.bufferLen 0) 0 (by simp)
  obtain ⟨code',eid',len',he'⟩ := h' (List.replicate Client.bufferLen 0) 0 (by simp)
  rw [he] at he'
  simp only [Except.ok.injEq, Client.Reaction.next.injEq, Option.some.injEq,
    Client.Handled.mk.injEq] at he'
  exact he'.2.2.2

/-- The frame of a completed call is read as the result of the call. -/
theorem completed_reads (hpb : pb.Lawful) {i : ℕ} {req r : IEvent}
    {log : List UserEventHandler.Entry} (h : Completed i req (some r) log) :
    (∃ m c, CodeRequest req m ∧ log = [.stored i m c] ∧ ReadsAs pb (responseFrame pb r r.eid)
      (.mobileResponse ⟨EErrorCode.success.code, c,
        some (getReasonByErrorCode EErrorCode.success.code)⟩)) ∨
    ∃ m c e, LoginAttempt req m c ∧ LoginPath i m c log e ∧
      ReadsAs pb (responseFrame pb r r.eid)
        (.loginResponse ⟨e.code, some (getReasonByErrorCode e.code)⟩) := by
  cases h with
  | code m c request result history =>
    obtain rfl := Option.some.inj result
    exact Or.inl ⟨m,c,request,history,
      reads_as (Or.inl rfl) (WireAgreement.mobile_response_read hpb _ c)⟩
  | login m c e request result history =>
    obtain rfl := Option.some.inj result
    exact Or.inr ⟨m,c,e,request,history,
      reads_as (Or.inr rfl) (WireAgreement.login_response_read hpb e.code)⟩
  | ignored request result history => simp at result

/-- A client that reads success from its session has sent a login there whose
code was, when the call for the login verified it, the last one issued for its
mobile on request of some client. -/
theorem success_authentic (pb : Protobuf) (hpb : pb.Lawful) (hd : Handler) (threads : ℕ)
    (maxQueue : ℤ) (table : UserService.UserInfo) (as : List Action) (s : State)
    (hr : (machine pb).Run Reuses (State.start hd threads maxQueue table) as s)
    (pre post : List Event) (sid : ℕ) (frame : LittleEndian.Bytes) (lr : LoginResponse)
    (hlog : s.log = pre++.inl (.wrote sid frame)::post)
    (hread : ReadsAs pb frame (.loginResponse lr)) (hok : lr.code = EErrorCode.success.code) :
    ∃ before login between i m c after, pre = before++.inl (.dispatched sid login)::(between++
        .inr (.verified i m c true)::after) ∧ s.served[i]? = some ⟨login, sid⟩ ∧
      LoginAttempt login m c ∧ (∀ ev, .inl (.dispatched sid ev) ∉ between++after) ∧
      Issued s.served m c (before++.inl (.dispatched sid login)::between) := by
  have h := run_chronicled hr
  obtain ⟨req,rsp,i,before,between,after,rfl,hquiet,hserved,-,rfl⟩ := frame_source h hlog
  obtain ⟨r,hcomp,rfl⟩ := hserved.result
  have hframe : responseFrame pb (r.setArgs req.args) (r.setArgs req.args).eid =
      responseFrame pb r r.eid := rfl
  rw [hframe] at hread
  rcases completed_reads hpb hcomp with ⟨m,c,-,-,hmr⟩ | ⟨m,c,e,hlogin,hpath,hlr⟩
  · exact absurd (reads_once hread hmr) (by simp)
  · obtain rfl := Client.Response.loginResponse.inj (reads_once hread hlr)
    obtain rfl := error_code_injective hok
    obtain ⟨a,b,hsplit⟩ := List.append_of_mem (mem_own.mp (login_success hpath)).1
    obtain ⟨front,back,rfl,-,-⟩ := rights_split hsplit
    refine ⟨before,req,front,i,m,c,
      back++.inl (.answered sid req (r.setArgs req.args))::after,by simp,
      (hserved.since.fresh i rfl).1,hlogin,?_,?_⟩
    · intro ev hev
      simp only [List.mem_append, List.mem_cons] at hev
      rcases hev with hev | hev | hev | hev
      · exact hserved.since.quiet (.dispatched sid ev) (by simp [hev]) rfl
      · exact hserved.since.quiet (.dispatched sid ev) (by simp [hev]) rfl
      · simp at hev
      · exact hquiet _ hev rfl
    · refine @verified_issued _ _ _ h _ (back++.inl (.answered sid req (r.setArgs req.args))::
        (after++.inl (.wrote sid (responseFrame pb (r.setArgs req.args)
          (r.setArgs req.args).eid))::post)) i m c ?_
      rw [hlog]
      simp

theorem sample_reads : ReadsAs proto2 (responseFrame proto2 (loginRspEv 200) 4)
    (.loginResponse ⟨200, some (getReasonByErrorCode 200)⟩) :=
  @reads_as proto2 (loginRspEv 200) _ _ (Or.inr rfl)
    (WireAgreement.login_response_read proto2_lawful 200)

theorem success_authentic_login : ∃ s before login between i m c after,
    (machine proto2).Run Reuses (State.start 0 4 65535 []) sampleService s ∧
    sampleLog.take 10 = before++.inl (.dispatched 0 login)::(between++
      .inr (.verified i m c true)::after) ∧ s.served[i]? = some ⟨login, 0⟩ ∧
    LoginAttempt login m c ∧ Issued s.served m c (before++.inl (.dispatched 0 login)::between) := by
  obtain ⟨s,hr,hlog,-⟩ := sample_run
  obtain ⟨before,login,between,i,m,c,after,hpre,hserved,hlogin,-,hissued⟩ := success_authentic
    proto2 proto2_lawful 0 4 65535 [] sampleService s hr (sampleLog.take 10) [] 0 _ _
    (by rw [hlog]; rfl) sample_reads rfl
  exact ⟨s,before,login,between,i,m,c,after,hr,hpre,hserved,hlogin,hissued⟩

/-- Every code request for the mobile has been answered. -/
def Settled (m : LittleEndian.Bytes) (log : List Event) : Prop :=
  ∀ a sid ask b, log = a++.inl (.dispatched sid ask)::b → CodeRequest ask m →
    ∃ rsp, .inl (.answered sid ask rsp) ∈ b

/-- From a frame back to its request: the last dispatch of the session, wherever
else it is known to stand. -/
theorem frame_request (h : Chronicled pb hd s) {front back post : List Event} {sid : ℕ}
    {req : IEvent} {frame : LittleEndian.Bytes}
    (hlog : s.log = (front++.inl (.dispatched sid req)::back)++.inl (.wrote sid frame)::post)
    (hlast : ∀ ev, .inl (.dispatched sid ev) ∉ back) :
    ∃ i r between after, back = between++.inl (.answered sid req (r.setArgs req.args))::after ∧
      Since s.served ⟨req, sid⟩ (some i) front between ∧
      Completed i req (some r) (own i (rights between)) ∧ frame = responseFrame pb r r.eid := by
  obtain ⟨req',rsp,i,before,between,after,hsplit,hquiet,hserved,-,rfl⟩ := frame_source h hlog
  obtain ⟨r,hcomp,rfl⟩ := hserved.result
  obtain ⟨rfl,hx,rfl⟩ := @last_unique _ _ _ (fun e => ∃ ev, e = .inl (.dispatched sid ev)) _ _ _ _
    hsplit ⟨req,rfl⟩ ⟨req',rfl⟩ (by rintro e he ⟨ev,rfl⟩; exact hlast ev he) (by
      rintro e he ⟨ev,rfl⟩
      simp only [List.mem_append, List.mem_cons] at he
      rcases he with he | he | he
      · exact hserved.since.quiet _ he rfl
      · simp at he
      · exact hquiet _ he rfl)
  obtain ⟨-,rfl⟩ := Server.Entry.dispatched.inj (Sum.inl.inj hx)
  exact ⟨i,r,between,after,rfl,hserved.since,hcomp,rfl⟩

theorem mem_codes {m : LittleEndian.Bytes} {c : Int32} {log : List UserEventHandler.Entry} :
    c ∈ codesFor m log ↔ ∃ j, .stored j m c ∈ log := by
  simp only [codesFor, List.mem_filterMap]
  constructor
  · rintro ⟨e,he,hc⟩
    cases e with
    | stored j m' c' =>
      simp only [Option.ite_none_right_eq_some, Option.some.injEq] at hc
      obtain ⟨rfl,rfl⟩ := hc
      exact ⟨j,he⟩
    | _ => simp at hc
  · rintro ⟨j,hj⟩
    exact ⟨_,hj,by simp⟩

theorem last_constant {α : Type*} {l l' : List α} {x : α} (hx : x ∈ l') (hall : ∀ y ∈ l', y = x) :
    (l++l').getLast? = some x := by
  obtain ⟨n,hn⟩ : ∃ n, l' = List.replicate n x := ⟨_,List.eq_replicate_of_mem hall⟩
  subst hn
  cases n with
  | zero => simp at hx
  | succ n => rw [List.replicate_succ', ← List.append_assoc, List.getLast?_concat]

/-- While only one code request for a mobile is open, the code that it is answered
with is the only one stored. -/
theorem only_code (h : Chronicled pb hd s) {front between rest post : List Event} {sid i : ℕ}
    {ask rsp : IEvent} {m : LittleEndian.Bytes} {c : Int32}
    (hlog : s.log = (front++.inl (.dispatched sid ask)::(between++
      .inl (.answered sid ask rsp)::rest))++post)
    (hsince : Since s.served ⟨ask, sid⟩ (some i) front between)
    (hown : own i (rights between) = [.stored i m c]) (hsettled : Settled m front)
    (hnone : ∀ sid ev, .inl (.dispatched sid ev) ∈ between++rest → ¬ CodeRequest ev m)
    {k : ℕ} {c' : Int32}
    (hk : .inr (.stored k m c') ∈ between++.inl (.answered sid ask rsp)::rest) : c' = c := by
  obtain ⟨p,q,hsplit⟩ := List.append_of_mem hk
  have hlog' : s.log = (front++.inl (.dispatched sid ask)::p)++
      .inr (.stored k m c')::(q++post) := by
    rw [hlog, hsplit]
    simp
  obtain ⟨t,before,after,hfront,hsince'⟩ := entry_since h hlog'
  obtain ⟨point,hfollows,hin⟩ := entry_path h
    (show .inr (.stored k m c') ∈ s.log by rw [hlog']; simp) (hsince'.fresh k rfl).1
  have hask := follows_stored hfollows hin
  rcases entries_compare hfront with ⟨-,hx,rfl⟩ | ⟨x,-,rfl⟩ | ⟨x,rfl,rfl⟩
  · obtain ⟨rfl,rfl⟩ := Server.Entry.dispatched.inj (Sum.inl.inj hx)
    rcases entries_compare hsplit with ⟨-,hx,-⟩ | ⟨x,rfl,-⟩ | ⟨x,rfl,-⟩
    · simp at hx
    · exact absurd rfl (hsince'.quiet (.answered t.sid t.ev rsp) (by simp))
    · obtain rfl := Option.some.inj (hsince.only (.stored k m c') t.ev (by simp)
        (hsince'.fresh k rfl).1)
      have hmem : UserEventHandler.Entry.stored i m c' ∈ own i (rights
          (p++.inr (.stored i m c')::x)) := mem_own.mpr ⟨mem_rights.mpr (by simp),rfl⟩
      rw [hown, List.mem_singleton] at hmem
      exact (UserEventHandler.Entry.stored.inj hmem).2.2
  · refine absurd hask (hnone t.sid t.ev ?_)
    have hmem : (.inl (.dispatched t.sid t.ev) : Event) ∈
        between++.inl (.answered sid ask rsp)::rest := by rw [hsplit]; simp
    simpa using hmem
  · obtain ⟨rsp',hrsp⟩ := hsettled _ _ _ _ rfl hask
    exact absurd rfl (hsince'.quiet (.answered t.sid t.ev rsp') (by simp [hrsp]))

/-- The code passes from then on. -/
theorem issued_passes (h : Chronicled pb hd s) {front between rest post : List Event}
    {sid i k : ℕ} {ask rsp : IEvent} {m : LittleEndian.Bytes} {c : Int32} {passed : Bool}
    (hlog : s.log = (front++.inl (.dispatched sid ask)::(between++
      .inl (.answered sid ask rsp)::rest))++.inr (.verified k m c passed)::post)
    (hsince : Since s.served ⟨ask, sid⟩ (some i) front between)
    (hown : own i (rights between) = [.stored i m c]) (hsettled : Settled m front)
    (hnone : ∀ sid ev, .inl (.dispatched sid ev) ∈ between++rest → ¬ CodeRequest ev m) :
    passed = true := by
  obtain ⟨-,hcoded⟩ := handler_orderly h
  have husers : s.users.log = (rights front++rights (between++.inl (.answered sid ask rsp)::rest))++
      .verified k m c passed::rights post := by
    rw [← h.handler, hlog, rights_append, rights_append]
    rfl
  rw [hcoded.verdicts _ _ _ _ _ _ husers, codes_append]
  refine last_constant (mem_codes.mpr ⟨i,?_⟩) (fun c' hc' => ?_)
  · have hmem : .stored i m c ∈ own i (rights between) := by rw [hown]; simp
    rw [rights_append]
    exact List.mem_append.mpr (Or.inl (mem_own.mp hmem).1)
  · obtain ⟨j,hj⟩ := mem_codes.mp hc'
    exact only_code h hlog hsince hown hsettled hnone (mem_rights.mp hj)

theorem code_request_mobile {ev : IEvent} {m m' : LittleEndian.Bytes} (h : CodeRequest ev m)
    (h' : CodeRequest ev m') : m = m' := by
  have := h.2.symm.trans h'.2
  simpa using this

theorem login_attempt_inj {ev : IEvent} {m m' : LittleEndian.Bytes} {c c' : Int32}
    (h : LoginAttempt ev m c) (h' : LoginAttempt ev m' c') : m = m' ∧ c = c' := by
  have := h.2.symm.trans h'.2
  simpa using this

theorem code_not_login {ev : IEvent} {m m' : LittleEndian.Bytes} {c : Int32}
    (h : CodeRequest ev m) (h' : LoginAttempt ev m' c) : False :=
  absurd (h.1.symm.trans h'.1) (by decide)

/-- A client that logs in with the code that it read from the answer to a code
request is not turned away, if no other code request for the mobile was open
since: the code is right, and the login fails only where the database does. -/
theorem login_accepted (pb : Protobuf) (hpb : pb.Lawful) (hd : Handler) (threads : ℕ)
    (maxQueue : ℤ) (table : UserService.UserInfo) (as : List Action) (s : State)
    (hr : (machine pb).Run Reuses (State.start hd threads maxQueue table) as s)
    (a b c d e : List Event) (sid sid' : ℕ) (ask login : IEvent) (m f f' : LittleEndian.Bytes)
    (mr : MobileResponse)
    (hlog : s.log = a++.inl (.dispatched sid ask)::(b++.inl (.wrote sid f)::(c++
      .inl (.dispatched sid' login)::(d++.inl (.wrote sid' f')::e))))
    (hask : CodeRequest ask m) (hfirst : ∀ ev, .inl (.dispatched sid ev) ∉ b)
    (hcode : ReadsAs pb f (.mobileResponse mr)) (hlogin : LoginAttempt login m mr.icode)
    (hlast : ∀ ev, .inl (.dispatched sid' ev) ∉ d) (hsettled : Settled m a)
    (hnone : ∀ sid ev, .inl (.dispatched sid ev) ∈ b++c++d → ¬ CodeRequest ev m) :
    ∃ lr, ReadsAs pb f' (.loginResponse lr) ∧
      (lr.code = EErrorCode.success.code ∨ lr.code = EErrorCode.processFailed.code) := by
  have h := run_chronicled hr
  obtain ⟨i,r,between,after,hb,hsince,hcomp,rfl⟩ := @frame_request _ _ _ h a b _ sid ask f
    (by rw [hlog, List.append_assoc, List.cons_append]) hfirst
  obtain ⟨i',r',between',after',hd',-,hcomp',rfl⟩ := @frame_request _ _ _ h
    (a++.inl (.dispatched sid ask)::(b++.inl (.wrote sid (responseFrame pb r r.eid))::c)) d e sid'
    login f' (by rw [hlog]; simp) hlast
  obtain ⟨m',c',hm',hown,hread⟩ | ⟨m',c',e',hl,-⟩ := completed_reads hpb hcomp
  swap
  · exact (code_not_login hask hl).elim
  obtain rfl := code_request_mobile hask hm'
  obtain rfl := Client.Response.mobileResponse.inj (reads_once hcode hread)
  obtain ⟨m',c'',hm',-⟩ | ⟨m',c'',e',hl,hpath,hread'⟩ := completed_reads hpb hcomp'
  · exact (code_not_login hm' hlogin).elim
  obtain ⟨rfl,rfl⟩ := login_attempt_inj hlogin hl
  refine ⟨_,hread',?_⟩
  generalize hcalls : own i' (rights between') = calls at hpath
  cases hpath with
  | rejected =>
    have hmem : UserEventHandler.Entry.verified i' m c' false ∈ own i' (rights between') := by
      rw [hcalls]
      simp
    obtain ⟨x,y,rfl⟩ := List.append_of_mem (mem_rights.mp (mem_own.mp hmem).1)
    have hpassed := @issued_passes _ _ _ h a between (after++.inl (.wrote sid
      (responseFrame pb r r.eid))::(c++.inl (.dispatched sid' login)::x))
      (y++.inl (.answered sid' login (r'.setArgs login.args))::(after'++
        .inl (.wrote sid' (responseFrame pb r' r'.eid))::e)) sid i i' ask (r.setArgs ask.args) m c'
      false (by rw [hlog, hb, hd']; simp) hsince hown hsettled (fun sid'' ev hev => ?_)
    · simp at hpassed
    · by_cases hsame : Server.Entry.dispatched sid'' ev = .dispatched sid' login
      · obtain ⟨-,rfl⟩ := Server.Entry.dispatched.inj hsame
        exact fun hx => code_not_login hx hlogin
      · apply hnone sid'' ev
        rw [hb, hd']
        simp only [List.mem_append, List.mem_cons, Sum.inl.injEq, hsame, reduceCtorEq,
          false_or] at hev ⊢
        tauto
  | unconnected => exact Or.inr rfl
  | found => exact Or.inl rfl
  | failed => exact Or.inr rfl
  | added => exact Or.inl rfl

theorem login_accepted_sample : ∃ lr,
    ReadsAs proto2 (responseFrame proto2 (loginRspEv 200) 4) (.loginResponse lr) ∧
      (lr.code = EErrorCode.success.code ∨ lr.code = EErrorCode.processFailed.code) := by
  obtain ⟨s,hr,hlog,-⟩ := sample_run
  exact login_accepted proto2 proto2_lawful 0 4 65535 [] sampleService s hr [.inl (.accepted 0 8)]
    ((sampleLog.drop 2).take 2) [] ((sampleLog.drop 6).take 4) [] 0 0 sampleCode sampleLogin [49]
    _ _ ⟨200, 7, some (getReasonByErrorCode 200)⟩ (by rw [hlog]; rfl) ⟨rfl,rfl⟩
    (by simp [sampleLog])
    (@reads_as proto2 (mobileCodeRspEv 200 7) _ _ (Or.inl rfl)
      (WireAgreement.mobile_response_read proto2_lawful 200 7))
    ⟨rfl,rfl⟩ (by simp [sampleLog])
    (fun a sid ask b h => by simp [List.singleton_eq_append_iff] at h)
    (by simp [sampleLog])

/-- Each row that was not there at the start has its insert in the log. -/
theorem rows_inserted {table : UserService.UserInfo} {as : List UserEventHandler.Action}
    {s : UserEventHandler.State}
    (hr : UserEventHandler.machine.Run Machine.Free (UserEventHandler.State.start table) as s) :
    ∀ m ∈ s.table, m ∈ table ∨ ∃ i, .inserted i m true ∈ s.log := by
  refine hr.invariant (I := fun s => ∀ m ∈ s.table, m ∈ table ∨ ∃ i, .inserted i m true ∈ s.log)
    (fun m hm => Or.inl hm) ?_
  intro t a u hi _ hn m hm
  have hold : ∀ {v : UserEventHandler.State} {es : List UserEventHandler.Entry},
      m ∈ t.table → v.log = t.log++es → m ∈ table ∨ ∃ i, .inserted i m true ∈ v.log := by
    intro v es hmt hv
    rcases hi m hmt with hmt | ⟨i,hi⟩
    · exact Or.inl hmt
    · exact Or.inr ⟨i,by rw [hv]; exact List.mem_append.mpr (Or.inl hi)⟩
  rcases UserEventHandler.next_cases hn with ⟨ev,p,-,-,rfl⟩ | ⟨i,env,ev,p,q,v,-,-,hmv,rfl⟩
  · exact hi m hm
  · obtain ⟨es,hes,-⟩ := UserEventHandler.moves_log hmv
    cases hmv with
    | @added m' c table' done =>
      obtain ⟨hb,rfl⟩ := UserService.insert_cases done
      have hm : m ∈ if env.insert = true then t.table++[m'] else t.table := hm
      rw [if_pos hb.symm] at hm
      rcases List.mem_append.mp hm with hm | hm
      · exact hold hm hes
      · obtain rfl := List.mem_singleton.mp hm
        exact Or.inr ⟨i,List.mem_append.mpr (Or.inr (List.mem_singleton_self _))⟩
    | @failed m' c table' undone =>
      obtain ⟨hb,rfl⟩ := UserService.insert_cases undone
      have hm : m ∈ if env.insert = true then t.table++[m'] else t.table := hm
      rw [← hb] at hm
      exact hold hm hes
    | _ => exact hold hm hes

theorem own_split (pre post : List Event) (e : UserEventHandler.Entry) :
    own e.call (rights (pre++.inr e::post)) =
      own e.call (rights pre)++e::own e.call (rights post) := by
  have hcons : own e.call (e::rights post) = e::own e.call (rights post) :=
    List.filter_cons_of_pos (by simp)
  rw [rights_append, own_append, ← hcons]
  rfl

/-- Only a login whose verification passed inserts, and only its own mobile. -/
theorem follows_inserted {i : ℕ} {ev : IEvent} {log : List UserEventHandler.Entry}
    {p : UserEventHandler.Point} (h : Follows i ev log p) {m : LittleEndian.Bytes}
    (he : .inserted i m true ∈ log) : ∃ c, LoginAttempt ev m c ∧
      log = [.verified i m c true, .selected i m false, .inserted i m true] := by
  cases p with
  | returned rsp =>
    cases h with
    | code m' c' _ _ hlog => rw [hlog] at he; simp at he
    | ignored _ _ hlog => rw [hlog] at he; simp at he
    | login m' c' code hreq _ hpath =>
      cases hpath with
      | added =>
        obtain rfl : m = m' := by simpa using he
        exact ⟨c',hreq,rfl⟩
      | _ => simp at he
  | verifyUnlock m' c' r => rw [h.2.1] at he; simp at he
  | _ => rw [h.2] at he; simp at he

/-- Every user that the server did not start with was added by the call for a login
on the wire, with the code that was then the last one issued for the user's mobile. -/
theorem users_registered (pb : Protobuf) (hd : Handler) (threads : ℕ) (maxQueue : ℤ)
    (table : UserService.UserInfo) (as : List Action) (s : State)
    (hr : (machine pb).Run Reuses (State.start hd threads maxQueue table) as s)
    (m : LittleEndian.Bytes) (hm : m ∈ s.users.table) :
    m ∈ table ∨ ∃ before sid login between i c after post,
      s.log = (before++.inl (.dispatched sid login)::(between++.inr (.verified i m c true)::
        after))++.inr (.inserted i m true)::post ∧ s.served[i]? = some ⟨login, sid⟩ ∧
      LoginAttempt login m c ∧
      Issued s.served m c (before++.inl (.dispatched sid login)::between) := by
  have h := run_chronicled hr
  obtain ⟨-,cs,hcs⟩ := platform_refines hr
  rcases rows_inserted hcs m hm with hold | ⟨i,hi⟩
  · exact Or.inl hold
  rw [← h.handler] at hi
  obtain ⟨pre,post,hlog⟩ := List.append_of_mem (mem_rights.mp hi)
  obtain ⟨t,before,after,rfl,hsince⟩ := entry_since h hlog
  obtain ⟨p,hfollows,hown⟩ := entry_path h (mem_rights.mp hi) (hsince.fresh i rfl).1
  obtain ⟨c,hlogin,hpath⟩ := follows_inserted hfollows hown
  have hparts : own i (rights (before++.inl (.dispatched t.sid t.ev)::after))++
      .inserted i m true::own i (rights post) =
        [.verified i m c true, .selected i m false, .inserted i m true] := by
    rw [← h.handler, hlog, own_split] at hpath
    exact hpath
  have hverified : .verified i m c true ∈
      own i (rights (before++.inl (.dispatched t.sid t.ev)::after)) := by
    generalize own i (rights (before++.inl (.dispatched t.sid t.ev)::after)) = l at hparts
    cases l with
    | nil => simp at hparts
    | cons e l => simp [(List.cons.inj hparts).1]
  obtain ⟨x,y,hsplit⟩ := List.append_of_mem (mem_rights.mp (mem_own.mp hverified).1)
  rcases entries_compare hsplit with ⟨-,hx,-⟩ | ⟨between,rfl,rfl⟩ | ⟨z,rfl,-⟩
  · simp at hx
  · refine Or.inr ⟨before,t.sid,t.ev,between,i,c,y,post,hlog,(hsince.fresh i rfl).1,hlogin,?_⟩
    refine @verified_issued _ _ _ h _ (y++.inr (.inserted i m true)::post) i m c ?_
    rw [hlog]
    simp
  · exact absurd rfl ((hsince.fresh i rfl).2 (.verified i m c true) (by simp))

theorem users_registered_login : ∃ s before sid login between i c after post,
    (machine proto2).Run Reuses (State.start 0 4 65535 []) sampleService s ∧
    sampleLog = (before++.inl (.dispatched sid login)::(between++.inr (.verified i [49] c true)::
      after))++.inr (.inserted i [49] true)::post ∧ s.served[i]? = some ⟨login, sid⟩ ∧
    LoginAttempt login [49] c ∧
    Issued s.served [49] c (before++.inl (.dispatched sid login)::between) := by
  obtain ⟨s,hr,hlog,htable⟩ := sample_run
  have h := users_registered proto2 0 4 65535 [] sampleService s hr [49] (by rw [htable]; simp)
  rw [hlog] at h
  obtain ⟨before,sid,login,between,i,c,after,post,h⟩ := h.resolve_left (by simp)
  exact ⟨s,before,sid,login,between,i,c,after,post,hr,h⟩

end SharedBike.EndToEnd
