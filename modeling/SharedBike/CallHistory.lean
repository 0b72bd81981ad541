import SharedBike.UserEventHandler

/-!
# The history of each call

Read on its own, every call of the handler goes through one of a few sequences
of critical sections and statements, which its program point and its result
determine. The mutex is held exactly inside the two critical sections.
-/

set_option autoImplicit false

namespace SharedBike.CallHistory
open LittleEndian GuardedRuns
open SharedBike.Globals SharedBike.BikeProtocol SharedBike.Events SharedBike.UserEventHandler

def CodeRequest (ev : IEvent) (m : Bytes) : Prop :=
  ev.eid = EventId.getMobileCodeReq.code ∧ ev.msg = .mobileRequest ⟨m⟩

def LoginAttempt (ev : IEvent) (m : Bytes) (c : Int32) : Prop :=
  ev.eid = EventId.loginReq.code ∧ ev.msg = .loginRequest ⟨m, c⟩

def own (i : ℕ) (log : List Entry) : List Entry := log.filter (fun e => e.call = i)

/-- The complete histories of a login call with their result codes. -/
inductive LoginPath (i : ℕ) (m : Bytes) (c : Int32) : List Entry → EErrorCode → Prop
  | rejected : LoginPath i m c [.verified i m c false] .invalidData
  | unconnected : LoginPath i m c [.verified i m c true] .processFailed
  | found : LoginPath i m c [.verified i m c true, .selected i m true] .success
  | failed : LoginPath i m c
      [.verified i m c true, .selected i m false, .inserted i m false] .processFailed
  | added : LoginPath i m c
      [.verified i m c true, .selected i m false, .inserted i m true] .success

inductive Completed (i : ℕ) (ev : IEvent) (rsp : Option IEvent) (log : List Entry) : Prop
  | code (m : Bytes) (c : Int32) (request : CodeRequest ev m)
      (result : rsp = some (mobileCodeRspEv EErrorCode.success.code c))
      (history : log = [.stored i m c])
  | login (m : Bytes) (c : Int32) (e : EErrorCode) (request : LoginAttempt ev m c)
      (result : rsp = some (loginRspEv e.code)) (history : LoginPath i m c log e)
  | ignored (request : ev.eid ≠ EventId.getMobileCodeReq.code ∧ ev.eid ≠ EventId.loginReq.code)
      (result : rsp = none) (history : log = [])

/-- What call `i` has done when it stands at the given point. -/
def Follows (i : ℕ) (ev : IEvent) (log : List Entry) : Point → Prop
  | .codeGen m => CodeRequest ev m ∧ log = []
  | .storeLock m _ => CodeRequest ev m ∧ log = []
  | .store m _ => CodeRequest ev m ∧ log = []
  | .storeUnlock m c => CodeRequest ev m ∧ log = [.stored i m c]
  | .verifyLock m c => LoginAttempt ev m c ∧ log = []
  | .verify m c => LoginAttempt ev m c ∧ log = []
  | .verifyUnlock m c loginEv => LoginAttempt ev m c ∧ log = [.verified i m c loginEv.isNone] ∧
      ∀ rsp, loginEv = some rsp → rsp = loginRspEv EErrorCode.invalidData.code
  | .init m c => LoginAttempt ev m c ∧ log = [.verified i m c true]
  | .exist m c => LoginAttempt ev m c ∧ log = [.verified i m c true]
  | .insert m c => LoginAttempt ev m c ∧ log = [.verified i m c true, .selected i m false]
  | .returned rsp => Completed i ev rsp log

/-- The program points between lock and unlock. -/
def Holding : Point → Prop
  | .store _ _ => True
  | .storeUnlock _ _ => True
  | .verify _ _ => True
  | .verifyUnlock _ _ _ => True
  | _ => False

structure Orderly (s : State) : Prop where
  known : ∀ e ∈ s.log, e.call < s.calls.length
  path : ∀ i ev p, s.calls[i]? = some ⟨ev, p⟩ → Follows i ev (own i s.log) p
  lock : ∀ i, s.pm = some i ↔ ∃ ev p, s.calls[i]? = some ⟨ev, p⟩ ∧ Holding p

theorem own_append (i : ℕ) (log es : List Entry) : own i (log++es) = own i log++own i es :=
  List.filter_append _ _

theorem own_snoc {i : ℕ} (log : List Entry) {e : Entry} (h : e.call = i) :
    own i (log++[e]) = own i log++[e] := by
  rw [own_append]
  simp [own, h]

theorem own_none {i : ℕ} {es : List Entry} (h : ∀ e ∈ es, e.call ≠ i) : own i es = [] := by
  simpa [own, List.filter_eq_nil_iff] using h

theorem mem_own {i : ℕ} {e : Entry} {log : List Entry} :
    e ∈ own i log ↔ e ∈ log ∧ e.call = i := by
  simp [own]

theorem verify_some {m2c : CodeMap} {m : Bytes} {c : Int32} {rsp : IEvent}
    (h : verify m2c m c = some rsp) : rsp = loginRspEv EErrorCode.invalidData.code := by
  unfold verify at h
  split at h
  · split at h
    · exact (Option.some.inj h).symm
    · simp at h
  · exact (Option.some.inj h).symm

theorem handle_follows {i : ℕ} {ev : IEvent} {p : Point} (h : handle ev = .ok p) :
    Follows i ev [] p ∧ ¬ Holding p := by
  unfold handle at h
  split_ifs at h with h1 h2
  · split at h
    · rename_i mr hmsg
      obtain rfl := Except.ok.inj h
      exact ⟨⟨⟨h1,hmsg⟩,rfl⟩,id⟩
    · simp at h
  · split at h
    · rename_i lr hmsg
      obtain rfl := Except.ok.inj h
      exact ⟨⟨⟨h2,hmsg⟩,rfl⟩,id⟩
    · simp at h
  · obtain rfl := Except.ok.inj h
    exact ⟨.ignored ⟨h1,h2⟩ rfl rfl,id⟩

/-- A move extends the history of its call as the program points prescribe. -/
theorem moves_follows {s u : State} {i : ℕ} {ev : IEvent} {env : Environment} {p q : Point}
    (hm : Moves s i env p q u) (h : Follows i ev (own i s.log) p) :
    Follows i ev (own i u.log) q := by
  have hadd := fun e => @own_snoc i s.log e
  cases hm with
  | generate => exact h
  | lockStore free => exact h
  | store => exact ⟨h.1,by rw [hadd _ rfl, h.2]; rfl⟩
  | unlockStore => exact .code _ _ h.1 rfl h.2
  | lockVerify free => exact h
  | verify =>
    refine ⟨h.1,?_,fun rsp hrsp => verify_some hrsp⟩
    rw [hadd _ rfl, h.2]
    rfl
  | reject =>
    obtain ⟨hl,hlog,hrsp⟩ := h
    refine .login _ _ .invalidData hl (by rw [hrsp _ rfl]) ?_
    rw [hlog]
    exact .rejected
  | verified => exact ⟨h.1,h.2.1⟩
  | connected up => exact h
  | refused down =>
    refine .login _ _ .processFailed h.1 rfl ?_
    rw [h.2]
    exact .unconnected
  | found rows =>
    refine .login _ _ .success h.1 rfl ?_
    rw [hadd _ rfl, h.2]
    exact .found
  | missing rows => exact ⟨h.1,by rw [hadd _ rfl, h.2]; rfl⟩
  | added done =>
    refine .login _ _ .success h.1 rfl ?_
    rw [hadd _ rfl, h.2]
    exact .added
  | failed undone =>
    refine .login _ _ .processFailed h.1 rfl ?_
    rw [hadd _ rfl, h.2]
    exact .failed

/-- A move takes the free mutex, keeps what it has, or releases it. -/
theorem moves_lock {s u : State} {i : ℕ} {env : Environment} {p q : Point}
    (hm : Moves s i env p q u) :
    (s.pm = none ∧ u.pm = some i ∧ ¬ Holding p ∧ Holding q) ∨
    (u.pm = s.pm ∧ (Holding p ↔ Holding q)) ∨
    (u.pm = none ∧ Holding p ∧ ¬ Holding q) := by
  cases hm with
  | lockStore free => exact Or.inl ⟨free,rfl,id,trivial⟩
  | lockVerify free => exact Or.inl ⟨free,rfl,id,trivial⟩
  | unlockStore => exact Or.inr (Or.inr ⟨rfl,trivial,id⟩)
  | reject => exact Or.inr (Or.inr ⟨rfl,trivial,id⟩)
  | verified => exact Or.inr (Or.inr ⟨rfl,trivial,id⟩)
  | _ => exact Or.inr (Or.inl ⟨rfl,Iff.rfl⟩)

theorem goto_calls {u : State} {i j : ℕ} {ev : IEvent} {q : Point} (hi : i < u.calls.length) :
    (u.goto i ev q).calls[j]? = if j = i then some ⟨ev, q⟩ else u.calls[j]? := by
  rw [State.goto, List.getElem?_set]
  by_cases hj : i = j
  · subst hj
    simp [hi]
  · rw [if_neg hj, if_neg (Ne.symm hj)]

/-- In a list with one more call every call is an old one or the new one. -/
theorem added_call {calls : List Call} {call call' : Call} {i : ℕ}
    (h : (calls++[call])[i]? = some call') :
    calls[i]? = some call' ∨ (i = calls.length ∧ call' = call) := by
  rcases Nat.lt_or_ge i calls.length with hi | hi
  · rw [List.getElem?_append_left hi] at h
    exact Or.inl h
  · rw [List.getElem?_append_right hi, List.getElem?_singleton] at h
    split at h
    · exact Or.inr ⟨by omega,(Option.some.inj h).symm⟩
    · simp at h

/-- A new call has no history and does not hold the mutex. -/
theorem call_orderly {s : State} {ev : IEvent} {p : Point} (h : Orderly s)
    (hp : handle ev = .ok p) : Orderly { s with calls := s.calls++[⟨ev, p⟩] } := by
  obtain ⟨hfollows,hfree⟩ := @handle_follows s.calls.length _ _ hp
  constructor
  · intro e he
    have := h.known e he
    simp only [List.length_append, List.length_singleton]
    omega
  · intro i ev' p' hi
    rcases added_call hi with hi | ⟨rfl,hnew⟩
    · exact h.path i ev' p' hi
    · obtain ⟨rfl,rfl⟩ := Call.mk.inj hnew
      have hown : own s.calls.length s.log = [] :=
        own_none fun e he => Nat.ne_of_lt (h.known e he)
      rw [hown]
      exact hfollows
  · intro i
    rw [show s.pm = some i ↔ _ from h.lock i]
    constructor
    · rintro ⟨ev',p',hi,hhold⟩
      have hlt := (List.getElem?_eq_some_iff.mp hi).1
      exact ⟨ev',p',(List.getElem?_append_left hlt).trans hi,hhold⟩
    · rintro ⟨ev',p',hi,hhold⟩
      rcases added_call hi with hi | ⟨-,hnew⟩
      · exact ⟨ev',p',hi,hhold⟩
      · obtain ⟨rfl,rfl⟩ := Call.mk.inj hnew
        exact absurd hhold hfree

/-- The point of a call says whether it holds the mutex. -/
theorem lock_self {s : State} (h : Orderly s) {i : ℕ} {ev : IEvent} {p : Point}
    (hcall : s.calls[i]? = some ⟨ev, p⟩) : s.pm = some i ↔ Holding p := by
  rw [h.lock i]
  constructor
  · rintro ⟨ev',p',hi,hhold⟩
    obtain ⟨rfl,rfl⟩ := Call.mk.inj (Option.some.inj (hcall.symm.trans hi))
    exact hhold
  · exact fun hhold => ⟨ev,p,hcall,hhold⟩

/-- After a move of call `i`, its new point says whether it holds the mutex; the
other calls hold it if they did before. -/
theorem moved_lock {s u : State} (h : Orderly s) {i : ℕ} {ev : IEvent} {env : Environment}
    {p q : Point} (hcall : s.calls[i]? = some ⟨ev, p⟩) (hm : Moves s i env p q u) (j : ℕ) :
    u.pm = some j ↔ if j = i then Holding q else s.pm = some j := by
  have hself := lock_self h hcall
  by_cases hji : j = i
  · subst hji
    rw [if_pos rfl]
    rcases moves_lock hm with ⟨-,hu,-,hq⟩ | ⟨hu,hpq⟩ | ⟨hu,-,hq⟩
    · simp [hu, hq]
    · rw [hu, hself, hpq]
    · simp [hu, hq]
  · rw [if_neg hji]
    rcases moves_lock hm with ⟨hfree,hu,-,-⟩ | ⟨hu,-⟩ | ⟨hu,hp,-⟩
    · simp [hfree, hu, Ne.symm hji]
    · rw [hu]
    · simp [hu, hself.mpr hp, Ne.symm hji]

theorem move_orderly {s u : State} (h : Orderly s) {i : ℕ} {ev : IEvent} {env : Environment}
    {p q : Point} (hcall : s.calls[i]? = some ⟨ev, p⟩) (hm : Moves s i env p q u) :
    Orderly (u.goto i ev q) := by
  have hlen : i < s.calls.length := (List.getElem?_eq_some_iff.mp hcall).1
  have hcalls := moves_calls hm
  have hgoto := fun j => @goto_calls u i j ev q (hcalls.symm ▸ hlen)
  obtain ⟨es,hes,hmine⟩ := moves_log hm
  constructor
  · intro e he
    have he : e ∈ u.log := he
    rw [hes] at he
    rw [State.goto, List.length_set, hcalls]
    rcases List.mem_append.mp he with he | he
    · exact h.known e he
    · rw [hmine e he]
      exact hlen
  · intro j ev' p' hj
    rw [hgoto] at hj
    show Follows j ev' (own j u.log) p'
    by_cases hji : j = i
    · subst hji
      rw [if_pos rfl] at hj
      obtain ⟨rfl,rfl⟩ := Call.mk.inj (Option.some.inj hj)
      exact moves_follows hm (h.path j ev p hcall)
    · have hother : own j es = [] := own_none fun e he => by rw [hmine e he]; exact Ne.symm hji
      rw [if_neg hji, hcalls] at hj
      rw [hes, own_append, hother, List.append_nil]
      exact h.path j ev' p' hj
  · intro j
    show u.pm = some j ↔ _
    rw [moved_lock h hcall hm j, hgoto]
    by_cases hji : j = i
    · rw [if_pos hji, if_pos hji]
      constructor
      · exact fun hhold => ⟨ev,q,rfl,hhold⟩
      · rintro ⟨ev',p',hx,hhold⟩
        obtain ⟨rfl,rfl⟩ := Call.mk.inj (Option.some.inj hx)
        exact hhold
    · rw [if_neg hji, if_neg hji, hcalls]
      exact h.lock j

theorem next_orderly {s s' : State} {act : Action} (h : Orderly s)
    (hn : machine.Next s act s') : Orderly s' := by
  rcases next_cases hn with ⟨ev,p,-,hp,rfl⟩ | ⟨i,env,ev,p,q,u,-,hcall,hm,rfl⟩
  · exact call_orderly h hp
  · exact move_orderly h hcall hm

theorem start_orderly (table : UserService.UserInfo) : Orderly (State.start table) :=
  ⟨by simp [State.start],by simp [State.start],by simp [State.start]⟩

theorem run_orderly {G : State → Action → Prop} {table : UserService.UserInfo}
    {as : List Action} {s : State} (hr : machine.Run G (State.start table) as s) : Orderly s :=
  hr.invariant (start_orderly table) (fun _ _ _ hi _ hn => next_orderly hi hn)

theorem success_code {e : EErrorCode}
    (h : some (loginRspEv EErrorCode.success.code) = some (loginRspEv e.code)) : .success = e := by
  simp only [loginRspEv, Option.some.injEq, IEvent.mk.injEq, EventMsg.loginResponse.injEq,
    LoginResponse.mk.injEq] at h
  exact error_code_injective h.2.1.1

/-- A login that was answered with success went through one of the two
histories that end in success. -/
theorem success_path {s : State} (h : Orderly s) {i : ℕ} {ev : IEvent} {m : Bytes} {c : Int32}
    (hl : LoginAttempt ev m c)
    (hi : s.calls[i]? = some ⟨ev, .returned (some (loginRspEv EErrorCode.success.code))⟩) :
    LoginPath i m c (own i s.log) .success := by
  cases h.path i ev _ hi with
  | code m' c' hreq => exact absurd (hreq.1.symm.trans hl.1) (by decide)
  | ignored hreq => exact absurd hl.1 hreq.2
  | login m' c' e hreq hrsp hpath =>
    have hmsg := hreq.2.symm.trans hl.2
    simp only [EventMsg.loginRequest.injEq, LoginRequest.mk.injEq] at hmsg
    obtain ⟨rfl,rfl⟩ := hmsg
    rw [success_code hrsp]
    exact hpath

/-- What `handle` may return for an event, in some run of the handler. -/
def Returns (ev : IEvent) (rsp : Option IEvent) : Prop :=
  ∃ (table : UserService.UserInfo) (as : List Action) (s : State) (i : ℕ),
    machine.Run Machine.Free (State.start table) as s ∧
    s.calls[i]? = some ⟨ev, .returned rsp⟩

theorem returns_completed {ev : IEvent} {rsp : Option IEvent} (h : Returns ev rsp) :
    ∃ i log, Completed i ev rsp log := by
  obtain ⟨table,as,s,i,hr,hi⟩ := h
  exact ⟨i,_,(run_orderly hr).path i ev _ hi⟩

end SharedBike.CallHistory
