import SharedBike.CallHistory

/-!
# Logins one after another

A call of the handler that nothing interrupts goes from its entry to its answer.
The ledger takes such calls whole, one after another, and keeps of each the
codes and the table it found, the steps that failed in it, its answer and the
table it left.
-/

set_option autoImplicit false

namespace SharedBike.SequentialLogins
open LittleEndian GuardedRuns
open SharedBike.Globals SharedBike.Events SharedBike.UserService
open SharedBike.UserEventHandler SharedBike.CallHistory

inductive Request where
  | mobileCode (mobile : Bytes)
  | login (mobile : Bytes) (icode : Int32)
  deriving DecidableEq, Repr

def Request.ev : Request → IEvent
  | .mobileCode mobile => mobileCodeReqEv mobile
  | .login mobile icode => loginReqEv mobile icode

/-- What a call leaves behind: its answer, the codes and the table. -/
structure Outcome where
  rsp : IEvent
  m2c : CodeMap
  table : UserInfo

def handleMobileCodeReq (m2c : CodeMap) (table : UserInfo) (env : Environment)
    (mobile : Bytes) : Outcome :=
  ⟨mobileCodeRspEv EErrorCode.success.code env.icode,
    Function.update m2c mobile (some env.icode), table⟩

def handleLoginReq (m2c : CodeMap) (table : UserInfo) (env : Environment) (mobile : Bytes)
    (icode : Int32) : Except Fault Outcome :=
  match verify m2c mobile icode with
  | some loginEv => .ok ⟨loginEv, m2c, table⟩
  | none =>
    if env.init then
      match exist table env.select mobile with
      | .error f => .error f
      | .ok true => .ok ⟨loginRspEv EErrorCode.success.code, m2c, table⟩
      | .ok false => match insert table env.insert mobile with
        | .error f => .error f
        | .ok (true, table) => .ok ⟨loginRspEv EErrorCode.success.code, m2c, table⟩
        | .ok (false, table) => .ok ⟨loginRspEv EErrorCode.processFailed.code, m2c, table⟩
    else .ok ⟨loginRspEv EErrorCode.processFailed.code, m2c, table⟩

/-- One request with the result of each outside step that it may take. -/
structure Action where
  request : Request
  env : Environment
  deriving DecidableEq, Repr

structure Done where
  call : Action
  m2c : CodeMap
  before : UserInfo
  rsp : IEvent
  after : UserInfo

structure Ledger where
  m2c : CodeMap
  table : UserInfo
  done : List Done

def Ledger.start (table : UserInfo) : Ledger := ⟨fun _ => none, table, []⟩

def respond (s : Ledger) (a : Action) : Except Fault Outcome :=
  match a.request with
  | .mobileCode mobile => .ok (handleMobileCodeReq s.m2c s.table a.env mobile)
  | .login mobile icode => handleLoginReq s.m2c s.table a.env mobile icode

def step (s : Ledger) (a : Action) : Option (Except Fault Ledger) :=
  some (match respond s a with
    | .error f => .error f
    | .ok out =>
      .ok ⟨out.m2c, out.table, s.done++[⟨a, s.m2c, s.table, out.rsp, out.table⟩]⟩)

def machine : Machine Ledger Action Fault := ⟨step⟩

/-- The ways through a login: its result code, the table it leaves, and what
decided between them. -/
inductive LoginCase (m2c : CodeMap) (table : UserInfo) (env : Environment) (m : Bytes)
    (c : Int32) : EErrorCode → UserInfo → Prop
  | rejected (unverified : verify m2c m c ≠ none) : LoginCase m2c table env m c .invalidData table
  | unconnected (down : env.init = false) : LoginCase m2c table env m c .processFailed table
  | found (rows : env.select = .rows) (present : table.count m ≠ 0) :
      LoginCase m2c table env m c .success table
  | added (unseen : env.select = .rows → table.count m = 0) (done : env.insert = true)
      (verified : verify m2c m c = none) (up : env.init = true) :
      LoginCase m2c table env m c .success (table++[m])
  | failed (undone : env.insert = false) : LoginCase m2c table env m c .processFailed table

/-- A failed query counts as no row. -/
theorem exist_cases {table : UserInfo} {answer : Answer} {m : Bytes} {b : Bool}
    (h : exist table answer m = .ok b) : b = true ↔ answer = .rows ∧ table.count m ≠ 0 := by
  cases answer with
  | rows => simpa using exist_rows h
  | _ =>
    unfold exist at h
    split at h
    · simp at h
    · obtain rfl := Except.ok.inj h
      simp

theorem login_cases {m2c : CodeMap} {table : UserInfo} {env : Environment} {m : Bytes}
    {c : Int32} {out : Outcome} (h : handleLoginReq m2c table env m c = .ok out) :
    out.m2c = m2c ∧ ∃ e : EErrorCode, out.rsp = loginRspEv e.code ∧
      LoginCase m2c table env m c e out.table := by
  unfold handleLoginReq at h
  split at h
  · rename_i rsp hv
    obtain rfl := Except.ok.inj h
    exact ⟨rfl,.invalidData,verify_some hv,.rejected (by simp [hv])⟩
  · rename_i hv
    split at h
    · rename_i hup
      split at h
      · simp at h
      · rename_i hrows
        obtain rfl := Except.ok.inj h
        obtain ⟨hr,hp⟩ := (exist_cases hrows).mp rfl
        exact ⟨rfl,.success,rfl,.found hr hp⟩
      · rename_i hrows
        have hunseen : env.select = .rows → table.count m = 0 := fun hr => by
          by_contra hp
          simpa using (exist_cases hrows).mpr ⟨hr,hp⟩
        split at h
        · simp at h
        · rename_i hins
          obtain ⟨hdone,rfl⟩ := insert_cases hins
          obtain rfl := Except.ok.inj h
          refine ⟨rfl,.success,rfl,?_⟩
          rw [if_pos hdone.symm]
          exact .added hunseen hdone.symm hv hup
        · rename_i hins
          obtain ⟨hdone,rfl⟩ := insert_cases hins
          obtain rfl := Except.ok.inj h
          refine ⟨rfl,.processFailed,rfl,?_⟩
          rw [if_neg (by simp [← hdone])]
          exact .failed hdone.symm
    · rename_i hdown
      obtain rfl := Except.ok.inj h
      exact ⟨rfl,.processFailed,rfl,.unconnected (by simpa using hdown)⟩

theorem next_cases {s s' : Ledger} {a : Action} (hn : machine.Next s a s') :
    ∃ out, respond s a = .ok out ∧
      s' = ⟨out.m2c, out.table, s.done++[⟨a, s.m2c, s.table, out.rsp, out.table⟩]⟩ := by
  simp only [Machine.Next, machine, step] at hn
  split at hn
  · simp at hn
  · rename_i out hout
    exact ⟨out,hout,(Except.ok.inj (Option.some.inj hn)).symm⟩

section Alone
variable {s : State} {ev : IEvent} {env : Environment}

/-- From `s`, a new call on `ev` comes to stand at `p` without another call moving. -/
structure Reaches (s : State) (ev : IEvent) (env : Environment) (p : Point) (t : State) : Prop where
  run : ∃ as, UserEventHandler.machine.Run Machine.Free s (.call ev::as) t ∧
    ∀ a ∈ as, a = .advance s.calls.length env
  calls : t.calls = s.calls++[⟨ev, p⟩]

theorem reaches_entry {p : Point} (hp : handle ev = .ok p) :
    Reaches s ev env p { s with calls := s.calls++[⟨ev, p⟩] } := by
  refine ⟨⟨[],.single trivial ?_,by simp⟩,rfl⟩
  simp only [Machine.Next, UserEventHandler.machine, UserEventHandler.step, hp]

/-- The call that runs alone moves on. -/
theorem Reaches.move {p q : Point} {t u : State} (h : Reaches s ev env p t)
    (hm : Moves t s.calls.length env p q u) :
    Reaches s ev env q (u.goto s.calls.length ev q) := by
  obtain ⟨as,hrun,has⟩ := h.run
  have hcall : t.calls[s.calls.length]? = some ⟨ev, p⟩ := by rw [h.calls]; simp
  have hn : UserEventHandler.machine.Next t (.advance s.calls.length env)
      (u.goto s.calls.length ev q) := by
    simp only [Machine.Next, UserEventHandler.machine, UserEventHandler.step, hcall]
    exact moves_advance hm ev
  constructor
  · refine ⟨as++[.advance s.calls.length env],?_,fun a ha => ?_⟩
    · rw [← List.cons_append]
      exact hrun.snoc trivial hn
    · rcases List.mem_append.mp ha with ha | ha
      · exact has a ha
      · exact List.mem_singleton.mp ha
  · rw [State.goto, moves_calls hm, h.calls]
    simp

/-- A code request that runs alone stores its code and answers with it. -/
theorem mobile_code_alone {m : Bytes} (hreq : CodeRequest ev m) (hfree : s.pm = none) :
    ∃ t, Reaches s ev env (.returned (some (handleMobileCodeReq s.m2c s.table env m).rsp)) t ∧
      t.m2c = (handleMobileCodeReq s.m2c s.table env m).m2c ∧
      t.table = (handleMobileCodeReq s.m2c s.table env m).table ∧ t.pm = none := by
  have hentry : handle ev = .ok (.codeGen m) := by simp [handle, hreq.1, hreq.2]
  have h1 := (@reaches_entry s ev env _ hentry).move .generate
  have h2 := h1.move (.lockStore hfree)
  have h3 := h2.move .store
  exact ⟨_,h3.move .unlockStore,rfl,rfl,rfl⟩

/-- A login that runs alone does what `handleLoginReq` computes. -/
theorem login_alone {m : Bytes} {c : Int32} {out : Outcome} (hreq : LoginAttempt ev m c)
    (hfree : s.pm = none) (h : handleLoginReq s.m2c s.table env m c = .ok out) :
    ∃ t, Reaches s ev env (.returned (some out.rsp)) t ∧ t.m2c = out.m2c ∧
      t.table = out.table ∧ t.pm = none := by
  have hentry : handle ev = .ok (.verifyLock m c) := by
    simp [handle, hreq.1, hreq.2, EventId.code]
  have h1 := (@reaches_entry s ev env _ hentry).move (.lockVerify hfree)
  have h2 : Reaches s ev env (.verifyUnlock m c (verify s.m2c m c)) _ := h1.move .verify
  unfold handleLoginReq at h
  split at h
  · rename_i rsp hv
    obtain rfl := Except.ok.inj h
    rw [hv] at h2
    exact ⟨_,h2.move .reject,rfl,rfl,rfl⟩
  · rename_i hv
    rw [hv] at h2
    have h3 := h2.move .verified
    split at h
    · rename_i hup
      have h4 := h3.move (.connected hup)
      split at h
      · simp at h
      · rename_i hrows
        obtain rfl := Except.ok.inj h
        exact ⟨_,h4.move (.found hrows),rfl,rfl,rfl⟩
      · rename_i hrows
        have h5 := h4.move (.missing hrows)
        split at h
        · simp at h
        · rename_i hins
          obtain rfl := Except.ok.inj h
          exact ⟨_,h5.move (.added hins),rfl,rfl,rfl⟩
        · rename_i hins
          obtain rfl := Except.ok.inj h
          exact ⟨_,h5.move (.failed hins),rfl,rfl,rfl⟩
    · rename_i hdown
      obtain rfl := Except.ok.inj h
      exact ⟨_,h3.move (.refused (by simpa using hdown)),rfl,rfl,rfl⟩

end Alone

/-- The call of the handler that a finished request was. -/
def Done.returned (d : Done) : Call := ⟨d.call.request.ev, .returned (some d.rsp)⟩

/-- A state of the handler in which no call is under way, and its ledger. -/
structure Settled (s : Ledger) (t : State) : Prop where
  m2c : t.m2c = s.m2c
  table : t.table = s.table
  pm : t.pm = none
  calls : t.calls = s.done.map Done.returned

theorem respond_alone {s : Ledger} {t : State} {a : Action} {out : Outcome}
    (hs : Settled s t) (h : respond s a = .ok out) :
    ∃ u, Reaches t a.request.ev a.env (.returned (some out.rsp)) u ∧ u.m2c = out.m2c ∧
      u.table = out.table ∧ u.pm = none := by
  rw [respond, ← hs.m2c, ← hs.table] at h
  cases hreq : a.request with
  | mobileCode m =>
    rw [hreq] at h
    obtain rfl := Except.ok.inj h
    exact mobile_code_alone ⟨rfl,rfl⟩ hs.pm
  | login m c =>
    rw [hreq] at h
    exact login_alone ⟨rfl,rfl⟩ hs.pm h

theorem settled_next {s s' : Ledger} {t : State} {a : Action} (hs : Settled s t)
    (hn : machine.Next s a s') : ∃ bs u,
      UserEventHandler.machine.Run Machine.Free t bs u ∧ Settled s' u := by
  obtain ⟨out,hout,rfl⟩ := next_cases hn
  obtain ⟨u,hu,hm,ht,hpm⟩ := respond_alone hs hout
  obtain ⟨bs,hrun,-⟩ := hu.run
  refine ⟨_,u,hrun,hm,ht,hpm,?_⟩
  rw [hu.calls, hs.calls, List.map_append]
  rfl

/-- Every run of the ledger is a run of the handler's machine in which each
call returns before the next begins. -/
theorem ledger_refines {G : Ledger → Action → Prop} {table : UserInfo} {as : List Action}
    {s : Ledger} (hr : machine.Run G (Ledger.start table) as s) : ∃ bs t,
      UserEventHandler.machine.Run Machine.Free (State.start table) bs t ∧ Settled s t := by
  induction hr with
  | nil => exact ⟨[],_,.nil,rfl,rfl,rfl,rfl⟩
  | snoc _ _ hn ih =>
    obtain ⟨bs,t,hrun,ht⟩ := ih
    obtain ⟨cs,u,hu,hset⟩ := settled_next ht hn
    exact ⟨bs++cs,u,hrun.append hu,hset⟩

end SharedBike.SequentialLogins
