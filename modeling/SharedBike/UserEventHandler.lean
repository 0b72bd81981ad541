import SharedBike.UserService
import SharedBike.Library.GuardedRuns

/-!
# The user event handler as a machine of calls

Pool workers call `handle` at any time; each call runs on its own and shares
the code map, the mutex `pm_` and the database with the others. A call stands
at one of the program points of its handler, and one action moves one call to
its next point. The log is a ghost: it lists the critical sections and the
statements in the order in which they took effect.
-/

set_option autoImplicit false

namespace SharedBike.UserEventHandler
open LittleEndian GuardedRuns
open SharedBike.Globals SharedBike.BikeProtocol SharedBike.Events SharedBike.UserService

/-- `m2c_` -/
abbrev CodeMap := Bytes → Option Int32

/-- Program points of `handle_mobile_code_req` and `handle_login_req`. -/
inductive Point where
  | codeGen (mobile : Bytes)
  | storeLock (mobile : Bytes) (icode : Int32)
  | store (mobile : Bytes) (icode : Int32)
  | storeUnlock (mobile : Bytes) (icode : Int32)
  | verifyLock (mobile : Bytes) (icode : Int32)
  | verify (mobile : Bytes) (icode : Int32)
  | verifyUnlock (mobile : Bytes) (icode : Int32) (loginEv : Option IEvent)
  | init (mobile : Bytes) (icode : Int32)
  | exist (mobile : Bytes) (icode : Int32)
  | insert (mobile : Bytes) (icode : Int32)
  | returned (rsp : Option IEvent)
  deriving DecidableEq, Repr

structure Call where
  ev : IEvent
  point : Point
  deriving DecidableEq, Repr

inductive Entry where
  | stored (i : ℕ) (mobile : Bytes) (icode : Int32)
  | verified (i : ℕ) (mobile : Bytes) (icode : Int32) (passed : Bool)
  | selected (i : ℕ) (mobile : Bytes) (found : Bool)
  | inserted (i : ℕ) (mobile : Bytes) (done : Bool)
  deriving DecidableEq, Repr

def Entry.call : Entry → ℕ
  | .stored i _ _ => i
  | .verified i _ _ _ => i
  | .selected i _ _ => i
  | .inserted i _ _ => i

/-- The two statements sent to the database. -/
def Entry.IsSql : Entry → Prop
  | .selected _ _ _ => True
  | .inserted _ _ _ => True
  | _ => False

structure State where
  m2c : CodeMap
  pm : Option ℕ
  calls : List Call
  table : UserInfo
  log : List Entry

def State.start (table : UserInfo) : State := ⟨fun _ => none, none, [], table, []⟩

/-- What a step finds outside the handler: the result of `code_gen`, and how
the database answers. -/
structure Environment where
  icode : Int32
  init : Bool
  select : Answer
  insert : Bool
  deriving DecidableEq, Repr

inductive Action where
  | call (ev : IEvent)
  | advance (i : ℕ) (env : Environment)

/-- The first point of the call; the event is cast by its identifier. -/
def handle (ev : IEvent) : Except Fault Point :=
  if ev.eid = EventId.getMobileCodeReq.code then
    match ev.msg with
    | .mobileRequest mr => .ok (.codeGen mr.mobile)
    | _ => .error .wildPointer
  else if ev.eid = EventId.loginReq.code then
    match ev.msg with
    | .loginRequest lr => .ok (.verifyLock lr.mobile lr.icode)
    | _ => .error .wildPointer
  else .ok (.returned none)

/-- The test inside the critical section of a login. -/
def verify (m2c : CodeMap) (mobile : Bytes) (icode : Int32) : Option IEvent :=
  match m2c mobile with
  | some stored => if icode ≠ stored then some (loginRspEv EErrorCode.invalidData.code) else none
  | none => some (loginRspEv EErrorCode.invalidData.code)

def State.goto (s : State) (i : ℕ) (ev : IEvent) (point : Point) : State :=
  { s with calls := s.calls.set i ⟨ev, point⟩ }

def advance (s : State) (i : ℕ) (ev : IEvent) (env : Environment) :
    Point → Option (Except Fault State)
  | .codeGen mobile => some (.ok (s.goto i ev (.storeLock mobile env.icode)))
  | .storeLock mobile icode =>
    if s.pm = none then some (.ok ({ s with pm := some i }.goto i ev (.store mobile icode)))
    else none
  | .store mobile icode => some (.ok ({ s with
      m2c := Function.update s.m2c mobile (some icode)
      log := s.log++[Entry.stored i mobile icode] }.goto i ev (.storeUnlock mobile icode)))
  | .storeUnlock _ icode => some (.ok ({ s with pm := none }.goto i ev
      (.returned (some (mobileCodeRspEv EErrorCode.success.code icode)))))
  | .verifyLock mobile icode =>
    if s.pm = none then some (.ok ({ s with pm := some i }.goto i ev (.verify mobile icode)))
    else none
  | .verify mobile icode => some (.ok ({ s with
      log := s.log++[Entry.verified i mobile icode (verify s.m2c mobile icode).isNone] }.goto i ev
        (.verifyUnlock mobile icode (verify s.m2c mobile icode))))
  | .verifyUnlock mobile icode loginEv => some (.ok (match loginEv with
      | some rsp => { s with pm := none }.goto i ev (.returned (some rsp))
      | none => { s with pm := none }.goto i ev (.init mobile icode)))
  | .init mobile icode => some (.ok (
      if env.init then s.goto i ev (.exist mobile icode)
      else s.goto i ev (.returned (some (loginRspEv EErrorCode.processFailed.code)))))
  | .exist mobile icode => some (match UserService.exist s.table env.select mobile with
      | .error f => .error f
      | .ok true => .ok ({ s with log := s.log++[Entry.selected i mobile true] }.goto i ev
          (.returned (some (loginRspEv EErrorCode.success.code))))
      | .ok false => .ok ({ s with log := s.log++[Entry.selected i mobile false] }.goto i ev
          (.insert mobile icode)))
  | .insert mobile _ => some (match UserService.insert s.table env.insert mobile with
      | .error f => .error f
      | .ok (true, table) => .ok ({ s with
          table := table
          log := s.log++[Entry.inserted i mobile true] }.goto i ev
            (.returned (some (loginRspEv EErrorCode.success.code))))
      | .ok (false, table) => .ok ({ s with
          table := table
          log := s.log++[Entry.inserted i mobile false] }.goto i ev
            (.returned (some (loginRspEv EErrorCode.processFailed.code)))))
  | .returned _ => none

def step (s : State) : Action → Option (Except Fault State)
  | .call ev => some (match handle ev with
      | .error f => .error f
      | .ok point => .ok { s with calls := s.calls++[⟨ev, point⟩] })
  | .advance i env => match s.calls[i]? with
    | some call => advance s i call.ev env call.point
    | none => none

def machine : Machine State Action Fault := ⟨step⟩

/-- One move of call `i` from point to point, with the shared state after it. -/
inductive Moves (s : State) (i : ℕ) (env : Environment) : Point → Point → State → Prop
  | generate {m : Bytes} : Moves s i env (.codeGen m) (.storeLock m env.icode) s
  | lockStore {m : Bytes} {c : Int32} (free : s.pm = none) :
      Moves s i env (.storeLock m c) (.store m c) { s with pm := some i }
  | store {m : Bytes} {c : Int32} : Moves s i env (.store m c) (.storeUnlock m c)
      { s with m2c := Function.update s.m2c m (some c), log := s.log++[.stored i m c] }
  | unlockStore {m : Bytes} {c : Int32} : Moves s i env (.storeUnlock m c)
      (.returned (some (mobileCodeRspEv EErrorCode.success.code c))) { s with pm := none }
  | lockVerify {m : Bytes} {c : Int32} (free : s.pm = none) :
      Moves s i env (.verifyLock m c) (.verify m c) { s with pm := some i }
  | verify {m : Bytes} {c : Int32} :
      Moves s i env (.verify m c) (.verifyUnlock m c (verify s.m2c m c))
        { s with log := s.log++[.verified i m c (verify s.m2c m c).isNone] }
  | reject {m : Bytes} {c : Int32} {rsp : IEvent} :
      Moves s i env (.verifyUnlock m c (some rsp)) (.returned (some rsp)) { s with pm := none }
  | verified {m : Bytes} {c : Int32} :
      Moves s i env (.verifyUnlock m c none) (.init m c) { s with pm := none }
  | connected {m : Bytes} {c : Int32} (up : env.init = true) :
      Moves s i env (.init m c) (.exist m c) s
  | refused {m : Bytes} {c : Int32} (down : env.init = false) : Moves s i env (.init m c)
      (.returned (some (loginRspEv EErrorCode.processFailed.code))) s
  | found {m : Bytes} {c : Int32} (rows : UserService.exist s.table env.select m = .ok true) :
      Moves s i env (.exist m c) (.returned (some (loginRspEv EErrorCode.success.code)))
        { s with log := s.log++[.selected i m true] }
  | missing {m : Bytes} {c : Int32} (rows : UserService.exist s.table env.select m = .ok false) :
      Moves s i env (.exist m c) (.insert m c) { s with log := s.log++[.selected i m false] }
  | added {m : Bytes} {c : Int32} {table : UserInfo}
      (done : UserService.insert s.table env.insert m = .ok (true, table)) :
      Moves s i env (.insert m c) (.returned (some (loginRspEv EErrorCode.success.code)))
        { s with table := table, log := s.log++[.inserted i m true] }
  | failed {m : Bytes} {c : Int32} {table : UserInfo}
      (undone : UserService.insert s.table env.insert m = .ok (false, table)) :
      Moves s i env (.insert m c) (.returned (some (loginRspEv EErrorCode.processFailed.code)))
        { s with table := table, log := s.log++[.inserted i m false] }

theorem advance_moves {s s' : State} {i : ℕ} {ev : IEvent} {env : Environment} {p : Point}
    (h : advance s i ev env p = some (.ok s')) :
    ∃ q u, Moves s i env p q u ∧ s' = u.goto i ev q := by
  cases p with
  | codeGen m =>
    obtain rfl := Except.ok.inj (Option.some.inj h)
    exact ⟨_,_,.generate,rfl⟩
  | storeLock m c =>
    simp only [advance] at h
    split at h
    · rename_i hfree
      obtain rfl := Except.ok.inj (Option.some.inj h)
      exact ⟨_,_,.lockStore hfree,rfl⟩
    · simp at h
  | store m c =>
    obtain rfl := Except.ok.inj (Option.some.inj h)
    exact ⟨_,_,.store,rfl⟩
  | storeUnlock m c =>
    obtain rfl := Except.ok.inj (Option.some.inj h)
    exact ⟨_,_,.unlockStore,rfl⟩
  | verifyLock m c =>
    simp only [advance] at h
    split at h
    · rename_i hfree
      obtain rfl := Except.ok.inj (Option.some.inj h)
      exact ⟨_,_,.lockVerify hfree,rfl⟩
    · simp at h
  | verify m c =>
    obtain rfl := Except.ok.inj (Option.some.inj h)
    exact ⟨_,_,.verify,rfl⟩
  | verifyUnlock m c loginEv =>
    cases loginEv <;> obtain rfl := Except.ok.inj (Option.some.inj h)
    · exact ⟨_,_,.verified,rfl⟩
    · exact ⟨_,_,.reject,rfl⟩
  | init m c =>
    simp only [advance] at h
    split at h <;> rename_i hup <;> obtain rfl := Except.ok.inj (Option.some.inj h)
    · exact ⟨_,_,.connected hup,rfl⟩
    · exact ⟨_,_,.refused (by simpa using hup),rfl⟩
  | exist m c =>
    simp only [advance] at h
    split at h
    · simp at h
    · rename_i hrows
      obtain rfl := Except.ok.inj (Option.some.inj h)
      exact ⟨_,_,.found hrows,rfl⟩
    · rename_i hrows
      obtain rfl := Except.ok.inj (Option.some.inj h)
      exact ⟨_,_,.missing hrows,rfl⟩
  | insert m c =>
    simp only [advance] at h
    split at h
    · simp at h
    · rename_i hdone
      obtain rfl := Except.ok.inj (Option.some.inj h)
      exact ⟨_,_,.added hdone,rfl⟩
    · rename_i hdone
      obtain rfl := Except.ok.inj (Option.some.inj h)
      exact ⟨_,_,.failed hdone,rfl⟩
  | returned rsp => simp [advance] at h

theorem moves_advance {s u : State} {i : ℕ} {env : Environment} {p q : Point}
    (h : Moves s i env p q u) (ev : IEvent) :
    advance s i ev env p = some (.ok (u.goto i ev q)) := by
  cases h with
  | lockStore free => exact if_pos free
  | lockVerify free => exact if_pos free
  | connected up => simp [advance, up]
  | refused down => simp [advance, down]
  | found rows => simp [advance, rows]
  | missing rows => simp [advance, rows]
  | added done => simp [advance, done]
  | failed undone => simp [advance, undone]
  | _ => rfl

/-- A step starts a call or moves one call. -/
theorem next_cases {s s' : State} {act : Action} (hn : machine.Next s act s') :
    (∃ ev p, act = .call ev ∧ handle ev = .ok p ∧
      s' = { s with calls := s.calls++[⟨ev, p⟩] }) ∨
    ∃ i env ev p q u, act = .advance i env ∧ s.calls[i]? = some ⟨ev, p⟩ ∧
      Moves s i env p q u ∧ s' = u.goto i ev q := by
  cases act with
  | call ev =>
    simp only [Machine.Next, machine, step] at hn
    split at hn
    · simp at hn
    · rename_i p hp
      exact Or.inl ⟨ev,p,rfl,hp,(Except.ok.inj (Option.some.inj hn)).symm⟩
  | advance i env =>
    simp only [Machine.Next, machine, step] at hn
    split at hn
    · rename_i call hcall
      obtain ⟨q,u,hm,hs⟩ := advance_moves hn
      exact Or.inr ⟨i,env,call.ev,call.point,q,u,rfl,hcall,hm,hs⟩
    · simp at hn

theorem moves_calls {s u : State} {i : ℕ} {env : Environment} {p q : Point}
    (h : Moves s i env p q u) : u.calls = s.calls := by
  cases h <;> rfl

/-- A move adds entries of its own call only. -/
theorem moves_log {s u : State} {i : ℕ} {env : Environment} {p q : Point}
    (h : Moves s i env p q u) : ∃ es, u.log = s.log++es ∧ ∀ e ∈ es, e.call = i := by
  cases h <;> first
    | exact ⟨[],(List.append_nil _).symm,by simp⟩
    | exact ⟨[_],rfl,by simp [Entry.call]⟩

end SharedBike.UserEventHandler
