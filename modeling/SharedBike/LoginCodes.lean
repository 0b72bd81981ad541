import SharedBike.CallHistory

/-!
# Verification codes under any interleaving

The code map always holds, for each mobile, the last code that a critical
section stored for it. The order of the critical sections therefore decides
every login, whatever the order of everything outside them.
-/

set_option autoImplicit false

namespace SharedBike.LoginCodes
open LittleEndian GuardedRuns
open SharedBike.Globals SharedBike.BikeProtocol SharedBike.Events SharedBike.UserEventHandler
open SharedBike.CallHistory

/-- The codes stored for one mobile, in the order of the critical sections. -/
def codesFor (m : Bytes) (log : List Entry) : List Int32 :=
  log.filterMap fun e => match e with
    | .stored _ mobile icode => if mobile = m then some icode else none
    | _ => none

def Verdicts (log : List Entry) : Prop :=
  ∀ pre i m c passed post, log = pre++.verified i m c passed::post →
    (passed = true ↔ (codesFor m pre).getLast? = some c)

structure Coded (s : State) : Prop where
  codes : ∀ m, s.m2c m = (codesFor m s.log).getLast?
  verdicts : Verdicts s.log

theorem snoc_split {α : Type*} {l pre post : List α} {e x : α} (h : l++[e] = pre++x::post) :
    (pre = l ∧ x = e ∧ post = []) ∨ ∃ rest, post = rest++[e] ∧ l = pre++x::rest := by
  rcases List.eq_nil_or_concat post with rfl | ⟨rest,y,rfl⟩
  · obtain ⟨rfl,hx⟩ := List.append_inj' h rfl
    exact Or.inl ⟨rfl,(List.singleton_inj.mp hx).symm,rfl⟩
  · have h : l++[e] = (pre++x::rest)++[y] := by simpa using h
    obtain ⟨rfl,hy⟩ := List.append_inj' h rfl
    obtain rfl := List.singleton_inj.mp hy
    exact Or.inr ⟨rest,List.concat_eq_append,rfl⟩

theorem codes_append (m : Bytes) (log es : List Entry) :
    codesFor m (log++es) = codesFor m log++codesFor m es :=
  List.filterMap_append

theorem verdicts_snoc {log : List Entry} {e : Entry} (h : Verdicts log)
    (he : ∀ i m c passed, e = .verified i m c passed →
      (passed = true ↔ (codesFor m log).getLast? = some c)) : Verdicts (log++[e]) := by
  intro pre i m c passed post hlog
  rcases snoc_split hlog with ⟨rfl,hx,-⟩ | ⟨rest,-,hold⟩
  · exact he i m c passed hx.symm
  · exact h pre i m c passed rest hold

/-- The test of the critical section reads the last code stored for the mobile. -/
theorem verify_none {m2c : CodeMap} {m : Bytes} {c : Int32} :
    (verify m2c m c).isNone = true ↔ m2c m = some c := by
  unfold verify
  cases hm : m2c m with
  | none => simp
  | some stored =>
    by_cases hc : c = stored
    · simp [hc]
    · simp [hc, Ne.symm hc]

/-- A statement leaves the codes and the verdicts as they are. -/
theorem coded_sql {s u : State} (h : Coded s) {e : Entry} (he : e.IsSql) (hm : u.m2c = s.m2c)
    (hl : u.log = s.log++[e]) : Coded u := by
  constructor
  · intro m
    have hnone : codesFor m [e] = [] := by cases e <;> first | rfl | exact he.elim
    rw [hm, hl, codes_append, hnone, List.append_nil]
    exact h.codes m
  · rw [hl]
    apply verdicts_snoc h.verdicts
    intro i m c passed hx
    rw [hx] at he
    exact he.elim

theorem moves_coded {s u : State} {i : ℕ} {env : Environment} {p q : Point}
    (hm : Moves s i env p q u) (h : Coded s) : Coded u := by
  cases hm with
  | @store m c =>
    refine ⟨fun m' => ?_,verdicts_snoc h.verdicts (by simp)⟩
    show Function.update s.m2c m (some c) m' = _
    rw [codes_append]
    by_cases hmm : m' = m
    · subst hmm
      simp [codesFor]
    · rw [Function.update_of_ne hmm, h.codes m']
      simp [codesFor, Ne.symm hmm]
  | @verify m c =>
    refine ⟨fun m' => ?_,verdicts_snoc h.verdicts fun j m' c' passed he => ?_⟩
    · show s.m2c m' = _
      rw [codes_append, h.codes m']
      simp [codesFor]
    · obtain ⟨-,rfl,rfl,rfl⟩ := Entry.verified.inj he
      rw [verify_none, h.codes]
  | @found m c rows => exact @coded_sql s _ h (.selected i m true) trivial rfl rfl
  | @missing m c rows => exact @coded_sql s _ h (.selected i m false) trivial rfl rfl
  | @added m c table done => exact @coded_sql s _ h (.inserted i m true) trivial rfl rfl
  | @failed m c table undone => exact @coded_sql s _ h (.inserted i m false) trivial rfl rfl
  | _ => exact ⟨h.codes,h.verdicts⟩

theorem next_coded {s s' : State} {act : Action} (h : Coded s) (hn : machine.Next s act s') :
    Coded s' := by
  rcases next_cases hn with ⟨ev,p,-,-,rfl⟩ | ⟨i,env,ev,p,q,u,-,-,hm,rfl⟩
  · exact ⟨h.codes,h.verdicts⟩
  · obtain ⟨h1,h2⟩ := moves_coded hm h
    exact ⟨h1,h2⟩

theorem run_coded {G : State → Action → Prop} {table : UserService.UserInfo}
    {as : List Action} {s : State} (hr : machine.Run G (State.start table) as s) : Coded s := by
  refine hr.invariant ⟨fun _ => rfl,fun pre i m c passed post hl => ?_⟩
    (fun _ _ _ hi _ hn => next_coded hi hn)
  simp [State.start] at hl

/-- The two points at which a call releases the mutex. -/
def Releasing : Point → Prop
  | .storeUnlock _ _ => True
  | .verifyUnlock _ _ _ => True
  | _ => False

theorem advance_next {t t' : State} {i : ℕ} {ev : IEvent} {env : Environment} {q : Point}
    (hq : t.calls[i]? = some ⟨ev, q⟩) (h : advance t i ev env q = some (.ok t')) :
    machine.Next t (.advance i env) t' := by
  simp only [Machine.Next, machine, step, hq]
  exact h

theorem release_step {t : State} {i : ℕ} {ev : IEvent} {q : Point} (env : Environment)
    (hq : t.calls[i]? = some ⟨ev, q⟩) (hr : Releasing q) :
    ∃ t', machine.Next t (.advance i env) t' ∧ t'.pm = none := by
  cases q with
  | storeUnlock m c => exact ⟨_,advance_next hq rfl,rfl⟩
  | verifyUnlock m c r => cases r <;> exact ⟨_,advance_next hq rfl,rfl⟩
  | _ => exact hr.elim

/-- Inside a critical section the next point of a call is the release. -/
theorem holding_step {s : State} {i : ℕ} {ev : IEvent} {p : Point} (env : Environment)
    (hcall : s.calls[i]? = some ⟨ev, p⟩) (hp : Holding p) (hr : ¬ Releasing p) :
    ∃ t q, machine.Next s (.advance i env) t ∧ t.calls[i]? = some ⟨ev, q⟩ ∧ Releasing q := by
  have hlen := (List.getElem?_eq_some_iff.mp hcall).1
  have hset : ∀ (u : State) (q : Point), u.calls = s.calls →
      (u.goto i ev q).calls[i]? = some ⟨ev, q⟩ := by
    intro u q hu
    rw [goto_calls (hu ▸ hlen), if_pos rfl]
  cases p with
  | store m c => exact ⟨_,_,advance_next hcall rfl,hset _ _ rfl,trivial⟩
  | verify m c => exact ⟨_,_,advance_next hcall rfl,hset _ _ rfl,trivial⟩
  | storeUnlock m c => exact absurd trivial hr
  | verifyUnlock m c r => exact absurd trivial hr
  | _ => exact hp.elim

/-- From inside its critical section a call reaches the release of the mutex by
at most two moves of its own, whatever the others do. -/
theorem releases {s : State} (h : Orderly s) {i : ℕ} (hi : s.pm = some i) :
    ∃ as t, as.length ≤ 2 ∧ (∀ a ∈ as, ∃ env, a = .advance i env) ∧
      machine.Run Machine.Free s as t ∧ t.pm = none := by
  obtain ⟨ev,p,hcall,hp⟩ := (h.lock i).mp hi
  let env : Environment := ⟨0, true, .rows, true⟩
  by_cases hr : Releasing p
  · obtain ⟨t,hn,hfree⟩ := release_step env hcall hr
    exact ⟨[.advance i env],t,by simp,by simp,.single trivial hn,hfree⟩
  · obtain ⟨t,q,hn,hq,hrq⟩ := holding_step env hcall hp hr
    obtain ⟨t',hn',hfree⟩ := release_step env hq hrq
    exact ⟨[.advance i env, .advance i env],t',le_rfl,by simp,
      .cons trivial hn (.single trivial hn'),hfree⟩

/-- Verification is decided by the order of the critical sections alone. -/
structure Linearized (s : State) : Prop where
  /-- A login passes exactly if the last code stored for its mobile is its code. -/
  verdict : ∀ pre i m c passed post, s.log = pre++.verified i m c passed::post →
    (passed = true ↔ (codesFor m pre).getLast? = some c)
  /-- A call that has returned did one of the listed sequences: a code request
  answers with the code it stored, a failed verification with invalid data. -/
  completed : ∀ i ev rsp, s.calls[i]? = some ⟨ev, .returned rsp⟩ →
    Completed i ev rsp (own i s.log)
  /-- No call sends a statement unless its own verification passed. -/
  guarded : ∀ e ∈ s.log, e.IsSql → ∃ m c, Entry.verified e.call m c true ∈ s.log ∧
    ∀ m' c', Entry.verified e.call m' c' false ∉ s.log
  /-- A successful login follows the request that issued its code, and no other
  code was stored for the mobile in between. -/
  admitted : ∀ (i : ℕ) (ev : IEvent) (m : Bytes) (c : Int32), LoginAttempt ev m c →
    s.calls[i]? = some ⟨ev, .returned (some (loginRspEv EErrorCode.success.code))⟩ →
    ∃ before j between after,
      s.log = before++.stored j m c::between++.verified i m c true::after ∧
        codesFor m between = [] ∧ ∃ req p, s.calls[j]? = some ⟨req, p⟩ ∧ CodeRequest req m
  /-- A call that has returned does not hold the mutex. -/
  released : ∀ i ev rsp, s.calls[i]? = some ⟨ev, .returned rsp⟩ → s.pm ≠ some i
  /-- The holder releases the mutex by at most two moves of its own. -/
  unblocked : ∀ i, s.pm = some i → ∃ as t, as.length ≤ 2 ∧
    (∀ a ∈ as, ∃ env, a = .advance i env) ∧ machine.Run Machine.Free s as t ∧ t.pm = none

theorem follows_sql {i : ℕ} {ev : IEvent} {log : List Entry} {p : Point}
    (h : Follows i ev log p) {e : Entry} (he : e ∈ log) (hs : e.IsSql) :
    (∃ m c, Entry.verified i m c true ∈ log) ∧ ∀ m c, Entry.verified i m c false ∉ log := by
  have hno : ∀ {l : List Entry}, (∀ x ∈ l, ¬ x.IsSql) → e ∈ l → False :=
    fun hl hin => hl e hin hs
  cases p with
  | returned rsp =>
    cases h with
    | code m c _ _ hlog => rw [hlog] at he; exact (hno (by simp [Entry.IsSql]) he).elim
    | ignored _ _ hlog => rw [hlog] at he; simp at he
    | login m c code _ _ hpath =>
      cases hpath with
      | rejected => exact (hno (by simp [Entry.IsSql]) he).elim
      | unconnected => exact (hno (by simp [Entry.IsSql]) he).elim
      | found => exact ⟨⟨m,c,by simp⟩,by simp⟩
      | failed => exact ⟨⟨m,c,by simp⟩,by simp⟩
      | added => exact ⟨⟨m,c,by simp⟩,by simp⟩
  | insert m c => rw [h.2]; exact ⟨⟨m,c,by simp⟩,by simp⟩
  | verifyUnlock m c r => rw [h.2.1] at he; exact (hno (by simp [Entry.IsSql]) he).elim
  | _ => rw [h.2] at he; exact (hno (by simp [Entry.IsSql]) he).elim

theorem follows_stored {i : ℕ} {ev : IEvent} {log : List Entry} {p : Point}
    (h : Follows i ev log p) {m : Bytes} {c : Int32} (he : Entry.stored i m c ∈ log) :
    CodeRequest ev m := by
  cases p with
  | returned rsp =>
    cases h with
    | code m' c' hreq _ hlog =>
      rw [hlog, List.mem_singleton] at he
      obtain ⟨-,rfl,-⟩ := Entry.stored.inj he
      exact hreq
    | ignored _ _ hlog => rw [hlog] at he; simp at he
    | login m' c' code _ _ hpath => cases hpath <;> simp at he
  | storeUnlock m' c' =>
    rw [h.2, List.mem_singleton] at he
    obtain ⟨-,rfl,-⟩ := Entry.stored.inj he
    exact h.1
  | verifyUnlock m' c' r => rw [h.2.1] at he; simp at he
  | _ => rw [h.2] at he; simp at he

/-- The last code stored for a mobile has its critical section, and after it
none for that mobile. -/
theorem last_stored {m : Bytes} {c : Int32} {log : List Entry}
    (h : (codesFor m log).getLast? = some c) :
    ∃ before j between, log = before++.stored j m c::between ∧ codesFor m between = [] := by
  induction log using List.reverseRecOn with
  | nil => simp [codesFor] at h
  | append_singleton log e ih =>
    rw [codes_append] at h
    by_cases hnone : codesFor m [e] = []
    · rw [hnone, List.append_nil] at h
      obtain ⟨before,j,between,rfl,hb⟩ := ih h
      exact ⟨before,j,between++[e],by simp,by rw [codes_append, hb, hnone]; rfl⟩
    · cases e with
      | stored j m' c' =>
        by_cases hm : m' = m
        · subst hm
          simp only [codesFor, List.filterMap_cons, if_true, List.filterMap_nil,
            List.getLast?_append, List.getLast?_singleton, Option.some_or,
            Option.some.injEq] at h
          subst h
          exact ⟨log,j,[],rfl,rfl⟩
        · simp [codesFor, hm] at hnone
      | _ => simp [codesFor] at hnone

theorem login_success {i : ℕ} {m : Bytes} {c : Int32} {log : List Entry}
    (hp : LoginPath i m c log .success) : Entry.verified i m c true ∈ log := by
  cases hp <;> simp

theorem orderly_linearized {s : State} (h : Orderly s) (hc : Coded s) : Linearized s where
  verdict := hc.verdicts
  completed i ev rsp hi := h.path i ev _ hi
  guarded e he hs := by
    obtain ⟨call,hcall⟩ : ∃ call, s.calls[e.call]? = some call :=
      ⟨_,List.getElem?_eq_getElem (h.known e he)⟩
    have hown : e ∈ own e.call s.log := mem_own.mpr ⟨he,rfl⟩
    obtain ⟨⟨m,c,hv⟩,hno⟩ := follows_sql (h.path e.call call.ev call.point hcall) hown hs
    exact ⟨m,c,(mem_own.mp hv).1,fun m' c' hx => hno m' c' (mem_own.mpr ⟨hx,rfl⟩)⟩
  admitted i ev m c hl hi := by
    have hv := login_success (success_path h hl hi)
    obtain ⟨pre,after,hlog⟩ := List.append_of_mem (mem_own.mp hv).1
    obtain ⟨before,j,between,rfl,hnone⟩ := last_stored ((hc.verdicts _ _ _ _ _ _ hlog).mp rfl)
    have hmem : Entry.stored j m c ∈ s.log := by rw [hlog]; simp
    obtain ⟨call,hcall⟩ : ∃ call, s.calls[j]? = some call :=
      ⟨_,List.getElem?_eq_getElem (h.known _ hmem)⟩
    exact ⟨before,j,between,after,hlog,hnone,call.ev,call.point,hcall,
      follows_stored (h.path j call.ev call.point hcall) (mem_own.mpr ⟨hmem,rfl⟩)⟩
  released i ev rsp hi hpm := by
    obtain ⟨ev',p,hcall,hp⟩ := (h.lock i).mp hpm
    rw [hi, Option.some.injEq, Call.mk.injEq] at hcall
    rw [← hcall.2] at hp
    exact hp
  unblocked i hi := releases h hi

/-- Login verification is linearizable, and admits nobody without the current
code, in every interleaving of the handler's calls. -/
theorem login_linearizable (table : UserService.UserInfo) (as : List Action) (s : State)
    (hr : machine.Run Machine.Free (State.start table) as s) : Linearized s :=
  orderly_linearized (run_orderly hr) (run_coded hr)

/-- Two codes are issued for one mobile; a login has the first of them. -/
def supersededLogin : List Action :=
  [.call (mobileCodeReqEv [49]), .call (mobileCodeReqEv [49]), .call (loginReqEv [49] 7),
    .advance 0 ⟨7, true, .rows, true⟩, .advance 0 ⟨7, true, .rows, true⟩,
    .advance 0 ⟨7, true, .rows, true⟩, .advance 0 ⟨7, true, .rows, true⟩,
    .advance 1 ⟨8, true, .rows, true⟩, .advance 1 ⟨8, true, .rows, true⟩,
    .advance 1 ⟨8, true, .rows, true⟩, .advance 1 ⟨8, true, .rows, true⟩,
    .advance 2 ⟨0, true, .rows, true⟩, .advance 2 ⟨0, true, .rows, true⟩,
    .advance 2 ⟨0, true, .rows, true⟩]

theorem login_linearizable_superseded : ∃ s,
    machine.Run Machine.Free (State.start []) supersededLogin s ∧
      s.log = [.stored 0 [49] 7, .stored 1 [49] 8, .verified 2 [49] 7 false] ∧ Linearized s := by
  obtain ⟨s,hs,hlog⟩ : ∃ s, machine.replay (State.start []) supersededLogin = some s ∧
      s.log = [.stored 0 [49] 7, .stored 1 [49] 8, .verified 2 [49] 7 false] := ⟨_,rfl,rfl⟩
  exact ⟨s,Machine.free_of_replay hs,hlog,
    login_linearizable [] supersededLogin s (Machine.free_of_replay hs)⟩

end SharedBike.LoginCodes
