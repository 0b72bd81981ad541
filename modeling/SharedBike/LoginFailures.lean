import SharedBike.SequentialLogins

/-!
# Failing steps and the user table

`exist` answers a failed query as it answers an empty one, so the login goes on
to insert. The insert fails as well, or it adds a row that the table may hold
already.
-/

set_option autoImplicit false

namespace SharedBike.LoginFailures
open LittleEndian GuardedRuns
open SharedBike.Globals SharedBike.Events SharedBike.UserService
open SharedBike.UserEventHandler (CodeMap Environment verify)
open SharedBike.SequentialLogins

/-- The login comes to its existence query, and the query or its result fails. -/
def QueryFailed (m2c : CodeMap) (a : Action) : Prop :=
  ∃ m c, a.request = .login m c ∧ verify m2c m c = none ∧ a.env.init = true ∧
    a.env.select ≠ .rows

/-- A login whose existence query fails, while the insert after it succeeds. -/
def Blind (s : Ledger) (a : Action) : Prop := QueryFailed s.m2c a ∧ a.env.insert = true

structure Uncorrupted (s : Ledger) : Prop where
  rows : ∀ m, s.table.count m ≤ 1
  success : ∀ d ∈ s.done, ∀ m c, d.call.request = .login m c →
    d.rsp = loginRspEv EErrorCode.success.code → m ∈ d.after
  failed : ∀ d ∈ s.done, QueryFailed d.m2c d.call →
    d.rsp = loginRspEv EErrorCode.processFailed.code ∧ d.after = d.before

theorem login_rsp_inj {e e' : EErrorCode} (h : loginRspEv e.code = loginRspEv e'.code) :
    e = e' := by
  cases e <;> cases e' <;> first | rfl | simp [loginRspEv, EErrorCode.code] at h

/-- What one login does to the table, if it is not blind. -/
theorem login_keeps {m2c : CodeMap} {table after : UserInfo} {env : Environment} {m : Bytes}
    {c : Int32} {e : EErrorCode} (h : LoginCase m2c table env m c e after)
    (hone : ∀ m, table.count m ≤ 1)
    (hsighted : ¬ (QueryFailed m2c ⟨.login m c, env⟩ ∧ env.insert = true)) :
    (∀ m, after.count m ≤ 1) ∧ (e = .success → m ∈ after) ∧
      (QueryFailed m2c ⟨.login m c, env⟩ → e = .processFailed ∧ after = table) := by
  cases h with
  | rejected unverified =>
    refine ⟨hone,by simp,fun ⟨m',c',hreq,hv,_⟩ => ?_⟩
    obtain ⟨rfl,rfl⟩ := Request.login.inj hreq
    exact absurd hv unverified
  | unconnected down => exact ⟨hone,by simp,fun _ => ⟨rfl,rfl⟩⟩
  | failed undone => exact ⟨hone,by simp,fun _ => ⟨rfl,rfl⟩⟩
  | found rows present =>
    refine ⟨hone,fun _ => ?_,fun ⟨_,_,_,_,_,hfail⟩ => absurd rows hfail⟩
    exact List.count_pos_iff.mp (Nat.pos_of_ne_zero present)
  | added unseen done verified up =>
    -- the insert succeeds, so the query before it has not failed: the mobile has no row
    have hrows : env.select = .rows := by
      by_contra hfail
      exact hsighted ⟨⟨m,c,rfl,verified,up,hfail⟩,done⟩
    refine ⟨fun m' => ?_,fun _ => by simp,fun ⟨_,_,_,_,_,hfail⟩ => absurd hrows hfail⟩
    rw [List.count_append]
    by_cases hm : m = m'
    · subst hm
      rw [unseen hrows, List.count_singleton_self]
    · rw [List.count_singleton, if_neg (by simpa using hm)]
      exact hone m'

theorem uncorrupted_snoc {s : Ledger} {d : Done} (h : Uncorrupted s)
    (hrows : ∀ m, d.after.count m ≤ 1)
    (hsuccess : ∀ m c, d.call.request = .login m c →
      d.rsp = loginRspEv EErrorCode.success.code → m ∈ d.after)
    (hfailed : QueryFailed d.m2c d.call →
      d.rsp = loginRspEv EErrorCode.processFailed.code ∧ d.after = d.before)
    (m2c : CodeMap) : Uncorrupted ⟨m2c, d.after, s.done++[d]⟩ := by
  constructor
  · exact hrows
  · intro e he
    rcases List.mem_append.mp he with he | he
    · exact h.success e he
    · rw [List.mem_singleton.mp he]
      exact hsuccess
  · intro e he
    rcases List.mem_append.mp he with he | he
    · exact h.failed e he
    · rw [List.mem_singleton.mp he]
      exact hfailed

theorem next_uncorrupted {s s' : Ledger} {a : Action} (h : Uncorrupted s) (hs : ¬ Blind s a)
    (hn : machine.Next s a s') : Uncorrupted s' := by
  obtain ⟨out,hout,rfl⟩ := next_cases hn
  obtain ⟨request,env⟩ := a
  cases request with
  | mobileCode m =>
    obtain rfl := Except.ok.inj hout
    apply @uncorrupted_snoc s ⟨⟨.mobileCode m,env⟩,s.m2c,s.table,
      (handleMobileCodeReq s.m2c s.table env m).rsp,s.table⟩ h h.rows
    · intro m' c' hx
      simp at hx
    · rintro ⟨m',c',hx,-⟩
      simp at hx
  | login m c =>
    have hlogin : handleLoginReq s.m2c s.table env m c = .ok out := hout
    obtain ⟨-,e,hrsp,hcase⟩ := login_cases hlogin
    obtain ⟨hrows,hsuccess,hfailed⟩ := login_keeps hcase h.rows hs
    apply @uncorrupted_snoc s ⟨⟨.login m c,env⟩,s.m2c,s.table,out.rsp,out.table⟩ h hrows
    · intro m' c' hx hcode
      obtain ⟨rfl,rfl⟩ := Request.login.inj hx
      exact hsuccess (login_rsp_inj (hrsp.symm.trans hcode))
    · intro hq
      obtain ⟨rfl,ht⟩ := hfailed hq
      exact ⟨hrsp,ht⟩

/-- A blind login answers with success, though its query failed. -/
theorem sighted_of_uncorrupted {s s' : Ledger} {a : Action} (h' : Uncorrupted s')
    (hn : machine.Next s a s') : ¬ Blind s a := by
  rintro ⟨hq,hdone⟩
  obtain ⟨out,hout,rfl⟩ := next_cases hn
  have hfailed := (h'.failed _ (List.mem_append_right _ (List.mem_singleton.mpr rfl)) hq).1
  obtain ⟨m,c,hreq,hv,hup,hfail⟩ := hq
  rw [respond, hreq] at hout
  obtain ⟨-,e,hrsp,hcase⟩ := login_cases hout
  have he : e = .processFailed := login_rsp_inj (hrsp.symm.trans hfailed)
  generalize out.table = after at hcase
  cases hcase with
  | unconnected down => simp [hup] at down
  | failed undone => simp [hdone] at undone
  | _ => simp at he

/-- A run of logins leaves at most one row per mobile after each call, reports
success only for mobiles in the table, and fails each login whose query failed,
exactly if no login inserts after its query failed. -/
theorem uncorrupted_iff (table : UserInfo) (hone : ∀ m, table.count m ≤ 1) (as : List Action)
    (s : Ledger) (hr : machine.Run Machine.Free (Ledger.start table) as s) :
    (∀ bs t, bs <+: as → machine.Run Machine.Free (Ledger.start table) bs t → Uncorrupted t) ↔
    machine.Run (fun t a => ¬ Blind t a) (Ledger.start table) as s := by
  have h0 : Uncorrupted (Ledger.start table) :=
    ⟨hone,by simp [Ledger.start],by simp [Ledger.start]⟩
  constructor
  · intro h
    exact hr.guarded h fun bs t a u hrun _ hu _ hn => sighted_of_uncorrupted hu hn
  · intro h bs t hb ht
    exact h.everywhere Uncorrupted h0 (fun t a u hi hg hn => next_uncorrupted hi hg hn) hb ht

def allUp : Environment := ⟨7, true, .rows, true⟩

/-- One code request, and the login that adds the row. -/
def firstLogin : List Action := [⟨.mobileCode [49], allUp⟩, ⟨.login [49] 7, allUp⟩]

/-- The second login's query fails, its insert does not. -/
def blindLogin : List Action :=
  firstLogin++[⟨.login [49] 7, ⟨7, true, .queryFailed, true⟩⟩]

/-- The steps of three more logins fail, each at another place. -/
def failingLogins : List Action :=
  firstLogin++[⟨.login [49] 7, ⟨7, false, .rows, true⟩⟩,
    ⟨.login [49] 7, ⟨7, true, .noResult, false⟩⟩, ⟨.login [50] 7, ⟨7, true, .queryFailed, true⟩⟩]

theorem two_rows_after_failed_query : ∃ s,
    machine.Run Machine.Free (Ledger.start []) blindLogin s ∧ s.table = [[49], [49]] ∧
      s.done.getLast?.map Done.rsp = some (loginRspEv EErrorCode.success.code) ∧
      ¬ Uncorrupted s := by
  have heval : (machine.replay (Ledger.start []) blindLogin).map
      (fun s => (s.table, s.done.getLast?.map Done.rsp)) =
      some ([[49], [49]], some (loginRspEv EErrorCode.success.code)) := by decide +kernel
  obtain ⟨s,hs,hlast⟩ := Option.map_eq_some_iff.mp heval
  obtain ⟨htable,hrsp⟩ := Prod.mk.inj hlast
  refine ⟨s,Machine.free_of_replay hs,htable,hrsp,fun h => ?_⟩
  have := h.rows [49]
  rw [htable] at this
  simp at this

theorem uncorrupted_iff_failing :
    (∀ bs t, bs <+: failingLogins → machine.Run Machine.Free (Ledger.start []) bs t →
      Uncorrupted t) ↔
    ∃ s, machine.Run (fun t a => ¬ Blind t a) (Ledger.start []) failingLogins s := by
  obtain ⟨s,hs⟩ : ∃ s, machine.replay (Ledger.start []) failingLogins = some s :=
    Option.isSome_iff_exists.mp (by decide +kernel)
  have hr := Machine.free_of_replay hs
  have h := uncorrupted_iff [] (by simp) failingLogins s hr
  refine ⟨fun hq => ⟨s,h.mp hq⟩,fun ⟨t,ht⟩ => h.mpr ?_⟩
  rw [hr.unique ht]
  exact ht

end SharedBike.LoginFailures
