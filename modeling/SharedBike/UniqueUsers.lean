import SharedBike.LoginCodes

/-!
# One row per mobile

A login reads the table in one statement and appends its row in another. The
table stays free of duplicates exactly as long as no other call inserts the
same mobile between these two statements of a call.
-/

set_option autoImplicit false

namespace SharedBike.UniqueUsers
open LittleEndian GuardedRuns
open SharedBike.Globals SharedBike.BikeProtocol SharedBike.Events SharedBike.UserService
open SharedBike.UserEventHandler SharedBike.CallHistory SharedBike.LoginCodes

/-- Every statement of the step succeeds. -/
def Succeeds (_ : State) (act : Action) : Prop :=
  ∀ i env, act = .advance i env → env.select = .rows ∧ env.insert = true

/-- When a call inserts, no other call has inserted its mobile since its select. -/
def Unraced (s : State) (act : Action) : Prop :=
  ∀ i env ev m c pre post, act = .advance i env → s.calls[i]? = some ⟨ev, .insert m c⟩ →
    s.log = pre++.selected i m false::post → ∀ j, Entry.inserted j m true ∉ post

structure OneRow (s : State) : Prop where
  rows : ∀ m, s.table.count m ≤ 1
  success : ∀ (i : ℕ) (ev : IEvent) (m : Bytes) (c : Int32), LoginAttempt ev m c →
    s.calls[i]? = some ⟨ev, .returned (some (loginRspEv EErrorCode.success.code))⟩ →
    s.table.count m = 1

def insertsOf (m : Bytes) (log : List Entry) : ℕ :=
  log.countP fun e => match e with
    | .inserted _ mobile done => mobile = m && done
    | _ => false

/-- The table is the initial one with the logged inserts, and every logged
select saw it as it was then. -/
structure Recorded (table : UserInfo) (s : State) : Prop where
  rows : ∀ m, s.table.count m = table.count m+insertsOf m s.log
  seen : ∀ pre i m found post, s.log = pre++.selected i m found::post →
    (found = true ↔ table.count m+insertsOf m pre ≠ 0)

theorem inserts_append (m : Bytes) (log es : List Entry) :
    insertsOf m (log++es) = insertsOf m log+insertsOf m es :=
  List.countP_append

theorem inserts_pos {m : Bytes} {log : List Entry} {j : ℕ}
    (h : Entry.inserted j m true ∈ log) : 0 < insertsOf m log := by
  rw [insertsOf, List.countP_pos_iff]
  exact ⟨_,h,by simp⟩

theorem inserts_zero {m : Bytes} {log : List Entry}
    (h : ∀ j, Entry.inserted j m true ∉ log) : insertsOf m log = 0 := by
  rw [insertsOf, List.countP_eq_zero]
  intro e he hx
  cases e with
  | inserted j mobile done =>
    simp only [Bool.and_eq_true, decide_eq_true_eq] at hx
    obtain ⟨rfl,rfl⟩ := hx
    exact h j he
  | _ => simp at hx

theorem seen_snoc {table : UserInfo} {log : List Entry} {e : Entry}
    (h : ∀ pre i m found post, log = pre++.selected i m found::post →
      (found = true ↔ table.count m+insertsOf m pre ≠ 0))
    (he : ∀ i m found, e = .selected i m found →
      (found = true ↔ table.count m+insertsOf m log ≠ 0)) :
    ∀ pre i m found post, log++[e] = pre++.selected i m found::post →
      (found = true ↔ table.count m+insertsOf m pre ≠ 0) := by
  intro pre i m found post hlog
  rcases snoc_split hlog with ⟨rfl,hx,-⟩ | ⟨rest,-,hold⟩
  · exact he i m found hx.symm
  · exact h pre i m found rest hold

/-- An entry that inserts nothing keeps the record, if a select saw the table. -/
theorem recorded_snoc {table : UserInfo} {s u : State} (h : Recorded table s) {e : Entry}
    (ht : u.table = s.table) (hl : u.log = s.log++[e]) (hnone : ∀ m, insertsOf m [e] = 0)
    (he : ∀ i m found, e = .selected i m found → (found = true ↔ s.table.count m ≠ 0)) :
    Recorded table u := by
  constructor
  · intro m
    rw [ht, hl, inserts_append, hnone, Nat.add_zero]
    exact h.rows m
  · rw [hl]
    apply seen_snoc h.seen
    intro i m found hx
    rw [← h.rows]
    exact he i m found hx

theorem moves_recorded {table : UserInfo} {s u : State} {i : ℕ} {env : Environment}
    {p q : Point} (hm : Moves s i env p q u) (hs : env.select = .rows ∧ env.insert = true)
    (h : Recorded table s) : Recorded table u := by
  cases hm with
  | @store m c =>
    exact @recorded_snoc _ s _ h (.stored i m c) rfl rfl (fun _ => rfl) (by simp)
  | @verify m c =>
    exact @recorded_snoc _ s _ h (.verified i m c (verify s.m2c m c).isNone) rfl rfl
      (fun _ => rfl) (by simp)
  | @found m c rows =>
    rw [hs.1] at rows
    refine @recorded_snoc _ s _ h (.selected i m true) rfl rfl (fun _ => rfl) ?_
    intro j m' f hx
    obtain ⟨-,rfl,rfl⟩ := Entry.selected.inj hx
    exact exist_rows rows
  | @missing m c rows =>
    rw [hs.1] at rows
    refine @recorded_snoc _ s _ h (.selected i m false) rfl rfl (fun _ => rfl) ?_
    intro j m' f hx
    obtain ⟨-,rfl,rfl⟩ := Entry.selected.inj hx
    exact exist_rows rows
  | @added m c table' done =>
    obtain ⟨-,rfl⟩ := insert_cases done
    refine ⟨fun m' => ?_,seen_snoc h.seen (by simp)⟩
    have hone : [m].count m' = insertsOf m' [.inserted i m true] := by
      by_cases hmm : m = m' <;> simp [insertsOf, hmm]
    show List.count m' (if env.insert = true then s.table++[m] else s.table) =
      table.count m'+insertsOf m' (s.log++[.inserted i m true])
    rw [if_pos hs.2, List.count_append, h.rows m', hone, inserts_append, Nat.add_assoc]
  | @failed m c table' undone =>
    obtain ⟨hx,-⟩ := insert_cases undone
    rw [hs.2] at hx
    simp at hx
  | _ => exact ⟨h.rows,h.seen⟩

theorem next_recorded {table : UserInfo} {s s' : State} {act : Action} (h : Recorded table s)
    (hs : Succeeds s act) (hn : machine.Next s act s') : Recorded table s' := by
  rcases next_cases hn with ⟨ev,p,-,-,rfl⟩ | ⟨i,env,ev,p,q,u,rfl,-,hm,rfl⟩
  · exact ⟨h.rows,h.seen⟩
  · obtain ⟨h1,h2⟩ := moves_recorded hm (hs i env rfl) h
    exact ⟨h1,h2⟩

theorem path_rows {i : ℕ} {m : Bytes} {c : Int32} {log : List Entry}
    (hp : LoginPath i m c log .success) :
    Entry.selected i m true ∈ log ∨ Entry.inserted i m true ∈ log := by
  cases hp <;> simp

/-- The rows of a successful login's mobile are there, found or inserted. -/
theorem success_rows {table : UserInfo} {s : State} (ho : Orderly s) (h : Recorded table s)
    {i : ℕ} {ev : IEvent} {m : Bytes} {c : Int32} (hl : LoginAttempt ev m c)
    (hi : s.calls[i]? = some ⟨ev, .returned (some (loginRspEv EErrorCode.success.code))⟩) :
    0 < s.table.count m := by
  have hown := path_rows (success_path ho hl hi)
  rw [h.rows]
  rcases hown with hf | hf
  · obtain ⟨pre,post,hlog⟩ := List.append_of_mem (mem_own.mp hf).1
    have hpos := (h.seen _ _ _ _ _ hlog).mp rfl
    rw [hlog, inserts_append]
    omega
  · have := inserts_pos (mem_own.mp hf).1
    omega

/-- The rows a call will find when it inserts: those inserted since its select. -/
theorem insert_rows {table : UserInfo} {s : State} (ho : Orderly s) (h : Recorded table s)
    {i : ℕ} {ev : IEvent} {m : Bytes} {c : Int32} (hi : s.calls[i]? = some ⟨ev, .insert m c⟩) :
    (∃ pre post, s.log = pre++.selected i m false::post) ∧
      ∀ pre post, s.log = pre++.selected i m false::post → s.table.count m = insertsOf m post := by
  have hsel : Entry.selected i m false ∈ own i s.log := by
    rw [(ho.path i ev _ hi).2]
    simp
  refine ⟨List.append_of_mem (mem_own.mp hsel).1,fun pre post hlog => ?_⟩
  have hnone : ¬ table.count m+insertsOf m pre ≠ 0 := fun hx => by
    simpa using (h.seen _ _ _ _ _ hlog).mpr hx
  have hskip : insertsOf m [.selected i m false] = 0 := rfl
  rw [h.rows, hlog, inserts_append, ← List.singleton_append, inserts_append, hskip]
  omega

structure Unique (table : UserInfo) (s : State) : Prop where
  orderly : Orderly s
  recorded : Recorded table s
  rows : ∀ m, s.table.count m ≤ 1

theorem next_unique {table : UserInfo} {s s' : State} {act : Action} (h : Unique table s)
    (hg : Succeeds s act ∧ Unraced s act) (hn : machine.Next s act s') : Unique table s' := by
  refine ⟨next_orderly h.orderly hn,next_recorded h.recorded hg.1 hn,?_⟩
  rcases next_cases hn with ⟨ev,p,-,-,rfl⟩ | ⟨i,env,ev,p,q,u,rfl,hcall,hm,rfl⟩
  · exact h.rows
  · intro m
    show u.table.count m ≤ 1
    cases hm with
    | @added m' c table' done =>
      obtain ⟨-,rfl⟩ := insert_cases done
      rw [(hg.1 i env rfl).2, if_pos rfl, List.count_append]
      by_cases hmm : m' = m
      · subst hmm
        obtain ⟨⟨pre,post,hlog⟩,hrows⟩ := insert_rows h.orderly h.recorded hcall
        rw [hrows pre post hlog, inserts_zero (hg.2 i env ev m' c pre post rfl hcall hlog)]
        simp
      · simpa [hmm] using h.rows m
    | @failed m' c table' undone =>
      obtain ⟨hx,-⟩ := insert_cases undone
      rw [(hg.1 i env rfl).2] at hx
      simp at hx
    | _ => exact h.rows m

theorem unique_one_row {table : UserInfo} {s : State} (h : Unique table s) : OneRow s where
  rows := h.rows
  success i ev m c hl hi := by
    have hpos := success_rows h.orderly h.recorded hl hi
    have := h.rows m
    omega

/-- An insert that overtakes another call's insert of the same mobile leaves two rows. -/
theorem unraced_of_one_row {table : UserInfo} {s s' : State} {act : Action}
    (h : Unique table s) (h' : OneRow s') (hs : Succeeds s act) (hn : machine.Next s act s') :
    Unraced s act := by
  rintro i env ev m c pre post rfl hcall hlog j hj
  rcases next_cases hn with ⟨ev',p,hx,-,-⟩ | ⟨i',env',ev',p,q,u,hact,hcall',hm,rfl⟩
  · simp at hx
  · obtain ⟨rfl,rfl⟩ := Action.advance.inj hact
    rw [hcall, Option.some.injEq, Call.mk.injEq] at hcall'
    obtain ⟨rfl,rfl⟩ := hcall'
    have hone : u.table.count m ≤ 1 := h'.rows m
    have htable : u.table = s.table++[m] := by
      cases hm with
      | added done =>
        obtain ⟨-,rfl⟩ := insert_cases done
        rw [(hs i env rfl).2, if_pos rfl]
      | failed undone =>
        obtain ⟨hx,-⟩ := insert_cases undone
        rw [(hs i env rfl).2] at hx
        simp at hx
    have hrows := (insert_rows h.orderly h.recorded hcall).2 pre post hlog
    have hpos := inserts_pos hj
    rw [htable, List.count_append, hrows, List.count_singleton_self] at hone
    omega

/-- With every statement succeeding, a run keeps one row per mobile in all its
states, and exactly one for each successful login, if and only if no call
inserts a mobile that another call inserted since its select. -/
theorem one_row_iff (table : UserInfo) (hone : ∀ m, table.count m ≤ 1) (as : List Action)
    (s : State) (hr : machine.Run Succeeds (State.start table) as s) :
    (∀ bs t, bs <+: as → machine.Run Succeeds (State.start table) bs t → OneRow t) ↔
    machine.Run (fun t act => Succeeds t act ∧ Unraced t act) (State.start table) as s := by
  have h0 : Unique table (State.start table) :=
    ⟨start_orderly table,⟨fun m => by simp [State.start, insertsOf],by simp [State.start]⟩,hone⟩
  have hstep : ∀ t act u, Unique table t → Succeeds t act ∧ Unraced t act →
      machine.Next t act u → Unique table u := fun _ _ _ ht hg hn => next_unique ht hg hn
  constructor
  · intro h
    refine hr.guarded h (fun bs t act u hrun _ hu hs hn => ⟨hs,?_⟩)
    exact unraced_of_one_row (hrun.everywhere _ h0 hstep List.prefix_rfl hrun) hu hs hn
  · intro h bs t hb ht
    exact unique_one_row (h.everywhere _ h0 hstep hb ht)

def answering : Environment := ⟨7, true, .rows, true⟩

/-- One code request, then two logins with its code up to their selects. -/
def twoLogins (m : Bytes) : List Action :=
  [.call (mobileCodeReqEv m)]++List.replicate 4 (.advance 0 answering)++
    [.call (loginReqEv m 7), .call (loginReqEv m 7)]++List.replicate 4 (.advance 1 answering)++
    List.replicate 4 (.advance 2 answering)

/-- Both logins select before either inserts. -/
def racingLogins : List Action :=
  twoLogins [49]++[.advance 1 answering, .advance 2 answering, .advance 1 answering,
    .advance 2 answering]

/-- The second login selects after the first has inserted. -/
def orderedLogins : List Action :=
  twoLogins [49]++[.advance 1 answering, .advance 1 answering, .advance 2 answering]

theorem answering_succeeds {as : List Action}
    (h : ∀ a ∈ as, ∀ i env, a = .advance i env → env = answering) :
    ∀ a ∈ as, ∀ t, Succeeds t a := by
  intro a ha t i env hx
  rw [h a ha i env hx]
  exact ⟨rfl,rfl⟩

theorem one_row_iff_ordered :
    (∀ bs t, bs <+: orderedLogins → machine.Run Succeeds (State.start []) bs t → OneRow t) ↔
    ∃ s, machine.Run (fun t act => Succeeds t act ∧ Unraced t act) (State.start [])
      orderedLogins s := by
  obtain ⟨s,hs⟩ : ∃ s, machine.replay (State.start []) orderedLogins = some s :=
    Option.isSome_iff_exists.mp (by decide +kernel)
  have hr : machine.Run Succeeds (State.start []) orderedLogins s :=
    Machine.run_of_replay (answering_succeeds (by simp [orderedLogins, twoLogins])) hs
  have h := one_row_iff [] (by simp) orderedLogins s hr
  refine ⟨fun hq => ⟨s,h.mp hq⟩,fun ⟨t,ht⟩ => h.mpr ?_⟩
  rw [hr.unique ht]
  exact ht

theorem two_rows_after_race : ∃ s, machine.Run Succeeds (State.start []) racingLogins s ∧
    s.table = [[49], [49]] ∧ ¬ OneRow s := by
  have heval : (machine.replay (State.start []) racingLogins).map State.table =
      some [[49], [49]] := by decide +kernel
  obtain ⟨s,hs,htable⟩ := Option.map_eq_some_iff.mp heval
  refine ⟨s,Machine.run_of_replay (answering_succeeds (by simp [racingLogins, twoLogins])) hs,
    htable,fun h => ?_⟩
  have := h.rows [49]
  rw [htable] at this
  simp at this

end SharedBike.UniqueUsers
