import SharedBike.PoolShutdown

/-!
# Starting the pool

`thread_pool_init` with each of its calls failing or not. A worker runs as soon
as it is created, while the others are still to come, and a later call that
fails frees the pool under it. `held` says what has been set up and is not yet
torn down.
-/

set_option autoImplicit false

namespace SharedBike.PoolStartup
open GuardedRuns TailQueues
open SharedBike.PoolMachine SharedBike.PoolSteps SharedBike.PoolOwnership SharedBike.PoolRefinement
open SharedBike.PoolShutdown (Action.worker)

variable {κ : Type}

/-- The calls of `thread_pool_init`, with those that `thread_mutex_create` and
`thread_cond_create` make for it. -/
inductive Call where
  | calloc
  | mutexattrInit
  | mutexattrSettype
  | mutexInit
  | mutexattrDestroy
  | condInit
  | attrInit
  | attrSetdetachstate
  | create (n : ℕ)
  | attrDestroy

inductive Resource where
  | name
  | mutexattr
  | mutex
  | cond
  | attr
  deriving DecidableEq, Repr

inductive Stage where
  | calling (c : Call)
  | failed (c : Call)
  | ready

inductive StartFault where
  | nullPool
  | pool (f : PoolMachine.Fault)

structure State (κ : Type) where
  pool : Linked κ
  threads : ℕ
  stage : Stage
  held : Resource → Bool

def State.start (threads : ℕ) (maxQueue : ℤ) : State κ where
  pool := PoolMachine.State.start linkedQueue 0 maxQueue
  threads := threads
  stage := .calling .calloc
  held := fun _ => false

def State.setup (s : State κ) (r : Resource) (c : Call) : State κ :=
  { s with held := Function.update s.held r true, stage := .calling c }

/-- The head of the loop before worker `n` is created. -/
def State.round (s : State κ) (n : ℕ) : State κ :=
  { s with stage := if n < s.threads then .calling (.create n) else .calling .attrDestroy }

def State.succeed (s : State κ) : Call → State κ
  | .calloc => s.setup .name .mutexattrInit
  | .mutexattrInit => s.setup .mutexattr .mutexattrSettype
  | .mutexattrSettype => { s with stage := .calling .mutexInit }
  | .mutexInit => s.setup .mutex .mutexattrDestroy
  | .mutexattrDestroy => { s with
      held := Function.update s.held .mutexattr false, stage := .calling .condInit }
  | .condInit => s.setup .cond .attrInit
  | .attrInit => s.setup .attr .attrSetdetachstate
  | .attrSetdetachstate => s.round 0
  | .create n =>
    { s with pool := { s.pool with workers := s.pool.workers++[Point.outside] } }.round (n+1)
  | .attrDestroy => { s with held := Function.update s.held .attr false, stage := .ready }

/-- `free(tp)`, with the answer `NULL`. -/
def State.giveUp (s : State κ) (c : Call) : State κ :=
  { s with pool := { s.pool with destroyer := .done }, stage := .failed c }

/-- Without a pool the queue is initialised through a null pointer; a failing
destruction of an attribute is ignored. -/
def State.fail (s : State κ) : Call → Except StartFault (State κ)
  | .calloc => .error .nullPool
  | .mutexattrDestroy => .ok { s with stage := .calling .condInit }
  | .condInit => .ok ({ s with held := Function.update s.held .mutex false }.giveUp .condInit)
  | .attrDestroy => .ok { s with stage := .ready }
  | c => .ok (s.giveUp c)

inductive Action (κ : Type) where
  | init (fails : Bool)
  | work (act : PoolMachine.Action κ)

/-- Until `thread_pool_init` returns the pool, only workers know it. -/
def State.known (s : State κ) (act : PoolMachine.Action κ) : Bool :=
  match s.stage with
  | .ready => true
  | _ => (Action.worker act).isSome

def step (s : State κ) : Action κ → Option (Except StartFault (State κ))
  | .init fails => match s.stage with
    | .calling c => some (if fails then s.fail c else .ok (s.succeed c))
    | _ => none
  | .work act =>
    if s.known act then (PoolMachine.step linkedQueue s.pool act).map fun r => match r with
      | .error f => .error (.pool f)
      | .ok p => .ok { s with pool := p }
    else none

def machine (κ : Type) : Machine (State κ) (Action κ) StartFault := ⟨step⟩

def Careful (s : State κ) : Action κ → Prop
  | .work act => Disciplined linkedQueue s.pool act
  | _ => True

/-- What no post has touched yet. -/
structure Young (p : Linked κ) : Prop where
  empty : p.queue.first = none
  points : ∀ x ∈ p.workers, x = .outside ∨ x = .waiting ∨ x = .woken

/-- The pool with the workers that are still to be created. -/
def padded (p : Linked κ) (k : ℕ) : Linked κ :=
  { p with workers := p.workers++List.replicate k .outside }

section Workers

variable {p q : Linked κ} {act : PoolMachine.Action κ} {w k : ℕ} {x y : Point}

theorem padded_at (h : p.workers[w]? = some x) : (padded p k).workers[w]? = some x := by
  obtain ⟨hlt,-⟩ := List.getElem?_eq_some_iff.mp h
  exact (List.getElem?_append_left hlt).trans h

theorem padded_set (h : p.workers[w]? = some x) :
    (padded p k).workers.set w y = p.workers.set w y++List.replicate k .outside := by
  obtain ⟨hlt,-⟩ := List.getElem?_eq_some_iff.mp h
  exact List.set_append_left _ _ hlt

theorem young_set (h : Young p) (hy : y = .waiting ∨ y = .woken) :
    ∀ z ∈ p.workers.set w y, z = .outside ∨ z = .waiting ∨ z = .woken := by
  intro z hz
  rcases List.mem_or_eq_of_mem_set hz with hz | rfl
  · exact h.points z hz
  · exact Or.inr hy

theorem young_running (h : Young p) {t : TaskPtr} (hw : p.workers[w]? = some (.running t)) :
    False := by
  rcases h.points _ (List.mem_of_getElem? hw) with hp | hp | hp <;> simp at hp

theorem young_take (h : Young p) (w : ℕ) (waiting : ℤ) :
    State.take linkedQueue { p with waiting := waiting } w =
      .ok { p with waiting := waiting, workers := p.workers.set w .waiting } := by
  simp only [State.take, linkedQueue, h.empty]

theorem padded_young (h : Young p) : Young (padded p k) := by
  refine ⟨h.empty,fun x hx => ?_⟩
  rcases List.mem_append.mp hx with hx | hx
  · exact h.points x hx
  · exact Or.inl (List.eq_of_mem_replicate hx)

/-- A worker that is early waits, as it would if all of them were there. -/
theorem young_next (h : Young p) (hact : (Action.worker act).isSome)
    (hn : (linked κ).Next p act q) : Young q ∧ q.workers.length = p.workers.length ∧
      q.destroyer = p.destroyer ∧ ∀ k, (linked κ).Next (padded p k) act (padded q k) := by
  cases act with
  | enter w =>
    obtain ⟨at_,hd,ht⟩ := next_enter.mp hn
    rw [young_take h] at ht
    obtain rfl := Except.ok.inj ht
    refine ⟨⟨h.empty,young_set h (Or.inl rfl)⟩,List.length_set,rfl,fun k => ?_⟩
    refine next_enter.mpr ⟨padded_at at_,hd,(young_take (padded_young h) _ _).trans ?_⟩
    rw [padded_set at_]
    rfl
  | spurious w =>
    obtain ⟨at_,hd,rfl⟩ := next_spurious.mp hn
    refine ⟨⟨h.empty,young_set h (Or.inr rfl)⟩,List.length_set,rfl,fun k => ?_⟩
    refine next_spurious.mpr ⟨padded_at at_,hd,?_⟩
    rw [padded_set at_]
    rfl
  | recheck w =>
    obtain ⟨at_,hd,ht⟩ := next_recheck.mp hn
    rw [young_take h w p.waiting] at ht
    obtain rfl := Except.ok.inj ht
    refine ⟨⟨h.empty,young_set h (Or.inl rfl)⟩,List.length_set,rfl,fun k => ?_⟩
    refine next_recheck.mpr ⟨padded_at at_,hd,(young_take (padded_young h) _ p.waiting).trans ?_⟩
    rw [padded_set at_]
    rfl
  | finish w =>
    obtain ⟨t,id,ctx,at_,-⟩ := next_finish.mp hn
    exact (young_running h at_).elim
  | exit w =>
    obtain ⟨t,id,at_,-⟩ := next_exit.mp hn
    exact (young_running h at_).elim
  | _ => simp [Action.worker] at hact

/-- An early worker faults exactly when the pool has been freed. -/
theorem young_fails (h : Young p) (hact : (Action.worker act).isSome)
    {r : Except PoolMachine.Fault (Linked κ)} (hs : PoolMachine.step linkedQueue p act = some r) :
    (p.destroyer = .done → r = .error .freedPool) ∧ (p.destroyer ≠ .done → ∃ q, r = .ok q) := by
  have hpool : ∀ {u : Except PoolMachine.Fault (Linked κ)}, (∃ q, u = .ok q) →
      p.inPool u = some r →
      (p.destroyer = .done → r = .error .freedPool) ∧ (p.destroyer ≠ .done → ∃ q, r = .ok q) := by
    rintro _ ⟨q,rfl⟩ hin
    unfold State.inPool at hin
    split_ifs at hin with hd
    · exact ⟨fun _ => (Option.some.inj hin).symm,fun hne => absurd hd hne⟩
    · exact ⟨fun hdone => absurd hdone hd,fun _ => ⟨q,(Option.some.inj hin).symm⟩⟩
  cases act with
  | enter w =>
    simp only [PoolMachine.step] at hs
    split at hs
    · exact hpool ⟨_,young_take h w _⟩ hs
    · simp at hs
  | spurious w =>
    simp only [PoolMachine.step] at hs
    split at hs
    · exact hpool ⟨_,rfl⟩ hs
    · simp at hs
  | recheck w =>
    simp only [PoolMachine.step] at hs
    split at hs
    · exact hpool ⟨_,young_take h w p.waiting⟩ hs
    · simp at hs
  | finish w =>
    simp only [PoolMachine.step] at hs
    split at hs
    · rename_i t at_
      exact (young_running h at_).elim
    · simp at hs
  | exit w =>
    simp only [PoolMachine.step] at hs
    split at hs
    · rename_i t at_
      exact (young_running h at_).elim
    · simp at hs
  | _ => simp [Action.worker] at hact

/-- Each early worker has a step, which faults in a freed pool. -/
theorem young_step (h : Young p) (hd : p.destroyer = .done) (hw : w < p.workers.length) :
    ∃ act, Action.worker act = some w ∧
      PoolMachine.step linkedQueue p act = some (.error .freedPool) := by
  obtain ⟨x,hx⟩ : ∃ x, p.workers[w]? = some x := ⟨_,List.getElem?_eq_getElem hw⟩
  rcases h.points x (List.mem_of_getElem? hx) with rfl | rfl | rfl
  · exact ⟨.enter w,rfl,by simp only [PoolMachine.step, hx, State.inPool, if_pos hd]⟩
  · exact ⟨.spurious w,rfl,by simp only [PoolMachine.step, hx, State.inPool, if_pos hd]⟩
  · exact ⟨.recheck w,rfl,by simp only [PoolMachine.step, hx, State.inPool, if_pos hd]⟩

end Workers

def Call.rank : Call → ℕ
  | .calloc => 0
  | .mutexattrInit => 1
  | .mutexattrSettype => 2
  | .mutexInit => 3
  | .mutexattrDestroy => 4
  | .condInit => 5
  | .attrInit => 6
  | .attrSetdetachstate => 7
  | .create _ => 8
  | .attrDestroy => 9

/-- How many workers there are when a call is made. -/
def Call.created (threads : ℕ) : Call → ℕ
  | .create n => n
  | .attrDestroy => threads
  | _ => 0

/-- The call after which a resource is there. -/
def Resource.since : Resource → ℕ
  | .name => 0
  | .mutexattr => 1
  | .mutex => 3
  | .cond => 5
  | .attr => 6

theorem since_inj {r r' : Resource} (h : r.since = r'.since) : r = r' := by
  cases r <;> cases r' <;> simp [Resource.since] at h ⊢

theorem since_le (r : Resource) : r.since ≤ 6 := by
  cases r <;> simp [Resource.since]

/-- What has been set up when a call is made. Nothing is said of the mutex
attribute after its destruction, which may have failed. -/
def SetUp (c : Call) (held : Resource → Bool) : Prop :=
  ∀ r, (r = .mutexattr → c.rank ≤ 4) → (held r = true ↔ r.since < c.rank)

section Resources

variable {c d : Call} {r : Resource} {held : Resource → Bool}

theorem setup_made (h : SetUp c held) (hr : r.since = c.rank) (hd : d.rank = c.rank+1) :
    SetUp d (Function.update held r true) := by
  intro r' hattr
  by_cases hrr : r' = r
  · subst hrr
    rw [Function.update_self]
    simp only [true_iff]
    omega
  · have hsince : r'.since ≠ c.rank := fun he => hrr (since_inj (he.trans hr.symm))
    rw [Function.update_of_ne hrr, h r' fun he => by have := hattr he; omega]
    omega

theorem setup_kept (h : SetUp c held) (hc : ∀ r : Resource, r.since ≠ c.rank)
    (hd : d.rank = c.rank+1) : SetUp d held := by
  intro r hattr
  have hsince := hc r
  rw [h r fun he => by have := hattr he; omega]
  omega

theorem setup_attribute (h : SetUp c held) (hc : 4 < c.rank) (b : Bool) :
    SetUp c (Function.update held .mutexattr b) := by
  intro r hattr
  have hne : r ≠ .mutexattr := fun he => by
    have := hattr he
    omega
  rw [Function.update_of_ne hne]
  exact h r hattr

theorem setup_late (h : SetUp c held) (hc : 6 < c.rank) (hd : 6 < d.rank) : SetUp d held := by
  intro r hattr
  have hle := since_le r
  rw [h r fun he => by have := hattr he; omega]
  omega

end Resources

/-- The pool between two calls: with the missing workers it is one that the pool
of all the workers reaches. -/
structure Starting (threads : ℕ) (maxQueue : ℤ) (c : Call) (s : State κ) : Prop where
  young : Young s.pool
  idle : s.pool.destroyer = .idle
  count : s.pool.workers.length = c.created threads
  room : c.created threads ≤ threads
  next : ∀ n, c = .create n → n < threads
  same : s.threads = threads
  run : ∃ bs, (linked κ).Run (Disciplined linkedQueue)
    (PoolMachine.State.start linkedQueue threads maxQueue) bs
    (padded s.pool (threads-s.pool.workers.length))
  held : SetUp c s.held

/-- What a failed call leaves behind: a freed pool with the workers made so far,
the name, the attribute of a mutex that could not be made, and from the thread
attribute on also the mutex and the condition. -/
structure Orphaned (threads : ℕ) (c : Call) (s : State κ) : Prop where
  young : Young s.pool
  freed : s.pool.destroyer = .done
  count : s.pool.workers.length = c.created threads
  name : s.held .name = true
  mutexattr : c.rank ≤ 4 → (s.held .mutexattr = true ↔ 1 < c.rank)
  mutex : s.held .mutex = true ↔ 5 < c.rank
  cond : s.held .cond = true ↔ 5 < c.rank
  attr : s.held .attr = true ↔ 6 < c.rank

def Invariant (threads : ℕ) (maxQueue : ℤ) (s : State κ) : Prop :=
  match s.stage with
  | .calling c => Starting threads maxQueue c s
  | .failed c => Orphaned threads c s
  | .ready => s.held .mutex = true ∧ s.held .cond = true ∧
      ∃ bs, (linked κ).Run (Disciplined linkedQueue)
        (PoolMachine.State.start linkedQueue threads maxQueue) bs s.pool

section Startup

variable {threads : ℕ} {maxQueue : ℤ} {s t : State κ} {c d : Call}

theorem start_invariant (threads : ℕ) (maxQueue : ℤ) :
    Invariant threads maxQueue (State.start threads maxQueue : State κ) where
  young := ⟨rfl,by simp [State.start, PoolMachine.State.start]⟩
  idle := rfl
  count := rfl
  room := Nat.zero_le _
  next := nofun
  same := rfl
  run := ⟨[],.nil⟩
  held := fun r _ => by simp [State.start, Call.rank]

/-- A call that creates no worker leaves the pool as it was. -/
theorem starting_next {held : Resource → Bool} (h : Starting threads maxQueue c s)
    (hcount : d.created threads = c.created threads) (hnext : ∀ n, d = .create n → n < threads)
    (hheld : SetUp d held) :
    Starting threads maxQueue d { s with held := held, stage := .calling d } where
  young := h.young
  idle := h.idle
  count := h.count.trans hcount.symm
  room := hcount ▸ h.room
  next := hnext
  same := h.same
  run := h.run
  held := hheld

/-- The head of the loop, with `n` workers created. -/
theorem round_invariant {n : ℕ} (young : Young s.pool) (idle : s.pool.destroyer = .idle)
    (count : s.pool.workers.length = n) (room : n ≤ threads) (same : s.threads = threads)
    (run : ∃ bs, (linked κ).Run (Disciplined linkedQueue)
      (PoolMachine.State.start linkedQueue threads maxQueue) bs (padded s.pool (threads-n)))
    (held : SetUp (.create n) s.held) : Invariant threads maxQueue (s.round n) := by
  rw [← count] at run
  unfold State.round
  by_cases hlt : n < s.threads
  · rw [if_pos hlt]
    exact ⟨young,idle,count,room,fun m hm => by cases hm; rwa [same] at hlt,same,run,held⟩
  · rw [if_neg hlt]
    have hn : n = threads := by omega
    exact ⟨young,idle,count.trans hn,le_refl _,nofun,same,run,
      setup_late held (by simp [Call.rank]) (by simp [Call.rank])⟩

theorem padded_create {p : Linked κ} {k : ℕ} :
    padded { p with workers := p.workers++[.outside] } k = padded p (k+1) := by
  simp [padded, List.replicate_succ]

/-- With all workers created nothing is missing. -/
theorem started_run (h : Starting threads maxQueue .attrDestroy s) :
    ∃ bs, (linked κ).Run (Disciplined linkedQueue)
      (PoolMachine.State.start linkedQueue threads maxQueue) bs s.pool := by
  obtain ⟨bs,hrun⟩ := h.run
  have hall : padded s.pool (threads-s.pool.workers.length) = s.pool := by
    rw [h.count]
    simp [padded, Call.created]
  rw [hall] at hrun
  exact ⟨bs,hrun⟩

theorem succeed_invariant (h : Starting threads maxQueue c s) :
    Invariant threads maxQueue (s.succeed c) := by
  have hheld := h.held
  cases c with
  | calloc => exact starting_next h rfl (nofun) (setup_made hheld rfl rfl)
  | mutexattrInit => exact starting_next h rfl (nofun) (setup_made hheld rfl rfl)
  | mutexattrSettype =>
    exact starting_next h rfl (nofun) (setup_kept hheld (by rintro (_ | _) <;> decide) rfl)
  | mutexInit => exact starting_next h rfl (nofun) (setup_made hheld rfl rfl)
  | mutexattrDestroy =>
    exact starting_next h rfl (nofun)
      (setup_attribute (setup_kept hheld (by rintro (_ | _) <;> decide) rfl)
        (by decide) false)
  | condInit => exact starting_next h rfl (nofun) (setup_made hheld rfl rfl)
  | attrInit => exact starting_next h rfl (nofun) (setup_made hheld rfl rfl)
  | attrSetdetachstate =>
    refine round_invariant h.young h.idle h.count (Nat.zero_le _) h.same ?_
      (setup_late hheld (by simp [Call.rank]) (by simp [Call.rank]))
    obtain ⟨bs,hrun⟩ := h.run
    rw [h.count] at hrun
    exact ⟨bs,hrun⟩
  | create n =>
    have hlt := h.next n rfl
    refine @round_invariant _ threads maxQueue
      { s with pool := { s.pool with workers := s.pool.workers++[Point.outside] } } (n+1)
      ⟨h.young.empty,fun x hx => ?_⟩ h.idle ?_ hlt h.same ?_
      (setup_late hheld (by simp [Call.rank]) (by simp [Call.rank]))
    · rcases List.mem_append.mp hx with hx | hx
      · exact h.young.points x hx
      · exact Or.inl (List.mem_singleton.mp hx)
    · have hcount : s.pool.workers.length = n := h.count
      simp [hcount]
    · obtain ⟨bs,hrun⟩ := h.run
      rw [h.count, show threads-Call.created threads (.create n) = threads-(n+1)+1 by
        simp only [Call.created]; omega] at hrun
      exact ⟨bs,by rw [padded_create]; exact hrun⟩
  | attrDestroy =>
    have hrun := started_run h
    exact ⟨(hheld .mutex (by simp)).mpr (by decide),(hheld .cond (by simp)).mpr (by decide),hrun⟩

/-- A call that fails gives the pool up, or its failure is ignored. -/
theorem fail_invariant (h : Starting threads maxQueue c s) (hf : s.fail c = .ok t) :
    Invariant threads maxQueue t := by
  have hheld := h.held
  have hlost : ∀ held : Resource → Bool, held .name = true →
      (c.rank ≤ 4 → (held .mutexattr = true ↔ 1 < c.rank)) →
      (held .mutex = true ↔ 5 < c.rank) → (held .cond = true ↔ 5 < c.rank) →
      (held .attr = true ↔ 6 < c.rank) →
      Orphaned threads c ({ s with held := held }.giveUp c) := fun held h0 ha h1 h2 h3 =>
    ⟨⟨h.young.empty,h.young.points⟩,rfl,h.count,h0,ha,h1,h2,h3⟩
  have hmutexattr : c.rank ≤ 4 → (s.held .mutexattr = true ↔ 1 < c.rank) :=
    fun hc => hheld .mutexattr fun _ => hc
  have hname := hheld .name (by simp)
  have hmutex := hheld .mutex (by simp)
  have hcond := hheld .cond (by simp)
  have hattr := hheld .attr (by simp)
  simp only [Resource.since] at hname hmutex hcond hattr
  cases c with
  | calloc => simp [State.fail] at hf
  | mutexattrDestroy =>
    obtain rfl := Except.ok.inj hf
    exact starting_next h rfl (nofun) (setup_kept hheld (by rintro (_ | _) <;> decide) rfl)
  | condInit =>
    obtain rfl := Except.ok.inj hf
    refine hlost _ ?_ (by simp [Call.rank]) ?_ ?_ ?_
    · simpa using hname.mpr (by decide)
    · simp [Call.rank]
    · simpa using hcond
    · simpa using hattr
  | attrDestroy =>
    obtain rfl := Except.ok.inj hf
    have hrun := started_run h
    exact ⟨hmutex.mpr (by decide),hcond.mpr (by decide),hrun⟩
  | _ =>
    obtain rfl := Except.ok.inj hf
    refine hlost s.held (hname.mpr (by simp [Call.rank])) hmutexattr (hmutex.trans ?_) hcond
      hattr
    simp [Call.rank]

theorem work_next {act : PoolMachine.Action κ} (hn : (machine κ).Next s (.work act) t) :
    s.known act = true ∧ ∃ p, (linked κ).Next s.pool act p ∧ t = { s with pool := p } := by
  simp only [Machine.Next, machine, step] at hn
  split_ifs at hn with hknown
  obtain ⟨r,hr,he⟩ := Option.map_eq_some_iff.mp hn
  cases r with
  | error f => simp at he
  | ok p => exact ⟨hknown,p,hr,(Except.ok.inj he).symm⟩

/-- The step lemma. The created workers only wait, and they fault once the pool is freed. -/
theorem next_invariant {act : Action κ} (h : Invariant threads maxQueue s) (hg : Careful s act)
    (hn : (machine κ).Next s act t) : Invariant threads maxQueue t := by
  unfold Invariant at h
  cases act with
  | init fails =>
    simp only [Machine.Next, machine, step] at hn
    split at hn
    · rename_i c hc
      simp only [hc] at h
      cases fails with
      | true => exact fail_invariant h (Option.some.inj hn)
      | false =>
        obtain rfl := Except.ok.inj (Option.some.inj hn)
        exact succeed_invariant h
    · simp at hn
  | work act =>
    obtain ⟨hknown,p,hp,rfl⟩ := work_next hn
    cases hstage : s.stage with
    | calling c =>
      simp only [hstage] at h
      rw [State.known, hstage] at hknown
      obtain ⟨hyoung,hlen,hidle,hpadded⟩ := young_next h.young hknown hp
      obtain ⟨bs,hrun⟩ := h.run
      have hdisc : Disciplined linkedQueue (padded s.pool (threads-s.pool.workers.length)) act := by
        cases act <;> trivial
      simp only [Invariant]
      exact ⟨hyoung,hidle.trans h.idle,hlen.trans h.count,h.room,h.next,h.same,
        ⟨_,by rw [hlen]; exact hrun.append (.single hdisc (hpadded _))⟩,h.held⟩
    | failed c =>
      simp only [hstage] at h
      rw [State.known, hstage] at hknown
      have hfail := (young_fails h.young hknown hp).1 h.freed
      simp at hfail
    | ready =>
      simp only [hstage] at h
      obtain ⟨hmutex,hcond,bs,hrun⟩ := h
      simp only [Invariant]
      exact ⟨hmutex,hcond,_,hrun.append (.single hg hp)⟩

/-- Whichever calls fail, and whatever the workers do that are there before the
others: a pool that is returned is one that `threads` workers reach, no worker
faults before it is returned, and a pool that is not returned is freed under the
workers created so far, each of which then dereferences it. -/
theorem pool_started (threads : ℕ) (maxQueue : ℤ) (as : List (Action κ)) (s : State κ)
    (hr : (machine κ).Run Careful (State.start threads maxQueue) as s) :
    (s.stage = .ready → s.held .mutex = true ∧ s.held .cond = true ∧
      ∃ bs, (linked κ).Run (Disciplined linkedQueue)
        (PoolMachine.State.start linkedQueue threads maxQueue) bs s.pool) ∧
    (∀ c, s.stage = .calling c → ∀ act f, ¬ (machine κ).Fails s (.work act) f) ∧
    ∀ c, s.stage = .failed c → Orphaned threads c s ∧
      (∀ act t, ¬ (machine κ).Next s (.work act) t) ∧
      ∀ w < s.pool.workers.length, ∃ act, Action.worker act = some w ∧
        (machine κ).Fails s (.work act) (.pool .freedPool) := by
  have h : Invariant threads maxQueue s :=
    hr.invariant (start_invariant threads maxQueue) fun _ _ _ => next_invariant
  unfold Invariant at h
  refine ⟨fun hs => ?_,fun c hs act f hfails => ?_,fun c hs => ?_⟩
  · simpa only [hs] using h
  · simp only [hs] at h
    simp only [Machine.Fails, machine, step] at hfails
    split_ifs at hfails with hknown
    rw [State.known, hs] at hknown
    obtain ⟨r,hr,he⟩ := Option.map_eq_some_iff.mp hfails
    obtain ⟨q,rfl⟩ := (young_fails h.young hknown hr).2 (by simp [h.idle])
    simp at he
  · simp only [hs] at h
    refine ⟨h,fun act t hn => ?_,fun w hw => ?_⟩
    · obtain ⟨hknown,p,hp,-⟩ := work_next hn
      rw [State.known, hs] at hknown
      have hfail := (young_fails h.young hknown hp).1 h.freed
      simp at hfail
    · obtain ⟨act,hact,hstep⟩ := young_step h.young h.freed hw
      refine ⟨act,hact,?_⟩
      have hknown : s.known act = true := by rw [State.known, hs, hact]; rfl
      simp only [Machine.Fails, machine, step, hknown, if_true, hstep, Option.map_some]

/-- The second worker cannot be created, while the first one already waits. -/
theorem pool_started_create : ∃ s, (machine Unit).Run Careful (State.start 4 65535)
    (List.replicate 9 (.init false)++[.work (.enter 0), .init true]) s ∧
    s.pool.workers = [.waiting] ∧ Orphaned 4 (.create 1) s ∧
    ∃ act, Action.worker act = some 0 ∧ (machine Unit).Fails s (.work act) (.pool .freedPool) := by
  obtain ⟨s,hs,hworkers,hstage⟩ : ∃ s, (machine Unit).Run Careful (State.start 4 65535)
      (List.replicate 9 (.init false)++[.work (.enter 0), .init true]) s ∧
      s.pool.workers = [.waiting] ∧ s.stage = .failed (.create 1) := by
    refine ⟨_,Machine.run_of_replay (fun a ha t => ?_) rfl,rfl,rfl⟩
    have hcases : a = .init false ∨ a = .work (.enter 0) ∨ a = .init true := by simpa using ha
    rcases hcases with rfl | rfl | rfl <;> trivial
  obtain ⟨-,-,hfailed⟩ := pool_started _ _ _ s hs
  obtain ⟨horphaned,-,hfaults⟩ := hfailed _ hstage
  exact ⟨s,hs,hworkers,horphaned,hfaults 0 (by simp [hworkers])⟩

end Startup

end SharedBike.PoolStartup
