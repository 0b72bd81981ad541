import SharedBike.DispatchMsgService
import SharedBike.PoolShutdown

/-!
# Closing the dispatch service

The service on top of the linked pool. A worker that runs a task is inside
`svc`: it reads `svr_exit_` first, and locks `queue_mutex` last. `close` sets
the flag, shuts the pool down, and then, however that ended, destroys the
mutex and clears the subscribers. Requests are enqueued by the thread that
calls `close`, so none arrives during the call.
-/

set_option autoImplicit false

namespace SharedBike.ServiceClose
open GuardedRuns TailQueues SharedBike.Events SharedBike.DispatchMsgService
open SharedBike.PoolMachine (TaskPtr Job Point linkedQueue)
open SharedBike.PoolOwnership SharedBike.PoolRefinement SharedBike.PoolShutdown
open SharedBike.ThreadPool (defaultThreadsNum defaultQueueNum)

/-- Where a worker that runs a task is in `svc`. -/
inductive SvcPoint where
  | entry
  | checked
  | answered (rsp : IEvent)
  | returned
  deriving DecidableEq, Repr

inductive Phase where
  | opened
  | closing
  | closed
  deriving DecidableEq, Repr

inductive Fault where
  | pool (f : PoolMachine.Fault)
  | destroyedMutex
  deriving DecidableEq, Repr

structure State where
  pool : PoolMachine.State (TailQueue TaskPtr) IEvent
  svc : ℕ → SvcPoint
  svrExit : Bool
  queueMutex : Bool
  subscribers : EventHandlersMap
  responseEvents : List IEvent
  phase : Phase

def State.start (subscribers : EventHandlersMap) (threads : ℕ) (maxQueue : ℤ) : State where
  pool := PoolMachine.State.start linkedQueue threads maxQueue
  svc := fun _ => .entry
  svrExit := false
  queueMutex := true
  subscribers := subscribers
  responseEvents := []
  phase := .opened

inductive Action where
  | enqueue (n : ℕ) (ev : IEvent) (woken : List ℕ)
  | enter (w : ℕ)
  | spurious (w : ℕ)
  | recheck (w : ℕ)
  | svcCheck (w : ℕ)
  | svcProcess (w : ℕ) (answer : Handler → Option IEvent)
  | svcPush (w : ℕ)
  | finish (w : ℕ)
  | exit (w : ℕ)
  | close
  | destroyPost (woken : List ℕ)
  | destroyNext
  | closeReturn

def State.onPool (s : State) (act : PoolMachine.Action IEvent) : Option (Except Fault State) :=
  match PoolMachine.step linkedQueue s.pool act with
  | none => none
  | some (.error f) => some (.error (.pool f))
  | some (.ok p) => some (.ok { s with pool := p })

/-- The event that a worker handles, if its task runs `svc`. -/
def State.handled (s : State) (w : ℕ) : Option IEvent :=
  match s.pool.workers[w]? with
  | some (.running t) => match s.pool.tasks t with
    | some ⟨_, .work ev⟩ => some ev
    | _ => none
  | _ => none

def State.setSvc (s : State) (w : ℕ) (p : SvcPoint) : State :=
  { s with svc := Function.update s.svc w p }

def step (s : State) : Action → Option (Except Fault State)
  | .enqueue n ev woken =>
    if s.phase = .opened then match s.onPool (.alloc n ev) with
      | some (.ok u) => u.onPool (.post n woken)
      | r => r
    else none
  | .enter w => s.onPool (.enter w)
  | .spurious w => s.onPool (.spurious w)
  | .recheck w => s.onPool (.recheck w)
  | .svcCheck w => match s.handled w, s.svc w with
    | some _, .entry => some (.ok (s.setSvc w (if s.svrExit then .returned else .checked)))
    | _, _ => none
  | .svcProcess w answer => match s.handled w, s.svc w with
    | some ev, .checked => (svc false s.subscribers answer ev).map fun rsp =>
        .ok (s.setSvc w (.answered rsp))
    | _, _ => none
  | .svcPush w => match s.handled w, s.svc w with
    | some _, .answered rsp =>
      if s.queueMutex then some (.ok { s.setSvc w .returned with
        responseEvents := s.responseEvents++[rsp] })
      else some (.error .destroyedMutex)
    | _, _ => none
  | .finish w => match s.svc w with
    | .returned => (s.setSvc w .entry).onPool (.finish w)
    | _ => none
  | .exit w => s.onPool (.exit w)
  | .close =>
    if s.phase = .opened then
      State.onPool { s with svrExit := true, phase := .closing } .destroy
    else none
  | .destroyPost woken => if s.phase = .closing then s.onPool (.destroyPost woken) else none
  | .destroyNext => if s.phase = .closing then s.onPool .destroyNext else none
  | .closeReturn =>
    if s.phase = .closing ∧ (s.pool.destroyer = .refused ∨ s.pool.destroyer = .done) then
      some (.ok { s with queueMutex := false, subscribers := fun _ => none, phase := .closed })
    else none

def machine : Machine State Action Fault := ⟨step⟩

def Action.worker : Action → Option ℕ
  | .enter w | .spurious w | .recheck w | .svcCheck w | .svcProcess w _ | .svcPush w
  | .finish w | .exit w => some w
  | _ => none

/-- A step on the pool goes through exactly if the pool's own step does. -/
theorem on_pool_ok {s u : State} {act : PoolMachine.Action IEvent} :
    s.onPool act = some (.ok u) ↔
      ∃ p, (PoolMachine.linked IEvent).Next s.pool act p ∧ u = { s with pool := p } := by
  constructor
  · intro h
    unfold State.onPool at h
    split at h
    · simp at h
    · simp at h
    · rename_i p hp
      exact ⟨p,hp,(Except.ok.inj (Option.some.inj h)).symm⟩
  · rintro ⟨p,hp,rfl⟩
    unfold State.onPool
    rw [show PoolMachine.step linkedQueue s.pool act = some (.ok p) from hp]

/-- What one step of the service does to its pool and to its phase. -/
inductive ServiceStep (s : State) : Action → State → Prop
  | enqueue {n : ℕ} {ev : IEvent} {woken : List ℕ}
      {p q : PoolMachine.State (TailQueue TaskPtr) IEvent} (opened : s.phase = .opened)
      (alloc : (PoolMachine.linked IEvent).Next s.pool (.alloc n ev) p)
      (post : (PoolMachine.linked IEvent).Next p (.post n woken) q) :
      ServiceStep s (.enqueue n ev woken) { s with pool := q }
  | worker {w : ℕ} {act : Action} {a : PoolMachine.Action IEvent} {svc : ℕ → SvcPoint}
      {p : PoolMachine.State (TailQueue TaskPtr) IEvent} (own : act.worker = some w)
      (pool : PoolShutdown.Action.worker a = some w)
      (next : (PoolMachine.linked IEvent).Next s.pool a p) :
      ServiceStep s act { s with pool := p, svc := svc }
  | handler {w : ℕ} {act : Action} {svc : ℕ → SvcPoint} {responses : List IEvent}
      (own : act.worker = some w) (handling : s.handled w ≠ none) :
      ServiceStep s act { s with svc := svc, responseEvents := responses }
  | close {p : PoolMachine.State (TailQueue TaskPtr) IEvent} (opened : s.phase = .opened)
      (next : (PoolMachine.linked IEvent).Next s.pool .destroy p) :
      ServiceStep s .close { s with svrExit := true, phase := .closing, pool := p }
  | destroyPost {woken : List ℕ} {p : PoolMachine.State (TailQueue TaskPtr) IEvent}
      (closing : s.phase = .closing)
      (next : (PoolMachine.linked IEvent).Next s.pool (.destroyPost woken) p) :
      ServiceStep s (.destroyPost woken) { s with pool := p }
  | destroyNext {p : PoolMachine.State (TailQueue TaskPtr) IEvent} (closing : s.phase = .closing)
      (next : (PoolMachine.linked IEvent).Next s.pool .destroyNext p) :
      ServiceStep s .destroyNext { s with pool := p }
  | closeReturn (closing : s.phase = .closing)
      (ended : s.pool.destroyer = .refused ∨ s.pool.destroyer = .done) :
      ServiceStep s .closeReturn
        { s with queueMutex := false, subscribers := fun _ => none, phase := .closed }

theorem next_service {s s' : State} {act : Action} (hn : machine.Next s act s') :
    ServiceStep s act s' := by
  cases act with
  | enqueue n ev woken =>
    simp only [Machine.Next, machine, step] at hn
    split_ifs at hn with ho
    split at hn
    · rename_i u hu
      obtain ⟨p,hp,rfl⟩ := on_pool_ok.mp hu
      obtain ⟨q,hq,rfl⟩ := on_pool_ok.mp hn
      exact .enqueue ho hp hq
    · rename_i hno
      exact absurd hn (hno s')
  | enter w =>
    obtain ⟨p,hp,rfl⟩ := on_pool_ok.mp hn
    exact .worker rfl rfl hp
  | spurious w =>
    obtain ⟨p,hp,rfl⟩ := on_pool_ok.mp hn
    exact .worker rfl rfl hp
  | recheck w =>
    obtain ⟨p,hp,rfl⟩ := on_pool_ok.mp hn
    exact .worker rfl rfl hp
  | svcCheck w =>
    simp only [Machine.Next, machine, step] at hn
    split at hn
    · rename_i hh _
      obtain rfl := Except.ok.inj (Option.some.inj hn)
      exact .handler rfl (by simp [hh])
    · simp at hn
  | svcProcess w answer =>
    simp only [Machine.Next, machine, step] at hn
    split at hn
    · rename_i hh _
      obtain ⟨rsp,-,he⟩ := Option.map_eq_some_iff.mp hn
      obtain rfl := Except.ok.inj he
      exact .handler rfl (by simp [hh])
    · simp at hn
  | svcPush w =>
    simp only [Machine.Next, machine, step] at hn
    split at hn
    · rename_i hh _
      split_ifs at hn
      · obtain rfl := Except.ok.inj (Option.some.inj hn)
        exact .handler rfl (by simp [hh])
      · simp at hn
    · simp at hn
  | finish w =>
    simp only [Machine.Next, machine, step] at hn
    split at hn
    · obtain ⟨p,hp,rfl⟩ := on_pool_ok.mp hn
      exact .worker rfl rfl hp
    · simp at hn
  | exit w =>
    obtain ⟨p,hp,rfl⟩ := on_pool_ok.mp hn
    exact .worker rfl rfl hp
  | close =>
    simp only [Machine.Next, machine, step] at hn
    split_ifs at hn with ho
    obtain ⟨p,hp,rfl⟩ := on_pool_ok.mp hn
    exact .close ho hp
  | destroyPost woken =>
    simp only [Machine.Next, machine, step] at hn
    split_ifs at hn with hc
    obtain ⟨p,hp,rfl⟩ := on_pool_ok.mp hn
    exact .destroyPost hc hp
  | destroyNext =>
    simp only [Machine.Next, machine, step] at hn
    split_ifs at hn with hc
    obtain ⟨p,hp,rfl⟩ := on_pool_ok.mp hn
    exact .destroyNext hc hp
  | closeReturn =>
    simp only [Machine.Next, machine, step] at hn
    split_ifs at hn with hc
    obtain rfl := Except.ok.inj (Option.some.inj hn)
    exact .closeReturn hc.1 hc.2

theorem worker_destroyer {p q : PoolMachine.State (TailQueue TaskPtr) IEvent} {w : ℕ}
    {a : PoolMachine.Action IEvent} (hn : (PoolMachine.linked IEvent).Next p a q)
    (hw : PoolShutdown.Action.worker a = some w) : q.destroyer = p.destroyer := by
  apply PoolSteps.destroyer_still hn
  · rintro rfl
    simp [PoolShutdown.Action.worker] at hw
  · rintro woken rfl
    simp [PoolShutdown.Action.worker] at hw
  · rintro rfl
    simp [PoolShutdown.Action.worker] at hw

theorem orderly_other {p : PoolMachine.State (TailQueue TaskPtr) IEvent}
    {a : PoolMachine.Action IEvent} (h : ∀ n woken, a ≠ .post n woken) :
    Orderly linkedQueue p a := by
  refine ⟨?_,fun n woken he => absurd he (h n woken)⟩
  cases a with
  | post n woken => exact absurd rfl (h n woken)
  | _ => trivial

/-- The pool of the service has run in an orderly way. -/
structure Reached (threads : ℕ) (maxQueue : ℤ) (s : State) : Prop where
  run : ∃ bs, (PoolMachine.linked IEvent).Run (Orderly linkedQueue)
    (PoolMachine.State.start linkedQueue threads maxQueue) bs s.pool
  idle : s.phase = .opened → s.pool.destroyer = .idle
  ended : s.phase = .closed → s.pool.destroyer = .refused ∨ s.pool.destroyer = .done

theorem start_reached (subscribers : EventHandlersMap) (threads : ℕ) (maxQueue : ℤ) :
    Reached threads maxQueue (State.start subscribers threads maxQueue) :=
  ⟨⟨[],.nil⟩,fun _ => rfl,fun h => by simp [State.start] at h⟩

/-- A node that was just allocated is not in the pool yet. -/
theorem fresh_disciplined {threads : ℕ} {maxQueue : ℤ} {s : State} {n : ℕ} {ev : IEvent}
    {woken : List ℕ} {p : PoolMachine.State (TailQueue TaskPtr) IEvent}
    (h : Reached threads maxQueue s)
    (alloc : (PoolMachine.linked IEvent).Next s.pool (.alloc n ev) p) :
    Disciplined linkedQueue p (.post n woken) := by
  obtain ⟨bs,hrun⟩ := h.run
  obtain ⟨l,hrep,hshut,-⟩ := run_shutting hrun
  obtain ⟨hfresh,rfl⟩ := PoolSteps.next_alloc.mp alloc
  have hnot : TaskPtr.heap n ∉ owned (atList s.pool l) := fun hm =>
    hfresh (hshut.owned.live _ hm)
  obtain ⟨hlinked,hheld⟩ := not_or.mp (fun hor => hnot (mem_owned.mpr hor))
  constructor
  · intro hm
    exact hlinked ((TailQueue.represents_clear hrep hlinked).linked.mp hm)
  · exact hheld

theorem step_reached {threads : ℕ} {maxQueue : ℤ} {s s' : State} {act : Action}
    (hs : ServiceStep s act s') (h : Reached threads maxQueue s) :
    Reached threads maxQueue s' := by
  obtain ⟨bs,hrun⟩ := h.run
  cases hs with
  | @enqueue n ev woken p q opened alloc post =>
    have hp : p.destroyer = .idle :=
      (PoolSteps.destroyer_still alloc (by simp) (by simp) (by simp)).trans (h.idle opened)
    have hq : q.destroyer = .idle :=
      (PoolSteps.destroyer_still post (by simp) (by simp) (by simp)).trans hp
    refine ⟨⟨bs++[.alloc n ev]++[.post n woken],?_⟩,fun _ => hq,fun hc => ?_⟩
    · exact .snoc (.snoc hrun (orderly_other (by simp)) alloc)
        ⟨fresh_disciplined h alloc,fun _ _ _ => hp⟩ post
    · have hc' : s.phase = .closed := hc
      simp [opened] at hc'
  | @worker w act a svc p own pool next =>
    have hd := worker_destroyer next pool
    refine ⟨⟨bs++[a],.snoc hrun (orderly_other ?_) next⟩,fun ho => ?_,fun hc => ?_⟩
    · rintro n woken rfl
      simp [PoolShutdown.Action.worker] at pool
    · exact hd.trans (h.idle ho)
    · show p.destroyer = .refused ∨ p.destroyer = .done
      rw [hd]
      exact h.ended hc
  | handler own handling => exact ⟨h.run,h.idle,h.ended⟩
  | close opened next =>
    exact ⟨⟨bs++[.destroy],.snoc hrun (orderly_other (by simp)) next⟩,
      fun ho => by simp at ho,fun hc => by simp at hc⟩
  | @destroyPost woken p closing next =>
    refine ⟨⟨bs++[.destroyPost woken],.snoc hrun (orderly_other (by simp)) next⟩,fun ho => ?_,
      fun hc => ?_⟩
    · have ho' : s.phase = .opened := ho
      simp [closing] at ho'
    · have hc' : s.phase = .closed := hc
      simp [closing] at hc'
  | @destroyNext p closing next =>
    refine ⟨⟨bs++[.destroyNext],.snoc hrun (orderly_other (by simp)) next⟩,fun ho => ?_,
      fun hc => ?_⟩
    · have ho' : s.phase = .opened := ho
      simp [closing] at ho'
    · have hc' : s.phase = .closed := hc
      simp [closing] at hc'
  | closeReturn closing ended => exact ⟨h.run,fun ho => by simp at ho,fun _ => ended⟩

theorem run_reached {G : State → Action → Prop} {subscribers : EventHandlersMap} {threads : ℕ}
    {maxQueue : ℤ} {as : List Action} {s : State}
    (hr : machine.Run G (State.start subscribers threads maxQueue) as s) :
    Reached threads maxQueue s :=
  hr.invariant (start_reached subscribers threads maxQueue)
    fun _ _ _ h _ hn => step_reached (next_service hn) h

/-- An exit post that meets the limit. -/
def Refused (s : State) (act : Action) : Prop :=
  ∃ woken, act = .destroyPost woken ∧ s.pool.maxQueue ≤ s.pool.waiting

theorem step_refused {s s' : State} {act : Action} (hs : ServiceStep s act s') :
    s'.pool.destroyer = .refused ↔ s.pool.destroyer = .refused ∨ Refused s act := by
  have hother : ∀ {p q : PoolMachine.State (TailQueue TaskPtr) IEvent}
      {a : PoolMachine.Action IEvent}, (PoolMachine.linked IEvent).Next p a q →
      (∀ woken, a ≠ .destroyPost woken) → (q.destroyer = .refused ↔ p.destroyer = .refused) := by
    intro p q a hn hne
    rw [PoolSteps.next_refused hn, or_iff_left]
    rintro ⟨woken,rfl,-⟩
    exact hne woken rfl
  have hleft : (∀ woken, act ≠ .destroyPost woken) →
      (s.pool.destroyer = .refused ∨ Refused s act ↔ s.pool.destroyer = .refused) := by
    intro hne
    rw [or_iff_left]
    rintro ⟨woken,rfl,-⟩
    exact hne woken rfl
  cases hs with
  | enqueue opened alloc post =>
    rw [hleft (by simp)]
    exact (hother post (by simp)).trans (hother alloc (by simp))
  | @worker w act a svc p own pool next =>
    rw [hleft (by rintro woken rfl; simp [Action.worker] at own)]
    exact hother next (by rintro woken rfl; simp [PoolShutdown.Action.worker] at pool)
  | handler own handling =>
    rw [hleft (by rintro woken rfl; simp [Action.worker] at own)]
  | close opened next => rw [hleft (by simp)]; exact hother next (by simp)
  | @destroyPost woken p closing next =>
    refine (PoolSteps.next_refused next).trans (or_congr_right ?_)
    constructor
    · rintro ⟨-,-,hfull⟩
      exact ⟨woken,rfl,hfull⟩
    · rintro ⟨-,-,hfull⟩
      exact ⟨woken,rfl,hfull⟩
  | destroyNext closing next => rw [hleft (by simp)]; exact hother next (by simp)
  | closeReturn closing ended => rw [hleft (by simp)]

/-- The shutdown was refused exactly if some exit post of the run met the limit. -/
theorem run_refused {subscribers : EventHandlersMap} {threads : ℕ} {maxQueue : ℤ}
    {as : List Action} {s : State}
    (hr : machine.Run Machine.Free (State.start subscribers threads maxQueue) as s) :
    s.pool.destroyer = .refused ↔ ∃ bs act t, bs++[act] <+: as ∧
      machine.Run Machine.Free (State.start subscribers threads maxQueue) bs t ∧
      Refused t act := by
  induction hr with
  | nil =>
    apply iff_of_false
    · simp [State.start, PoolMachine.State.start]
    · rintro ⟨bs,act,t,hb,-⟩
      simp at hb
  | @snoc t u as a hrun hg hn ih =>
    rw [step_refused (next_service hn), ih]
    constructor
    · rintro (⟨bs,act,v,hb,hv,hact⟩ | hact)
      · exact ⟨bs,act,v,hb.trans (List.prefix_append _ _),hv,hact⟩
      · exact ⟨as,a,t,List.prefix_rfl,hrun,hact⟩
    · rintro ⟨bs,act,v,hb,hv,hact⟩
      rcases List.prefix_concat_iff.mp hb with he | hb
      · obtain ⟨rfl,hact'⟩ := List.append_inj' he rfl
        obtain rfl := List.singleton_inj.mp hact'
        obtain rfl := hv.unique hrun
        exact Or.inr hact
      · exact Or.inl ⟨bs,act,v,hb,hv,hact⟩

/-- Every worker has taken its exit task, and no worker ever moves again. -/
def LeavesNoWorker (s : State) : Prop :=
  (∀ w < s.pool.workers.length, s.pool.picked.count (w, .stack) = 1) ∧
    ∀ bs t, machine.Run Machine.Free s bs t → ∀ w act, Action.worker act = some w →
      machine.step t act = none

theorem on_pool_none {s : State} {a : PoolMachine.Action IEvent}
    (h : (PoolMachine.linked IEvent).step s.pool a = none) : s.onPool a = none := by
  unfold State.onPool
  rw [show PoolMachine.step linkedQueue s.pool a = none from h]

theorem gone_handles {s : State} (h : ∀ p ∈ s.pool.workers, p = .gone) (w : ℕ) :
    s.handled w = none := by
  unfold State.handled
  cases hp : s.pool.workers[w]? with
  | none => rfl
  | some p =>
    obtain rfl := h p (List.mem_of_getElem? hp)
    rfl

theorem gone_still {s : State} (h : ∀ p ∈ s.pool.workers, p = .gone) {w : ℕ} {act : Action}
    (hw : act.worker = some w) : machine.step s act = none := by
  have hpool : ∀ a, PoolShutdown.Action.worker a = some w → s.onPool a = none :=
    fun a ha => on_pool_none (gone_untouched h ha)
  cases act with
  | enter v => obtain rfl := Option.some.inj hw; exact hpool (.enter v) rfl
  | spurious v => obtain rfl := Option.some.inj hw; exact hpool (.spurious v) rfl
  | recheck v => obtain rfl := Option.some.inj hw; exact hpool (.recheck v) rfl
  | exit v => obtain rfl := Option.some.inj hw; exact hpool (.exit v) rfl
  | svcCheck v => simp [machine, step, gone_handles h]
  | svcProcess v answer => simp [machine, step, gone_handles h]
  | svcPush v => simp [machine, step, gone_handles h]
  | finish v =>
    obtain rfl := Option.some.inj hw
    simp only [machine, step]
    split
    · exact on_pool_none (@gone_untouched IEvent s.pool h v (.finish v) rfl)
    · rfl
  | _ => simp [Action.worker] at hw

/-- Once closed with all workers gone, the service does nothing any more. -/
theorem closed_stuck {s s' : State} {act : Action} (hc : s.phase = .closed)
    (h : ∀ p ∈ s.pool.workers, p = .gone) : ¬ machine.Next s act s' := by
  intro hn
  have hs := next_service hn
  cases hs with
  | enqueue opened alloc post => simp [hc] at opened
  | worker own pool next =>
    rw [Machine.Next, gone_still h own] at hn
    simp at hn
  | handler own handling => exact handling (gone_handles h _)
  | close opened next => simp [hc] at opened
  | destroyPost closing next => simp [hc] at closing
  | destroyNext closing next => simp [hc] at closing
  | closeReturn closing ended => simp [hc] at closing

theorem done_leaves_none {threads : ℕ} {maxQueue : ℤ} {s : State}
    (h : Reached threads maxQueue s) (hc : s.phase = .closed)
    (hd : s.pool.destroyer = .done) : LeavesNoWorker s := by
  obtain ⟨bs,hrun⟩ := h.run
  have hshut := (orderly_shutdown threads maxQueue bs s.pool hrun).2.2 hd
  refine ⟨hshut.exits,fun cs t hr w act hw => ?_⟩
  have hsame : s = t := by
    apply hr.invariant rfl
    rintro u act v rfl - hn
    exact absurd hn (closed_stuck hc hshut.gone)
  rw [← hsame]
  exact gone_still hshut.gone hw

/-- A refused shutdown returns before every worker has its exit task. -/
theorem refused_leaves_some {threads : ℕ} {maxQueue : ℤ} {s : State}
    (h : Reached threads maxQueue s) (hd : s.pool.destroyer = .refused) :
    ¬ ∀ w < s.pool.workers.length, s.pool.picked.count (w, .stack) = 1 := by
  intro hall
  obtain ⟨bs,hrun⟩ := h.run
  obtain ⟨l,hrep,hshut,-⟩ := run_shutting hrun
  have hr := hshut.rounds
  rw [show (atList s.pool l).destroyer = .refused from hd] at hr
  apply (Nat.ne_of_lt hr)
  apply List.count_eq_length.mpr
  intro p hp
  obtain ⟨w,hw,rfl⟩ := List.getElem_of_mem hp
  have hex := hshut.exits w
  rw [show (atList s.pool l).picked.count (w, .stack) = 1 from hall w hw] at hex
  split_ifs at hex with hat
  rcases hat with hat | hat
  · exact (Option.some.inj ((List.getElem?_eq_getElem hw).symm.trans hat)).symm
  · -- no round spins, so nobody holds the node
    obtain ⟨n,hn,-⟩ := hshut.owned.stack_owned.mp (running_owned hat)
    simp [show (atList s.pool l).destroyer = .refused from hd] at hn

/-- When `close` has returned, no worker is left if and only if every exit
task that the shutdown posted found the queue below its limit. -/
theorem leaves_no_worker_iff (subscribers : EventHandlersMap) (threads : ℕ) (maxQueue : ℤ)
    (as : List Action) (s : State)
    (hr : machine.Run Machine.Free (State.start subscribers threads maxQueue) as s)
    (hc : s.phase = .closed) :
    LeavesNoWorker s ↔ ∀ bs woken t, bs++[.destroyPost woken] <+: as →
      machine.Run Machine.Free (State.start subscribers threads maxQueue) bs t →
      t.pool.waiting < t.pool.maxQueue := by
  have h := run_reached hr
  constructor
  · intro hl bs woken t hb ht
    by_contra hfull
    refine refused_leaves_some h ((run_refused hr).mpr ⟨bs,_,t,hb,ht,woken,rfl,?_⟩) hl.1
    exact not_lt.mp hfull
  · intro hroom
    apply done_leaves_none h hc
    apply (h.ended hc).resolve_left
    intro hd
    obtain ⟨bs,act,t,hb,ht,woken,rfl,hfull⟩ := (run_refused hr).mp hd
    exact absurd (hroom bs woken t hb ht) (not_lt.mpr hfull)

def exitRound (w : ℕ) : List Action := [.destroyPost [], .enter w, .exit w, .destroyNext]

def quietClose : List Action :=
  [.close]++exitRound 0++exitRound 1++exitRound 2++exitRound 3++[.closeReturn]

theorem leaves_no_worker_quiet : ∃ s,
    machine.Run Machine.Free (State.start (fun _ => none) defaultThreadsNum defaultQueueNum)
      quietClose s ∧
    (LeavesNoWorker s ↔ ∀ bs woken t, bs++[.destroyPost woken] <+: quietClose →
      machine.Run Machine.Free (State.start (fun _ => none) defaultThreadsNum defaultQueueNum)
        bs t → t.pool.waiting < t.pool.maxQueue) := by
  obtain ⟨s,hs,hc⟩ : ∃ s, machine.replay
      (State.start (fun _ => none) defaultThreadsNum defaultQueueNum) quietClose = some s ∧
      s.phase = .closed := ⟨_,rfl,rfl⟩
  have hrun := Machine.free_of_replay hs
  exact ⟨s,hrun,leaves_no_worker_iff _ _ _ _ s hrun hc⟩

section Filling

variable {threads : ℕ} {maxQueue : ℤ} {s : State} {n : ℕ}

def allocated (p : PoolMachine.State (TailQueue TaskPtr) IEvent) (n : ℕ) (ev : IEvent) :
    PoolMachine.State (TailQueue TaskPtr) IEvent :=
  { p with
    tasks := Function.update p.tasks (.heap n) (some ⟨0, .work ev⟩)
    queue := p.queue.clear (.heap n) }

theorem allocated_live {p : PoolMachine.State (TailQueue TaskPtr) IEvent} {t : TaskPtr}
    {ev : IEvent} (h : p.Live t) : (allocated p n ev).Live t := by
  unfold PoolMachine.State.Live allocated
  by_cases ht : t = .heap n
  · subst ht
    simp
  · exact (live_update ht _).trans h

/-- A post below the limit goes through when no worker waits. -/
theorem post_next (h : Reached threads maxQueue s) (ho : s.phase = .opened)
    (hroom : s.pool.waiting < s.pool.maxQueue) (hw : .waiting ∉ s.pool.workers) (ev : IEvent) :
    (allocated s.pool n ev).post linkedQueue (.heap n) [] =
      some (.ok (some ((allocated s.pool n ev).link linkedQueue (.heap n) []))) := by
  obtain ⟨bs,hrun⟩ := h.run
  obtain ⟨l,hrep,hshut,-⟩ := run_shutting hrun
  have hidle : (allocated s.pool n ev).destroyer = .idle := h.idle ho
  refine PoolSteps.post_iff.mpr ⟨by simp [hidle],fun hm => absurd hm hw,
    Or.inr ⟨hroom,?_,fun t ht => ?_,rfl⟩⟩
  · simp [PoolMachine.State.Live, allocated]
  · have ht' : t ∈ s.pool.queue.tail := ht
    rw [hrep.tail] at ht'
    exact allocated_live (hshut.owned.live t (mem_owned.mpr (Or.inl (List.mem_of_getLast? ht'))))

theorem enqueue_next (h : Reached threads maxQueue s) (ho : s.phase = .opened)
    (hfresh : ¬ s.pool.Live (.heap n)) (hroom : s.pool.waiting < s.pool.maxQueue)
    (hw : .waiting ∉ s.pool.workers) (ev : IEvent) :
    machine.Next s (.enqueue n ev [])
      { s with pool := (allocated s.pool n ev).link linkedQueue (.heap n) [] } := by
  have halloc : s.onPool (.alloc n ev) = some (.ok { s with pool := allocated s.pool n ev }) :=
    on_pool_ok.mpr ⟨_,PoolSteps.next_alloc.mpr ⟨hfresh,rfl⟩,rfl⟩
  have hpost : (PoolMachine.linked IEvent).Next (allocated s.pool n ev) (.post n [])
      ((allocated s.pool n ev).link linkedQueue (.heap n) []) :=
    PoolSteps.next_post.mpr ⟨_,post_next h ho hroom hw ev,rfl⟩
  show step s (.enqueue n ev []) = _
  rw [step, if_pos ho, halloc]
  exact on_pool_ok.mpr ⟨_,hpost,rfl⟩

/-- What filling the queue leaves as it is. -/
structure Filled (s u : State) (k : ℕ) : Prop where
  waiting : u.pool.waiting = s.pool.waiting+k
  maxQueue : u.pool.maxQueue = s.pool.maxQueue
  workers : u.pool.workers = s.pool.workers
  tasks : ∀ t, s.pool.Live t → u.pool.tasks t = s.pool.tasks t
  svc : u.svc = s.svc
  phase : u.phase = s.phase

/-- While every worker is busy, requests fill the queue up to its limit. -/
theorem fill (ev : IEvent) (k : ℕ) {m : ℕ} (h : Reached threads maxQueue s)
    (ho : s.phase = .opened) (hfresh : ∀ n, m ≤ n → ¬ s.pool.Live (.heap n))
    (hw : .waiting ∉ s.pool.workers) (hroom : s.pool.waiting+k ≤ s.pool.maxQueue) :
    ∃ as u, machine.Run Machine.Free s as u ∧ Filled s u k := by
  induction k generalizing s m with
  | zero => exact ⟨[],s,.nil,by simp,rfl,rfl,fun _ _ => rfl,rfl,rfl⟩
  | succ k ih =>
    have hn := enqueue_next h ho (hfresh m le_rfl) (by push_cast at hroom; omega) hw ev
    have hkeep : ∀ t, t ≠ .heap m →
        ((allocated s.pool m ev).link linkedQueue (.heap m) []).tasks t = s.pool.tasks t := by
      intro t ht
      show Function.update (Function.update _ _ _) _ _ t = _
      rw [Function.update_of_ne ht, Function.update_of_ne ht]
    obtain ⟨as,u,hrun,hu⟩ := @ih _ (m+1) (step_reached (next_service hn) h) ho
      (fun n hmn => by
        rw [PoolMachine.State.Live, hkeep _ (by simp; omega)]
        exact hfresh n (by omega)) hw
      (by
        show s.pool.waiting+1+k ≤ s.pool.maxQueue
        push_cast at hroom
        omega)
    refine ⟨_,u,.cons trivial hn hrun,?_,hu.maxQueue,hu.workers,fun t ht => ?_,hu.svc,hu.phase⟩
    · rw [hu.waiting]
      show s.pool.waiting+1+k = _
      push_cast
      omega
    · have hne : t ≠ .heap m := fun he => hfresh m le_rfl (he ▸ ht)
      have hlive : ((allocated s.pool m ev).link linkedQueue (.heap m) []).Live t := by
        rw [PoolMachine.State.Live, hkeep t hne]
        exact ht
      exact (hu.tasks t hlive).trans (hkeep t hne)

/-- At the limit the shutdown gives up on its first post, and `close` goes on. -/
theorem close_refused (h : Reached threads maxQueue s) (ho : s.phase = .opened)
    (hfull : s.pool.maxQueue ≤ s.pool.waiting) (hw : .waiting ∉ s.pool.workers)
    (hpos : 0 < s.pool.workers.length) :
    ∃ u, machine.Run Machine.Free s [.close, .destroyPost [], .closeReturn] u ∧
      u.phase = .closed ∧ u.queueMutex = false ∧ u.svc = s.svc ∧
      u.pool.workers = s.pool.workers ∧
      ∀ n, u.pool.tasks (.heap n) = s.pool.tasks (.heap n) := by
  have hidle := h.idle ho
  let p : PoolMachine.State (TailQueue TaskPtr) IEvent := { s.pool with
    tasks := Function.update s.pool.tasks .stack (some ⟨0, .exitHandler⟩)
    queue := s.pool.queue.clear .stack
    lock := true
    destroyer := .posting 0 }
  have hdestroy : (PoolMachine.linked IEvent).Next s.pool .destroy p := by
    refine PoolSteps.next_destroy.mpr ⟨hidle,?_⟩
    exact (if_pos hpos).symm
  have hpost : p.post linkedQueue .stack [] = some (.ok none) :=
    PoolSteps.post_iff.mpr ⟨by simp [p],fun hm => absurd hm hw,Or.inl ⟨hfull,rfl⟩⟩
  let t : State := { s with svrExit := true, phase := .closing, pool := p }
  let u : State := { t with pool := p.exitPosted 0 none }
  have n1 : machine.Next s .close t := by
    show step s .close = _
    rw [step, if_pos ho]
    exact on_pool_ok.mpr ⟨p,hdestroy,rfl⟩
  have n2 : machine.Next t (.destroyPost []) u := by
    show step t (.destroyPost []) = _
    rw [step, if_pos rfl]
    exact on_pool_ok.mpr ⟨_,PoolSteps.next_destroy_post.mpr ⟨0,none,rfl,hpost,rfl⟩,rfl⟩
  have n3 : machine.Next u .closeReturn
      { u with queueMutex := false, subscribers := fun _ => none, phase := .closed } := by
    show step u .closeReturn = _
    rw [step, if_pos ⟨rfl,Or.inl rfl⟩]
  refine ⟨_,.cons trivial n1 (.cons trivial n2 (.single trivial n3)),rfl,rfl,rfl,rfl,
    fun n => ?_⟩
  have hne : TaskPtr.heap n ≠ .stack := by simp
  have hp : p.tasks (.heap n) = s.pool.tasks (.heap n) := by
    simp only [p]
    exact Function.update_of_ne hne _ _
  exact (Function.update_of_ne hne none p.tasks).trans hp

end Filling

/-- Each of the four workers has taken a request and read `svr_exit_`. -/
def busy (ev : IEvent) : List Action :=
  [.enqueue 0 ev [], .enter 0, .svcCheck 0, .enqueue 1 ev [], .enter 1, .svcCheck 1,
    .enqueue 2 ev [], .enter 2, .svcCheck 2, .enqueue 3 ev [], .enter 3, .svcCheck 3]

/-- All four workers are past the check, and no other node is allocated. -/
theorem busy_served (ev : IEvent) : ∃ s,
    machine.replay (State.start (fun _ => none) defaultThreadsNum defaultQueueNum) (busy ev) =
      some s ∧ s.phase = .opened ∧
    s.pool.workers = [.running (.heap 0), .running (.heap 1), .running (.heap 2),
      .running (.heap 3)] ∧
    s.pool.waiting = 0 ∧ s.pool.maxQueue = 65535 ∧ s.svc 0 = .checked ∧
    s.pool.tasks (.heap 0) = some ⟨0, .work ev⟩ ∧
    ∀ t, t ≠ .heap 0 → t ≠ .heap 1 → t ≠ .heap 2 → t ≠ .heap 3 → s.pool.tasks t = none := by
  refine ⟨_,rfl,rfl,rfl,rfl,rfl,rfl,rfl,fun t h0 h1 h2 h3 => ?_⟩
  exact (Function.update_of_ne h3 _ _).trans ((Function.update_of_ne h3 _ _).trans
    ((Function.update_of_ne h2 _ _).trans ((Function.update_of_ne h2 _ _).trans
    ((Function.update_of_ne h1 _ _).trans ((Function.update_of_ne h1 _ _).trans
    ((Function.update_of_ne h0 _ _).trans (Function.update_of_ne h0 _ _)))))))

/-- With the default sizes: the workers are busy and the queue is at its limit
when `close` is called. It returns with all four workers alive, and the first
of them locks the destroyed mutex. -/
theorem close_leaves_workers : ∃ as s,
    machine.Run Machine.Free (State.start (fun _ => none) defaultThreadsNum defaultQueueNum) as s ∧
      s.phase = .closed ∧ ¬ LeavesNoWorker s ∧
      ∃ t, machine.Run Machine.Free s [.svcProcess 0 fun _ => none] t ∧
        machine.Fails t (.svcPush 0) .destroyedMutex := by
  obtain ⟨s,hs,ho,hworkers,hwait,hmax,hsvc,htask,hfresh⟩ := busy_served exitRspEv
  have hrun := Machine.free_of_replay hs
  have hreached := run_reached hrun
  obtain ⟨k,hk⟩ : ∃ k : ℕ, (k : ℤ) = 65535 := ⟨65535,by norm_num⟩
  obtain ⟨bs,u,hbs,hu⟩ := @fill _ _ s exitRspEv k 4 hreached ho
    (fun n hn => by
      rw [PoolMachine.State.Live, hfresh _ (by simp; omega) (by simp; omega) (by simp; omega)
        (by simp; omega)]
      simp)
    (by simp [hworkers]) (by omega)
  have hfull : u.pool.maxQueue ≤ u.pool.waiting := by
    rw [hu.maxQueue, hu.waiting]
    omega
  have huo : u.phase = .opened := hu.phase.trans ho
  have huw : u.pool.workers = [.running (.heap 0), .running (.heap 1), .running (.heap 2),
      .running (.heap 3)] := hu.workers.trans hworkers
  have hut : u.pool.tasks (.heap 0) = some ⟨0, .work exitRspEv⟩ :=
    (hu.tasks _ (by simp [PoolMachine.State.Live, htask])).trans htask
  have hus : u.svc 0 = .checked := (congrFun hu.svc 0).trans hsvc
  obtain ⟨v,hv,hvc,hvm,hvs,hvw,hvt⟩ := close_refused (run_reached (hrun.append hbs)) huo hfull
    (by simp [huw]) (by simp [huw])
  have hhandled : v.handled 0 = some exitRspEv := by
    simp [State.handled, hvw, huw, hvt, hut]
  have hprocess : machine.Next v (.svcProcess 0 fun _ => none)
      (v.setSvc 0 (.answered ((svc false v.subscribers (fun _ => none) exitRspEv).getD
        exitRspEv))) := by
    obtain ⟨rsp,hrsp⟩ := svc_open v.subscribers (fun _ => none) exitRspEv
    simp [Machine.Next, machine, step, hhandled, hvs, hus, hrsp]
  refine ⟨_,v,(hrun.append hbs).append hv,hvc,fun hl => ?_,_,.single trivial hprocess,?_⟩
  · have hnone := hl.2 [] v .nil 0 (.svcProcess 0 fun _ => none) rfl
    rw [hprocess] at hnone
    simp at hnone
  · simp [Machine.Fails, machine, step, State.setSvc, State.handled, hvw, huw, hvt, hut, hvm]

end SharedBike.ServiceClose
