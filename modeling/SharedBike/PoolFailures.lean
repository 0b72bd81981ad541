import SharedBike.PoolSafety

/-!
# The pool when its calls fail

The branches of the pool that are taken when a call of the mutex or of the
condition returns an error. A worker returns from its thread function and stays
where it stood; its point is kept, since the counter still counts it there. The
caller of a failing post gets the error answer.
-/

set_option autoImplicit false

namespace SharedBike.PoolFailures
open GuardedRuns TailQueues
open SharedBike.PoolMachine SharedBike.PoolSteps SharedBike.PoolCounting SharedBike.PoolOwnership
open SharedBike.PoolRefinement SharedBike.PoolQueue SharedBike.PoolWakeups SharedBike.PoolShutdown
open SharedBike.PoolStatements (Caller apart)
open SharedBike.ThreadPool (defaultThreadsNum defaultQueueNum)

variable {κ : Type}

/-- The workers that have returned, and whether one left the mutex locked. -/
structure State (κ : Type) where
  pool : Linked κ
  returned : List ℕ
  stuck : Bool

def State.start (threads : ℕ) (maxQueue : ℤ) : State κ :=
  ⟨PoolMachine.State.start linkedQueue threads maxQueue, [], false⟩

inductive Action (κ : Type) where
  | call (act : PoolMachine.Action κ)
  | lockFails (w : ℕ)
  | waitFails (w : ℕ)
  | unlockFails (w : ℕ)
  | postLockFails (who : Caller)
  | postSignalFails (who : Caller)

/-- A returned worker does nothing, and nobody gets a mutex that is left locked. -/
def State.free (s : State κ) (act : PoolMachine.Action κ) : Bool :=
  (!s.stuck || apart act) && (PoolShutdown.Action.worker act).all fun w => !s.returned.contains w

def State.returns (s : State κ) (w : ℕ) : Option (Except Fault (State κ)) :=
  if s.pool.destroyer = .done then some (.error .freedPool)
  else some (.ok { s with returned := w::s.returned })

/-- The answer `T_ERROR` ends the call of the destroying thread. -/
def State.refuse (s : State κ) (who : Caller) : Option (Except Fault (State κ)) :=
  if s.pool.destroyer = .done then some (.error .freedPool)
  else match who with
    | .poster _ => some (.ok s)
    | .destroyer => match s.pool.destroyer with
      | .posting n => some (.ok { s with pool := s.pool.exitPosted n none })
      | _ => none

/-- What `thread_task_post` has done to a node before it signals. -/
def numbered (p : Linked κ) (t : TaskPtr) : Linked κ :=
  { p with
    tasks := Function.update p.tasks t ((p.tasks t).map ({ · with id := p.taskId }))
    taskId := (p.taskId+1)%2^64
    queue := p.queue.clear t }

def step (s : State κ) : Action κ → Option (Except Fault (State κ))
  | .call act =>
    if s.free act then (PoolMachine.step linkedQueue s.pool act).map
      fun r => r.map fun pool => { s with pool := pool }
    else none
  | .lockFails w =>
    if s.pool.workers[w]? = some .outside ∧ w ∉ s.returned then s.returns w else none
  | .waitFails w =>
    if s.pool.workers[w]? = some .woken ∧ w ∉ s.returned ∧ s.stuck = false then s.returns w
    else none
  -- the task is off the queue when the unlock fails, and nobody runs it
  | .unlockFails w =>
    if w ∈ s.returned ∨ s.stuck = true ∨ s.pool.queue.first = none then none
    else (PoolMachine.step linkedQueue s.pool (.enter w) <|>
        PoolMachine.step linkedQueue s.pool (.recheck w)).map
      fun r => r.map fun pool => ⟨pool, w::s.returned, true⟩
  | .postLockFails who => s.refuse who
  | .postSignalFails who =>
    if s.stuck = true ∨ s.pool.maxQueue ≤ s.pool.waiting then none
    else if s.pool.Live who.task then
      ({ s with pool := numbered s.pool who.task } : State κ).refuse who
    else some (.error .freedTask)

def machine (κ : Type) : Machine (State κ) (Action κ) Fault := ⟨step⟩

/-- A node that is posted is neither linked nor with the worker that took it,
also if the post fails. -/
def Careful (s : State κ) : Action κ → Prop
  | .call act => Disciplined linkedQueue s.pool act
  | .postSignalFails (.poster n) => ¬ s.pool.queue.Linked (.heap n) ∧
      .running (.heap n) ∉ s.pool.workers
  | _ => True

/-- What a step can do: something that the pool does when nothing fails, a
worker's return, or a post that is given up. -/
inductive Failed (s : State κ) : Action κ → State κ → Prop
  | call {act : PoolMachine.Action κ} {p : Linked κ} (free : s.free act = true)
    (next : (linked κ).Next s.pool act p) : Failed s (.call act) { s with pool := p }
  | leave {act : Action κ} {w : ℕ} {x : Point} (at_ : s.pool.workers[w]? = some x)
    (stands : x = .outside ∨ x = .woken) (active : w ∉ s.returned) :
    Failed s act { s with returned := w::s.returned }
  | takeLeave {act : PoolMachine.Action κ} {w : ℕ} {p : Linked κ}
    (mover : act = .enter w ∨ act = .recheck w) (active : w ∉ s.returned)
    (some_ : s.pool.queue.first ≠ none) (next : (linked κ).Next s.pool act p) :
    Failed s (.unlockFails w) ⟨p, w::s.returned, true⟩
  | given {act : Action κ} : Failed s act s
  | refused {act : Action κ} {n : ℕ} (posting : s.pool.destroyer = .posting n) :
    Failed s act { s with pool := s.pool.exitPosted n none }
  | numbered {n : ℕ} (live : s.pool.Live (.heap n)) : Failed s (.postSignalFails (.poster n))
    { s with pool := numbered s.pool (.heap n) }
  | numberedRefused {act : Action κ} {n : ℕ} (posting : s.pool.destroyer = .posting n)
    (live : s.pool.Live .stack) :
    Failed s act { s with pool := (PoolFailures.numbered s.pool .stack).exitPosted n none }

theorem refuse_cases {s u : State κ} {who : Caller} (h : s.refuse who = some (.ok u)) :
    (∃ n, who = .poster n ∧ u = s) ∨ ∃ n, who = .destroyer ∧ s.pool.destroyer = .posting n ∧
      u = { s with pool := s.pool.exitPosted n none } := by
  unfold State.refuse at h
  split_ifs at h
  · simp at h
  · cases who with
    | poster n => exact Or.inl ⟨n,rfl,(Except.ok.inj (Option.some.inj h)).symm⟩
    | destroyer =>
      simp only at h
      split at h
      · rename_i n hn
        exact Or.inr ⟨n,rfl,hn,(Except.ok.inj (Option.some.inj h)).symm⟩
      · simp at h

theorem returns_eq {s u : State κ} {w : ℕ} (h : s.returns w = some (.ok u)) :
    u = { s with returned := w::s.returned } := by
  unfold State.returns at h
  split_ifs at h
  · simp at h
  · exact (Except.ok.inj (Option.some.inj h)).symm

theorem next_failed {s u : State κ} {act : Action κ} (hn : (machine κ).Next s act u) :
    Failed s act u := by
  simp only [Machine.Next, machine, step] at hn
  cases act with
  | call act =>
    simp only at hn
    split_ifs at hn with hf
    obtain ⟨r,hr,hx⟩ := Option.map_eq_some_iff.mp hn
    cases r with
    | error f => simp [Except.map] at hx
    | ok p =>
      obtain rfl := Except.ok.inj hx
      exact .call hf hr
  | lockFails w =>
    simp only at hn
    split_ifs at hn with h
    obtain rfl := returns_eq hn
    exact .leave h.1 (Or.inl rfl) h.2
  | waitFails w =>
    simp only at hn
    split_ifs at hn with h
    obtain rfl := returns_eq hn
    exact .leave h.1 (Or.inr rfl) h.2.1
  | unlockFails w =>
    simp only at hn
    split_ifs at hn with h
    obtain ⟨r,hr,hx⟩ := Option.map_eq_some_iff.mp hn
    cases r with
    | error f => simp [Except.map] at hx
    | ok p =>
      obtain rfl := Except.ok.inj hx
      simp only [not_or] at h
      cases he : PoolMachine.step linkedQueue s.pool (.enter w) with
      | none =>
        rw [he] at hr
        exact .takeLeave (Or.inr rfl) h.1 h.2.2 hr
      | some r =>
        rw [he] at hr
        obtain rfl := Option.some.inj hr
        exact .takeLeave (Or.inl rfl) h.1 h.2.2 he
  | postLockFails who =>
    rcases refuse_cases hn with ⟨n,-,rfl⟩ | ⟨n,-,hp,rfl⟩
    · exact .given
    · exact .refused hp
  | postSignalFails who =>
    simp only at hn
    split_ifs at hn with h hl
    · rcases refuse_cases hn with ⟨n,rfl,rfl⟩ | ⟨n,rfl,hp,rfl⟩
      · exact .numbered hl
      · exact .numberedRefused hp hl
    · simp at hn

/-- What failing calls leave intact: the queue, who holds which node, the order
of the picks, the counter and the rounds of the shutdown. -/
structure Intact (p : Linked κ) (l : List TaskPtr) : Prop where
  queue : p.queue.Represents l
  owned : Owned (atList p l)
  ordered : Ordered (atList p l)
  counted : Counted (atList p l)
  rounds : Rounds p.destroyer p.lock (gone (atList p l)) p.workers.length

theorem start_intact (threads : ℕ) (maxQueue : ℤ) :
    Intact (PoolMachine.State.start linkedQueue threads maxQueue : Linked κ) [] where
  queue := TailQueue.represents_empty
  owned := start_owned threads maxQueue
  ordered := rfl
  counted := start_counted threads maxQueue
  rounds := (start_shutting (κ := κ) threads maxQueue).rounds

theorem signal_still {workers : List Point} {w : ℕ} {x : Point} (hw : workers[w]? = some x)
    (hx : x ≠ .waiting) (woken : List ℕ) : (signal woken workers)[w]? = some x := by
  induction woken generalizing workers with
  | nil => exact hw
  | cons v woken ih =>
    rw [signal, List.foldl_cons, ← signal]
    apply ih
    rcases wake_eq workers v with h | ⟨hv,h⟩
    · rwa [h]
    · have hne : v ≠ w := by
        rintro rfl
        exact hx (Option.some.inj (hw.symm.trans hv))
      rwa [h, List.getElem?_set_ne hne]

/-- A worker that does not wait is moved by nobody else. -/
theorem step_elsewhere {s s' : Plain κ} {act : PoolMachine.Action κ} (hs : PoolStep s act s')
    {w : ℕ} {x : Point} (hw : s.workers[w]? = some x) (hx : x ≠ .waiting)
    (hact : PoolShutdown.Action.worker act ≠ some w) : s'.workers[w]? = some x := by
  have hset : ∀ {v : ℕ} {y : Point}, some v ≠ some w → (s.workers.set v y)[w]? = some x := by
    intro v y hv
    rw [List.getElem?_set_ne fun h => hv (congrArg some h)]
    exact hw
  cases hs with
  | post room signals live => exact signal_still hw hx _
  | destroyPost posting room signals live => exact signal_still hw hx _
  | enterTake at_ head => exact hset hact
  | enterWait at_ empty => exact hset hact
  | spurious at_ => exact hset hact
  | recheckTake at_ head => exact hset hact
  | recheckWait at_ empty => exact hset hact
  | finish at_ task => exact hset hact
  | exit at_ task => exact hset hact
  | destroy idle =>
    rw [(round_settings _ 0).2]
    exact hw
  | destroyNext spinning cleared =>
    rw [(round_settings s _).2]
    exact hw
  | _ => exact hw

section Steps

variable {p q : Linked κ} {l : List TaskPtr} {act : PoolMachine.Action κ} {n : ℕ}

theorem next_intact (h : Intact p l) (hg : Disciplined linkedQueue p act)
    (hn : (linked κ).Next p act q) :
    ∃ m, Intact q m ∧ PoolStep (atList p l) act (atList q m) := by
  have hg' := (disciplined_iff h.queue act).mp hg
  obtain ⟨v,hn',m,hm,rfl⟩ := next_refines h.owned ⟨l,h.queue,rfl⟩ hg' hn
  have hs := next_step hn'
  exact ⟨m,⟨hm,step_owned hs hg' h.owned,step_ordered hs h.ordered,step_counted hs h.counted,
    step_rounds hs h.owned h.rounds⟩,hs⟩

theorem exit_posted_intact (h : Intact p l) (hd : p.destroyer = .posting n) :
    Intact (p.exitPosted n none) l where
  queue := h.queue
  owned := by
    have hfree := stack_free h.owned (fun m hm => by simp [atList, hd] at hm)
    exact ended_owned h.owned.nodup h.owned.live h.owned.typed hfree rfl rfl (Or.inl rfl)
  ordered := h.ordered
  counted := h.counted
  rounds := by
    have hr := h.rounds
    rw [hd] at hr
    obtain ⟨hgone,hlt⟩ := hr
    exact hgone.trans_lt hlt

theorem numbered_intact {t : TaskPtr} (h : Intact p l) (free : t ∉ owned (atList p l)) :
    Intact (numbered p t) l where
  queue := TailQueue.represents_clear h.queue fun hm => free (mem_owned.mpr (Or.inl hm))
  owned := by
    have hlive : ∀ u, (numbered p t).Live u ↔ p.Live u := by
      intro u
      unfold PoolMachine.State.Live numbered
      by_cases hu : u = t
      · subst hu
        simp
      · simp [Function.update_of_ne hu]
    exact ⟨h.owned.nodup,fun u hu => (hlive u).mpr (h.owned.live u hu),
      typed_link h.owned.typed t _,(hlive .stack).trans h.owned.stack_live,h.owned.stack_owned,
      h.owned.armed⟩
  ordered := h.ordered
  counted := h.counted
  rounds := h.rounds

end Steps

/-- A worker that finds a task in the queue holds it. -/
theorem take_running {p q : Linked κ} {w : ℕ} {x : Point} (hw : p.workers[w]? = some x)
    (hq : p.queue.first ≠ none) (ht : p.take linkedQueue w = .ok q) :
    ∃ t, q.workers[w]? = some (.running t) := by
  obtain ⟨t,hf⟩ := Option.ne_none_iff_exists'.mp hq
  unfold PoolMachine.State.take at ht
  rw [show linkedQueue.first p.queue = some t from hf] at ht
  simp only at ht
  split_ifs at ht
  obtain rfl := Except.ok.inj ht
  exact ⟨t,List.getElem?_set_self (List.getElem?_eq_some_iff.mp hw).1⟩

/-- Where a worker can have returned. -/
def Stopped (x : Point) : Prop := x ≠ .waiting ∧ x ≠ .gone

structure Sound (threads : ℕ) (maxQueue : ℤ) (s : State κ) : Prop where
  intact : ∃ l, Intact s.pool l
  limit : s.pool.maxQueue = maxQueue
  size : s.pool.workers.length = threads
  stopped : ∀ w ∈ s.returned, ∃ x, s.pool.workers[w]? = some x ∧ Stopped x
  once : s.returned.Nodup

theorem step_sound {threads : ℕ} {maxQueue : ℤ} {s u : State κ} {act : Action κ}
    (h : Sound threads maxQueue s) (hg : Careful s act) (hn : (machine κ).Next s act u) :
    Sound threads maxQueue u := by
  obtain ⟨⟨l,hl⟩,hlimit,hsize,hstop,honce⟩ := h
  -- a step of the pool by a worker that has not returned
  have hpool : ∀ {b p}, Disciplined linkedQueue s.pool b → (linked κ).Next s.pool b p →
      (∃ m, Intact p m) ∧ p.maxQueue = maxQueue ∧ p.workers.length = threads ∧
        ∀ w x, s.pool.workers[w]? = some x → Stopped x →
          PoolShutdown.Action.worker b ≠ some w → p.workers[w]? = some x := by
    intro b p hb hnext
    obtain ⟨m,hm,hs⟩ := next_intact hl hb hnext
    obtain ⟨h1,h2⟩ := step_settings hs
    exact ⟨⟨m,hm⟩,h1.trans hlimit,h2.trans hsize,
      fun w x hw hx hne => step_elsewhere hs hw hx.1 hne⟩
  cases next_failed hn with
  | @call b p free next =>
    obtain ⟨hm,h1,h2,h3⟩ := hpool hg next
    refine ⟨hm,h1,h2,fun w hw => ?_,honce⟩
    obtain ⟨x,hx,hx'⟩ := hstop w hw
    refine ⟨x,h3 w x hx hx' fun hb => ?_,hx'⟩
    simp [State.free, hb, hw] at free
  | @leave act w x at_ stands active =>
    refine ⟨⟨l,hl⟩,hlimit,hsize,fun v hv => ?_,List.nodup_cons.mpr ⟨active,honce⟩⟩
    rcases List.mem_cons.mp hv with rfl | hv
    · refine ⟨x,at_,?_⟩
      rcases stands with rfl | rfl <;> simp [Stopped]
    · exact hstop v hv
  | @takeLeave b w p mover active some_ next =>
    have hb : Disciplined linkedQueue s.pool b := by
      rcases mover with rfl | rfl <;> trivial
    have hw : PoolShutdown.Action.worker b = some w := by
      rcases mover with rfl | rfl <;> rfl
    obtain ⟨hm,h1,h2,h3⟩ := hpool hb next
    refine ⟨hm,h1,h2,fun v hv => ?_,List.nodup_cons.mpr ⟨active,honce⟩⟩
    rcases List.mem_cons.mp hv with rfl | hv
    · have hrun : ∃ t, p.workers[v]? = some (.running t) := by
        rcases mover with rfl | rfl
        · obtain ⟨hat,-,ht⟩ := next_enter.mp next
          exact @take_running _ { s.pool with waiting := s.pool.waiting-1 } p v _ hat some_ ht
        · obtain ⟨hat,-,ht⟩ := next_recheck.mp next
          exact take_running hat some_ ht
      obtain ⟨t,ht⟩ := hrun
      exact ⟨_,ht,by simp [Stopped]⟩
    · obtain ⟨x,hx,hx'⟩ := hstop v hv
      refine ⟨x,h3 v x hx hx' fun hvb => ?_,hx'⟩
      obtain rfl := Option.some.inj (hw.symm.trans hvb)
      exact active hv
  | given => exact ⟨⟨l,hl⟩,hlimit,hsize,hstop,honce⟩
  | refused posting => exact ⟨⟨l,exit_posted_intact hl posting⟩,hlimit,hsize,hstop,honce⟩
  | @numbered n live =>
    refine ⟨⟨l,numbered_intact hl fun hm => ?_⟩,hlimit,hsize,hstop,honce⟩
    rcases mem_owned.mp hm with hm | hm
    · exact hg.1 (hl.queue.linked.mpr hm)
    · exact hg.2 hm
  | @numberedRefused act n posting live =>
    have hfree := stack_free hl.owned (fun m hm => by simp [atList, posting] at hm)
    exact ⟨⟨l,exit_posted_intact (numbered_intact hl hfree) posting⟩,hlimit,hsize,hstop,honce⟩

/-- The woken workers that are still there. -/
def ready (s : State κ) : ℕ :=
  (List.range s.pool.workers.length).countP fun w =>
    !s.returned.contains w && decide (s.pool.workers[w]? = some .woken)

/-- The workers that returned from a failing wait. -/
def failedWaits (s : State κ) : ℕ :=
  s.returned.countP fun w => decide (s.pool.workers[w]? = some .woken)

theorem count_range (workers : List Point) (x : Point) :
    workers.count x =
      (List.range workers.length).countP fun w => decide (workers[w]? = some x) := by
  induction workers using List.reverseRecOn with
  | nil => rfl
  | append_singleton workers y ih =>
    rw [List.count_append, ih, List.length_append, List.length_singleton, List.range_succ,
      List.countP_append]
    congr 1
    · apply List.countP_congr
      intro w hw
      rw [List.getElem?_append_left (List.mem_range.mp hw)]
    · rw [List.count_singleton, List.countP_singleton]
      simp

theorem woken_le (s : State κ) :
    s.pool.workers.count .woken ≤ ready s+failedWaits s := by
  have hlost : ((List.range s.pool.workers.length).filter fun w =>
      s.returned.contains w && decide (s.pool.workers[w]? = some .woken)).length ≤
      failedWaits s := by
    rw [failedWaits, List.countP_eq_length_filter]
    refine ((List.nodup_range.filter _).subperm fun w hw => ?_).length_le
    simp only [List.mem_filter, Bool.and_eq_true, List.contains_iff_mem] at hw ⊢
    exact hw.2
  rw [count_range, List.countP_eq_countP_filter_add _ _ fun w => s.returned.contains w]
  rw [List.countP_filter, List.countP_filter, Nat.add_comm]
  refine Nat.add_le_add (le_of_eq ?_) (le_trans (le_of_eq ?_) hlost)
  · exact List.countP_congr fun w _ => by simp [Bool.and_comm]
  · rw [List.countP_eq_length_filter]
    exact congrArg List.length (List.filter_congr fun w _ => by simp [Bool.and_comm])

/-- With any pattern of failing calls, the queue is a FIFO and the counter and
its limits mean what they mean without failures, where a worker that returned
from a failing wait is counted as parked for good. Each such worker can leave
one queued task without a wake-up. A shutdown in which any worker was lost
never comes to its end. -/
theorem failing_calls (threads : ℕ) (maxQueue : ℤ) (h0 : 0 ≤ maxQueue) (as : List (Action κ))
    (s : State κ) (hr : (machine κ).Run Careful (State.start threads maxQueue) as s) :
    (∃ l, s.pool.queue.Represents l ∧ s.pool.posted = s.pool.picked.map Prod.snd++l ∧
      Admission linkedQueue threads maxQueue s.pool l.length ∧
      (.waiting ∈ s.pool.workers → l.length ≤ ready s+failedWaits s)) ∧
    (s.pool.destroyer = .done → s.returned = []) := by
  have hs : Sound threads maxQueue s := by
    refine hr.invariant ?_ fun _ _ _ => step_sound
    exact ⟨⟨[],start_intact threads maxQueue⟩,rfl,List.length_replicate,by simp [State.start],
      List.nodup_nil⟩
  obtain ⟨⟨l,hl⟩,hlimit,hsize,hstop,-⟩ := hs
  refine ⟨⟨l,hl.queue,hl.ordered,?_,fun hw => ?_⟩,fun hd => ?_⟩
  · rw [← hsize]
    exact admission linkedQueue h0 hlimit hl.counted
  · exact ((counted_wakeup hl.counted).1 hw).trans (woken_le s)
  · refine List.eq_nil_iff_forall_not_mem.mpr fun w hw => ?_
    obtain ⟨x,hx,-,hgone⟩ := hstop w hw
    have hrounds := hl.rounds
    rw [hd] at hrounds
    exact hgone (List.count_eq_length.mp hrounds x (List.mem_of_getElem? hx)).symm

/-- Two workers wait, a post wakes one, and its wait fails: the task stays
queued while the other one sleeps and nobody is woken. -/
theorem failing_calls_wait : ∃ s, (machine Unit).Run Careful
    (State.start defaultThreadsNum defaultQueueNum)
    [.call (.enter 0), .call (.enter 1), .call (.alloc 1 ()), .call (.post 1 [0]),
      .waitFails 0] s ∧
    s.pool.queue.first = some (.heap 1) ∧ .waiting ∈ s.pool.workers ∧ ready s = 0 ∧
    ∃ l, s.pool.queue.Represents l ∧ l.length ≤ ready s+failedWaits s := by
  obtain ⟨s,hs,hfirst,hw,hready⟩ : ∃ s, (machine Unit).Run Careful
      (State.start defaultThreadsNum defaultQueueNum)
      [.call (.enter 0), .call (.enter 1), .call (.alloc 1 ()), .call (.post 1 [0]),
        .waitFails 0] s ∧
      s.pool.queue.first = some (.heap 1) ∧ .waiting ∈ s.pool.workers ∧ ready s = 0 := by
    refine ⟨_,.cons trivial rfl (.cons trivial rfl (.cons trivial rfl (.cons ⟨?_,by decide⟩ rfl
      (.cons trivial rfl .nil)))),rfl,by decide,by decide⟩
    exact (@reach_iff _ _ _ _ [] rfl).not.mpr (by decide)
  obtain ⟨⟨l,hrep,-,-,hle⟩,-⟩ := failing_calls _ _ (by decide) _ s hs
  exact ⟨s,hs,hfirst,hw,hready,l,hrep,hle hw⟩

end SharedBike.PoolFailures
