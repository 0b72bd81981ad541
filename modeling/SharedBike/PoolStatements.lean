import SharedBike.PoolRefinement
import SharedBike.Library.CriticalSections

/-!
# The pool statement by statement

The two functions that work under the pool mutex, `thread_task_post` and the
head of `thread_pool_cycle`, as single statements. The thread that holds the
mutex stands at one of the points below; everything that the other threads do
without the mutex may come between any two of its statements.
-/

set_option autoImplicit false

namespace SharedBike.PoolStatements
open GuardedRuns TailQueues CriticalSections
open SharedBike.PoolMachine SharedBike.PoolOwnership SharedBike.PoolRefinement

variable {κ : Type}

/-- Who is inside `thread_task_post`, with the node that it posts. -/
inductive Caller where
  | poster (n : ℕ)
  | destroyer
  deriving DecidableEq, Repr

def Caller.task : Caller → TaskPtr
  | .poster n => .heap n
  | .destroyer => .stack

/-- The points of the thread that holds the mutex, each named by the statement
that comes next. The list of woken workers is a ghost. -/
inductive Inside where
  | testFull (who : Caller)
  | setId (who : Caller)
  | clearNext (who : Caller)
  | condSignal (who : Caller)
  | storeTail (who : Caller) (woken : List ℕ)
  | moveTail (who : Caller) (woken : List ℕ)
  | count (who : Caller) (woken : List ℕ)
  | unlockPost (who : Caller) (posted : Option (List ℕ))
  | uncount (w : ℕ)
  | testEmpty (w : ℕ)
  | readFirst (w : ℕ)
  | moveFirst (w : ℕ) (t : TaskPtr)
  | resetTail (w : ℕ) (t : TaskPtr)
  | unlockCycle (w : ℕ) (t : TaskPtr)
  deriving DecidableEq, Repr

/-- The call of `thread_task_post` that is inside. -/
def caller : Inside → Option Caller
  | .testFull who => some who
  | .setId who => some who
  | .clearNext who => some who
  | .condSignal who => some who
  | .storeTail who _ => some who
  | .moveTail who _ => some who
  | .count who _ => some who
  | .unlockPost who _ => some who
  | _ => none

abbrev State (κ : Type) := Locked (Linked κ) Inside

def State.start (threads : ℕ) (maxQueue : ℤ) : State κ :=
  ⟨PoolMachine.State.start linkedQueue threads maxQueue, none⟩

inductive Action (κ : Type) where
  | lockPost (n : ℕ)
  | lockExit
  | lockCycle (w : ℕ)
  | relock (w : ℕ)
  | next (woken : List ℕ)
  | apart (act : PoolMachine.Action κ)

/-- The actions of the pool that need no mutex. -/
def apart : PoolMachine.Action κ → Bool
  | .post _ _ => false
  | .enter _ => false
  | .recheck _ => false
  | .destroyPost _ => false
  | _ => true

/-- A thread that asks for the mutex gets it when it is free. -/
def State.lock (s : State κ) (p : Inside) : Option (Except Fault (State κ)) :=
  if s.holder ≠ none then none
  else if s.base.destroyer = .done then some (.error .freedPool)
  else some (.ok { s with holder := some p })

/-- A statement that dereferences a node. -/
def derefs (s : Linked κ) (t : TaskPtr) (u : State κ) : Except Fault (State κ) :=
  if s.Live t then .ok u else .error .freedTask

/-- What `thread_task_post` returns to its caller. -/
def returned (s : Linked κ) : Caller → Option (List ℕ) → Linked κ
  | .poster _, _ => s
  | .destroyer, r => match s.destroyer with
    | .posting n => s.exitPosted n (r.map fun _ => s)
    | _ => s

/-- The next statement of the thread that holds the mutex. -/
def statement (s : Linked κ) (signalled : List ℕ) : Inside → Option (Except Fault (State κ))
  | .testFull who =>
    if s.maxQueue ≤ s.waiting then some (.ok ⟨s, some (.unlockPost who none)⟩)
    else some (.ok ⟨s, some (.setId who)⟩)
  | .setId who => some (derefs s who.task ⟨{ s with
      tasks := Function.update s.tasks who.task
        ((s.tasks who.task).map ({ · with id := s.taskId }))
      taskId := (s.taskId+1)%2^64 }, some (.clearNext who)⟩)
  | .clearNext who => some (derefs s who.task
      ⟨{ s with queue := s.queue.clear who.task }, some (.condSignal who)⟩)
  | .condSignal who =>
    if Signals signalled s.workers then
      some (.ok ⟨{ s with workers := signal signalled s.workers },
        some (.storeTail who signalled)⟩)
    else none
  | .storeTail who woken =>
    if ∀ p ∈ s.queue.tail, s.Live p then some (.ok ⟨{ s with
      queue := s.queue.store s.queue.last (some who.task)
      posted := s.posted++[who.task] }, some (.moveTail who woken)⟩)
    else some (.error .freedTask)
  | .moveTail who woken => some (.ok
      ⟨{ s with queue := { s.queue with last := .next who.task } }, some (.count who woken)⟩)
  | .count who woken => some (.ok
      ⟨{ s with waiting := s.waiting+1 }, some (.unlockPost who (some woken))⟩)
  | .unlockPost who r => some (.ok ⟨returned s who r, none⟩)
  | .uncount w => some (.ok ⟨{ s with waiting := s.waiting-1 }, some (.testEmpty w)⟩)
  | .testEmpty w => match s.queue.first with
    | none => some (.ok ⟨{ s with workers := s.workers.set w .waiting }, none⟩)
    | some _ => some (.ok ⟨s, some (.readFirst w)⟩)
  | .readFirst w => match s.queue.first with
    | none => some (.error .freedTask)
    | some t => some (.ok ⟨s, some (.moveFirst w t)⟩)
  | .moveFirst w t => some (derefs s t
      ⟨{ s with queue := { s.queue with first := s.queue.next t } }, some (.resetTail w t)⟩)
  | .resetTail w t => some (.ok ⟨{ s with
      queue := if s.queue.first = none then { s.queue with last := .head } else s.queue },
      some (.unlockCycle w t)⟩)
  | .unlockCycle w t => some (.ok ⟨{ s with
      workers := s.workers.set w (.running t)
      picked := s.picked++[(w, t)] }, none⟩)

/-- Every statement under the mutex is inside the pool. -/
def State.next (s : State κ) (woken : List ℕ) : Option (Except Fault (State κ)) :=
  match s.holder with
  | none => none
  | some p =>
    if s.base.destroyer = .done then some (.error .freedPool) else statement s.base woken p

/-- Where the thread that asks for the mutex will stand in its section. -/
def asks (s : Linked κ) : Action κ → Option Inside
  | .lockPost n => some (.testFull (.poster n))
  | .lockExit => match s.destroyer with
    | .posting _ => some (.testFull .destroyer)
    | _ => none
  | .lockCycle w => if s.workers[w]? = some .outside then some (.uncount w) else none
  | .relock w => if s.workers[w]? = some .woken then some (.testEmpty w) else none
  | _ => none

def step (s : State κ) : Action κ → Option (Except Fault (State κ))
  | .next woken => s.next woken
  | .apart act =>
    if apart act then (PoolMachine.step linkedQueue s.base act).map
      fun r => r.map fun base => { s with base := base }
    else none
  | act => (asks s.base act).bind s.lock

def machine (κ : Type) : Machine (State κ) (Action κ) Fault := ⟨step⟩

/-- What a step of the statements can do. -/
inductive Stepped (s : State κ) : Action κ → State κ → Prop
  | lock {act : Action κ} {p : Inside} (free : s.holder = none) (asked : asks s.base act = some p) :
    Stepped s act { s with holder := some p }
  | work {p : Inside} {woken : List ℕ} {u : State κ} (held : s.holder = some p)
    (there : s.base.destroyer ≠ .done) (done : statement s.base woken p = some (.ok u)) :
    Stepped s (.next woken) u
  | apart {act : PoolMachine.Action κ} {d : Linked κ} (outside : apart act = true)
    (next : (PoolMachine.linked κ).Next s.base act d) : Stepped s (.apart act) { s with base := d }

theorem next_stepped {s u : State κ} {act : Action κ} (hn : (machine κ).Next s act u) :
    Stepped s act u := by
  have hlock : ∀ act, (asks s.base act).bind s.lock = some (.ok u) → Stepped s act u := by
    intro act h
    obtain ⟨p,hp,hl⟩ := Option.bind_eq_some_iff.mp h
    unfold State.lock at hl
    split_ifs at hl with hh hd
    · simp at hl
    · obtain rfl := Except.ok.inj (Option.some.inj hl)
      exact .lock (not_not.mp hh) hp
  cases act with
  | next woken =>
    have h : s.next woken = some (.ok u) := hn
    unfold State.next at h
    split at h
    · simp at h
    · rename_i p hp
      split_ifs at h with hd
      · simp at h
      · exact .work hp hd h
  | apart act =>
    simp only [Machine.Next, machine, step] at hn
    split_ifs at hn with ha
    obtain ⟨r,hr,hx⟩ := Option.map_eq_some_iff.mp hn
    cases r with
    | error f => simp [Except.map] at hx
    | ok d =>
      obtain rfl := Except.ok.inj hx
      exact .apart ha hr
  | lockPost n => exact hlock _ hn
  | lockExit => exact hlock _ hn
  | lockCycle w => exact hlock _ hn
  | relock w => exact hlock _ hn

/-- When its poster gets the mutex, a node is allocated, and neither linked nor
held by a worker. -/
def Careful (s : State κ) : Action κ → Prop
  | .lockPost n => s.base.Live (.heap n) ∧ ¬ s.base.queue.Linked (.heap n) ∧
      .running (.heap n) ∉ s.base.workers
  | _ => True

end SharedBike.PoolStatements
