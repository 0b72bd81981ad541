import SharedBike.ThreadPool
import SharedBike.Library.GuardedRuns
import SharedBike.Library.Slots
import SharedBike.Library.TailQueues

/-!
# The thread pool as a labelled machine

Any number of workers, posting threads, and one thread inside
`thread_pool_destroy`. Each section under the pool mutex is one step. The
machine is written once over the queue operations it uses, and run with two
implementations: the linked list of the source, and the list of its nodes.
The lists `posted`, `picked` and `freed` are ghosts.
-/

set_option autoImplicit false

namespace SharedBike.PoolMachine
open GuardedRuns TailQueues

/-- A task node: one that `thread_task_alloc` returned, or the one on the stack
of `thread_pool_destroy`. -/
inductive TaskPtr where
  | heap (n : ℕ)
  | stack
  deriving DecidableEq, Repr

inductive Job (κ : Type) where
  | exitHandler
  | work (ctx : κ)

/-- The node less its link, which belongs to the queue. -/
structure Task (κ : Type) where
  id : ℕ
  job : Job κ

/-- What the pool does with its queue; `linked` says which nodes are in it. -/
structure QueueOps (Q : Type) where
  linked : Q → TaskPtr → Prop
  empty : Q
  first : Q → Option TaskPtr
  tail : Q → Option TaskPtr
  push : Q → TaskPtr → Q
  pop : Q → Q
  clear : Q → TaskPtr → Q

def linkedQueue : QueueOps (TailQueue TaskPtr) where
  linked := TailQueue.Linked
  empty := TailQueue.empty
  first := TailQueue.first
  tail := TailQueue.tail
  push := TailQueue.push
  pop := TailQueue.pop
  clear := TailQueue.clear

def plainQueue : QueueOps (List TaskPtr) where
  linked q t := t ∈ q
  empty := []
  first := List.head?
  tail := List.getLast?
  push q t := q++[t]
  pop := List.tail
  clear q _ := q

/-- Program points of `thread_pool_cycle`. -/
inductive Point where
  | outside
  | waiting
  | woken
  | running (t : TaskPtr)
  | gone
  deriving DecidableEq, Repr

/-- Program points of `thread_pool_destroy`, with its loop counter. -/
inductive Destroyer where
  | idle
  | posting (n : ℕ)
  | spinning (n : ℕ)
  | refused
  | done
  deriving DecidableEq, Repr

inductive Fault where
  | freedPool
  | freedTask
  deriving DecidableEq, Repr

structure State (Q κ : Type) where
  queue : Q
  waiting : ℤ
  maxQueue : ℤ
  workers : List Point
  tasks : TaskPtr → Option (Task κ)
  taskId : ℕ
  lock : Bool
  destroyer : Destroyer
  posted : List TaskPtr
  picked : List (ℕ × TaskPtr)
  freed : List TaskPtr

variable {Q κ : Type}

def State.start (ops : QueueOps Q) (threads : ℕ) (maxQueue : ℤ) : State Q κ where
  queue := ops.empty
  waiting := 0
  maxQueue := maxQueue
  workers := List.replicate threads .outside
  tasks := fun _ => none
  taskId := 0
  lock := false
  destroyer := .idle
  posted := []
  picked := []
  freed := []

inductive Action (κ : Type) where
  | alloc (n : ℕ) (ctx : κ)
  | post (n : ℕ) (woken : List ℕ)
  | enter (w : ℕ)
  | spurious (w : ℕ)
  | recheck (w : ℕ)
  | finish (w : ℕ)
  | exit (w : ℕ)
  | destroy
  | destroyPost (woken : List ℕ)
  | destroyNext

def wake (workers : List Point) (w : ℕ) : List Point :=
  if workers[w]? = some .waiting then workers.set w .woken else workers

def signal (woken : List ℕ) (workers : List Point) : List Point := woken.foldl wake workers

/-- `cond_signal` wakes at least one waiter if there is one. -/
def Signals (woken : List ℕ) (workers : List Point) : Prop :=
  .waiting ∈ workers → ∃ w ∈ woken, workers[w]? = some .waiting

instance (woken : List ℕ) (workers : List Point) : Decidable (Signals woken workers) :=
  inferInstanceAs (Decidable (_ → _))

def State.Live (s : State Q κ) (t : TaskPtr) : Prop := (s.tasks t).isSome

instance (s : State Q κ) (t : TaskPtr) : Decidable (s.Live t) :=
  inferInstanceAs (Decidable (_ = _))

/-- The signal comes before the task is linked. -/
def State.link (ops : QueueOps Q) (s : State Q κ) (t : TaskPtr) (woken : List ℕ) : State Q κ :=
  { s with
    tasks := Function.update s.tasks t ((s.tasks t).map ({ · with id := s.taskId }))
    taskId := (s.taskId+1)%2^64
    workers := signal woken s.workers
    queue := ops.push s.queue t
    waiting := s.waiting+1
    posted := s.posted++[t] }

/-- `none` is the overflow answer `T_ERROR`. -/
def threadTaskPost (ops : QueueOps Q) (s : State Q κ) (t : TaskPtr) (woken : List ℕ) :
    Option (State Q κ) :=
  if s.maxQueue ≤ s.waiting then none else some (s.link ops t woken)

/-- A post with what it dereferences: the pool, the node, and the node whose
link is the tail address. -/
def State.post (ops : QueueOps Q) (s : State Q κ) (t : TaskPtr) (woken : List ℕ) :
    Option (Except Fault (Option (State Q κ))) :=
  if s.destroyer = .done then some (.error .freedPool)
  else if ¬ Signals woken s.workers then none
  else match threadTaskPost ops s t woken with
    | none => some (.ok none)
    | some u =>
      if s.Live t ∧ ∀ p ∈ ops.tail s.queue, s.Live p then some (.ok (some u))
      else some (.error .freedTask)

/-- A worker that holds the mutex takes the first task, or waits. -/
def State.take (ops : QueueOps Q) (s : State Q κ) (w : ℕ) : Except Fault (State Q κ) :=
  match ops.first s.queue with
  | none => .ok { s with workers := s.workers.set w .waiting }
  | some t =>
    if s.Live t then .ok { s with
      queue := ops.pop s.queue
      workers := s.workers.set w (.running t)
      picked := s.picked++[(w, t)] }
    else .error .freedTask

/-- A step of a worker that needs the pool to be there. -/
def State.inPool (s : State Q κ) (r : Except Fault (State Q κ)) :
    Option (Except Fault (State Q κ)) :=
  if s.destroyer = .done then some (.error .freedPool) else some r

/-- The head of the loop of `thread_pool_destroy` before round `n`. -/
def State.round (s : State Q κ) (n : ℕ) : State Q κ :=
  if n < s.workers.length then { s with lock := true, destroyer := .posting n }
  else { s with destroyer := .done, tasks := Function.update s.tasks .stack none }

/-- A refused post ends the call at once; else the round spins on the flag. -/
def State.exitPosted (s : State Q κ) (n : ℕ) : Option (State Q κ) → State Q κ
  | some u => { u with destroyer := .spinning n }
  | none => { s with
      destroyer := .refused
      tasks := Function.update s.tasks .stack none }

def step (ops : QueueOps Q) (s : State Q κ) : Action κ → Option (Except Fault (State Q κ))
  | .alloc n ctx =>
    if s.Live (.heap n) then none
    else some (.ok { s with
      tasks := Function.update s.tasks (.heap n) (some ⟨0, .work ctx⟩)
      queue := ops.clear s.queue (.heap n) })
  | .post n woken => (s.post ops (.heap n) woken).map (Except.map fun r => r.getD s)
  | .enter w => match s.workers[w]? with
    | some .outside => s.inPool (State.take ops { s with waiting := s.waiting-1 } w)
    | _ => none
  | .spurious w => match s.workers[w]? with
    | some .waiting => s.inPool (.ok { s with workers := s.workers.set w .woken })
    | _ => none
  | .recheck w => match s.workers[w]? with
    | some .woken => s.inPool (s.take ops w)
    | _ => none
  | .finish w => match s.workers[w]? with
    | some (.running t) => match s.tasks t with
      | none => some (.error .freedTask)
      | some ⟨_, .exitHandler⟩ => none
      | some ⟨_, .work _⟩ => some (.ok { s with
          queue := ops.clear s.queue t
          tasks := Function.update s.tasks t none
          workers := s.workers.set w .outside
          freed := s.freed++[t] })
    | _ => none
  | .exit w => match s.workers[w]? with
    | some (.running t) => match s.tasks t with
      | none => some (.error .freedTask)
      | some ⟨_, .exitHandler⟩ => some (.ok { s with
          lock := false
          workers := s.workers.set w .gone })
      | some ⟨_, .work _⟩ => none
    | _ => none
  | .destroy =>
    if s.destroyer = .idle then some (.ok (State.round { s with
      tasks := Function.update s.tasks .stack (some ⟨0, .exitHandler⟩)
      queue := ops.clear s.queue .stack } 0))
    else none
  | .destroyPost woken => match s.destroyer with
    | .posting n => (s.post ops .stack woken).map (Except.map (s.exitPosted n))
    | _ => none
  | .destroyNext => match s.destroyer with
    | .spinning n => if s.lock then none else some (.ok (s.round (n+1)))
    | _ => none

def machine (ops : QueueOps Q) (κ : Type) : Machine (State Q κ) (Action κ) Fault := ⟨step ops⟩

/-- The pool of the source. -/
abbrev linked (κ : Type) : Machine (State (TailQueue TaskPtr) κ) (Action κ) Fault :=
  machine linkedQueue κ

/-- The pool whose queue is the list of the linked nodes. -/
abbrev plain (κ : Type) : Machine (State (List TaskPtr) κ) (Action κ) Fault :=
  machine plainQueue κ

end SharedBike.PoolMachine
