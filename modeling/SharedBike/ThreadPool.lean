import Mathlib.Data.Int.Basic

/-!
# The task queue of the thread pool

The queue is the list of linked tasks; `waiting` is the pool's own counter,
decremented by a worker before it waits and incremented by a post.
-/

set_option autoImplicit false

namespace SharedBike.ThreadPool

def defaultThreadsNum : ℕ := 4

def defaultQueueNum : ℤ := 65535

structure Pool (τ : Type) where
  queue : List τ
  waiting : ℤ
  maxQueue : ℤ

variable {τ : Type}

def Pool.init (maxQueue : ℤ) : Pool τ := ⟨[], 0, maxQueue⟩

/-- `none` is the overflow answer `T_ERROR`, which leaves the pool as it was. -/
def threadTaskPost (tp : Pool τ) (task : τ) : Option (Pool τ) :=
  if tp.maxQueue ≤ tp.waiting then none
  else some { tp with queue := tp.queue++[task], waiting := tp.waiting+1 }

/-- A worker enters its round: it counts itself as waiting. -/
def cycleEnter (tp : Pool τ) : Pool τ := { tp with waiting := tp.waiting-1 }

/-- A worker that holds the mutex takes the first task if there is one. -/
def cycleTake (tp : Pool τ) : Option (τ × Pool τ) :=
  match tp.queue with
  | [] => none
  | task::rest => some (task, { tp with queue := rest })

end SharedBike.ThreadPool
