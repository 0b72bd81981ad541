import SharedBike.PoolRefinement

/-!
# Wake-ups and admission

No task stays queued while the workers that could take it sleep: the signal
comes before the link, and whoever overtakes a woken worker takes a task that
the woken one need not find. The limit on `waiting` bounds the queue itself
only up to the workers that are counted in it.
-/

set_option autoImplicit false

namespace SharedBike.PoolWakeups
open GuardedRuns TailQueues SharedBike.PoolMachine SharedBike.PoolSteps
open SharedBike.ThreadPool (defaultThreadsNum defaultQueueNum)
open SharedBike.PoolCounting SharedBike.PoolOwnership SharedBike.PoolRefinement

variable {Q κ : Type}

theorem round_settings (s : State Q κ) (n : ℕ) :
    (s.round n).maxQueue = s.maxQueue ∧ (s.round n).workers = s.workers := by
  unfold State.round
  split_ifs <;> exact ⟨rfl,rfl⟩

/-- Neither the limit nor the number of workers ever changes. -/
theorem step_settings {s s' : Plain κ} {act : Action κ} (hs : PoolStep s act s') :
    s'.maxQueue = s.maxQueue ∧ s'.workers.length = s.workers.length := by
  cases hs with
  | post room signals live => exact ⟨rfl,length_signal _ _⟩
  | destroyPost posting room signals live => exact ⟨rfl,length_signal _ _⟩
  | destroy idle => exact ⟨(round_settings _ 0).1,congrArg List.length (round_settings _ 0).2⟩
  | destroyNext spinning cleared =>
    exact ⟨(round_settings s _).1,congrArg List.length (round_settings s _).2⟩
  | enterTake at_ head => exact ⟨rfl,List.length_set⟩
  | enterWait at_ empty => exact ⟨rfl,List.length_set⟩
  | spurious at_ => exact ⟨rfl,List.length_set⟩
  | recheckTake at_ head => exact ⟨rfl,List.length_set⟩
  | recheckWait at_ empty => exact ⟨rfl,List.length_set⟩
  | finish at_ task => exact ⟨rfl,List.length_set⟩
  | exit at_ task => exact ⟨rfl,List.length_set⟩
  | _ => exact ⟨rfl,rfl⟩

/-- The workers that look again in a step. -/
def rechecks : Action κ → ℕ
  | .recheck _ => 1
  | _ => 0

/-- Nobody is woken but by a post or spuriously, and who looks again is no longer woken. -/
theorem step_woken {s s' : Plain κ} {act : Action κ} (hs : PoolStep s act s')
    (hpost : ∀ n woken, act ≠ .post n woken) (hexit : ∀ woken, act ≠ .destroyPost woken)
    (hspurious : ∀ w, act ≠ .spurious w) :
    rechecks act+s'.workers.count .woken ≤ s.workers.count .woken := by
  have hset : ∀ {w : ℕ} {p : Point} (q : Point), s.workers[w]? = some p → q ≠ .woken →
      (s.workers.set w q).count .woken+(if p = .woken then 1 else 0) = s.workers.count .woken := by
    intro w p q at_ hq
    rw [count_set at_, if_neg hq, Nat.add_zero]
  cases hs with
  | post room signals live => exact absurd rfl (hpost _ _)
  | overflow full => exact absurd rfl (hpost _ _)
  | destroyPost posting room signals live => exact absurd rfl (hexit _)
  | destroyRefused posting full => exact absurd rfl (hexit _)
  | spurious at_ => exact absurd rfl (hspurious _)
  | recheckTake at_ head => exact ((Nat.add_comm _ _).trans (hset _ at_ (by simp))).le
  | recheckWait at_ empty => exact ((Nat.add_comm _ _).trans (hset _ at_ (by simp))).le
  | enterTake at_ head => exact ((Nat.zero_add _).trans (hset _ at_ (by simp))).le
  | enterWait at_ empty => exact ((Nat.zero_add _).trans (hset _ at_ (by simp))).le
  | finish at_ task => exact ((Nat.zero_add _).trans (hset _ at_ (by simp))).le
  | exit at_ task => exact ((Nat.zero_add _).trans (hset _ at_ (by simp))).le
  | destroy idle =>
    rw [(round_settings _ 0).2]
    exact (Nat.zero_add _).le
  | destroyNext spinning cleared =>
    rw [(round_settings s _).2]
    exact (Nat.zero_add _).le
  | alloc fresh => exact (Nat.zero_add _).le

theorem run_counted {G : Plain κ → Action κ → Prop} {threads : ℕ} {maxQueue : ℤ}
    {as : List (Action κ)} {v : Plain κ}
    (hr : (plain κ).Run G (State.start plainQueue threads maxQueue) as v) :
    Counted v ∧ v.maxQueue = maxQueue ∧ v.workers.length = threads := by
  apply hr.invariant
  · exact ⟨start_counted threads maxQueue,rfl,List.length_replicate⟩
  · rintro t act u ⟨h,hm,hl⟩ - hn
    have hs := next_step hn
    obtain ⟨hm',hl'⟩ := step_settings hs
    exact ⟨step_counted hs h,hm'.trans hm,hl'.trans hl⟩

/-- What a disciplined run of the linked pool shares with the plain one. -/
theorem linked_counted {threads : ℕ} {maxQueue : ℤ} {as : List (Action κ)} {s : Linked κ}
    (hr : (linked κ).Run (Disciplined linkedQueue) (State.start linkedQueue threads maxQueue)
      as s) :
    ∃ l, s.queue.Represents l ∧ Counted (atList s l) ∧ s.maxQueue = maxQueue ∧
      s.workers.length = threads := by
  obtain ⟨v,hv,l,hrep,rfl⟩ := run_disciplined hr
  exact ⟨l,hrep,run_counted hv⟩

/-- While some worker waits unsignalled, each queued task has a woken worker;
so the live workers are never all asleep on a queue with a task. -/
def NoLostWakeup (workers : List Point) (queued : ℕ) : Prop :=
  (.waiting ∈ workers → queued ≤ workers.count .woken) ∧
    ¬ (0 < queued ∧ (∃ p ∈ workers, p ≠ .gone) ∧ ∀ p ∈ workers, p ≠ .gone → p = .waiting)

theorem counted_wakeup {s : Plain κ} (h : Counted s) :
    NoLostWakeup s.workers s.queue.length := by
  have hpend : .waiting ∈ s.workers → s.queue.length ≤ s.workers.count .woken :=
    fun hw => h.2.2 (List.count_pos_iff.mpr hw)
  constructor
  · exact hpend
  · rintro ⟨hq,⟨p,hp,hlive⟩,hall⟩
    have hw := hpend (hall p hp hlive ▸ hp)
    have hmem : Point.woken ∈ s.workers := List.count_pos_iff.mp (hq.trans_le hw)
    exact absurd (hall .woken hmem (by simp)) (by simp)

/-- No wake-up is lost, for any number of workers and every interleaving. -/
theorem no_lost_wakeup (κ : Type) (threads : ℕ) (maxQueue : ℤ) (as : List (Action κ)) :
    (∀ v, (plain κ).Run Machine.Free (State.start plainQueue threads maxQueue) as v →
      NoLostWakeup v.workers v.queue.length) ∧
    (∀ s, (linked κ).Run (Disciplined linkedQueue) (State.start linkedQueue threads maxQueue)
        as s →
      ∃ l, s.queue.Represents l ∧ NoLostWakeup s.workers l.length) := by
  constructor
  · intro v hr
    exact counted_wakeup (run_counted hr).1
  · intro s hr
    obtain ⟨l,hrep,hc,-⟩ := linked_counted hr
    exact ⟨l,hrep,counted_wakeup hc⟩

/-- Two workers sleep, one is woken by a post, and the other one stays asleep. -/
theorem no_lost_wakeup_post : ∃ s, (linked Unit).Run (Disciplined linkedQueue)
      (State.start linkedQueue defaultThreadsNum defaultQueueNum)
      [.enter 0, .enter 1, .alloc 1 (), .post 1 [1]] s ∧
    ∃ l, s.queue.Represents l ∧ NoLostWakeup s.workers l.length := by
  obtain ⟨s,hs⟩ : ∃ s, (linked Unit).Run (Disciplined linkedQueue)
      (State.start linkedQueue defaultThreadsNum defaultQueueNum)
      [.enter 0, .enter 1, .alloc 1 (), .post 1 [1]] s := by
    refine ⟨_,.cons trivial rfl (.cons trivial rfl (.cons trivial rfl
      (.cons ⟨?_,by decide⟩ rfl .nil)))⟩
    exact (@reach_iff _ _ _ _ [] rfl).not.mpr (by decide)
  exact ⟨s,hs,(no_lost_wakeup Unit _ _ _).2 s hs⟩

/-- What `waiting` counts, and what follows for admission and for the queue. -/
structure Admission (ops : QueueOps Q) (threads : ℕ) (maxQueue : ℤ) (s : State Q κ)
    (queued : ℕ) : Prop where
  waiting_eq : s.waiting = queued-(parked s.workers : ℤ)
  lower : -(threads : ℤ) ≤ s.waiting
  upper : s.waiting ≤ maxQueue
  refuses : ∀ t woken, threadTaskPost ops s t woken = none → maxQueue ≤ queued
  accepts : (queued : ℤ) < maxQueue → ∀ t woken, (threadTaskPost ops s t woken).isSome
  size : queued ≤ maxQueue+threads

theorem post_none_iff {ops : QueueOps Q} {s : State Q κ} {t : TaskPtr} {woken : List ℕ} :
    threadTaskPost ops s t woken = none ↔ s.maxQueue ≤ s.waiting := by
  unfold threadTaskPost
  split_ifs with h <;> simp [h]

theorem admission (ops : QueueOps Q) {s : State Q κ} {queued : ℕ} {maxQueue : ℤ}
    (h0 : 0 ≤ maxQueue) (hm : s.maxQueue = maxQueue)
    (h : Tally s.waiting s.maxQueue queued (s.workers.count .waiting) (s.workers.count .woken)) :
    Admission ops s.workers.length maxQueue s queued := by
  subst hm
  have heq : s.waiting = queued-(parked s.workers : ℤ) := h.1
  have hup : s.waiting ≤ s.maxQueue := h.2.1 h0
  have hp := parked_le s.workers
  refine ⟨heq,by omega,hup,fun t woken hnone => ?_,fun hlt t woken => ?_,by omega⟩
  · have := post_none_iff.mp hnone
    omega
  · rw [Option.isSome_iff_ne_none, ne_eq, post_none_iff]
    omega

/-- The meaning of the counter in every state of every run. -/
theorem waiting_counts (κ : Type) (threads : ℕ) (maxQueue : ℤ) (h0 : 0 ≤ maxQueue)
    (as : List (Action κ)) :
    (∀ v, (plain κ).Run Machine.Free (State.start plainQueue threads maxQueue) as v →
      Admission plainQueue threads maxQueue v v.queue.length) ∧
    (∀ s, (linked κ).Run (Disciplined linkedQueue) (State.start linkedQueue threads maxQueue)
        as s →
      ∃ l, s.queue.Represents l ∧ Admission linkedQueue threads maxQueue s l.length) := by
  constructor
  · intro v hr
    obtain ⟨hc,hm,rfl⟩ := run_counted hr
    exact admission plainQueue h0 hm hc
  · intro s hr
    obtain ⟨l,hrep,hc,hm,rfl⟩ := linked_counted hr
    exact ⟨l,hrep,admission linkedQueue h0 hm hc⟩

/-- A worker waits and one task is queued: the counter is zero. -/
theorem waiting_counts_post : ∃ s, (linked Unit).Run (Disciplined linkedQueue)
      (State.start linkedQueue defaultThreadsNum defaultQueueNum)
      [.enter 0, .alloc 1 (), .post 1 [0]] s ∧ s.waiting = 0 ∧
    ∃ l, s.queue.Represents l ∧ Admission linkedQueue defaultThreadsNum defaultQueueNum s
      l.length := by
  obtain ⟨s,hs,hw⟩ : ∃ s, (linked Unit).Run (Disciplined linkedQueue)
      (State.start linkedQueue defaultThreadsNum defaultQueueNum)
      [.enter 0, .alloc 1 (), .post 1 [0]] s ∧ s.waiting = 0 := by
    refine ⟨_,.cons trivial rfl (.cons trivial rfl (.cons ⟨?_,by decide⟩ rfl .nil)),rfl⟩
    exact (@reach_iff _ _ _ _ [] rfl).not.mpr (by decide)
  exact ⟨s,hs,hw,(waiting_counts Unit _ _ (by decide) _).2 s hs⟩

end SharedBike.PoolWakeups
