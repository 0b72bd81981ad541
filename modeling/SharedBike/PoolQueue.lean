import SharedBike.PoolRefinement

/-!
# The task queue is a FIFO

The nodes linked from the head are the posted ones less the picked ones, in
the order of the posts, so the pick after `n` picks takes the `n`-th post and
no other pick does. This needs that a node is not posted again before its
worker is through with it: the worker clears the link of the node it held.
-/

set_option autoImplicit false

namespace SharedBike.PoolQueue
open GuardedRuns TailQueues SharedBike.PoolMachine SharedBike.PoolSteps
open SharedBike.ThreadPool (defaultThreadsNum defaultQueueNum)
open SharedBike.PoolOwnership SharedBike.PoolRefinement

variable {Q κ : Type}

/-- What is linked is what was posted and not yet picked, in order. -/
def Ordered (s : Plain κ) : Prop := s.posted = s.picked.map Prod.snd++s.queue

theorem link_ordered {s : Plain κ} (h : Ordered s) (t : TaskPtr) (woken : List ℕ) :
    Ordered (s.link plainQueue t woken) := by
  show s.posted++[t] = s.picked.map Prod.snd++(s.queue++[t])
  rw [show s.posted = _ from h, List.append_assoc]

theorem taken_ordered {s : Plain κ} {t : TaskPtr} {rest : List TaskPtr} {waiting : ℤ}
    (h : Ordered s) (head : s.queue = t::rest) (w : ℕ) :
    Ordered (taken { s with waiting := waiting } w t rest) := by
  show s.posted = (s.picked++[(w, t)]).map Prod.snd++rest
  rw [show s.posted = _ from h, head, List.map_append, List.append_assoc]
  rfl

theorem step_ordered {s s' : Plain κ} {act : Action κ} (hs : PoolStep s act s')
    (h : Ordered s) : Ordered s' := by
  cases hs with
  | post room signals live => exact link_ordered h _ _
  | @destroyPost n woken posting room signals live => exact link_ordered h .stack woken
  | enterTake at_ head => exact taken_ordered h head _
  | recheckTake at_ head => exact taken_ordered h head _
  | destroy idle => unfold State.round; split_ifs <;> exact h
  | destroyNext spinning cleared => unfold State.round; split_ifs <;> exact h
  | _ => exact h

/-- The queue of the source at one state: the nodes from `first` on, the tail
address, and what was posted and picked. -/
def Fifo (s : Linked κ) : Prop :=
  ∃ l, Chain s.queue.next s.queue.first l ∧ s.queue.last = lastSlot l ∧
    s.posted = s.picked.map Prod.snd++l

/-- A post that meets the limit leaves the head, the tail and the counter. -/
def OverflowKeeps (s : Linked κ) : Prop :=
  ∀ act s', (∃ n woken, act = .post n woken ∨ act = .destroyPost woken) →
    s.maxQueue ≤ s.waiting → (linked κ).Next s act s' →
    s'.queue.first = s.queue.first ∧ s'.queue.last = s.queue.last ∧ s'.waiting = s.waiting

theorem overflow_keeps (s : Linked κ) : OverflowKeeps s := by
  rintro act s' ⟨n,woken,rfl | rfl⟩ hfull hn
  · simp only [Machine.Next, machine, step, Option.map_eq_some_iff] at hn
    obtain ⟨r,hr,he⟩ := hn
    cases r with
    | error f => simp [Except.map] at he
    | ok r =>
      obtain rfl := Except.ok.inj he
      obtain ⟨-,-,⟨-,rfl⟩ | ⟨hroom,-⟩⟩ := post_iff.mp hr
      · exact ⟨rfl,rfl,rfl⟩
      · exact absurd hroom (not_lt.mpr hfull)
  · simp only [Machine.Next, machine, step] at hn
    split at hn
    · simp only [Option.map_eq_some_iff] at hn
      obtain ⟨r,hr,he⟩ := hn
      cases r with
      | error f => simp [Except.map] at he
      | ok r =>
        obtain rfl := Except.ok.inj he
        obtain ⟨-,-,⟨-,rfl⟩ | ⟨hroom,-⟩⟩ := post_iff.mp hr
        · exact ⟨rfl,rfl,rfl⟩
        · exact absurd hroom (not_lt.mpr hfull)
    · simp at hn

/-- In every state of a disciplined run the queue is a FIFO. -/
theorem disciplined_fifo (threads : ℕ) (maxQueue : ℤ) (as : List (Action κ)) (s : Linked κ)
    (hr : (linked κ).Run (Disciplined linkedQueue) (State.start linkedQueue threads maxQueue)
      as s) : Fifo s ∧ OverflowKeeps s := by
  obtain ⟨v,hv,l,hrep,rfl⟩ := run_disciplined hr
  have hord : Ordered (atList s l) :=
    hv.invariant rfl fun _ _ _ h _ hn => step_ordered (next_step hn) h
  exact ⟨⟨l,hrep.chain,hrep.last,hord⟩,overflow_keeps s⟩

/-- Two posts, then one worker takes the first task, runs it and frees it. -/
theorem disciplined_fifo_two : ∃ s, (linked Unit).Run (Disciplined linkedQueue)
      (State.start linkedQueue defaultThreadsNum defaultQueueNum)
      [.alloc 1 (), .post 1 [], .alloc 2 (), .post 2 [], .enter 0, .finish 0] s ∧
    Fifo s ∧ OverflowKeeps s := by
  obtain ⟨s,hs⟩ : ∃ s, (linked Unit).Run (Disciplined linkedQueue)
      (State.start linkedQueue defaultThreadsNum defaultQueueNum)
      [.alloc 1 (), .post 1 [], .alloc 2 (), .post 2 [], .enter 0, .finish 0] s := by
    refine ⟨_,.cons trivial rfl (.cons ⟨?_,by decide⟩ rfl (.cons trivial rfl
      (.cons ⟨?_,by decide⟩ rfl (.cons trivial rfl (.cons trivial rfl .nil)))))⟩
    · exact (@reach_iff _ _ _ _ [] rfl).not.mpr (by decide)
    · refine (@reach_iff _ _ _ _ [TaskPtr.heap 1] ?_).not.mpr (by decide)
      exact ⟨rfl,rfl⟩
  exact ⟨s,hs,disciplined_fifo _ _ _ s hs⟩

/-- The weaker condition on a post: its node is not linked. -/
def Unlinked (s : Linked κ) : Action κ → Prop
  | .post n _ => ¬ s.queue.Linked (.heap n)
  | _ => True

/-- A node is posted again while its worker still runs it. The worker's
`task->next = NULL` then cuts off the node that was linked behind it. -/
theorem reposted_cut : ∃ as s, (linked Unit).Run Unlinked
      (State.start linkedQueue defaultThreadsNum defaultQueueNum) as s ∧ ¬ Fifo s := by
  obtain ⟨s,hs,hc,hp,hk⟩ : ∃ s, (linked Unit).Run Unlinked
      (State.start linkedQueue defaultThreadsNum defaultQueueNum)
      [.alloc 1 (), .post 1 [], .enter 0, .post 1 [], .alloc 2 (), .post 2 [], .finish 0] s ∧
      Chain s.queue.next s.queue.first [.heap 1] ∧
      s.posted = [.heap 1, .heap 1, .heap 2] ∧ s.picked = [(0, .heap 1)] := by
    refine ⟨_,.cons trivial rfl (.cons ?_ rfl (.cons trivial rfl (.cons ?_ rfl
      (.cons trivial rfl (.cons ?_ rfl (.cons trivial rfl .nil)))))),?_,rfl,rfl⟩
    · exact (@reach_iff _ _ _ _ [] rfl).not.mpr (by decide)
    · exact (@reach_iff _ _ _ _ [] rfl).not.mpr (by decide)
    · refine (@reach_iff _ _ _ _ [TaskPtr.heap 1] ?_).not.mpr (by decide)
      exact ⟨rfl,rfl⟩
    · exact ⟨rfl,rfl⟩
  refine ⟨_,s,hs,?_⟩
  rintro ⟨l,hl,-,hord⟩
  rw [chain_unique hl hc, hp, hk] at hord
  simp at hord

end SharedBike.PoolQueue
