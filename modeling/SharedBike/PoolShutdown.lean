import SharedBike.PoolQueue
import SharedBike.PoolWakeups

/-!
# Shutting the pool down

The node of `thread_pool_destroy` is posted behind everything that was queued
before the call, and each later round finds the queue empty. Each round ends
when one worker has cleared the flag, which it does with the node unlinked and
for the last time it touches anything.
-/

set_option autoImplicit false

namespace SharedBike.PoolShutdown
open GuardedRuns Slots TailQueues SharedBike.PoolMachine SharedBike.PoolSteps
open SharedBike.ThreadPool (defaultThreadsNum defaultQueueNum)
open SharedBike.PoolCounting SharedBike.PoolOwnership SharedBike.PoolRefinement
open SharedBike.PoolQueue SharedBike.PoolWakeups

variable {Q κ : Type}

/-- Posts are disciplined, and no other thread posts once the shutdown has begun. -/
def Orderly (ops : QueueOps Q) (s : State Q κ) (act : Action κ) : Prop :=
  Disciplined ops s act ∧ ∀ n woken, act = .post n woken → s.destroyer = .idle

/-- The round that the destroying thread is in, by the number of workers gone. -/
def Rounds (d : Destroyer) (lock : Bool) (gone threads : ℕ) : Prop :=
  match d with
  | .idle => gone = 0
  | .posting n => gone = n ∧ n < threads
  | .spinning n => gone+lock.toNat = n+1 ∧ n < threads
  | .refused => gone < threads
  | .done => gone = threads

/-- Once the call has begun, nothing is linked behind its node. -/
def Emptied (d : Destroyer) (lock : Bool) (threads : ℕ) (queue : List TaskPtr) : Prop :=
  match d with
  | .posting n => 0 < n → queue = []
  | .spinning _ => queue = [] ∨ (lock = true ∧ ∃ before, queue = before++[.stack])
  | .done => 0 < threads → queue = []
  | _ => True

/-- A worker has picked the exit task once if it runs it or is gone, and never before. -/
def Exits (picked : List (ℕ × TaskPtr)) (workers : List Point) : Prop :=
  ∀ w, picked.count (w, .stack) =
    if workers[w]? = some .gone ∨ workers[w]? = some (.running .stack) then 1 else 0

/-- The other picked tasks have been freed by their workers, or are still run. -/
def Returned (s : Plain κ) : Prop :=
  ((s.picked.map Prod.snd : Multiset TaskPtr).filter (· ≠ .stack)) =
    (s.freed : Multiset TaskPtr)+(total held s.workers).filter (· ≠ .stack)

def gone (s : Plain κ) : ℕ := s.workers.count .gone

/-- A worker that moves without leaving is no matter of the rounds. -/
theorem moved_rounds {s u : Plain κ} {w : ℕ} {p q : Point}
    (h : Rounds s.destroyer s.lock (gone s) s.workers.length) (at_ : s.workers[w]? = some p)
    (hp : p ≠ .gone) (hq : q ≠ .gone) (hd : u.destroyer = s.destroyer) (hl : u.lock = s.lock)
    (hw : u.workers = s.workers.set w q) :
    Rounds u.destroyer u.lock (gone u) u.workers.length := by
  have hcount := count_set at_ q .gone
  rw [if_neg hp, if_neg hq, Nat.add_zero, Nat.add_zero] at hcount
  rw [hd, hl, gone, hw, hcount, List.length_set]
  exact h

theorem round_rounds {s : Plain κ} {n : ℕ} (hg : gone s = n) (hn : n ≤ s.workers.length) :
    Rounds (s.round n).destroyer (s.round n).lock (gone (s.round n))
      (s.round n).workers.length := by
  unfold State.round
  split_ifs with h
  · exact ⟨hg,h⟩
  · exact hg.trans (le_antisymm hn (not_lt.mp h))

theorem step_rounds {s s' : Plain κ} {act : Action κ} (hs : PoolStep s act s') (ho : Owned s)
    (h : Rounds s.destroyer s.lock (gone s) s.workers.length) :
    Rounds s'.destroyer s'.lock (gone s') s'.workers.length := by
  have hlen := (step_settings hs).2
  cases hs with
  | alloc fresh => exact h
  | @post n woken room signals live =>
    show Rounds s.destroyer s.lock ((signal woken s.workers).count .gone) _
    rw [hlen, count_signal .gone (by simp) (by simp)]
    exact h
  | overflow full => exact h
  | enterTake at_ head => exact moved_rounds h at_ (by simp) (by simp) rfl rfl rfl
  | enterWait at_ empty => exact moved_rounds h at_ (by simp) (by simp) rfl rfl rfl
  | spurious at_ => exact moved_rounds h at_ (by simp) (by simp) rfl rfl rfl
  | recheckTake at_ head => exact moved_rounds h at_ (by simp) (by simp) rfl rfl rfl
  | recheckWait at_ empty => exact moved_rounds h at_ (by simp) (by simp) rfl rfl rfl
  | finish at_ task => exact moved_rounds h at_ (by simp) (by simp) rfl rfl rfl
  | @exit w t id at_ task =>
    -- only the node of the shutdown has this handler, and it is owned in a spinning round
    obtain rfl := exit_stack ho task
    obtain ⟨n,hspin,hlock⟩ := ho.stack_owned.mp (running_owned at_)
    have hset := count_set at_ .gone .gone
    simp only [reduceCtorEq, if_false, if_true] at hset
    show Rounds s.destroyer false ((s.workers.set w .gone).count .gone) _
    rw [hlen]
    rw [hspin, hlock] at h
    rw [hspin]
    obtain ⟨h1,h2⟩ := h
    refine ⟨?_,h2⟩
    rw [gone, Bool.toNat_true] at h1
    rw [Bool.toNat_false]
    omega
  | destroy idle =>
    rw [idle] at h
    exact round_rounds h (Nat.zero_le _)
  | @destroyPost n woken posting room signals live =>
    have hlock := ho.armed n posting
    rw [posting] at h
    show Rounds (.spinning n) s.lock ((signal woken s.workers).count .gone) _
    rw [hlen, count_signal .gone (by simp) (by simp), hlock]
    exact ⟨congrArg (·+1) h.1,h.2⟩
  | @destroyRefused n woken posting full =>
    rw [posting] at h
    show gone s < s.workers.length
    rw [h.1]
    exact h.2
  | @destroyNext n spinning cleared =>
    rw [spinning, cleared] at h
    exact round_rounds h.1 h.2

theorem round_emptied {s : Plain κ} (n : ℕ) (h : n ≠ 0 → s.queue = [])
    (hn : n ≤ s.workers.length) :
    Emptied (s.round n).destroyer (s.round n).lock (s.round n).workers.length
      (s.round n).queue := by
  unfold State.round
  split_ifs with hlt
  · exact fun hpos => h hpos.ne'
  · intro hpos
    apply h
    show n ≠ 0
    have : 0 < s.workers.length := hpos
    omega

/-- Taking the first task keeps what is known of the end of the queue. -/
theorem emptied_tail {d : Destroyer} {lock : Bool} {threads : ℕ} {t : TaskPtr}
    {rest : List TaskPtr} (h : Emptied d lock threads (t::rest)) :
    Emptied d lock threads rest := by
  cases d with
  | idle => trivial
  | refused => trivial
  | posting n => exact fun hn => absurd (h hn) (by simp)
  | done => exact fun hn => absurd (h hn) (by simp)
  | spinning n =>
    rcases h with h | ⟨hl,before,hb⟩
    · simp at h
    · cases before with
      | nil =>
        obtain ⟨-,rfl⟩ := List.cons.inj hb
        exact Or.inl rfl
      | cons b before =>
        obtain ⟨-,rfl⟩ := List.cons.inj hb
        exact Or.inr ⟨hl,before,rfl⟩

theorem step_emptied {s s' : Plain κ} {act : Action κ} (hs : PoolStep s act s') (ho : Owned s)
    (hg : Orderly plainQueue s act) (hr : Rounds s.destroyer s.lock (gone s) s.workers.length)
    (h : Emptied s.destroyer s.lock s.workers.length s.queue) :
    Emptied s'.destroyer s'.lock s'.workers.length s'.queue := by
  have hlen := (step_settings hs).2
  cases hs with
  | alloc fresh => exact h
  | @post n woken room signals live =>
    show Emptied s.destroyer s.lock _ _
    rw [hg.2 n woken rfl]
    trivial
  | overflow full => exact h
  | enterTake at_ head =>
    rw [head] at h
    rw [hlen]
    exact emptied_tail h
  | enterWait at_ empty => rw [hlen]; exact h
  | spurious at_ => rw [hlen]; exact h
  | recheckTake at_ head =>
    rw [head] at h
    rw [hlen]
    exact emptied_tail h
  | recheckWait at_ empty => rw [hlen]; exact h
  | finish at_ task => rw [hlen]; exact h
  | @exit w t id at_ task =>
    -- the worker holds the node, so the node is not at the end of the queue
    obtain rfl := exit_stack ho task
    obtain ⟨n,hspin,-⟩ := ho.stack_owned.mp (running_owned at_)
    have hnot := not_linked_of_running ho at_
    rw [hspin] at h
    show Emptied s.destroyer false _ s.queue
    rw [hspin]
    rcases h with h | ⟨-,before,hb⟩
    · exact Or.inl h
    · rw [hb] at hnot
      simp at hnot
  | destroy idle => exact round_emptied 0 (fun h0 => absurd rfl h0) (Nat.zero_le _)
  | @destroyPost n woken posting room signals live =>
    exact Or.inr ⟨ho.armed n posting,s.queue,rfl⟩
  | destroyRefused posting full => trivial
  | @destroyNext n spinning cleared =>
    rw [spinning, cleared] at h hr
    apply round_emptied (n+1)
    · intro _
      rcases h with h | ⟨hl,-⟩
      · exact h
      · simp at hl
    · exact hr.2

/-- A signal moves only workers that wait. -/
theorem signal_at {p : Point} (hp : p ≠ .waiting) (hq : p ≠ .woken) (woken : List ℕ)
    (workers : List Point) (v : ℕ) :
    (signal woken workers)[v]? = some p ↔ workers[v]? = some p := by
  induction woken generalizing workers with
  | nil => rfl
  | cons w woken ih =>
    rw [signal, List.foldl_cons, ← signal, ih]
    rcases wake_eq workers w with h | ⟨hw,h⟩
    · rw [h]
    · rw [h]
      by_cases hv : v = w
      · subst hv
        rw [List.getElem?_set_self (List.getElem?_eq_some_iff.mp hw).1, hw]
        simp [hp.symm, hq.symm]
      · rw [List.getElem?_set_ne (Ne.symm hv)]

theorem exits_signal {picked : List (ℕ × TaskPtr)} {workers : List Point}
    (h : Exits picked workers) (woken : List ℕ) : Exits picked (signal woken workers) := by
  intro v
  have h1 := @signal_at .gone (by simp) (by simp) woken workers v
  have h2 := @signal_at (.running .stack) (by simp) (by simp) woken workers v
  simp only [h1, h2]
  exact h v

/-- A move between points that say nothing of an exit task. -/
theorem exits_moved {picked : List (ℕ × TaskPtr)} {workers : List Point} {w : ℕ} {p q : Point}
    (h : Exits picked workers) (at_ : workers[w]? = some p)
    (hpq : (p = .gone ∨ p = .running .stack) ↔ (q = .gone ∨ q = .running .stack)) :
    Exits picked (workers.set w q) := by
  intro v
  rw [h v]
  by_cases hv : v = w
  · subst hv
    rw [List.getElem?_set_self (List.getElem?_eq_some_iff.mp at_).1, at_]
    simp only [Option.some.injEq, hpq]
  · rw [List.getElem?_set_ne (Ne.symm hv)]

theorem exits_taken {picked : List (ℕ × TaskPtr)} {workers : List Point} {w : ℕ} {p : Point}
    (h : Exits picked workers) (at_ : workers[w]? = some p)
    (hp : ¬ (p = .gone ∨ p = .running .stack)) (t : TaskPtr) :
    Exits (picked++[(w, t)]) (workers.set w (.running t)) := by
  intro v
  rw [List.count_append, h v]
  by_cases hv : v = w
  · subst hv
    rw [List.getElem?_set_self (List.getElem?_eq_some_iff.mp at_).1, at_]
    simp only [Option.some.injEq, if_neg hp]
    by_cases ht : t = .stack <;> simp [ht]
  · rw [List.getElem?_set_ne (Ne.symm hv)]
    have hne : (v, TaskPtr.stack) ∉ [(w, t)] := by simp [hv]
    rw [List.count_eq_zero_of_not_mem hne, add_zero]

theorem step_exits {s s' : Plain κ} {act : Action κ} (hs : PoolStep s act s') (ho : Owned s)
    (h : Exits s.picked s.workers) : Exits s'.picked s'.workers := by
  cases hs with
  | post room signals live => exact exits_signal h _
  | @destroyPost n woken posting room signals live => exact exits_signal h woken
  | enterTake at_ head => exact exits_taken h at_ (by simp) _
  | recheckTake at_ head => exact exits_taken h at_ (by simp) _
  | enterWait at_ empty => exact exits_moved h at_ (by simp)
  | spurious at_ => exact exits_moved h at_ (by simp)
  | recheckWait at_ empty => exact exits_moved h at_ (by simp)
  | finish at_ task => exact exits_moved h at_ (by simp [work_heap ho task])
  | exit at_ task =>
    obtain rfl := exit_stack ho task
    exact exits_moved h at_ (by simp)
  | destroy idle => unfold State.round; split_ifs <;> exact h
  | destroyNext spinning cleared => unfold State.round; split_ifs <;> exact h
  | _ => exact h

theorem returned_taken {s : Plain κ} {w : ℕ} {p : Point} {t : TaskPtr} {rest : List TaskPtr}
    {waiting : ℤ} (h : Returned s) (at_ : s.workers[w]? = some p) (hp : held p = 0) :
    Returned (taken { s with waiting := waiting } w t rest) := by
  obtain ⟨m,h1,h2⟩ := total_split held at_
  show ((((s.picked++[(w, t)]).map Prod.snd : List TaskPtr) : Multiset TaskPtr).filter _) =
    (s.freed : Multiset TaskPtr)+(total held (s.workers.set w (.running t))).filter _
  rw [List.map_append, ← Multiset.coe_add, Multiset.filter_add, show Multiset.filter _ _ = _ from h,
    h1, h2, hp, add_zero, Multiset.filter_add, add_assoc]
  rfl

theorem returned_moved {s u : Plain κ} {w : ℕ} {p q : Point} (h : Returned s)
    (at_ : s.workers[w]? = some p) (hpicked : u.picked = s.picked) (hfreed : u.freed = s.freed)
    (hw : u.workers = s.workers.set w q)
    (hpq : (held p).filter (· ≠ .stack) = (held q).filter (· ≠ .stack)) : Returned u := by
  obtain ⟨m,h1,h2⟩ := total_split held at_
  unfold Returned at *
  rw [hpicked, hfreed, hw, h, h1, h2, Multiset.filter_add, Multiset.filter_add, hpq]

theorem step_returned {s s' : Plain κ} {act : Action κ} (hs : PoolStep s act s') (ho : Owned s)
    (h : Returned s) : Returned s' := by
  cases hs with
  | @post n woken room signals live =>
    show Multiset.filter _ _ = _+(total held (signal woken s.workers)).filter _
    rw [total_signal held rfl]
    exact h
  | @destroyPost n woken posting room signals live =>
    show Multiset.filter _ _ = _+(total held (signal woken s.workers)).filter _
    rw [total_signal held rfl]
    exact h
  | enterTake at_ head => exact returned_taken h at_ rfl
  | recheckTake at_ head => exact returned_taken h at_ rfl
  | enterWait at_ empty => exact returned_moved h at_ rfl rfl rfl rfl
  | spurious at_ => exact returned_moved h at_ rfl rfl rfl rfl
  | recheckWait at_ empty => exact returned_moved h at_ rfl rfl rfl rfl
  | @finish w t id ctx at_ task =>
    obtain ⟨m,h1,h2⟩ := total_split held at_
    have ht : Multiset.filter (· ≠ .stack) (held (.running t)) = {t} :=
      Multiset.filter_eq_self.mpr fun u hu => (Multiset.mem_singleton.mp hu) ▸ work_heap ho task
    unfold Returned at *
    rw [h1, Multiset.filter_add, ht] at h
    show _ = ((s.freed++[t] : List TaskPtr) : Multiset TaskPtr)+
      (total held (s.workers.set w .outside)).filter _
    rw [h, h2, ← Multiset.coe_add, Multiset.coe_singleton, add_assoc]
    show _ = _+({t}+(m+0).filter _)
    rw [add_zero, add_comm ({t} : Multiset TaskPtr)]
  | exit at_ task =>
    obtain rfl := exit_stack ho task
    exact returned_moved h at_ rfl rfl rfl rfl
  | destroy idle => unfold State.round; split_ifs <;> exact h
  | destroyNext spinning cleared => unfold State.round; split_ifs <;> exact h
  | _ => exact h

theorem step_freed {s s' : Plain κ} {act : Action κ} (hs : PoolStep s act s') (ho : Owned s)
    (h : TaskPtr.stack ∉ s.freed) : TaskPtr.stack ∉ s'.freed := by
  cases hs with
  | @finish w t id ctx at_ task =>
    rw [List.mem_append, List.mem_singleton]
    rintro (hm | hm)
    · exact h hm
    · exact work_heap ho task hm.symm
  | destroy idle => unfold State.round; split_ifs <;> exact h
  | destroyNext spinning cleared => unfold State.round; split_ifs <;> exact h
  | _ => exact h

structure Shutting (s : Plain κ) : Prop where
  owned : Owned s
  ordered : Ordered s
  rounds : Rounds s.destroyer s.lock (gone s) s.workers.length
  emptied : Emptied s.destroyer s.lock s.workers.length s.queue
  exits : Exits s.picked s.workers
  returned : Returned s
  kept : .stack ∉ s.freed

theorem start_shutting (threads : ℕ) (maxQueue : ℤ) :
    Shutting (State.start plainQueue threads maxQueue : Plain κ) where
  owned := start_owned threads maxQueue
  ordered := rfl
  rounds := by simp [State.start, Rounds, gone, List.count_replicate]
  emptied := trivial
  exits := by
    intro w
    by_cases hw : w < threads <;> simp [State.start, hw]
  returned := by
    show Multiset.filter _ _ = _+(total held (List.replicate threads .outside)).filter _
    rw [total_replicate held .outside rfl]
    rfl
  kept := by simp [State.start]

theorem step_shutting {s s' : Plain κ} {act : Action κ} (h : Shutting s)
    (hg : Orderly plainQueue s act) (hn : (plain κ).Next s act s') : Shutting s' := by
  have hs := next_step hn
  exact ⟨step_owned hs hg.1 h.owned,step_ordered hs h.ordered,step_rounds hs h.owned h.rounds,
    step_emptied hs h.owned hg h.rounds h.emptied,step_exits hs h.owned h.exits,
    step_returned hs h.owned h.returned,step_freed hs h.owned h.kept⟩

/-- An orderly run of the linked pool, read at the list of its linked nodes. -/
theorem run_shutting {threads : ℕ} {maxQueue : ℤ} {as : List (Action κ)} {s : Linked κ}
    (hr : (linked κ).Run (Orderly linkedQueue) (State.start linkedQueue threads maxQueue)
      as s) :
    ∃ l, s.queue.Represents l ∧ Shutting (atList s l) ∧ s.workers.length = threads := by
  have href : ∀ (s : Linked κ) v act, Refines s v → Orderly linkedQueue s act →
      Orderly plainQueue v act := by
    rintro s v act ⟨l,hl,rfl⟩ hg
    exact ⟨(disciplined_iff hl act).mp hg.1,hg.2⟩
  obtain ⟨v,hv,l,hrep,rfl⟩ := run_refines href (fun _ _ hg => hg.1) hr
  refine ⟨l,hrep,?_,(run_counted hv).2.2⟩
  exact hv.invariant (start_shutting threads maxQueue) fun _ _ _ h hg hn => step_shutting h hg hn

def Action.worker : Action κ → Option ℕ
  | .enter w | .spurious w | .recheck w | .finish w | .exit w => some w
  | _ => none

/-- The one node of the shutdown is never linked twice at once, and never freed. -/
structure NodeKept (s : Linked κ) : Prop where
  once : ∃ l, Chain s.queue.next s.queue.first l ∧ l.count .stack ≤ 1
  unlinked : ∀ n, s.destroyer = .posting n → ¬ s.queue.Linked .stack
  kept : .stack ∉ s.freed

/-- The pool after the loop of `thread_pool_destroy`. -/
structure ShutDown (s : Linked κ) : Prop where
  gone : ∀ p ∈ s.workers, p = .gone
  exits : ∀ w < s.workers.length, s.picked.count (w, .stack) = 1
  untouched : ∀ w act, Action.worker act = some w → (linked κ).step s act = none
  returned : ((s.picked.map Prod.snd).filter (· ≠ .stack)).Perm s.freed
  drained : 0 < s.workers.length → s.queue.first = none ∧ s.posted = s.picked.map Prod.snd

theorem shutting_kept {s : Linked κ} {l : List TaskPtr} (hrep : s.queue.Represents l)
    (h : Shutting (atList s l)) : NodeKept s where
  once := ⟨l,hrep.chain,List.nodup_iff_count_le_one.mp hrep.nodup _⟩
  unlinked n hn := by
    rw [hrep.linked]
    intro hm
    exact stack_free h.owned (fun m hm => by simp [atList, hn] at hm) (mem_owned.mpr (Or.inl hm))
  kept := h.kept

theorem gone_untouched {s : Linked κ} (h : ∀ p ∈ s.workers, p = .gone) {w : ℕ} {act : Action κ}
    (hw : Action.worker act = some w) : (linked κ).step s act = none := by
  have hat : s.workers[w]? = none ∨ s.workers[w]? = some .gone := by
    cases hp : s.workers[w]? with
    | none => exact Or.inl rfl
    | some p => exact Or.inr (congrArg some (h p (List.mem_of_getElem? hp)))
  cases act <;> simp only [Action.worker, Option.some.injEq, reduceCtorEq] at hw <;> subst hw <;>
    rcases hat with hat | hat <;> simp [machine, step, hat]

theorem shutting_done {s : Linked κ} {l : List TaskPtr} (hrep : s.queue.Represents l)
    (h : Shutting (atList s l)) (hd : s.destroyer = .done) : ShutDown s := by
  have hgone : ∀ p ∈ s.workers, p = .gone := by
    have hr := h.rounds
    rw [show (atList s l).destroyer = .done from hd] at hr
    intro p hp
    exact (List.count_eq_length.mp hr p hp).symm
  have hheld : total held s.workers = 0 := by
    apply Multiset.eq_zero_of_forall_notMem
    intro t ht
    have := hgone _ (mem_held.mp ht)
    simp at this
  refine ⟨hgone,fun w hw => ?_,fun w act hw => gone_untouched hgone hw,?_,fun hpos => ?_⟩
  · have hat : s.workers[w]? = some .gone := by
      rw [List.getElem?_eq_getElem hw, hgone _ (List.getElem_mem hw)]
    exact (h.exits w).trans (if_pos (Or.inl hat))
  · have hret : Multiset.filter _ _ = _+Multiset.filter _ (total held s.workers) := h.returned
    rw [hheld, Multiset.filter_zero, add_zero, Multiset.filter_coe, Multiset.coe_eq_coe] at hret
    exact hret
  · have he := h.emptied
    rw [show (atList s l).destroyer = .done from hd] at he
    have hnil : l = [] := he hpos
    have hord : s.posted = s.picked.map Prod.snd++l := h.ordered
    rw [hnil, List.append_nil] at hord
    exact ⟨by rw [hrep.first, hnil]; rfl,hord⟩

/-- In every state of an orderly run the node is kept, and once the loop of the
shutdown ends, the workers are gone and everything posted has been run. -/
theorem orderly_shutdown (threads : ℕ) (maxQueue : ℤ) (as : List (Action κ)) (s : Linked κ)
    (hr : (linked κ).Run (Orderly linkedQueue) (State.start linkedQueue threads maxQueue)
      as s) :
    s.workers.length = threads ∧ NodeKept s ∧ (s.destroyer = .done → ShutDown s) := by
  obtain ⟨l,hrep,h,hlen⟩ := run_shutting hr
  exact ⟨hlen,shutting_kept hrep h,shutting_done hrep h⟩

def exitRound (w : ℕ) : List (Action Unit) := [.destroyPost [], .enter w, .exit w, .destroyNext]

/-- One task is queued when the shutdown of the four workers begins. -/
theorem orderly_shutdown_four : ∃ s, (linked Unit).Run (Orderly linkedQueue)
      (State.start linkedQueue defaultThreadsNum defaultQueueNum)
      ([.alloc 1 (), .post 1 [], .destroy, .destroyPost [], .enter 0, .finish 0, .enter 0,
        .exit 0, .destroyNext]++exitRound 1++exitRound 2++exitRound 3) s ∧ ShutDown s := by
  have hfree : ∀ (s : Linked Unit) act, (∀ n woken, act ≠ .post n woken) →
      Orderly linkedQueue s act := by
    intro s act h
    refine ⟨?_,fun n woken he => absurd he (h n woken)⟩
    cases act with
    | post n woken => exact absurd rfl (h n woken)
    | _ => trivial
  obtain ⟨s,hs,hd⟩ : ∃ s, (linked Unit).Run (Orderly linkedQueue)
      (State.start linkedQueue defaultThreadsNum defaultQueueNum)
      ([.alloc 1 (), .post 1 [], .destroy, .destroyPost [], .enter 0, .finish 0, .enter 0,
        .exit 0, .destroyNext]++exitRound 1++exitRound 2++exitRound 3) s ∧
      s.destroyer = .done := by
    refine ⟨_,.cons (hfree _ _ (by simp)) rfl (.cons ⟨⟨?_,by decide⟩,fun _ _ _ => rfl⟩ rfl
      (Machine.run_of_replay (fun a ha t => hfree t a ?_) rfl)),rfl⟩
    · exact (@reach_iff _ _ _ _ [] rfl).not.mpr (by decide)
    · rintro n woken rfl
      simp [exitRound] at ha
  exact ⟨s,hs,(orderly_shutdown _ _ _ s hs).2.2 hd⟩

end SharedBike.PoolShutdown
