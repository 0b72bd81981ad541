import SharedBike.PoolMachine

/-!
# What one step of the pool can do

Every step of the pool whose queue is a plain list is one of the listed steps.
The workers at one program point are counted; a step moves one worker, and a
signal moves waiters to the woken.
-/

set_option autoImplicit false

namespace SharedBike.PoolSteps
open GuardedRuns SharedBike.PoolMachine

abbrev Plain (κ : Type) := State (List TaskPtr) κ

variable {κ : Type}

def taken (s : Plain κ) (w : ℕ) (t : TaskPtr) (rest : List TaskPtr) : Plain κ :=
  { s with
    queue := rest
    workers := s.workers.set w (.running t)
    picked := s.picked++[(w, t)] }

inductive PoolStep (s : Plain κ) : Action κ → Plain κ → Prop
  | alloc {n : ℕ} {ctx : κ} (fresh : ¬ s.Live (.heap n)) : PoolStep s (.alloc n ctx)
      { s with tasks := Function.update s.tasks (.heap n) (some ⟨0, .work ctx⟩) }
  | post {n : ℕ} {woken : List ℕ} (room : s.waiting < s.maxQueue)
      (signals : Signals woken s.workers) (live : s.Live (.heap n)) :
      PoolStep s (.post n woken) (s.link plainQueue (.heap n) woken)
  | overflow {n : ℕ} {woken : List ℕ} (full : s.maxQueue ≤ s.waiting) :
      PoolStep s (.post n woken) s
  | enterTake {w : ℕ} {t : TaskPtr} {rest : List TaskPtr}
      (at_ : s.workers[w]? = some .outside) (head : s.queue = t::rest) :
      PoolStep s (.enter w) (taken { s with waiting := s.waiting-1 } w t rest)
  | enterWait {w : ℕ} (at_ : s.workers[w]? = some .outside) (empty : s.queue = []) :
      PoolStep s (.enter w)
        { s with waiting := s.waiting-1, workers := s.workers.set w .waiting }
  | spurious {w : ℕ} (at_ : s.workers[w]? = some .waiting) :
      PoolStep s (.spurious w) { s with workers := s.workers.set w .woken }
  | recheckTake {w : ℕ} {t : TaskPtr} {rest : List TaskPtr}
      (at_ : s.workers[w]? = some .woken) (head : s.queue = t::rest) :
      PoolStep s (.recheck w) (taken s w t rest)
  | recheckWait {w : ℕ} (at_ : s.workers[w]? = some .woken) (empty : s.queue = []) :
      PoolStep s (.recheck w) { s with workers := s.workers.set w .waiting }
  | finish {w : ℕ} {t : TaskPtr} {id : ℕ} {ctx : κ}
      (at_ : s.workers[w]? = some (.running t)) (task : s.tasks t = some ⟨id, .work ctx⟩) :
      PoolStep s (.finish w) { s with
        tasks := Function.update s.tasks t none
        workers := s.workers.set w .outside
        freed := s.freed++[t] }
  | exit {w : ℕ} {t : TaskPtr} {id : ℕ} (at_ : s.workers[w]? = some (.running t))
      (task : s.tasks t = some ⟨id, .exitHandler⟩) :
      PoolStep s (.exit w) { s with lock := false, workers := s.workers.set w .gone }
  | destroy (idle : s.destroyer = .idle) : PoolStep s .destroy (State.round { s with
      tasks := Function.update s.tasks .stack (some ⟨0, .exitHandler⟩) } 0)
  | destroyPost {n : ℕ} {woken : List ℕ} (posting : s.destroyer = .posting n)
      (room : s.waiting < s.maxQueue) (signals : Signals woken s.workers)
      (live : s.Live .stack) : PoolStep s (.destroyPost woken)
        { s.link plainQueue .stack woken with destroyer := .spinning n }
  | destroyRefused {n : ℕ} {woken : List ℕ} (posting : s.destroyer = .posting n)
      (full : s.maxQueue ≤ s.waiting) : PoolStep s (.destroyPost woken)
        { s with destroyer := .refused, tasks := Function.update s.tasks .stack none }
  | destroyNext {n : ℕ} (spinning : s.destroyer = .spinning n) (cleared : s.lock = false) :
      PoolStep s .destroyNext (s.round (n+1))

/-- A post that does not fault either answers the overflow or links the node. -/
theorem post_iff {Q : Type} {ops : QueueOps Q} {s : State Q κ} {t : TaskPtr} {woken : List ℕ}
    {r : Option (State Q κ)} : s.post ops t woken = some (.ok r) ↔
      s.destroyer ≠ .done ∧ Signals woken s.workers ∧
        ((s.maxQueue ≤ s.waiting ∧ r = none) ∨
          (s.waiting < s.maxQueue ∧ s.Live t ∧ (∀ p ∈ ops.tail s.queue, s.Live p) ∧
            r = some (s.link ops t woken))) := by
  unfold State.post threadTaskPost
  by_cases hd : s.destroyer = .done
  · simp [hd]
  · by_cases hs : Signals woken s.workers
    · by_cases hfull : s.maxQueue ≤ s.waiting
      · simp [hd, hs, hfull, eq_comm]
      · have hroom := not_le.mp hfull
        simp only [hd, hs, hfull, if_false, not_true_eq_false, ne_eq, not_false_eq_true,
          true_and, false_and, false_or, hroom]
        split_ifs with hlive
        · simp only [Option.some.injEq, Except.ok.injEq]
          exact ⟨fun h => ⟨hlive.1,hlive.2,h.symm⟩,fun h => h.2.2.symm⟩
        · simp only [Option.some.injEq, reduceCtorEq, false_iff]
          exact fun h => hlive ⟨h.1,h.2.1⟩
    · simp [hd, hs]

theorem take_cases {s u : Plain κ} {w : ℕ} (h : s.take plainQueue w = .ok u) :
    (s.queue = [] ∧ u = { s with workers := s.workers.set w .waiting }) ∨
      ∃ t rest, s.queue = t::rest ∧ u = taken s w t rest := by
  unfold State.take at h
  cases hq : s.queue with
  | nil =>
    simp only [plainQueue, hq, List.head?_nil, Except.ok.injEq] at h
    exact Or.inl ⟨rfl,h.symm⟩
  | cons t rest =>
    simp only [plainQueue, hq, List.head?_cons] at h
    split_ifs at h
    simp only [Except.ok.injEq] at h
    exact Or.inr ⟨t,rest,rfl,h.symm⟩

theorem in_pool_iff {Q : Type} {s u : State Q κ} {r : Except Fault (State Q κ)} :
    s.inPool r = some (.ok u) ↔ s.destroyer ≠ .done ∧ r = .ok u := by
  unfold State.inPool
  split_ifs with hd
  · simp [hd]
  · simp [hd]

section Inversion

variable {Q : Type} {ops : QueueOps Q} {s s' : State Q κ} {n w : ℕ} {ctx : κ} {woken : List ℕ}

theorem next_alloc : (machine ops κ).Next s (.alloc n ctx) s' ↔ ¬ s.Live (.heap n) ∧ s' = { s with
    tasks := Function.update s.tasks (.heap n) (some ⟨0, .work ctx⟩)
    queue := ops.clear s.queue (.heap n) } := by
  simp only [Machine.Next, machine, step]
  split_ifs with hf
  · simp [hf]
  · simp [hf, eq_comm]

theorem next_post : (machine ops κ).Next s (.post n woken) s' ↔
    ∃ r, s.post ops (.heap n) woken = some (.ok r) ∧ s' = r.getD s := by
  simp only [Machine.Next, machine, step, Option.map_eq_some_iff]
  constructor
  · rintro ⟨r,hr,he⟩
    cases r with
    | error f => simp [Except.map] at he
    | ok r => exact ⟨r,hr,(Except.ok.inj he).symm⟩
  · rintro ⟨r,hr,rfl⟩
    exact ⟨_,hr,rfl⟩

theorem next_enter : (machine ops κ).Next s (.enter w) s' ↔ s.workers[w]? = some .outside ∧
    s.destroyer ≠ .done ∧ State.take ops { s with waiting := s.waiting-1 } w = .ok s' := by
  simp only [Machine.Next, machine, step]
  split
  · rename_i at_
    simp [in_pool_iff, at_]
  · rename_i hno
    exact iff_of_false (by simp) fun h => hno h.1

theorem next_spurious : (machine ops κ).Next s (.spurious w) s' ↔
    s.workers[w]? = some .waiting ∧ s.destroyer ≠ .done ∧
      s' = { s with workers := s.workers.set w .woken } := by
  simp only [Machine.Next, machine, step]
  split
  · rename_i at_
    rw [in_pool_iff, Except.ok.injEq, eq_comm (b := s')]
    simp [at_]
  · rename_i hno
    exact iff_of_false (by simp) fun h => hno h.1

theorem next_recheck : (machine ops κ).Next s (.recheck w) s' ↔
    s.workers[w]? = some .woken ∧ s.destroyer ≠ .done ∧ s.take ops w = .ok s' := by
  simp only [Machine.Next, machine, step]
  split
  · rename_i at_
    simp [in_pool_iff, at_]
  · rename_i hno
    exact iff_of_false (by simp) fun h => hno h.1

theorem next_finish : (machine ops κ).Next s (.finish w) s' ↔ ∃ t id ctx,
    s.workers[w]? = some (.running t) ∧ s.tasks t = some ⟨id, .work ctx⟩ ∧ s' = { s with
      queue := ops.clear s.queue t
      tasks := Function.update s.tasks t none
      workers := s.workers.set w .outside
      freed := s.freed++[t] } := by
  constructor
  · intro hn
    simp only [Machine.Next, machine, step] at hn
    split at hn
    · rename_i t at_
      split at hn <;> simp only [Option.some.injEq, Except.ok.injEq, reduceCtorEq] at hn
      rename_i task
      exact ⟨t,_,_,at_,task,hn.symm⟩
    · simp at hn
  · rintro ⟨t,id,ctx,at_,task,rfl⟩
    simp only [Machine.Next, machine, step, at_, task]

theorem next_exit : (machine ops κ).Next s (.exit w) s' ↔ ∃ t id,
    s.workers[w]? = some (.running t) ∧ s.tasks t = some ⟨id, .exitHandler⟩ ∧
      s' = { s with lock := false, workers := s.workers.set w .gone } := by
  constructor
  · intro hn
    simp only [Machine.Next, machine, step] at hn
    split at hn
    · rename_i t at_
      split at hn <;> simp only [Option.some.injEq, Except.ok.injEq, reduceCtorEq] at hn
      rename_i task
      exact ⟨t,_,at_,task,hn.symm⟩
    · simp at hn
  · rintro ⟨t,id,at_,task,rfl⟩
    simp only [Machine.Next, machine, step, at_, task]

theorem next_destroy : (machine ops κ).Next s .destroy s' ↔ s.destroyer = .idle ∧
    s' = State.round { s with
      tasks := Function.update s.tasks .stack (some ⟨0, .exitHandler⟩)
      queue := ops.clear s.queue .stack } 0 := by
  simp only [Machine.Next, machine, step]
  split_ifs with hi
  · simp [hi, eq_comm]
  · simp [hi]

theorem next_destroy_post : (machine ops κ).Next s (.destroyPost woken) s' ↔ ∃ n r,
    s.destroyer = .posting n ∧ s.post ops .stack woken = some (.ok r) ∧
      s' = s.exitPosted n r := by
  constructor
  · intro hn
    simp only [Machine.Next, machine, step] at hn
    split at hn
    · rename_i n hp
      obtain ⟨r,hr,he⟩ := Option.map_eq_some_iff.mp hn
      cases r with
      | error f => simp [Except.map] at he
      | ok r => exact ⟨n,r,hp,hr,(Except.ok.inj he).symm⟩
    · simp at hn
  · rintro ⟨n,r,hp,hr,rfl⟩
    simp only [Machine.Next, machine, step, hp, hr]
    rfl

theorem next_destroy_next : (machine ops κ).Next s .destroyNext s' ↔ ∃ n,
    s.destroyer = .spinning n ∧ s.lock = false ∧ s' = s.round (n+1) := by
  constructor
  · intro hn
    simp only [Machine.Next, machine, step] at hn
    split at hn
    · rename_i n hs
      split_ifs at hn with hl
      exact ⟨n,hs,Bool.eq_false_iff.mpr hl,(Except.ok.inj (Option.some.inj hn)).symm⟩
    · simp at hn
  · rintro ⟨n,hs,hl,rfl⟩
    simp [Machine.Next, machine, step, hs, hl]

end Inversion

theorem next_step {s s' : Plain κ} {act : Action κ} (hn : (plain κ).Next s act s') :
    PoolStep s act s' := by
  cases act with
  | alloc n ctx =>
    obtain ⟨hf,rfl⟩ := next_alloc.mp hn
    exact .alloc hf
  | post n woken =>
    obtain ⟨r,hr,rfl⟩ := next_post.mp hn
    obtain ⟨-,hsig,⟨hfull,rfl⟩ | ⟨hroom,hlive,-,rfl⟩⟩ := post_iff.mp hr
    · exact .overflow hfull
    · exact .post hroom hsig hlive
  | enter w =>
    obtain ⟨at_,-,ht⟩ := next_enter.mp hn
    rcases take_cases ht with ⟨hq,rfl⟩ | ⟨t,rest,hq,rfl⟩
    · exact .enterWait at_ hq
    · exact .enterTake at_ hq
  | spurious w =>
    obtain ⟨at_,-,rfl⟩ := next_spurious.mp hn
    exact .spurious at_
  | recheck w =>
    obtain ⟨at_,-,ht⟩ := next_recheck.mp hn
    rcases take_cases ht with ⟨hq,rfl⟩ | ⟨t,rest,hq,rfl⟩
    · exact .recheckWait at_ hq
    · exact .recheckTake at_ hq
  | finish w =>
    obtain ⟨t,id,ctx,at_,task,rfl⟩ := next_finish.mp hn
    exact .finish at_ task
  | exit w =>
    obtain ⟨t,id,at_,task,rfl⟩ := next_exit.mp hn
    exact .exit at_ task
  | destroy =>
    obtain ⟨hi,rfl⟩ := next_destroy.mp hn
    exact .destroy hi
  | destroyPost woken =>
    obtain ⟨n,r,hp,hr,rfl⟩ := next_destroy_post.mp hn
    obtain ⟨-,hsig,⟨hfull,rfl⟩ | ⟨hroom,hlive,-,rfl⟩⟩ := post_iff.mp hr
    · exact .destroyRefused hp hfull
    · exact .destroyPost hp hroom hsig hlive
  | destroyNext =>
    obtain ⟨n,hs,hl,rfl⟩ := next_destroy_next.mp hn
    exact .destroyNext hs hl

section Destroying

variable {Q : Type} {ops : QueueOps Q} {s s' : State Q κ} {act : Action κ}

theorem take_destroyer {w : ℕ} (h : s.take ops w = .ok s') : s'.destroyer = s.destroyer := by
  unfold State.take at h
  split at h
  · obtain rfl := Except.ok.inj h
    rfl
  · split_ifs at h
    obtain rfl := Except.ok.inj h
    rfl

/-- The destroying thread moves only by its own steps. -/
theorem destroyer_still (hn : (machine ops κ).Next s act s') (h1 : act ≠ .destroy)
    (h2 : ∀ woken, act ≠ .destroyPost woken) (h3 : act ≠ .destroyNext) :
    s'.destroyer = s.destroyer := by
  cases act with
  | alloc n ctx =>
    obtain ⟨-,rfl⟩ := next_alloc.mp hn
    rfl
  | post n woken =>
    obtain ⟨r,hr,rfl⟩ := next_post.mp hn
    obtain ⟨-,-,⟨-,rfl⟩ | ⟨-,-,-,rfl⟩⟩ := post_iff.mp hr <;> rfl
  | enter w =>
    have h := take_destroyer (next_enter.mp hn).2.2
    exact h
  | spurious w =>
    obtain ⟨-,-,rfl⟩ := next_spurious.mp hn
    rfl
  | recheck w => exact take_destroyer (next_recheck.mp hn).2.2
  | finish w =>
    obtain ⟨t,id,ctx,-,-,rfl⟩ := next_finish.mp hn
    rfl
  | exit w =>
    obtain ⟨t,id,-,-,rfl⟩ := next_exit.mp hn
    rfl
  | destroy => exact absurd rfl h1
  | destroyPost woken => exact absurd rfl (h2 woken)
  | destroyNext => exact absurd rfl h3

theorem round_not_refused (s : State Q κ) (n : ℕ) : (s.round n).destroyer ≠ .refused := by
  unfold State.round
  split_ifs <;> simp

/-- The destroying thread is refused exactly by a post that meets the limit. -/
theorem next_refused (hn : (machine ops κ).Next s act s') : s'.destroyer = .refused ↔
    s.destroyer = .refused ∨ ∃ woken, act = .destroyPost woken ∧ s.maxQueue ≤ s.waiting := by
  by_cases hd : act = .destroy
  · subst hd
    obtain ⟨hi,rfl⟩ := next_destroy.mp hn
    exact iff_of_false (round_not_refused _ 0) (by simp [hi])
  by_cases hnext : act = .destroyNext
  · subst hnext
    obtain ⟨n,hs,-,rfl⟩ := next_destroy_next.mp hn
    exact iff_of_false (round_not_refused _ _) (by simp [hs])
  by_cases hpost : ∃ woken, act = .destroyPost woken
  · obtain ⟨woken,rfl⟩ := hpost
    obtain ⟨n,r,hp,hr,rfl⟩ := next_destroy_post.mp hn
    obtain ⟨-,-,⟨hfull,rfl⟩ | ⟨hroom,-,-,rfl⟩⟩ := post_iff.mp hr
    · exact iff_of_true rfl (Or.inr ⟨woken,rfl,hfull⟩)
    · apply iff_of_false
      · simp [State.exitPosted]
      · simp [hp, not_le.mpr hroom]
  · have hstill := destroyer_still hn hd (fun woken he => hpost ⟨woken,he⟩) hnext
    rw [hstill, or_iff_left]
    rintro ⟨woken,rfl,-⟩
    exact hpost ⟨woken,rfl⟩

end Destroying

section Pools
open SharedBike.ThreadPool (Pool cycleEnter cycleTake)

/-- The queue and the counter of the pool, without its threads. -/
def pool (s : Plain κ) : Pool TaskPtr := ⟨s.queue, s.waiting, s.maxQueue⟩

/-- A post as the pool sees it; a refused one leaves it as it was. -/
def Posts {τ : Type} (p p' : Pool τ) (t : τ) : Prop := p' = (ThreadPool.threadTaskPost p t).getD p

/-- A worker takes the first task, or finds none. -/
def Takes {τ : Type} (p p' : Pool τ) : Prop := p' = ((cycleTake p).map Prod.snd).getD p

def Effect (p p' : Pool TaskPtr) : Action κ → Prop
  | .post n _ => Posts p p' (.heap n)
  | .destroyPost _ => Posts p p' .stack
  | .enter _ => Takes (cycleEnter p) p'
  | .recheck _ => Takes p p'
  | _ => p' = p

/-- The steps of the machine change the pool by its own operations only. -/
theorem step_effect {s s' : Plain κ} {act : Action κ} (hs : PoolStep s act s') :
    Effect (pool s) (pool s') act := by
  have hposts : ∀ t : TaskPtr, s.waiting < s.maxQueue →
      ThreadPool.threadTaskPost (pool s) t = some ⟨s.queue++[t], s.waiting+1, s.maxQueue⟩ :=
    fun t hroom => if_neg (not_le.mpr hroom)
  have hfull : ∀ t : TaskPtr, s.maxQueue ≤ s.waiting →
      ThreadPool.threadTaskPost (pool s) t = none := fun t hfull => if_pos hfull
  cases hs with
  | @post n woken room signals live =>
    show _ = Option.getD _ _
    rw [hposts (.heap n) room]
    rfl
  | @overflow n woken full =>
    show _ = Option.getD _ _
    rw [hfull (.heap n) full]
    rfl
  | destroyPost posting room signals live =>
    show _ = Option.getD _ _
    rw [hposts .stack room]
    rfl
  | destroyRefused posting full =>
    show _ = Option.getD _ _
    rw [hfull .stack full]
    rfl
  | enterTake at_ head => simp [Effect, Takes, pool, cycleEnter, cycleTake, taken, head]
  | enterWait at_ empty => simp [Effect, Takes, pool, cycleEnter, cycleTake, empty]
  | recheckTake at_ head => simp [Effect, Takes, pool, cycleTake, taken, head]
  | recheckWait at_ empty => simp [Effect, Takes, pool, cycleTake, empty]
  | destroy idle => unfold State.round; split_ifs <;> rfl
  | destroyNext spinning cleared => unfold State.round; split_ifs <;> rfl
  | _ => rfl

end Pools

end SharedBike.PoolSteps
