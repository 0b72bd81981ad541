import SharedBike.PoolCounting
import SharedBike.Library.Heaps

/-!
# Who holds a task node

The pool owns a posted node until the worker that picked it frees it: a node
is linked once, or held by one worker, or neither. Posts are disciplined if
they keep to that. The node of `thread_pool_destroy` is owned exactly while
its flag is set in a spinning round.
-/

set_option autoImplicit false

namespace SharedBike.PoolOwnership
open Slots Heaps SharedBike.PoolMachine SharedBike.PoolSteps
open SharedBike.PoolCounting

variable {Q κ : Type}

/-- A posted node is neither linked nor still held by the worker that picked it. -/
def Disciplined (ops : QueueOps Q) (s : State Q κ) : Action κ → Prop
  | .post n _ => ¬ ops.linked s.queue (.heap n) ∧ .running (.heap n) ∉ s.workers
  | _ => True

def held : Point → Multiset TaskPtr
  | .running t => {t}
  | _ => 0

def owned (s : Plain κ) : Multiset TaskPtr := (s.queue : Multiset TaskPtr)+total held s.workers

abbrev Store (κ : Type) := TaskPtr → Option (PoolMachine.Task κ)

/-- Only the node on the stack has the exit handler. -/
structure Typed (tasks : Store κ) : Prop where
  heap_work : ∀ n task, tasks (.heap n) = some task → ∃ ctx, task.job = .work ctx
  stack_exit : ∀ task, tasks .stack = some task → task.job = .exitHandler

structure Owned (s : Plain κ) : Prop where
  nodup : (owned s).Nodup
  live : ∀ t ∈ owned s, s.Live t
  typed : Typed s.tasks
  stack_live : s.Live .stack ↔ ∃ n, s.destroyer = .posting n ∨ s.destroyer = .spinning n
  stack_owned : .stack ∈ owned s ↔ ∃ n, s.destroyer = .spinning n ∧ s.lock = true
  armed : ∀ n, s.destroyer = .posting n → s.lock = true

theorem mem_held {workers : List Point} {t : TaskPtr} :
    t ∈ total held workers ↔ .running t ∈ workers := by
  induction workers with
  | nil => simp [total]
  | cons p workers ih =>
    rw [total_cons, Multiset.mem_add, ih, List.mem_cons]
    cases p <;> simp [held]

theorem mem_owned {s : Plain κ} {t : TaskPtr} :
    t ∈ owned s ↔ t ∈ s.queue ∨ .running t ∈ s.workers := by
  rw [owned, Multiset.mem_add, Multiset.mem_coe, mem_held]

theorem running_owned {s : Plain κ} {w : ℕ} {t : TaskPtr}
    (at_ : s.workers[w]? = some (.running t)) : t ∈ owned s :=
  mem_owned.mpr (Or.inr (List.mem_of_getElem? at_))

/-- A task whose handler is the exit handler is the node of `thread_pool_destroy`. -/
theorem exit_stack {s : Plain κ} (h : Owned s) {t : TaskPtr} {id : ℕ}
    (task : s.tasks t = some ⟨id, .exitHandler⟩) : t = .stack := by
  cases t with
  | stack => rfl
  | heap n =>
    obtain ⟨ctx,hctx⟩ := h.typed.heap_work n _ task
    simp at hctx

theorem work_heap {s : Plain κ} (h : Owned s) {t : TaskPtr} {id : ℕ} {ctx : κ}
    (task : s.tasks t = some ⟨id, .work ctx⟩) : t ≠ .stack := by
  rintro rfl
  simpa using h.typed.stack_exit _ task

section Moves

variable {s : Plain κ} {w : ℕ} {p : Point} {t : TaskPtr}

theorem owned_link (s : Plain κ) (t : TaskPtr) (woken : List ℕ) :
    owned (s.link plainQueue t woken) = owned s+{t} := by
  show ((s.queue++[t] : List TaskPtr) : Multiset TaskPtr)+total held (signal woken s.workers) = _
  rw [total_signal held rfl, ← Multiset.coe_add, Multiset.coe_singleton, owned, add_right_comm]

theorem owned_taken {waiting : ℤ} {rest : List TaskPtr} (at_ : s.workers[w]? = some p)
    (hp : held p = 0) (head : s.queue = t::rest) :
    owned (taken { s with waiting := waiting } w t rest) = owned s := by
  obtain ⟨m,h1,h2⟩ := total_split held at_
  show (rest : Multiset TaskPtr)+total held (s.workers.set w (.running t)) = _
  rw [owned, h1, h2, hp, head, ← Multiset.cons_coe, ← Multiset.singleton_add, add_zero]
  show (rest : Multiset TaskPtr)+(m+{t}) = {t}+rest+m
  rw [add_comm m, ← add_assoc, add_comm (rest : Multiset TaskPtr)]

theorem owned_moved {u : Plain κ} {q : Point} (at_ : s.workers[w]? = some p)
    (hq : u.queue = s.queue) (hw : u.workers = s.workers.set w q) (h : held p = held q) :
    owned u = owned s := by
  obtain ⟨m,h1,h2⟩ := total_split held at_
  rw [owned, owned, hq, hw, h1, h2, h]

theorem owned_released {u : Plain κ} {q : Point} (at_ : s.workers[w]? = some (.running t))
    (hq : u.queue = s.queue) (hw : u.workers = s.workers.set w q) (h : held q = 0) :
    owned s = owned u+{t} := by
  obtain ⟨m,h1,h2⟩ := total_split held at_
  rw [owned, owned, hq, hw, h1, h2, h, add_zero, add_assoc]
  rfl

theorem link_live {u : TaskPtr} (s : Plain κ) (t : TaskPtr) (woken : List ℕ) :
    (s.link plainQueue t woken).Live u ↔ s.Live u := by
  unfold State.Live State.link
  by_cases hu : u = t
  · subst hu
    simp
  · simp [Function.update_of_ne hu]

end Moves

/-- What a worker holds is not linked. -/
theorem not_linked_of_running {s : Plain κ} (h : Owned s) {w : ℕ} {t : TaskPtr}
    (at_ : s.workers[w]? = some (.running t)) : t ∉ s.queue := by
  intro hm
  have hn := Multiset.nodup_add.mp h.nodup
  exact Multiset.disjoint_left.mp hn.2.2 (Multiset.mem_coe.mpr hm)
    (mem_held.mpr (List.mem_of_getElem? at_))

section Stores

variable {tasks : Store κ} {t : TaskPtr}

theorem typed_erase (h : Typed tasks) (t : TaskPtr) : Typed (Function.update tasks t none) :=
  ⟨fun n x hx => h.heap_work n x (of_erase hx),fun x hx => h.stack_exit x (of_erase hx)⟩

theorem typed_alloc (h : Typed tasks) (n : ℕ) (ctx : κ) :
    Typed (Function.update tasks (.heap n) (some ⟨0, .work ctx⟩)) := by
  constructor
  · intro m x hx
    rcases update_cases hx with ⟨-,hx⟩ | ⟨-,hx⟩
    · obtain rfl := Option.some.inj hx
      exact ⟨ctx,rfl⟩
    · exact h.heap_work m x hx
  · intro x hx
    rcases update_cases hx with ⟨he,-⟩ | ⟨-,hx⟩
    · simp at he
    · exact h.stack_exit x hx

theorem typed_destroy (h : Typed tasks) :
    Typed (Function.update tasks .stack (some ⟨0, .exitHandler⟩)) := by
  constructor
  · intro m x hx
    rcases update_cases hx with ⟨he,-⟩ | ⟨-,hx⟩
    · simp at he
    · exact h.heap_work m x hx
  · intro x hx
    rcases update_cases hx with ⟨-,hx⟩ | ⟨he,-⟩
    · obtain rfl := Option.some.inj hx
      rfl
    · simp at he

theorem typed_link (h : Typed tasks) (t : TaskPtr) (id : ℕ) :
    Typed (Function.update tasks t ((tasks t).map ({ · with id := id }))) := by
  constructor
  · intro m x hx
    rcases update_cases hx with ⟨rfl,hx⟩ | ⟨-,hx⟩
    · cases ht : tasks (.heap m) with
      | none => simp [ht] at hx
      | some old =>
        rw [ht] at hx
        obtain rfl := Option.some.inj hx
        exact h.heap_work m old ht
    · exact h.heap_work m x hx
  · intro x hx
    rcases update_cases hx with ⟨rfl,hx⟩ | ⟨-,hx⟩
    · cases ht : tasks .stack with
      | none => simp [ht] at hx
      | some old =>
        rw [ht] at hx
        obtain rfl := Option.some.inj hx
        exact h.stack_exit old ht
    · exact h.stack_exit x hx

theorem live_update {u : TaskPtr} (h : u ≠ t) (x : Option (PoolMachine.Task κ)) :
    (Function.update tasks t x u).isSome = (tasks u).isSome := by
  rw [Function.update_of_ne h]

end Stores

theorem start_owned (threads : ℕ) (maxQueue : ℤ) :
    Owned (State.start plainQueue threads maxQueue : Plain κ) := by
  have h0 : owned (State.start plainQueue threads maxQueue : Plain κ) = 0 := by
    rw [owned]
    show ([] : List TaskPtr)+total held (List.replicate threads .outside) = 0
    rw [total_replicate held .outside rfl]
    rfl
  constructor
  · rw [h0]
    exact Multiset.nodup_zero
  · intro t ht
    simp [h0] at ht
  · exact ⟨fun n x hx => by simp [State.start] at hx,fun x hx => by simp [State.start] at hx⟩
  · simp [State.Live, State.start]
  · rw [h0]
    simp [State.start]
  · intro n hn
    simp [State.start] at hn

/-- Steps that only move nodes between the queue and the workers. -/
theorem Owned.congr {s u : Plain κ} (h : Owned s) (ho : owned u = owned s)
    (ht : u.tasks = s.tasks) (hd : u.destroyer = s.destroyer) (hl : u.lock = s.lock) :
    Owned u := by
  obtain ⟨h1,h2,h3,h4,h5,h6⟩ := h
  constructor <;> simp only [State.Live, ho, ht, hd, hl] <;> assumption

theorem link_nodup {s : Plain κ} {t : TaskPtr} (h : Owned s) (ht : t ∉ owned s)
    (woken : List ℕ) : (owned (s.link plainQueue t woken)).Nodup := by
  rw [owned_link, add_comm, Multiset.singleton_add, Multiset.nodup_cons]
  exact ⟨ht,h.nodup⟩

theorem link_all_live {s : Plain κ} {t : TaskPtr} (h : Owned s) (live : s.Live t)
    (woken : List ℕ) :
    ∀ u ∈ owned (s.link plainQueue t woken), (s.link plainQueue t woken).Live u := by
  intro u hu
  rw [owned_link] at hu
  rw [link_live]
  rcases mem_snoc.mp hu with hu | rfl
  · exact h.live u hu
  · exact live

/-- A worker that lets go of its node leaves it with nobody. -/
theorem released {s u : Plain κ} {t : TaskPtr} (h : Owned s) (hsplit : owned s = owned u+{t}) :
    (owned u).Nodup ∧ t ∉ owned u ∧ ∀ v ∈ owned u, v ∈ owned s := by
  have hn := h.nodup
  rw [hsplit, add_comm, Multiset.singleton_add, Multiset.nodup_cons] at hn
  refine ⟨hn.2,hn.1,fun v hv => ?_⟩
  rw [hsplit]
  exact mem_snoc.mpr (Or.inl hv)

/-- While its flag is clear, or no round spins, the node of `thread_pool_destroy` is free. -/
theorem stack_free {s : Plain κ} (h : Owned s)
    (hd : ∀ n, s.destroyer = .spinning n → s.lock = false) : .stack ∉ owned s := by
  intro hm
  obtain ⟨n,hn,hl⟩ := h.stack_owned.mp hm
  simp [hd n hn] at hl

/-- The node dies with the call that it lives in. -/
theorem ended_owned {s u : Plain κ} (nodup : (owned s).Nodup) (live : ∀ t ∈ owned s, s.Live t)
    (typed : Typed s.tasks) (free : .stack ∉ owned s) (ho : owned u = owned s)
    (ht : u.tasks = Function.update s.tasks .stack none)
    (hd : u.destroyer = .refused ∨ u.destroyer = .done) : Owned u := by
  have hno : ∀ n, u.destroyer ≠ .posting n ∧ u.destroyer ≠ .spinning n := by
    intro n
    rcases hd with hd | hd <;> simp [hd]
  constructor
  · rw [ho]
    exact nodup
  · intro t htm
    rw [ho] at htm
    have hne : t ≠ .stack := fun he => free (he ▸ htm)
    rw [State.Live, ht, live_update hne]
    exact live t htm
  · rw [ht]
    exact typed_erase typed .stack
  · rw [State.Live, ht]
    simp [hno]
  · rw [ho]
    exact iff_of_false free fun ⟨n,hn,_⟩ => (hno n).2 hn
  · exact fun n hn => absurd hn (hno n).1

/-- The loop head of `thread_pool_destroy`, reached with its node free. -/
theorem round_owned {s : Plain κ} (n : ℕ) (nodup : (owned s).Nodup)
    (live : ∀ t ∈ owned s, s.Live t) (typed : Typed s.tasks) (active : s.Live .stack)
    (free : .stack ∉ owned s) : Owned (s.round n) := by
  unfold State.round
  split_ifs with hn
  · refine ⟨nodup,live,typed,iff_of_true active ⟨n,Or.inl rfl⟩,iff_of_false free ?_,
      fun _ _ => rfl⟩
    rintro ⟨m,hm,-⟩
    simp at hm
  · exact ended_owned nodup live typed free rfl rfl (Or.inr rfl)

theorem step_owned {s s' : Plain κ} {act : Action κ} (hs : PoolStep s act s')
    (hg : Disciplined plainQueue s act) (h : Owned s) : Owned s' := by
  cases hs with
  | @alloc n ctx fresh =>
    refine ⟨h.nodup,fun t ht => ?_,typed_alloc h.typed n ctx,?_,h.stack_owned,h.armed⟩
    · have hne : t ≠ .heap n := fun he => fresh (he ▸ h.live t ht)
      exact (live_update hne _).trans (h.live t ht)
    · exact Iff.trans (by rw [State.Live, live_update (by simp)]; rfl) h.stack_live
  | @post n woken room signals live =>
    have hne : TaskPtr.heap n ∉ owned s := by
      rw [mem_owned]
      exact not_or.mpr hg
    refine ⟨link_nodup h hne woken,link_all_live h live woken,typed_link h.typed _ _,
      (link_live s _ _).trans h.stack_live,?_,h.armed⟩
    rw [owned_link, mem_snoc]
    simp only [reduceCtorEq, or_false]
    exact h.stack_owned
  | overflow full => exact h
  | enterTake at_ head => exact h.congr (owned_taken at_ rfl head) rfl rfl rfl
  | enterWait at_ empty => exact h.congr (owned_moved at_ rfl rfl rfl) rfl rfl rfl
  | spurious at_ => exact h.congr (owned_moved at_ rfl rfl rfl) rfl rfl rfl
  | recheckTake at_ head => exact h.congr (owned_taken at_ rfl head) rfl rfl rfl
  | recheckWait at_ empty => exact h.congr (owned_moved at_ rfl rfl rfl) rfl rfl rfl
  | @finish w t id ctx at_ task =>
    have hsplit := owned_released at_ (u := { s with
      tasks := Function.update s.tasks t none
      workers := s.workers.set w .outside
      freed := s.freed++[t] }) rfl rfl rfl
    have hne := work_heap h task
    obtain ⟨hnodup,hfree,hkept⟩ := released h hsplit
    refine ⟨hnodup,fun u hu => ?_,typed_erase h.typed t,?_,?_,h.armed⟩
    · have hut : u ≠ t := fun he => hfree (he ▸ hu)
      exact (live_update hut none).trans (h.live u (hkept u hu))
    · exact Iff.trans (by rw [State.Live, live_update hne.symm]; rfl) h.stack_live
    · refine Iff.trans ?_ h.stack_owned
      rw [hsplit, mem_snoc, or_iff_left hne.symm]
  | @exit w t id at_ task =>
    obtain rfl := exit_stack h task
    obtain ⟨hnodup,hfree,hkept⟩ := released h (owned_released at_
      (u := { s with lock := false, workers := s.workers.set w .gone }) rfl rfl rfl)
    obtain ⟨n,hspin,-⟩ := h.stack_owned.mp (running_owned at_)
    refine ⟨hnodup,fun u hu => h.live u (hkept u hu),h.typed,h.stack_live,
      iff_of_false hfree ?_,?_⟩
    · rintro ⟨m,-,hm⟩
      simp at hm
    · intro m hm
      have hm' : s.destroyer = .posting m := hm
      simp [hspin] at hm'
  | destroy idle =>
    have hfree := stack_free h (fun n hn => by simp [idle] at hn)
    refine round_owned 0 h.nodup (fun t ht => ?_) (typed_destroy h.typed) ?_ hfree
    · have hne : t ≠ .stack := fun he => hfree (he ▸ ht)
      exact (live_update hne _).trans (h.live t ht)
    · simp [State.Live]
  | @destroyPost n woken posting room signals live =>
    have hfree := stack_free h (fun m hm => by simp [posting] at hm)
    refine ⟨link_nodup h hfree woken,link_all_live h live woken,typed_link h.typed _ _,?_,?_,?_⟩
    · exact iff_of_true ((link_live s .stack woken).mpr live) ⟨n,Or.inr rfl⟩
    · refine iff_of_true ?_ ⟨n,rfl,h.armed n posting⟩
      show .stack ∈ owned (s.link plainQueue .stack woken)
      rw [owned_link, mem_snoc]
      exact Or.inr rfl
    · intro m hm
      simp at hm
  | @destroyRefused n woken posting full =>
    have hfree := stack_free h (fun m hm => by simp [posting] at hm)
    exact ended_owned h.nodup h.live h.typed hfree rfl rfl (Or.inl rfl)
  | @destroyNext n spinning cleared =>
    exact round_owned (n+1) h.nodup h.live h.typed (h.stack_live.mpr ⟨n,Or.inr spinning⟩)
      (stack_free h fun _ _ => cleared)

end SharedBike.PoolOwnership
