import SharedBike.PoolOwnership

/-!
# The linked queue refines the plain list

The pool of the source, run with disciplined posts, takes the same steps as
the pool whose queue is the list of the linked nodes. What is proved of the
list carries over.
-/

set_option autoImplicit false

namespace SharedBike.PoolRefinement
open TailQueues SharedBike.PoolMachine SharedBike.PoolSteps SharedBike.PoolOwnership

abbrev Linked (κ : Type) := State (TailQueue TaskPtr) κ

variable {κ : Type}

def atList (s : Linked κ) (l : List TaskPtr) : Plain κ where
  queue := l
  waiting := s.waiting
  maxQueue := s.maxQueue
  workers := s.workers
  tasks := s.tasks
  taskId := s.taskId
  lock := s.lock
  destroyer := s.destroyer
  posted := s.posted
  picked := s.picked
  freed := s.freed

/-- Same state, with the queue read as the list that it represents. -/
def Refines (s : Linked κ) (v : Plain κ) : Prop :=
  ∃ l, s.queue.Represents l ∧ v = atList s l

theorem start_refines (threads : ℕ) (maxQueue : ℤ) :
    Refines (State.start linkedQueue threads maxQueue : Linked κ)
      (State.start plainQueue threads maxQueue) :=
  ⟨[],TailQueue.represents_empty,rfl⟩

section Steps

variable {s u : Linked κ} {l : List TaskPtr} {w : ℕ} {t : TaskPtr} {woken : List ℕ}

theorem disciplined_iff (h : s.queue.Represents l) (act : Action κ) :
    Disciplined linkedQueue s act ↔ Disciplined plainQueue (atList s l) act := by
  cases act with
  | post n woken =>
    have hl : linkedQueue.linked s.queue (.heap n) ↔ TaskPtr.heap n ∈ l := h.linked
    simp only [Disciplined, hl]
    rfl
  | _ => exact Iff.rfl

theorem take_refines (h : s.queue.Represents l) (ht : s.take linkedQueue w = .ok u) :
    ∃ m, (atList s l).take plainQueue w = .ok (atList u m) ∧ u.queue.Represents m := by
  unfold State.take at ht
  rw [show linkedQueue.first s.queue = l.head? from h.first] at ht
  cases l with
  | nil =>
    obtain rfl := Except.ok.inj ht
    exact ⟨[],rfl,h⟩
  | cons t l =>
    simp only [List.head?_cons] at ht
    split_ifs at ht with hlive
    obtain rfl := Except.ok.inj ht
    refine ⟨l,?_,TailQueue.represents_pop h⟩
    have hl : (atList s (t::l)).Live t := hlive
    unfold State.take
    simp only [show plainQueue.first (atList s (t::l)).queue = some t from rfl, if_pos hl]
    rfl

theorem post_refines {r : Option (Linked κ)} (h : s.queue.Represents l) (ht : t ∉ l)
    (hp : s.post linkedQueue t woken = some (.ok r)) :
    ∃ r', (atList s l).post plainQueue t woken = some (.ok r') ∧
      ((r = none ∧ r' = none) ∨
        ∃ u, r = some u ∧ r' = some (atList u (l++[t])) ∧ u.queue.Represents (l++[t]) ∧
          u = s.link linkedQueue t woken) := by
  obtain ⟨hd,hs,⟨hfull,rfl⟩ | ⟨hroom,hlive,htail,rfl⟩⟩ := post_iff.mp hp
  · exact ⟨none,post_iff.mpr ⟨hd,hs,Or.inl ⟨hfull,rfl⟩⟩,Or.inl ⟨rfl,rfl⟩⟩
  · have htail' : ∀ p ∈ plainQueue.tail (atList s l).queue, (atList s l).Live p := by
      intro p hp
      apply htail
      rw [show linkedQueue.tail s.queue = l.getLast? from h.tail]
      exact hp
    refine ⟨_,post_iff.mpr ⟨hd,hs,Or.inr ⟨hroom,hlive,htail',rfl⟩⟩,Or.inr ⟨_,rfl,rfl,?_,rfl⟩⟩
    exact TailQueue.represents_push h ht

end Steps

theorem round_queue (s : Linked κ) (n : ℕ) : (s.round n).queue = s.queue := by
  unfold State.round
  split_ifs <;> rfl

theorem round_at_list (s : Linked κ) (l : List TaskPtr) (n : ℕ) :
    (atList s l).round n = atList (s.round n) l := by
  unfold State.round
  by_cases hn : n < s.workers.length
  · rw [if_pos hn, if_pos (show n < (atList s l).workers.length from hn)]
    rfl
  · rw [if_neg hn, if_neg (show ¬ n < (atList s l).workers.length from hn)]
    rfl

/-- One step of the linked pool is the same step of the plain pool. -/
theorem next_refines {s s' : Linked κ} {v : Plain κ} {act : Action κ} (ho : Owned v)
    (h : Refines s v) (hg : Disciplined plainQueue v act) (hn : (linked κ).Next s act s') :
    ∃ v', (plain κ).Next v act v' ∧ Refines s' v' := by
  obtain ⟨l,hrep,rfl⟩ := h
  have hdead : ∀ t, ¬ s.Live t → t ∉ l := fun t ht hm =>
    ht (ho.live t (mem_owned.mpr (Or.inl hm)))
  cases act with
  | alloc n ctx =>
    obtain ⟨hf,rfl⟩ := next_alloc.mp hn
    exact ⟨_,next_alloc.mpr ⟨hf,rfl⟩,l,TailQueue.represents_clear hrep (hdead _ hf),rfl⟩
  | post n woken =>
    obtain ⟨r,hr,rfl⟩ := next_post.mp hn
    obtain ⟨r',hr',hcase⟩ := post_refines hrep hg.1 hr
    refine ⟨_,next_post.mpr ⟨r',hr',rfl⟩,?_⟩
    rcases hcase with ⟨rfl,rfl⟩ | ⟨u,rfl,rfl,hu,-⟩
    · exact ⟨l,hrep,rfl⟩
    · exact ⟨_,hu,rfl⟩
  | enter w =>
    obtain ⟨at_,hd,ht⟩ := next_enter.mp hn
    obtain ⟨m,hm,hu⟩ := @take_refines _ { s with waiting := s.waiting-1 } s' l w hrep ht
    exact ⟨_,next_enter.mpr ⟨at_,hd,hm⟩,m,hu,rfl⟩
  | spurious w =>
    obtain ⟨at_,hd,rfl⟩ := next_spurious.mp hn
    exact ⟨_,next_spurious.mpr ⟨at_,hd,rfl⟩,l,hrep,rfl⟩
  | recheck w =>
    obtain ⟨at_,hd,ht⟩ := next_recheck.mp hn
    obtain ⟨m,hm,hu⟩ := take_refines hrep ht
    exact ⟨_,next_recheck.mpr ⟨at_,hd,hm⟩,m,hu,rfl⟩
  | finish w =>
    obtain ⟨t,id,ctx,at_,task,rfl⟩ := next_finish.mp hn
    -- the node is held by the worker, so it is not linked and its link may change
    have hne : t ∉ l := fun hm => not_linked_of_running ho at_ hm
    exact ⟨_,next_finish.mpr ⟨t,id,ctx,at_,task,rfl⟩,l,TailQueue.represents_clear hrep hne,rfl⟩
  | exit w =>
    obtain ⟨t,id,at_,task,rfl⟩ := next_exit.mp hn
    exact ⟨_,next_exit.mpr ⟨t,id,at_,task,rfl⟩,l,hrep,rfl⟩
  | destroy =>
    obtain ⟨hi,rfl⟩ := next_destroy.mp hn
    have hfree := stack_free ho (fun n hm => by simp [atList, hi] at hm)
    have hne : TaskPtr.stack ∉ l := fun hm => hfree (mem_owned.mpr (Or.inl hm))
    refine ⟨_,next_destroy.mpr ⟨hi,rfl⟩,l,?_,round_at_list { s with
      tasks := Function.update s.tasks .stack (some ⟨0, .exitHandler⟩)
      queue := linkedQueue.clear s.queue .stack } l 0⟩
    rw [round_queue]
    exact TailQueue.represents_clear hrep hne
  | destroyPost woken =>
    obtain ⟨n,r,hp,hr,rfl⟩ := next_destroy_post.mp hn
    have hfree := stack_free ho (fun m hm => by simp [atList, hp] at hm)
    have hne : TaskPtr.stack ∉ l := fun hm => hfree (mem_owned.mpr (Or.inl hm))
    obtain ⟨r',hr',hcase⟩ := post_refines hrep hne hr
    refine ⟨_,next_destroy_post.mpr ⟨n,r',hp,hr',rfl⟩,?_⟩
    rcases hcase with ⟨rfl,rfl⟩ | ⟨u,rfl,rfl,hu,-⟩
    · exact ⟨l,hrep,rfl⟩
    · exact ⟨_,hu,rfl⟩
  | destroyNext =>
    obtain ⟨n,hs,hl,rfl⟩ := next_destroy_next.mp hn
    refine ⟨_,next_destroy_next.mpr ⟨n,hs,hl,rfl⟩,l,?_,round_at_list s l (n+1)⟩
    rw [round_queue]
    exact hrep

/-- A run of the linked pool under a guard that makes its posts disciplined is
a run of the plain pool under the corresponding guard. -/
theorem run_refines {G : Linked κ → Action κ → Prop} {H : Plain κ → Action κ → Prop}
    (hh : ∀ s v act, Refines s v → G s act → H v act)
    (hd : ∀ v act, H v act → Disciplined plainQueue v act)
    {threads : ℕ} {maxQueue : ℤ} {as : List (Action κ)} {s : Linked κ}
    (hr : (linked κ).Run G (State.start linkedQueue threads maxQueue) as s) :
    ∃ v, (plain κ).Run H (State.start plainQueue threads maxQueue) as v ∧ Refines s v := by
  apply hr.simulate (start_refines threads maxQueue)
  intro as t v act u hrel hrun hga hn
  have ho : Owned v := hrun.invariant (start_owned threads maxQueue)
    fun _ _ _ h hga hn => step_owned (next_step hn) (hd _ _ hga) h
  obtain ⟨u',hn',hu⟩ := next_refines ho hrel (hd v act (hh t v act hrel hga)) hn
  exact ⟨u',hh t v act hrel hga,hn',hu⟩

theorem run_disciplined {threads : ℕ} {maxQueue : ℤ} {as : List (Action κ)} {s : Linked κ}
    (hr : (linked κ).Run (Disciplined linkedQueue) (State.start linkedQueue threads maxQueue)
      as s) :
    ∃ v, (plain κ).Run (Disciplined plainQueue) (State.start plainQueue threads maxQueue) as v ∧
      Refines s v := by
  refine run_refines (fun s v act hrel hg => ?_) (fun _ _ h => h) hr
  obtain ⟨l,hl,rfl⟩ := hrel
  exact (disciplined_iff hl act).mp hg

end SharedBike.PoolRefinement
