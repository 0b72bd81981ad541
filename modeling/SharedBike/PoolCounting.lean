import SharedBike.PoolSteps
import Mathlib.Tactic.Ring

/-!
# Counting workers and tasks of the pool

A worker is parked from its decrement of `waiting` until it takes a task. The
counter is the number of queued tasks less the number of parked workers, and
while some worker waits unsignalled, every queued task has a woken worker of
its own.
-/

set_option autoImplicit false

namespace SharedBike.PoolCounting
open Slots SharedBike.PoolMachine SharedBike.PoolSteps

variable {κ : Type}

/-- Workers that counted themselves in `waiting` for this round and have no task yet. -/
def parked (workers : List Point) : ℕ := workers.count .waiting+workers.count .woken

section Counts

variable {workers : List Point} {w : ℕ} {p : Point}

theorem count_set (h : workers[w]? = some p) (q x : Point) :
    (workers.set w q).count x+(if p = x then 1 else 0) =
      workers.count x+(if q = x then 1 else 0) := by
  obtain ⟨rest,h1,h2⟩ := countP_split (· == x) h
  have hnat : ∀ y : Point, (y == x).toNat = if y = x then 1 else 0 := by
    intro y
    by_cases hy : y = x <;> simp [hy]
  have h3 := h2 q
  rw [hnat] at h1 h3
  rw [List.count_eq_countP, List.count_eq_countP, h1, h3]
  ring

theorem wake_eq (workers : List Point) (w : ℕ) :
    wake workers w = workers ∨
      (workers[w]? = some .waiting ∧ wake workers w = workers.set w .woken) := by
  unfold wake
  split_ifs with h
  · exact Or.inr ⟨h,rfl⟩
  · exact Or.inl rfl

/-- A signal keeps every total to which waiters and woken workers add the same. -/
theorem total_signal {M : Type*} [AddCommMonoid M] (f : Point → M) (hf : f .waiting = f .woken)
    (woken : List ℕ) (workers : List Point) :
    total f (signal woken workers) = total f workers := by
  induction woken generalizing workers with
  | nil => rfl
  | cons v woken ih =>
    rw [signal, List.foldl_cons, ← signal, ih]
    rcases wake_eq workers v with h | ⟨hv,h⟩
    · rw [h]
    · obtain ⟨rest,h1,h2⟩ := total_split f hv
      rw [h, h1, h2, hf]

theorem count_signal (x : Point) (h : x ≠ .waiting) (h' : x ≠ .woken) (woken : List ℕ)
    (workers : List Point) : (signal woken workers).count x = workers.count x := by
  have hf := total_signal (fun y => (y == x).toNat)
    (by rw [beq_false_of_ne h.symm, beq_false_of_ne h'.symm]) woken workers
  rw [List.count_eq_countP, List.count_eq_countP, countP_eq_total, countP_eq_total, hf]

theorem parked_signal (woken : List ℕ) (workers : List Point) :
    parked (signal woken workers) = parked workers := by
  induction woken generalizing workers with
  | nil => rfl
  | cons v woken ih =>
    rw [signal, List.foldl_cons, ← signal, ih]
    rcases wake_eq workers v with h | ⟨hv,h⟩
    · rw [h]
    · have h1 := count_set hv .woken .waiting
      have h2 := count_set hv .woken .woken
      simp only [if_true, reduceCtorEq, if_false] at h1 h2
      rw [h, parked, parked]
      omega

theorem waiting_signal_le (woken : List ℕ) (workers : List Point) :
    (signal woken workers).count .waiting ≤ workers.count .waiting := by
  induction woken generalizing workers with
  | nil => exact le_rfl
  | cons v woken ih =>
    rw [signal, List.foldl_cons, ← signal]
    apply (ih _).trans
    rcases wake_eq workers v with h | ⟨hv,h⟩
    · rw [h]
    · have h1 := count_set hv .woken .waiting
      simp only [if_true, reduceCtorEq, if_false] at h1
      rw [h]
      omega

theorem waiting_signal_lt {woken : List ℕ} (hw : w ∈ woken) (h : workers[w]? = some .waiting) :
    (signal woken workers).count .waiting < workers.count .waiting := by
  induction woken generalizing workers with
  | nil => simp at hw
  | cons v woken ih =>
    rw [signal, List.foldl_cons, ← signal]
    by_cases hv : workers[v]? = some .waiting
    · have h1 := count_set hv .woken .waiting
      simp only [if_true, reduceCtorEq, if_false] at h1
      have hle := waiting_signal_le woken (workers.set v .woken)
      rw [wake, if_pos hv]
      omega
    · rw [wake, if_neg hv]
      apply ih _ h
      rcases List.mem_cons.mp hw with rfl | hw
      · exact absurd h hv
      · exact hw

/-- A signal that finds a waiter turns at least one into a woken worker. -/
theorem signal_wakes {woken : List ℕ} (hs : Signals woken workers)
    (h : 0 < workers.count .waiting) :
    (signal woken workers).count .waiting < workers.count .waiting := by
  obtain ⟨v,hv,hw⟩ := hs (List.count_pos_iff.mp h)
  exact waiting_signal_lt hv hw

theorem parked_le (workers : List Point) : parked workers ≤ workers.length := by
  induction workers with
  | nil => simp [parked]
  | cons p workers ih =>
    unfold parked at ih ⊢
    cases p <;> simp <;> omega

theorem length_signal (woken : List ℕ) (workers : List Point) :
    (signal woken workers).length = workers.length := by
  induction woken generalizing workers with
  | nil => rfl
  | cons v woken ih =>
    rw [signal, List.foldl_cons, ← signal, ih]
    rcases wake_eq workers v with h | ⟨-,h⟩
    · rw [h]
    · rw [h, List.length_set]

end Counts

/-- What the counter and the wake-ups say, for the numbers of queued tasks, of
workers waiting unsignalled, and of woken ones. -/
def Tally (waiting maxQueue : ℤ) (queued sleeping woken : ℕ) : Prop :=
  waiting = queued-(sleeping+woken : ℕ) ∧ (0 ≤ maxQueue → waiting ≤ maxQueue) ∧
    (0 < sleeping → queued ≤ woken)

def Counted (s : Plain κ) : Prop :=
  Tally s.waiting s.maxQueue s.queue.length (s.workers.count .waiting) (s.workers.count .woken)

theorem start_counted (threads : ℕ) (maxQueue : ℤ) :
    Counted (State.start plainQueue threads maxQueue : Plain κ) := by
  refine ⟨?_,fun h => h,fun _ => Nat.zero_le _⟩
  simp [State.start, plainQueue, List.count_replicate]

/-- A post counts one more task, and gives it a woken worker if one waits. -/
theorem link_counted {s : Plain κ} {t : TaskPtr} {woken : List ℕ} (h : Counted s)
    (room : s.waiting < s.maxQueue) (signals : Signals woken s.workers) :
    Counted (s.link plainQueue t woken) := by
  have hp := parked_signal woken s.workers
  have hle := waiting_signal_le woken s.workers
  have hlt := signal_wakes signals
  show Tally (s.waiting+1) s.maxQueue (s.queue++[t]).length _ _
  rw [List.length_append, List.length_singleton]
  unfold Counted Tally at *
  unfold parked at hp
  simp only [State.link]
  omega

/-- A step that moves one worker, as the tally sees it: `a` and `b` are counted
before the move, `c` and `d` after it. -/
theorem moved_counted {s u : Plain κ} {w : ℕ} {p q : Point} (h : Counted s)
    (at_ : s.workers[w]? = some p) (hw : u.workers = s.workers.set w q)
    (htally : ∀ a b c d : ℕ, Tally s.waiting s.maxQueue s.queue.length a b →
      c+(if p = .waiting then 1 else 0) = a+(if q = .waiting then 1 else 0) →
      d+(if p = .woken then 1 else 0) = b+(if q = .woken then 1 else 0) →
      Tally u.waiting u.maxQueue u.queue.length c d) : Counted u := by
  unfold Counted
  rw [hw]
  exact htally _ _ _ _ h (count_set at_ q .waiting) (count_set at_ q .woken)

theorem step_counted {s s' : Plain κ} {act : Action κ} (hs : PoolStep s act s')
    (h : Counted s) : Counted s' := by
  cases hs with
  | alloc fresh => exact h
  | post room signals live => exact link_counted h room signals
  | overflow full => exact h
  | @enterTake w t rest at_ head =>
    apply moved_counted h at_ rfl
    intro a b c d ht h1 h2
    simp only [Tally, taken, head, List.length_cons, reduceCtorEq, if_false] at *
    omega
  | @enterWait w at_ empty =>
    apply moved_counted h at_ rfl
    intro a b c d ht h1 h2
    simp only [Tally, empty, List.length_nil, reduceCtorEq, if_false, if_true] at *
    omega
  | @spurious w at_ =>
    apply moved_counted h at_ rfl
    intro a b c d ht h1 h2
    simp only [Tally, reduceCtorEq, if_false, if_true] at *
    omega
  | @recheckTake w t rest at_ head =>
    apply moved_counted h at_ rfl
    intro a b c d ht h1 h2
    simp only [Tally, taken, head, List.length_cons, reduceCtorEq, if_false, if_true] at *
    omega
  | @recheckWait w at_ empty =>
    apply moved_counted h at_ rfl
    intro a b c d ht h1 h2
    simp only [Tally, empty, List.length_nil, reduceCtorEq, if_false, if_true] at *
    omega
  | @finish w t id ctx at_ task =>
    apply moved_counted h at_ rfl
    intro a b c d ht h1 h2
    simp only [reduceCtorEq, if_false] at h1 h2
    rwa [show c = a by omega, show d = b by omega]
  | @exit w t id at_ task =>
    apply moved_counted h at_ rfl
    intro a b c d ht h1 h2
    simp only [reduceCtorEq, if_false] at h1 h2
    rwa [show c = a by omega, show d = b by omega]
  | destroy idle => unfold State.round; split_ifs <;> exact h
  | destroyPost posting room signals live => exact link_counted h room signals
  | destroyRefused posting full => exact h
  | destroyNext spinning cleared => unfold State.round; split_ifs <;> exact h

end SharedBike.PoolCounting
