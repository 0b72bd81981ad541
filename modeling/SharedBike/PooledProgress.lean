import SharedBike.PooledPlatform
import SharedBike.Progress

/-!
# The platform on its pool comes to rest

A worker that sleeps looks again only when it has been woken, so each woken worker
stands for one look into the queue. With them counted in, a step that needs nothing
from the network takes at least one off what is left to do. Polls and spurious
wake-ups are the exceptions: each adds one at most.
-/

set_option autoImplicit false

namespace SharedBike.PooledProgress
open GuardedRuns Slots
open SharedBike.BikeProtocol SharedBike.DispatchMsgService
open SharedBike.Server (Work Worker)
open SharedBike.PoolMachine (Point linked)
open SharedBike.PoolRefinement (Linked atList)
open SharedBike.PoolFailures (next_intact)
open SharedBike.PoolWakeups (rechecks step_woken)
open SharedBike.Progress SharedBike.PooledServer SharedBike.PooledPlatform

variable {pb : Protobuf} {hd : Handler} {s u : State} {act : Action} {a : Platform.Action}
variable {n : ℕ} {woken : List ℕ}

/-- A poll, or a wake-up that nobody signalled. -/
def idle : Action → Bool
  | .step _ _ _ => false
  | _ => true

/-- A step that needs nothing from the network; a drain that finds nothing is a poll. -/
def Undisturbed (s : State) : Action → Prop
  | .step a _ _ => Unprompted a ∧ (a = .net .drain → s.1.srv.responseEvents ≠ [])
  | _ => True

def Useful (s : State) (act : Action) : Prop := Undisturbed s act ∧ idle act = false

/-- What is left to do. -/
def load (s : State) : ℕ := rank s.1+s.2.workers.count .woken

section Pools

variable {r r' : Server.State} {p q : Linked Work} {as : List (PoolMachine.Action Work)}

theorem share_woken (h : Paired r p) (hs : Shared r r' n woken as)
    (hpost : ∀ m v, .post m v ∉ as) (hr : (linked Work).Run Machine.Free p as q) :
    (as.map rechecks).sum+q.workers.count .woken ≤ p.workers.count .woken := by
  obtain ⟨l,hl,-⟩ := h
  have hone : ∀ {act}, (∀ m v, act ≠ .post m v) → (∀ v, act ≠ .destroyPost v) →
      (∀ w, act ≠ .spurious w) → (linked Work).Next p act q →
      rechecks act+q.workers.count .woken ≤ p.workers.count .woken := by
    intro act h1 h2 h3 hn
    obtain ⟨m,-,hs⟩ := next_intact hl (free_act act h1) hn
    exact step_woken hs h1 h2 h3
  cases hs with
  | dispatch t tp workers => exact absurd (by simp) (hpost n woken)
  | still tp workers =>
    obtain rfl := Option.some.inj hr.replay_eq
    exact (Nat.zero_add _).le
  | answer at_ tp workers =>
    obtain rfl := Option.some.inj hr.replay_eq
    exact (Nat.zero_add _).le
  | enter at_ tp workers => exact hone (by simp) (by simp) (by simp) hr.one
  | wake at_ tp workers => exact hone (by simp) (by simp) (by simp) hr.one
  | done at_ busy tp workers => exact hone (by simp) (by simp) (by simp) hr.one

end Pools

/-- Only the dispatch of a request posts a node. -/
theorem post_arrives {r : Platform.State} {m : ℕ} {v : List ℕ}
    (h : .post m v ∈ poolPart pb r (.step a n woken)) : ∃ b bytes, a = .net (.arrive b bytes) := by
  simp only [poolPart] at h
  cases hact : netAction r a with
  | none => simp [hact] at h
  | some act =>
    rw [hact] at h
    cases act with
    | arrive b bytes => exact ⟨b,bytes,(net_action_some hact).resolve_right (by simp)⟩
    | svc w answer =>
      simp only [share] at h
      split at h
      · split at h <;> simp at h
      · simp at h
    | _ => simp [share] at h

/-- Without requests nobody is woken, and a worker that looks again is woken no longer. -/
theorem step_woken_le (hp : Pooled s) (hu : Unprompted a)
    (hn : (machine pb).Next s (.step a n woken) u) :
    u.2.workers.count .woken ≤ s.2.workers.count .woken ∧
      ∀ w, a = .net (.wake w) → u.2.workers.count .woken < s.2.workers.count .woken := by
  cases next_stepped hn with
  | step next pool =>
    have hpost : ∀ m v, .post m v ∉ poolPart pb s.1 (.step a n woken) := by
      intro m v hm
      obtain ⟨b,bytes,rfl⟩ := post_arrives hm
      exact hu.elim
    have hle := share_woken hp (moved_shared next) hpost pool
    refine ⟨(Nat.le_add_left _ _).trans hle,?_⟩
    rintro w rfl
    exact (Nat.lt_one_add_iff.mpr le_rfl).trans_le hle

theorem undisturbed_gainful (hg : Undisturbed s (.step a n woken)) :
    Gainful s.1 a ∨ ∃ w, a = .net (.wake w) ∧ s.1.srv.tp.queue = [] := by
  cases a with
  | net act =>
    cases act with
    | wake w =>
      by_cases hq : s.1.srv.tp.queue = []
      · exact Or.inr ⟨w,rfl,hq⟩
      · exact Or.inl hq
    | drain => exact Or.inl (hg.2 rfl)
    | _ => exact Or.inl trivial
  | _ => exact Or.inl trivial

/-- The step lemma: a look into an empty queue costs a woken worker, and every
other step of the platform lowers its rank. -/
theorem next_load (hc : Chronicles.Chronicled pb hd s.1) (hp : Pooled s) (hg : Undisturbed s act)
    (hn : (machine pb).Next s act u) :
    (!idle act).toNat+load u ≤ load s+(idle act).toNat := by
  obtain ⟨v,q⟩ := u
  cases act with
  | step a n woken =>
    obtain ⟨hle,hlt⟩ := step_woken_le hp hg.1 hn
    show 1+(rank v+q.workers.count .woken) ≤ rank s.1+s.2.workers.count .woken
    cases next_stepped hn with
    | step next pool =>
      rcases undisturbed_gainful hg with hgain | ⟨w,rfl,hq⟩
      · have hrank := next_rank hc hg.1 hgain next
        dsimp only at hle hrank
        omega
      · have hrank := wake_rank hc hq next
        have hlt := hlt w rfl
        dsimp only at hlt hrank
        omega
  | poll =>
    cases next_stepped hn with
    | poll next =>
      have hrank := drain_rank next
      show 0+(rank v+s.2.workers.count .woken) ≤ rank s.1+s.2.workers.count .woken+1
      omega
  | spurious w =>
    cases next_stepped hn with
    | spurious next =>
      obtain ⟨at_,-,rfl⟩ := PoolSteps.next_spurious.mp next
      have hcount := PoolCounting.count_set at_ .woken .woken
      simp only [reduceCtorEq, if_false, if_true] at hcount
      show 0+(rank s.1+(s.2.workers.set w .woken).count .woken) ≤
        rank s.1+s.2.workers.count .woken+1
      omega

theorem woken_sleepers {tasks : PoolOwnership.Store Work} {l : List Worker} {ps : List Point}
    (h : List.Forall₂ (At tasks) l ps) : ps.count .woken ≤ total sleeper l := by
  induction h with
  | nil => simp [total]
  | @cons x p l ps hat _ ih =>
    rw [total_cons, List.count_cons, Nat.add_comm]
    by_cases hp : p = .woken
    · subst hp
      cases x with
      | blocked => exact Nat.add_le_add le_rfl ih
      | idle => simp [At] at hat
      | running t => obtain ⟨y,hy,-⟩ := hat; simp at hy
      | pushing t => obtain ⟨y,t,hy,-⟩ := hat; simp at hy
    · simp only [beq_iff_eq, hp, if_false]
      omega

/-- What is left to do in terms of what is in flight. -/
theorem load_le (hp : Pooled s) :
    load s ≤ 14*s.1.srv.inFlight.card+s.1.srv.workers.length+2 := by
  obtain ⟨l,-,ha⟩ := hp
  have hwoken := woken_sleepers ha.workers
  have hrank := rank_le s.1
  show rank s.1+s.2.workers.count .woken ≤ _
  have : (atList s.2 l).workers = s.2.workers := rfl
  rw [this] at hwoken
  omega

end SharedBike.PooledProgress
