import SharedBike.PooledServer
import SharedBike.Platform

/-!
# The platform on the linked pool

The platform and the pool of the source side by side: each step of the platform
is made together with its share of the pool, and a wake-up for which nobody
signalled is a step of the pool alone. A poll is a drain as any other; the name
is for those that find nothing to do.
-/

set_option autoImplicit false

namespace SharedBike.PooledPlatform
open GuardedRuns
open SharedBike.Globals SharedBike.BikeProtocol SharedBike.DispatchMsgService
open SharedBike.Server (Work Worker)
open SharedBike.PoolMachine (Point linkedQueue linked)
open SharedBike.PoolOwnership (Disciplined)
open SharedBike.PoolRefinement (Linked atList)
open SharedBike.PooledServer

abbrev State := Platform.State × Linked Work

def start (h : Handler) (threads : ℕ) (maxQueue : ℤ) (table : UserService.UserInfo) : State :=
  (Platform.State.start h threads maxQueue table,
    PoolMachine.State.start linkedQueue threads maxQueue)

inductive Action where
  | step (act : Platform.Action) (n : ℕ) (woken : List ℕ)
  | poll
  | spurious (w : ℕ)

/-- What an action of the platform is to the server. -/
def netAction (s : Platform.State) : Platform.Action → Option Server.Action
  | .net act => some act
  | .handle w => match s.srv.workers[w]?, s.calling w with
    | some (.running t), none =>
      if s.srv.svrExit = true ∨ Platform.callees s.srv.subscribers t.ev = [] then
        some (.svc w fun _ => none)
      else none
    | _, _ => none
  | .advance _ _ => none
  | .finish w => match s.calling w with
    | some i => match s.users.calls[i]? with
      | some ⟨_, .returned rsp⟩ => some (.svc w fun _ => rsp)
      | _ => none
    | none => none

def platformPart : Action → List Platform.Action
  | .step act _ _ => [act]
  | .poll => [.net .drain]
  | .spurious _ => []

def poolPart (pb : Protobuf) (s : Platform.State) : Action → List (PoolMachine.Action Work)
  | .step act n woken => match netAction s act with
    | some act => share pb s.srv n woken act
    | none => []
  | .poll => []
  | .spurious w => [.spurious w]

def machine (pb : Protobuf) : Machine State Action (Fault ⊕ PoolMachine.Fault) :=
  Machine.beside (Platform.machine pb) (linked Work) platformPart (poolPart pb)

/-- A condition on the steps that the platform makes. -/
def OnPlatform (G : Platform.State → Platform.Action → Prop) (s : State) : Action → Prop
  | .step act _ _ => G s.1 act
  | .poll => G s.1 (.net .drain)
  | .spurious _ => True

section Steps

variable {pb : Protobuf} {s u : State} {r v : Platform.State} {act : Action}
variable {a : Platform.Action} {n w : ℕ} {woken : List ℕ}

/-- A call that the platform makes for a worker is no step of the server. -/
theorem handle_shared (hn : (Platform.machine pb).Next r (.handle w) v) :
    Shared r.srv v.srv n woken (poolPart pb r (.step (.handle w) n woken)) := by
  simp only [Machine.Next, Platform.machine, Platform.step] at hn
  split at hn
  · rename_i t at_ idle
    simp only [poolPart, netAction, at_, idle]
    split_ifs at hn ⊢
    · obtain ⟨srv,hs,rfl⟩ := Platform.mapped_next hn
      exact next_shared n woken hs
    · obtain ⟨users,hs,rfl⟩ := Platform.mapped_next hn
      exact .still rfl rfl
  · simp at hn

theorem moved_shared (hn : (Platform.machine pb).Next r a v) :
    Shared r.srv v.srv n woken (poolPart pb r (.step a n woken)) := by
  have hmoved := Platform.next_moved hn
  cases a with
  | net act => cases hmoved with | net other next => exact next_shared n woken next
  | handle w => exact handle_shared hn
  | advance w env => cases hmoved with | advance busy next => exact .still rfl rfl
  | finish w =>
    cases hmoved with
    | finish busy done next =>
      simp only [poolPart, netAction, busy, done]
      exact next_shared n woken next

/-- A step of the platform with its share, a poll, or a step of the pool alone. -/
inductive Stepped (pb : Protobuf) (s : State) : Action → State → Prop
  | step {a : Platform.Action} {n : ℕ} {woken : List ℕ} {v : Platform.State} {q : Linked Work}
      (next : (Platform.machine pb).Next s.1 a v)
      (pool : (linked Work).Run Machine.Free s.2 (poolPart pb s.1 (.step a n woken)) q) :
      Stepped pb s (.step a n woken) (v, q)
  | poll {v : Platform.State} (next : (Platform.machine pb).Next s.1 (.net .drain) v) :
      Stepped pb s .poll (v, s.2)
  | spurious {w : ℕ} {q : Linked Work} (next : (linked Work).Next s.2 (.spurious w) q) :
      Stepped pb s (.spurious w) (s.1, q)

theorem next_stepped (hn : (machine pb).Next s act u) : Stepped pb s act u := by
  obtain ⟨h1,h2⟩ := Machine.beside_next.mp hn
  obtain ⟨v,q⟩ := u
  cases act with
  | step a n woken => exact .step h1.one h2
  | poll =>
    obtain rfl := Option.some.inj h2.replay_eq
    exact .poll h1.one
  | spurious w =>
    obtain rfl := Option.some.inj h1.replay_eq
    exact .spurious h2.one

/-- The server of the platform agrees with the pool. -/
def Pooled (s : State) : Prop := Paired s.1.srv s.2

theorem poll_shared (hn : (Platform.machine pb).Next r (.net .drain) v) :
    Shared r.srv v.srv 0 [] [] := moved_shared hn

theorem next_pooled (h : Pooled s) (hn : (machine pb).Next s act u) :
    (linked Work).Run (Disciplined linkedQueue) s.2 (poolPart pb s.1 act) u.2 ∧ Pooled u := by
  cases next_stepped hn with
  | step next pool => exact next_paired h (moved_shared next) pool
  | poll next => exact next_paired h (poll_shared next) .nil
  | @spurious w q next =>
    exact ⟨.single (free_act (.spurious w) nofun) next,spurious_paired h next⟩

theorem start_pooled (hd : Handler) (threads : ℕ) (maxQueue : ℤ) (table : UserService.UserInfo) :
    Pooled (start hd threads maxQueue table) := start_paired _ _ _

/-- What is not an action of the server itself is the end of a handler. -/
theorem net_action_some {act : Server.Action} (h : netAction r a = some act) :
    a = .net act ∨ ∃ w answer, act = .svc w answer := by
  unfold netAction at h
  split at h
  · exact Or.inl (by rw [Option.some.inj h])
  · split at h
    · split_ifs at h
      exact Or.inr ⟨_,_,(Option.some.inj h).symm⟩
    · simp at h
  · simp at h
  · split at h
    · split at h
      · exact Or.inr ⟨_,_,(Option.some.inj h).symm⟩
      · simp at h
    · simp at h

/-- The pool holds back no step of the platform but the wake-up of a sleeping worker. -/
theorem step_next (h : Pooled s) (hn : (Platform.machine pb).Next s.1 a v)
    (hawake : ∀ w, a = .net (.wake w) → s.2.workers[w]? ≠ some .waiting) :
    ∃ n woken q, (machine pb).Next s (.step a n woken) (v, q) := by
  obtain ⟨n,woken,hfresh,hsig⟩ := fresh_node h
  have hready : Ready s.2 (poolPart pb s.1 (.step a n woken)) := by
    simp only [poolPart]
    cases hact : netAction s.1 a with
    | none => trivial
    | some act =>
      refine share_ready hfresh hsig fun w he => hawake w ?_
      subst he
      exact (net_action_some hact).resolve_right (by simp)
  obtain ⟨q,hq⟩ := shared_enabled h (moved_shared hn) hready
  exact ⟨n,woken,q,Machine.beside_next.mpr ⟨.single trivial hn,hq⟩⟩

/-- Every fault of the two is a fault of the platform. -/
theorem pooled_faults (h : Pooled s) {f : Fault ⊕ PoolMachine.Fault}
    (hf : (machine pb).Fails s act f) :
    ∃ e, f = .inl e ∧ (Platform.machine pb).steps s.1 (platformPart act) = some (.error e) := by
  rcases Machine.beside_fails hf with hl | ⟨e,v,-,hr,hp⟩
  · exact hl
  cases act with
  | step a n woken => exact absurd hp (shared_safe h (moved_shared hr.one) e)
  | poll => simp [poolPart, Machine.steps] at hp
  | spurious w =>
    obtain ⟨l,hl,ha⟩ := h
    have hidle : s.2.destroyer = .idle := ha.idle
    simp only [poolPart, Machine.steps, PoolMachine.machine, PoolMachine.step] at hp
    split at hp
    · simp at hp
    · rename_i hno
      split at hp
      · simp [PoolMachine.State.inPool, hidle] at hp
      · simp at hp

end Steps

section Runs

variable {pb : Protobuf} {hd : Handler} {threads : ℕ} {maxQueue : ℤ}
variable {table : UserService.UserInfo} {as : List Action} {s : State}

theorem run_platform {G : Platform.State → Platform.Action → Prop} {s t : State}
    (hr : (machine pb).Run (OnPlatform G) s as t) :
    ∃ cs, (Platform.machine pb).Run G s.1 cs t.1 := by
  refine (@Machine.Run.project _ _ _ _ _ _ (machine pb) (Platform.machine pb) (OnPlatform G) G
    _ _ _ (fun _ => True) Prod.fst hr trivial ?_).2
  intro t a u _ hg hn
  refine ⟨trivial,?_⟩
  cases next_stepped hn with
  | step next pool => exact ⟨_,.single hg next⟩
  | poll next => exact ⟨_,.single hg next⟩
  | spurious next => exact ⟨[],.nil⟩

/-- What the platform keeps in its own steps it keeps on its pool. -/
theorem next_keeps {G : Platform.State → Platform.Action → Prop} {I : Platform.State → Prop}
    {s u : State} {act : Action} (h : I s.1 ∧ Pooled s) (hg : OnPlatform G s act)
    (hn : (machine pb).Next s act u)
    (hstep : ∀ r a v, I r → G r a → (Platform.machine pb).Next r a v → I v) :
    I u.1 ∧ Pooled u := by
  refine ⟨?_,(next_pooled h.2 hn).2⟩
  cases next_stepped hn with
  | step next pool => exact hstep _ _ _ h.1 hg next
  | poll next => exact hstep _ _ _ h.1 hg next
  | spurious next => exact h.1

theorem run_pool {G : State → Action → Prop}
    (hr : (machine pb).Run G (start hd threads maxQueue table) as s) :
    Pooled s ∧ ∃ bs, (linked Work).Run (Disciplined linkedQueue)
      (PoolMachine.State.start linkedQueue threads maxQueue) bs s.2 := by
  refine @Machine.Run.project _ _ _ _ _ _ (machine pb) (linked Work) G (Disciplined linkedQueue)
    _ _ _ Pooled Prod.snd hr (start_pooled hd threads maxQueue table) ?_
  intro t a u h _ hn
  obtain ⟨h1,h2⟩ := next_pooled h hn
  exact ⟨h2,_,h1⟩

/-- The pool of the platform is the linked pool of the source: in every run the
platform runs as it does alone, the pool runs with disciplined posts, their queues,
counters and workers agree, and the pool never faults. It holds back one kind of
step, the wake-up of a worker that nobody has woken. -/
theorem pool_carried (pb : Protobuf) (hd : Handler) (threads : ℕ) (maxQueue : ℤ)
    (table : UserService.UserInfo) (as : List Action) (s : State)
    (hr : (machine pb).Run Machine.Free (start hd threads maxQueue table) as s) :
    (∃ cs, (Platform.machine pb).Run Machine.Free
      (Platform.State.start hd threads maxQueue table) cs s.1) ∧
    (∃ bs, (linked Work).Run (Disciplined linkedQueue)
      (PoolMachine.State.start linkedQueue threads maxQueue) bs s.2) ∧
    (∃ l, s.2.queue.Represents l ∧ Agrees s.1.srv (atList s.2 l)) ∧
    (∀ act f, ¬ (machine pb).Fails s act (.inr f)) ∧
    ∀ a v, (Platform.machine pb).Next s.1 a v →
      ((∃ n woken q, (machine pb).Next s (.step a n woken) (v, q)) ↔
        ∀ w, a = .net (.wake w) → s.2.workers[w]? ≠ some .waiting) := by
  have hfree : (machine pb).Run (OnPlatform Machine.Free) (start hd threads maxQueue table) as s :=
    hr.guarded_at fun bs act t _ _ _ => by cases act <;> trivial
  obtain ⟨h,hpool⟩ := run_pool hr
  obtain ⟨l,hl,ha⟩ := id h
  refine ⟨run_platform hfree,hpool,⟨l,hl.queue,ha⟩,fun act f hf => ?_,fun a v hn => ⟨?_,?_⟩⟩
  · obtain ⟨e,he,-⟩ := pooled_faults h hf
    simp at he
  · rintro ⟨n,woken,q,hnext⟩ w rfl hw
    obtain ⟨-,hrun⟩ := Machine.beside_next.mp hnext
    obtain ⟨hwoken,-⟩ := PoolSteps.next_recheck.mp hrun.one
    rw [hw] at hwoken
    simp at hwoken
  · exact step_next h hn

/-- Two workers sleep and the second one is woken for nothing: the pool lets that one
look again, and not the first. -/
theorem pool_carried_spurious : ∃ (s : State) (v w : Platform.State),
    (machine proto2).Run Machine.Free (start 0 4 65535 [])
      [.step (.net (.enter 0)) 0 [], .step (.net (.enter 1)) 0 [], .spurious 1] s ∧
    (Platform.machine proto2).Next s.1 (.net (.wake 0)) v ∧
    (Platform.machine proto2).Next s.1 (.net (.wake 1)) w ∧
    (¬ ∃ n woken q, (machine proto2).Next s (.step (.net (.wake 0)) n woken) (v, q)) ∧
    ∃ n woken q, (machine proto2).Next s (.step (.net (.wake 1)) n woken) (w, q) := by
  obtain ⟨s,v,w,hr,hv,hw,h0,h1⟩ : ∃ (s : State) (v w : Platform.State),
      (machine proto2).Run Machine.Free (start 0 4 65535 [])
        [.step (.net (.enter 0)) 0 [], .step (.net (.enter 1)) 0 [], .spurious 1] s ∧
      (Platform.machine proto2).Next s.1 (.net (.wake 0)) v ∧
      (Platform.machine proto2).Next s.1 (.net (.wake 1)) w ∧
      s.2.workers[0]? = some .waiting ∧ s.2.workers[1]? = some .woken :=
    ⟨_,_,_,Machine.free_of_replay rfl,rfl,rfl,rfl,rfl⟩
  obtain ⟨-,-,-,-,hall⟩ := pool_carried proto2 0 4 65535 [] _ s hr
  refine ⟨s,v,w,hr,hv,hw,fun h => (hall _ _ hv).mp h 0 rfl h0,(hall _ _ hw).mpr fun i hi => ?_⟩
  obtain rfl := Server.Action.wake.inj (Platform.Action.net.inj hi)
  rw [h1]
  simp

end Runs

end SharedBike.PooledPlatform
