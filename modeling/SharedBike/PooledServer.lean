import SharedBike.ServerView
import SharedBike.PoolFailures
import SharedBike.Library.Composition

/-!
# The server on the linked pool

The server keeps its queue and its workers as values and lets a blocked worker
look again at any time. Here each step of the server is given its share of the
pool of the source: a dispatched event is put in a new node and posted, a worker
that returns from its handler frees the node. The two agree for good, and of the
steps of the server the pool holds back one: a worker that sleeps unsignalled
does not look again.
-/

set_option autoImplicit false

namespace SharedBike.PooledServer
open GuardedRuns Slots
open SharedBike.BikeProtocol SharedBike.Events SharedBike.DispatchMsgService
open SharedBike.ThreadPool (Pool cycleEnter cycleTake threadTaskPost)
open SharedBike.Server (Work Worker)
open SharedBike.ServerView (enqueue_places sent_places)
open SharedBike.PoolMachine (TaskPtr Point linkedQueue linked Signals signal)
open SharedBike.PoolSteps SharedBike.PoolOwnership SharedBike.PoolRefinement
open SharedBike.PoolFailures (Intact next_intact)
open SharedBike.PoolWakeups (counted_wakeup)

/-- What a step of the server asks of the pool; a dispatched event gets the node
`n`, and its post signals `woken`. -/
def share (pb : Protobuf) (s : Server.State) (n : ℕ) (woken : List ℕ) :
    Server.Action → List (PoolMachine.Action Work)
  | .arrive a bytes => match s.conns a with
    | none => []
    | some c => match c.arrive pb a bytes with
      | .ok (.enqueue c ev) => [.alloc n ⟨ev, c.sid⟩, .post n woken]
      | _ => []
  | .enter w => [.enter w]
  | .wake w => [.recheck w]
  | .svc w answer => match s.workers[w]? with
    | some (.running t) => match svc s.svrExit s.subscribers answer t.ev with
      | some _ => []
      | none => [.finish w]
    | _ => []
  | .push w => [.finish w]
  | _ => []

/-- The item that a node carries. -/
def item (tasks : Store Work) (t : TaskPtr) : Option Work :=
  match tasks t with
  | some ⟨_, .work ctx⟩ => some ctx
  | _ => none

/-- Where a worker of the server stands in `thread_pool_cycle`. -/
def At (tasks : Store Work) : Worker → Point → Prop
  | .idle, p => p = .outside
  | .blocked, p => p = .waiting ∨ p = .woken
  | .running t, p => ∃ x, p = .running x ∧ item tasks x = some t
  | .pushing _, p => ∃ x t, p = .running x ∧ item tasks x = some t

def mapPool {τ υ : Type} (f : τ → υ) (p : Pool τ) : Pool υ := ⟨p.queue.map f, p.waiting, p.maxQueue⟩

/-- The pool of the server is that of the nodes, read through their contexts. -/
structure Agrees (s : Server.State) (v : Plain Work) : Prop where
  pool : mapPool some s.tp = mapPool (item v.tasks) (pool v)
  workers : List.Forall₂ (At v.tasks) s.workers v.workers
  idle : v.destroyer = .idle
  bounded : ∃ k, ∀ n, k ≤ n → ¬ v.Live (.heap n)

section Pools

variable {τ υ ω : Type} {f : τ → ω} {g : υ → ω} {p p' : Pool τ} {q q' : Pool υ} {t : τ} {u : υ}

theorem posts_agree (h : mapPool f p = mapPool g q) (hp : Posts p p' t) (hq : Posts q q' u)
    (htu : f t = g u) : mapPool f p' = mapPool g q' := by
  obtain ⟨hqueue,hwaiting,hmax⟩ := Pool.mk.inj h
  obtain rfl := hp
  obtain rfl := hq
  unfold threadTaskPost
  rw [← hwaiting, ← hmax]
  split_ifs
  · exact h
  · simp only [mapPool, Option.getD_some, List.map_append, List.map_cons, List.map_nil, htu,
      hqueue, hwaiting, hmax]

theorem takes_agree (h : mapPool f p = mapPool g q) (hp : Takes p p') (hq : Takes q q') :
    mapPool f p' = mapPool g q' := by
  obtain ⟨hqueue,hwaiting,hmax⟩ := Pool.mk.inj h
  obtain rfl := hp
  obtain rfl := hq
  unfold cycleTake
  cases hpq : p.queue with
  | nil =>
    have hq : q.queue = [] := by simpa [hpq] using hqueue
    rw [hq]
    exact h
  | cons t later =>
    rw [hpq] at hqueue
    cases hqq : q.queue with
    | nil => simp [hqq] at hqueue
    | cons u later' =>
      rw [hqq] at hqueue
      simp only [mapPool, Option.map_some, Option.getD_some, (List.cons.inj hqueue).2, hwaiting,
        hmax]

theorem enter_agrees (h : mapPool f p = mapPool g q) :
    mapPool f (cycleEnter p) = mapPool g (cycleEnter q) := by
  obtain ⟨hqueue,hwaiting,hmax⟩ := Pool.mk.inj h
  simp only [mapPool, cycleEnter, hqueue, hwaiting, hmax]

theorem map_congr {f g : τ → υ} (h : ∀ t ∈ p.queue, f t = g t) : mapPool f p = mapPool g p := by
  rw [mapPool, mapPool, List.map_congr_left h]

end Pools

/-- A worker that looks into the queue. -/
def found : List Work → Worker
  | [] => .blocked
  | t::_ => .running t

/-- A step of the server by its share of the pool. -/
inductive Shared (s s' : Server.State) (n : ℕ) (woken : List ℕ) :
    List (PoolMachine.Action Work) → Prop
  | still (tp : s'.tp = s.tp) (workers : s'.workers = s.workers) : Shared s s' n woken []
  | dispatch (t : Work) (tp : Posts s.tp s'.tp t) (workers : s'.workers = s.workers) :
      Shared s s' n woken [.alloc n t, .post n woken]
  | enter {w : ℕ} (at_ : s.workers[w]? = some .idle) (tp : Takes (cycleEnter s.tp) s'.tp)
      (workers : s'.workers = s.workers.set w (found s.tp.queue)) : Shared s s' n woken [.enter w]
  | wake {w : ℕ} (at_ : s.workers[w]? = some .blocked) (tp : Takes s.tp s'.tp)
      (workers : s'.workers = s.workers.set w (found s.tp.queue)) : Shared s s' n woken [.recheck w]
  | answer {w : ℕ} {t rsp : Work} (at_ : s.workers[w]? = some (.running t)) (tp : s'.tp = s.tp)
      (workers : s'.workers = s.workers.set w (.pushing rsp)) : Shared s s' n woken []
  | done {w : ℕ} {x : Worker} (at_ : s.workers[w]? = some x)
      (busy : ∃ t, x = .running t ∨ x = .pushing t) (tp : s'.tp = s.tp)
      (workers : s'.workers = s.workers.set w .idle) : Shared s s' n woken [.finish w]

theorem enqueue_posts (s : Server.State) (t : Work) : Posts s.tp (s.enqueue t).tp t := by
  unfold Posts Server.State.enqueue
  cases threadTaskPost s.tp t <;> rfl

theorem take_shared (s : Server.State) (w : ℕ) (tp : Pool Work) :
    Takes tp (s.takeTask w tp).tp ∧
      (s.takeTask w tp).workers = s.workers.set w (found tp.queue) := by
  unfold Takes Server.State.takeTask cycleTake
  cases tp.queue <;> exact ⟨rfl,rfl⟩

theorem arrive_shared {pb : Protobuf} {s s' : Server.State} {a : Addr} {bytes : LittleEndian.Bytes}
    {n : ℕ} {woken : List ℕ} (hn : (Server.machine pb).Next s (.arrive a bytes) s') :
    Shared s s' n woken (share pb s n woken (.arrive a bytes)) := by
  simp only [Machine.Next, Server.machine, Server.step, Option.ite_none_left_eq_some,
    Option.map_eq_some_iff] at hn
  obtain ⟨-,c,hc,hn⟩ := hn
  simp only [share, hc]
  split at hn
  · simp at hn
  · rename_i harr
    obtain rfl := Except.ok.inj hn
    rw [harr]
    exact .still rfl rfl
  · rename_i c' ev harr
    obtain rfl := Except.ok.inj hn
    rw [harr]
    exact .dispatch _ (enqueue_posts _ _) (enqueue_places _ _).1
  · rename_i call harr
    obtain rfl := Except.ok.inj hn
    rw [harr]
    exact .still rfl rfl

theorem next_shared {pb : Protobuf} {s s' : Server.State} {act : Server.Action} (n : ℕ)
    (woken : List ℕ) (hn : (Server.machine pb).Next s act s') :
    Shared s s' n woken (share pb s n woken act) := by
  cases act with
  | arrive a bytes => exact arrive_shared hn
  | accept a =>
    simp only [Machine.Next, Server.machine, Server.step, Option.ite_none_left_eq_some] at hn
    obtain rfl := Except.ok.inj (Option.some.inj hn.2)
    exact .still rfl rfl
  | handleError a =>
    simp only [Machine.Next, Server.machine, Server.step, Option.ite_none_left_eq_some,
      Option.map_eq_some_iff] at hn
    obtain ⟨-,c,-,hn⟩ := hn
    obtain rfl := Except.ok.inj hn
    exact .still rfl rfl
  | enter w =>
    simp only [Machine.Next, Server.machine, Server.step] at hn
    split at hn
    · rename_i hw
      obtain rfl := Except.ok.inj (Option.some.inj hn)
      obtain ⟨h1,h2⟩ := take_shared s w (cycleEnter s.tp)
      exact .enter hw h1 h2
    · simp at hn
  | wake w =>
    simp only [Machine.Next, Server.machine, Server.step] at hn
    split at hn
    · rename_i hw
      obtain rfl := Except.ok.inj (Option.some.inj hn)
      obtain ⟨h1,h2⟩ := take_shared s w s.tp
      exact .wake hw h1 h2
    · simp at hn
  | svc w answer =>
    simp only [Machine.Next, Server.machine, Server.step] at hn
    split at hn
    · rename_i t hw
      have hn := Except.ok.inj (Option.some.inj hn)
      simp only [share, hw]
      generalize svc s.svrExit s.subscribers answer t.ev = r at hn ⊢
      cases r with
      | some rsp =>
        subst hn
        exact .answer hw rfl rfl
      | none =>
        subst hn
        exact .done hw ⟨t,Or.inl rfl⟩ rfl rfl
    · simp at hn
  | push w =>
    simp only [Machine.Next, Server.machine, Server.step] at hn
    split at hn
    · rename_i t hw
      obtain rfl := Except.ok.inj (Option.some.inj hn)
      exact .done hw ⟨t,Or.inr rfl⟩ rfl rfl
    · simp at hn
  | drain =>
    simp only [Machine.Next, Server.machine, Server.step, Option.ite_none_left_eq_some] at hn
    obtain rfl := Except.ok.inj (Option.some.inj hn.2)
    exact .still rfl rfl
  | handleResponse =>
    simp only [Machine.Next, Server.machine, Server.step] at hn
    split at hn
    · split at hn
      · obtain rfl := Except.ok.inj (Option.some.inj hn)
        exact .still rfl rfl
      · have hn := Option.some.inj hn
        split at hn
        · simp at hn
        · obtain rfl := Except.ok.inj hn
          exact .still rfl rfl
        · obtain rfl := Except.ok.inj hn
          obtain ⟨htp,hworkers,-⟩ := sent_places { s with responseEvents := _ } _ _
          exact .still htp hworkers
    · simp at hn

section Steps

variable {s s' : Server.State} {v v' : Plain Work} {n w : ℕ} {woken : List ℕ} {t : Work}

theorem item_some {tasks : Store Work} {x : TaskPtr} (h : item tasks x = some t) :
    ∃ id, tasks x = some ⟨id, .work t⟩ := by
  unfold item at h
  split at h
  · rename_i id ctx hx
    obtain rfl := Option.some.inj h
    exact ⟨id,hx⟩
  · simp at h

/-- What a worker does with its node depends on the item of that node only. -/
theorem at_congr {tasks tasks' : Store Work} {x : Worker} {p : Point}
    (h : ∀ y, p = .running y → item tasks' y = item tasks y) (hat : At tasks x p) :
    At tasks' x p := by
  cases x with
  | idle => exact hat
  | blocked => exact hat
  | running t =>
    obtain ⟨y,hp,hy⟩ := hat
    exact ⟨y,hp,(h y hp).trans hy⟩
  | pushing u =>
    obtain ⟨y,t,hp,hy⟩ := hat
    exact ⟨y,t,hp,(h y hp).trans hy⟩

/-- Two workers never hold one node. -/
theorem held_once (h : Owned v) {i j : ℕ} {x : TaskPtr} (hij : i ≠ j)
    (hi : v.workers[i]? = some (.running x)) : v.workers[j]? ≠ some (.running x) := by
  intro hj
  obtain ⟨rest,hrest⟩ := total_two held hij hi hj
  have hn := (Multiset.nodup_add.mp h.nodup).2.1
  rw [hrest] at hn
  have hd := (Multiset.nodup_add.mp hn).2.2
  exact Multiset.disjoint_left.mp hd (mem_snoc.mpr (Or.inr rfl)) (Multiset.mem_singleton.mpr rfl)

theorem signal_at {tasks : Store Work} {l : List Worker} {ps : List Point}
    (h : List.Forall₂ (At tasks) l ps) (woken : List ℕ) :
    List.Forall₂ (At tasks) l (signal woken ps) := by
  induction woken generalizing ps with
  | nil => exact h
  | cons u woken ih =>
    rw [signal, List.foldl_cons, ← signal]
    apply ih
    rcases PoolCounting.wake_eq ps u with he | ⟨hu,he⟩
    · rwa [he]
    · obtain ⟨x,hx,hat⟩ := place_left h hu
      rw [he, ← List.set_getElem_self (List.getElem?_eq_some_iff.mp hx).1,
        (List.getElem?_eq_some_iff.mp hx).2]
      refine places_set h ?_ fun j c d _ _ _ hcd => hcd
      cases x with
      | idle => simp [At] at hat
      | blocked => exact Or.inr rfl
      | running t => obtain ⟨y,hy,-⟩ := hat; simp at hy
      | pushing t => obtain ⟨y,t,hy,-⟩ := hat; simp at hy

/-- The first item is that of the first node. -/
theorem queue_agrees (h : Agrees s v) : s.tp.queue.map some = v.queue.map (item v.tasks) :=
  (Pool.mk.inj h.pool).1

theorem found_at {p : Point} {q : List Work} {vq : List TaskPtr} {tasks : Store Work}
    (h : q.map some = vq.map (item tasks)) (hnil : vq = [] → p = .waiting)
    (hcons : ∀ x rest, vq = x::rest → p = .running x) : At tasks (found q) p := by
  cases vq with
  | nil =>
    have hq : q = [] := by simpa using h
    rw [hq]
    exact Or.inl (hnil rfl)
  | cons x rest =>
    cases q with
    | nil => simp at h
    | cons t later => exact ⟨x,hcons x rest rfl,((List.cons.inj h).1).symm⟩

theorem item_update {tasks : Store Work} {x y : TaskPtr} (h : y ≠ x)
    (task : Option (PoolMachine.Task Work)) :
    item (Function.update tasks x task) y = item tasks y := by
  rw [item, item, Function.update_of_ne h]

/-- The number that a post gives to a node is no part of its item. -/
theorem item_numbered (tasks : Store Work) (x y : TaskPtr) (id : ℕ) :
    item (Function.update tasks x ((tasks x).map ({ · with id := id }))) y = item tasks y := by
  by_cases h : y = x
  · subst h
    unfold item
    rw [Function.update_self]
    cases tasks y with
    | none => rfl
    | some task => cases task with | mk id job => cases job <;> rfl
  · exact item_update h _

/-- A step that leaves the items of the owned nodes alone, and the workers too. -/
theorem agrees_congr (h : Agrees s v) (hp : pool v' = pool v) (hw : v'.workers = v.workers)
    (hd : v'.destroyer = v.destroyer)
    (hitem : ∀ x ∈ owned v, item v'.tasks x = item v.tasks x)
    (hb : ∃ k, ∀ n, k ≤ n → ¬ v'.Live (.heap n)) : Agrees s v' where
  pool := by
    rw [hp, h.pool]
    exact (map_congr fun x hx => hitem x (mem_owned.mpr (Or.inl hx))).symm
  workers := by
    obtain ⟨hlen,hall⟩ := forall₂_iff_places.mp h.workers
    rw [hw]
    refine forall₂_iff_places.mpr ⟨hlen,fun i x p hx hpt => at_congr (fun y hy => ?_)
      (hall i x p hx hpt)⟩
    exact hitem y (mem_owned.mpr (Or.inr (hy ▸ List.mem_of_getElem? hpt)))
  idle := hd.trans h.idle
  bounded := hb

theorem alloc_agrees (ho : Owned v) (h : Agrees s v) (hs : PoolStep v (.alloc n t) v') :
    Agrees s v' ∧ item v'.tasks (.heap n) = some t ∧ .heap n ∉ owned v' := by
  cases hs with
  | alloc fresh =>
    have hne : ∀ x ∈ owned v, x ≠ .heap n := fun x hx he => fresh (he ▸ ho.live x hx)
    refine ⟨agrees_congr h rfl rfl rfl (fun x hx => item_update (hne x hx) _) ?_,?_,
      fun hx => hne _ hx rfl⟩
    · obtain ⟨k,hk⟩ := h.bounded
      refine ⟨max k (n+1),fun m hm => ?_⟩
      have hmn : TaskPtr.heap m ≠ .heap n := fun he => by
        have := TaskPtr.heap.inj he
        omega
      rw [PoolMachine.State.Live, live_update hmn]
      exact hk m ((le_max_left k (n+1)).trans hm)
    · simp [item]

theorem post_agrees (h : Agrees s v) (hi : item v.tasks (.heap n) = some t)
    (hp : Posts s.tp s'.tp t) (hw : s'.workers = s.workers)
    (hs : PoolStep v (.post n woken) v') : Agrees s' v' := by
  have heffect := posts_agree (f := some) (g := item v.tasks) h.pool hp (step_effect hs) hi.symm
  cases hs with
  | post room signals live =>
    have hitem := fun y => item_numbered v.tasks (.heap n) y v.taskId
    refine ⟨?_,?_,h.idle,?_⟩
    · rw [heffect]
      exact (map_congr fun y _ => hitem y).symm
    · rw [hw]
      refine List.Forall₂.imp (fun x p hat => at_congr (fun y _ => hitem y) hat) ?_
      exact signal_at h.workers woken
    · obtain ⟨k,hk⟩ := h.bounded
      exact ⟨k,fun m hm => (link_live v _ woken).not.mpr (hk m hm)⟩
  | overflow full => exact ⟨heffect,hw ▸ h.workers,h.idle,h.bounded⟩

/-- A worker that takes the mutex does the same on both sides. -/
theorem take_agrees {act : PoolMachine.Action Work} (h : Agrees s v)
    (hact : (act = .enter w ∧ Takes (cycleEnter s.tp) s'.tp) ∨
      (act = .recheck w ∧ Takes s.tp s'.tp))
    (hw : s'.workers = s.workers.set w (found s.tp.queue)) (hs : PoolStep v act v') :
    Agrees s' v' := by
  have hpool : mapPool some s'.tp = mapPool (item v.tasks) (pool v') := by
    rcases hact with ⟨rfl,ht⟩ | ⟨rfl,ht⟩
    · exact takes_agree (enter_agrees h.pool) ht (step_effect hs)
    · exact takes_agree h.pool ht (step_effect hs)
  have hset : ∀ p : Point, (v.queue = [] → p = .waiting) →
      (∀ x rest, v.queue = x::rest → p = .running x) →
      List.Forall₂ (At v.tasks) s'.workers (v.workers.set w p) := fun p h1 h2 =>
    hw ▸ places_set h.workers (found_at (queue_agrees h) h1 h2) fun j c d _ _ _ hcd => hcd
  have hempty : ∀ {x rest}, v.queue = [] → v.queue ≠ x::rest := fun h1 h2 => by simp [h1] at h2
  have hcons : ∀ {x rest y rest'}, v.queue = x::rest → v.queue = y::rest' → x = y :=
    fun h1 h2 => (List.cons.inj (h1.symm.trans h2)).1
  rcases hact with ⟨rfl,-⟩ | ⟨rfl,-⟩
  · cases hs with
    | enterTake at_ head =>
      exact ⟨hpool,hset _ (fun h1 => absurd head (hempty h1)) fun _ _ h2 => by rw [hcons head h2],
        h.idle,h.bounded⟩
    | enterWait at_ empty =>
      exact ⟨hpool,hset _ (fun _ => rfl) fun _ _ h2 => absurd h2 (hempty empty),h.idle,h.bounded⟩
  · cases hs with
    | recheckTake at_ head =>
      exact ⟨hpool,hset _ (fun h1 => absurd head (hempty h1)) fun _ _ h2 => by rw [hcons head h2],
        h.idle,h.bounded⟩
    | recheckWait at_ empty =>
      exact ⟨hpool,hset _ (fun _ => rfl) fun _ _ h2 => absurd h2 (hempty empty),h.idle,h.bounded⟩

theorem finish_agrees (ho : Owned v) (h : Agrees s v) (htp : s'.tp = s.tp)
    (hw : s'.workers = s.workers.set w .idle) (hs : PoolStep v (.finish w) v') :
    Agrees s' v' := by
  cases hs with
  | @finish _ x id ctx at_ task =>
    have hqueue : ∀ y ∈ v.queue, y ≠ x := fun y hy he => not_linked_of_running ho at_ (he ▸ hy)
    refine ⟨?_,?_,h.idle,?_⟩
    · rw [htp, h.pool]
      exact (map_congr fun y hy => item_update (hqueue y hy) none).symm
    · rw [hw]
      refine places_set h.workers rfl fun j c d hj _ hd hat => at_congr (fun y hy => ?_) hat
      refine item_update (fun he => ?_) none
      subst hy
      exact held_once ho hj.symm at_ (he ▸ hd)
    · obtain ⟨k,hk⟩ := h.bounded
      refine ⟨k,fun m hm hlive => hk m hm ?_⟩
      unfold PoolMachine.State.Live at hlive ⊢
      by_cases hmx : TaskPtr.heap m = x
      · simp [hmx] at hlive
      · rwa [live_update hmx] at hlive

theorem spurious_agrees (h : Agrees s v) (hs : PoolStep v (.spurious w) v') : Agrees s v' := by
  cases hs with
  | spurious at_ =>
    refine ⟨h.pool,?_,h.idle,h.bounded⟩
    have hsignal := signal_at h.workers [w]
    rwa [signal, List.foldl_cons, List.foldl_nil, PoolMachine.wake, if_pos at_] at hsignal

end Steps

/-- The server agrees with a pool that is as its own steps leave it. -/
def Paired (s : Server.State) (p : Linked Work) : Prop := ∃ l, Intact p l ∧ Agrees s (atList p l)

theorem start_paired (subscribers : EventHandlersMap) (threads : ℕ) (maxQueue : ℤ) :
    Paired (Server.State.start subscribers threads maxQueue)
      (PoolMachine.State.start linkedQueue threads maxQueue) := by
  refine ⟨[],PoolFailures.start_intact threads maxQueue,rfl,?_,rfl,0,fun n _ => ?_⟩
  · refine forall₂_iff_places.mpr ⟨?_,fun i x p hx hp => ?_⟩
    · exact List.length_replicate.trans List.length_replicate.symm
    · obtain rfl := List.eq_of_mem_replicate (List.mem_of_getElem? hx)
      obtain rfl := List.eq_of_mem_replicate (List.mem_of_getElem? hp)
      rfl
  · simp [PoolMachine.State.Live, atList, PoolMachine.State.start]

section Runs

variable {s s' : Server.State} {p q : Linked Work} {l : List TaskPtr} {n : ℕ} {woken : List ℕ}
variable {as : List (PoolMachine.Action Work)} {act : PoolMachine.Action Work} {w : ℕ}

theorem agrees_still {v : Plain Work} (h : Agrees s v) (htp : s'.tp = s.tp)
    (hw : s'.workers = s.workers) : Agrees s' v :=
  ⟨htp ▸ h.pool,hw ▸ h.workers,h.idle,h.bounded⟩

/-- Only posts are disciplined. -/
theorem free_act (act : PoolMachine.Action Work) (h : ∀ n woken, act ≠ .post n woken) :
    Disciplined linkedQueue p act := by
  cases act with
  | post n woken => exact absurd rfl (h n woken)
  | _ => trivial

theorem one_run {G : Linked Work → PoolMachine.Action Work → Prop}
    (hr : (linked Work).Run Machine.Free p [act] q) (hg : G p act) :
    (linked Work).Run G p [act] q := .single hg hr.one

/-- The step lemma: the share of a step keeps the two in agreement, and posts
no node that the pool still has. -/
theorem next_paired (h : Paired s p) (hs : Shared s s' n woken as)
    (hr : (linked Work).Run Machine.Free p as q) :
    (linked Work).Run (Disciplined linkedQueue) p as q ∧ Paired s' q := by
  obtain ⟨l,hl,ha⟩ := h
  cases hs with
  | still tp workers =>
    obtain rfl := Option.some.inj hr.replay_eq
    exact ⟨.nil,l,hl,agrees_still ha tp workers⟩
  | dispatch t tp workers =>
    have hr : (linked Work).Run Machine.Free p ([.alloc n t]++[.post n woken]) q := hr
    obtain ⟨u,h1,h2⟩ := hr.split
    obtain ⟨m,hm,hs1⟩ := next_intact hl (free_act (.alloc n t) nofun) h1.one
    obtain ⟨ha1,hitem,hfree⟩ := alloc_agrees hl.owned ha hs1
    have hg : Disciplined linkedQueue u (.post n woken) :=
      (disciplined_iff hm.queue _).mpr (not_or.mp (mem_owned.not.mp hfree))
    obtain ⟨k,hk,hs2⟩ := next_intact hm hg h2.one
    exact ⟨.cons trivial h1.one (.single hg h2.one),k,hk,post_agrees ha1 hitem tp workers hs2⟩
  | @enter w at_ tp workers =>
    obtain ⟨m,hm,hs⟩ := next_intact hl (free_act (.enter w) nofun) hr.one
    exact ⟨one_run hr trivial,m,hm,take_agrees ha (Or.inl ⟨rfl,tp⟩) workers hs⟩
  | @wake w at_ tp workers =>
    obtain ⟨m,hm,hs⟩ := next_intact hl (free_act (.recheck w) nofun) hr.one
    exact ⟨one_run hr trivial,m,hm,take_agrees ha (Or.inr ⟨rfl,tp⟩) workers hs⟩
  | @answer w t rsp at_ tp workers =>
    obtain rfl := Option.some.inj hr.replay_eq
    obtain ⟨pt,hpt,y,hy,hitem⟩ := place_right ha.workers at_
    refine ⟨.nil,l,hl,tp ▸ ha.pool,?_,ha.idle,ha.bounded⟩
    have hset : p.workers = p.workers.set w pt := by
      obtain ⟨hlen,rfl⟩ := List.getElem?_eq_some_iff.mp hpt
      exact (List.set_getElem_self hlen).symm
    rw [workers]
    show List.Forall₂ _ _ p.workers
    rw [hset]
    exact places_set ha.workers ⟨y,t,hy,hitem⟩ fun j c d _ _ _ hcd => hcd
  | @done w x at_ busy tp workers =>
    obtain ⟨m,hm,hs⟩ := next_intact hl (free_act (.finish w) nofun) hr.one
    exact ⟨one_run hr trivial,m,hm,finish_agrees hl.owned ha tp workers hs⟩

/-- A spurious wake-up is no step of the server. -/
theorem spurious_paired (h : Paired s p) (hn : (linked Work).Next p (.spurious w) q) :
    Paired s q := by
  obtain ⟨l,hl,ha⟩ := h
  obtain ⟨m,hm,hs⟩ := next_intact hl (free_act (.spurious w) nofun) hn
  exact ⟨m,hm,spurious_agrees ha hs⟩

theorem take_ok (hq : p.queue.Represents l) (hlive : ∀ t ∈ l, p.Live t) (w : ℕ) :
    ∃ u, p.take linkedQueue w = .ok u := by
  unfold PoolMachine.State.take
  rw [show linkedQueue.first p.queue = l.head? from hq.first]
  cases l with
  | nil => exact ⟨_,rfl⟩
  | cons t l =>
    have ht := hlive t (by simp)
    simp only [List.head?_cons, if_pos ht]
    exact ⟨_,rfl⟩

theorem owned_live (h : Intact p l) : ∀ t ∈ l, p.Live t :=
  fun t ht => h.owned.live t (mem_owned.mpr (Or.inl ht))

theorem post_ok {t : TaskPtr} (h : Intact p l) (hd : p.destroyer ≠ .done) (live : p.Live t)
    (hsig : Signals woken p.workers) : ∃ r, p.post linkedQueue t woken = some (.ok r) := by
  by_cases hfull : p.maxQueue ≤ p.waiting
  · exact ⟨_,post_iff.mpr ⟨hd,hsig,Or.inl ⟨hfull,rfl⟩⟩⟩
  · refine ⟨_,post_iff.mpr ⟨hd,hsig,Or.inr ⟨not_le.mp hfull,live,fun x hx => ?_,rfl⟩⟩⟩
    rw [show linkedQueue.tail p.queue = l.getLast? from h.queue.tail] at hx
    exact owned_live h x (List.mem_of_getLast? hx)

/-- A new node is one that is not in use, a signal wakes a waiter if there is
one, and only a worker that has been woken looks again. -/
def Ready (p : Linked Work) : List (PoolMachine.Action Work) → Prop
  | [.alloc n _, .post _ woken] => ¬ p.Live (.heap n) ∧ Signals woken p.workers
  | [.recheck w] => p.workers[w]? ≠ some .waiting
  | _ => True

theorem share_ready {pb : Protobuf} {a : Server.Action} (hfresh : ¬ p.Live (.heap n))
    (hsig : Signals woken p.workers)
    (hawake : ∀ w, a = .wake w → p.workers[w]? ≠ some .waiting) :
    Ready p (share pb s n woken a) := by
  cases a with
  | arrive b bytes =>
    simp only [share]
    split
    · trivial
    · split
      · exact ⟨hfresh,hsig⟩
      · trivial
  | wake w => exact hawake w rfl
  | svc w answer =>
    simp only [share]
    split
    · split <;> trivial
    · trivial
  | _ => trivial

/-- When it is ready, the pool can do its share. -/
theorem shared_enabled (h : Paired s p) (hs : Shared s s' n woken as) (hready : Ready p as) :
    ∃ q, (linked Work).Run Machine.Free p as q := by
  obtain ⟨l,hl,ha⟩ := h
  have hd : p.destroyer ≠ .done := by
    rw [show p.destroyer = .idle from ha.idle]
    simp
  cases hs with
  | still tp workers => exact ⟨p,.nil⟩
  | answer at_ tp workers => exact ⟨p,.nil⟩
  | dispatch t tp workers =>
    obtain ⟨hfresh,hsig⟩ := hready
    have h1 : (linked Work).Next p (.alloc n t) _ := next_alloc.mpr ⟨hfresh,rfl⟩
    obtain ⟨m,hm,-⟩ := next_intact hl (free_act (.alloc n t) nofun) h1
    obtain ⟨r,hr⟩ := post_ok (t := .heap n) hm hd (by simp [PoolMachine.State.Live]) hsig
    exact ⟨_,.cons trivial h1 (.single trivial (next_post.mpr ⟨r,hr,rfl⟩))⟩
  | @enter w at_ tp workers =>
    obtain ⟨pt,hpt,hat⟩ := place_right ha.workers at_
    have hlive := owned_live hl
    obtain ⟨u,hu⟩ := @take_ok { p with waiting := p.waiting-1 } l hl.queue hlive w
    exact ⟨u,.single trivial (next_enter.mpr ⟨hat ▸ hpt,hd,hu⟩)⟩
  | @wake w at_ tp workers =>
    obtain ⟨pt,hpt,hat⟩ := place_right ha.workers at_
    obtain ⟨u,hu⟩ := take_ok hl.queue (owned_live hl) w
    have hwoken : pt = .woken := hat.resolve_left fun he => hready (he ▸ hpt)
    exact ⟨u,.single trivial (next_recheck.mpr ⟨hwoken ▸ hpt,hd,hu⟩)⟩
  | @done w x at_ busy tp workers =>
    obtain ⟨pt,hpt,hat⟩ := place_right ha.workers at_
    obtain ⟨y,t,rfl,hitem⟩ : ∃ y t, pt = .running y ∧ item p.tasks y = some t := by
      obtain ⟨t,rfl | rfl⟩ := busy
      · obtain ⟨y,hy,hitem⟩ := hat
        exact ⟨y,t,hy,hitem⟩
      · exact hat
    obtain ⟨id,task⟩ := item_some hitem
    exact ⟨_,.single trivial (next_finish.mpr ⟨y,id,t,hpt,task,rfl⟩)⟩

/-- When it is not, the share is disabled. -/
theorem shared_disabled (h : Paired s p) (hs : Shared s s' n woken as) (hno : ¬ Ready p as) :
    (linked Work).steps p as = none := by
  obtain ⟨l,hl,ha⟩ := h
  have hd : p.destroyer ≠ .done := by
    rw [show p.destroyer = .idle from ha.idle]
    simp
  cases hs with
  | dispatch t tp workers =>
    by_cases hlive : p.Live (.heap n)
    · simp [Machine.steps, PoolMachine.machine, PoolMachine.step, hlive]
    · have hsig : ¬ Signals woken p.workers := fun hsig => hno ⟨hlive,hsig⟩
      simp [Machine.steps, PoolMachine.machine, PoolMachine.step, hlive, PoolMachine.State.post,
        hd, hsig]
  | @wake w at_ tp workers =>
    have hw : p.workers[w]? = some .waiting := not_not.mp hno
    simp [Machine.steps, PoolMachine.machine, PoolMachine.step, hw]
  | _ => exact absurd trivial hno

theorem shared_safe (h : Paired s p) (hs : Shared s s' n woken as) (f : PoolMachine.Fault) :
    (linked Work).steps p as ≠ some (.error f) := by
  by_cases hready : Ready p as
  · obtain ⟨q,hq⟩ := shared_enabled h hs hready
    rw [Machine.steps_run.mpr hq]
    simp
  · rw [shared_disabled h hs hready]
    simp

/-- When every worker of the server is blocked on a queue that is not empty, the
pool has woken one of them. -/
theorem woken_worker (h : Paired s p) (hlen : s.workers ≠ []) (hq : s.tp.queue ≠ [])
    (hall : ∀ x ∈ s.workers, x = .blocked) :
    ∃ w : ℕ, p.workers[w]? = some .woken ∧ s.workers[w]? = some .blocked := by
  obtain ⟨l,hl,ha⟩ := h
  have hcount := congrArg List.length (queue_agrees ha)
  rw [List.length_map, List.length_map] at hcount
  have hpos : 0 < l.length := hcount ▸ List.length_pos_iff.mpr hq
  have hwoken : .woken ∈ p.workers := by
    by_cases hw : .waiting ∈ p.workers
    · exact List.count_pos_iff.mp (hpos.trans_le ((counted_wakeup hl.counted).1 hw))
    · obtain ⟨x,hx⟩ := List.exists_mem_of_ne_nil _ hlen
      obtain ⟨w,hw'⟩ := List.mem_iff_getElem?.mp hx
      obtain ⟨pt,hpt,hat⟩ := place_right ha.workers hw'
      have hmem : pt ∈ p.workers := List.mem_of_getElem? hpt
      rw [hall x hx] at hat
      rcases hat with rfl | rfl
      · exact absurd hmem hw
      · exact hmem
  obtain ⟨w,hw⟩ := List.mem_iff_getElem?.mp hwoken
  obtain ⟨x,hx,-⟩ := place_left ha.workers hw
  exact ⟨w,hw,(hall x (List.mem_of_getElem? hx)) ▸ hx⟩

/-- Some node is new, and some workers can be signalled. -/
theorem fresh_node (h : Paired s p) :
    ∃ n woken, ¬ p.Live (.heap n) ∧ Signals woken p.workers := by
  obtain ⟨l,-,ha⟩ := h
  obtain ⟨k,hk⟩ := ha.bounded
  by_cases hw : .waiting ∈ p.workers
  · obtain ⟨w,hw'⟩ := List.mem_iff_getElem?.mp hw
    exact ⟨k,[w],hk k le_rfl,fun _ => ⟨w,by simp,hw'⟩⟩
  · exact ⟨k,[],hk k le_rfl,fun h => absurd h hw⟩

end Runs

end SharedBike.PooledServer
