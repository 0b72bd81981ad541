import SharedBike.ChronicleSteps
import SharedBike.Library.Completion

/-!
# The platform finishes what it has accepted

Left alone, the workers and the network thread take each item in flight to its
frame, and each of their steps lowers a rank. Two steps are for nothing: a worker
that finds the queue empty when it looks again leaves the rank as it is, and a
drain that finds no response adds the one step that ends it.
-/

set_option autoImplicit false

namespace SharedBike.Progress
open GuardedRuns Slots
open SharedBike.BikeProtocol SharedBike.Events SharedBike.DispatchMsgService
open SharedBike.Server (Work Worker)
open SharedBike.UserEventHandler (Point)
open SharedBike.ServerView SharedBike.CallHistory
open SharedBike.Platform SharedBike.Chronicles SharedBike.ChronicleSteps

variable {pb : Protobuf} {hd : Handler} {s : State}

/-- The moves that a call may still make. -/
def pointRank : Point → ℕ
  | .codeGen _ => 4
  | .storeLock _ _ => 3
  | .store _ _ => 2
  | .storeUnlock _ _ => 1
  | .verifyLock _ _ => 6
  | .verify _ _ => 5
  | .verifyUnlock _ _ _ => 4
  | .init _ _ => 3
  | .exist _ _ => 2
  | .insert _ _ => 1
  | .returned _ => 0

def callRank (s : UserEventHandler.State) (i : ℕ) : ℕ :=
  match s.calls[i]? with
  | some call => pointRank call.point
  | none => 0

def workerRank (s : State) (w : ℕ) : Worker → ℕ
  | .idle => 1
  | .blocked => 0
  | .running _ => match s.calling w with
    | some i => 6+callRank s.users i
    | none => 13
  | .pushing _ => 5

/-- A drain that finds nothing still has to end. -/
def drainRank (s : Server.State) : ℕ :=
  if s.draining then if s.responseEvents = [] then 2 else 0 else 1

def rank (s : State) : ℕ :=
  14*s.srv.tp.queue.length+weights (workerRank s) s.srv.workers+3*s.srv.responseEvents.length+
    drainRank s.srv

/-- A step that needs nothing from the network. -/
def Unprompted : Action → Prop
  | .net (.accept _) => False
  | .net (.arrive _ _) => False
  | .net (.handleError _) => False
  | _ => True

/-- A step that is not for nothing: no worker looks again, and no drain begins,
without something to take. -/
def Gainful (s : State) : Action → Prop
  | .net (.wake _) => s.srv.tp.queue ≠ []
  | .net .drain => s.srv.responseEvents ≠ []
  | _ => True

theorem moves_rank {s u : UserEventHandler.State} {i : ℕ} {env : UserEventHandler.Environment}
    {p q : Point} (h : UserEventHandler.Moves s i env p q u) : pointRank q < pointRank p := by
  cases h with
  | @verify m c => simp [pointRank]
  | _ => simp [pointRank]

theorem handle_rank {ev : IEvent} {p : Point} (h : UserEventHandler.handle ev = .ok p) :
    pointRank p ≤ 6 := by
  unfold UserEventHandler.handle at h
  split_ifs at h
  · split at h <;> simp at h
    subst h
    simp [pointRank]
  · split at h <;> simp at h
    subst h
    simp [pointRank]
  · obtain rfl := Except.ok.inj h
    simp [pointRank]

/-- A worker that is not running is in no call. -/
theorem not_calling (h : Chronicled pb hd s) {w : ℕ} {x : Worker}
    (hw : s.srv.workers[w]? = some x) (hx : ∀ t, x ≠ .running t) : s.calling w = none := by
  cases hc : s.calling w with
  | none => rfl
  | some i =>
    obtain ⟨t,-,hrun⟩ := h.busy w i hc
    exact absurd (Option.some.inj (hw.symm.trans hrun)) (hx t)

/-- Two workers are never in one call. -/
theorem calling_distinct (h : Chronicled pb hd s) {v w i : ℕ} (hv : s.calling v = some i)
    (hw : s.calling w = some i) : v = w := by
  by_contra hne
  obtain ⟨t,ht,hrun⟩ := h.busy v i hv
  obtain ⟨u,hu,hrun'⟩ := h.busy w i hw
  obtain rfl := Option.some.inj (ht.symm.trans hu)
  exact running_distinct h.conversing.toTidy hne hrun hrun' rfl

/-- A worker that takes the mutex goes from its place to the first task, or waits. -/
theorem take_rank {w : ℕ} {x : Worker} {tp : ThreadPool.Pool Work}
    (hw : s.srv.workers[w]? = some x) (hidle : s.calling w = none)
    (hq : tp.queue = s.srv.tp.queue) :
    rank (s.withServer (s.srv.takeTask w tp))+workerRank s w x+
      (if s.srv.tp.queue = [] then 0 else 1) = rank s := by
  unfold Server.State.takeTask ThreadPool.cycleTake
  cases hqueue : tp.queue with
  | nil =>
    obtain ⟨rest,h1,h2⟩ := weights_set (f := workerRank s) hw .blocked (fun _ _ _ => rfl)
    show 14*tp.queue.length+weights (workerRank s) (s.srv.workers.set w .blocked)+
      3*s.srv.responseEvents.length+drainRank s.srv+_+_ = rank s
    rw [h2, rank, h1, ← hq, hqueue, if_pos rfl, show workerRank s w .blocked = 0 from rfl]
    omega
  | cons t later =>
    obtain ⟨rest,h1,h2⟩ := weights_set (f := workerRank s) hw (.running t) (fun _ _ _ => rfl)
    have hrun : workerRank s w (.running t) = 13 := by simp [workerRank, hidle]
    show 14*later.length+weights (workerRank s) (s.srv.workers.set w (.running t))+
      3*s.srv.responseEvents.length+drainRank s.srv+_+_ = rank s
    rw [h2, rank, h1, ← hq, hqueue, if_neg (by simp), hrun, List.length_cons]
    omega

theorem response_rank {srv : Server.State}
    (hn : (Server.machine pb).Next s.srv .handleResponse srv) :
    rank (s.withServer srv) < rank s := by
  have hpop : ∀ {t : Work} {rest : List Work} {srv : Server.State}, s.srv.draining = true →
      s.srv.responseEvents = t::rest → srv.tp = s.srv.tp → srv.workers = s.srv.workers →
      srv.responseEvents = rest → srv.draining = s.srv.draining →
      rank (s.withServer srv) < rank s := by
    intro t rest srv hd hq h1 h2 h3 h4
    have hold : drainRank s.srv = 0 := by simp [drainRank, hd, hq]
    have hnew : drainRank srv ≤ 2 := by
      rw [drainRank, h4, hd, h3, if_pos rfl]
      split <;> omega
    show 14*srv.tp.queue.length+weights (workerRank s) srv.workers+3*srv.responseEvents.length+
      drainRank srv < rank s
    rw [rank, hold, h1, h2, h3, hq, List.length_cons]
    omega
  simp only [Machine.Next, Server.machine, Server.step] at hn
  split at hn
  · rename_i hd
    split at hn
    · rename_i hq
      obtain rfl := Except.ok.inj (Option.some.inj hn)
      show 14*s.srv.tp.queue.length+weights (workerRank s) s.srv.workers+
        3*s.srv.responseEvents.length+1 < rank s
      rw [rank, drainRank, if_pos hd, if_pos hq]
      omega
    · rename_i t rest hq
      have hn := Option.some.inj hn
      split at hn
      · simp at hn
      · obtain rfl := Except.ok.inj hn
        exact hpop hd hq rfl rfl rfl rfl
      · rename_i r _
        obtain rfl := Except.ok.inj hn
        obtain ⟨h1,h2,h3,h4⟩ := sent_places { s.srv with responseEvents := rest } t.ev r
        exact hpop hd hq h1 h2 h3 h4
  · simp at hn

/-- Each gainful step of the server lowers the rank. -/
theorem net_rank {srv : Server.State} {act : Server.Action} (h : Chronicled pb hd s)
    (hu : Unprompted (.net act)) (hg : Gainful s (.net act))
    (other : ∀ w answer, act ≠ .svc w answer)
    (hn : (Server.machine pb).Next s.srv act srv) : rank (s.withServer srv) < rank s := by
  cases act with
  | accept a => exact hu.elim
  | arrive a bytes => exact hu.elim
  | handleError a => exact hu.elim
  | svc w answer => exact absurd rfl (other w answer)
  | enter w =>
    simp only [Machine.Next, Server.machine, Server.step] at hn
    split at hn
    · rename_i hw
      obtain rfl := Except.ok.inj (Option.some.inj hn)
      have := @take_rank s w .idle (ThreadPool.cycleEnter s.srv.tp) hw
        (not_calling h hw (by simp)) rfl
      simp only [workerRank] at this
      omega
    · simp at hn
  | wake w =>
    simp only [Machine.Next, Server.machine, Server.step] at hn
    split at hn
    · rename_i hw
      obtain rfl := Except.ok.inj (Option.some.inj hn)
      have := @take_rank s w .blocked s.srv.tp hw (not_calling h hw (by simp)) rfl
      rw [if_neg (show s.srv.tp.queue ≠ [] from hg)] at this
      omega
    · simp at hn
  | push w =>
    simp only [Machine.Next, Server.machine, Server.step] at hn
    split at hn
    · rename_i t hw
      obtain rfl := Except.ok.inj (Option.some.inj hn)
      obtain ⟨rest,h1,h2⟩ := weights_set (f := workerRank s) hw .idle (fun _ _ _ => rfl)
      have hdr : drainRank { s.srv with
          workers := s.srv.workers.set w .idle
          responseEvents := s.srv.responseEvents++[t] } ≤ drainRank s.srv := by
        simp only [drainRank, if_neg (List.append_ne_nil_of_right_ne_nil _ (List.cons_ne_nil t []))]
        split
        · exact Nat.zero_le _
        · exact le_rfl
      show 14*s.srv.tp.queue.length+weights (workerRank s) (s.srv.workers.set w .idle)+
        3*(s.srv.responseEvents++[t]).length+drainRank _ < rank s
      rw [h2, rank, h1, List.length_append, List.length_singleton,
        show workerRank s w .idle = 1 from rfl, show workerRank s w (.pushing t) = 5 from rfl]
      refine lt_of_le_of_lt (Nat.add_le_add_left hdr _) ?_
      omega
    · simp at hn
  | drain =>
    simp only [Machine.Next, Server.machine, Server.step, Option.ite_none_left_eq_some] at hn
    obtain ⟨hd',hn⟩ := hn
    obtain rfl := Except.ok.inj (Option.some.inj hn)
    have hq : s.srv.responseEvents ≠ [] := hg
    show 14*s.srv.tp.queue.length+weights (workerRank s) s.srv.workers+
      3*s.srv.responseEvents.length+drainRank { s.srv with draining := true } < rank s
    rw [rank, show drainRank s.srv = 1 from if_neg hd',
      show drainRank { s.srv with draining := true } = 0 from (if_pos rfl).trans (if_neg hq)]
    omega
  | handleResponse => exact response_rank hn

/-- What `svc` leaves alone, and where it puts the worker. -/
theorem svc_places {r srv : Server.State} {w : ℕ} {answer : Handler → Option IEvent}
    (hn : (Server.machine pb).Next r (.svc w answer) srv) :
    srv.tp = r.tp ∧ srv.responseEvents = r.responseEvents ∧ srv.draining = r.draining ∧
      ∃ y, srv.workers = r.workers.set w y ∧ (y = .idle ∨ ∃ t, y = .pushing t) := by
  simp only [Machine.Next, Server.machine, Server.step] at hn
  split at hn
  · obtain rfl := Except.ok.inj (Option.some.inj hn)
    split
    · exact ⟨rfl,rfl,rfl,_,rfl,Or.inr ⟨_,rfl⟩⟩
    · exact ⟨rfl,rfl,rfl,_,rfl,Or.inl rfl⟩
  · simp at hn

/-- A step that changes only the weight of one worker. -/
theorem rank_worker {s u : State} {w : ℕ} {x y : Worker} (hw : s.srv.workers[w]? = some x)
    (hset : u.srv.workers = s.srv.workers.set w y) (hq : u.srv.tp = s.srv.tp)
    (hr : u.srv.responseEvents = s.srv.responseEvents) (hd : u.srv.draining = s.srv.draining)
    (hother : ∀ v z, v ≠ w → workerRank u v z = workerRank s v z)
    (hlt : workerRank u w y < workerRank s w x) : rank u < rank s := by
  obtain ⟨rest,h1,h2⟩ := weights_set hw y hother
  have hdr : drainRank u.srv = drainRank s.srv := by rw [drainRank, drainRank, hr, hd]
  rw [rank, rank, hset, h1, h2, hdr, hq, hr]
  omega

theorem running_set {s : State} {w : ℕ} {x : Worker} (hw : s.srv.workers[w]? = some x) :
    s.srv.workers = s.srv.workers.set w x := by
  obtain ⟨hlen,rfl⟩ := List.getElem?_eq_some_iff.mp hw
  simp

theorem worker_rank_congr {s u : State} {w : ℕ} (hc : u.calling w = s.calling w)
    (hr : ∀ i, s.calling w = some i → callRank u.users i = callRank s.users i) (x : Worker) :
    workerRank u w x = workerRank s w x := by
  cases x with
  | running t =>
    rw [workerRank, workerRank, hc]
    cases hi : s.calling w with
    | none => rfl
    | some i => exact congrArg (6+·) (hr i hi)
  | _ => rfl

theorem running_rank {s : State} {w i : ℕ} {ev : IEvent} {p : Point} {t : Work}
    (hw : s.calling w = some i) (hcall : s.users.calls[i]? = some ⟨ev, p⟩) :
    workerRank s w (.running t) = 6+pointRank p := by
  simp [workerRank, hw, callRank, hcall]

theorem enter_rank {users : UserEventHandler.State} {w : ℕ} {t : Work}
    (h : Chronicled pb hd s) (hat : s.srv.workers[w]? = some (.running t))
    (hidle : s.calling w = none)
    (hn : UserEventHandler.machine.Next s.users (.call t.ev) users) :
    rank (s.enterCall w t users) < rank s := by
  rcases UserEventHandler.next_cases hn with ⟨ev,p,hact,hp,rfl⟩ | ⟨i,env,ev,p,q,u,hx,-,-,-⟩
  swap
  · simp at hx
  obtain rfl := UserEventHandler.Action.call.inj hact
  refine rank_worker hat (running_set hat) rfl rfl rfl (fun v z hvw => ?_) ?_
  · refine worker_rank_congr (Function.update_of_ne hvw _ _) (fun i hi => ?_) z
    obtain ⟨u,hu,-⟩ := h.busy v i hi
    have hlt : i < s.users.calls.length := by
      rw [calls_length h]
      exact (List.getElem?_eq_some_iff.mp hu).1
    simp [State.enterCall, State.withUsers, callRank, List.getElem?_append_left hlt]
  · have hle := handle_rank hp
    have hold : workerRank s w (.running t) = 13 := by simp [workerRank, hidle]
    rw [hold, @running_rank _ w s.users.calls.length t.ev p t (Function.update_self _ _ _)
      (by simp [State.enterCall, State.withUsers])]
    omega

theorem advance_rank {users : UserEventHandler.State} {w i : ℕ}
    {env : UserEventHandler.Environment} (h : Chronicled pb hd s) (hw : s.calling w = some i)
    (hn : UserEventHandler.machine.Next s.users (.advance i env) users) :
    rank (s.withUsers users) < rank s := by
  rcases UserEventHandler.next_cases hn with ⟨ev,p,hx,-,-⟩ | ⟨i',env',ev,p,q,u,hact,hcall,hm,rfl⟩
  · simp at hx
  obtain ⟨rfl,-⟩ := UserEventHandler.Action.advance.inj hact
  obtain ⟨t,-,hrun⟩ := h.busy w i hw
  have hlen : i < u.calls.length := by
    rw [UserEventHandler.moves_calls hm]
    exact (List.getElem?_eq_some_iff.mp hcall).1
  refine rank_worker hrun (running_set hrun) rfl rfl rfl (fun v z hvw => ?_) ?_
  · refine worker_rank_congr (s := s) (u := s.withUsers (u.goto i ev q)) rfl (fun j hj => ?_) z
    have hij : j ≠ i := by
      rintro rfl
      exact hvw (calling_distinct h hj hw)
    simp only [State.withUsers, callRank]
    rw [goto_calls hlen, if_neg hij, UserEventHandler.moves_calls hm]
  · have hnew : (s.withUsers (u.goto i ev q)).users.calls[i]? = some ⟨ev, q⟩ :=
      (goto_calls hlen).trans (if_pos rfl)
    rw [running_rank hw hcall, running_rank (s := s.withUsers (u.goto i ev q)) hw hnew]
    exact Nat.add_lt_add_left (moves_rank hm) 6

theorem leave_rank {srv : Server.State} {w i : ℕ} {ev : IEvent} {rsp : Option IEvent}
    (h : Chronicled pb hd s) (hw : s.calling w = some i)
    (hdone : s.users.calls[i]? = some ⟨ev, .returned rsp⟩)
    (hn : (Server.machine pb).Next s.srv (.svc w fun _ => rsp) srv) :
    rank (s.leaveCall w srv) < rank s := by
  obtain ⟨t,-,hrun⟩ := h.busy w i hw
  obtain ⟨hq,hr,hd,y,hset,hy⟩ := svc_places hn
  refine rank_worker hrun hset hq hr hd (fun v z hvw => ?_) ?_
  · exact worker_rank_congr (s := s) (u := s.leaveCall w srv) (Function.update_of_ne hvw _ _)
      (fun _ _ => rfl) z
  · rw [running_rank hw hdone]
    rcases hy with rfl | ⟨u,rfl⟩ <;> simp [workerRank, pointRank]

/-- Every step that is unprompted and gainful lowers the rank. -/
theorem next_rank {u : State} {act : Action} (h : Chronicled pb hd s) (hu : Unprompted act)
    (hg : Gainful s act) (hn : (machine pb).Next s act u) : rank u < rank s := by
  cases next_moved hn with
  | net other next => exact net_rank h hu hg other next
  | handle at_ idle next => exact enter_rank h at_ idle next
  | advance busy next => exact advance_rank h busy next
  | finish busy done next => exact leave_rank h busy done next
  | skip at_ idle nobody next => exact (never_skips h at_ nobody).elim

/-- A worker that finds nothing when it looks again is where it was. -/
theorem wake_rank {u : State} {w : ℕ} (h : Chronicled pb hd s) (hq : s.srv.tp.queue = [])
    (hn : (machine pb).Next s (.net (.wake w)) u) : rank u = rank s := by
  cases next_moved hn with
  | net other next =>
    simp only [Machine.Next, Server.machine, Server.step] at next
    split at next
    · rename_i hw
      obtain rfl := Except.ok.inj (Option.some.inj next)
      have := @take_rank s w .blocked s.srv.tp hw (not_calling h hw (by simp)) rfl
      rw [if_pos hq] at this
      exact this
    · simp at next

/-- A drain is at most the one step that ends it. -/
theorem drain_rank {u : State} (hn : (machine pb).Next s (.net .drain) u) :
    rank u ≤ rank s+1 := by
  cases next_moved hn with
  | net other next =>
    simp only [Machine.Next, Server.machine, Server.step, Option.ite_none_left_eq_some] at next
    obtain ⟨hd',next⟩ := next
    obtain rfl := Except.ok.inj (Option.some.inj next)
    have hle : drainRank { s.srv with draining := true } ≤ 2 := by
      rw [drainRank, if_pos rfl]
      split <;> omega
    show 14*s.srv.tp.queue.length+weights (workerRank s) s.srv.workers+
      3*s.srv.responseEvents.length+drainRank { s.srv with draining := true } ≤ rank s+1
    rw [rank, show drainRank s.srv = 1 from if_neg hd']
    omega

/-- A worker that has nothing in hand and waits. -/
def sleeper : Worker → ℕ
  | .blocked => 1
  | _ => 0

theorem point_rank_le (p : Point) : pointRank p ≤ 6 := by
  cases p <;> simp [pointRank]

theorem worker_rank_le (s : State) (w : ℕ) (x : Worker) :
    workerRank s w x+sleeper x ≤ 14*(x.requests.card+x.responses.card)+1 := by
  cases x with
  | running t =>
    have hcall : ∀ i, callRank s.users i ≤ 6 := fun i => by
      unfold callRank
      split
      · exact point_rank_le _
      · exact Nat.zero_le _
    simp only [workerRank, sleeper, Worker.requests, Worker.responses, Multiset.card_singleton,
      Multiset.card_zero]
    split
    · rename_i i _
      have := hcall i
      omega
    · omega
  | _ => simp [workerRank, sleeper, Worker.requests, Worker.responses]

theorem slots_card (l : List Worker) :
    total (fun x : Worker => 14*(x.requests.card+x.responses.card)+1) l =
      14*((total Worker.requests l).card+(total Worker.responses l).card)+l.length := by
  induction l with
  | nil => rfl
  | cons x l ih =>
    simp only [total_cons, ih, Multiset.card_add, List.length_cons]
    omega

/-- The rank in terms of what is in flight. -/
theorem rank_le (s : State) : rank s+total sleeper s.srv.workers ≤
    14*s.srv.inFlight.card+s.srv.workers.length+2 := by
  have hw := weights_le (l := s.srv.workers) (worker_rank_le s)
  rw [slots_card] at hw
  have hdr : drainRank s.srv ≤ 2 := by
    unfold drainRank
    split_ifs <;> omega
  have hcard : s.srv.inFlight.card = s.srv.tp.queue.length+
      (total Worker.requests s.srv.workers).card+((total Worker.responses s.srv.workers).card+
        s.srv.responseEvents.length) := by
    simp only [Server.State.inFlight, Server.State.requests, Server.State.responses,
      Multiset.card_add, Multiset.coe_card]
  unfold rank
  omega

theorem unprompted_reuses {act : Action} (hu : Unprompted act) : Reuses s act := by
  rintro a rfl
  exact hu.elim

end SharedBike.Progress
