import SharedBike.PoolStatements

/-!
# The sections of the pool are atomic

What the open section has done so far is written as an effect, field by field.
The threads outside touch nodes and workers that the section does not, so that
their steps commute with the effect, and the section can be made when the mutex
is let go.
-/

set_option autoImplicit false

namespace SharedBike.PoolAtomicity
open TailQueues CriticalSections
open SharedBike.PoolMachine SharedBike.PoolSteps SharedBike.PoolCounting SharedBike.PoolOwnership
open SharedBike.PoolRefinement SharedBike.PoolStatements

variable {κ : Type}

def queued : Inside → TailQueue TaskPtr → TailQueue TaskPtr
  | .condSignal who, q => q.clear who.task
  | .storeTail who _, q => q.clear who.task
  | .moveTail who _, q => (q.clear who.task).store q.last (some who.task)
  | .count who _, q => q.push who.task
  | .unlockPost who (some _), q => q.push who.task
  | .resetTail _ t, q => { q with first := q.next t }
  | .unlockCycle _ _, q => q.pop
  | _, q => q

/-- The node that has got its number. -/
def numbered : Inside → Option TaskPtr
  | .clearNext who => some who.task
  | .condSignal who => some who.task
  | .storeTail who _ => some who.task
  | .moveTail who _ => some who.task
  | .count who _ => some who.task
  | .unlockPost who (some _) => some who.task
  | _ => none

def woke : Inside → List ℕ
  | .storeTail _ woken => woken
  | .moveTail _ woken => woken
  | .count _ woken => woken
  | .unlockPost _ (some woken) => woken
  | _ => []

def linkedBy : Inside → Option TaskPtr
  | .moveTail who _ => some who.task
  | .count who _ => some who.task
  | .unlockPost who (some _) => some who.task
  | _ => none

/-- The worker that is in the section, once it has counted itself. -/
def cycling : Inside → Option ℕ
  | .testEmpty w => some w
  | .readFirst w => some w
  | .moveFirst w _ => some w
  | .resetTail w _ => some w
  | .unlockCycle w _ => some w
  | _ => none

def tally (p : Inside) (workers : List Point) (waiting : ℤ) : ℤ :=
  match p with
  | .unlockPost _ (some _) => waiting+1
  | p => match cycling p with
    | some w => if workers[w]? = some .outside then waiting-1 else waiting
    | none => waiting

/-- What the section that stands at a point has done to the state. -/
def effect (p : Inside) (c : Linked κ) : Linked κ :=
  { c with
    queue := queued p c.queue
    waiting := tally p c.workers c.waiting
    workers := signal (woke p) c.workers
    tasks := match numbered p with
      | some t => Function.update c.tasks t ((c.tasks t).map ({ · with id := c.taskId }))
      | none => c.tasks
    taskId := match numbered p with
      | some _ => (c.taskId+1)%2^64
      | none => c.taskId
    posted := match linkedBy p with
      | some t => c.posted++[t]
      | none => c.posted }

/-- The caller's node is its own until it is linked. -/
def Posting (who : Caller) (c : Linked κ) : Prop :=
  match who with
  | .poster n => c.Live (.heap n) ∧ ¬ c.queue.Linked (.heap n) ∧ .running (.heap n) ∉ c.workers
  | .destroyer => ∃ n, c.destroyer = .posting n

def Entering (w : ℕ) (c : Linked κ) : Prop :=
  c.workers[w]? = some .outside ∨ c.workers[w]? = some .woken

def Room (c : Linked κ) : Prop := c.waiting < c.maxQueue

/-- What the section relies on, as its tests found it. -/
def Valid (p : Inside) (c : Linked κ) : Prop :=
  match p with
  | .testFull who => Posting who c
  | .setId who => Posting who c ∧ Room c
  | .clearNext who => Posting who c ∧ Room c ∧ c.Live who.task
  | .condSignal who => Posting who c ∧ Room c ∧ c.Live who.task
  | .storeTail who woken =>
    (Posting who c ∧ Room c ∧ c.Live who.task) ∧ Signals woken c.workers
  | .moveTail who woken =>
    (Posting who c ∧ Room c ∧ c.Live who.task) ∧ Signals woken c.workers
  | .count who woken => (Posting who c ∧ Room c ∧ c.Live who.task) ∧ Signals woken c.workers
  | .unlockPost who (some woken) =>
    (Posting who c ∧ Room c ∧ c.Live who.task) ∧ Signals woken c.workers
  | .unlockPost who none => Posting who c ∧ ¬ Room c
  | .uncount w => c.workers[w]? = some .outside
  | .testEmpty w => Entering w c
  | .readFirst w => Entering w c ∧ c.queue.first ≠ none
  | .moveFirst w t => Entering w c ∧ c.queue.first = some t
  | .resetTail w t => Entering w c ∧ c.queue.first = some t
  | .unlockCycle w t => Entering w c ∧ c.queue.first = some t

def sections (κ : Type) : Sections (Linked κ) Inside := ⟨effect,Valid⟩

/-- What a thread outside leaves as the open section found it. -/
structure Untouched (p : Inside) (c d : Linked κ) : Prop where
  waiting : d.waiting = c.waiting
  maxQueue : d.maxQueue = c.maxQueue
  first : d.queue.first = c.queue.first
  entering : ∀ (w : ℕ) (x : Point), x = .outside ∨ x = .woken → c.workers[w]? = some x →
    d.workers[w]? = some x
  posting : ∀ who, Posting who c → Posting who d ∧ (c.Live who.task → d.Live who.task)
  signals : Signals (woke p) c.workers → Signals (woke p) d.workers

theorem valid_untouched {p : Inside} {c d : Linked κ} (h : Untouched p c d) (hv : Valid p c) :
    Valid p d := by
  have hroom : Room c ↔ Room d := by rw [Room, Room, h.waiting, h.maxQueue]
  have henter : ∀ w, Entering w c → Entering w d := fun w he =>
    he.imp (h.entering w _ (Or.inl rfl)) (h.entering w _ (Or.inr rfl))
  have hpost : ∀ who, Posting who c ∧ Room c ∧ c.Live who.task →
      Posting who d ∧ Room d ∧ d.Live who.task := fun who hp =>
    ⟨(h.posting who hp.1).1,hroom.mp hp.2.1,(h.posting who hp.1).2 hp.2.2⟩
  cases p with
  | testFull who => exact (h.posting who hv).1
  | setId who => exact ⟨(h.posting who hv.1).1,hroom.mp hv.2⟩
  | clearNext who => exact hpost who hv
  | condSignal who => exact hpost who hv
  | storeTail who woken => exact ⟨hpost who hv.1,h.signals hv.2⟩
  | moveTail who woken => exact ⟨hpost who hv.1,h.signals hv.2⟩
  | count who woken => exact ⟨hpost who hv.1,h.signals hv.2⟩
  | unlockPost who r =>
    cases r with
    | some woken => exact ⟨hpost who hv.1,h.signals hv.2⟩
    | none => exact ⟨(h.posting who hv.1).1,fun hr => hv.2 (hroom.mpr hr)⟩
  | uncount w => exact h.entering w _ (Or.inl rfl) hv
  | testEmpty w => exact henter w hv
  | readFirst w => exact ⟨henter w hv.1,fun hf => hv.2 (h.first.symm.trans hf)⟩
  | moveFirst w t => exact ⟨henter w hv.1,h.first.trans hv.2⟩
  | resetTail w t => exact ⟨henter w hv.1,h.first.trans hv.2⟩
  | unlockCycle w t => exact ⟨henter w hv.1,h.first.trans hv.2⟩

section Signals

variable {woken : List ℕ} {workers : List Point} {w : ℕ} {x : Point}

theorem wake_set (h : x ≠ .waiting) (v : ℕ) :
    wake (workers.set w x) v = (wake workers v).set w x := by
  unfold wake
  by_cases hv : w = v
  · subst hv
    rw [if_neg]
    · split_ifs
      · rw [List.set_set]
      · rfl
    · rw [List.getElem?_set, if_pos rfl]
      intro hx
      split_ifs at hx
      exact h (Option.some.inj hx)
  · rw [List.getElem?_set, if_neg hv]
    split_ifs
    · exact List.set_comm _ _ hv
    · rfl

theorem signal_set (h : x ≠ .waiting) :
    signal woken (workers.set w x) = (signal woken workers).set w x := by
  induction woken generalizing workers with
  | nil => rfl
  | cons v woken ih =>
    rw [signal, List.foldl_cons, ← signal, wake_set h, ih]
    rfl

/-- A signal only makes woken workers. -/
theorem signal_other (h : x ≠ .woken) (hw : (signal woken workers)[w]? = some x) :
    workers[w]? = some x := by
  induction woken generalizing workers with
  | nil => exact hw
  | cons v woken ih =>
    rw [signal, List.foldl_cons, ← signal] at hw
    have hx := ih hw
    rcases wake_eq workers v with he | ⟨-,he⟩
    · rwa [he] at hx
    · rw [he, List.getElem?_set] at hx
      split_ifs at hx
      · exact absurd (Option.some.inj hx).symm h
      · exact hx

theorem signal_wakes_all (hw : w ∈ woken) : (signal woken workers)[w]? ≠ some .waiting := by
  intro h
  have hold := signal_other (by simp) h
  induction woken generalizing workers with
  | nil => simp at hw
  | cons v woken ih =>
    rw [signal, List.foldl_cons, ← signal] at h
    have hx := signal_other (by simp) h
    by_cases hv : v = w
    · subst hv
      rw [wake, if_pos hold, List.getElem?_set, if_pos rfl] at hx
      split_ifs at hx
      simp at hx
    · exact ih ((List.mem_cons.mp hw).resolve_left (Ne.symm hv)) h hx

/-- A worker that the signal does not find waiting may move on. -/
theorem signals_set (hx : x ≠ .waiting) (hw : w ∈ woken → workers[w]? ≠ some .waiting)
    (h : Signals woken workers) : Signals woken (workers.set w x) := by
  intro hm
  have hold : .waiting ∈ workers := (List.mem_or_eq_of_mem_set hm).resolve_right (Ne.symm hx)
  obtain ⟨v,hv,hwait⟩ := h hold
  refine ⟨v,hv,?_⟩
  have hne : w ≠ v := by
    rintro rfl
    exact hw hv hwait
  rw [List.getElem?_set, if_neg hne, hwait]

end Signals

section Effects

variable {p : Inside} {c : Linked κ} {l : List TaskPtr} {who : Caller} {m t : TaskPtr}

/-- A node that is being posted is nobody else's. -/
theorem posting_free (hrep : c.queue.Represents l) (ho : Owned (atList c l))
    (hp : Posting who c) : who.task ∉ owned (atList c l) := by
  cases who with
  | poster n =>
    intro hm
    rcases mem_owned.mp hm with hm | hm
    · exact hp.2.1 (hrep.linked.mpr hm)
    · exact hp.2.2 hm
  | destroyer =>
    obtain ⟨n,hn⟩ := hp
    exact stack_free ho fun k hk => by simp [atList, hn] at hk

theorem numbered_posting (hv : Valid p c) (ht : numbered p = some t) :
    ∃ who, t = who.task ∧ Posting who c ∧ c.Live t := by
  cases p with
  | clearNext who => obtain rfl := Option.some.inj ht; exact ⟨who,rfl,hv.1,hv.2.2⟩
  | condSignal who => obtain rfl := Option.some.inj ht; exact ⟨who,rfl,hv.1,hv.2.2⟩
  | storeTail who woken => obtain rfl := Option.some.inj ht; exact ⟨who,rfl,hv.1.1,hv.1.2.2⟩
  | moveTail who woken => obtain rfl := Option.some.inj ht; exact ⟨who,rfl,hv.1.1,hv.1.2.2⟩
  | count who woken => obtain rfl := Option.some.inj ht; exact ⟨who,rfl,hv.1.1,hv.1.2.2⟩
  | unlockPost who r =>
    cases r with
    | none => simp [numbered] at ht
    | some woken => obtain rfl := Option.some.inj ht; exact ⟨who,rfl,hv.1.1,hv.1.2.2⟩
  | _ => simp [numbered] at ht

theorem live_effect : (effect p c).Live t ↔ c.Live t := by
  unfold State.Live effect
  cases numbered p with
  | none => exact Iff.rfl
  | some r =>
    by_cases ht : t = r
    · subst ht
      simp
    · simp [Function.update_of_ne ht]

theorem tasks_effect (ht : numbered p ≠ some t) : (effect p c).tasks t = c.tasks t := by
  unfold effect
  cases hn : numbered p with
  | none => rfl
  | some r => exact Function.update_of_ne (fun h => ht (by rw [hn, h])) _ _

theorem clear_comm (q : TailQueue TaskPtr) (hne : m ≠ t) :
    (q.clear m).clear t = (q.clear t).clear m := by
  unfold TailQueue.clear
  rw [Function.update_comm hne]

theorem store_clear (q : TailQueue TaskPtr) {a : Slot TaskPtr} {x : Option TaskPtr}
    (hne : a ≠ .next m) : (q.clear m).store a x = (q.store a x).clear m := by
  cases a with
  | head => rfl
  | next r =>
    have hr : m ≠ r := fun h => hne (by rw [h])
    show ({ q with next := Function.update (Function.update q.next m none) r x } :
      TailQueue TaskPtr) = { q with next := Function.update (Function.update q.next r x) m none }
    rw [Function.update_comm hr]

theorem last_other (hrep : c.queue.Represents l) (hm : m ∉ l) : c.queue.last ≠ .next m := by
  rw [hrep.last, lastSlot]
  cases h : l.getLast? with
  | none => simp
  | some r =>
    intro hx
    obtain rfl := Slot.next.inj hx
    exact hm (List.mem_of_getLast? h)

/-- Clearing the link of a node that is not linked commutes with the section. -/
theorem queued_clear (hrep : c.queue.Represents l) (hv : Valid p c) (hm : m ∉ l)
    (hne : numbered p ≠ some m) : queued p (c.queue.clear m) = (queued p c.queue).clear m := by
  have hlast := last_other hrep hm
  have hfirst : ∀ t, c.queue.first = some t → t ≠ m := by
    rintro t ht rfl
    rw [hrep.first] at ht
    exact hm (List.mem_of_mem_head? ht)
  have hcaller : ∀ who : Caller, numbered p = some who.task → m ≠ who.task :=
    fun who hw hx => hne (hw.trans (by rw [hx]))
  have hstored : ∀ who : Caller, numbered p = some who.task →
      ((c.queue.clear m).clear who.task).store c.queue.last (some who.task) =
        ((c.queue.clear who.task).store c.queue.last (some who.task)).clear m := fun who hw => by
    rw [clear_comm _ (hcaller who hw), store_clear _ hlast]
  have hpushed : ∀ who : Caller, numbered p = some who.task →
      (c.queue.clear m).push who.task = (c.queue.push who.task).clear m := fun who hw =>
    congrArg (fun q : TailQueue TaskPtr => { q with last := .next who.task }) (hstored who hw)
  cases p with
  | condSignal who => exact clear_comm _ (hcaller who rfl)
  | storeTail who woken => exact clear_comm _ (hcaller who rfl)
  | moveTail who woken => exact hstored who rfl
  | count who woken => exact hpushed who rfl
  | unlockPost who r =>
    cases r with
    | none => rfl
    | some woken => exact hpushed who rfl
  | resetTail w t =>
    have hnext : (c.queue.clear m).next t = c.queue.next t :=
      Function.update_of_ne (hfirst t hv.2) _ _
    simp only [queued, hnext]
    rfl
  | unlockCycle w t =>
    have hnext : (c.queue.clear m).next t = c.queue.next t :=
      Function.update_of_ne (hfirst t hv.2) _ _
    have hf : (c.queue.clear m).first = some t := hv.2
    simp only [queued, TailQueue.pop, hf, hv.2, hnext]
    cases c.queue.next t <;> rfl
  | _ => rfl

theorem numbered_update (ts : Store κ) (id : ℕ) (x : Option (PoolMachine.Task κ)) (hne : m ≠ t) :
    Function.update (Function.update ts m x) t
        ((Function.update ts m x t).map ({ · with id := id })) =
      Function.update (Function.update ts t ((ts t).map ({ · with id := id }))) m x := by
  rw [Function.update_of_ne hne.symm, Function.update_comm hne]

theorem effect_tasks (x : Option (PoolMachine.Task κ)) (hne : numbered p ≠ some m) :
    effect p { c with tasks := Function.update c.tasks m x } =
      { effect p c with tasks := Function.update (effect p c).tasks m x } := by
  unfold effect
  cases hn : numbered p with
  | none => rfl
  | some t =>
    have hmt : m ≠ t := fun h => hne (by rw [hn, h])
    simp only [numbered_update c.tasks c.taskId x hmt]

theorem effect_node (x : Option (PoolMachine.Task κ)) (hrep : c.queue.Represents l) (hv : Valid p c)
    (hm : m ∉ l) (hne : numbered p ≠ some m) :
    effect p { c with tasks := Function.update c.tasks m x, queue := c.queue.clear m } =
      { effect p c with
        tasks := Function.update (effect p c).tasks m x
        queue := (effect p c).queue.clear m } := by
  have htasks := @effect_tasks _ p { c with queue := c.queue.clear m } m x hne
  rw [show effect p { c with tasks := Function.update c.tasks m x, queue := c.queue.clear m } = _
    from htasks]
  unfold effect
  rw [queued_clear hrep hv hm hne]

theorem effect_worker {w : ℕ} {x : Point} (hx : x ≠ .waiting) (hw : cycling p ≠ some w) :
    effect p { c with workers := c.workers.set w x } =
      { effect p c with workers := (effect p c).workers.set w x } := by
  have htally : tally p (c.workers.set w x) c.waiting = tally p c.workers c.waiting := by
    have hcycle : ∀ v, cycling p = some v → (c.workers.set w x)[v]? = c.workers[v]? := by
      rintro v hv
      rw [List.getElem?_set, if_neg fun h => hw (by rw [hv, h])]
    unfold tally
    split
    · rfl
    · cases hv : cycling p with
      | none => rfl
      | some v => simp only [hcycle v hv]
  unfold effect
  rw [htally, signal_set hx]

theorem effect_round (n : ℕ) (hne : numbered p ≠ some .stack) :
    effect p (c.round n) = (effect p c).round n := by
  have hlen : (effect p c).workers.length = c.workers.length := length_signal _ _
  unfold State.round
  rw [hlen]
  split_ifs
  · rfl
  · exact @effect_tasks _ p { c with destroyer := .done } .stack none hne

end Effects

section Outside

variable {p : Inside} {c d : Linked κ} {l : List TaskPtr} {w : ℕ} {x y : Point}

theorem untouched_of (hrep : c.queue.Represents l) (hrep' : d.queue.Represents l)
    (hwaiting : d.waiting = c.waiting) (hmax : d.maxQueue = c.maxQueue)
    (henter : ∀ (w : ℕ) (x : Point), x = .outside ∨ x = .woken → c.workers[w]? = some x →
      d.workers[w]? = some x)
    (hrun : ∀ n, .running (.heap n) ∈ d.workers → .running (.heap n) ∈ c.workers)
    (hexit : ∀ n, c.destroyer = .posting n → d.destroyer = .posting n)
    (hlive : ∀ who, Posting who c → c.Live who.task → d.Live who.task)
    (hsignals : Signals (woke p) c.workers → Signals (woke p) d.workers) : Untouched p c d := by
  refine ⟨hwaiting,hmax,hrep'.first.trans hrep.first.symm,henter,fun who hp => ⟨?_,hlive who hp⟩,
    hsignals⟩
  cases who with
  | poster n =>
    exact ⟨hlive (.poster n) hp hp.1,fun h => hp.2.1 (hrep.linked.mpr (hrep'.linked.mp h)),
      fun h => hp.2.2 (hrun n h)⟩
  | destroyer =>
    obtain ⟨n,hn⟩ := hp
    exact ⟨n,hexit n hn⟩

theorem entering_set (hw : c.workers[w]? = some y) (hy : y ≠ .outside) (hy' : y ≠ .woken) :
    ∀ (v : ℕ) (z : Point), z = .outside ∨ z = .woken → c.workers[v]? = some z →
      (c.workers.set w x)[v]? = some z := by
  intro v z hz hv
  have hne : w ≠ v := by
    rintro rfl
    obtain rfl := Option.some.inj (hw.symm.trans hv)
    rcases hz with rfl | rfl
    · exact hy rfl
    · exact hy' rfl
  rw [List.getElem?_set, if_neg hne, hv]

theorem running_set (hx : ∀ t, x ≠ .running t) (n : ℕ)
    (h : .running (.heap n) ∈ c.workers.set w x) : .running (.heap n) ∈ c.workers :=
  (List.mem_or_eq_of_mem_set h).resolve_right fun he => hx _ he.symm

/-- The worker in the section stands at the head of its loop. -/
theorem cycling_entering (hv : Valid p c) (hp : cycling p = some w) : Entering w c := by
  cases p with
  | testEmpty v => obtain rfl := Option.some.inj hp; exact hv
  | readFirst v => obtain rfl := Option.some.inj hp; exact hv.1
  | moveFirst v t => obtain rfl := Option.some.inj hp; exact hv.1
  | resetTail v t => obtain rfl := Option.some.inj hp; exact hv.1
  | unlockCycle v t => obtain rfl := Option.some.inj hp; exact hv.1
  | _ => simp [cycling] at hp

theorem cycling_other (hv : Valid p c) (hw : c.workers[w]? = some y) (hy : y ≠ .outside)
    (hy' : y ≠ .woken) : cycling p ≠ some w := by
  intro hp
  rcases cycling_entering hv hp with h | h
  · exact hy (Option.some.inj (hw.symm.trans h))
  · exact hy' (Option.some.inj (hw.symm.trans h))

theorem worker_untouched (hrep : c.queue.Represents l)
    (hw : c.workers[w]? = some y) (hy : y ≠ .outside) (hy' : y ≠ .woken)
    (hx : x ≠ .waiting) (hx' : ∀ t, x ≠ .running t)
    (hsig : w ∈ woke p → y ≠ .waiting) : Untouched p c { c with workers := c.workers.set w x } := by
  refine untouched_of hrep hrep rfl rfl (entering_set hw hy hy') (fun n => running_set hx' n)
    (fun n h => h) (fun who _ h => h) (signals_set hx fun hm h => ?_)
  exact hsig hm (Option.some.inj (hw.symm.trans h))

/-- What happens to the node on the stack while its owner is not posting it. -/
theorem stack_untouched (x : Option (PoolMachine.Task κ)) (hrep : c.queue.Represents l)
    (hrep' : d.queue.Represents l) (hno : ¬ Posting .destroyer c)
    (hd : d = { c with
      tasks := Function.update c.tasks .stack x
      queue := d.queue
      lock := d.lock
      destroyer := d.destroyer }) : Untouched p c d := by
  have hw : d.workers = c.workers := by rw [hd]
  refine untouched_of hrep hrep' (by rw [hd]) (by rw [hd]) (fun w y _ h => hw ▸ h)
    (fun n h => hw ▸ h) (fun n h => absurd ⟨n,h⟩ hno) (fun who hp h => ?_) (fun h => hw ▸ h)
  cases who with
  | destroyer => exact absurd hp hno
  | poster n =>
    have hne : (Caller.poster n).task ≠ .stack := by simp [Caller.task]
    rw [hd]
    unfold State.Live
    simp only [Function.update_of_ne hne]
    exact h

theorem round_untouched (n : ℕ) (hrep : c.queue.Represents l) (hno : ¬ Posting .destroyer c) :
    Untouched p c (c.round n) := by
  have hq := round_queue c n
  unfold State.round
  split_ifs
  · exact stack_untouched (c.tasks .stack) hrep hrep hno (by rw [Function.update_eq_self])
  · exact stack_untouched none hrep hrep hno rfl

/-- A thread without the mutex makes its step before the section is made. -/
theorem apart_seen {act : PoolMachine.Action κ} {u : Linked κ} (hv : Valid p c)
    (hrep : c.queue.Represents l) (ho : Owned (atList c l)) (ha : apart act = true)
    (hn : (PoolMachine.linked κ).Next (effect p c) act u) :
    ∃ d, (PoolMachine.linked κ).Next c act d ∧ Valid p d ∧ u = effect p d := by
  have hfree : ∀ {m : TaskPtr}, m ∈ owned (atList c l) → numbered p ≠ some m := by
    intro m hm hx
    obtain ⟨who,rfl,hp,-⟩ := numbered_posting hv hx
    exact posting_free hrep ho hp hm
  have hstack : ∀ {n : ℕ}, (c.destroyer = .idle ∨ c.destroyer = .spinning n) →
      ¬ Posting .destroyer c ∧ numbered p ≠ some .stack := by
    intro n hd
    have hno : ¬ Posting .destroyer c := by
      rintro ⟨k,hk⟩
      rcases hd with hd | hd <;> simp [hd] at hk
    refine ⟨hno,fun hx => ?_⟩
    obtain ⟨who,hwho,hp,-⟩ := numbered_posting hv hx
    cases who with
    | poster n => simp [Caller.task] at hwho
    | destroyer => exact hno hp
  have hrunning : ∀ {w : ℕ} {t : TaskPtr}, (effect p c).workers[w]? = some (.running t) →
      c.workers[w]? = some (.running t) := fun h => signal_other (by simp) h
  cases act with
  | post n woken => simp [apart] at ha
  | enter w => simp [apart] at ha
  | recheck w => simp [apart] at ha
  | destroyPost woken => simp [apart] at ha
  | alloc n ctx =>
    obtain ⟨hf,rfl⟩ := next_alloc.mp hn
    have hdead : ¬ c.Live (.heap n) := fun h => hf (live_effect.mpr h)
    have hm : TaskPtr.heap n ∉ l := fun hm => hdead (ho.live _ (mem_owned.mpr (Or.inl hm)))
    have hne : numbered p ≠ some (.heap n) := fun hx => by
      obtain ⟨who,-,-,hlive⟩ := numbered_posting hv hx
      exact hdead hlive
    refine ⟨_,next_alloc.mpr ⟨hdead,rfl⟩,?_,(effect_node _ hrep hv hm hne).symm⟩
    refine valid_untouched (untouched_of hrep (TailQueue.represents_clear hrep hm) rfl rfl
      (fun w x _ h => h) (fun n h => h) (fun n h => h) (fun who _ h => ?_) (fun h => h)) hv
    unfold State.Live
    by_cases he : who.task = .heap n
    · simp [he]
    · simp only [Function.update_of_ne he]
      exact h
  | spurious w =>
    obtain ⟨at_,hd,rfl⟩ := next_spurious.mp hn
    have hw : c.workers[w]? = some .waiting := signal_other (by simp) at_
    refine ⟨_,next_spurious.mpr ⟨hw,hd,rfl⟩,?_,
      (effect_worker (by simp) (cycling_other hv hw (by simp) (by simp))).symm⟩
    exact valid_untouched (worker_untouched hrep hw (by simp) (by simp) (by simp) (by simp)
      fun hm _ => signal_wakes_all hm at_) hv
  | finish w =>
    obtain ⟨t,id,ctx,at_,task,rfl⟩ := next_finish.mp hn
    have hw := hrunning at_
    have hm : t ∈ owned (atList c l) := running_owned (s := atList c l) hw
    have hl : t ∉ l := not_linked_of_running ho hw
    have hne := hfree hm
    have htask : c.tasks t = some ⟨id, .work ctx⟩ := (tasks_effect hne).symm.trans task
    refine ⟨_,next_finish.mpr ⟨t,id,ctx,hw,htask,rfl⟩,?_,?_⟩
    · refine valid_untouched (untouched_of hrep (TailQueue.represents_clear hrep hl) rfl rfl
        (entering_set hw (by simp) (by simp)) (fun n => running_set (by simp) n) (fun n h => h)
        (fun who hp h => ?_) (signals_set (by simp) fun _ hx => ?_)) hv
      · have hnt : who.task ≠ t := by
          rintro rfl
          exact posting_free hrep ho hp hm
        unfold State.Live
        simp only [Function.update_of_ne hnt]
        exact h
      · rw [hw] at hx
        simp at hx
    · have hnode := effect_node (c := { c with freed := c.freed++[t] }) none hrep hv hl hne
      have hworker := @effect_worker _ p { c with
        tasks := Function.update c.tasks t none
        queue := c.queue.clear t
        freed := c.freed++[t] } w .outside (by simp) (cycling_other hv hw (by simp) (by simp))
      refine Eq.trans ?_ hworker.symm
      exact congrArg (fun e : Linked κ => { e with workers := e.workers.set w .outside }) hnode.symm
  | exit w =>
    obtain ⟨t,id,at_,task,rfl⟩ := next_exit.mp hn
    have hw := hrunning at_
    have hne := hfree (running_owned (s := atList c l) hw)
    have htask : c.tasks t = some ⟨id, .exitHandler⟩ := (tasks_effect hne).symm.trans task
    refine ⟨_,next_exit.mpr ⟨t,id,hw,htask,rfl⟩,?_,?_⟩
    · refine valid_untouched ?_ (valid_untouched (worker_untouched (x := .gone) hrep hw (by simp)
        (by simp) (by simp) (by simp) (by simp)) hv)
      exact untouched_of hrep hrep rfl rfl (fun _ _ _ h => h) (fun n h => h) (fun n h => h)
        (fun who _ h => h) (fun h => h)
    · exact (@effect_worker _ p { c with lock := false } w .gone (by simp)
        (cycling_other hv hw (by simp) (by simp))).symm
  | destroy =>
    obtain ⟨hi,rfl⟩ := next_destroy.mp hn
    obtain ⟨hno,hne⟩ := @hstack 0 (Or.inl hi)
    have hl : TaskPtr.stack ∉ l := fun hm =>
      stack_free ho (fun n h => by simp [atList, show c.destroyer = .idle from hi] at h)
        (mem_owned.mpr (Or.inl hm))
    refine ⟨_,next_destroy.mpr ⟨hi,rfl⟩,?_,?_⟩
    · have hclear := TailQueue.represents_clear hrep hl
      exact valid_untouched (round_untouched 0 hclear hno)
        (valid_untouched (stack_untouched (some ⟨0, .exitHandler⟩) hrep hclear hno rfl) hv)
    · rw [effect_round _ hne]
      exact congrArg (fun e : Linked κ => e.round 0) (effect_node _ hrep hv hl hne).symm
  | destroyNext =>
    obtain ⟨n,hs,hlock,rfl⟩ := next_destroy_next.mp hn
    obtain ⟨hno,hne⟩ := @hstack n (Or.inr hs)
    refine ⟨_,next_destroy_next.mpr ⟨n,hs,hlock,rfl⟩,?_,(effect_round _ hne).symm⟩
    exact valid_untouched (round_untouched _ hrep hno) hv

end Outside

section Statements

variable {p : Inside} {c : Linked κ} {l : List TaskPtr} {w : ℕ} {t : TaskPtr} {woken : List ℕ}
variable {K : Linked κ → PoolMachine.Action κ → Prop}

abbrev SeenBy (K : Linked κ → PoolMachine.Action κ → Prop) (c : Linked κ)
    (s u : PoolStatements.State κ) : Prop :=
  Seen (sections κ) (PoolMachine.linked κ) K c s u

/-- A guard that only says something about posts. -/
def OnPosts (K : Linked κ → PoolMachine.Action κ → Prop) : Prop :=
  ∀ c act, (∀ n woken, act ≠ .post n woken) → K c act

/-- The post that a section ends in meets the guard. -/
def PostAllowed (K : Linked κ → PoolMachine.Action κ → Prop) (p : Inside) (c : Linked κ) : Prop :=
  ∀ n woken, caller p = some (.poster n) → Disciplined linkedQueue c (.post n woken) →
    K c (.post n woken)

theorem deref_ok {s : Linked κ} {u v : PoolStatements.State κ}
    (h : some (derefs s t u) = some (.ok v)) : s.Live t ∧ v = u := by
  unfold derefs at h
  split_ifs at h with hl
  · exact ⟨hl,(Except.ok.inj (Option.some.inj h)).symm⟩
  · simp at h

theorem signals_all (workers : List Point) : Signals (List.range workers.length) workers := by
  intro hm
  obtain ⟨w,hw⟩ := List.mem_iff_getElem?.mp hm
  exact ⟨w,List.mem_range.mpr (List.getElem?_eq_some_iff.mp hw).1,hw⟩

theorem tail_live (hrep : c.queue.Represents l) (ho : Owned (atList c l)) :
    ∀ p ∈ linkedQueue.tail c.queue, c.Live p := by
  intro p hp
  rw [show linkedQueue.tail c.queue = l.getLast? from hrep.tail] at hp
  exact ho.live p (mem_owned.mpr (Or.inl (List.mem_of_getLast? hp)))

/-- The end of `thread_task_post` is the post of the pool. -/
theorem post_made {who : Caller} {r : Option (List ℕ)} (hv : Valid (.unlockPost who r) c)
    (hrep : c.queue.Represents l) (ho : Owned (atList c l)) (hd : c.destroyer ≠ .done)
    (hK : OnPosts K) (hP : PostAllowed K (.unlockPost who r) c) :
    SeenBy K c ⟨effect (.unlockPost who r) c, some (.unlockPost who r)⟩
      ⟨returned (effect (.unlockPost who r) c) who r, none⟩ := by
  obtain ⟨woken,res,hpost,hres⟩ : ∃ woken res,
      c.post linkedQueue who.task woken = some (.ok res) ∧
        ((r = none ∧ res = none) ∨
          (∃ wk, r = some wk) ∧ res = some (effect (.unlockPost who r) c)) := by
    cases r with
    | none => exact ⟨_,none,post_iff.mpr ⟨hd,signals_all c.workers,Or.inl ⟨not_lt.mp hv.2,rfl⟩⟩,
        Or.inl ⟨rfl,rfl⟩⟩
    | some woken => exact ⟨woken,_,post_iff.mpr ⟨hd,hv.2,Or.inr ⟨hv.1.2.1,hv.1.2.2,
        tail_live hrep ho,rfl⟩⟩,Or.inr ⟨⟨woken,rfl⟩,rfl⟩⟩
  have hposting : Posting who c := by
    cases r with
    | none => exact hv.1
    | some woken => exact hv.1.1
  cases who with
  | poster n =>
    refine .make (b := .post n woken) rfl rfl (hP n woken rfl hposting.2)
      (next_post.mpr ⟨res,hpost,?_⟩)
    rcases hres with ⟨rfl,rfl⟩ | ⟨⟨wk,rfl⟩,rfl⟩ <;> rfl
  | destroyer =>
    obtain ⟨n,hn⟩ := hposting
    refine .make (b := .destroyPost woken) rfl rfl (hK _ _ (by simp))
      (next_destroy_post.mpr ⟨n,res,hn,hpost,?_⟩)
    have hn' : (effect (.unlockPost .destroyer r) c).destroyer = .posting n := hn
    simp only [returned, hn']
    rcases hres with ⟨rfl,rfl⟩ | ⟨⟨wk,rfl⟩,rfl⟩ <;> rfl

/-- A worker that finds nothing waits: its section ends in `pthread_cond_wait`. -/
theorem wait_made (hv : Entering w c) (hempty : c.queue.first = none)
    (hd : c.destroyer ≠ .done) (hK : OnPosts K) :
    SeenBy K c ⟨effect (.testEmpty w) c, some (.testEmpty w)⟩
      ⟨{ effect (.testEmpty w) c with
        workers := (effect (.testEmpty w) c).workers.set w .waiting }, none⟩ := by
  rcases hv with hw | hw
  · refine .make (b := .enter w) rfl rfl (hK _ _ (by simp)) (next_enter.mpr ⟨hw,hd,?_⟩)
    simp only [State.take, show linkedQueue.first c.queue = none from hempty]
    simp only [effect, tally, cycling, hw, if_true]
    rfl
  · refine .make (b := .recheck w) rfl rfl (hK _ _ (by simp)) (next_recheck.mpr ⟨hw,hd,?_⟩)
    simp only [State.take, show linkedQueue.first c.queue = none from hempty]
    simp only [effect, tally, cycling, hw, Option.some.injEq, reduceCtorEq, if_false]
    rfl

theorem take_made (hv : Valid (.unlockCycle w t) c) (hlive : c.Live t)
    (hd : c.destroyer ≠ .done) (hK : OnPosts K) :
    SeenBy K c ⟨effect (.unlockCycle w t) c, some (.unlockCycle w t)⟩
      ⟨{ effect (.unlockCycle w t) c with
        workers := (effect (.unlockCycle w t) c).workers.set w (.running t)
        picked := (effect (.unlockCycle w t) c).picked++[(w, t)] }, none⟩ := by
  obtain ⟨hw | hw,hfirst⟩ := hv
  · refine .make (b := .enter w) rfl rfl (hK _ _ (by simp)) (next_enter.mpr ⟨hw,hd,?_⟩)
    have hl : State.Live { c with waiting := c.waiting-1 } t := hlive
    simp only [State.take, show linkedQueue.first c.queue = some t from hfirst, if_pos hl]
    simp only [effect, tally, cycling, hw, if_true]
    rfl
  · refine .make (b := .recheck w) rfl rfl (hK _ _ (by simp)) (next_recheck.mpr ⟨hw,hd,?_⟩)
    simp only [State.take, show linkedQueue.first c.queue = some t from hfirst, if_pos hlive]
    simp only [effect, tally, cycling, hw, Option.some.injEq, reduceCtorEq, if_false]
    rfl

/-- The two statements that move the head take the first node off the queue. -/
theorem popped (hfirst : c.queue.first = some t) :
    (if c.queue.next t = none then
      ({ c.queue with first := c.queue.next t, last := .head } : TailQueue TaskPtr)
      else { c.queue with first := c.queue.next t }) = c.queue.pop := by
  unfold TailQueue.pop
  rw [hfirst]
  cases hn : c.queue.next t with
  | none => simp [hn]
  | some r => simp [hn]

/-- Each statement of the section adds to its effect, and the last one makes it. -/
theorem statement_seen {u : PoolStatements.State κ} (hv : Valid p c)
    (hrep : c.queue.Represents l) (ho : Owned (atList c l)) (hd : c.destroyer ≠ .done)
    (hK : OnPosts K) (hP : PostAllowed K p c)
    (h : statement (effect p c) woken p = some (.ok u)) :
    SeenBy K c ⟨effect p c, some p⟩ u := by
  have hlive : ∀ t, c.queue.first = some t → c.Live t := fun t ht => by
    rw [hrep.first] at ht
    exact ho.live t (mem_owned.mpr (Or.inl (List.mem_of_mem_head? ht)))
  cases p with
  | testFull who =>
    simp only [statement] at h
    split at h
    · rename_i hfull
      obtain rfl := Except.ok.inj (Option.some.inj h)
      exact .work rfl rfl ⟨hv,not_lt.mpr hfull⟩ rfl
    · rename_i hroom
      obtain rfl := Except.ok.inj (Option.some.inj h)
      exact .work rfl rfl ⟨hv,not_le.mp hroom⟩ rfl
  | setId who =>
    obtain ⟨hl,rfl⟩ := deref_ok h
    exact .work rfl rfl ⟨hv.1,hv.2,live_effect.mp hl⟩ rfl
  | clearNext who =>
    obtain ⟨hl,rfl⟩ := deref_ok h
    exact .work rfl rfl hv rfl
  | condSignal who =>
    simp only [statement] at h
    split at h
    · rename_i hs
      obtain rfl := Except.ok.inj (Option.some.inj h)
      exact .work rfl rfl ⟨hv,hs⟩ rfl
    · simp at h
  | storeTail who wk =>
    simp only [statement] at h
    split at h
    · obtain rfl := Except.ok.inj (Option.some.inj h)
      exact .work rfl rfl hv rfl
    · simp at h
  | moveTail who wk =>
    obtain rfl := Except.ok.inj (Option.some.inj h)
    exact .work rfl rfl hv rfl
  | count who wk =>
    obtain rfl := Except.ok.inj (Option.some.inj h)
    exact .work rfl rfl hv rfl
  | unlockPost who r =>
    obtain rfl := Except.ok.inj (Option.some.inj h)
    exact post_made hv hrep ho hd hK hP
  | uncount w =>
    obtain rfl := Except.ok.inj (Option.some.inj h)
    have hw : c.workers[w]? = some .outside := hv
    have hdone : { effect (.uncount w) c with waiting := c.waiting-1 } =
        effect (.testEmpty w) c := by
      simp only [effect, tally, cycling, hw, if_true]
      rfl
    exact .work rfl rfl (Or.inl hv) hdone
  | testEmpty w =>
    simp only [statement] at h
    split at h
    · rename_i hempty
      obtain rfl := Except.ok.inj (Option.some.inj h)
      exact wait_made hv hempty hd hK
    · rename_i t ht
      obtain rfl := Except.ok.inj (Option.some.inj h)
      exact .work rfl rfl ⟨hv,fun hf => Option.some_ne_none t (ht.symm.trans hf)⟩ rfl
  | readFirst w =>
    simp only [statement] at h
    split at h
    · simp at h
    · rename_i t ht
      obtain rfl := Except.ok.inj (Option.some.inj h)
      exact .work rfl rfl ⟨hv.1,ht⟩ rfl
  | moveFirst w t =>
    obtain ⟨hl,rfl⟩ := deref_ok h
    exact .work rfl rfl hv rfl
  | resetTail w t =>
    obtain rfl := Except.ok.inj (Option.some.inj h)
    refine .work rfl rfl hv ?_
    exact congrArg (fun q => { effect (.resetTail w t) c with queue := q }) (popped hv.2)
  | unlockCycle w t =>
    obtain rfl := Except.ok.inj (Option.some.inj h)
    exact take_made hv (hlive t hv.2) hd hK

end Statements

/-- The thread that gets the mutex finds what its section relies on. -/
theorem asks_valid {c : Linked κ} {act : PoolStatements.Action κ} {p : Inside}
    {h : Option Inside} (hg : Careful ⟨c, h⟩ act) (hp : asks c act = some p) :
    Valid p c ∧ c = effect p c := by
  cases act with
  | lockPost n =>
    obtain rfl := Option.some.inj hp
    exact ⟨hg,rfl⟩
  | lockExit =>
    simp only [asks] at hp
    split at hp
    · rename_i n hd
      obtain rfl := Option.some.inj hp
      exact ⟨⟨n,hd⟩,rfl⟩
    · simp at hp
  | lockCycle w =>
    simp only [asks] at hp
    split_ifs at hp with hw
    obtain rfl := Option.some.inj hp
    exact ⟨hw,rfl⟩
  | relock w =>
    simp only [asks] at hp
    split_ifs at hp with hw
    obtain rfl := Option.some.inj hp
    have hidle : tally (.testEmpty w) c.workers c.waiting = c.waiting := by
      simp [tally, cycling, hw]
    refine ⟨Or.inr hw,?_⟩
    unfold effect
    rw [hidle]
    rfl
  | next woken => simp [asks] at hp
  | apart act => simp [asks] at hp

/-- Every step of the pool by statements, as the pool of the sections sees it. -/
theorem step_seen {K : Linked κ → PoolMachine.Action κ → Prop} {s u : PoolStatements.State κ}
    {c : Linked κ} {l : List TaskPtr} {act : PoolStatements.Action κ}
    (hs : Settled (sections κ) s c) (hrep : c.queue.Represents l) (ho : Owned (atList c l))
    (hK : OnPosts K) (hP : ∀ p, s.holder = some p → PostAllowed K p c) (hg : Careful s act)
    (hn : (PoolStatements.machine κ).Next s act u) : SeenBy K c s u := by
  obtain ⟨base,holder⟩ := s
  cases next_stepped hn with
  | @lock act p free asked =>
    obtain ⟨hv,hbase⟩ := asks_valid hg asked
    exact .take free rfl hv hbase
  | @work p woken u held there done =>
    obtain rfl : holder = some p := held
    obtain ⟨hv,rfl⟩ : Valid p c ∧ base = effect p c := hs
    exact statement_seen hv hrep ho there hK (hP p rfl) done
  | @apart act d outside next =>
    have hguard : ∀ c, K c act := by
      intro c
      apply hK
      rintro n woken rfl
      simp [PoolStatements.apart] at outside
    cases holder with
    | none =>
      obtain rfl : base = c := hs
      exact .apart (hguard _) next rfl rfl
    | some p =>
      obtain ⟨hv,rfl⟩ : Valid p c ∧ base = effect p c := hs
      obtain ⟨e,he,hve,hu⟩ := apart_seen hv hrep ho outside next
      exact .apart (hguard _) he rfl ⟨hve,hu⟩

theorem run_owned {threads : ℕ} {maxQueue : ℤ} {bs : List (PoolMachine.Action κ)} {c : Linked κ}
    (hr : (PoolMachine.linked κ).Run (Disciplined linkedQueue)
      (PoolMachine.State.start linkedQueue threads maxQueue) bs c) :
    ∃ l, c.queue.Represents l ∧ Owned (atList c l) := by
  obtain ⟨v,hv,l,hrep,rfl⟩ := run_disciplined hr
  exact ⟨l,hrep,hv.invariant (start_owned threads maxQueue)
    fun _ _ _ h hg hn => step_owned (next_step hn) hg h⟩

/-- However the statements of the threads are interleaved, the pool is in a
state that whole sections lead to, but for what the open section has done. -/
theorem statements_settled {K : Linked κ → PoolMachine.Action κ → Prop}
    {G : PoolStatements.State κ → PoolStatements.Action κ → Prop} {threads : ℕ} {maxQueue : ℤ}
    {as : List (PoolStatements.Action κ)} {s : PoolStatements.State κ} (hK : OnPosts K)
    (hdisc : ∀ c act, K c act → Disciplined linkedQueue c act)
    (hcare : ∀ s act, G s act → Careful s act)
    (hP : ∀ s act p c, G s act → Settled (sections κ) s c → s.holder = some p →
      PostAllowed K p c)
    (hr : (PoolStatements.machine κ).Run G (State.start threads maxQueue) as s) :
    ∃ bs c, (PoolMachine.linked κ).Run K
      (PoolMachine.State.start linkedQueue threads maxQueue) bs c ∧ Settled (sections κ) s c := by
  refine sections_atomic (sections κ) hr rfl fun bs u c a v hs hrun hg hn => ?_
  obtain ⟨l,hrep,ho⟩ := run_owned (hrun.guarded_at fun _ b t _ _ hg => hdisc t b hg)
  exact step_seen hs hrep ho hK (fun p => hP u a p c hg hs) (hcare u a hg) hn

end SharedBike.PoolAtomicity
