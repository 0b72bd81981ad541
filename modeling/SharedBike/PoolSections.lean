import SharedBike.PoolAtomicity
import SharedBike.PoolShutdown

/-!
# The pool between any two statements

Whenever the mutex is free, the pool is as whole sections leave it. A thread
that holds the mutex always comes to the end of its section, and in an orderly
run no statement of any thread touches what has been freed.
-/

set_option autoImplicit false

namespace SharedBike.PoolSections
open GuardedRuns TailQueues CriticalSections
open SharedBike.PoolMachine SharedBike.PoolOwnership
open SharedBike.PoolRefinement SharedBike.PoolStatements
open SharedBike.PoolAtomicity
open SharedBike.ThreadPool (defaultThreadsNum defaultQueueNum)

variable {κ : Type}

theorem disciplined_on_posts :
    OnPosts (Disciplined linkedQueue : Linked κ → PoolMachine.Action κ → Prop) := by
  intro c act h
  cases act with
  | post n woken => exact absurd rfl (h n woken)
  | _ => trivial

theorem careful_settled {threads : ℕ} {maxQueue : ℤ} {as : List (PoolStatements.Action κ)}
    {s : PoolStatements.State κ}
    (hr : (PoolStatements.machine κ).Run Careful (State.start threads maxQueue) as s) :
    ∃ bs c, (PoolMachine.linked κ).Run (Disciplined linkedQueue)
      (PoolMachine.State.start linkedQueue threads maxQueue) bs c ∧ Settled (sections κ) s c :=
  statements_settled disciplined_on_posts (fun _ _ h => h) (fun _ _ h => h)
    (fun _ _ _ _ _ _ _ _ _ _ h => h) hr

/-- With the mutex free, the pool is in a state that whole sections lead to. -/
theorem sections_made (threads : ℕ) (maxQueue : ℤ) (as : List (PoolStatements.Action κ))
    (s : PoolStatements.State κ)
    (hr : (PoolStatements.machine κ).Run Careful (State.start threads maxQueue) as s)
    (free : s.holder = none) :
    ∃ bs, (PoolMachine.linked κ).Run (Disciplined linkedQueue)
      (PoolMachine.State.start linkedQueue threads maxQueue) bs s.base := by
  obtain ⟨bs,c,hrun,hs⟩ := careful_settled hr
  have hc : s.base = c := by simpa [Settled, free] using hs
  exact ⟨bs,hc ▸ hrun⟩

theorem careful_other {s : PoolStatements.State κ} {act : PoolStatements.Action κ}
    (h : ∀ n, act ≠ .lockPost n) : Careful s act := by
  cases act with
  | lockPost n => exact absurd rfl (h n)
  | _ => trivial

/-- A worker waits, and a node is allocated while another one is being posted. -/
def postInside : List (PoolStatements.Action Unit) :=
  [.apart (.alloc 0 ()), .lockCycle 0, .next [], .next [], .lockPost 0]++
    [.next [], .next [], .apart (.alloc 1 ()), .next [], .next [0], .next [], .next [], .next []]

theorem post_inside_run : ∃ s t, (PoolStatements.machine Unit).Run Careful
    (State.start defaultThreadsNum defaultQueueNum) postInside s ∧
    (PoolStatements.machine Unit).Next s (.next []) t ∧ s.base.destroyer = .idle ∧
    t.holder = none := by
  refine ⟨_,_,.cons trivial rfl (.cons trivial rfl (.cons trivial rfl (.cons trivial rfl
    (.cons ⟨rfl,?_,by decide⟩ rfl (Machine.run_of_replay (fun a ha t => ?_) rfl))))),rfl,rfl,rfl⟩
  · exact (@reach_iff _ _ _ _ [] rfl).not.mpr (by decide)
  · refine careful_other ?_
    rintro n rfl
    simp at ha

theorem sections_made_post : ∃ as s, (PoolStatements.machine Unit).Run Careful
    (State.start defaultThreadsNum defaultQueueNum) as s ∧
    ∃ bs, (PoolMachine.linked Unit).Run (Disciplined linkedQueue)
      (PoolMachine.State.start linkedQueue defaultThreadsNum defaultQueueNum) bs s.base := by
  obtain ⟨s,t,hs,hn,-,ht⟩ := post_inside_run
  have hrun := hs.snoc (show Careful s (.next []) from trivial) hn
  exact ⟨_,t,hrun,sections_made _ _ _ t hrun ht⟩

/-- The statements up to the unlock, with the unlock. -/
def left : Inside → ℕ
  | .testFull _ => 8
  | .setId _ => 7
  | .clearNext _ => 6
  | .condSignal _ => 5
  | .storeTail _ _ => 4
  | .moveTail _ _ => 3
  | .count _ _ => 2
  | .unlockPost _ _ => 1
  | .uncount _ => 6
  | .testEmpty _ => 5
  | .readFirst _ => 4
  | .moveFirst _ _ => 3
  | .resetTail _ _ => 2
  | .unlockCycle _ _ => 1

theorem left_le (p : Inside) : left p ≤ 8 := by cases p <;> simp [left]

theorem left_pos (p : Inside) : 0 < left p := by cases p <;> simp [left]

section Statements

variable {p : Inside} {c s : Linked κ} {l : List TaskPtr} {who : Caller} {woken : List ℕ}
variable {u : PoolStatements.State κ}

/-- A statement that keeps the mutex has fewer to come, in the same call. -/
theorem statement_onward (h : statement s woken p = some (.ok u)) (q : Inside)
    (hq : u.holder = some q) :
    left q < left p ∧ caller q = caller p ∧ u.base.destroyer = s.destroyer := by
  have hnext : ∀ {v : PoolStatements.State κ} {r : Inside},
      (some (.ok v) : Option (Except Fault _)) = some (.ok u) → v.holder = some r →
      left r < left p → caller r = caller p → v.base.destroyer = s.destroyer →
      left q < left p ∧ caller q = caller p ∧ u.base.destroyer = s.destroyer := by
    intro v r hv hr hl hc hd
    obtain rfl := Except.ok.inj (Option.some.inj hv)
    obtain rfl := Option.some.inj (hr.symm.trans hq)
    exact ⟨hl,hc,hd⟩
  have hlast : ∀ {v : PoolStatements.State κ},
      (some (.ok v) : Option (Except Fault _)) = some (.ok u) → v.holder ≠ none := by
    intro v hv
    obtain rfl := Except.ok.inj (Option.some.inj hv)
    simp [hq]
  cases p with
  | testFull who =>
    simp only [statement] at h
    split at h
    · exact hnext h rfl (by simp [left]) rfl rfl
    · exact hnext h rfl (by simp [left]) rfl rfl
  | setId who =>
    obtain ⟨-,rfl⟩ := deref_ok h
    exact hnext rfl rfl (by simp [left]) rfl rfl
  | clearNext who =>
    obtain ⟨-,rfl⟩ := deref_ok h
    exact hnext rfl rfl (by simp [left]) rfl rfl
  | condSignal who =>
    simp only [statement] at h
    split at h
    · exact hnext h rfl (by simp [left]) rfl rfl
    · simp at h
  | storeTail who wk =>
    simp only [statement] at h
    split at h
    · exact hnext h rfl (by simp [left]) rfl rfl
    · simp at h
  | moveTail who wk => exact hnext h rfl (by simp [left]) rfl rfl
  | count who wk => exact hnext h rfl (by simp [left]) rfl rfl
  | unlockPost who r => exact absurd rfl (hlast h)
  | uncount w => exact hnext h rfl (by simp [left]) rfl rfl
  | testEmpty w =>
    simp only [statement] at h
    split at h
    · exact absurd rfl (hlast h)
    · exact hnext h rfl (by simp [left]) rfl rfl
  | readFirst w =>
    simp only [statement] at h
    split at h
    · simp at h
    · exact hnext h rfl (by simp [left]) rfl rfl
  | moveFirst w t =>
    obtain ⟨-,rfl⟩ := deref_ok h
    exact hnext rfl rfl (by simp [left]) rfl rfl
  | resetTail w t => exact hnext h rfl (by simp [left]) rfl rfl
  | unlockCycle w t => exact absurd rfl (hlast h)

theorem caller_live (ho : Owned (atList c l)) (hp : Posting who c) : c.Live who.task := by
  cases who with
  | poster n => exact hp.1
  | destroyer =>
    obtain ⟨n,hn⟩ := hp
    exact ho.stack_live.mpr ⟨n,Or.inl hn⟩

theorem derefs_live {t : TaskPtr} (h : s.Live t) (u : PoolStatements.State κ) :
    some (derefs s t u) = some (.ok u) := congrArg some (if_pos h)

/-- Whomever the signal wakes, no statement of the section is a fault. -/
theorem statement_sound (hv : Valid p c) (hrep : c.queue.Represents l)
    (ho : Owned (atList c l)) (woken : List ℕ) (f : Fault) :
    statement (effect p c) woken p ≠ some (.error f) := by
  have hcaller : ∀ {who}, Posting who c → (effect p c).Live who.task := fun hp =>
    live_effect.mpr (caller_live ho hp)
  intro h
  cases p with
  | testFull who =>
    simp only [statement] at h
    split at h <;> simp at h
  | setId who =>
    simp only [statement] at h
    rw [derefs_live (hcaller hv.1)] at h
    simp at h
  | clearNext who =>
    simp only [statement] at h
    rw [derefs_live (hcaller hv.1)] at h
    simp at h
  | condSignal who =>
    simp only [statement] at h
    split at h <;> simp at h
  | storeTail who wk =>
    have htail : ∀ p ∈ (effect (.storeTail who wk) c).queue.tail,
        (effect (.storeTail who wk) c).Live p :=
      fun p hp => live_effect.mpr (tail_live hrep ho p hp)
    simp only [statement, if_pos htail] at h
    simp at h
  | readFirst w =>
    obtain ⟨t,ht⟩ := Option.ne_none_iff_exists'.mp hv.2
    simp only [statement, show (effect (.readFirst w) c).queue.first = some t from ht] at h
    simp at h
  | moveFirst w t =>
    have hl : c.Live t := by
      have hf := hv.2
      rw [hrep.first] at hf
      exact ho.live t (mem_owned.mpr (Or.inl (List.mem_of_mem_head? hf)))
    simp only [statement] at h
    rw [derefs_live (live_effect.mpr hl)] at h
    simp at h
  | testEmpty w =>
    simp only [statement] at h
    split at h <;> simp at h
  | _ => simp [statement] at h

/-- Only the signal needs a choice: it has to wake somebody who waits. -/
theorem statement_enabled (s : Linked κ) (p : Inside) :
    statement s (List.range s.workers.length) p ≠ none := by
  cases p with
  | condSignal who => exact (if_pos (signals_all _)).trans_ne (by simp)
  | testFull who => simp only [statement]; split <;> simp
  | storeTail who wk => simp only [statement]; split <;> simp
  | testEmpty w => simp only [statement]; split <;> simp
  | readFirst w => simp only [statement]; split <;> simp
  | _ => simp [statement]

theorem statement_possible (hv : Valid p c) (hrep : c.queue.Represents l)
    (ho : Owned (atList c l)) : ∃ woken u, statement (effect p c) woken p = some (.ok u) := by
  obtain ⟨r,hr⟩ := Option.ne_none_iff_exists'.mp (statement_enabled (effect p c) p)
  cases r with
  | error f => exact absurd hr (statement_sound hv hrep ho _ f)
  | ok u => exact ⟨_,u,hr⟩

end Statements

section Release

variable {threads : ℕ} {maxQueue : ℤ} {as : List (PoolStatements.Action κ)}
variable {s u : PoolStatements.State κ} {act : PoolStatements.Action κ}

/-- The holder alone comes to the end of its section, by induction on what is left of it. -/
theorem section_ends (n : ℕ)
    (hr : (PoolStatements.machine κ).Run Careful (State.start threads maxQueue) as s)
    (hd : s.base.destroyer ≠ .done) (hn : ∀ p, s.holder = some p → left p ≤ n) :
    ∃ bs t, (PoolStatements.machine κ).Run Careful s bs t ∧ t.holder = none ∧ bs.length ≤ n ∧
      ∀ b ∈ bs, ∃ woken, b = .next woken := by
  induction n generalizing as s with
  | zero =>
    refine ⟨[],s,.nil,Option.eq_none_iff_forall_ne_some.mpr fun p hp => ?_,le_rfl,by simp⟩
    exact absurd (hn p hp) (left_pos p).not_ge
  | succ n ih =>
    cases hs : s.holder with
    | none => exact ⟨[],s,.nil,hs,Nat.zero_le _,by simp⟩
    | some p =>
      obtain ⟨bs,c,hrun,hsettled⟩ := careful_settled hr
      obtain ⟨l,hrep,ho⟩ := run_owned hrun
      obtain ⟨hv,hbase⟩ : Valid p c ∧ s.base = effect p c := by
        simpa [Settled, hs, sections] using hsettled
      obtain ⟨woken,u,hu⟩ := statement_possible hv hrep ho
      have hg : Careful s (.next woken) := trivial
      rw [← hbase] at hu
      have hnext : (PoolStatements.machine κ).Next s (.next woken) u := by
        show s.next woken = _
        simp only [State.next, hs, if_neg hd, hu]
      cases hh : u.holder with
      | none => exact ⟨_,u,.single hg hnext,hh,by simp,by simp⟩
      | some q =>
        obtain ⟨hlt,-,hdu⟩ := statement_onward hu q hh
        have hleft : ∀ r, u.holder = some r → left r ≤ n := by
          intro r hrq
          obtain rfl := Option.some.inj (hh.symm.trans hrq)
          exact Nat.le_of_lt_succ (hlt.trans_le (hn p hs))
        obtain ⟨cs,t,hcs,ht,hlen,hall⟩ := ih (hr.snoc hg hnext) (hdu ▸ hd) hleft
        exact ⟨_,t,.cons hg hnext hcs,ht,Nat.succ_le_succ hlen,by simpa using hall⟩

def takesMutex : PoolStatements.Action κ → Bool
  | .lockPost _ => true
  | .lockExit => true
  | .lockCycle _ => true
  | .relock _ => true
  | _ => false

def isStatement : PoolStatements.Action κ → Bool
  | .next _ => true
  | _ => false

def ahead (s : PoolStatements.State κ) : ℕ := (s.holder.map left).getD 0

theorem step_ahead (hn : (PoolStatements.machine κ).Next s act u) :
    (isStatement act).toNat+ahead u ≤ 8*(takesMutex act).toNat+ahead s := by
  cases next_stepped hn with
  | @lock act p free asked =>
    have htakes : takesMutex act = true := by
      cases act <;> first | rfl | simp [asks] at asked
    have hstatement : isStatement act = false := by
      cases act <;> first | rfl | simp [asks] at asked
    have hle := left_le p
    simp only [htakes, hstatement, ahead, Option.map_some, Option.getD_some, Bool.toNat_true,
      Bool.toNat_false]
    omega
  | @work p woken u held there done =>
    have hpos := left_pos p
    have hlt : ahead u < left p := by
      unfold ahead
      cases hh : u.holder with
      | none => exact hpos
      | some q => exact (statement_onward done q hh).1
    simp only [isStatement, takesMutex, ahead, held, Option.map_some, Option.getD_some] at hlt ⊢
    simp only [Bool.toNat_true, Bool.toNat_false]
    omega
  | apart outside next => simp [isStatement, takesMutex, ahead]

end Release

/-- Each section has at most eight statements, and its thread comes to its end
whatever the others have done before. -/
theorem mutex_released (threads : ℕ) (maxQueue : ℤ) (as : List (PoolStatements.Action κ))
    (s : PoolStatements.State κ)
    (hr : (PoolStatements.machine κ).Run Careful (State.start threads maxQueue) as s) :
    as.countP isStatement ≤ 8*as.countP takesMutex ∧ (s.base.destroyer ≠ .done →
      ∃ bs t, (PoolStatements.machine κ).Run Careful s bs t ∧ t.holder = none ∧ bs.length ≤ 8 ∧
        ∀ b ∈ bs, ∃ woken, b = .next woken) := by
  constructor
  · have h := hr.traced (I := fun as t => as.countP isStatement+ahead t ≤ 8*as.countP takesMutex)
      (Nat.zero_le _) fun as t a u h _ hn => by
        have hstep := step_ahead hn
        have hone : ∀ f : PoolStatements.Action κ → Bool, [a].countP f = (f a).toNat := by
          intro f
          cases hf : f a <;> simp [hf]
        rw [List.countP_append, List.countP_append, hone, hone]
        omega
    omega
  · exact fun hd => section_ends 8 hr hd fun p _ => left_le p

theorem mutex_released_post : ∃ s, (PoolStatements.machine Unit).Run Careful
    (State.start defaultThreadsNum defaultQueueNum) postInside s ∧
    ∃ bs t, (PoolStatements.machine Unit).Run Careful s bs t ∧ t.holder = none ∧
      bs.length ≤ 8 ∧ ∀ b ∈ bs, ∃ woken, b = .next woken := by
  obtain ⟨s,-,hs,-,hd,-⟩ := post_inside_run
  exact ⟨s,hs,(mutex_released _ _ _ s hs).2 (by simp [hd])⟩

end SharedBike.PoolSections
