import Mathlib.Logic.Function.Basic
import Mathlib.Data.List.Induction
import Mathlib.Data.List.Nodup

/-!
# Linked queues with a tail address

A queue of nodes, each with one link. The head field points at the first
node; the tail keeps the address of the field that the next push writes: the
link of the last node, or the head field itself while the queue is empty.
-/

set_option autoImplicit false

namespace TailQueues

inductive Slot (P : Type*) where
  | head
  | next (p : P)
  deriving DecidableEq, Repr

structure TailQueue (P : Type*) where
  next : P → Option P
  first : Option P
  last : Slot P

variable {P : Type*} {next : P → Option P} {a x : Option P} {p r : P} {l : List P}

/-- The list of nodes met from a pointer on, up to the null link. -/
def Chain (next : P → Option P) : Option P → List P → Prop
  | a, [] => a = none
  | a, p::l => a = some p ∧ Chain next (next p) l

inductive Reach (next : P → Option P) : Option P → P → Prop
  | here (p : P) : Reach next (some p) p
  | step {p r : P} (rest : Reach next (next p) r) : Reach next (some p) r

def lastSlot (l : List P) : Slot P :=
  match l.getLast? with
  | none => .head
  | some p => .next p

@[simp] theorem last_slot_snoc (l : List P) (p : P) : lastSlot (l++[p]) = .next p := by
  simp [lastSlot]

theorem reach_iff (h : Chain next a l) : Reach next a p ↔ p ∈ l := by
  induction l generalizing a with
  | nil =>
    obtain rfl := h
    constructor
    · intro hr
      cases hr
    · intro hm
      simp at hm
  | cons q l ih =>
    obtain ⟨rfl,h⟩ := h
    rw [List.mem_cons]
    constructor
    · intro hr
      cases hr with
      | here => exact Or.inl rfl
      | step rest => exact Or.inr ((ih h).mp rest)
    · intro hm
      rcases hm with rfl | hm
      · exact .here p
      · exact .step ((ih h).mpr hm)

/-- A pointer starts at most one chain. -/
theorem chain_unique {m : List P} (h : Chain next a l) (h' : Chain next a m) : l = m := by
  induction l generalizing a m with
  | nil =>
    obtain rfl := h
    cases m with
    | nil => rfl
    | cons p m => simp [Chain] at h'
  | cons p l ih =>
    obtain ⟨rfl,h⟩ := h
    cases m with
    | nil => simp [Chain] at h'
    | cons r m =>
      obtain ⟨hr,h'⟩ := h'
      obtain rfl := Option.some.inj hr
      rw [ih h h']

namespace TailQueue

variable {q : TailQueue P}

def empty : TailQueue P := ⟨fun _ => none, none, .head⟩

def Linked (q : TailQueue P) (p : P) : Prop := Reach q.next q.first p

/-- The node whose link the next push writes, if it is not the head field. -/
def tail (q : TailQueue P) : Option P :=
  match q.last with
  | .head => none
  | .next p => some p

def pop (q : TailQueue P) : TailQueue P :=
  match q.first with
  | none => q
  | some p => match q.next p with
    | none => { q with first := none, last := .head }
    | some r => { q with first := some r }

/-- The queue holds exactly the nodes of a list, in that order. -/
structure Represents (q : TailQueue P) (l : List P) : Prop where
  chain : Chain q.next q.first l
  last : q.last = lastSlot l
  nodup : l.Nodup

theorem represents_empty : Represents (empty : TailQueue P) [] := ⟨rfl,rfl,List.nodup_nil⟩

theorem Represents.linked (h : q.Represents l) : q.Linked p ↔ p ∈ l := reach_iff h.chain

theorem Represents.first (h : q.Represents l) : q.first = l.head? := by
  cases l with
  | nil => exact h.chain
  | cons p l => exact h.chain.1

theorem Represents.tail (h : q.Represents l) : q.tail = l.getLast? := by
  unfold TailQueue.tail
  rw [h.last, lastSlot]
  cases l.getLast? <;> rfl

theorem represents_pop (h : q.Represents (p::l)) : q.pop.Represents l := by
  obtain ⟨hf,hc⟩ := h.chain
  obtain ⟨-,hn⟩ := List.nodup_cons.mp h.nodup
  cases l with
  | nil =>
    have hp : q.pop = { q with first := none, last := .head } := by
      rw [pop, hf]
      simp only [show q.next p = none from hc]
    rw [hp]
    exact ⟨rfl,rfl,hn⟩
  | cons r l =>
    have hp : q.pop = { q with first := some r } := by
      rw [pop, hf]
      simp only [hc.1]
    rw [hp]
    refine ⟨⟨rfl,hc.2⟩,?_,hn⟩
    rw [show ({ q with first := some r } : TailQueue P).last = q.last from rfl, h.last]
    simp [lastSlot]

variable [DecidableEq P]

def clear (q : TailQueue P) (p : P) : TailQueue P :=
  { q with next := Function.update q.next p none }

def store (q : TailQueue P) : Slot P → Option P → TailQueue P
  | .head, x => { q with first := x }
  | .next p, x => { q with next := Function.update q.next p x }

/-- The node's link is cleared, the field at the tail address is pointed at the
node, and the tail address becomes that of the node's link. -/
def push (q : TailQueue P) (p : P) : TailQueue P :=
  { (q.clear p).store q.last (some p) with last := .next p }

/-- A link outside the chain is not read by it. -/
theorem chain_update (hp : p ∉ l) (h : Chain next a l) :
    Chain (Function.update next p x) a l := by
  induction l generalizing a with
  | nil => exact h
  | cons q l ih =>
    obtain ⟨hq,hl⟩ := not_or.mp (fun hor => hp (List.mem_cons.mpr hor))
    refine ⟨h.1,?_⟩
    rw [Function.update_of_ne (Ne.symm hq)]
    exact ih hl h.2

theorem chain_extend (h : Chain next a (l++[r])) (hr : r ∉ l) (hp : p ∉ l++[r]) :
    Chain (Function.update (Function.update next p none) r (some p)) a (l++[r]++[p]) := by
  induction l generalizing a with
  | nil =>
    have hpr : p ≠ r := by simpa using hp
    refine ⟨h.1,?_,?_⟩
    · rw [Function.update_self]
    · rw [Function.update_of_ne hpr, Function.update_self]
      rfl
  | cons q l ih =>
    simp only [List.cons_append, List.mem_cons, not_or] at hr hp
    refine ⟨h.1,?_⟩
    rw [Function.update_of_ne (Ne.symm hr.1), Function.update_of_ne (Ne.symm hp.1)]
    exact ih h.2 hr.2 hp.2

theorem represents_clear (h : q.Represents l) (hp : p ∉ l) : (q.clear p).Represents l :=
  ⟨chain_update hp h.chain,h.last,h.nodup⟩

/-- The two shapes of the tail address are the two cases of the push. -/
theorem represents_push (h : q.Represents l) (hp : p ∉ l) : (q.push p).Represents (l++[p]) := by
  have hn : (l++[p]).Nodup := by
    rw [← List.concat_eq_append]
    exact List.Nodup.concat hp h.nodup
  refine ⟨?_,(last_slot_snoc l p).symm,hn⟩
  induction l using List.reverseRecOn with
  | nil =>
    have hq : q.last = .head := h.last
    rw [push, hq]
    exact ⟨rfl,Function.update_self _ _ _⟩
  | append_singleton l r =>
    have hq : q.last = .next r := h.last.trans (last_slot_snoc l r)
    rw [push, hq]
    apply chain_extend h.chain
    · intro hr
      exact (List.nodup_append.mp h.nodup).2.2 r hr r (by simp) rfl
    · exact hp

end TailQueue
end TailQueues
