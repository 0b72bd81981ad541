import Mathlib.Data.List.Nodup
import Mathlib.Data.List.Induction
import Mathlib.Logic.Function.Basic
import Mathlib.Tactic.Common

/-!
# Ordered sets and the calls that made them

A list without repetitions is a set with the order in which its elements came
in. A family of such sets, one for each key, is made from nothing by calls that
add an element at the end or remove one. What is in a set, and in which order,
can be read off the calls.
-/

set_option autoImplicit false

namespace OrderedSets
variable {κ α : Type*} [DecidableEq κ] [DecidableEq α]

inductive Call (κ α : Type*) where
  | add (k : κ) (a : α)
  | remove (k : κ) (a : α)
  deriving DecidableEq, Repr

def Call.key : Call κ α → κ
  | .add k _ => k
  | .remove k _ => k

def Call.element : Call κ α → α
  | .add _ a => a
  | .remove _ a => a

def add (l : List α) (a : α) : List α := if a ∈ l then l else l++[a]

def apply (f : κ → List α) : Call κ α → κ → List α
  | .add k a => Function.update f k (add (f k) a)
  | .remove k a => Function.update f k ((f k).erase a)

/-- The sets after the calls, all empty at first. -/
def run (cs : List (Call κ α)) : κ → List α := cs.foldl apply fun _ => []

def Names (k : κ) (a : α) (c : Call κ α) : Prop := c.key = k ∧ c.element = a

instance (k : κ) (a : α) : DecidablePred (Names k a) :=
  fun _ => inferInstanceAs (Decidable (_ ∧ _))

/-- The last call that names the element under the key adds it. -/
def Present (cs : List (Call κ α)) (k : κ) (a : α) : Prop :=
  (cs.filter (Names k a)).getLast? = some (.add k a)

instance (cs : List (Call κ α)) (k : κ) (a : α) : Decidable (Present cs k a) :=
  inferInstanceAs (Decidable (_ = _))

/-- The element came in with call `i` and has not left since. -/
structure MadeAt (cs : List (Call κ α)) (k : κ) (a : α) (i : ℕ) : Prop where
  call : cs[i]? = some (.add k a)
  fresh : ¬ Present (cs.take i) k a
  kept : ∀ j, i < j → cs[j]? ≠ some (.remove k a)

section Calls
variable {cs : List (Call κ α)} {c : Call κ α} {k : κ} {a b : α} {i : ℕ}

theorem present_other (h : ¬ Names k a c) : Present (cs++[c]) k a ↔ Present cs k a := by
  rw [Present, Present, List.filter_append, List.filter_singleton]
  simp [h]

theorem present_named (h : Names k a c) : Present (cs++[c]) k a ↔ c = .add k a := by
  rw [Present, List.filter_append, List.filter_singleton]
  simp [h]

theorem MadeAt.lt (h : MadeAt cs k a i) : i < cs.length := by
  obtain ⟨hi,-⟩ := List.getElem?_eq_some_iff.mp h.call
  exact hi

theorem MadeAt.snoc (h : MadeAt cs k a i) (hc : c ≠ .remove k a) : MadeAt (cs++[c]) k a i := by
  have hi := h.lt
  refine ⟨?_,?_,fun j hj hcall => ?_⟩
  · rw [List.getElem?_append_left hi]
    exact h.call
  · rw [List.take_append_of_le_length (Nat.le_of_lt hi)]
    exact h.fresh
  · by_cases hl : j < cs.length
    · rw [List.getElem?_append_left hl] at hcall
      exact h.kept j hj hcall
    · rw [List.getElem?_append_right (Nat.not_lt.mp hl)] at hcall
      have hmem := List.mem_of_getElem? hcall
      exact hc (List.mem_singleton.mp hmem).symm

/-- From the call that made it present on, the element is present. -/
theorem MadeAt.present (h : MadeAt cs k a i) {n : ℕ} (hn : i < n) (hl : n ≤ cs.length) :
    Present (cs.take n) k a := by
  induction n with
  | zero => omega
  | succ n ih =>
    have hget : cs[n]? = some cs[n] := List.getElem?_eq_getElem (by omega)
    rw [List.take_succ_eq_append_getElem (by omega)]
    rcases Nat.lt_succ_iff_lt_or_eq.mp hn with hin | rfl
    · by_cases hname : Names k a cs[n]
      · rw [present_named hname]
        obtain ⟨hk,ha⟩ := hname
        have hkept := h.kept n hin
        rw [hget] at hkept
        cases hc : cs[n] with
        | add k' a' =>
          rw [hc] at hk ha
          rw [← hk, ← ha]
          rfl
        | remove k' a' =>
          rw [hc] at hk ha hkept
          exact absurd (by rw [← hk, ← ha]; rfl) hkept
      · rw [present_other hname]
        exact ih hin (by omega)
    · have hcall := Option.some.inj (hget.symm.trans h.call)
      rw [hcall]
      exact (present_named ⟨rfl,rfl⟩).mpr rfl

/-- An element was made present by one call only. -/
theorem MadeAt.unique {j : ℕ} (hi : MadeAt cs k a i) (hj : MadeAt cs k a j) : i = j := by
  rcases Nat.lt_trichotomy i j with hlt | rfl | hlt
  · exact absurd (hi.present hlt (Nat.le_of_lt hj.lt)) hj.fresh
  · rfl
  · exact absurd (hj.present hlt (Nat.le_of_lt hi.lt)) hi.fresh

end Calls

end OrderedSets
