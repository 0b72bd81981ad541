import Mathlib.Data.Int.Notation
import Mathlib.Data.List.Basic
import Mathlib.Tactic.Common

/-!
# Footprints

The cells that code touches, as a list of ranges in the order of the accesses.
A range names its buffer and what the cells are used for, and it may start
below the buffer. A comparison of terminated strings touches what it compares
before it can answer.
-/

set_option autoImplicit false

namespace Footprints
variable {β υ : Type*}

structure Access (β υ : Type*) where
  buffer : β
  use : υ
  start : ℤ
  count : ℕ
  deriving DecidableEq, Repr

def Access.Touches (a : Access β υ) (i : ℤ) : Prop := a.start ≤ i ∧ i < a.start+a.count

def Access.Within (a : Access β υ) (n : ℕ) : Prop := ∀ i, a.Touches i → 0 ≤ i ∧ i < n

/-- The accesses that `p` selects touch only the first `n` cells. -/
def Confined (p : Access β υ → Prop) (n : ℕ) (as : List (Access β υ)) : Prop :=
  ∀ a ∈ as, p a → a.Within n

theorem within_iff {b : β} {u : υ} {start : ℤ} {count n : ℕ} :
    (⟨b, u, start, count⟩ : Access β υ).Within n ↔
      count = 0 ∨ (0 ≤ start ∧ start+count ≤ n) := by
  constructor
  · intro h
    by_cases hc : count = 0
    · exact Or.inl hc
    · have hfirst := h start ⟨Int.le_refl _,show start < start+count by omega⟩
      have hlast := h (start+count-1) ⟨show start ≤ _ by omega,show _ < start+count by omega⟩
      exact Or.inr ⟨hfirst.1,by omega⟩
  · rintro (h | h) i ⟨(hs : start ≤ i),(he : i < start+count)⟩ <;> omega

theorem front_within {b : β} {u : υ} {count n : ℕ} :
    (⟨b, u, 0, count⟩ : Access β υ).Within n ↔ count ≤ n := by
  rw [within_iff]
  omega

theorem confined_nil (p : Access β υ → Prop) (n : ℕ) : Confined p n [] := by simp [Confined]

theorem confined_cons {p : Access β υ → Prop} {n : ℕ} {a : Access β υ}
    {as : List (Access β υ)} :
    Confined p n (a::as) ↔ (p a → a.Within n) ∧ Confined p n as := List.forall_mem_cons

theorem confined_append {p : Access β υ → Prop} {n : ℕ} {as bs : List (Access β υ)} :
    Confined p n (as++bs) ↔ Confined p n as ∧ Confined p n bs := List.forall_mem_append

section Strings
variable {α : Type*}

/-- A word without a terminator begins a terminated text if it begins the text. -/
theorem begins_terminated {nul : α} {s u t : List α} (ht : nul ∉ t) :
    t <+: s++nul::u ↔ t <+: s := by
  induction s generalizing t with
  | nil =>
    cases t with
    | nil => simp
    | cons b t =>
      simp only [List.mem_cons, not_or] at ht
      simp [List.cons_prefix_cons, Ne.symm ht.1]
  | cons a s ih =>
    cases t with
    | nil => simp
    | cons b t =>
      simp only [List.mem_cons, not_or] at ht
      rw [List.cons_append, List.cons_prefix_cons, List.cons_prefix_cons, ih ht.2]

variable [DecidableEq α] (nul : α)

/-- How many cells of each string a comparison looks at: it stops behind the
first difference and behind a common terminator. -/
def compared : List α → List α → ℕ
  | a::s, b::t => if a = b ∧ a ≠ nul then compared s t+1 else 1
  | _, _ => 0

variable {nul}

theorem compared_le (s t : List α) : compared nul s t ≤ t.length := by
  induction s generalizing t with
  | nil => simp [compared]
  | cons a s ih =>
    cases t with
    | nil => simp [compared]
    | cons b t =>
      have h := ih t
      simp only [compared, List.length_cons]
      split <;> omega

/-- No comparison looks behind the terminator. -/
theorem compared_terminated (s u t : List α) : compared nul (s++nul::u) t ≤ s.length+1 := by
  induction s generalizing t with
  | nil => cases t <;> simp [compared]
  | cons a s ih =>
    cases t with
    | nil => simp [compared]
    | cons b t =>
      have h := ih t
      simp only [List.cons_append, compared, List.length_cons]
      split <;> omega

/-- The terminator is looked at if the text before it is a proper beginning of
the other string. -/
theorem compared_stops {s u t : List α} (ht : nul ∉ t) :
    compared nul (s++nul::u) t ≤ s.length ↔ (s <+: t → t.length ≤ s.length) := by
  induction s generalizing t with
  | nil => cases t <;> simp [compared]
  | cons a s ih =>
    cases t with
    | nil => simp [compared]
    | cons b t =>
      simp only [List.mem_cons, not_or] at ht
      simp only [List.cons_append, compared, List.length_cons, List.cons_prefix_cons,
        Nat.add_le_add_iff_right]
      by_cases hab : a = b
      · have hn : a ≠ nul := fun h => ht.1 (h.symm.trans hab)
        rw [if_pos ⟨hab,hn⟩, Nat.add_le_add_iff_right, ih ht.2]
        simp [hab]
      · simp [hab]

/-- The first terminator is not behind this one. -/
theorem take_while_terminated (s u : List α) :
    ((s++nul::u).takeWhile (· ≠ nul)).length ≤ s.length := by
  induction s with
  | nil => simp
  | cons a s ih =>
    rw [List.cons_append, List.takeWhile_cons]
    split
    · simpa using ih
    · simp

end Strings
end Footprints
