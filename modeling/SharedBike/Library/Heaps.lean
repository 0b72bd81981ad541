import Mathlib.Logic.Function.Basic

/-!
# Heaps of optional cells

A heap says for each address what lives there, if anything. An update of one
address leaves every other address as it was.
-/

set_option autoImplicit false

namespace Heaps

variable {α β : Type*} [DecidableEq α] {heap : α → Option β} {a b : α} {x : Option β} {y z : β}

theorem update_cases (h : Function.update heap a x b = some y) :
    (b = a ∧ x = some y) ∨ (b ≠ a ∧ heap b = some y) := by
  by_cases hb : b = a
  · subst hb
    rw [Function.update_self] at h
    exact Or.inl ⟨rfl,h⟩
  · rw [Function.update_of_ne hb] at h
    exact Or.inr ⟨hb,h⟩

theorem of_erase (h : Function.update heap a none b = some y) : heap b = some y := by
  rcases update_cases h with ⟨-,hx⟩ | ⟨-,hx⟩
  · simp at hx
  · exact hx

theorem forall_set {P : β → Prop} (h : ∀ b y, heap b = some y → P y) (hz : P z) :
    ∀ b y, Function.update heap a (some z) b = some y → P y := by
  intro b y hy
  rcases update_cases hy with ⟨-,hx⟩ | ⟨-,hx⟩
  · obtain rfl := Option.some.inj hx
    exact hz
  · exact h b y hx

theorem forall_erase {P : β → Prop} (h : ∀ b y, heap b = some y → P y) (a : α) :
    ∀ b y, Function.update heap a none b = some y → P y :=
  fun b y hy => h b y (of_erase hy)

end Heaps
