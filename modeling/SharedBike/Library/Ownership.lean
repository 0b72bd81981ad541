import Mathlib.Logic.Function.Basic
import Mathlib.Data.List.Basic

/-!
# Cells that are owned by objects

Objects refer to cells of another store. Ownership is exact if every cell has
one owner and every reference leads to a cell: then nothing leaks, and an
object that gives its cells back gives nothing back twice.
-/

set_option autoImplicit false

namespace Ownership

variable {α β R C : Type*} {refs : R → List β} {objects : α → Option R}
variable {cells cells' : β → Option C} {a b : α} {r s : R} {x : β}

structure Exact (refs : R → List β) (objects : α → Option R) (cells : β → Option C) : Prop where
  live : ∀ a r x, objects a = some r → x ∈ refs r → (cells x).isSome
  owned : ∀ x, (cells x).isSome → ∃ a r, objects a = some r ∧ x ∈ refs r
  apart : ∀ a b r s x, objects a = some r → objects b = some s → x ∈ refs r → x ∈ refs s → a = b

/-- The references of an object that may be missing. -/
def refsOf (refs : R → List β) (o : Option R) : List β := (o.map refs).getD []

theorem mem_refs_of {o : Option R} : x ∈ refsOf refs o ↔ ∃ r, o = some r ∧ x ∈ refs r := by
  cases o <;> simp [refsOf]

theorem exact_empty : Exact refs (fun _ : α => none) (fun _ : β => (none : Option C)) where
  live a r x h _ := by simp at h
  owned x h := by simp at h
  apart a b r s x h _ _ _ := by simp at h

/-- One object is replaced, made or ended: its new references were its own or
free, its dropped ones are freed, and all other cells are as they were. -/
structure Replaces (refs : R → List β) (cells cells' : β → Option C) (o o' : Option R) : Prop where
  fresh : ∀ x ∈ refsOf refs o', x ∉ refsOf refs o → cells x = none
  made : ∀ x ∈ refsOf refs o', (cells' x).isSome
  freed : ∀ x ∈ refsOf refs o, x ∉ refsOf refs o' → cells' x = none
  others : ∀ x, x ∉ refsOf refs o → x ∉ refsOf refs o' → cells' x = cells x

/-- What another object owns is neither freed nor made. -/
theorem Exact.elsewhere (h : Exact refs objects cells) {o' : Option R}
    (hr : Replaces refs cells cells' (objects a) o') (hb : objects b = some s) (hne : b ≠ a)
    (hx : x ∈ refs s) : x ∉ refsOf refs (objects a) ∧ x ∉ refsOf refs o' := by
  have hold : x ∉ refsOf refs (objects a) := by
    intro hm
    obtain ⟨r,ha,hm⟩ := mem_refs_of.mp hm
    exact hne (h.apart b a s r x hb ha hx hm)
  refine ⟨hold,fun hm => ?_⟩
  have hlive := h.live b s x hb hx
  simp [hr.fresh x hm hold] at hlive

theorem Exact.frame (h : Exact refs objects cells) {o' : Option R}
    (hr : Replaces refs cells cells' (objects a) o') (hb : objects b = some s) (hne : b ≠ a)
    (hx : x ∈ refs s) : cells' x = cells x := by
  obtain ⟨h1,h2⟩ := h.elsewhere hr hb hne hx
  exact hr.others x h1 h2

theorem Exact.replace [DecidableEq α] (h : Exact refs objects cells) {o' : Option R}
    (hr : Replaces refs cells cells' (objects a) o') :
    Exact refs (Function.update objects a o') cells' := by
  have hget : ∀ b s, Function.update objects a o' b = some s →
      (b = a ∧ o' = some s) ∨ (b ≠ a ∧ objects b = some s) := by
    intro b s hb
    by_cases hba : b = a
    · subst hba
      exact Or.inl ⟨rfl,by simpa using hb⟩
    · exact Or.inr ⟨hba,by simpa [Function.update_of_ne hba] using hb⟩
  constructor
  · intro b s x hb hx
    rcases hget b s hb with ⟨rfl,ho⟩ | ⟨hne,hb⟩
    · exact hr.made x (mem_refs_of.mpr ⟨s,ho,hx⟩)
    · rw [h.frame hr hb hne hx]
      exact h.live b s x hb hx
  · intro x hx
    by_cases hnew : x ∈ refsOf refs o'
    · obtain ⟨s,hs,hm⟩ := mem_refs_of.mp hnew
      exact ⟨a,s,by simp [hs],hm⟩
    · by_cases hold : x ∈ refsOf refs (objects a)
      · simp [hr.freed x hold hnew] at hx
      · rw [hr.others x hold hnew] at hx
        obtain ⟨b,s,hb,hm⟩ := h.owned x hx
        have hne : b ≠ a := by
          rintro rfl
          exact hold (mem_refs_of.mpr ⟨s,hb,hm⟩)
        exact ⟨b,s,by simp [Function.update_of_ne hne, hb],hm⟩
  · intro b c s t x hb hc hx hx'
    rcases hget b s hb with ⟨hba,hs⟩ | ⟨hne,hs⟩ <;> rcases hget c t hc with ⟨hca,ht⟩ | ⟨hne',ht⟩
    · exact hba.trans hca.symm
    · exact absurd (mem_refs_of.mpr ⟨s,hs,hx⟩) (h.elsewhere hr ht hne' hx').2
    · exact absurd (mem_refs_of.mpr ⟨t,ht,hx'⟩) (h.elsewhere hr hs hne hx).2
    · exact h.apart b c s t x hs ht hx hx'

section Changes

theorem replaces_kept (hrefs : refs s = refs r) (made : ∀ x ∈ refs r, (cells' x).isSome)
    (others : ∀ x, x ∉ refs r → cells' x = cells x) :
    Replaces refs cells cells' (some r) (some s) := by
  have hsame : refsOf refs (some s) = refsOf refs (some r) := hrefs
  refine ⟨fun x hx hn => absurd (hsame ▸ hx) hn,fun x hx => made x ?_,
    fun x hx hn => absurd (hsame ▸ hx) hn,fun x hx _ => others x hx⟩
  rwa [hsame] at hx

/-- One more cell for an object. -/
theorem replaces_made [DecidableEq β] {c : C} (hrefs : ∀ y, y ∈ refs s ↔ y = x ∨ y ∈ refs r)
    (hfree : cells x = none) (live : ∀ y ∈ refs r, (cells y).isSome) :
    Replaces refs cells (Function.update cells x (some c)) (some r) (some s) where
  fresh y hy hn := by
    rcases (hrefs y).mp hy with rfl | hy
    · exact hfree
    · exact absurd hy hn
  made y hy := by
    by_cases hyx : y = x
    · simp [hyx]
    · rw [Function.update_of_ne hyx]
      exact live y (((hrefs y).mp hy).resolve_left hyx)
  freed y hy hn := absurd ((hrefs y).mpr (Or.inr hy)) hn
  others y _ hn := by
    have hyx : y ≠ x := fun h => hn ((hrefs y).mpr (Or.inl h))
    exact Function.update_of_ne hyx _ _

/-- The object gives up some of its cells, and they are freed. -/
theorem replaces_freed (hsub : ∀ y ∈ refsOf refs (some r), y ∈ refsOf refs (some s) →
      cells' y = cells y) (hrefs : ∀ y ∈ refs s, y ∈ refs r)
    (live : ∀ y ∈ refs r, (cells y).isSome) (freed : ∀ y ∈ refs r, y ∉ refs s → cells' y = none)
    (others : ∀ y, y ∉ refs r → cells' y = cells y) :
    Replaces refs cells cells' (some r) (some s) where
  fresh y hy hn := absurd (hrefs y hy) hn
  made y hy := by
    rw [hsub y (hrefs y hy) hy]
    exact live y (hrefs y hy)
  freed := freed
  others y hy _ := others y hy

/-- A new object with one new cell. -/
theorem replaces_first [DecidableEq β] {c : C} (hrefs : refs s = [x]) (hfree : cells x = none) :
    Replaces refs cells (Function.update cells x (some c)) none (some s) := by
  have hmem : ∀ y, y ∈ refsOf refs (some s) ↔ y = x := by simp [refsOf, hrefs]
  constructor
  · intro y hy _
    rw [(hmem y).mp hy]
    exact hfree
  · intro y hy
    simp [(hmem y).mp hy]
  · intro y hy
    simp [refsOf] at hy
  · intro y _ hn
    exact Function.update_of_ne (fun h => hn ((hmem y).mpr h)) _ _

theorem replaces_new (hrefs : refs s = []) : Replaces refs cells cells none (some s) := by
  constructor <;> intro y <;> simp [refsOf, hrefs]

theorem replaces_last (freed : ∀ y ∈ refs r, cells' y = none)
    (others : ∀ y, y ∉ refs r → cells' y = cells y) :
    Replaces refs cells cells' (some r) none where
  fresh y hy := by simp [refsOf] at hy
  made y hy := by simp [refsOf] at hy
  freed y hy _ := freed y hy
  others y hy _ := others y hy

end Changes
end Ownership
