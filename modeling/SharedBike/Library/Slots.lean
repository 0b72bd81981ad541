import Mathlib.Algebra.BigOperators.Group.List.Basic
import Mathlib.Algebra.Order.Group.Multiset
import Mathlib.Data.List.Forall2

/-!
# Totals over the slots of a list

Each slot of a list contributes to a commutative total, such as the multiset
of the items it holds. Overwriting one slot exchanges one contribution.
-/

set_option autoImplicit false

namespace Slots

variable {α M : Type*} [AddCommMonoid M]

def total (f : α → M) (l : List α) : M := (l.map f).sum

@[simp] theorem total_cons (f : α → M) (a : α) (l : List α) :
    total f (a::l) = f a+total f l := by
  simp [total]

/-- The total splits at any slot, and only that part changes when the slot does. -/
theorem total_split (f : α → M) {l : List α} {i : ℕ} {a : α} (h : l[i]? = some a) :
    ∃ rest, total f l = rest+f a ∧ ∀ b, total f (l.set i b) = rest+f b := by
  induction l generalizing i with
  | nil => simp at h
  | cons x l ih =>
    cases i with
    | zero =>
      simp only [List.getElem?_cons_zero, Option.some.injEq] at h
      subst h
      exact ⟨total f l,by simp [add_comm],fun b => by simp [add_comm]⟩
    | succ i =>
      simp only [List.getElem?_cons_succ] at h
      obtain ⟨rest,h1,h2⟩ := ih h
      exact ⟨f x+rest,by simp [h1, add_assoc],fun b => by simp [h2, add_assoc]⟩

/-- Two different slots both contribute to the total. -/
theorem total_two (f : α → M) {l : List α} {i j : ℕ} {a b : α} (hij : i ≠ j)
    (ha : l[i]? = some a) (hb : l[j]? = some b) : ∃ rest, total f l = rest+f a+f b := by
  induction l generalizing i j with
  | nil => simp at ha
  | cons x l ih =>
    cases i with
    | zero =>
      cases j with
      | zero => exact absurd rfl hij
      | succ j =>
        simp only [List.getElem?_cons_zero, Option.some.injEq] at ha
        obtain ⟨rest,h,-⟩ := total_split f (show l[j]? = some b by simpa using hb)
        exact ⟨rest,by rw [total_cons, ha, h, ← add_assoc, add_comm (f a) rest]⟩
    | succ i =>
      cases j with
      | zero =>
        simp only [List.getElem?_cons_zero, Option.some.injEq] at hb
        obtain ⟨rest,h,-⟩ := total_split f (show l[i]? = some a by simpa using ha)
        exact ⟨rest,by rw [total_cons, hb, h, add_comm]⟩
      | succ j =>
        obtain ⟨rest,h⟩ := ih (fun h => hij (congrArg Nat.succ h)) (by simpa using ha)
          (by simpa using hb)
        exact ⟨f x+rest,by rw [total_cons, h, ← add_assoc, ← add_assoc]⟩

theorem total_replicate (f : α → M) (a : α) (h : f a = 0) (n : ℕ) :
    total f (List.replicate n a) = 0 := by
  induction n with
  | zero => rfl
  | succ n ih => rw [List.replicate_succ, total_cons, ih, h, add_zero]

theorem countP_eq_total (p : α → Bool) (l : List α) :
    l.countP p = total (fun a => (p a).toNat) l := by
  induction l with
  | nil => rfl
  | cons a l ih =>
    rw [List.countP_cons, total_cons, ih, add_comm]
    cases p a <;> rfl

/-- The number of slots with a property, with one slot singled out. -/
theorem countP_split (p : α → Bool) {l : List α} {i : ℕ} {a : α} (h : l[i]? = some a) :
    ∃ rest, l.countP p = rest+(p a).toNat ∧ ∀ b, (l.set i b).countP p = rest+(p b).toNat := by
  obtain ⟨rest,h1,h2⟩ := total_split (fun a => (p a).toNat) h
  exact ⟨rest,(countP_eq_total p l).trans h1,fun b => (countP_eq_total p _).trans (h2 b)⟩

/-- The items of a bag with one more have distinct keys. -/
theorem nodup_map_snoc {β γ : Type*} {f : β → γ} {s : Multiset β} {t : β} :
    ((s+{t}).map f).Nodup ↔ (s.map f).Nodup ∧ ∀ u ∈ s, f u ≠ f t := by
  rw [Multiset.map_add, Multiset.map_singleton, add_comm, Multiset.singleton_add,
    Multiset.nodup_cons, Multiset.mem_map]
  exact ⟨fun h => ⟨h.2,fun u hu hx => h.1 ⟨u,hu,hx⟩⟩,
    fun h => ⟨fun ⟨u,hu,hx⟩ => h.2 u hu hx,h.1⟩⟩

section Places

variable {β : Type*} {R S : α → β → Prop} {l : List α} {l' : List β}

/-- Lists that correspond place by place. -/
theorem forall₂_iff_places : List.Forall₂ R l l' ↔
    l.length = l'.length ∧ ∀ (i : ℕ) a b, l[i]? = some a → l'[i]? = some b → R a b := by
  constructor
  · intro h
    refine ⟨h.length_eq,fun i a b ha hb => ?_⟩
    obtain ⟨hi,rfl⟩ := List.getElem?_eq_some_iff.mp ha
    obtain ⟨hi',rfl⟩ := List.getElem?_eq_some_iff.mp hb
    exact h.get hi hi'
  · rintro ⟨hlen,h⟩
    refine List.forall₂_iff_get.mpr ⟨hlen,fun i hi hi' => ?_⟩
    exact h i _ _ (List.getElem?_eq_getElem hi) (List.getElem?_eq_getElem hi')

theorem place_right (h : List.Forall₂ R l l') {i : ℕ} {a : α} (ha : l[i]? = some a) :
    ∃ b, l'[i]? = some b ∧ R a b := by
  obtain ⟨hlen,hall⟩ := forall₂_iff_places.mp h
  have hi : i < l'.length := hlen ▸ (List.getElem?_eq_some_iff.mp ha).1
  exact ⟨_,List.getElem?_eq_getElem hi,hall i a _ ha (List.getElem?_eq_getElem hi)⟩

theorem place_left (h : List.Forall₂ R l l') {i : ℕ} {b : β} (hb : l'[i]? = some b) :
    ∃ a, l[i]? = some a ∧ R a b := by
  obtain ⟨hlen,hall⟩ := forall₂_iff_places.mp h
  have hi : i < l.length := hlen ▸ (List.getElem?_eq_some_iff.mp hb).1
  exact ⟨_,List.getElem?_eq_getElem hi,hall i _ b (List.getElem?_eq_getElem hi) hb⟩

/-- When one place changes on both sides, the other places have to keep to the
new correspondence. -/
theorem places_set (h : List.Forall₂ R l l') {i : ℕ} {a : α} {b : β} (hab : S a b)
    (hother : ∀ (j : ℕ) c d, j ≠ i → l[j]? = some c → l'[j]? = some d → R c d → S c d) :
    List.Forall₂ S (l.set i a) (l'.set i b) := by
  obtain ⟨hlen,hall⟩ := forall₂_iff_places.mp h
  refine forall₂_iff_places.mpr ⟨by simp [hlen],fun j c d hc hd => ?_⟩
  rw [List.getElem?_set] at hc hd
  by_cases hj : i = j
  · rw [if_pos hj] at hc hd
    split_ifs at hc hd
    obtain rfl := Option.some.inj hc
    obtain rfl := Option.some.inj hd
    exact hab
  · rw [if_neg hj] at hc hd
    exact hother j c d (Ne.symm hj) hc hd (hall j c d hc hd)

end Places

theorem mem_snoc {β : Type*} {s : Multiset β} {t u : β} : u ∈ s+{t} ↔ u ∈ s ∨ u = t := by
  rw [Multiset.mem_add, Multiset.mem_singleton]

end Slots
