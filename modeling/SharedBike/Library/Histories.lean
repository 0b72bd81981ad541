import Mathlib.Data.List.Basic
import Mathlib.Data.List.Induction

/-!
# Histories of two interleaved logs

A history lists the entries of two logs in the order in which they were made.
A property of an entry may refer to everything before it: it is checked once,
when the entry is appended, and holds of every entry from then on.
-/

set_option autoImplicit false

namespace Histories

variable {α β : Type*}

/-- Every entry satisfies `P` together with the entries before it. -/
def Historic (P : List α → α → Prop) (l : List α) : Prop :=
  ∀ pre e post, l = pre++e::post → P pre e

variable {P Q : List α → α → Prop} {l : List α} {x y : α}

theorem historic_nil : Historic P [] := fun _ _ _ h => by simp at h

/-- The last entry of a list, and the place of any other entry in the rest. -/
theorem concat_split {pre post : List α} {e : α} (h : l++[e] = pre++x::post) :
    (pre = l ∧ x = e ∧ post = []) ∨ ∃ rest, post = rest++[e] ∧ l = pre++x::rest := by
  rcases List.eq_nil_or_concat post with rfl | ⟨rest,y,rfl⟩
  · obtain ⟨rfl,hx⟩ := List.append_inj' h rfl
    exact Or.inl ⟨rfl,(List.singleton_inj.mp hx).symm,rfl⟩
  · have h : l++[e] = (pre++x::rest)++[y] := by simpa using h
    obtain ⟨rfl,hy⟩ := List.append_inj' h rfl
    obtain rfl := List.singleton_inj.mp hy
    exact Or.inr ⟨rest,List.concat_eq_append,rfl⟩

theorem historic_snoc (h : Historic P l) (hx : P l x) : Historic P (l++[x]) := by
  intro pre e post hl
  rcases concat_split hl with ⟨rfl,rfl,-⟩ | ⟨rest,-,hold⟩
  · exact hx
  · exact h pre e rest hold

/-- Entries appended together, each checked against what precedes it. -/
theorem historic_append {es : List α} (h : Historic P l)
    (hes : ∀ pre e post, es = pre++e::post → P (l++pre) e) : Historic P (l++es) := by
  induction es using List.reverseRecOn with
  | nil => rwa [List.append_nil]
  | append_singleton es e ih =>
    rw [← List.append_assoc]
    refine historic_snoc (ih fun pre x post hx => hes pre x (post++[e]) ?_) (hes es e [] rfl)
    rw [hx, List.append_assoc, List.cons_append]

theorem Historic.mono (h : Historic P l)
    (hpq : ∀ pre e post, l = pre++e::post → P pre e → Q pre e) : Historic Q l :=
  fun pre e post hl => hpq pre e post hl (h pre e post hl)

/-- Two entries of one list: they are the same, or one stands before the other. -/
theorem entries_compare {a b c d : List α} (h : a++x::b = c++y::d) :
    (a = c ∧ x = y ∧ b = d) ∨ (∃ m, c = a++x::m ∧ b = m++y::d) ∨
      ∃ m, a = c++y::m ∧ d = m++x::b := by
  rcases List.append_eq_append_iff.mp h with ⟨m,hc,hb⟩ | ⟨m,ha,hd⟩
  · cases m with
    | nil =>
      obtain ⟨rfl,rfl⟩ := List.cons.inj hb
      exact Or.inl ⟨by simpa using hc.symm,rfl,rfl⟩
    | cons z m =>
      obtain ⟨rfl,rfl⟩ := List.cons.inj hb
      exact Or.inr (Or.inl ⟨m,hc,rfl⟩)
  · cases m with
    | nil =>
      obtain ⟨rfl,rfl⟩ := List.cons.inj hd
      exact Or.inl ⟨by simpa using ha,rfl,rfl⟩
    | cons z m =>
      obtain ⟨rfl,rfl⟩ := List.cons.inj hd
      exact Or.inr (Or.inr ⟨m,ha,rfl⟩)

/-- The last entry with a property is found again from any split at such an entry
after which none follows. -/
theorem last_unique {p : α → Prop} {a b c d : List α} (h : a++x::b = c++y::d) (hx : p x)
    (hy : p y) (hb : ∀ e ∈ b, ¬ p e) (hd : ∀ e ∈ d, ¬ p e) : a = c ∧ x = y ∧ b = d := by
  rcases entries_compare h with hsame | ⟨m,-,rfl⟩ | ⟨m,-,rfl⟩
  · exact hsame
  · exact absurd hy (hb y (by simp))
  · exact absurd hx (hd x (by simp))

def lefts (l : List (α ⊕ β)) : List α := l.filterMap Sum.getLeft?

def rights (l : List (α ⊕ β)) : List β := l.filterMap Sum.getRight?

theorem lefts_append (l es : List (α ⊕ β)) : lefts (l++es) = lefts l++lefts es :=
  List.filterMap_append

theorem rights_append (l es : List (α ⊕ β)) : rights (l++es) = rights l++rights es :=
  List.filterMap_append

@[simp] theorem lefts_inl (es : List α) : lefts (es.map (@Sum.inl α β)) = es := by
  induction es with
  | nil => rfl
  | cons e es ih => exact congrArg (e::·) ih

@[simp] theorem rights_inr (es : List β) : rights (es.map (@Sum.inr α β)) = es := by
  induction es with
  | nil => rfl
  | cons e es ih => exact congrArg (e::·) ih

@[simp] theorem lefts_inr (es : List β) : lefts (es.map (@Sum.inr α β)) = [] := by
  induction es with
  | nil => rfl
  | cons e es ih => exact ih

@[simp] theorem rights_inl (es : List α) : rights (es.map (@Sum.inl α β)) = [] := by
  induction es with
  | nil => rfl
  | cons e es ih => exact ih

theorem mem_rights {l : List (α ⊕ β)} {e : β} : e ∈ rights l ↔ .inr e ∈ l := by
  simp [rights, Sum.getRight?_eq_some_iff]

/-- An entry of the right log stands at one place of the history. -/
theorem rights_split {l : List (α ⊕ β)} {a b : List β} {e : β} (h : rights l = a++e::b) :
    ∃ pre post, l = pre++.inr e::post ∧ rights pre = a ∧ rights post = b := by
  obtain ⟨pre,rest,rfl,hpre,hrest⟩ := List.filterMap_eq_append_iff.mp h
  obtain ⟨skip,x,post,rfl,hskip,hx,hpost⟩ := List.filterMap_eq_cons_iff.mp hrest
  obtain rfl := Sum.getRight?_eq_some_iff.mp hx
  refine ⟨pre++skip,post,by simp,?_,hpost⟩
  have hnone : rights skip = [] := List.filterMap_eq_nil_iff.mpr hskip
  rw [rights_append, hnone, List.append_nil]
  exact hpre

end Histories
