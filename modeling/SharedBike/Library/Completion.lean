import SharedBike.Library.GuardedRuns
import SharedBike.Library.Slots

/-!
# Runs that come to an end

If every guarded step lowers a rank, a run is no longer than the rank it begins
with, and from every state some run goes on until no guarded step is left.
-/

set_option autoImplicit false

namespace GuardedRuns.Machine

variable {σ α φ : Type*} {M : Machine σ α φ} {G : σ → α → Prop} {s t : σ} {as : List α}

/-- The rank bounds the length of a run. -/
theorem Run.length_le {I : σ → Prop} {rank : σ → ℕ} (hr : M.Run G s as t) (h0 : I s)
    (hstep : ∀ t a u, I t → G t a → M.Next t a u → I u ∧ rank u < rank t) :
    I t ∧ as.length+rank t ≤ rank s := by
  have h := @Run.ranked _ _ _ M G s t as I (fun _ => 1) rank hr h0 fun t a u hi hg hn => by
    obtain ⟨hu,hlt⟩ := hstep t a u hi hg hn
    exact ⟨hu,by omega⟩
  have hlen : (as.map fun _ => 1).sum = as.length := by simp
  rw [hlen] at h
  exact h

/-- A run that cannot be prolonged. -/
theorem maximal_run {I : σ → Prop} {rank : σ → ℕ} (h0 : I s)
    (hstep : ∀ t a u, I t → G t a → M.Next t a u → I u ∧ rank u < rank t) :
    ∃ as t, M.Run G s as t ∧ I t ∧ ∀ a, G t a → ∀ u, ¬ M.Next t a u := by
  induction hn : rank s using Nat.strongRecOn generalizing s with
  | ind n ih =>
    by_cases hstop : ∀ a, G s a → ∀ u, ¬ M.Next s a u
    · exact ⟨[],s,.nil,h0,hstop⟩
    · simp only [not_forall, not_not] at hstop
      obtain ⟨a,hg,u,hu⟩ := hstop
      obtain ⟨hi,hlt⟩ := hstep s a u h0 hg hu
      obtain ⟨as,t,hr,ht,hlast⟩ := ih (rank u) (hn ▸ hlt) hi rfl
      exact ⟨a::as,t,.cons hg hu hr,ht,hlast⟩

end GuardedRuns.Machine

namespace Slots

variable {α : Type*}

/-- The weights of the slots of a list, where a weight may depend on the place. -/
def weights (f : ℕ → α → ℕ) (l : List α) : ℕ := total id (l.mapIdx f)

/-- When one slot changes, and no weight elsewhere, the sum changes by that slot. -/
theorem weights_set {f g : ℕ → α → ℕ} {l : List α} {w : ℕ} {x : α} (hw : l[w]? = some x) (y : α)
    (hother : ∀ v z, v ≠ w → g v z = f v z) :
    ∃ rest, weights f l = rest+f w x ∧ weights g (l.set w y) = rest+g w y := by
  have hset : (l.set w y).mapIdx g = (l.mapIdx f).set w (g w y) := by
    apply List.ext_getElem?
    intro v
    rw [List.getElem?_mapIdx, List.getElem?_set, List.getElem?_set, List.length_mapIdx,
      List.getElem?_mapIdx]
    by_cases hv : w = v
    · subst hv
      have hlen := (List.getElem?_eq_some_iff.mp hw).1
      simp [hlen]
    · rw [if_neg hv, if_neg hv]
      cases l[v]? with
      | none => rfl
      | some z => simp [hother v z (Ne.symm hv)]
  obtain ⟨rest,h1,h2⟩ := total_split id (l := l.mapIdx f) (i := w) (a := f w x)
    (by rw [List.getElem?_mapIdx, hw]; rfl)
  exact ⟨rest,h1,by rw [weights, hset]; exact h2 (g w y)⟩

/-- Weights below those of the items that the slots hold, with room for more. -/
theorem weights_le {f : ℕ → α → ℕ} {g k : α → ℕ} {l : List α} (h : ∀ w z, f w z+k z ≤ g z) :
    weights f l+total k l ≤ total g l := by
  induction l generalizing f with
  | nil => simp [weights, total]
  | cons x l ih =>
    have hrest := @ih (fun w => f (w+1)) (fun w => h (w+1))
    have hx := h 0 x
    simp only [weights, List.mapIdx_cons, total_cons, id_eq] at hrest ⊢
    omega

end Slots
